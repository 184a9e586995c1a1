import HydraAmix.Library.BitStream
import HydraAmix.Library.Word
import HydraAmix.Floppy.Device
import Mathlib.Data.List.Basic
import Mathlib.Logic.Function.Basic

/-!
# MS-DOS tracks: writing

`encode` fills the track buffer with gap bytes and builds a track in its end:
an index mark and the sectors, each with an id mark and a data mark. A byte is
stored as a word, every data bit followed by a clock bit. The last clock bit of
a word depends on the word after it, and is set when that is written.

The buffer is addressed in words, `pos` being `mfmnext`; what it held before is
arbitrary.
-/
namespace HydraAmix.Floppy.Msdos
open Word BitStream

abbrev BPSEC : ℕ := 512
abbrev TRKPCYL : ℕ := 2
abbrev TRACKS : ℕ := 160

inductive Density
  | low
  | high
  deriving DecidableEq, Repr

namespace Density

/-- `NSECL` and `NSECH` -/
def nsec : Density → ℕ
  | low => 9
  | high => 18

/-- `TRKUSEDL` and `TRKUSEDH` -/
def trkused : Density → ℕ
  | low => 12028
  | high => 24056

/-- `TRKSLOPL` and `TRKSLOPH` -/
def trkslop : Density → ℕ
  | low => 1600
  | high => 3200

/-- The words written: `TRKWLENL` and `TRKWLENH`. -/
def trkwlen (d : Density) : ℕ := (d.trkused + d.trkslop + 2) / 2

end Density

/-- The words of an `mfmsec`, and of an `mfmtrkl` or `mfmtrkh` before and with
its sectors. -/
abbrev SECWORDS : ℕ := 654
abbrev IAWORDS : ℕ := 146

def Density.trkwords (d : Density) : ℕ := IAWORDS + SECWORDS * d.nsec

/-! ### Tables -/

/-- The loop of `makemfmtab` for a byte, with `bit` bits to go. -/
def makemfmtab (ch : Byte) : ℕ → BitVec 16 → BitVec 16
  | 0, res => res
  | bit + 1, res =>
      makemfmtab ch bit (res <<< 2 |||
        if ch.getLsbD bit then 2 else if bit != 0 && ch.getLsbD (bit - 1) then 0 else 1)

/-- A byte with its clock bits, the last one clear. -/
def mtab (ch : Byte) : BitVec 16 := makemfmtab ch 8 0 &&& ~~~1

/-- The entry of `makecrc` for a byte. -/
def makecrc (byte : Byte) : BitVec 32 :=
  (List.range 8).foldl (fun res i =>
    let res := res <<< 1
    let res := if res &&& 0x10000 ≠ 0 then res ^^^ 0x11021 else res
    if byte.getLsbD (7 - i) then res ^^^ 0x1021 else res) 0

/-- One byte of `crc`: the high and the low byte. -/
def crcStep (c : Byte × Byte) (byte : Byte) : Byte × Byte :=
  let res := makecrc (c.1 ^^^ byte)
  ((res >>> 8).setWidth 8 ^^^ c.2, res.setWidth 8)

/-- `crc`, as its two bytes. -/
def crc (bytes : List Byte) : Byte × Byte := bytes.foldl crcStep (0xFF, 0xFF)

theorem crcStep_self (h l : Byte) : crcStep (h, l) h = (l, 0) := by
  have hzero : makecrc 0#8 = 0#32 := by decide
  have hhigh : (0#32 >>> 8).setWidth 8 = 0#8 := by decide
  simp only [crcStep, BitVec.xor_self, hzero, hhigh, BitVec.zero_xor]
  rfl

/-- With its `crc` after it a list of bytes has `crc` zero. -/
theorem crc_append (bytes : List Byte) :
    crc (bytes ++ [(crc bytes).1, (crc bytes).2]) = (0, 0) := by
  rw [crc, List.foldl_append]
  change crcStep (crcStep (crc bytes) (crc bytes).1) (crc bytes).2 = (0, 0)
  rw [crcStep_self, crcStep_self]

structure MfmBuf where
  mem : ℕ → BitVec 16
  pos : ℕ

namespace MfmBuf

/-- The last clock bit of the word before is set. -/
def setClock (s : MfmBuf) : MfmBuf :=
  ⟨Function.update s.mem (s.pos - 1) (s.mem (s.pos - 1) ||| 1), s.pos⟩

def write (s : MfmBuf) (w : BitVec 16) : MfmBuf := ⟨Function.update s.mem s.pos w, s.pos + 1⟩

/-- The loop of `mfm`, with the last data bit. -/
def mfmLoop : List Byte → Bool → MfmBuf → MfmBuf
  | [], _, s => s
  | ch :: from', last, s =>
      let s := if last = false ∧ ch.getLsbD 7 = false then s.setClock else s
      mfmLoop from' (ch.getLsbD 0) (s.write (mtab ch))

def mfm (from' : List Byte) (s : MfmBuf) : MfmBuf :=
  mfmLoop from' ((s.mem (s.pos - 1)).getLsbD 1) s

def writes : List (BitVec 16) → MfmBuf → MfmBuf
  | [], s => s
  | w :: ws, s => writes ws (s.write w)

def mfmrep (byte : Byte) (cnt : ℕ) (s : MfmBuf) : MfmBuf :=
  if cnt = 0 then s
  else if cnt - 1 = 0 then s.mfm [byte]
  else
    let s := s.mfm [byte] |>.mfm [byte]
    let val := s.mem (s.pos - 2)
    let s : MfmBuf := ⟨Function.update s.mem (s.pos - 1) val, s.pos⟩
    let s := s.writes (List.replicate (cnt - 2) val)
    ⟨Function.update s.mem (s.pos - 1) (s.mem (s.pos - 1) &&& ~~~1), s.pos⟩

def mfmcopy : List (BitVec 16) → MfmBuf → MfmBuf
  | [], s => s
  | w :: ws, s =>
      let s :=
        if (s.mem (s.pos - 1)).getLsbD 1 = false ∧ w.getLsbD 15 = false then s.setClock else s
      s.writes (w :: ws)

end MfmBuf

def iamagic : List (BitVec 16) := [0xA448, 0xA448, 0xA448, 0xAAA4]
def idamagic : List (BitVec 16) := [0x8912, 0x8912, 0x8912, 0xAAA8]
def damagic : List (BitVec 16) := [0x8912, 0x8912, 0x8912, 0xAA8A]

/-- A list of bytes with its `crc`, without the first four, the mark. -/
def tail (bytes : List Byte) : List Byte := bytes.drop 4 ++ [(crc bytes).1, (crc bytes).2]

/-- `dida` and `dda` up to the `crc`. -/
def ida (cyl head sec : ℕ) : List Byte :=
  [0xA1, 0xA1, 0xA1, 0xFE, BitVec.ofNat 8 cyl, BitVec.ofNat 8 head, BitVec.ofNat 8 sec, 0x02]

def da (data : List Byte) : List Byte := [0xA1, 0xA1, 0xA1, 0xFB] ++ data

/-- The data of a sector of the user's buffer. -/
def sectorData (buffer : ℕ → Byte) (sec : ℕ) : List Byte :=
  (List.range BPSEC).map fun i => buffer (BPSEC * sec + i)

namespace MfmBuf

def dosec (cyl head sec : ℕ) (data : List Byte) (s : MfmBuf) : MfmBuf :=
  s.mfmrep 0x00 12 |>.mfmcopy idamagic |>.mfm (tail (ida cyl head sec)) |>.mfmrep 0x4E 22
    |>.mfmrep 0x00 12 |>.mfmcopy damagic |>.mfm (tail (da data)) |>.mfmrep 0x4E 80

/-- `encode`: the track buffer. What is written begins at its second word. -/
def encode (d : Density) (track : ℕ) (buffer : ℕ → Byte) (trkbuf : ℕ → BitVec 16) :
    ℕ → BitVec 16 :=
  let s : MfmBuf := ⟨Function.update trkbuf 0 0, 1⟩
  let s := s.mfmrep 0x4E d.trkwlen
  let s : MfmBuf := ⟨s.mem, s.pos - d.trkwords⟩
  let s := s.mfmrep 0x4E 80 |>.mfmrep 0x00 12 |>.mfmcopy iamagic |>.mfmrep 0x4E 50
  let s := (List.range d.nsec).foldl (fun s sec =>
    s.dosec (track / TRKPCYL) (track % TRKPCYL) (sec + 1) (sectorData buffer sec)) s
  s.mem

end MfmBuf

/-! ### One word after another -/

/-- A clock bit belongs between two words. -/
def joins (v w : BitVec 16) : Bool := !v.getLsbD 1 && !w.getLsbD 15

/-- A word with its last clock bit, before the next one. -/
def clocked (v : BitVec 16) : Option (BitVec 16) → BitVec 16
  | none => v
  | some w => if joins v w then v ||| 1 else v

namespace MfmBuf

/-- A word after the others, with the clock bit between. -/
def put (s : MfmBuf) (w : BitVec 16) : MfmBuf :=
  (if joins (s.mem (s.pos - 1)) w then s.setClock else s).write w

def puts (s : MfmBuf) (ws : List (BitVec 16)) : MfmBuf := ws.foldl put s

theorem puts_append (s : MfmBuf) (ws ws' : List (BitVec 16)) :
    s.puts (ws ++ ws') = (s.puts ws).puts ws' := List.foldl_append

theorem mem_write_of_ne (s : MfmBuf) (w : BitVec 16) {i : ℕ} (hi : i ≠ s.pos) :
    (s.write w).mem i = s.mem i := Function.update_of_ne hi ..

theorem mem_setClock_self (s : MfmBuf) : s.setClock.mem (s.pos - 1) = s.mem (s.pos - 1) ||| 1 :=
  Function.update_self ..

theorem mem_setClock_of_ne (s : MfmBuf) {i : ℕ} (hi : i ≠ s.pos - 1) :
    s.setClock.mem i = s.mem i := Function.update_of_ne hi ..

theorem mem_put_pos (s : MfmBuf) (w : BitVec 16) : (s.put w).mem s.pos = w := by
  unfold put
  split_ifs
  · exact Function.update_self ..
  · exact Function.update_self ..

theorem put_pos (s : MfmBuf) (w : BitVec 16) : (s.put w).pos = s.pos + 1 := by
  unfold put
  split_ifs
  · rfl
  · rfl

theorem mem_put_prev {s : MfmBuf} (hs : 0 < s.pos) (w : BitVec 16) :
    (s.put w).mem (s.pos - 1) = clocked (s.mem (s.pos - 1)) (some w) := by
  have hne : s.pos - 1 ≠ s.pos := by omega
  rw [put, clocked]
  split_ifs
  · exact (mem_write_of_ne s.setClock w hne).trans (mem_setClock_self s)
  · rw [mem_write_of_ne _ _ hne]

theorem mem_put_of_lt {s : MfmBuf} (w : BitVec 16) {i : ℕ} (hi : i + 1 < s.pos) :
    (s.put w).mem i = s.mem i := by
  have hne : i ≠ s.pos := by omega
  rw [put]
  split_ifs
  · exact (mem_write_of_ne s.setClock w hne).trans (mem_setClock_of_ne s (by omega))
  · rw [mem_write_of_ne _ _ hne]

/-- What a row of words leaves. -/
structure Wrote (s s' : MfmBuf) (ws : List (BitVec 16)) : Prop where
  pos : s'.pos = s.pos + ws.length
  before : ∀ i, i + 1 < s.pos → s'.mem i = s.mem i
  prev : s'.mem (s.pos - 1) = clocked (s.mem (s.pos - 1)) ws[0]?
  words : ∀ (i : ℕ) (w : BitVec 16), ws[i]? = some w → s'.mem (s.pos + i) = clocked w ws[i + 1]?

theorem puts_wrote {s : MfmBuf} (hs : 0 < s.pos) (ws : List (BitVec 16)) :
    Wrote s (s.puts ws) ws := by
  induction ws generalizing s with
  | nil => exact ⟨rfl, fun _ _ => rfl, rfl, nofun⟩
  | cons w ws ih =>
      have h := ih (s := s.put w) (by rw [put_pos]; omega)
      refine ⟨?_, fun i hi => ?_, ?_, fun i x hx => ?_⟩
      · rw [puts, List.foldl_cons, ← puts, h.pos, put_pos, List.length_cons, Nat.add_right_comm,
          Nat.add_assoc]
      · rw [puts, List.foldl_cons, ← puts, h.before i (by rw [put_pos]; omega), mem_put_of_lt w hi]
      · rw [puts, List.foldl_cons, ← puts, h.before _ (by rw [put_pos]; omega), mem_put_prev hs]
        rfl
      · rw [puts, List.foldl_cons, ← puts]
        cases i with
        | zero =>
            obtain rfl := Option.some.inj hx
            have hp := h.prev
            rw [put_pos, Nat.add_sub_cancel, mem_put_pos] at hp
            exact hp
        | succ i =>
            have hp := h.words i x hx
            rw [put_pos, Nat.add_right_comm, Nat.add_assoc] at hp
            exact hp

/-! ### The routines put words -/

theorem mtab_ends : ∀ ch : Byte, (mtab ch).getLsbD 0 = false ∧
    (mtab ch).getLsbD 1 = ch.getLsbD 0 ∧ (mtab ch).getLsbD 15 = ch.getLsbD 7 := by decide +kernel

theorem put_of_ch (s : MfmBuf) (ch : Byte) :
    (if (s.mem (s.pos - 1)).getLsbD 1 = false ∧ ch.getLsbD 7 = false then s.setClock else s).write
      (mtab ch) = s.put (mtab ch) := by
  have hiff : joins (s.mem (s.pos - 1)) (mtab ch) = true ↔
      (s.mem (s.pos - 1)).getLsbD 1 = false ∧ ch.getLsbD 7 = false := by
    rw [joins, (mtab_ends ch).2.2, Bool.and_eq_true, Bool.not_eq_true', Bool.not_eq_true']
  simp only [put, hiff]

theorem mfmLoop_eq (from' : List Byte) (s : MfmBuf) :
    mfmLoop from' ((s.mem (s.pos - 1)).getLsbD 1) s = s.puts (from'.map mtab) := by
  induction from' generalizing s with
  | nil => rfl
  | cons ch from' ih =>
      have hlast : ch.getLsbD 0 =
          ((s.put (mtab ch)).mem ((s.put (mtab ch)).pos - 1)).getLsbD 1 := by
        rw [put_pos, Nat.add_sub_cancel, mem_put_pos, (mtab_ends ch).2.1]
      rw [mfmLoop, put_of_ch, hlast, ih]
      rfl

theorem mfm_eq (from' : List Byte) (s : MfmBuf) : s.mfm from' = s.puts (from'.map mtab) :=
  mfmLoop_eq from' s

/-- No clock bit belongs between the words of a mark. -/
theorem writes_eq {s : MfmBuf} {v : BitVec 16} {ws : List (BitVec 16)}
    (hv : s.mem (s.pos - 1) = v) (h : (v :: ws).IsChain fun v w => joins v w = false) :
    s.writes ws = s.puts ws := by
  induction ws generalizing s v with
  | nil => rfl
  | cons w ws ih =>
      rw [List.isChain_cons_cons] at h
      have hput : s.put w = s.write w := by rw [put, hv, h.1, if_neg Bool.false_ne_true]
      rw [writes, puts, List.foldl_cons, hput]
      refine ih ?_ h.2
      exact Function.update_self ..

theorem mfmcopy_eq {ws : List (BitVec 16)} (h : ws.IsChain fun v w => joins v w = false)
    (s : MfmBuf) : s.mfmcopy ws = s.puts ws := by
  cases ws with
  | nil => rfl
  | cons w ws =>
      have hput : (if (s.mem (s.pos - 1)).getLsbD 1 = false ∧ w.getLsbD 15 = false then s.setClock
          else s).write w = s.put w := by
        have hiff : joins (s.mem (s.pos - 1)) w = true ↔
            (s.mem (s.pos - 1)).getLsbD 1 = false ∧ w.getLsbD 15 = false := by
          rw [joins, Bool.and_eq_true, Bool.not_eq_true', Bool.not_eq_true']
        simp only [put, hiff]
      rw [mfmcopy, writes, hput, puts, List.foldl_cons]
      refine writes_eq ?_ h
      rw [put_pos, Nat.add_sub_cancel, mem_put_pos]

/-- Copies of a word with its clock bit, the clock bit of the last cleared again. -/
theorem writes_replicate {s : MfmBuf} (hs : 0 < s.pos) {v w : BitVec 16}
    (hw : s.mem (s.pos - 1) = w) (hv : v = clocked w (some w)) (hclear : v &&& ~~~1 = w) (n : ℕ) :
    (fun t : MfmBuf =>
      (⟨Function.update t.mem (t.pos - 1) (t.mem (t.pos - 1) &&& ~~~1), t.pos⟩ : MfmBuf))
      (writes (List.replicate n v) ⟨Function.update s.mem (s.pos - 1) v, s.pos⟩) =
        s.puts (List.replicate n w) := by
  induction n generalizing s with
  | zero =>
      simp only [List.replicate_zero, writes, puts, List.foldl_nil, Function.update_self, hclear,
        Function.update_idem]
      rw [← hw, Function.update_eq_self]
  | succ n ih =>
      have hstep : (⟨Function.update s.mem (s.pos - 1) v, s.pos⟩ : MfmBuf).write v =
          ⟨Function.update (s.put w).mem ((s.put w).pos - 1) v, (s.put w).pos⟩ := by
        rw [put_pos, Nat.add_sub_cancel, put, hw, hv, clocked]
        split_ifs with hj
        · simp only [write, setClock, Function.update_idem, hw]
        · simp only [write, Function.update_idem]
          rw [← hw, Function.update_eq_self]
      rw [List.replicate_succ, writes, hstep, List.replicate_succ, puts, List.foldl_cons]
      refine ih (by rw [put_pos]; omega) ?_
      rw [put_pos, Nat.add_sub_cancel, mem_put_pos]

theorem mfmrep_eq (byte : Byte) (cnt : ℕ) {s : MfmBuf} (hs : 0 < s.pos) :
    s.mfmrep byte cnt = s.puts (List.replicate cnt (mtab byte)) := by
  rcases cnt with - | - | cnt
  · rfl
  · rw [mfmrep, if_neg (by decide), if_pos rfl, mfm_eq]
    rfl
  · have hval : ∀ s : MfmBuf, 0 < s.pos →
        ((s.put (mtab byte)).put (mtab byte)).mem (s.pos) =
          clocked (mtab byte) (some (mtab byte)) := fun s hs => by
      have := mem_put_prev (s := s.put (mtab byte)) (by rw [put_pos]; omega) (mtab byte)
      rwa [put_pos, Nat.add_sub_cancel, mem_put_pos] at this
    have hclear : ∀ byte : Byte, clocked (mtab byte) (some (mtab byte)) &&& ~~~1 = mtab byte := by
      decide +kernel
    have h := writes_replicate (s := (s.put (mtab byte)).put (mtab byte))
      (by rw [put_pos]; omega) (by rw [put_pos, Nat.add_sub_cancel, mem_put_pos]) rfl (hclear byte)
      cnt
    rw [mfmrep, if_neg (by omega), if_neg (by omega)]
    simp only [mfm_eq]
    have hp : ((s.put (mtab byte)).put (mtab byte)).pos - 2 = s.pos := by
      rw [put_pos, put_pos]
      rfl
    have hputs : (s.puts ([byte].map mtab)).puts ([byte].map mtab) =
      (s.put (mtab byte)).put (mtab byte) := rfl
    rw [hputs, hp, hval s hs]
    exact h

end MfmBuf
/-! ### The words of a track -/

/-- The words of a sector, without the clock bits between them. -/
def sectorWords (cyl head sec : ℕ) (data : List Byte) : List (BitVec 16) :=
  List.replicate 12 (mtab 0x00) ++ (idamagic ++ ((tail (ida cyl head sec)).map mtab ++
    (List.replicate 22 (mtab 0x4E) ++ (List.replicate 12 (mtab 0x00) ++ (damagic ++
      ((tail (da data)).map mtab ++ List.replicate 80 (mtab 0x4E)))))))

def trackWords (d : Density) (track : ℕ) (buffer : ℕ → Byte) : List (BitVec 16) :=
  List.replicate 80 (mtab 0x4E) ++ (List.replicate 12 (mtab 0x00) ++ (iamagic ++
    (List.replicate 50 (mtab 0x4E) ++ (List.range d.nsec).flatMap fun sec =>
      sectorWords (track / TRKPCYL) (track % TRKPCYL) (sec + 1) (sectorData buffer sec))))

/-- The words of the gap before the track. -/
def Density.lead (d : Density) : ℕ := d.trkwlen - d.trkwords

/-- All words written. -/
def words (d : Density) (track : ℕ) (buffer : ℕ → Byte) : List (BitVec 16) :=
  List.replicate d.lead (mtab 0x4E) ++ trackWords d track buffer

namespace MfmBuf

theorem puts_pos (s : MfmBuf) (ws : List (BitVec 16)) : (s.puts ws).pos = s.pos + ws.length := by
  induction ws generalizing s with
  | nil => rfl
  | cons w ws ih =>
      have := ih (s.put w)
      rw [put_pos] at this
      rw [puts, List.foldl_cons, ← puts, this, List.length_cons, Nat.add_right_comm, Nat.add_assoc]

theorem dosec_eq (cyl head sec : ℕ) (data : List Byte) {s : MfmBuf} (hs : 0 < s.pos) :
    s.dosec cyl head sec data = s.puts (sectorWords cyl head sec data) := by
  have hid : idamagic.IsChain fun v w => joins v w = false := by decide
  have hda : damagic.IsChain fun v w => joins v w = false := by decide
  have hpos : ∀ ws, 0 < (s.puts ws).pos := fun ws => by
    rw [puts_pos]
    omega
  simp only [dosec, sectorWords, mfmcopy_eq hid, mfmcopy_eq hda, mfm_eq, mfmrep_eq _ _ hs,
    ← puts_append]
  simp only [mfmrep_eq _ _ (hpos _), ← puts_append, List.append_assoc]

end MfmBuf

/-! ### Where the words are -/

section
variable {α : Type} {c : ℕ} {f : ℕ → List α}

theorem length_flatMap_range (hf : ∀ i, (f i).length = c) (n : ℕ) :
    ((List.range n).flatMap f).length = c * n := by
  induction n with
  | zero => rfl
  | succ n ih =>
      rw [List.range_succ, List.flatMap_append, List.length_append, ih, List.flatMap_singleton, hf,
        Nat.mul_succ]

theorem getElem?_flatMap_range (hf : ∀ i, (f i).length = c) {n i r : ℕ} (hi : i < n) (hr : r < c) :
    ((List.range n).flatMap f)[c * i + r]? = (f i)[r]? := by
  have hlen := length_flatMap_range hf
  induction n with
  | zero => exact absurd hi (Nat.not_lt_zero i)
  | succ n ih =>
      rw [List.range_succ, List.flatMap_append, List.flatMap_singleton]
      rcases Nat.lt_succ_iff_lt_or_eq.mp hi with hlt | rfl
      · have hmul := Nat.mul_le_mul_left c (Nat.succ_le_of_lt hlt)
        rw [Nat.mul_succ] at hmul
        rw [List.getElem?_append_left (by rw [hlen]; omega), ih hlt]
      · rw [List.getElem?_append_right (by rw [hlen]; omega), hlen, Nat.add_sub_cancel_left]

end

theorem tail_length (bytes : List Byte) : (tail bytes).length = bytes.length - 4 + 2 := by
  rw [tail, List.length_append, List.length_drop]
  rfl

theorem da_length (buffer : ℕ → Byte) (sec : ℕ) : (da (sectorData buffer sec)).length = 516 := by
  rw [da, List.length_append, sectorData, List.length_map, List.length_range]
  rfl

theorem sectorWords_length (cyl head sec : ℕ) {data : List Byte} (h : (da data).length = 516) :
    (sectorWords cyl head sec data).length = SECWORDS := by
  simp only [sectorWords, List.length_append, List.length_replicate, List.length_map, tail_length, h,
    ida, idamagic, damagic, List.length_cons, List.length_nil]

section
variable (d : Density) (track : ℕ) (buffer : ℕ → Byte)

theorem trackWords_length : (trackWords d track buffer).length = d.trkwords := by
  have hsec := length_flatMap_range (fun sec => sectorWords_length (track / TRKPCYL)
    (track % TRKPCYL) (sec + 1) (da_length buffer sec)) d.nsec
  simp only [trackWords, List.length_append, List.length_replicate, iamagic, hsec, List.length_cons,
    List.length_nil, Density.trkwords, IAWORDS]
  rw [← Nat.add_assoc, ← Nat.add_assoc, ← Nat.add_assoc]

theorem Density.trkwords_le : d.trkwords ≤ d.trkwlen := by
  cases d with
  | low => decide
  | high => decide

theorem words_length : (words d track buffer).length = d.trkwlen := by
  rw [words, List.length_append, List.length_replicate, trackWords_length, Density.lead,
    Nat.sub_add_cancel d.trkwords_le]

theorem dosecs_eq (l : List ℕ) {s : MfmBuf} (hs : 0 < s.pos) :
    l.foldl (fun s sec => s.dosec (track / TRKPCYL) (track % TRKPCYL) (sec + 1)
      (sectorData buffer sec)) s = s.puts (l.flatMap fun sec =>
        sectorWords (track / TRKPCYL) (track % TRKPCYL) (sec + 1) (sectorData buffer sec)) := by
  induction l generalizing s with
  | nil => rfl
  | cons sec l ih =>
      rw [List.foldl_cons, MfmBuf.dosec_eq _ _ _ _ hs, ih (by rw [MfmBuf.puts_pos]; omega),
        ← MfmBuf.puts_append, List.flatMap_cons]

theorem encode_eq (trkbuf : ℕ → BitVec 16) :
    MfmBuf.encode d track buffer trkbuf = (MfmBuf.puts
      ⟨(MfmBuf.puts ⟨Function.update trkbuf 0 0, 1⟩ (List.replicate d.trkwlen (mtab 0x4E))).mem,
        1 + d.lead⟩ (trackWords d track buffer)).mem := by
  have hia : iamagic.IsChain fun v w => joins v w = false := by decide
  have hone : 0 < (⟨Function.update trkbuf 0 0, 1⟩ : MfmBuf).pos := Nat.one_pos
  have hle := d.trkwords_le
  simp only [MfmBuf.encode, MfmBuf.mfmrep_eq _ _ hone, MfmBuf.puts_pos, List.length_replicate]
  have hpos : 1 + d.trkwlen - d.trkwords = 1 + d.lead := by
    rw [Density.lead]
    omega
  rw [hpos]
  generalize (MfmBuf.puts ⟨Function.update trkbuf 0 0, 1⟩
    (List.replicate d.trkwlen (mtab 0x4E))).mem = mem
  have hlead : 0 < (⟨mem, 1 + d.lead⟩ : MfmBuf).pos := Nat.lt_of_lt_of_le Nat.one_pos
    (Nat.le_add_right 1 _)
  have hputs : ∀ ws, 0 < (MfmBuf.puts ⟨mem, 1 + d.lead⟩ ws).pos := fun ws => by
    rw [MfmBuf.puts_pos]
    exact Nat.lt_of_lt_of_le hlead (Nat.le_add_right _ _)
  rw [trackWords, MfmBuf.mfmrep_eq _ _ hlead, MfmBuf.mfmrep_eq _ _ (hputs _), ← MfmBuf.puts_append,
    MfmBuf.mfmcopy_eq hia, ← MfmBuf.puts_append, MfmBuf.mfmrep_eq _ _ (hputs _),
    ← MfmBuf.puts_append, dosecs_eq _ _ _ (hputs _), ← MfmBuf.puts_append]
  simp only [List.append_assoc]

/-- What the track buffer holds: the words, with the clock bits between them. -/
theorem encode_words (trkbuf : ℕ → BitVec 16) (j : ℕ) (w : BitVec 16)
    (h : (words d track buffer)[j]? = some w) :
    MfmBuf.encode d track buffer trkbuf (j + 1) = clocked w (words d track buffer)[j + 1]? := by
  rw [encode_eq]
  have hle := d.trkwords_le
  have hgap := MfmBuf.puts_wrote (s := ⟨Function.update trkbuf 0 0, 1⟩) Nat.one_pos
    (List.replicate d.trkwlen (mtab 0x4E))
  generalize (MfmBuf.puts ⟨Function.update trkbuf 0 0, 1⟩
    (List.replicate d.trkwlen (mtab 0x4E))) = t at hgap
  have htrk := MfmBuf.puts_wrote (s := ⟨t.mem, 1 + d.lead⟩)
    (Nat.lt_of_lt_of_le Nat.one_pos (Nat.le_add_right 1 _)) (trackWords d track buffer)
  have hlen : (List.replicate d.lead (mtab 0x4E)).length = d.lead := List.length_replicate
  have hlt : d.lead < d.trkwlen := by
    cases d with
    | low => decide
    | high => decide
  rcases Nat.lt_or_ge j d.lead with hj | hj
  · -- the gap, which goes on in the track
    rw [words, List.getElem?_append_left (by omega), List.getElem?_replicate_of_lt hj] at h
    obtain rfl := Option.some.inj h
    have hnext : (words d track buffer)[j + 1]? = some (mtab 0x4E) := by
      rcases Nat.lt_or_ge (j + 1) d.lead with hj' | hj'
      · rw [words, List.getElem?_append_left (by omega), List.getElem?_replicate_of_lt hj']
      · have hzero : j + 1 - d.lead = 0 := by omega
        rw [words, List.getElem?_append_right (by omega), hlen, hzero]
        rfl
    have hold : t.mem (j + 1) = clocked (mtab 0x4E) (some (mtab 0x4E)) := by
      have := hgap.words j _ (List.getElem?_replicate_of_lt (by omega))
      rwa [List.getElem?_replicate_of_lt (by omega), Nat.add_comm] at this
    rw [hnext]
    rcases Nat.lt_or_ge (j + 1) d.lead with hj' | hj'
    · rw [htrk.before (j + 1) (by change j + 1 + 1 < 1 + d.lead; omega)]
      exact hold
    · have hprev := htrk.prev
      have hp : 1 + d.lead - 1 = j + 1 := by omega
      simp only [hp, hold] at hprev
      have hfirst : (trackWords d track buffer)[0]? = some (mtab 0x4E) := rfl
      rw [hprev, hfirst]
      decide
  · have hnext : ∀ i, d.lead ≤ i → (words d track buffer)[i]? =
        (trackWords d track buffer)[i - d.lead]? := fun i hi => by
      rw [words, List.getElem?_append_right (by omega), hlen]
    rw [hnext j hj] at h
    have hw := htrk.words (j - d.lead) w h
    have hp : 1 + d.lead + (j - d.lead) = j + 1 := by omega
    have hp' : j + 1 - d.lead = j - d.lead + 1 := by omega
    simp only [hp] at hw
    rw [hw, hnext (j + 1) (by omega), hp']

end

/-! ### The layout -/

/-- Where the index mark is, where a sector begins, and where its marks are. -/
def Density.iaPos (d : Density) : ℕ := d.lead + 92
def Density.secPos (d : Density) (sec : ℕ) : ℕ := d.lead + IAWORDS + SECWORDS * sec
def Density.idPos (d : Density) (sec : ℕ) : ℕ := d.secPos sec + 12
def Density.daPos (d : Density) (sec : ℕ) : ℕ := d.secPos sec + 56

theorem getElem?_rest {α : Type} {pre post : List α} {n : ℕ} (hn : pre.length = n) (i : ℕ) :
    (pre ++ post)[n + i]? = post[i]? := by
  rw [List.getElem?_append_right (by omega)]
  congr 1
  omega

theorem getElem?_mtab {l : List Byte} {post : List (BitVec 16)} {i : ℕ} (hi : i < l.length) :
    (l.map mtab ++ post)[i]? = some (mtab (l.get ⟨i, hi⟩)) := by
  rw [List.getElem?_append_left (by rwa [List.length_map]), List.getElem?_map,
    List.getElem?_eq_getElem hi]
  rfl

theorem iamagic_length : iamagic.length = 4 := rfl
theorem idamagic_length : idamagic.length = 4 := rfl
theorem damagic_length : damagic.length = 4 := rfl

/-- The bytes of a sector between its marks and after them. -/
def betweenMarks (cyl head sec : ℕ) : List Byte :=
  tail (ida cyl head sec) ++ (List.replicate 22 0x4E ++ List.replicate 12 0x00)

def afterMarks (data : List Byte) : List Byte := tail (da data) ++ List.replicate 80 0x4E

theorem sectorWords_eq (cyl head sec : ℕ) (data : List Byte) : sectorWords cyl head sec data =
    (List.replicate 12 0x00).map mtab ++ (idamagic ++ ((betweenMarks cyl head sec).map mtab ++
      (damagic ++ (afterMarks data).map mtab))) := by
  simp only [sectorWords, betweenMarks, afterMarks, List.map_append, List.map_replicate,
    List.append_assoc]

theorem betweenMarks_length (cyl head sec : ℕ) : (betweenMarks cyl head sec).length = 40 := by
  simp only [betweenMarks, List.length_append, tail_length, List.length_replicate, ida,
    List.length_cons, List.length_nil]

section
variable {d : Density} {track : ℕ} {buffer : ℕ → Byte} {sec : ℕ}

theorem words_sector (hsec : sec < d.nsec) {r : ℕ} (hr : r < SECWORDS) :
    (words d track buffer)[d.secPos sec + r]? =
      (sectorWords (track / TRKPCYL) (track % TRKPCYL) (sec + 1) (sectorData buffer sec))[r]? := by
  have hp : d.secPos sec + r = d.lead + (80 + (12 + (4 + (50 + (SECWORDS * sec + r))))) := by
    rw [Density.secPos, IAWORDS]
    omega
  rw [hp, words, trackWords, getElem?_rest List.length_replicate, getElem?_rest List.length_replicate,
    getElem?_rest List.length_replicate, getElem?_rest iamagic_length,
    getElem?_rest List.length_replicate]
  exact getElem?_flatMap_range (fun sec => sectorWords_length (track / TRKPCYL) (track % TRKPCYL)
    (sec + 1) (da_length buffer sec)) hsec hr

/-- A sector's words are bytes, but for its two marks. -/
theorem words_sync (hsec : sec < d.nsec) {r : ℕ} (hr : r < 12) :
    (words d track buffer)[d.secPos sec + r]? = some (mtab 0x00) := by
  rw [words_sector hsec (by unfold SECWORDS; omega), sectorWords,
    List.getElem?_append_left (by rwa [List.length_replicate]), List.getElem?_replicate_of_lt hr]

theorem words_id (hsec : sec < d.nsec) {k : ℕ} (hk : k < 4) :
    (words d track buffer)[d.idPos sec + k]? = idamagic[k]? := by
  rw [Density.idPos, Nat.add_assoc, words_sector hsec (by unfold SECWORDS; omega), sectorWords_eq,
    getElem?_rest (by rw [List.length_map, List.length_replicate]), List.getElem?_append_left hk]

theorem words_between (hsec : sec < d.nsec) {i : ℕ} (hi : i < 40) :
    (words d track buffer)[d.idPos sec + 4 + i]? = some (mtab
      ((betweenMarks (track / TRKPCYL) (track % TRKPCYL) (sec + 1)).get
        ⟨i, (betweenMarks_length _ _ _).symm ▸ hi⟩)) := by
  rw [Density.idPos, Nat.add_assoc, Nat.add_assoc, words_sector hsec (by unfold SECWORDS; omega),
    sectorWords_eq, getElem?_rest (by rw [List.length_map, List.length_replicate]),
    getElem?_rest idamagic_length, getElem?_mtab]

theorem words_da (hsec : sec < d.nsec) {k : ℕ} (hk : k < 4) :
    (words d track buffer)[d.daPos sec + k]? = damagic[k]? := by
  have hp : d.daPos sec + k = d.secPos sec + (12 + (4 + (40 + k))) := by
    rw [Density.daPos]
    omega
  rw [hp, words_sector hsec (by unfold SECWORDS; omega), sectorWords_eq,
    getElem?_rest (by rw [List.length_map, List.length_replicate]), getElem?_rest idamagic_length,
    getElem?_rest (by rw [List.length_map, betweenMarks_length]), List.getElem?_append_left hk]

theorem afterMarks_length (buffer : ℕ → Byte) (sec : ℕ) :
    (afterMarks (sectorData buffer sec)).length = 594 := by
  rw [afterMarks, List.length_append, tail_length, da_length, List.length_replicate]

theorem words_after (hsec : sec < d.nsec) {i : ℕ} (hi : i < 594) :
    (words d track buffer)[d.daPos sec + 4 + i]? = some (mtab
      ((afterMarks (sectorData buffer sec)).get ⟨i, (afterMarks_length _ _).symm ▸ hi⟩)) := by
  have hp : d.daPos sec + 4 + i = d.secPos sec + (12 + (4 + (40 + (4 + i)))) := by
    rw [Density.daPos]
    omega
  rw [hp, words_sector hsec (by unfold SECWORDS; omega), sectorWords_eq,
    getElem?_rest (by rw [List.length_map, List.length_replicate]), getElem?_rest idamagic_length,
    getElem?_rest (by rw [List.length_map, betweenMarks_length]), getElem?_rest damagic_length,
    List.getElem?_map, List.getElem?_eq_getElem (by rwa [afterMarks_length])]
  rfl

theorem words_gap {j : ℕ} (hj : j < d.lead + 80) :
    (words d track buffer)[j]? = some (mtab 0x4E) := by
  rcases Nat.lt_or_ge j d.lead with hlt | hge
  · rw [words, List.getElem?_append_left (by rwa [List.length_replicate]),
      List.getElem?_replicate_of_lt hlt]
  · obtain ⟨i, rfl⟩ : ∃ i, j = d.lead + i := ⟨j - d.lead, by omega⟩
    rw [words, getElem?_rest List.length_replicate, trackWords,
      List.getElem?_append_left (by rw [List.length_replicate]; omega),
      List.getElem?_replicate_of_lt (by omega)]

theorem words_ia_sync {i : ℕ} (hi : i < 12) :
    (words d track buffer)[d.lead + 80 + i]? = some (mtab 0x00) := by
  rw [Nat.add_assoc, words, getElem?_rest List.length_replicate, trackWords,
    getElem?_rest List.length_replicate,
    List.getElem?_append_left (by rwa [List.length_replicate]), List.getElem?_replicate_of_lt hi]

theorem words_ia {k : ℕ} (hk : k < 4) :
    (words d track buffer)[d.iaPos + k]? = iamagic[k]? := by
  have hp : d.iaPos + k = d.lead + (80 + (12 + k)) := by
    rw [Density.iaPos]
    omega
  rw [hp, words, getElem?_rest List.length_replicate, trackWords,
    getElem?_rest List.length_replicate, getElem?_rest List.length_replicate,
    List.getElem?_append_left hk]

theorem words_ia_gap {i : ℕ} (hi : i < 50) :
    (words d track buffer)[d.iaPos + 4 + i]? = some (mtab 0x4E) := by
  have hp : d.iaPos + 4 + i = d.lead + (80 + (12 + (4 + i))) := by
    rw [Density.iaPos]
    omega
  rw [hp, words, getElem?_rest List.length_replicate, trackWords,
    getElem?_rest List.length_replicate, getElem?_rest List.length_replicate,
    getElem?_rest iamagic_length, List.getElem?_append_left (by rwa [List.length_replicate]), List.getElem?_replicate_of_lt hi]

/-- A word is a byte or belongs to a mark. -/
inductive WordAt (d : Density) (j : ℕ) (w : BitVec 16) : Prop
  | byte (ch : Byte) (h : w = mtab ch)
  | ia (k : ℕ) (hk : k < 4) (hj : j = d.iaPos + k) (h : iamagic[k]? = some w)
  | id (sec k : ℕ) (hsec : sec < d.nsec) (hk : k < 4) (hj : j = d.idPos sec + k)
      (h : idamagic[k]? = some w)
  | da (sec k : ℕ) (hsec : sec < d.nsec) (hk : k < 4) (hj : j = d.daPos sec + k)
      (h : damagic[k]? = some w)

theorem words_at {j : ℕ} (hj : j < d.trkwlen) : ∃ w, (words d track buffer)[j]? = some w ∧
    WordAt d j w := by
  have hbyte : ∀ ch, (words d track buffer)[j]? = some (mtab ch) →
      ∃ w, (words d track buffer)[j]? = some w ∧ WordAt d j w := fun ch h => ⟨_, h, .byte ch rfl⟩
  rcases Nat.lt_or_ge j (d.lead + 80) with h₀ | h₀
  · exact hbyte _ (words_gap h₀)
  rcases Nat.lt_or_ge j d.iaPos with h₁ | h₁
  · obtain ⟨i, rfl⟩ : ∃ i, j = d.lead + 80 + i := ⟨j - (d.lead + 80), by omega⟩
    exact hbyte _ (words_ia_sync (by rw [Density.iaPos] at h₁; omega))
  rcases Nat.lt_or_ge j (d.iaPos + 4) with h₂ | h₂
  · obtain ⟨k, rfl⟩ : ∃ k, j = d.iaPos + k := ⟨j - d.iaPos, by omega⟩
    have hk : k < 4 := by omega
    have hmagic : iamagic[k]? = some _ := List.getElem?_eq_getElem hk
    exact ⟨_, (words_ia hk).trans hmagic, .ia k hk rfl hmagic⟩
  rcases Nat.lt_or_ge j (d.iaPos + 54) with h₃ | h₃
  · obtain ⟨i, rfl⟩ : ∃ i, j = d.iaPos + 4 + i := ⟨j - (d.iaPos + 4), by omega⟩
    exact hbyte _ (words_ia_gap (by omega))
  -- the sectors
  obtain ⟨sec, r, hr, rfl⟩ : ∃ sec r, r < 654 ∧ j = d.secPos sec + r :=
    ⟨(j - (d.iaPos + 54)) / 654, (j - (d.iaPos + 54)) % 654, Nat.mod_lt _ (by decide), by
      have := Nat.div_add_mod (j - (d.iaPos + 54)) 654
      rw [Density.secPos, IAWORDS, SECWORDS]
      rw [Density.iaPos] at h₃ this ⊢
      omega⟩
  have hsec : sec < d.nsec := by
    have hlead : d.lead = d.trkwlen - (IAWORDS + SECWORDS * d.nsec) := rfl
    have hle := d.trkwords_le
    rw [Density.trkwords] at hle
    rw [Density.secPos] at hj
    unfold IAWORDS SECWORDS at hlead hle hj
    omega
  have hid : d.idPos sec = d.secPos sec + 12 := rfl
  have hda : d.daPos sec = d.secPos sec + 56 := rfl
  rcases Nat.lt_or_ge r 12 with h₄ | h₄
  · exact hbyte _ (words_sync hsec h₄)
  rcases Nat.lt_or_ge r 16 with h₅ | h₅
  · obtain ⟨k, rfl⟩ : ∃ k, r = 12 + k := ⟨r - 12, by omega⟩
    have hk : k < 4 := by omega
    have hmagic : idamagic[k]? = some _ := List.getElem?_eq_getElem hk
    rw [← Nat.add_assoc, ← hid]
    exact ⟨_, (words_id hsec hk).trans hmagic, .id sec k hsec hk rfl hmagic⟩
  rcases Nat.lt_or_ge r 56 with h₆ | h₆
  · obtain ⟨i, rfl⟩ : ∃ i, r = 16 + i := ⟨r - 16, by omega⟩
    have hp : d.secPos sec + (16 + i) = d.idPos sec + 4 + i := by omega
    rw [hp] at hbyte ⊢
    exact hbyte _ (words_between hsec (by omega))
  rcases Nat.lt_or_ge r 60 with h₇ | h₇
  · obtain ⟨k, rfl⟩ : ∃ k, r = 56 + k := ⟨r - 56, by omega⟩
    have hk : k < 4 := by omega
    have hmagic : damagic[k]? = some _ := List.getElem?_eq_getElem hk
    rw [← Nat.add_assoc, ← hda]
    exact ⟨_, (words_da hsec hk).trans hmagic, .da sec k hsec hk rfl hmagic⟩
  · obtain ⟨i, rfl⟩ : ∃ i, r = 60 + i := ⟨r - 60, by omega⟩
    have hp : d.secPos sec + (60 + i) = d.daPos sec + 4 + i := by omega
    rw [hp] at hbyte ⊢
    exact hbyte _ (words_after hsec (by omega))

end

end HydraAmix.Floppy.Msdos
