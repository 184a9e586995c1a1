import HydraAmix.Library.Word
import Mathlib.Data.List.Basic
import Mathlib.Data.Nat.Bitwise

/-!
# Reading the boot volumes

`readstuff` reads sectors from the boot device into memory, adds up the bytes
and, when the device reports an error, asks for the next volume and goes on at
its beginning. A load is a sequence of calls of `readstuff`: one for a plain
kernel, one for each buffer of the decompressor otherwise.

The volume to insert is counted in a local variable. `load_iff` states when the
prompts are right all the same.
-/
namespace HydraAmix.Boot
open Word

abbrev TD_SECTOR : ℕ := 512
abbrev TD_OFFSET_MASK : Long := 511

/-- A boot volume: whole sectors, fewer than a longword can address. -/
structure Volume where
  bytes : List Byte
  sectors : TD_SECTOR ∣ bytes.length
  small : bytes.length < 2 ^ 32

/-- `sumbytes` -/
def sumbytes (memory : List Byte) : Long := memory.foldl (fun sum b => sum + b.setWidth 32) 0#32

/-- The fields of `globals` that `readstuff` uses, the volume in the drive, the
volumes that will be inserted next, and the volumes asked for. -/
structure Loader where
  offset : Long
  sum : Long
  disk : Volume
  stack : List Volume
  prompts : List ℕ

namespace Loader

/-- `CMD_READ` of one sector at `offset & ~TD_OFFSET_MASK`. -/
def cmdRead (s : Loader) : Option (List Byte) :=
  let off := (s.offset &&& ~~~TD_OFFSET_MASK).toNat
  if off < s.disk.bytes.length then some ((s.disk.bytes.drop off).take TD_SECTOR) else none

/-- The loop of `readstuff`. A turn reads a byte at least or takes a volume, so
no more turns are needed than there are of both. -/
def readLoop : ℕ → ℕ → ℕ → Loader → Option (List Byte × Loader)
  | _, _, 0, s => some ([], s)
  | 0, _, _ + 1, _ => none
  | fuel + 1, volume, nbytes + 1, s =>
      let start := (s.offset &&& TD_OFFSET_MASK).toNat
      let len := min (nbytes + 1) (TD_SECTOR - start)
      match s.cmdRead with
      | none =>
          match s.stack with
          | [] => none
          | next :: rest =>
              readLoop fuel (volume + 1) (nbytes + 1)
                { s with offset := 0, disk := next, stack := rest
                         prompts := s.prompts ++ [volume + 1] }
      | some chipbuf =>
          let addr := (chipbuf.drop start).take len
          (readLoop fuel volume (nbytes + 1 - len)
            { s with sum := s.sum + sumbytes addr
                     offset := s.offset + BitVec.ofNat 32 len }).map fun (rest, s) =>
              (addr ++ rest, s)

def readstuff (s : Loader) (nbytes : ℕ) : Option (List Byte × Loader) :=
  readLoop (nbytes + s.stack.length) 1 nbytes s

/-- The calls of one load, one after another. -/
def load : Loader → List ℕ → Option (List Byte × Loader)
  | s, [] => some ([], s)
  | s, nbytes :: calls => do
      let (addr, s) ← s.readstuff nbytes
      let (rest, s) ← s.load calls
      return (addr ++ rest, s)

/-- The bytes of the volumes from the offset on. -/
def stream (s : Loader) : List Byte :=
  s.disk.bytes.drop s.offset.toNat ++ (s.stack.map Volume.bytes).flatten

/-- Where each volume ends, counted in bytes from `r` before the end of the one
in the drive. -/
def volumeEnds (r : ℕ) : List Volume → List ℕ
  | [] => []
  | v :: rest => r :: volumeEnds (r + v.bytes.length) rest

/-- The bytes still to come before each change of the volume. -/
def ends (s : Loader) : List ℕ := volumeEnds (s.disk.bytes.length - s.offset.toNat) s.stack

end Loader

/-! ### Sectors -/

theorem sumbytes_append (a b : List Byte) : sumbytes (a ++ b) = sumbytes a + sumbytes b := by
  have hfold : ∀ (l : List Byte) (z : Long),
      l.foldl (fun sum b => sum + b.setWidth 32) z = z + sumbytes l := fun l => by
    unfold sumbytes
    induction l with
    | nil => exact fun z => (BitVec.add_zero z).symm
    | cons x l ih =>
        intro z
        rw [List.foldl_cons, List.foldl_cons, ih, ih (0#32 + _), BitVec.zero_add, BitVec.add_assoc]
  rw [sumbytes, List.foldl_append, hfold]
  rfl

theorem offset_and_mask (o : Long) : (o &&& TD_OFFSET_MASK).toNat = o.toNat % TD_SECTOR := by
  rw [BitVec.toNat_and]
  exact Nat.and_two_pow_sub_one_eq_mod o.toNat 9

theorem offset_and_not_mask (o : Long) :
    (o &&& ~~~TD_OFFSET_MASK).toNat = o.toNat - o.toNat % TD_SECTOR := by
  have hand : (o &&& ~~~TD_OFFSET_MASK) &&& (o &&& TD_OFFSET_MASK) = 0#32 := by
    ext i
    simp only [BitVec.getElem_and, BitVec.getElem_not, BitVec.getElem_zero]
    cases TD_OFFSET_MASK[i] <;> simp
  have hor : (o &&& ~~~TD_OFFSET_MASK) ||| (o &&& TD_OFFSET_MASK) = o := by
    ext i
    simp only [BitVec.getElem_or, BitVec.getElem_and, BitVec.getElem_not]
    cases TD_OFFSET_MASK[i] <;> simp
  have hsum := BitVec.toNat_add_of_and_eq_zero hand
  rw [BitVec.add_eq_or_of_and_eq_zero _ _ hand, hor, offset_and_mask] at hsum
  omega

namespace Loader

/-- A read fails exactly from the end of the volume on. -/
theorem cmdRead_eq (s : Loader) : s.cmdRead = if s.offset.toNat < s.disk.bytes.length then
    some ((s.disk.bytes.drop (s.offset.toNat - s.offset.toNat % TD_SECTOR)).take TD_SECTOR)
      else none := by
  obtain ⟨k, hk⟩ := s.disk.sectors
  have hmod := Nat.mod_lt s.offset.toNat (by decide : 0 < TD_SECTOR)
  have hdiv := Nat.div_add_mod s.offset.toNat TD_SECTOR
  have hiff : s.offset.toNat - s.offset.toNat % TD_SECTOR < s.disk.bytes.length ↔
      s.offset.toNat < s.disk.bytes.length := by
    rw [hk]
    constructor
    · intro h
      have hq : s.offset.toNat / TD_SECTOR < k := by
        refine Nat.lt_of_mul_lt_mul_left (a := TD_SECTOR) ?_
        omega
      have := Nat.mul_le_mul_left TD_SECTOR (Nat.succ_le_of_lt hq)
      rw [Nat.mul_succ] at this
      omega
    · intro h
      omega
  simp only [cmdRead, offset_and_not_mask, hiff]

/-- What one turn of the loop takes from the sector are the next bytes of the
volume. -/
theorem chipbuf_take (bytes : List Byte) {off len : ℕ} (h : len ≤ TD_SECTOR - off % TD_SECTOR) :
    (((bytes.drop (off - off % TD_SECTOR)).take TD_SECTOR).drop (off % TD_SECTOR)).take len =
      (bytes.drop off).take len := by
  rw [List.drop_take, List.drop_drop, List.take_take, Nat.min_eq_left h,
    Nat.sub_add_cancel (Nat.mod_le _ _)]

/-- Within a volume a turn advances the offset. -/
theorem offset_add {s : Loader} {len : ℕ} (hoff : s.offset.toNat < s.disk.bytes.length)
    (hlen : len ≤ TD_SECTOR - s.offset.toNat % TD_SECTOR) :
    (s.offset + BitVec.ofNat 32 len).toNat = s.offset.toNat + len ∧
      s.offset.toNat + len ≤ s.disk.bytes.length := by
  obtain ⟨k, hk⟩ := s.disk.sectors
  have hsmall := s.disk.small
  have hdiv := Nat.div_add_mod s.offset.toNat TD_SECTOR
  have hmod := Nat.mod_lt s.offset.toNat (by decide : 0 < TD_SECTOR)
  have hq : s.offset.toNat / TD_SECTOR < k := by
    refine Nat.lt_of_mul_lt_mul_left (a := TD_SECTOR) ?_
    omega
  have hmul := Nat.mul_le_mul_left TD_SECTOR (Nat.succ_le_of_lt hq)
  rw [Nat.mul_succ] at hmul
  have hle : s.offset.toNat + len ≤ s.disk.bytes.length := by omega
  rw [BitVec.toNat_add, BitVec.toNat_ofNat]
  refine ⟨?_, hle⟩
  rw [Nat.add_mod_mod, Nat.mod_eq_of_lt]
  omega

theorem volumeEnds_add (r k : ℕ) (vs : List Volume) :
    volumeEnds (r + k) vs = (volumeEnds r vs).map (· + k) := by
  induction vs generalizing r with
  | nil => rfl
  | cons v vs ih =>
      rw [volumeEnds, volumeEnds, List.map_cons, ← ih, Nat.add_right_comm]

/-- What a call does: it delivers the next bytes, adds them up, and asks for
the volumes on the way, counting from the number it was given. -/
structure Moves (s : Loader) (volume nbytes : ℕ) (addr : List Byte) (t : Loader) : Prop where
  delivers : addr = s.stream.take nbytes
  stream : t.stream = s.stream.drop nbytes
  sum : t.sum = s.sum + sumbytes addr
  prompts : t.prompts = s.prompts ++
    List.range' (volume + 1) (s.ends.countP (decide <| · < nbytes))
  ends : t.ends = (s.ends.filter (decide <| nbytes ≤ ·)).map (· - nbytes)

theorem Moves.zero (s : Loader) (volume : ℕ) : s.Moves volume 0 [] s where
  delivers := rfl
  stream := rfl
  sum := (BitVec.add_zero _).symm
  prompts := by
    rw [List.countP_eq_zero.mpr (by simp)]
    exact (List.append_nil _).symm
  ends := by simp

/-- A turn that reads, before the turns `h`. -/
theorem Moves.read {s t : Loader} {volume nbytes len : ℕ} {rest : List Byte} (hn : len ≤ nbytes)
    (hoff : s.offset.toNat < s.disk.bytes.length)
    (hlen : len ≤ TD_SECTOR - s.offset.toNat % TD_SECTOR)
    (h : Moves { s with sum := s.sum + sumbytes ((s.disk.bytes.drop s.offset.toNat).take len)
                        offset := s.offset + BitVec.ofNat 32 len } volume (nbytes - len) rest t) :
    s.Moves volume nbytes ((s.disk.bytes.drop s.offset.toNat).take len ++ rest) t := by
  obtain ⟨hoffset, hle⟩ := offset_add hoff hlen
  have hin : len ≤ (s.disk.bytes.drop s.offset.toNat).length := by
    rw [List.length_drop]
    omega
  obtain ⟨u, hu⟩ : ∃ u : Loader, u = { s with
    sum := s.sum + sumbytes ((s.disk.bytes.drop s.offset.toNat).take len)
    offset := s.offset + BitVec.ofNat 32 len } := ⟨_, rfl⟩
  -- the rest of the stream, and the ends of the volumes as they were before
  have hstream : u.stream = s.stream.drop len := by
    rw [hu, Loader.stream, Loader.stream, List.drop_append_of_le_length hin, List.drop_drop]
    simp only [hoffset]
  have hends : s.ends = u.ends.map (· + len) := by
    rw [hu, Loader.ends, Loader.ends, ← volumeEnds_add]
    simp only [hoffset]
    congr 1
    omega
  have hsum : u.sum = s.sum + sumbytes ((s.disk.bytes.drop s.offset.toNat).take len) := by rw [hu]
  have hprompts : u.prompts = s.prompts := by rw [hu]
  rw [← hu] at h
  constructor
  · have htake : (s.disk.bytes.drop s.offset.toNat).take len = s.stream.take len := by
      rw [Loader.stream, List.take_append_of_le_length hin]
    rw [h.delivers, hstream, htake, ← List.take_add, Nat.add_sub_cancel' hn]
  · rw [h.stream, hstream, List.drop_drop, Nat.add_sub_cancel' hn]
  · rw [h.sum, hsum, sumbytes_append, BitVec.add_assoc]
  · rw [h.prompts, hprompts, hends, List.countP_map]
    congr 3
    funext e
    simp only [Function.comp, decide_eq_decide]
    omega
  · rw [h.ends, hends, List.filter_map, List.map_map]
    congr 1
    · funext e
      simp only [Function.comp]
      omega
    · congr 1
      funext e
      simp only [Function.comp, decide_eq_decide]
      omega

/-- A turn that asks for the next volume, before the turns `h`. -/
theorem Moves.prompt {s t : Loader} {volume nbytes : ℕ} {addr : List Byte} {next : Volume}
    {rest : List Volume} (hoff : ¬ s.offset.toNat < s.disk.bytes.length) (hn : 0 < nbytes)
    (hstack : s.stack = next :: rest)
    (h : Moves { s with offset := 0, disk := next, stack := rest
                        prompts := s.prompts ++ [volume + 1] } (volume + 1) nbytes addr t) :
    s.Moves volume nbytes addr t := by
  obtain ⟨u, hu⟩ : ∃ u : Loader, u = { s with
    offset := 0, disk := next, stack := rest
    prompts := s.prompts ++ [volume + 1] } := ⟨_, rfl⟩
  have hstream : u.stream = s.stream := by
    rw [hu, Loader.stream, Loader.stream, hstack,
      List.drop_eq_nil_of_le (Nat.le_of_not_lt hoff)]
    rfl
  have hends : s.ends = 0 :: u.ends := by
    have hzero : s.disk.bytes.length - s.offset.toNat = 0 := by omega
    rw [hu, Loader.ends, Loader.ends, hstack, volumeEnds, hzero, Nat.zero_add]
    rfl
  have hprompts : u.prompts = s.prompts ++ [volume + 1] := by rw [hu]
  have hsum : u.sum = s.sum := by rw [hu]
  rw [← hu] at h
  constructor
  · rw [h.delivers, hstream]
  · rw [h.stream, hstream]
  · rw [h.sum, hsum]
  · rw [h.prompts, hprompts, hends,
      List.countP_cons_of_pos (by simp only [decide_eq_true_eq]; exact hn),
      List.range'_succ, List.append_assoc, List.singleton_append]
  · rw [h.ends, hends, List.filter_cons_of_neg (by simp only [decide_eq_true_eq]; omega)]

/-- The loop delivers the next bytes of the volumes, as long as there are
enough, and turns no more often than there are bytes and volumes. -/
theorem readLoop_moves {fuel volume nbytes : ℕ} {s : Loader} (hlen : nbytes ≤ s.stream.length)
    (hfuel : nbytes + s.stack.length ≤ fuel) :
    ∃ addr t, readLoop fuel volume nbytes s = some (addr, t) ∧ s.Moves volume nbytes addr t := by
  induction fuel generalizing volume nbytes s with
  | zero =>
      obtain rfl : nbytes = 0 := by omega
      exact ⟨[], s, by rw [readLoop], .zero s volume⟩
  | succ fuel ih =>
      cases nbytes with
      | zero => exact ⟨[], s, by rw [readLoop], .zero s volume⟩
      | succ n =>
          rw [readLoop, cmdRead_eq]
          by_cases hoff : s.offset.toNat < s.disk.bytes.length
          · have hmod := Nat.mod_lt s.offset.toNat (by decide : 0 < TD_SECTOR)
            obtain ⟨len, hmin⟩ : ∃ len, len =
              min (n + 1) (TD_SECTOR - s.offset.toNat % TD_SECTOR) := ⟨_, rfl⟩
            have hlensec : len ≤ TD_SECTOR - s.offset.toNat % TD_SECTOR := hmin ▸ Nat.min_le_right ..
            have hn : len ≤ n + 1 := hmin ▸ Nat.min_le_left ..
            obtain ⟨hoffset, hle⟩ := offset_add hoff hlensec
            have hpos : 0 < len := by omega
            simp only [if_pos hoff, offset_and_mask, ← hmin, chipbuf_take _ hlensec]
            obtain ⟨addr, t, hrun, h⟩ := @ih volume (n + 1 - len) { s with
              sum := s.sum + sumbytes ((s.disk.bytes.drop s.offset.toNat).take len)
              offset := s.offset + BitVec.ofNat 32 len } (by
                rw [Loader.stream, List.length_append, List.length_drop] at hlen ⊢
                simp only [hoffset]
                omega) (by simp only; omega)
            rw [hrun]
            exact ⟨_, t, rfl, .read hn hoff hlensec h⟩
          · simp only [if_neg hoff]
            cases hstack : s.stack with
            | nil =>
                rw [Loader.stream, hstack, List.drop_eq_nil_of_le (Nat.le_of_not_lt hoff)] at hlen
                exact absurd hlen (by simp)
            | cons next rest =>
                obtain ⟨addr, t, hrun, h⟩ := @ih (volume + 1) (n + 1) { s with
                  offset := 0, disk := next, stack := rest
                  prompts := s.prompts ++ [volume + 1] } (by
                    rw [Loader.stream, hstack, List.drop_eq_nil_of_le (Nat.le_of_not_lt hoff)] at hlen
                    exact hlen) (by
                    rw [hstack, List.length_cons] at hfuel
                    simp only
                    omega)
                exact ⟨addr, t, hrun, .prompt hoff (Nat.succ_pos n) hstack h⟩

/-- One call of `readstuff`. -/
theorem readstuff_moves {s : Loader} {nbytes : ℕ} (h : nbytes ≤ s.stream.length) :
    ∃ addr t, s.readstuff nbytes = some (addr, t) ∧ s.Moves 1 nbytes addr t :=
  readLoop_moves h (Nat.le_refl _)

/-! ### A whole load -/

/-- All changes of the volume during the load fall into one of its calls, the
`k`-th, whose bytes are those between the sums. -/
def InOneCall (ends calls : List ℕ) : Prop :=
  ∃ k, ∀ e ∈ ends, e < calls.sum → (calls.take k).sum ≤ e ∧ e < (calls.take (k + 1)).sum

theorem inOneCall_cons (ends calls : List ℕ) (n : ℕ) : InOneCall ends (n :: calls) ↔
    (∀ e ∈ ends, n ≤ e → n + calls.sum ≤ e) ∨
      (∀ e ∈ ends, n ≤ e) ∧ InOneCall ((ends.filter (decide <| n ≤ ·)).map (· - n)) calls := by
  have hmem : ∀ e', e' ∈ (ends.filter (decide <| n ≤ ·)).map (· - n) ↔ n + e' ∈ ends := fun e' => by
    simp only [List.mem_map, List.mem_filter, decide_eq_true_eq]
    constructor
    · rintro ⟨e, ⟨he, hle⟩, rfl⟩
      rwa [Nat.add_sub_cancel' hle]
    · intro he
      exact ⟨n + e', ⟨he, Nat.le_add_right n e'⟩, Nat.add_sub_cancel_left n e'⟩
  constructor
  · rintro ⟨k, hk⟩
    rw [List.sum_cons] at hk
    cases k with
    | zero =>
        refine .inl fun e he hle => Nat.le_of_not_lt fun hlt => ?_
        have := (hk e he hlt).2
        simp only [List.take_succ_cons, List.take_zero, List.sum_cons, List.sum_nil] at this
        omega
    | succ k =>
        simp only [List.take_succ_cons, List.sum_cons] at hk
        refine .inr ⟨fun e he => Nat.le_of_not_lt fun hlt => ?_, k, fun e' he' hlt => ?_⟩
        · have := (hk e he (by omega)).1
          omega
        · have := hk (n + e') ((hmem e').mp he') (by omega)
          omega
  · rintro (h | ⟨hle, k, hk⟩)
    · refine ⟨0, fun e he hlt => ⟨Nat.zero_le e, ?_⟩⟩
      rw [List.sum_cons] at hlt
      simp only [List.take_succ_cons, List.take_zero, List.sum_cons, List.sum_nil]
      by_contra hge
      exact absurd (h e he (by omega)) (by omega)
    · refine ⟨k + 1, fun e he hlt => ?_⟩
      have hn := hle e he
      rw [List.sum_cons] at hlt
      have := hk (e - n) ((hmem _).mpr (by rwa [Nat.add_sub_cancel' hn])) (by omega)
      simp only [List.take_succ_cons, List.sum_cons]
      omega

/-- The changes of the volume of one call and of those after it. -/
theorem countP_ends (ends : List ℕ) (n m : ℕ) :
    ends.countP (decide <| · < n) +
      ((ends.filter (decide <| n ≤ ·)).map (· - n)).countP (decide <| · < m) =
      ends.countP (decide <| · < n + m) := by
  induction ends with
  | nil => rfl
  | cons e ends ih =>
      by_cases hn : e < n
      · rw [List.countP_cons_of_pos (by simpa using hn),
          List.countP_cons_of_pos (by simp only [decide_eq_true_eq]; omega),
          List.filter_cons_of_neg (by simpa using hn), ← ih]
        omega
      · rw [List.countP_cons_of_neg (by simpa using hn),
          List.filter_cons_of_pos (by simpa using hn), List.map_cons]
        by_cases hm : e - n < m
        · rw [List.countP_cons_of_pos (by simpa using hm),
            List.countP_cons_of_pos (by simp only [decide_eq_true_eq]; omega), ← ih]
          omega
        · rw [List.countP_cons_of_neg (by simpa using hm),
            List.countP_cons_of_neg (by simp only [decide_eq_true_eq]; omega), ← ih]

/-- Prompts that start again from 2 continue a row that starts from 2 only if
there are none, or none before them. -/
theorem range'_append_iff {c : ℕ} {l : List ℕ} (h : ∀ p, l[0]? = some p → p = 2) :
    List.range' 2 c ++ l = List.range' 2 (c + l.length) ↔
      l = [] ∨ c = 0 ∧ l = List.range' 2 l.length := by
  have hsplit : List.range' 2 (c + l.length) =
      List.range' 2 c ++ List.range' (2 + c) l.length := by
    rw [← List.range'_append, Nat.one_mul]
  rw [hsplit, List.append_cancel_left_eq]
  constructor
  · intro hl
    rcases Nat.eq_zero_or_pos c with rfl | hc
    · exact .inr ⟨rfl, hl⟩
    · cases l with
      | nil => exact .inl rfl
      | cons p l =>
          have hp : p = 2 := h p rfl
          rw [List.length_cons, List.range'_succ, List.cons.injEq] at hl
          omega
  · rintro (rfl | ⟨rfl, hl⟩)
    · rfl
    · exact hl

/-- What the calls of a load do together. -/
theorem load_moves {calls : List ℕ} {s : Loader} (h : calls.sum ≤ s.stream.length) :
    ∃ t l, s.load calls = some (s.stream.take calls.sum, t) ∧
      t.sum = s.sum + sumbytes (s.stream.take calls.sum) ∧ t.prompts = s.prompts ++ l ∧
      l.length = s.ends.countP (decide <| · < calls.sum) ∧ (∀ p, l[0]? = some p → p = 2) ∧
      (l = List.range' 2 l.length ↔ InOneCall s.ends calls) := by
  induction calls generalizing s with
  | nil =>
      refine ⟨s, [], rfl, (BitVec.add_zero _).symm, (List.append_nil _).symm, ?_, nofun,
        ⟨fun _ => ⟨0, fun e _ he => absurd he (Nat.not_lt_zero e)⟩, fun _ => rfl⟩⟩
      rw [List.countP_eq_zero.mpr (by simp)]
      rfl
  | cons n calls ih =>
      rw [List.sum_cons] at h ⊢
      obtain ⟨addr, u, hrun, hu⟩ := @readstuff_moves s n (by omega)
      obtain ⟨t, l, hload, hsum, hprompts, hlen, hhead, hiff⟩ := @ih u (by
        rw [hu.stream, List.length_drop]
        omega)
      rw [hu.stream] at hload hsum
      have htake : addr ++ (s.stream.drop n).take calls.sum = s.stream.take (n + calls.sum) := by
        rw [hu.delivers, List.take_add]
      refine ⟨t, List.range' 2 (s.ends.countP (decide <| · < n)) ++ l, ?_, ?_, ?_, ?_, ?_, ?_⟩
      · rw [load, hrun, ← htake]
        simp only [Option.bind_eq_bind, Option.bind_some, hload]
        rfl
      · rw [hsum, hu.sum, ← htake, sumbytes_append, BitVec.add_assoc]
      · rw [hprompts, hu.prompts, List.append_assoc]
      · rw [List.length_append, List.length_range', hlen, hu.ends, countP_ends]
      · intro p hp
        cases hc : s.ends.countP (decide <| · < n) with
        | zero =>
            rw [hc] at hp
            exact hhead p hp
        | succ c =>
            rw [hc, List.range'_succ] at hp
            exact (Option.some.inj hp).symm
      · rw [List.length_append, List.length_range', range'_append_iff hhead, inOneCall_cons,
          ← hu.ends, hiff, List.countP_eq_zero]
        refine or_congr ?_ (and_congr_left fun _ => ?_)
        · rw [← List.length_eq_zero_iff, hlen, hu.ends, List.countP_eq_zero]
          simp only [List.mem_map, List.mem_filter, decide_eq_true_eq]
          constructor
          · intro hno e he hle
            have := hno (e - n) ⟨e, ⟨he, hle⟩, rfl⟩
            omega
          · rintro hno _ ⟨e, ⟨he, hle⟩, rfl⟩
            have := hno e he hle
            omega
        · exact forall₂_congr fun e _ => by rw [decide_eq_true_eq, Nat.not_lt]

/-- The boot device and `gbls` when the load of the kernel begins. -/
def start (offset : Long) (disk : Volume) (stack : List Volume) : Loader :=
  ⟨offset, 0#32, disk, stack, []⟩

/-- What a load owes: the consecutive bytes of the volumes, their sum, and a
prompt for volume `k + 1` at the `k`-th change. -/
def Loads (s : Loader) (calls : List ℕ) : Prop :=
  ∃ t, s.load calls = some (s.stream.take calls.sum, t) ∧
    t.sum = sumbytes (s.stream.take calls.sum) ∧
    ∀ (k : ℕ) (p : ℕ), t.prompts[k]? = some p → p = k + 2

/-- The prompts of a load count up from 2. -/
theorem loads_iff {s t : Loader} {calls : List ℕ}
    (hload : s.load calls = some (s.stream.take calls.sum, t))
    (hsum : t.sum = sumbytes (s.stream.take calls.sum)) :
    s.Loads calls ↔ t.prompts = List.range' 2 t.prompts.length := by
  constructor
  · rintro ⟨t', hrun, -, hp⟩
    obtain rfl : t = t' := by
      rw [hload] at hrun
      exact congrArg Prod.snd (Option.some.inj hrun)
    refine List.ext_getElem? fun k => ?_
    by_cases hk : k < t.prompts.length
    · have hget := List.getElem?_eq_getElem hk
      rw [List.getElem?_range' hk, hget, hp k _ hget]
      congr 1
      omega
    · rw [List.getElem?_eq_none (by omega),
        List.getElem?_eq_none (by rw [List.length_range']; omega)]
  · intro hrange
    refine ⟨t, hload, hsum, fun k p hp => ?_⟩
    rw [hrange] at hp
    obtain ⟨hk, rfl⟩ := List.getElem?_eq_some_iff.mp hp
    rw [List.getElem_range']
    omega

/-- A load from the start: what it owes and where the changes fall. -/
theorem start_loads {offset : Long} {disk : Volume} {stack : List Volume} {calls : List ℕ}
    (h : calls.sum ≤ (start offset disk stack).stream.length) :
    (start offset disk stack).Loads calls ↔ InOneCall (start offset disk stack).ends calls := by
  obtain ⟨t, l, hload, hsum, hprompts, -, -, hiff⟩ := load_moves h
  obtain rfl : t.prompts = l := hprompts
  rw [← hiff, loads_iff hload (hsum.trans (BitVec.zero_add _))]

end Loader

/-- Whatever the calls of a load are, it delivers the bytes of the volumes and
their sum. Its prompts are right exactly when all changes of the volume fall
into one call. -/
theorem load_iff (offset : Long) (disk : Volume) (stack : List Volume) (calls : List ℕ)
    (h : calls.sum ≤ (Loader.start offset disk stack).stream.length) :
    (∃ t, (Loader.start offset disk stack).load calls =
        some ((Loader.start offset disk stack).stream.take calls.sum, t) ∧
      t.sum = sumbytes ((Loader.start offset disk stack).stream.take calls.sum)) ∧
    ((Loader.start offset disk stack).Loads calls ↔
      Loader.InOneCall (Loader.start offset disk stack).ends calls) := by
  obtain ⟨t, l, hload, hsum, -⟩ := Loader.load_moves h
  exact ⟨⟨t, hload, hsum.trans (BitVec.zero_add _)⟩, Loader.start_loads h⟩

/-- A volume of one sector. -/
def blank : Volume :=
  ⟨List.replicate TD_SECTOR 0, by rw [List.length_replicate],
    by rw [List.length_replicate, TD_SECTOR]; decide⟩

theorem blank_length : blank.bytes.length = 512 := List.length_replicate

/-- One call that goes from one volume to the next. -/
theorem load_iff_blank :
    (∃ t, (Loader.start 0 blank [blank]).load [1024] =
        some ((Loader.start 0 blank [blank]).stream.take [1024].sum, t) ∧
      t.sum = sumbytes ((Loader.start 0 blank [blank]).stream.take [1024].sum)) ∧
    ((Loader.start 0 blank [blank]).Loads [1024] ↔
      Loader.InOneCall (Loader.start 0 blank [blank]).ends [1024]) :=
  load_iff 0 blank [blank] [1024] (by simp [Loader.stream, Loader.start, blank_length])

/-- Two calls with a change of the volume each: both ask for volume 2. -/
theorem loads_fails : ¬ (Loader.start 0 blank [blank, blank]).Loads [1000, 400] := by
  rw [Loader.start_loads (by simp [Loader.stream, Loader.start, blank_length])]
  rintro ⟨k, hk⟩
  have hends : (Loader.start 0 blank [blank, blank]).ends = [512, 1024] := by
    simp [Loader.ends, Loader.start, Loader.volumeEnds, blank_length]
  rw [hends] at hk
  have h₁ := hk 512 (by simp) (by simp)
  have h₂ := hk 1024 (by simp) (by simp)
  rcases k with - | - | k
  · simp at h₂
  · simp at h₁
  · simp at h₁

end HydraAmix.Boot
