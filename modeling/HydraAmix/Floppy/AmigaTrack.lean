import HydraAmix.Library.BitStream
import HydraAmix.Library.Word
import HydraAmix.Floppy.Device
import Mathlib.Data.List.Basic
import Mathlib.Logic.Function.Basic

/-!
# Amiga tracks: writing

`fdputaml` builds a track in `trkbuf`: slop, the eleven sectors and one word
more. A block is stored as its odd bits and then its even bits, with clock bits
between them; a sector begins with a sync mark, which is not legal MFM. The
buffer is addressed in longwords here, `pos` being `mfmbuf`; what it held
before is arbitrary.

`TrackAt` collects what the track is in the end, word by word.
-/
namespace HydraAmix.Floppy.Amiga
open Word BitStream

abbrev TRKUSED : ℕ := 11968
abbrev TRKSLOP : ℕ := 1660
abbrev NSEC : ℕ := 11
abbrev SECOK : Byte := 0xFF
abbrev BPL : ℕ := 32
abbrev DMASK : Long := 0x55555555

/-- The number of longwords of an `mfmsec`, and of the data of a sector. -/
abbrev SECLONGS : ℕ := 272
abbrev DATALONGS : ℕ := 128

/-- The data of a sector of the user's buffer. -/
def sectorData (buffer : ℕ → Long) (sec : ℕ) : List Long :=
  (List.range DATALONGS).map fun i => buffer (DATALONGS * sec + i)

structure MfmBuf where
  mem : ℕ → Long
  pos : ℕ

/-- `chksum` -/
def chksum (bp : List Long) : Long :=
  let res := bp.foldl (fun res n => res ^^^ n) 0
  (res >>> 1 &&& 0x55555555) ^^^ (res &&& 0x55555555)

/-- The first longword of a `sechdr`. -/
def hdrMagic (track sec : ℕ) : Long :=
  long SECOK (BitVec.ofNat 8 track) (BitVec.ofNat 8 sec) (BitVec.ofNat 8 (NSEC - sec))

/-- Data bits with their clock bits, after the longword `prev`. -/
def clockIn (prev n : Long) : Long :=
  let n := n ||| ~~~(n <<< 1 ||| n >>> 1 ||| DMASK)
  if n &&& 0x80000000 ≠ 0 ∧ prev &&& 1 ≠ 0 then n &&& ~~~0x80000000 else n

namespace MfmBuf

/-- The loop of `mfm` for a block of `len` longwords in all. -/
def mfmLoop (len : ℕ) : List Long → ℕ → (ℕ → Long) → ℕ → Long
  | [], _, mem => mem
  | n :: from', odd, mem =>
      let mem := Function.update mem odd (clockIn (mem (odd - 1)) (n >>> 1 &&& DMASK))
      let even := odd + len
      let mem := Function.update mem even (clockIn (mem (even - 1)) (n &&& DMASK))
      mfmLoop len from' (odd + 1) mem

/-- `mfm` -/
def mfm (from' : List Long) (s : MfmBuf) : MfmBuf :=
  let len := from'.length
  let mem := mfmLoop len from' s.pos s.mem
  -- the first even longword was encoded before the last odd one
  let odd := s.pos + len
  let n := mem odd
  let n :=
    if n &&& 0x40000000 = 0 then
      if mem (odd - 1) &&& 1 ≠ 0 then n &&& ~~~0x80000000 else n ||| 0x80000000
    else n
  ⟨Function.update mem odd n, s.pos + 2 * len⟩

def putslop (s : MfmBuf) : MfmBuf :=
  ⟨fun i => if s.pos ≤ i ∧ i < s.pos + TRKSLOP / 4 then 0xAAAAAAAA else s.mem i,
    s.pos + TRKSLOP / 4⟩

def putmagic (s : MfmBuf) : MfmBuf :=
  let magic₀ : BitVec 16 := if s.mem (s.pos - 1) &&& 1 ≠ 0 then 0x2AAA else 0xAAAA
  ⟨Function.update (Function.update s.mem s.pos (magic₀ ++ 0xAAAA#16)) (s.pos + 1)
    (0x4489#16 ++ 0x4489#16), s.pos + 2⟩

def putsec (track : ℕ) (buffer : ℕ → Long) (s : MfmBuf) (sec : ℕ) : MfmBuf :=
  let magic := [hdrMagic track sec]
  let label := [0, 0, 0, 0]
  let data := sectorData buffer sec
  s.putmagic |>.mfm magic |>.mfm label |>.mfm [chksum (magic ++ label)] |>.mfm [chksum data]
    |>.mfm data

/-- `fdputaml` up to the writing: the track buffer. The last word is in the
upper half of a longword. -/
def fdputaml (track : ℕ) (buffer : ℕ → Long) (trkbuf : ℕ → Long) : ℕ → Long :=
  let s := (List.range NSEC).foldl (putsec track buffer) (putslop ⟨trkbuf, 0⟩)
  let last : BitVec 16 := if s.mem (s.pos - 1) &&& 1 ≠ 0 then 0x2AA8 else 0xAAA8
  Function.update s.mem s.pos (last ++ (s.mem s.pos).setWidth 16)

end MfmBuf

/-! ### Blocks -/

/-- The data bits of an encoded block: odd bits, then even bits. -/
def cells (block : List Long) : List Long :=
  (block.map fun n : Long => (n >>> 1) &&& DMASK) ++ block.map fun n : Long => n &&& DMASK

@[simp] theorem cells_length (block : List Long) : (cells block).length = 2 * block.length := by
  rw [cells, List.length_append, List.length_map, List.length_map, Nat.two_mul]

/-- The data bits of a sector, in the order they are stored. -/
def sectorCells (track : ℕ) (buffer : ℕ → Long) (sec : ℕ) : List Long :=
  let magic := [hdrMagic track sec]
  let label := [0, 0, 0, 0]
  let data := sectorData buffer sec
  cells magic ++ cells label ++ cells [chksum (magic ++ label)] ++ cells [chksum data] ++ cells data

/-- From `pos` on the memory holds these data bits with clock bits. -/
def Chain (mem : ℕ → Long) (pos : ℕ) (ds : List Long) : Prop :=
  ∀ (i : ℕ) (d : Long), ds[i]? = some d → mem (pos + i) = clockIn (mem (pos + i - 1)) d

/-- What one step of the encoder writes. -/
structure Wrote (s s' : MfmBuf) (ds : List Long) : Prop where
  pos : s'.pos = s.pos + ds.length
  before : ∀ i < s.pos, s'.mem i = s.mem i
  chain : Chain s'.mem s.pos ds

theorem Wrote.trans {s s' s'' : MfmBuf} {a b : List Long} (h : Wrote s s' a) (h' : Wrote s' s'' b) :
    Wrote s s'' (a ++ b) where
  pos := by rw [h'.pos, h.pos, List.length_append, Nat.add_assoc]
  before i hi := by rw [h'.before i (h.pos ▸ Nat.lt_add_right _ hi), h.before i hi]
  chain i d hd := by
    by_cases hi : i < a.length
    · rw [List.getElem?_append_left hi] at hd
      have hlt : s.pos + i < s'.pos := by
        rw [h.pos]
        omega
      rw [h'.before _ hlt, h'.before _ (by omega), h.chain i d hd]
    · rw [List.getElem?_append_right (Nat.le_of_not_lt hi)] at hd
      have := h'.chain (i - a.length) d hd
      rw [h.pos] at this
      have heq : s.pos + a.length + (i - a.length) = s.pos + i := by omega
      rwa [heq] at this

/-! ### Bits of an encoded longword -/

theorem and_twoPow_ne_zero (n : Long) {i : ℕ} (hi : i < 32) :
    n &&& BitVec.twoPow 32 i ≠ 0 ↔ n.getLsbD i = true := by
  rw [BitVec.and_twoPow]
  cases n.getLsbD i with
  | false => simp
  | true =>
      simp only [if_true, iff_true]
      intro h
      have := congrArg (·.getLsbD i) h
      simp [hi] at this

theorem getLsbD_DMASK : ∀ i < 32, DMASK.getLsbD i = (i % 2 == 0) := by decide

theorem top_eq : (0x80000000 : Long) = BitVec.twoPow 32 31 := rfl

theorem one_eq : (1 : Long) = BitVec.twoPow 32 0 := rfl

/-- Data bits with all clock bits, as if a set bit stood on both sides. -/
theorem getLsbD_clocks {n : Long} (hn : n &&& DMASK = n) {i : ℕ} (hi : i < 32) :
    (n ||| ~~~(n <<< 1 ||| n >>> 1 ||| DMASK)).getLsbD i =
      if i % 2 = 0 then n.getLsbD i else !(n.getLsbD (i - 1) || n.getLsbD (i + 1)) := by
  have hodd : i % 2 = 1 → n.getLsbD i = false := fun hmod => by
    rw [← hn, BitVec.getLsbD_and, getLsbD_DMASK i hi, hmod]
    exact Bool.and_false _
  simp only [BitVec.getLsbD_or, BitVec.getLsbD_not, BitVec.getLsbD_shiftLeft,
    BitVec.getLsbD_ushiftRight, getLsbD_DMASK i hi, hi, decide_true, Bool.true_and]
  by_cases hmod : i % 2 = 0
  · simp [hmod]
  · have hone : i % 2 = 1 := by omega
    have hpos : ¬ i < 1 := by omega
    simp [hodd hone, hone, hpos, Nat.add_comm 1 i]

/-- The encoder's word: data bits in the even places, clock bits in the odd. -/
theorem getLsbD_clockIn (prev : Long) {n : Long} (hn : n &&& DMASK = n) {i : ℕ} (hi : i < 32) :
    (clockIn prev n).getLsbD i =
      if i % 2 = 0 then n.getLsbD i
      else !(n.getLsbD (i - 1) || n.getLsbD (i + 1) || i == 31 && prev.getLsbD 0) := by
  have hclocks := @getLsbD_clocks n hn
  unfold clockIn
  generalize n ||| ~~~(n <<< 1 ||| n >>> 1 ||| DMASK) = c at hclocks
  have htop := hclocks (by decide : 31 < 32)
  rw [if_neg (by decide)] at htop
  simp only [top_eq, one_eq, and_twoPow_ne_zero _ (by decide : 31 < 32),
    and_twoPow_ne_zero _ (by decide : 0 < 32)]
  by_cases hi31 : i = 31
  · subst hi31
    rw [beq_self_eq_true, Bool.true_and, Bool.not_or, ← htop]
    have hmod : ¬ 31 % 2 = 0 := by decide
    rw [if_neg hmod]
    by_cases hp : c.getLsbD 31 = true ∧ prev.getLsbD 0 = true
    · rw [if_pos hp, BitVec.getLsbD_and, BitVec.getLsbD_not, BitVec.getLsbD_twoPow, hp.2]
      simp
    · rw [if_neg hp]
      cases hc : c.getLsbD 31 <;> simp_all
  · rw [beq_eq_false_iff_ne.mpr hi31, Bool.false_and, Bool.or_false, ← hclocks hi]
    split_ifs
    · rw [BitVec.getLsbD_and, BitVec.getLsbD_not, BitVec.getLsbD_twoPow]
      simp [hi, Ne.symm hi31]
    · rfl

/-- The data bits survive. -/
theorem clockIn_and_DMASK (prev : Long) {n : Long} (hn : n &&& DMASK = n) :
    clockIn prev n &&& DMASK = n := by
  refine BitVec.eq_of_getLsbD_eq fun i hi => ?_
  rw [BitVec.getLsbD_and, getLsbD_clockIn prev hn hi, getLsbD_DMASK i hi]
  by_cases hmod : i % 2 = 0
  · simp [hmod]
  · have hzero : n.getLsbD i = false := by
      rw [← hn, BitVec.getLsbD_and, getLsbD_DMASK i hi, beq_eq_false_iff_ne.mpr hmod,
        Bool.and_false]
    rw [hzero, beq_eq_false_iff_ne.mpr hmod, Bool.and_false]

/-- The encoder looks at nothing but the last bit of the word before. -/
theorem clockIn_congr {prev prev' : Long} (h : prev.getLsbD 0 = prev'.getLsbD 0) (n : Long) :
    clockIn prev n = clockIn prev' n := by
  simp only [clockIn, one_eq, and_twoPow_ne_zero _ (by decide : 0 < 32), h]

/-- The correction of the first even longword. -/
theorem clockIn_patch (stale prev : Long) {n : Long} (hn : n &&& DMASK = n) :
    (if clockIn stale n &&& 0x40000000 = 0 then
      if prev &&& 1 ≠ 0 then clockIn stale n &&& ~~~0x80000000 else clockIn stale n ||| 0x80000000
      else clockIn stale n) = clockIn prev n := by
  have hbit : clockIn stale n &&& 0x40000000 = 0 ↔ n.getLsbD 30 = false := by
    have h := and_twoPow_ne_zero (clockIn stale n) (by decide : 30 < 32)
    rw [getLsbD_clockIn stale hn (by decide), if_pos (by decide)] at h
    rw [← Bool.not_eq_true, ← h, not_not]
    rfl
  simp only [hbit, top_eq, one_eq, and_twoPow_ne_zero _ (by decide : 0 < 32)]
  refine BitVec.eq_of_getLsbD_eq fun i hi => ?_
  have hs := getLsbD_clockIn stale hn hi
  rw [getLsbD_clockIn prev hn hi]
  by_cases hi31 : i = 31
  · subst hi31
    have hmod : ¬ 31 % 2 = 0 := by decide
    have h32 : n.getLsbD (31 + 1) = false := BitVec.getLsbD_of_ge _ _ (Nat.le_refl _)
    rw [if_neg hmod, h32, Bool.or_false, beq_self_eq_true, Bool.true_and] at hs ⊢
    by_cases h30 : n.getLsbD 30 = false
    · rw [if_pos h30, show n.getLsbD (31 - 1) = false from h30, Bool.false_or]
      cases hp : prev.getLsbD 0 with
      | true => rw [if_pos rfl, BitVec.getLsbD_and, BitVec.getLsbD_not, BitVec.getLsbD_twoPow]; simp
      | false => rw [if_neg nofun, BitVec.getLsbD_or, BitVec.getLsbD_twoPow]; simp
    · rw [if_neg h30, hs, show n.getLsbD (31 - 1) = true from Bool.of_not_eq_false h30]
      rfl
  · rw [beq_eq_false_iff_ne.mpr hi31] at hs ⊢
    rw [Bool.false_and] at hs ⊢
    rw [← hs]
    have htwo : (BitVec.twoPow 32 31).getLsbD i = false := by
      rw [BitVec.getLsbD_twoPow, decide_eq_false (Ne.symm hi31), Bool.and_false]
    split_ifs
    · rw [BitVec.getLsbD_and, BitVec.getLsbD_not, htwo, decide_eq_true hi]
      exact Bool.and_true _
    · rw [BitVec.getLsbD_or, htwo, Bool.or_false]
    · rfl

/-! ### Blocks in memory -/

theorem and_DMASK_idem (n : Long) : n &&& DMASK &&& DMASK = n &&& DMASK := by
  rw [BitVec.and_assoc, BitVec.and_self]

theorem cells_masked {block : List Long} {d : Long} (h : d ∈ cells block) : d &&& DMASK = d := by
  rw [cells, List.mem_append, List.mem_map, List.mem_map] at h
  rcases h with ⟨n, -, rfl⟩ | ⟨n, -, rfl⟩ <;> exact and_DMASK_idem _

/-- What the loop of `mfm` leaves: odd longwords in order, even longwords in
order, the first of them after whatever stood before it. -/
structure Looped (len odd : ℕ) (block : List Long) (mem mem' : ℕ → Long) : Prop where
  before : ∀ i < odd, mem' i = mem i
  odds : ∀ (i : ℕ) (n : Long), block[i]? = some n →
    mem' (odd + i) = clockIn (mem' (odd + i - 1)) (n >>> 1 &&& DMASK)
  between : ∀ i, odd + block.length ≤ i → i < odd + len → mem' i = mem i
  first : ∀ n : Long, block[0]? = some n → ∃ stale, mem' (odd + len) = clockIn stale (n &&& DMASK) ∧
    (2 ≤ len → stale = mem (odd + len - 1))
  evens : ∀ (i : ℕ) (n : Long), block[i + 1]? = some n →
    mem' (odd + len + (i + 1)) = clockIn (mem' (odd + len + i)) (n &&& DMASK)

theorem mfmLoop_looped {len odd : ℕ} {block : List Long} (hodd : 0 < odd)
    (hlen : block.length ≤ len) (mem : ℕ → Long) :
    Looped len odd block mem (MfmBuf.mfmLoop len block odd mem) := by
  induction block generalizing odd mem with
  | nil => exact ⟨fun _ _ => rfl, nofun, fun _ _ _ => rfl, nofun, nofun⟩
  | cons n block ih =>
      rw [List.length_cons] at hlen
      rw [MfmBuf.mfmLoop]
      generalize hm₁ : Function.update mem odd (clockIn (mem (odd - 1)) (n >>> 1 &&& DMASK)) = m₁
      generalize hm₂ : Function.update m₁ (odd + len)
        (clockIn (m₁ (odd + len - 1)) (n &&& DMASK)) = m₂
      have h₁ : ∀ i, i ≠ odd → m₁ i = mem i := fun i hi => by rw [← hm₁, Function.update_of_ne hi]
      have h₂ : ∀ i, i ≠ odd + len → m₂ i = m₁ i := fun i hi => by
        rw [← hm₂, Function.update_of_ne hi]
      have hself₂ : m₂ (odd + len) = clockIn (m₁ (odd + len - 1)) (n &&& DMASK) := by
        rw [← hm₂, Function.update_self]
      obtain ⟨hbefore, hodds, hbetween, hfirst, hevens⟩ :=
        ih (Nat.succ_pos odd) (Nat.le_of_succ_le hlen) m₂
      generalize MfmBuf.mfmLoop len block (odd + 1) m₂ = m at hbefore hodds hbetween hfirst hevens ⊢
      have hkeep : m (odd + len) = m₂ (odd + len) := hbetween _ (by omega) (by omega)
      refine ⟨fun i hi => ?_, fun i x hx => ?_, fun i hle hlt => ?_, fun x hx => ?_,
        fun i x hx => ?_⟩
      · rw [hbefore i (by omega), h₂ i (by omega), h₁ i (by omega)]
      · cases i with
        | zero =>
            obtain rfl := Option.some.inj hx
            rw [Nat.add_zero, hbefore odd (Nat.lt_succ_self odd), hbefore (odd - 1) (by omega),
              h₂ odd (by omega), h₂ (odd - 1) (by omega), h₁ (odd - 1) (by omega), ← hm₁,
              Function.update_self]
        | succ i =>
            have := hodds i x hx
            rwa [Nat.succ_add_eq_add_succ] at this
      · rw [List.length_cons] at hle
        rw [hbetween i (by omega) (by omega), h₂ i (by omega), h₁ i (by omega)]
      · obtain rfl := Option.some.inj hx
        exact ⟨_, hkeep.trans hself₂, fun hlen₂ => h₁ _ (by omega)⟩
      · cases i with
        | zero =>
            obtain ⟨stale, hst, hstale⟩ := hfirst x hx
            have hne : block ≠ [] := fun h => by rw [h] at hx; cases hx
            have hpos := List.length_pos_of_ne_nil hne
            rw [hstale (by omega)] at hst
            have hprev : odd + 1 + len - 1 = odd + len := by omega
            have hpos' : odd + 1 + len = odd + len + (0 + 1) := by omega
            rw [hprev, hpos', ← hkeep] at hst
            exact hst
        | succ i =>
            have := hevens i x hx
            have hp₁ : odd + 1 + len + (i + 1) = odd + len + (i + 1 + 1) := by omega
            have hp₂ : odd + 1 + len + i = odd + len + (i + 1) := by omega
            rwa [hp₁, hp₂] at this

/-- `mfm` writes the block with all clock bits right. -/
theorem mfm_wrote (block : List Long) {s : MfmBuf} (hs : 0 < s.pos) :
    Wrote s (s.mfm block) (cells block) := by
  have hl := mfmLoop_looped hs (Nat.le_refl block.length) s.mem
  generalize hm : MfmBuf.mfmLoop block.length block s.pos s.mem = m at hl
  generalize hn : (if m (s.pos + block.length) &&& 0x40000000 = 0 then
      if m (s.pos + block.length - 1) &&& 1 ≠ 0 then m (s.pos + block.length) &&& ~~~0x80000000
      else m (s.pos + block.length) ||| 0x80000000
    else m (s.pos + block.length)) = n
  have hmem : (s.mfm block).mem = Function.update m (s.pos + block.length) n := by
    simp only [MfmBuf.mfm, hm, hn]
  -- the correction, where there is something to correct
  have hn' : ∀ x, block[0]? = some x →
      n = clockIn (m (s.pos + block.length - 1)) (x &&& DMASK) ∧
        n.getLsbD 0 = (m (s.pos + block.length)).getLsbD 0 := fun x hx => by
    obtain ⟨stale, hst, -⟩ := hl.first x hx
    rw [hst, clockIn_patch _ _ (and_DMASK_idem x)] at hn
    rw [← hn, hst, getLsbD_clockIn _ (and_DMASK_idem x) (by decide),
      getLsbD_clockIn _ (and_DMASK_idem x) (by decide)]
    exact ⟨rfl, rfl⟩
  have hne : ∀ i, i ≠ s.pos + block.length →
      Function.update m (s.pos + block.length) n i = m i := fun i hi => Function.update_of_ne hi ..
  constructor
  · rw [cells_length]
    rfl
  · intro i hi
    rw [hmem, hne i (by omega), hl.before i hi]
  · intro i d hd
    rw [hmem]
    by_cases hi : i < block.length
    · rw [cells, List.getElem?_append_left (by rwa [List.length_map]), List.getElem?_map,
        Option.map_eq_some_iff] at hd
      obtain ⟨x, hx, rfl⟩ := hd
      rw [hne _ (by omega), hne _ (by omega), hl.odds i x hx]
    · rw [cells, List.getElem?_append_right (by rw [List.length_map]; omega), List.length_map,
        List.getElem?_map, Option.map_eq_some_iff] at hd
      obtain ⟨x, hx, rfl⟩ := hd
      obtain ⟨k, rfl⟩ : ∃ k, i = block.length + k := ⟨i - block.length, by omega⟩
      rw [Nat.add_sub_cancel_left] at hx
      cases k with
      | zero =>
          have hpos : block.length ≠ 0 := fun h => by
            rw [List.length_eq_zero_iff.mp h] at hx
            cases hx
          rw [Nat.add_zero, Function.update_self, hne _ (by omega)]
          exact (hn' x hx).1
      | succ k =>
          obtain ⟨y, hy⟩ : ∃ y, block[0]? = some y := ⟨_, List.getElem?_eq_getElem (by
            have := (List.getElem?_eq_some_iff.mp hx).1
            omega)⟩
          have heven := hl.evens k x hx
          have hp : s.pos + (block.length + (k + 1)) = s.pos + block.length + (k + 1) := by omega
          rw [hp, hne _ (by omega), heven, Nat.add_succ_sub_one]
          cases k with
          | zero =>
              rw [Nat.add_zero, Function.update_self]
              exact clockIn_congr (hn' y hy).2.symm _
          | succ k => rw [hne _ (by omega)]

/-! ### Sectors -/

/-- A sector in memory: two words of zeros, the mark, the blocks. -/
structure SectorAt (mem : ℕ → Long) (pos : ℕ) (ds : List Long) : Prop where
  zeros : mem pos = clockIn (mem (pos - 1)) 0
  mark : mem (pos + 1) = 0x44894489
  chain : Chain mem (pos + 2) ds

theorem SectorAt.keep {mem mem' : ℕ → Long} {pos : ℕ} {ds : List Long} (h : SectorAt mem pos ds)
    (heq : ∀ i < pos + 2 + ds.length, mem' i = mem i) : SectorAt mem' pos ds where
  zeros := by rw [heq pos (by omega), heq (pos - 1) (by omega), h.zeros]
  mark := by rw [heq (pos + 1) (by omega), h.mark]
  chain i d hd := by
    have hlt := (List.getElem?_eq_some_iff.mp hd).1
    rw [heq _ (by omega), heq _ (by omega), h.chain i d hd]

theorem clockIn_zero (prev : Long) : clockIn prev 0 =
    (if prev &&& 1 ≠ 0 then 0x2AAA#16 else 0xAAAA#16) ++ 0xAAAA#16 := by
  change (if (0xAAAAAAAA : Long) &&& 0x80000000 ≠ 0 ∧ prev &&& 1 ≠ 0 then
    (0xAAAAAAAA : Long) &&& ~~~0x80000000 else 0xAAAAAAAA) = _
  by_cases h : prev &&& 1 = 0
  · rw [if_neg fun hp => hp.2 h, if_neg fun hp => hp h]
    decide
  · rw [if_pos ⟨by decide, h⟩, if_pos h]
    decide

theorem sectorData_length (buffer : ℕ → Long) (sec : ℕ) :
    (sectorData buffer sec).length = DATALONGS := by
  rw [sectorData, List.length_map, List.length_range]

theorem sectorCells_length (track : ℕ) (buffer : ℕ → Long) (sec : ℕ) :
    (sectorCells track buffer sec).length = 270 := by
  simp only [sectorCells, List.length_append, cells_length, sectorData_length, List.length_cons,
    List.length_nil]
  rfl

theorem putmagic_mem (s : MfmBuf) : s.putmagic.mem = Function.update (Function.update s.mem s.pos
    ((if s.mem (s.pos - 1) &&& 1 ≠ 0 then 0x2AAA#16 else 0xAAAA#16) ++ 0xAAAA#16)) (s.pos + 1)
    (0x4489#16 ++ 0x4489#16) := rfl

theorem putsec_spec (track : ℕ) (buffer : ℕ → Long) {s : MfmBuf} (hs : 0 < s.pos) (sec : ℕ) :
    (s.putsec track buffer sec).pos = s.pos + SECLONGS ∧
      (∀ i < s.pos, (s.putsec track buffer sec).mem i = s.mem i) ∧
      SectorAt (s.putsec track buffer sec).mem s.pos (sectorCells track buffer sec) := by
  have hm₀ : ∀ i < s.pos, s.putmagic.mem i = s.mem i := fun i hi => by
    rw [putmagic_mem, Function.update_of_ne (by omega), Function.update_of_ne (by omega)]
  have hz : s.putmagic.mem s.pos = clockIn (s.mem (s.pos - 1)) 0 := by
    rw [clockIn_zero, putmagic_mem, Function.update_of_ne (by omega), Function.update_self]
  have hmark : s.putmagic.mem (s.pos + 1) = 0x44894489 := by
    rw [putmagic_mem, Function.update_self]
    decide
  have hpos : 0 < s.putmagic.pos := Nat.succ_pos _
  have h₁ := mfm_wrote [hdrMagic track sec] hpos
  have h₂ := mfm_wrote [0, 0, 0, 0] (by rw [h₁.pos]; omega)
  have h₃ := mfm_wrote [chksum ([hdrMagic track sec] ++ [0, 0, 0, 0])]
    (by rw [h₂.pos, h₁.pos]; omega)
  have h₄ := mfm_wrote [chksum (sectorData buffer sec)] (by rw [h₃.pos, h₂.pos, h₁.pos]; omega)
  have h₅ := mfm_wrote (sectorData buffer sec) (by rw [h₄.pos, h₃.pos, h₂.pos, h₁.pos]; omega)
  have h : Wrote s.putmagic (s.putsec track buffer sec) (sectorCells track buffer sec) :=
    (((h₁.trans h₂).trans h₃).trans h₄).trans h₅
  have hp : s.putmagic.pos = s.pos + 2 := rfl
  refine ⟨?_, fun i hi => ?_, ?_, ?_, ?_⟩
  · rw [h.pos, sectorCells_length, hp]
    exact Nat.add_assoc s.pos 2 270
  · rw [h.before i (by omega), hm₀ i hi]
  · rw [h.before _ (by omega), h.before _ (by omega), hz, hm₀ _ (by omega)]
  · rw [h.before _ (by omega), hmark]
  · exact hp ▸ h.chain

/-! ### The track -/

/-- Where a sector begins in the track buffer. -/
def sectorPos (sec : ℕ) : ℕ := 415 + SECLONGS * sec

/-- What a track is, longword by longword. -/
structure TrackAt (track : ℕ) (buffer : ℕ → Long) (mem : ℕ → Long) : Prop where
  slop : ∀ i < 415, mem i = 0xAAAAAAAA
  sectors : ∀ sec < NSEC, SectorAt mem (sectorPos sec) (sectorCells track buffer sec)
  last : ∃ low : BitVec 16, mem (sectorPos NSEC) =
    (if mem (sectorPos NSEC - 1) &&& 1 ≠ 0 then 0x2AA8#16 else 0xAAA8#16) ++ low

theorem putsecs_spec (track : ℕ) (buffer : ℕ → Long) (trkbuf : ℕ → Long) (n : ℕ) :
    let s := (List.range n).foldl (MfmBuf.putsec track buffer) (MfmBuf.putslop ⟨trkbuf, 0⟩)
    s.pos = sectorPos n ∧ (∀ i < 415, s.mem i = 0xAAAAAAAA) ∧
      ∀ sec < n, SectorAt s.mem (sectorPos sec) (sectorCells track buffer sec) := by
  induction n with
  | zero => exact ⟨rfl, fun i hi => if_pos ⟨Nat.zero_le i, hi⟩, nofun⟩
  | succ n ih =>
      obtain ⟨hpos, hslop, hsec⟩ := ih
      rw [List.range_succ, List.foldl_append, List.foldl_cons, List.foldl_nil]
      generalize (List.range n).foldl (MfmBuf.putsec track buffer)
        (MfmBuf.putslop ⟨trkbuf, 0⟩) = s at hpos hslop hsec
      have hpos₀ : 415 ≤ s.pos := by rw [hpos, sectorPos]; omega
      obtain ⟨hpos', hkeep, hnew⟩ := putsec_spec track buffer (by omega : 0 < s.pos) n
      refine ⟨?_, fun i hi => ?_, fun sec hlt => ?_⟩
      · rw [hpos', hpos, sectorPos, sectorPos, Nat.mul_succ, Nat.add_assoc]
      · rw [hkeep i (by omega), hslop i hi]
      · rcases Nat.lt_succ_iff_lt_or_eq.mp hlt with hlt | rfl
        · refine (hsec sec hlt).keep fun i hi => hkeep i ?_
          rw [sectorCells_length, sectorPos] at hi
          rw [hpos, sectorPos]
          have hmul := Nat.mul_le_mul_left SECLONGS (Nat.succ_le_of_lt hlt)
          rw [Nat.mul_succ] at hmul
          have : SECLONGS = 272 := rfl
          omega
        · rwa [← hpos]

theorem fdputaml_trackAt (track : ℕ) (buffer : ℕ → Long) (trkbuf : ℕ → Long) :
    TrackAt track buffer (MfmBuf.fdputaml track buffer trkbuf) := by
  obtain ⟨hpos, hslop, hsec⟩ := putsecs_spec track buffer trkbuf NSEC
  unfold MfmBuf.fdputaml
  generalize (List.range NSEC).foldl (MfmBuf.putsec track buffer)
    (MfmBuf.putslop ⟨trkbuf, 0⟩) = s at hpos hslop hsec
  have hlast : sectorPos NSEC = 3407 := rfl
  have hne : ∀ (x : Long) i, i < sectorPos NSEC → Function.update s.mem s.pos x i = s.mem i :=
    fun x i hi => Function.update_of_ne (by omega) ..
  refine ⟨fun i hi => ?_, fun sec hlt => ?_, ?_⟩
  · rw [hne _ _ (by omega), hslop i hi]
  · refine (hsec sec hlt).keep fun i hi => hne _ i ?_
    rw [sectorCells_length, sectorPos] at hi
    have hmul := Nat.mul_le_mul_left SECLONGS (Nat.le_of_lt_succ hlt)
    have : SECLONGS = 272 := rfl
    omega
  · refine ⟨(s.mem s.pos).setWidth 16, ?_⟩
    rw [hne _ (sectorPos NSEC - 1) (by omega), ← hpos, Function.update_self]
    rfl

end HydraAmix.Floppy.Amiga
