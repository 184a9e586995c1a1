import HydraAmix.Floppy.AmigaTrack

/-!
# Amiga tracks: finding a sector

`find` goes through the words of a raw read for a run of zeros, which is a word
of alternating bits, and then compares what follows with a table of marks at
all alignments. If it is to find a mark, there must be zeros before it and no
other mark on the way.
-/
namespace HydraAmix.Floppy.Amiga
open Word BitStream

abbrev MARK : Long := 0x44894489

/-- `struct bittab` -/
structure Bittab where
  word0 : BitVec 16
  word1 : BitVec 16
  word2 : BitVec 16
  w2mask : BitVec 16
  shift : ℕ
  deriving DecidableEq, Repr

def even : List Bittab := [
  ⟨0x4489, 0x4489, 0x0000, 0x0000, 0⟩,
  ⟨0xA448, 0x9448, 0x9000, 0xF000, 4⟩,
  ⟨0xAA44, 0x8944, 0x8900, 0xFF00, 8⟩,
  ⟨0xAAA4, 0x4894, 0x4890, 0xFFF0, 12⟩,
  ⟨0x9122, 0x5122, 0x4000, 0xC000, 2⟩,
  ⟨0xA912, 0x2512, 0x2400, 0xFC00, 6⟩,
  ⟨0xAA91, 0x2251, 0x2240, 0xFFC0, 10⟩,
  ⟨0xAAA9, 0x1225, 0x1224, 0xFFFC, 14⟩]

def odd : List Bittab := [
  ⟨0x4891, 0x2891, 0x2000, 0xE000, 3⟩,
  ⟨0x5489, 0x1289, 0x1200, 0xFE00, 7⟩,
  ⟨0x5548, 0x9128, 0x9120, 0xFFE0, 11⟩,
  ⟨0x5554, 0x8912, 0x8912, 0xFFFE, 15⟩,
  ⟨0x2244, 0xA244, 0x8000, 0x8000, 1⟩,
  ⟨0x5224, 0x4A24, 0x4800, 0xF800, 5⟩,
  ⟨0x5522, 0x44A2, 0x4480, 0xFF80, 9⟩,
  ⟨0x5552, 0x244A, 0x2448, 0xFFF8, 13⟩]

/-- The table for what follows a run of a word. -/
def bittab (w : BitVec 16) : Option (List Bittab) :=
  if w = 0xAAAA then some even else if w = 0x5555 then some odd else none

section
variable (rd : ℕ → BitVec 16)

/-- The first entry of a table that matches at a word. -/
def lookup (fwa : ℕ) (tab : List Bittab) : Option Bittab :=
  tab.find? fun tp =>
    rd fwa = tp.word0 ∧ rd (fwa + 1) = tp.word1 ∧ rd (fwa + 2) &&& tp.w2mask = tp.word2

/-- The loops of `find`; in the inner one `run` is the word repeated. A word is
looked at twice at most. -/
def findLoop (mfmlim : ℕ) : ℕ → Option (BitVec 16) → ℕ → Option (ℕ × ℕ)
  | 0, _, _ => none
  | fuel + 1, none, fwa =>
      if fwa = mfmlim then none
      else
        let w := rd fwa
        findLoop mfmlim fuel (if (bittab w).isSome then some w else none) (fwa + 1)
  | fuel + 1, some w, fwa =>
      if fwa + 2 ≥ mfmlim then none
      else if rd fwa = w then findLoop mfmlim fuel (some w) (fwa + 1)
      else match lookup rd fwa ((bittab w).getD []) with
        | some tp => some (fwa - 2, tp.shift)
        | none => findLoop mfmlim fuel none fwa

/-- `find`: the new `mfmbuf` and `shift`. -/
def find (mfmlim mfmbuf : ℕ) : Option (ℕ × ℕ) :=
  if mfmbuf = mfmlim then none
  else findLoop rd mfmlim (2 * (mfmlim - mfmbuf)) none (mfmbuf + 1)

end

/-! ### The tables -/

/-- An entry consists of zeros, as many as it shifts by, and the mark. -/
def Bittab.bit (tp : Bittab) (i : ℕ) : Bool :=
  if i < tp.shift then (tp.shift - i) % 2 == 0 else MARK.getMsbD (i - tp.shift)

theorem bittab_rows : ∀ tp ∈ even ++ odd, tp.shift < 16 ∧ (∀ i < 16,
    tp.word0.getMsbD i = tp.bit i ∧ tp.word1.getMsbD i = tp.bit (16 + i) ∧
    tp.word2.getMsbD i = (decide (i < tp.shift) && tp.bit (32 + i)) ∧
    tp.w2mask.getMsbD i = decide (i < tp.shift)) := by decide

/-- There is an entry for every shift, in the table of the zeros before it. -/
theorem bittab_complete : ∀ s < 16, ∃ tp ∈ (if s % 2 = 0 then even else odd), tp.shift = s := by
  decide

/-- The mark does not overlap with itself by more than half. -/
theorem MARK_overlap : ∀ d < 16, 0 < d → ∃ i < 16, MARK.getMsbD i ≠ MARK.getMsbD (d + i) := by
  decide

section
variable {rd : ℕ → BitVec 16} {b : ℕ → Bool} {mfmlim : ℕ}

/-- The words of a raw read are those of a bit stream. -/
def Reads (rd : ℕ → BitVec 16) (b : ℕ → Bool) (mfmlim : ℕ) : Prop :=
  ∀ k < mfmlim, At b (16 * k) (rd k)

theorem Reads.bit (h : Reads rd b mfmlim) {k i : ℕ} (hk : k < mfmlim) (hi : i < 16) :
    b (16 * k + i) = (rd k).getMsbD i := h k hk i hi

theorem Reads.eq_iff (h : Reads rd b mfmlim) {k : ℕ} (hk : k < mfmlim) (w : BitVec 16) :
    rd k = w ↔ ∀ i < 16, b (16 * k + i) = w.getMsbD i := by
  constructor
  · rintro rfl
    exact h k hk
  · intro hw
    exact BitVec.eq_of_getMsbD_eq fun i hi => by rw [← h.bit hk hi, hw i hi]

/-- An entry matches where its bits are. -/
theorem Reads.row (h : Reads rd b mfmlim) {fwa : ℕ} (hfwa : fwa + 2 < mfmlim) {tp : Bittab}
    (htp : tp ∈ even ++ odd) :
    (rd fwa = tp.word0 ∧ rd (fwa + 1) = tp.word1 ∧ rd (fwa + 2) &&& tp.w2mask = tp.word2) ↔
      ∀ i < 32 + tp.shift, b (16 * fwa + i) = tp.bit i := by
  obtain ⟨hs, hrow⟩ := bittab_rows tp htp
  rw [h.eq_iff (by omega), h.eq_iff (by omega)]
  have hmask : rd (fwa + 2) &&& tp.w2mask = tp.word2 ↔
      ∀ i < tp.shift, b (16 * (fwa + 2) + i) = tp.bit (32 + i) := by
    constructor
    · intro heq i hi
      have hbit := congrArg (·.getMsbD i) heq
      obtain ⟨-, -, h₂, hm⟩ := hrow i (by omega)
      rw [BitVec.getMsbD_and, h₂, hm, decide_eq_true hi, Bool.and_true, Bool.true_and,
        ← h.bit hfwa (by omega)] at hbit
      exact hbit
    · intro hall
      refine BitVec.eq_of_getMsbD_eq fun i hi => ?_
      obtain ⟨-, -, h₂, hm⟩ := hrow i hi
      rw [BitVec.getMsbD_and, h₂, hm, ← h.bit hfwa hi]
      by_cases hlt : i < tp.shift
      · rw [decide_eq_true hlt, Bool.and_true, Bool.true_and, hall i hlt]
      · rw [decide_eq_false hlt, Bool.and_false, Bool.false_and]
  rw [hmask]
  constructor
  · rintro ⟨h₀, h₁, h₂⟩ i hi
    by_cases hlt : i < 16
    · rw [h₀ i hlt, (hrow i hlt).1]
    · by_cases hlt' : i < 32
      · obtain ⟨j, rfl⟩ : ∃ j, i = 16 + j := ⟨i - 16, by omega⟩
        have := h₁ j (by omega)
        rw [(hrow j (by omega)).2.1] at this
        rw [← this]
        congr 1
        omega
      · obtain ⟨j, rfl⟩ : ∃ j, i = 32 + j := ⟨i - 32, by omega⟩
        rw [← h₂ j (by omega)]
        congr 1
        omega
  · intro hall
    refine ⟨fun i hi => ?_, fun i hi => ?_, fun i hi => ?_⟩
    · rw [hall i (by omega), (hrow i hi).1]
    · rw [(hrow i hi).2.1, ← hall (16 + i) (by omega)]
      congr 1
      omega
    · rw [← hall (32 + i) (by omega)]
      congr 1
      omega

theorem lookup_mem {fwa : ℕ} {w : BitVec 16} {tp : Bittab}
    (hl : lookup rd fwa ((bittab w).getD []) = some tp) : tp ∈ even ++ odd := by
  have hmem := List.mem_of_find?_eq_some hl
  unfold bittab at hmem
  rw [List.mem_append]
  split_ifs at hmem
  · exact .inl hmem
  · exact .inr hmem
  · cases hmem

/-- What a table finds is a mark. -/
theorem Reads.lookup_sound (h : Reads rd b mfmlim) {fwa : ℕ} (hfwa : fwa + 2 < mfmlim)
    {w : BitVec 16} {tp : Bittab} (hl : lookup rd fwa ((bittab w).getD []) = some tp) :
    At b (16 * fwa + tp.shift) MARK := by
  have hmem := lookup_mem hl
  have hrow := List.find?_some hl
  rw [decide_eq_true_eq, h.row hfwa hmem] at hrow
  intro i hi
  rw [Nat.add_assoc, hrow (tp.shift + i) (by omega), Bittab.bit, if_neg (by omega),
    Nat.add_sub_cancel_left]

/-- No table entry begins with a run. -/
theorem bittab_word0 : ∀ tp ∈ even ++ odd, bittab tp.word0 = none := by decide

/-- A mark at bit `s` of word `f`, with zeros before it. -/
structure MarkAt (b : ℕ → Bool) (f s : ℕ) : Prop where
  shift : s < 16
  word : 2 ≤ f
  mark : At b (16 * f + s) MARK
  zeros : ∀ i, 0 < i → i < 32 → b (16 * f + s - i) = (i % 2 == 0)

theorem MarkAt.run {f s : ℕ} (hm : MarkAt b f s) (h : Reads rd b mfmlim) (hf : f < mfmlim) :
    rd (f - 1) = if s % 2 = 0 then 0xAAAA else 0x5555 := by
  have hs := hm.shift
  have hword := hm.word
  have hA : ∀ i < 16, (0xAAAA#16).getMsbD i = (i % 2 == 0) := by decide
  have h5 : ∀ i < 16, (0x5555#16).getMsbD i = (i % 2 == 1) := by decide
  refine BitVec.eq_of_getMsbD_eq fun i hi => ?_
  have hp : 16 * (f - 1) + i = 16 * f + s - (16 + s - i) := by omega
  rw [← h.bit (by omega) hi, hp, hm.zeros _ (by omega) (by omega)]
  split_ifs with hpar
  · rw [show (0xAAAA : BitVec 16).getMsbD i = _ from hA i hi, Bool.eq_iff_iff, beq_iff_eq,
      beq_iff_eq]
    omega
  · rw [show (0x5555 : BitVec 16).getMsbD i = _ from h5 i hi, Bool.eq_iff_iff, beq_iff_eq,
      beq_iff_eq]
    omega

/-- At the mark the table after the run has an entry that matches, and any that
does shifts by the same. -/
theorem MarkAt.lookup {f s : ℕ} (hm : MarkAt b f s) (h : Reads rd b mfmlim)
    (hf : f + 2 < mfmlim) : bittab (rd f) = none ∧ (bittab (rd (f - 1))).isSome ∧
      ∃ tp, lookup rd f ((bittab (rd (f - 1))).getD []) = some tp ∧ tp.shift = s := by
  have hs := hm.shift
  obtain ⟨tp, htp, rfl⟩ := bittab_complete s hs
  have htab : bittab (rd (f - 1)) = some (if tp.shift % 2 = 0 then even else odd) := by
    rw [hm.run h (by omega)]
    split_ifs <;> rfl
  have hmem : tp ∈ even ++ odd := by
    rw [List.mem_append]
    split_ifs at htp
    · exact .inl htp
    · exact .inr htp
  have hrow := (h.row hf hmem).mpr fun i hi => by
    rw [Bittab.bit]
    split_ifs with hlt
    · have hp : 16 * f + i = 16 * f + tp.shift - (tp.shift - i) := by omega
      rw [hp, hm.zeros _ (by omega) (by omega)]
    · have hp : 16 * f + i = 16 * f + tp.shift + (i - tp.shift) := by omega
      rw [hp, hm.mark _ (by omega)]
  refine ⟨hrow.1 ▸ bittab_word0 tp hmem, by rw [htab]; rfl, ?_⟩
  have hsome : (Amiga.lookup rd f ((bittab (rd (f - 1))).getD [])).isSome := by
    rw [htab, Option.getD_some, Amiga.lookup, List.find?_isSome]
    exact ⟨tp, htp, decide_eq_true hrow⟩
  obtain ⟨tp', htp'⟩ := Option.isSome_iff_exists.mp hsome
  refine ⟨tp', htp', ?_⟩
  -- two marks cannot begin in one word
  have hat := h.lookup_sound hf htp'
  have hs' : tp'.shift < 16 := (bittab_rows tp' (lookup_mem htp')).1
  have hover : ∀ {x y : ℕ}, x < y → y < 16 → At b (16 * f + x) MARK → At b (16 * f + y) MARK →
      False := fun {x y} hxy hy hx hy' => by
    obtain ⟨i, hi, hne⟩ := MARK_overlap (y - x) (by omega) (by omega)
    refine hne ?_
    rw [← hx (y - x + i) (by omega), ← hy' i (by omega)]
    congr 1
    omega
  rcases Nat.lt_trichotomy tp'.shift tp.shift with hlt | heq | hlt
  · exact absurd (hover hlt hs hat hm.mark) not_false
  · exact heq
  · exact absurd (hover hlt hs' hm.mark hat) not_false

/-- The loops of `find` go on to the first mark they can see. -/
theorem MarkAt.findLoop {f s k₀ : ℕ} (hm : MarkAt b f s) (h : Reads rd b mfmlim)
    (hf : f + 2 < mfmlim)
    (hno : ∀ k i, k₀ + 2 ≤ k → k < f → i < 16 → ¬ At b (16 * k + i) MARK) (fuel : ℕ) :
    (∀ fwa, k₀ < fwa → fwa < f → 2 * (mfmlim - fwa) ≤ fuel →
      findLoop rd mfmlim fuel none fwa = some (f - 2, s)) ∧
    ∀ fwa, k₀ + 1 < fwa → fwa ≤ f → 2 * (mfmlim - fwa) < fuel → (bittab (rd (fwa - 1))).isSome →
      findLoop rd mfmlim fuel (some (rd (fwa - 1))) fwa = some (f - 2, s) := by
  obtain ⟨hnone, hsome, tp, htp, hshift⟩ := hm.lookup h hf
  induction fuel with
  | zero => exact ⟨fun fwa _ _ _ => by omega, fun fwa _ _ hlt => absurd hlt (Nat.not_lt_zero _)⟩
  | succ fuel ih =>
      obtain ⟨ihnone, ihsome⟩ := ih
      constructor
      · intro fwa hk hlt hfuel
        rw [Amiga.findLoop, if_neg (by omega)]
        by_cases hw : (bittab (rd fwa)).isSome
        · simp only [if_pos hw]
          exact ihsome (fwa + 1) (by omega) hlt (by omega) hw
        · have hne : fwa ≠ f - 1 := fun he => hw (he ▸ hsome)
          simp only [if_neg hw]
          exact ihnone (fwa + 1) (by omega) (by omega) (by omega)
      · intro fwa hk hle hfuel hw
        rw [Amiga.findLoop, if_neg (by omega)]
        by_cases heq : rd fwa = rd (fwa - 1)
        · have hne : fwa ≠ f := fun he => by
            rw [he] at heq
            rw [he, ← heq, hnone] at hw
            cases hw
          rw [if_pos heq, ← heq]
          exact ihsome (fwa + 1) (by omega) (by omega) (by omega) (heq ▸ hw)
        · rw [if_neg heq]
          rcases Nat.eq_or_lt_of_le hle with rfl | hlt
          · rw [htp]
            simp only [hshift]
          · have hlook : Amiga.lookup rd fwa ((bittab (rd (fwa - 1))).getD []) = none := by
              cases hl : Amiga.lookup rd fwa ((bittab (rd (fwa - 1))).getD []) with
              | none => rfl
              | some tp' =>
                  exact absurd (h.lookup_sound (by omega) hl) (hno fwa tp'.shift (by omega) hlt
                    (bittab_rows tp' (lookup_mem hl)).1)
            rw [hlook]
            exact ihnone fwa (by omega) hlt (by omega)

/-- `find` finds the next mark whose run of zeros it can see. -/
theorem MarkAt.find {f s k₀ : ℕ} (hm : MarkAt b f s) (h : Reads rd b mfmlim)
    (hf : f + 2 < mfmlim) (hk : k₀ + 2 ≤ f)
    (hno : ∀ k i, k₀ + 2 ≤ k → k < f → i < 16 → ¬ At b (16 * k + i) MARK) :
    find rd mfmlim k₀ = some (f - 2, s) := by
  rw [Amiga.find, if_neg (by omega)]
  exact (hm.findLoop h hf hno _).1 (k₀ + 1) (Nat.lt_succ_self k₀) (by omega) (by omega)

end
end HydraAmix.Floppy.Amiga
