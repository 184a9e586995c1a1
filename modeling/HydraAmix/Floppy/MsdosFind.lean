import HydraAmix.Floppy.MsdosMarks

/-!
# MS-DOS tracks: finding a mark

`search` goes through the words of a raw read for a word of zeros, looks the
next word up in a table of marks at all alignments, and compares what follows
with the mark. The words of the read are those of a bit stream; `mfmnext` and
`mfmlim` count them. What stands behind `mfmlim` is arbitrary.
-/
namespace HydraAmix.Floppy.Msdos
open Word BitStream

/-- A mark, with more and more zeros shifted in. -/
def ammagic : List (BitVec 16) := [0x8912, 0x4489, 0x2244, 0x9122, 0x4891, 0xa448, 0x5224, 0xa912,
  0x5489, 0xaa44, 0x5522, 0xaa91, 0x5548, 0xaaa4, 0x5552, 0xaaa9]

def maskover (n : ℕ) : BitVec 16 := 1 <<< n - 1

section
variable (rd : ℕ → BitVec 16)

/-- The 16 bits from bit `mfmbskip` of a word on. -/
def skipped (mfmbskip mp : ℕ) : BitVec 16 :=
  if mfmbskip ≠ 0 then rd mp <<< mfmbskip ||| rd (mp + 1) >>> (16 - mfmbskip) else rd mp

/-- The loop of `checkeq` and the comparison after it. -/
def checkeqLoop (mfmbskip : ℕ) : List (BitVec 16) → ℕ → ℕ → Bool
  | [], _, _ => false
  | g :: goal, bitlen, mp =>
      if bitlen > 16 then
        if g ≠ skipped rd mfmbskip mp then false
        else checkeqLoop mfmbskip goal (bitlen - 16) (mp + 1)
      else
        let w := rd mp <<< mfmbskip
        let w := if mfmbskip ≠ 0 ∧ bitlen > 16 - mfmbskip then
            w ||| rd (mp + 1) >>> (16 - mfmbskip)
          else w
        w &&& ~~~maskover (16 - bitlen) == g

def checkeq (mfmlim mfmnext mfmbskip : ℕ) (goal : List (BitVec 16)) (bitlen : ℕ) : Bool :=
  if bitlen = 0 then true
  else if bitlen + mfmbskip > (mfmlim - mfmnext) * 16 then false
  else checkeqLoop rd mfmbskip goal bitlen mfmnext

/-- The loop of `search` over the first entries of the table, from the last one
down, with the new `mfmbskip`. -/
def searchTab (mfmlim mfmnext : ℕ) (goal : List (BitVec 16)) (bitlen : ℕ) : ℕ → ℕ → Bool × ℕ
  | 0, mfmbskip => (false, mfmbskip)
  | n + 1, mfmbskip =>
      if rd mfmnext = ammagic.getD n 0 then
        if checkeq rd mfmlim mfmnext n goal bitlen then (true, n)
        else searchTab mfmlim mfmnext goal bitlen n n
      else searchTab mfmlim mfmnext goal bitlen n mfmbskip

/-- The loop of `search` with `left` words to go. -/
def searchLoop (mfmlim : ℕ) (goal : List (BitVec 16)) (bitlen : ℕ) : ℕ → ℕ → ℕ → Bool × ℕ × ℕ
  | 0, mfmnext, mfmbskip => (false, mfmnext, mfmbskip)
  | left + 1, mfmnext, mfmbskip =>
      let w := rd mfmnext
      let mfmnext := mfmnext + 1
      if (w = 0xAAAA ∨ w = 0x5555 ∨ w = 0x5554) ∧ mfmnext ≠ mfmlim then
        let found := searchTab rd mfmlim mfmnext goal bitlen 16 mfmbskip
        if found.1 then (true, mfmnext, found.2)
        else searchLoop mfmlim goal bitlen left mfmnext found.2
      else searchLoop mfmlim goal bitlen left mfmnext mfmbskip

/-- `search`, with the new `mfmnext` and `mfmbskip`. -/
def search (mfmlim mfmnext mfmbskip : ℕ) (goal : List (BitVec 16)) (bitlen maxsrch : ℕ) :
    Bool × ℕ × ℕ :=
  let mfmnext := if mfmbskip ≠ 0 ∧ mfmnext ≠ mfmlim then mfmnext + 1 else mfmnext
  let mfmlim := if maxsrch ≠ 0 ∧ mfmlim > mfmnext + maxsrch then mfmnext + maxsrch else mfmlim
  searchLoop rd mfmlim goal bitlen (mfmlim - mfmnext) mfmnext mfmbskip

end

/-- The words of a raw read are those of a bit stream. -/
def Reads (rd : ℕ → BitVec 16) (b : ℕ → Bool) (mfmlim : ℕ) : Prop :=
  ∀ k < mfmlim, At b (16 * k) (rd k)

section
variable {rd : ℕ → BitVec 16} {b : ℕ → Bool} {mfmlim : ℕ}

theorem Reads.bit (h : Reads rd b mfmlim) {k i : ℕ} (hk : k < mfmlim) (hi : i < 16) :
    b (16 * k + i) = (rd k).getMsbD i := h k hk i hi

theorem Reads.skipped (h : Reads rd b mfmlim) {mfmbskip mp : ℕ} (hs : mfmbskip < 16)
    (hmp : mp < mfmlim) (hmp' : mfmbskip ≠ 0 → mp + 1 < mfmlim) :
    At b (16 * mp + mfmbskip) (skipped rd mfmbskip mp) := by
  rw [Msdos.skipped]
  split_ifs with hne
  · refine at_shifted (by omega) (h mp hmp) fun i hi => ?_
    have hp : 16 * mp + 16 + i = 16 * (mp + 1) + i := by omega
    rw [hp, h.bit (hmp' hne) (by omega)]
  · obtain rfl : mfmbskip = 0 := by omega
    exact h mp hmp

theorem getMsbD_maskover : ∀ n ≤ 16, ∀ i < 16, (maskover n).getMsbD i = decide (16 - n ≤ i) := by
  decide

/-- The last word of an array is filled with zeros. -/
def Filled (goal : List (BitVec 16)) (bitlen : ℕ) : Prop :=
  bitlen ≤ 16 * goal.length ∧ ∀ i < 16 * goal.length, bitlen ≤ i → goalBit goal i = false

theorem iam_filled : Filled iam IAMLEN := ⟨by decide, by decide⟩

theorem dam_filled : Filled dam DAMLEN := ⟨by decide, by decide⟩

theorem goalBit_head (g : BitVec 16) (goal : List (BitVec 16)) {i : ℕ} (hi : i < 16) :
    goalBit (g :: goal) i = g.getMsbD i := by
  rw [goalBit, ofWords, Nat.div_eq_of_lt hi, Nat.mod_eq_of_lt hi]
  rfl

theorem goalBit_tail (g : BitVec 16) (goal : List (BitVec 16)) (i : ℕ) :
    goalBit (g :: goal) (16 + i) = goalBit goal i := by
  rw [goalBit, ofWords, Nat.add_div_left i (by decide), Nat.add_mod_left]
  rfl

/-- `checkeq` compares bits. -/
theorem Reads.checkeqLoop (h : Reads rd b mfmlim) {mfmbskip : ℕ} (hs : mfmbskip < 16)
    {goal : List (BitVec 16)} {bitlen mp : ℕ} (hpos : 0 < bitlen) (hfill : Filled goal bitlen)
    (hlim : bitlen + mfmbskip ≤ 16 * (mfmlim - mp)) :
    checkeqLoop rd mfmbskip goal bitlen mp = true ↔
      Matches b (16 * mp + mfmbskip) goal bitlen := by
  induction goal generalizing bitlen mp with
  | nil => exact absurd hfill.1 (Nat.not_le_of_lt hpos)
  | cons g goal ih =>
      obtain ⟨hle, hzero⟩ := hfill
      rw [List.length_cons] at hle hzero
      rw [Msdos.checkeqLoop]
      by_cases hlen : bitlen > 16
      · rw [if_pos hlen]
        have hat := h.skipped hs (by omega : mp < mfmlim) (by omega)
        by_cases hne : g = Msdos.skipped rd mfmbskip mp
        · have hfill' : Filled goal (bitlen - 16) :=
            ⟨by omega, fun i hi hi' => by rw [← goalBit_tail g, hzero _ (by omega) (by omega)]⟩
          rw [if_neg (not_not_intro hne), ih (by omega) hfill' (by omega)]
          have hp : ∀ i, 16 * (mp + 1) + mfmbskip + i = 16 * mp + mfmbskip + (16 + i) := by omega
          constructor
          · intro hm i hi
            rcases Nat.lt_or_ge i 16 with hlt | hge
            · rw [hat i hlt, goalBit_head g goal hlt, hne]
            · obtain ⟨j, rfl⟩ : ∃ j, i = 16 + j := ⟨i - 16, by omega⟩
              rw [← hp, hm j (by omega), goalBit_tail]
          · intro hm i hi
            rw [hp, hm _ (by omega), goalBit_tail]
        · rw [if_pos hne]
          refine ⟨nofun, fun hm => absurd (BitVec.eq_of_getMsbD_eq fun i hi => ?_) hne⟩
          rw [← hat i hi, hm i (by omega), goalBit_head g goal hi]
      · rw [if_neg hlen]
        -- the last word, which may end in the word before
        generalize hw : (if mfmbskip ≠ 0 ∧ bitlen > 16 - mfmbskip then
          rd mp <<< mfmbskip ||| rd (mp + 1) >>> (16 - mfmbskip) else rd mp <<< mfmbskip) = w
        have hbit : ∀ i < bitlen, w.getMsbD i = b (16 * mp + mfmbskip + i) := fun i hi => by
          rw [← hw]
          split_ifs with hnext
          · have hat := h.skipped hs (by omega : mp < mfmlim) (by omega)
            rw [Msdos.skipped, if_pos hnext.1] at hat
            exact (hat i (by omega)).symm
          · rw [BitVec.getMsbD_shiftLeft, ← h.bit (by omega) (by omega)]
            congr 1
            omega
        have hmask : ∀ i < 16, (w &&& ~~~maskover (16 - bitlen)).getMsbD i =
            (w.getMsbD i && decide (i < bitlen)) := fun i hi => by
          rw [BitVec.getMsbD_and, BitVec.getMsbD_not, getMsbD_maskover _ (by omega) i hi,
            decide_eq_true hi, Bool.true_and, ← decide_not]
          congr 2
          rw [eq_iff_iff]
          omega
        dsimp only
        rw [hw, beq_iff_eq]
        constructor
        · intro heq i hi
          rw [goalBit_head g goal (by omega), ← heq, hmask i (by omega), decide_eq_true hi,
            Bool.and_true, hbit i hi]
        · intro hm
          refine BitVec.eq_of_getMsbD_eq fun i hi => ?_
          rw [hmask i hi]
          rcases Nat.lt_or_ge i bitlen with hlt | hge
          · rw [decide_eq_true hlt, Bool.and_true, hbit i hlt, hm i hlt, goalBit_head g goal hi]
          · rw [decide_eq_false (Nat.not_lt_of_le hge), Bool.and_false, ← goalBit_head g goal hi,
              hzero i (by omega) hge]

/-- `checkeq` compares bits, as far as the read goes. -/
theorem Reads.checkeq (h : Reads rd b mfmlim) {mfmlim' mfmnext mfmbskip : ℕ} (hs : mfmbskip < 16)
    (hle : mfmlim' ≤ mfmlim) {goal : List (BitVec 16)} {bitlen : ℕ} (hpos : 0 < bitlen)
    (hfill : Filled goal bitlen) : checkeq rd mfmlim' mfmnext mfmbskip goal bitlen = true ↔
      bitlen + mfmbskip ≤ 16 * (mfmlim' - mfmnext) ∧
        Matches b (16 * mfmnext + mfmbskip) goal bitlen := by
  rw [Msdos.checkeq, if_neg (by omega)]
  by_cases hlim : bitlen + mfmbskip ≤ 16 * (mfmlim' - mfmnext)
  · rw [if_neg (by omega), h.checkeqLoop hs hpos hfill (by omega)]
    exact ⟨fun hm => ⟨hlim, hm⟩, fun hm => hm.2⟩
  · rw [if_pos (by omega)]
    exact ⟨nofun, fun hm => absurd hm.1 hlim⟩

/-! ### The search -/

/-- A place the search stops at, if it gets there. -/
structure Stop (rd : ℕ → BitVec 16) (mfmlim : ℕ) (goal : List (BitVec 16)) (bitlen f k : ℕ) : Prop
    where
  skip : k < 16
  word : rd f = ammagic.getD k 0
  eq : checkeq rd mfmlim f k goal bitlen = true

theorem searchTab_spec (goal : List (BitVec 16)) (bitlen f n : ℕ) (hn : n ≤ 16) {mfmbskip : ℕ}
    (hs : mfmbskip < 16) :
    (searchTab rd mfmlim f goal bitlen n mfmbskip).2 < 16 ∧
      ((searchTab rd mfmlim f goal bitlen n mfmbskip).1 = true →
        checkeq rd mfmlim f (searchTab rd mfmlim f goal bitlen n mfmbskip).2 goal bitlen = true) ∧
      ∀ k < n, Stop rd mfmlim goal bitlen f k →
        (searchTab rd mfmlim f goal bitlen n mfmbskip).1 = true := by
  induction n generalizing mfmbskip with
  | zero => exact ⟨hs, nofun, nofun⟩
  | succ n ih =>
      rw [searchTab]
      by_cases hword : rd f = ammagic.getD n 0
      · rw [if_pos hword]
        by_cases heq : checkeq rd mfmlim f n goal bitlen = true
        · rw [if_pos heq]
          exact ⟨hn, fun _ => heq, fun _ _ _ => rfl⟩
        · rw [if_neg heq]
          obtain ⟨h₁, h₂, h₃⟩ := ih (by omega) (Nat.lt_of_succ_le hn)
          refine ⟨h₁, h₂, fun k hk hstop => h₃ k ?_ hstop⟩
          have hne : k ≠ n := fun h => heq (h ▸ hstop.eq)
          omega
      · rw [if_neg hword]
        obtain ⟨h₁, h₂, h₃⟩ := ih (by omega) hs
        refine ⟨h₁, h₂, fun k hk hstop => h₃ k ?_ hstop⟩
        have hne : k ≠ n := fun h => hword (h ▸ hstop.word)
        omega

/-- A word of zeros. -/
def IsZeros (w : BitVec 16) : Prop := w = 0xAAAA ∨ w = 0x5555 ∨ w = 0x5554

/-- What a search from `start` on has found: the first place to stop at, or none. -/
structure Searched (rd : ℕ → BitVec 16) (mfmlim : ℕ) (goal : List (BitVec 16)) (bitlen start : ℕ)
    (r : Bool × ℕ × ℕ) : Prop where
  skip : r.2.2 < 16
  found : r.1 = true → start < r.2.1 ∧ r.2.1 < mfmlim ∧
    checkeq rd mfmlim r.2.1 r.2.2 goal bitlen = true
  limit : r.1 = false → r.2.1 = mfmlim
  first : ∀ f k, start < f → f < mfmlim → IsZeros (rd (f - 1)) → Stop rd mfmlim goal bitlen f k →
    r.1 = true ∧ r.2.1 ≤ f

theorem searchLoop_spec (goal : List (BitVec 16)) (bitlen left : ℕ) {start mfmbskip : ℕ}
    (hlim : start + left = mfmlim) (hs : mfmbskip < 16) :
    Searched rd mfmlim goal bitlen start
      (searchLoop rd mfmlim goal bitlen left start mfmbskip) := by
  induction left generalizing start mfmbskip with
  | zero => exact ⟨hs, nofun, fun _ => hlim, fun f k h₁ h₂ => by omega⟩
  | succ left ih =>
      rw [searchLoop]
      by_cases hw : (rd start = 0xAAAA ∨ rd start = 0x5555 ∨ rd start = 0x5554) ∧ start + 1 ≠ mfmlim
      · obtain ⟨htab, hfound, hstop⟩ := @searchTab_spec rd mfmlim goal bitlen
          (start + 1) 16 (Nat.le_refl 16) mfmbskip hs
        simp only [if_pos hw]
        by_cases hok : (searchTab rd mfmlim (start + 1) goal bitlen 16 mfmbskip).1 = true
        · rw [if_pos hok]
          have hne := hw.2
          have hlt : start + 1 < mfmlim := by omega
          exact ⟨htab, fun _ => ⟨Nat.lt_succ_self start, hlt, hfound hok⟩, Bool.noConfusion,
            fun f k h₁ _ _ _ => ⟨rfl, h₁⟩⟩
        · rw [if_neg hok]
          obtain ⟨h₁, h₂, h₃, h₄⟩ := @ih (start + 1) _ (by omega) htab
          refine ⟨h₁, fun h => ⟨by have := (h₂ h).1; omega, (h₂ h).2⟩, h₃,
            fun f k hf hf' hz hst => h₄ f k ?_ hf' hz hst⟩
          have hne : f ≠ start + 1 := fun h => hok (hstop k hst.skip (h ▸ hst))
          omega
      · simp only [if_neg hw]
        obtain ⟨h₁, h₂, h₃, h₄⟩ := @ih (start + 1) _ (by omega) hs
        refine ⟨h₁, fun h => ⟨by have := (h₂ h).1; omega, (h₂ h).2⟩, h₃,
          fun f k hf hf' hz hst => h₄ f k ?_ hf' hz hst⟩
        have hne : f ≠ start + 1 := fun h => hw ⟨by rw [h] at hz; exact hz, by omega⟩
        omega

/-- Where a search begins. -/
def searchStart (mfmlim mfmnext mfmbskip : ℕ) : ℕ :=
  if mfmbskip ≠ 0 ∧ mfmnext ≠ mfmlim then mfmnext + 1 else mfmnext

/-- Where a search of `maxsrch` words ends. -/
def searchEnd (mfmlim start maxsrch : ℕ) : ℕ :=
  if maxsrch ≠ 0 ∧ mfmlim > start + maxsrch then start + maxsrch else mfmlim

theorem search_spec (goal : List (BitVec 16)) (bitlen maxsrch : ℕ) {mfmnext mfmbskip : ℕ}
    (hlim : mfmnext ≤ mfmlim) (hs : mfmbskip < 16) :
    Searched rd (searchEnd mfmlim (searchStart mfmlim mfmnext mfmbskip) maxsrch) goal bitlen
      (searchStart mfmlim mfmnext mfmbskip)
      (search rd mfmlim mfmnext mfmbskip goal bitlen maxsrch) := by
  have hle : searchStart mfmlim mfmnext mfmbskip ≤
      searchEnd mfmlim (searchStart mfmlim mfmnext mfmbskip) maxsrch := by
    rw [searchEnd, searchStart]
    split_ifs <;> omega
  exact searchLoop_spec goal bitlen _ (Nat.add_sub_cancel' hle) hs

/-! ### Marks that the search stops at -/

/-- The table of marks: zeros, and the first bits of the mark. -/
theorem ammagic_rows : ∀ k < 16, ∀ r < 16, (ammagic.getD k 0).getMsbD r =
    if r < k then (k - r) % 2 == 1 && k - r != 1 else (0x8912#16).getMsbD (r - k) := by decide

/-- A mark in the read, with zeros before it. -/
structure MarkAt (b : ℕ → Bool) (f k : ℕ) (goal : List (BitVec 16)) (bitlen : ℕ) : Prop where
  skip : k < 16
  word : 2 ≤ f
  mark : Matches b (16 * f + k) goal bitlen
  zeros : ∀ i, 0 < i → i ≤ 32 → b (16 * f + k - i) = (i % 2 == 1 && i != 1)

theorem MarkAt.stop {f k bitlen : ℕ} {goal : List (BitVec 16)} (hm : MarkAt b f k goal bitlen)
    (h : Reads rd b mfmlim) {mfmlim' : ℕ} (hle : mfmlim' ≤ mfmlim) (hlen : 16 ≤ bitlen)
    (hfill : Filled goal bitlen) (hhead : ∀ i < 16, goalBit goal i = (0x8912#16).getMsbD i)
    (hend : bitlen + k ≤ 16 * (mfmlim' - f)) :
    IsZeros (rd (f - 1)) ∧ Stop rd mfmlim' goal bitlen f k := by
  have hk := hm.skip
  have hf := hm.word
  constructor
  · have hbit : ∀ r < 16, (rd (f - 1)).getMsbD r = ((16 + k - r) % 2 == 1 && 16 + k - r != 1) :=
      fun r hr => by
        have hp : 16 * (f - 1) + r = 16 * f + k - (16 + k - r) := by omega
        rw [← h.bit (by omega) hr, hp, hm.zeros _ (by omega) (by omega)]
    have hrows : ∀ k < 16, (∀ r < 16, (0xAAAA#16).getMsbD r =
        ((16 + k - r) % 2 == 1 && 16 + k - r != 1)) ∨ (∀ r < 16, (0x5555#16).getMsbD r =
        ((16 + k - r) % 2 == 1 && 16 + k - r != 1)) ∨ ∀ r < 16, (0x5554#16).getMsbD r =
        ((16 + k - r) % 2 == 1 && 16 + k - r != 1) := by decide
    have heq : ∀ {w : BitVec 16}, (∀ r < 16, w.getMsbD r =
        ((16 + k - r) % 2 == 1 && 16 + k - r != 1)) → rd (f - 1) = w := fun hw =>
      BitVec.eq_of_getMsbD_eq fun r hr => by rw [hbit r hr, hw r hr]
    exact (hrows k hk).imp heq fun h => h.imp heq heq
  · refine ⟨hk, BitVec.eq_of_getMsbD_eq fun r hr => ?_, ?_⟩
    · rw [ammagic_rows k hk r hr, ← h.bit (by omega) hr]
      split_ifs with hlt
      · have hp : 16 * f + r = 16 * f + k - (k - r) := by omega
        rw [hp, hm.zeros _ (by omega) (by omega)]
      · have hp : 16 * f + r = 16 * f + k + (r - k) := by omega
        rw [hp, hm.mark _ (by omega), hhead _ (by omega)]
    · rw [h.checkeq hk hle (by omega) hfill]
      exact ⟨hend, hm.mark⟩

end
end HydraAmix.Floppy.Msdos
