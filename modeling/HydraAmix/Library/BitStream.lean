import Mathlib.Data.Nat.Notation

/-!
# Words of a bit stream

A stream of bits is a function of the position. A window is the word that
starts at a position, first bit first; a memory of words is the stream of their
bits. Two adjacent words, shifted and joined, give the window between them.

A clock bit between two data bits keeps the three from being all zero. A mark
breaks that rule, and this is how it is told from data.
-/
namespace HydraAmix.BitStream

variable {w : ℕ}

/-- The word that starts at a position. -/
def window : (w : ℕ) → (ℕ → Bool) → ℕ → BitVec w
  | 0, _, _ => 0#0
  | w + 1, b, j => (window w b j).concat (b (j + w))

theorem getMsbD_window (b : ℕ → Bool) (j : ℕ) {i : ℕ} (h : i < w) :
    (window w b j).getMsbD i = b (j + i) := by
  induction w with
  | zero => exact absurd h (Nat.not_lt_zero i)
  | succ w ih =>
      rw [window, BitVec.getMsbD_concat]
      rcases Nat.lt_succ_iff_lt_or_eq.mp h with hlt | rfl
      · rw [if_pos hlt, ih hlt]
      · rw [if_neg (Nat.lt_irrefl i), decide_eq_true rfl, Bool.true_and]

/-- A word is found at a position. -/
def At (b : ℕ → Bool) (j : ℕ) (v : BitVec w) : Prop := ∀ i < w, b (j + i) = v.getMsbD i

theorem At.window {b : ℕ → Bool} {j : ℕ} {v : BitVec w} (h : At b j v) : window w b j = v :=
  BitVec.eq_of_getMsbD_eq fun i hi => by rw [getMsbD_window b j hi, h i hi]

/-- The stream of the bits of a memory. -/
def ofWords (mem : ℕ → BitVec w) (t : ℕ) : Bool := (mem (t / w)).getMsbD (t % w)

theorem ofWords_apply (mem : ℕ → BitVec w) (k : ℕ) {i : ℕ} (h : i < w) :
    ofWords mem (w * k + i) = (mem k).getMsbD i := by
  rw [ofWords, Nat.mul_add_div (Nat.zero_lt_of_lt h), Nat.div_eq_of_lt h, Nat.add_zero,
    Nat.mul_add_mod, Nat.mod_eq_of_lt h]

theorem at_ofWords (mem : ℕ → BitVec w) (k : ℕ) : At (ofWords mem) (w * k) (mem k) :=
  fun _ hi => ofWords_apply mem k hi

theorem At.append {b : ℕ → Bool} {j m n : ℕ} {x : BitVec m} {y : BitVec n} (hx : At b j x)
    (hy : At b (j + m) y) : At b j (x ++ y) := fun i hi => by
  rw [BitVec.getMsbD_append]
  by_cases h : i < m
  · rw [if_neg (Nat.not_le_of_lt h)]
    exact hx i h
  · rw [if_pos (Nat.le_of_not_lt h), ← hy (i - m) (by omega)]
    congr 1
    omega

/-- Shifted to the left, with the first bits of the next word shifted in. -/
theorem at_shifted {b : ℕ → Bool} {j s : ℕ} {x y : BitVec w} (hs : s ≤ w) (hx : At b j x)
    (hy : ∀ i < s, b (j + w + i) = y.getMsbD i) : At b (j + s) (x <<< s ||| y >>> (w - s)) := by
  intro i hi
  rw [BitVec.getMsbD_or, BitVec.getMsbD_shiftLeft, BitVec.getMsbD_ushiftRight]
  by_cases h : i + s < w
  · have hlt : i < w - s := by omega
    rw [← hx (i + s) h, decide_eq_true hlt, Bool.not_true, Bool.false_and, Bool.and_false,
      Bool.or_false]
    congr 1
    omega
  · have hnlt : ¬ i < w - s := by omega
    rw [BitVec.getMsbD_of_ge _ _ (by omega), decide_eq_false hnlt, decide_eq_true hi, Bool.false_or,
      Bool.not_false, Bool.true_and, Bool.true_and, ← hy (i - (w - s)) (by omega)]
    congr 1
    omega

/-- The bit or one of its neighbours is set. -/
def Clocked (b : ℕ → Bool) (t : ℕ) : Prop := b t = true ∨ b (t + 1) = true ∨ b (t + 2) = true

/-- The middle bit is the clock bit of its neighbours: set when both are clear. -/
def ClockRule (b : ℕ → Bool) (t : ℕ) : Prop := b (t + 1) = (!b t && !b (t + 2))

theorem ClockRule.clocked {b : ℕ → Bool} {t : ℕ} (h : ClockRule b t) : Clocked b t := by
  unfold ClockRule at h
  unfold Clocked
  cases h₀ : b t
  · cases h₂ : b (t + 2)
    · rw [h₀, h₂] at h
      exact .inr (.inl h)
    · exact .inr (.inr rfl)
  · exact .inl rfl

/-- A set clock bit stands alone. -/
theorem ClockRule.alone {b : ℕ → Bool} {t : ℕ} (h : ClockRule b t) (hset : b (t + 1) = true) :
    b t = false ∧ b (t + 2) = false := by
  rw [h, Bool.and_eq_true, Bool.not_eq_true', Bool.not_eq_true'] at hset
  exact hset

/-- No two set bits are adjacent among the first `n`. -/
def Sparse (b : ℕ → Bool) (n : ℕ) : Prop := ∀ t, t + 1 < n → ¬(b t = true ∧ b (t + 1) = true)

theorem Sparse.clockRule {b : ℕ → Bool} {n t : ℕ} (h : Sparse b n) (ht : t + 2 < n)
    (hc : Clocked b t) : ClockRule b t := by
  have h₀ := h t (by omega)
  have h₁ := h (t + 1) ht
  rcases hc with hc | hc | hc
  · rw [ClockRule, Bool.eq_false_iff.mpr fun hb => h₀ ⟨hc, hb⟩, hc]
    rfl
  · rw [ClockRule, Bool.eq_false_iff.mpr fun hb => h₀ ⟨hb, hc⟩,
      Bool.eq_false_iff.mpr fun hb => h₁ ⟨hc, hb⟩, hc]
    rfl
  · rw [ClockRule, Bool.eq_false_iff.mpr fun hb => h₁ ⟨hb, hc⟩, hc, Bool.not_true, Bool.and_false]

/-- Three zeros in a word are not where the clock rule is kept. -/
theorem At.not_clocked {b : ℕ → Bool} {j : ℕ} {v : BitVec w} (h : At b j v) {i : ℕ} (hi : i + 2 < w)
    (hv : v.getMsbD i = false ∧ v.getMsbD (i + 1) = false ∧ v.getMsbD (i + 2) = false) :
    ¬ Clocked b (j + i) := by
  have h₀ := h i (by omega)
  have h₁ := h (i + 1) (by omega)
  have h₂ := h (i + 2) hi
  rw [Clocked, Nat.add_assoc, Nat.add_assoc, h₀, h₁, h₂, hv.1, hv.2.1, hv.2.2]
  simp

end HydraAmix.BitStream
