import Mathlib.Data.BitVec
import Mathlib.Data.Nat.ModEq

/-!
# End-around-carry addition

A carry out of the top is added back at the bottom, so the addition is that of
the remainders modulo `2 ^ w - 1`, where 0 stands twice: `0` is the sum only of
zeros, and all ones is the zero of every other sum. A word that completes a sum
to all ones does so from any place among the words.
-/
namespace HydraAmix.EndAround

variable {w : ℕ}

/-- The sum of two words, with the carry added back; there was a carry if the
result is less than an operand. -/
def add (x y : BitVec w) : BitVec w :=
  let result := x + y
  if result < x ∨ result < y then result + 1 else result

/-- The words added one after the other. -/
def sum (x : BitVec w) (ys : List (BitVec w)) : BitVec w := ys.foldl add x

theorem toNat_add (x y : BitVec w) : (add x y).toNat =
    if x.toNat + y.toNat < 2 ^ w then x.toNat + y.toNat else x.toNat + y.toNat + 1 - 2 ^ w := by
  have hx := x.isLt
  have hy := y.isLt
  unfold add
  simp only [BitVec.lt_def, BitVec.toNat_add]
  by_cases h : x.toNat + y.toNat < 2 ^ w
  · rw [Nat.mod_eq_of_lt h, if_neg (by omega), if_pos h, BitVec.toNat_add, Nat.mod_eq_of_lt h]
  · have hmod : (x.toNat + y.toNat) % 2 ^ w = x.toNat + y.toNat - 2 ^ w := by
      rw [Nat.mod_eq_sub_mod (by omega), Nat.mod_eq_of_lt (by omega)]
    have htwo : 1 < 2 ^ w := by omega
    have hone : (1 : BitVec w).toNat = 1 := Nat.mod_eq_of_lt htwo
    rw [hmod, if_pos (by omega), if_neg h, BitVec.toNat_add, BitVec.toNat_add, hmod, hone,
      Nat.mod_eq_of_lt (by omega)]
    omega

/-- The remainder of a sum is that of the operands' sum. -/
theorem add_modEq (x y : BitVec w) :
    (add x y).toNat ≡ x.toNat + y.toNat [MOD 2 ^ w - 1] := by
  rw [toNat_add]
  split
  · rfl
  · apply Nat.ModEq.symm
    have h : x.toNat + y.toNat = (x.toNat + y.toNat + 1 - 2 ^ w) + (2 ^ w - 1) := by omega
    rw [h]
    have : x.toNat + y.toNat + 1 - 2 ^ w + (2 ^ w - 1) + 1 - 2 ^ w =
        x.toNat + y.toNat + 1 - 2 ^ w := by omega
    rw [this]
    exact Nat.add_modEq_right

/-- A sum is zero only of zeros. -/
theorem add_eq_zero {x y : BitVec w} : add x y = 0 ↔ x = 0 ∧ y = 0 := by
  rw [← BitVec.toNat_inj, ← BitVec.toNat_inj (x := x), ← BitVec.toNat_inj (x := y), toNat_add]
  have hx := x.isLt
  have hy := y.isLt
  have hzero : (0 : BitVec w).toNat = 0 := Nat.zero_mod _
  rw [hzero]
  split <;> omega

theorem sum_modEq (x : BitVec w) (ys : List (BitVec w)) :
    (sum x ys).toNat ≡ ys.foldl (fun n y => n + y.toNat) x.toNat [MOD 2 ^ w - 1] := by
  have key : ∀ (n : ℕ) (x : BitVec w), x.toNat ≡ n [MOD 2 ^ w - 1] →
      (sum x ys).toNat ≡ ys.foldl (fun n y => n + y.toNat) n [MOD 2 ^ w - 1] := by
    induction ys with
    | nil => intro n x h; exact h
    | cons y ys ih =>
      intro n x h
      exact ih _ _ ((add_modEq x y).trans (h.add_right _))
  exact key _ _ rfl

theorem sum_eq_zero {x : BitVec w} {ys : List (BitVec w)} :
    sum x ys = 0 ↔ x = 0 ∧ ∀ y ∈ ys, y = 0 := by
  induction ys generalizing x with
  | nil => simp [sum]
  | cons y ys ih =>
    change sum (add x y) ys = 0 ↔ _
    rw [ih, add_eq_zero, List.forall_mem_cons, and_assoc]

/-- A sum that is 0 modulo `2 ^ w - 1` but not 0 is all ones. -/
theorem eq_allOnes {x : BitVec w} (h : x.toNat ≡ 0 [MOD 2 ^ w - 1]) (h0 : x ≠ 0) :
    x = BitVec.allOnes w := by
  have hlt := x.isLt
  have hne : x.toNat ≠ 0 := fun h' => h0 (BitVec.eq_of_toNat_eq (h'.trans (Nat.zero_mod _).symm))
  apply BitVec.eq_of_toNat_eq
  rw [BitVec.toNat_allOnes]
  have hdvd : 2 ^ w - 1 ∣ x.toNat := (Nat.modEq_zero_iff_dvd).mp h
  exact Nat.le_antisymm (by omega) (Nat.le_of_dvd (Nat.pos_of_ne_zero hne) hdvd)

theorem foldl_add_start (ys : List (BitVec w)) (n : ℕ) :
    ys.foldl (fun n y => n + y.toNat) n = n + ys.foldl (fun n y => n + y.toNat) 0 := by
  induction ys generalizing n with
  | nil => rfl
  | cons y ys ih =>
    rw [List.foldl_cons, List.foldl_cons, ih, ih (0 + _), Nat.zero_add, Nat.add_assoc]

/-- The complement of a sum taken with a word left 0 completes the sum, in the
place of that word. -/
theorem sum_complement (as bs : List (BitVec w)) :
    sum 0 (as ++ ~~~(sum 0 (as ++ 0 :: bs)) :: bs) = BitVec.allOnes w := by
  rcases Nat.eq_zero_or_pos w with rfl | hw
  · exact Subsingleton.elim _ _
  generalize hc : sum 0 (as ++ 0 :: bs) = c
  have hmod := sum_modEq 0 (as ++ 0 :: bs)
  rw [hc, List.foldl_append, List.foldl_cons, foldl_add_start bs] at hmod
  have hzero : (0 : BitVec w).toNat = 0 := Nat.zero_mod _
  rw [hzero] at hmod
  apply eq_allOnes
  · apply (sum_modEq 0 _).trans
    rw [List.foldl_append, List.foldl_cons, foldl_add_start bs, BitVec.toNat_not, hzero]
    have hlt := c.isLt
    have hall : c.toNat + (2 ^ w - 1 - c.toNat) = 2 ^ w - 1 := by omega
    have := hmod.symm.add_right (2 ^ w - 1 - c.toNat)
    rw [hall] at this
    refine Nat.ModEq.trans ?_ (this.trans ?_)
    · exact congrArg (· % (2 ^ w - 1)) (by omega)
    · exact (Nat.modEq_zero_iff_dvd).mpr (Nat.dvd_refl _)
  · intro h0
    obtain ⟨-, hall⟩ := sum_eq_zero.mp h0
    -- then every word is 0, and the complement of 0 as well
    have hc0 : c = 0 := by
      rw [← hc, sum_eq_zero]
      refine ⟨rfl, ?_⟩
      intro y hy
      rcases List.mem_append.mp hy with hy | hy
      · exact hall y (List.mem_append_left _ hy)
      · rcases List.mem_cons.mp hy with hy | hy
        · exact hy
        · exact hall y (List.mem_append_right _ (List.mem_cons_of_mem _ hy))
    have hnot : ~~~c = 0 := hall _ (List.mem_append_right _ List.mem_cons_self)
    rw [hc0] at hnot
    have hnat := congrArg BitVec.toNat hnot
    rw [BitVec.toNat_not, hzero] at hnat
    have htwo : 2 ≤ 2 ^ w := Nat.le_self_pow (Nat.ne_of_gt hw) 2
    omega

end HydraAmix.EndAround
