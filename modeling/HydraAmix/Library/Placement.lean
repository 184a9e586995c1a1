import Mathlib.Algebra.Group.Nat.Defs
import Mathlib.Data.BitVec
import Mathlib.Data.Nat.Init
import Mathlib.Order.Basic

/-!
# Placing objects one after the other

Some entries of a table ask for room of a size and an alignment. Each of them is put at
the first aligned address that is not below the end of the objects before it. The end
never goes down, so the objects lie apart from each other between the first end and
the last.

On words the next aligned address is found with a mask, for alignments that are powers
of two.
-/
namespace HydraAmix.Placement

structure Request where
  size : ℕ
  align : ℕ
  deriving DecidableEq, Repr

/-- The first multiple of `a` that is not below `x`. -/
def up (a x : ℕ) : ℕ := (x + (a - 1)) / a * a

theorem dvd_up (a x : ℕ) : a ∣ up a x := Nat.dvd_mul_left a _

theorem le_up {a : ℕ} (ha : 0 < a) (x : ℕ) : x ≤ up a x := by
  have hdiv := Nat.div_add_mod (x + (a - 1)) a
  have hmod := Nat.mod_lt (x + (a - 1)) ha
  rw [Nat.mul_comm] at hdiv
  unfold up
  omega

/-- Below a multiple of `a` there is room for the search too. -/
theorem lt_of_up_lt {a x m : ℕ} (ha : 0 < a) (hm : a ∣ m) (h : up a x < m) : x + (a - 1) < m := by
  obtain ⟨q, rfl⟩ := hm
  rw [up, Nat.mul_comm a] at h
  have hq : (x + (a - 1)) / a < q := Nat.lt_of_mul_lt_mul_right h
  rwa [Nat.div_lt_iff_lt_mul ha, Nat.mul_comm] at hq

section
variable (start : ℕ) (request : ℕ → Option Request)

/-- The end of the objects among the first entries. -/
def level : ℕ → ℕ
  | 0 => start
  | k + 1 => match request k with
    | none => level k
    | some r => up r.align (level k) + r.size

/-- The objects among the first `n` entries lie apart from each other between `start`
and `end_`, and are aligned. -/
structure Placed (n : ℕ) (address : ℕ → ℕ) (end_ : ℕ) : Prop where
  aligned : ∀ k < n, ∀ r, request k = some r → r.align ∣ address k
  above : ∀ k < n, ∀ r, request k = some r → start ≤ address k
  below : ∀ k < n, ∀ r, request k = some r → address k + r.size ≤ end_
  apart : ∀ j k, j < k → k < n → ∀ r r', request j = some r → request k = some r' →
    address j + r.size ≤ address k

variable {start request}

theorem level_none {k : ℕ} (h : request k = none) :
    level start request (k + 1) = level start request k := by
  rw [level, h]

theorem level_some {k : ℕ} {r : Request} (h : request k = some r) :
    level start request (k + 1) = up r.align (level start request k) + r.size := by
  rw [level, h]

section
variable {n : ℕ} (hpos : ∀ k < n, ∀ r, request k = some r → 0 < r.align)
include hpos

/-- The end never goes down. -/
theorem level_le {j k : ℕ} (hjk : j ≤ k) (hk : k ≤ n) :
    level start request j ≤ level start request k := by
  induction k, hjk using Nat.le_induction with
  | base => exact Nat.le_refl _
  | succ k _ ih =>
      refine (ih (Nat.le_of_succ_le hk)).trans ?_
      cases hr : request k with
      | none => exact (level_none hr).ge
      | some r =>
          rw [level_some hr]
          exact Nat.le_add_right_of_le (le_up (hpos k hk r hr) _)

/-- What is put at the next aligned address is placed. -/
theorem placed {address : ℕ → ℕ} (haddress : ∀ k < n, ∀ r, request k = some r →
    address k = up r.align (level start request k)) :
    Placed start request n address (level start request n) where
  aligned k hk r hr := by
    rw [haddress k hk r hr]
    exact dvd_up _ _
  above k hk r hr := by
    rw [haddress k hk r hr]
    exact (level_le hpos (Nat.zero_le k) (Nat.le_of_lt hk)).trans (le_up (hpos k hk r hr) _)
  below k hk r hr := by
    rw [haddress k hk r hr, ← level_some hr]
    exact level_le hpos hk (Nat.le_refl n)
  apart j k hjk hk r r' hr hr' := by
    rw [haddress j (hjk.trans hk) r hr, haddress k hk r' hr', ← level_some hr]
    exact (level_le hpos hjk (Nat.le_of_lt hk)).trans (le_up (hpos k hk r' hr') _)

end

/-- Where nothing is asked for, nothing has to be placed. -/
theorem placed_of_none {n : ℕ} (h : ∀ k < n, request k = none) (address : ℕ → ℕ) (end_ : ℕ) :
    Placed start request n address end_ where
  aligned k hk r hr := absurd (hr.symm.trans (h k hk)) (Option.some_ne_none r)
  above k hk r hr := absurd (hr.symm.trans (h k hk)) (Option.some_ne_none r)
  below k hk r hr := absurd (hr.symm.trans (h k hk)) (Option.some_ne_none r)
  apart _ k _ hk _ r _ hr := absurd (hr.symm.trans (h k hk)) (Option.some_ne_none r)

end

/-! ### On words -/

theorem toNat_mask {w j : ℕ} {a : BitVec w} (ha : a.toNat = 2 ^ j) (hj : j < w) :
    (a - 1).toNat = a.toNat - 1 := by
  have hone : (1 : BitVec w).toNat = 1 := BitVec.toNat_one (Nat.zero_lt_of_lt hj)
  rw [BitVec.toNat_sub_of_le, hone]
  rw [BitVec.le_def, hone, ha]
  exact Nat.two_pow_pos j

theorem mask_getLsbD {w j : ℕ} {a : BitVec w} (ha : a.toNat = 2 ^ j) (hj : j < w) (i : ℕ) :
    (a - 1).getLsbD i = decide (i < j) := by
  rw [BitVec.getLsbD, toNat_mask ha hj, ha, Nat.testBit_two_pow_sub_one]

/-- `x += a - 1; x &= ~(a - 1);` -/
theorem toNat_up {w j : ℕ} {x a : BitVec w} (ha : a.toNat = 2 ^ j)
    (hup : up a.toNat x.toNat < 2 ^ w) :
    ((x + (a - 1)) &&& ~~~(a - 1)).toNat = up a.toNat x.toNat := by
  have hj : j < w := by
    have hlt := a.isLt
    rw [ha] at hlt
    exact (Nat.pow_lt_pow_iff_right (by decide)).mp hlt
  have h : x.toNat + (a.toNat - 1) < 2 ^ w := by
    have hpos : 0 < a.toNat := ha ▸ Nat.two_pow_pos j
    exact lt_of_up_lt hpos (ha ▸ Nat.pow_dvd_pow 2 (Nat.le_of_lt hj)) hup
  have hsum : (x + (a - 1)).toNat = x.toNat + (a.toNat - 1) := by
    rw [BitVec.toNat_add, toNat_mask ha hj, Nat.mod_eq_of_lt h]
  have hshift : (x + (a - 1)) &&& ~~~(a - 1) = (x + (a - 1)) >>> j <<< j := by
    refine BitVec.eq_of_getLsbD_eq fun i hi => ?_
    rw [BitVec.getLsbD_and, BitVec.getLsbD_not, mask_getLsbD ha hj, BitVec.getLsbD_shiftLeft,
      BitVec.getLsbD_ushiftRight]
    by_cases hij : i < j
    · simp [hij]
    · simp [hij, hi, Nat.add_sub_cancel' (Nat.le_of_not_lt hij)]
  have hle : (x.toNat + (a.toNat - 1)) / 2 ^ j * 2 ^ j ≤ x.toNat + (a.toNat - 1) :=
    Nat.div_mul_le_self _ _
  rw [hshift, BitVec.toNat_shiftLeft, BitVec.toNat_ushiftRight, hsum, Nat.shiftRight_eq_div_pow,
    Nat.shiftLeft_eq, Nat.mod_eq_of_lt (by omega), up, ha]

end HydraAmix.Placement
