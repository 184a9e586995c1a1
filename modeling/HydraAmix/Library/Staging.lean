import Mathlib.Data.Nat.Notation
import Mathlib.Logic.Basic
import Mathlib.Tactic.SplitIfs

/-!
# Moving data by way of a staging block

A device that cannot reach a window of memory writes into a block that it can
reach, and the block is copied over the window when the device has stopped. The
memory is compared with the one in which the device wrote to the window itself.

Two memories agree from an address on, but for the cells of an exempt set. The
device's writes keep the filled part of the block equal to the window; the copy
makes the memories agree on that part, and on the rest exactly where the block
happened to hold what belongs there.
-/
namespace HydraAmix.Staging

variable {β : Type}

/-- The cells of a device or of another place are written to the `n` cells from `a` on. -/
def put (m : ℕ → β) (a n : ℕ) (w : ℕ → β) (x : ℕ) : β :=
  if a ≤ x ∧ x < a + n then w (x - a) else m x

/-- The `n` cells from `s` on are copied to those from `d` on. -/
def copy (m : ℕ → β) (s d n : ℕ) : ℕ → β := put m d n fun i => m (s + i)

variable {m m' w : ℕ → β} {a b d n k x lo : ℕ}

theorem put_inside (ha : a ≤ x) (hx : x < a + n) : put m a n w x = w (x - a) := if_pos ⟨ha, hx⟩

theorem put_outside (h : ¬ (a ≤ x ∧ x < a + n)) : put m a n w x = m x := if_neg h

theorem put_zero (m : ℕ → β) (a : ℕ) (w : ℕ → β) : put m a 0 w = m := by
  funext x
  exact put_outside (by omega)

/-- The first `k` cells of the block at `b` are those of the window at `d` in the other memory. -/
def Filled (m m' : ℕ → β) (b d k : ℕ) : Prop := ∀ i < k, m (b + i) = m' (d + i)

theorem filled_zero (m m' : ℕ → β) (b d : ℕ) : Filled m m' b d 0 := fun _ hi => absurd hi (by omega)

/-- The device writes on, into the block and into the window. -/
theorem Filled.put (h : Filled m m' b d k) (n : ℕ) (w : ℕ → β) :
    Filled (put m (b + k) n w) (put m' (d + k) n w) b d (k + n) := by
  intro i hi
  by_cases hk : i < k
  · rw [put_outside (by omega), put_outside (by omega)]
    exact h i hk
  · rw [put_inside (by omega) (by omega), put_inside (by omega) (by omega)]
    congr 1
    omega

/-- The memories agree from `lo` on, but for the exempt cells. -/
def Agree (lo : ℕ) (exempt : ℕ → Prop) (m m' : ℕ → β) : Prop :=
  ∀ x, lo ≤ x → ¬ exempt x → m x = m' x

namespace Agree

variable {W V : ℕ → Prop}

theorem mono (h : Agree lo W m m') (hV : ∀ x, W x → V x) : Agree lo V m m' :=
  fun x hx hn => h x hx fun hw => hn (hV x hw)

theorem put_low (h : Agree lo W m m') (ha : a + n ≤ lo) (w : ℕ → β) :
    Agree lo W (put m a n w) m' := by
  intro x hx hn
  rw [put_outside (by omega)]
  exact h x hx hn

theorem put_exempt (h : Agree lo W m m') (ha : ∀ x, a ≤ x → x < a + n → W x) (w : ℕ → β) :
    Agree lo W m (put m' a n w) := by
  intro x hx hn
  rw [put_outside fun hin => hn (ha x hin.1 hin.2)]
  exact h x hx hn

theorem put_both (h : Agree lo W m m') (a n : ℕ) (w : ℕ → β) :
    Agree lo W (put m a n w) (put m' a n w) := by
  intro x hx hn
  unfold put
  split_ifs
  · rfl
  · exact h x hx hn

/-- The copy of the block over the window leaves nothing exempt but what was so outside the
window, and the cells of the window behind the filled part, as far as they differ. -/
theorem copy (h : Agree lo (fun x => W x ∨ (d ≤ x ∧ x < d + n)) m m') (hf : Filled m m' b d k)
    (hW : ∀ x, W x → V x)
    (hrest : ∀ i, k ≤ i → i < n → ¬ V (d + i) → m (b + i) = m' (d + i)) :
    Agree lo V (copy m b d n) m' := by
  intro x hx hn
  unfold Staging.copy
  by_cases hin : d ≤ x ∧ x < d + n
  · rw [put_inside hin.1 hin.2]
    have hd : d + (x - d) = x := by omega
    by_cases hk : x - d < k
    · rw [hf _ hk, hd]
    · rw [hrest _ (by omega) (by omega) (by rw [hd]; exact hn), hd]
  · rw [put_outside hin]
    exact h x hx fun ho => ho.elim (fun hw => hn (hW x hw)) hin

end Agree

end HydraAmix.Staging
