import Mathlib.Data.Nat.Notation
import Mathlib.Logic.Function.Basic

/-!
# One process at a time

Processes have a place each, and some of the places are within a region. A process is alone
if nobody else is within it. An invariant that speaks of one owner, who is alone, carries
over to whoever is alone: outside of the region owners rely on the same thing, that the
region is free.
-/
namespace HydraAmix.Exclusive

variable {C : Type} (Within : C → Prop)

def Alone (ctl : ℕ → C) (p : ℕ) : Prop := ∀ q, q ≠ p → ¬Within (ctl q)

variable {Within} {ctl : ℕ → C} {p : ℕ}

theorem Alone.update (h : Alone Within ctl p) (c : C) :
    Alone Within (Function.update ctl p c) p := by
  intro q hq
  rw [Function.update_of_ne hq]
  exact h q hq

/-- A process that stays outside leaves those that are alone alone. -/
theorem Alone.other {q : ℕ} (h : Alone Within ctl q) {c : C} (hc : ¬Within c) :
    Alone Within (Function.update ctl p c) q := by
  intro r hr
  by_cases hrp : r = p
  · rw [hrp, Function.update_self]
    exact hc
  · rw [Function.update_of_ne hrp]
    exact h r hr

/-- A process within the region is the owner. -/
theorem owner_of_within {Rests : ℕ → Prop} (h : ∃ q, Alone Within ctl q ∧ Rests q)
    (hp : Within (ctl p)) : Alone Within ctl p ∧ Rests p := by
  obtain ⟨q, hq, hrests⟩ := h
  by_cases hpq : p = q
  · rw [hpq]
    exact ⟨hq, hrests⟩
  · exact absurd hp (hq p hpq)

/-- A process that is alone may be taken for the owner. -/
theorem owner_of_alone {Rests : ℕ → Prop} {Free : Prop} (h : ∃ q, Alone Within ctl q ∧ Rests q)
    (hfree : ∀ q, ¬Within (ctl q) → (Rests q ↔ Free)) (ha : Alone Within ctl p) : Rests p := by
  obtain ⟨q, hq, hrests⟩ := h
  by_cases hpq : p = q
  · rw [hpq]
    exact hrests
  · have hout := (hfree q (ha q (Ne.symm hpq))).mp hrests
    exact (hfree p (hq p hpq)).mpr hout

end HydraAmix.Exclusive
