import Mathlib.Data.List.Basic
import Mathlib.Data.List.Nodup

/-!
# Byte stuffing

Four different symbols of an alphabet: an end mark, an escape, and the two
codes that stand after an escape for these two. `stuff` writes a symbol so that
the end mark does not occur, `unstuff` reads stuffed symbols back; its flag says
whether an escape was the last symbol read. A reader that meets anything else
after an escape takes it as it stands, and one escape after another is one.
-/
namespace HydraAmix.Library

/-- An alphabet with its end mark and escape and their transposed codes. -/
structure Stuffing (α : Type) where
  fin : α
  esc : α
  transFin : α
  transEsc : α
  distinct : [fin, esc, transFin, transEsc].Nodup

namespace Stuffing

variable {α : Type} [DecidableEq α] (c : Stuffing α)

/-- How a symbol is written. -/
def stuff (a : α) : List α :=
  if a = c.esc then [c.esc, c.transEsc]
  else if a = c.fin then [c.esc, c.transFin]
  else [a]

/-- A symbol that is written as two. -/
def marked (a : α) : Bool := decide (a = c.esc ∨ a = c.fin)

/-- What a symbol that is not an escape stands for. -/
def value (escaped : Bool) (a : α) : α :=
  if escaped then
    if a = c.transEsc then c.esc else if a = c.transFin then c.fin else a
  else a

/-- What stuffed symbols stand for. -/
def unstuff : Bool → List α → List α
  | _, [] => []
  | escaped, a :: as =>
      if a = c.esc then unstuff true as else c.value escaped a :: unstuff false as

/-- Whether an escape is left open. -/
def pending : Bool → List α → Bool
  | escaped, [] => escaped
  | _, a :: as => pending (decide (a = c.esc)) as

section
variable {c}

@[simp] theorem unstuff_nil (escaped : Bool) : c.unstuff escaped [] = [] := rfl

@[simp] theorem pending_nil (escaped : Bool) : c.pending escaped [] = escaped := rfl

theorem unstuff_esc (escaped : Bool) (as : List α) :
    c.unstuff escaped (c.esc :: as) = c.unstuff true as := if_pos rfl

theorem unstuff_of_ne {a : α} (h : a ≠ c.esc) (escaped : Bool) (as : List α) :
    c.unstuff escaped (a :: as) = c.value escaped a :: c.unstuff false as := if_neg h

theorem pending_cons (escaped : Bool) (a : α) (as : List α) :
    c.pending escaped (a :: as) = c.pending (decide (a = c.esc)) as := rfl

theorem unstuff_append (e : Bool) (as bs : List α) :
    c.unstuff e (as ++ bs) = c.unstuff e as ++ c.unstuff (c.pending e as) bs := by
  induction as generalizing e with
  | nil => rfl
  | cons a as ih =>
      rw [List.cons_append, pending_cons]
      by_cases h : a = c.esc
      · subst h
        rw [unstuff_esc, unstuff_esc, ih, decide_eq_true rfl]
      · rw [unstuff_of_ne h, unstuff_of_ne h, ih, decide_eq_false h, List.cons_append]

theorem pending_append (e : Bool) (as bs : List α) :
    c.pending e (as ++ bs) = c.pending (c.pending e as) bs := by
  induction as generalizing e with
  | nil => rfl
  | cons a as ih => rw [List.cons_append, pending_cons, pending_cons, ih]

omit [DecidableEq α] in
theorem ne_of_distinct (c : Stuffing α) :
    c.fin ≠ c.esc ∧ c.fin ≠ c.transFin ∧ c.fin ≠ c.transEsc ∧ c.esc ≠ c.transFin ∧
      c.esc ≠ c.transEsc ∧ c.transFin ≠ c.transEsc := by
  have h := c.distinct
  simp only [List.nodup_cons, List.mem_cons, List.not_mem_nil, or_false, not_or] at h
  exact ⟨h.1.1, h.1.2.1, h.1.2.2, h.2.1.1, h.2.1.2, h.2.2.1⟩

/-- One symbol is read back as it was written. -/
theorem unstuff_stuff (a : α) :
    c.unstuff false (c.stuff a) = [a] ∧ c.pending false (c.stuff a) = false := by
  obtain ⟨-, -, -, hef, hee, hfe⟩ := c.ne_of_distinct
  unfold stuff
  split
  case isTrue h =>
    rw [h, unstuff_esc, unstuff_of_ne hee.symm, pending_cons, pending_cons,
      decide_eq_false hee.symm]
    refine ⟨congrArg (· :: []) ?_, rfl⟩
    rw [value, if_pos rfl, if_pos rfl]
  case isFalse h =>
    split
    case isTrue hf =>
      rw [hf, unstuff_esc, unstuff_of_ne hef.symm, pending_cons, pending_cons,
        decide_eq_false hef.symm]
      refine ⟨congrArg (· :: []) ?_, rfl⟩
      rw [value, if_pos rfl, if_neg hfe, if_pos rfl]
    case isFalse hf =>
      rw [unstuff_of_ne h, pending_cons, decide_eq_false h]
      exact ⟨rfl, rfl⟩

/-- Symbols are read back as they were written, and no escape is left open. -/
theorem unstuff_flatMap (as : List α) :
    c.unstuff false (as.flatMap c.stuff) = as ∧
      c.pending false (as.flatMap c.stuff) = false := by
  induction as with
  | nil => exact ⟨rfl, rfl⟩
  | cons a as ih =>
      obtain ⟨hu, hp⟩ := unstuff_stuff (c := c) a
      rw [List.flatMap_cons, unstuff_append, pending_append, hu, hp, ih.1, ih.2]
      exact ⟨rfl, rfl⟩

/-- The end mark does not occur in what was written. -/
theorem fin_notMem_flatMap (as : List α) : c.fin ∉ as.flatMap c.stuff := by
  obtain ⟨hfe, hff, hfx, -⟩ := c.ne_of_distinct
  intro h
  obtain ⟨a, -, ha⟩ := List.mem_flatMap.mp h
  unfold stuff at ha
  split at ha
  case isTrue => simp [hfe, hfx] at ha
  case isFalse =>
    split at ha
    case isTrue => simp [hfe, hff] at ha
    case isFalse hne => exact hne (List.mem_singleton.mp ha).symm

theorem length_stuff (a : α) : (c.stuff a).length = if c.marked a = true then 2 else 1 := by
  unfold stuff marked
  split
  case isTrue h => simp [h]
  case isFalse h =>
    split
    case isTrue hf => simp [hf]
    case isFalse hf => simp [h, hf]

theorem length_flatMap_stuff (as : List α) :
    (as.flatMap c.stuff).length = as.length + as.countP c.marked := by
  induction as with
  | nil => rfl
  | cons a as ih =>
      rw [List.flatMap_cons, List.length_append, ih, length_stuff, List.countP_cons,
        List.length_cons]
      split <;> omega

theorem countP_marked_lt (as : List α) :
    as.countP c.marked < as.length ↔ ∃ a ∈ as, a ≠ c.esc ∧ a ≠ c.fin := by
  have hle : as.countP c.marked ≤ as.length := List.countP_le_length
  have hall := List.countP_eq_length (p := c.marked) (l := as)
  have hmarked (a : α) : c.marked a = true ↔ ¬ (a ≠ c.esc ∧ a ≠ c.fin) := by
    simp [marked, or_iff_not_imp_left]
  constructor
  · intro h
    by_contra hno
    refine absurd (hall.mpr fun a ha => (hmarked a).mpr fun hp => hno ⟨a, ha, hp⟩) ?_
    omega
  · rintro ⟨a, ha, hplain⟩
    apply Nat.lt_of_le_of_ne hle
    intro heq
    exact (hmarked a).mp (hall.mp heq a ha) hplain

end
end Stuffing
end HydraAmix.Library
