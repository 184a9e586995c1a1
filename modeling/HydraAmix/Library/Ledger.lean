import Mathlib.Logic.Function.Basic
import Mathlib.Data.List.Basic
import Mathlib.Tactic.ByContra

/-!
# A ledger of memory blocks

Every block that was ever obtained has a number, is obtained for one of the
users `ι`, and may be given back. `held i b` says how often the user `i` holds
a pointer to the block `b` that it is to give back one day. The ledger is
balanced if each block obtained was either given back once or is held once, by
the user it was obtained for.
-/
namespace HydraAmix.Blocks

structure Ledger (ι : Type) where
  /-- The number of the next block. -/
  next : ℕ
  owner : ℕ → ι
  freed : ℕ → ℕ
  /-- How often a null pointer was given back. -/
  stray : ℕ

namespace Ledger

variable {ι : Type}

def empty (i : ι) : Ledger ι := ⟨0, fun _ => i, fun _ => 0, 0⟩

/-- The block `l.next` is obtained for `i`. -/
def alloc (l : Ledger ι) (i : ι) : Ledger ι :=
  { l with next := l.next + 1, owner := Function.update l.owner l.next i }

def free (l : Ledger ι) : Option ℕ → Ledger ι
  | none => { l with stray := l.stray + 1 }
  | some b => { l with freed := Function.update l.freed b (l.freed b + 1) }

def freeAll (l : Ledger ι) (ps : List (Option ℕ)) : Ledger ι := ps.foldl free l

structure Balanced (l : Ledger ι) (held : ι → ℕ → ℕ) : Prop where
  once : ∀ b < l.next, l.freed b + held (l.owner b) b = 1
  fresh : ∀ b, l.next ≤ b → l.freed b = 0
  own : ∀ i b, 0 < held i b → b < l.next ∧ l.owner b = i

variable {l : Ledger ι} {held held' : ι → ℕ → ℕ}

@[simp] theorem free_next (l : Ledger ι) (p : Option ℕ) : (l.free p).next = l.next := by
  cases p <;> rfl

@[simp] theorem free_owner (l : Ledger ι) (p : Option ℕ) : (l.free p).owner = l.owner := by
  cases p <;> rfl

theorem free_freed (l : Ledger ι) (p : Option ℕ) (b : ℕ) :
    (l.free p).freed b = l.freed b + [p].count (some b) := by
  cases p with
  | none => simp [free]
  | some c =>
      by_cases hb : b = c
      · simp [free, hb]
      · simp [free, hb, Ne.symm hb]

@[simp] theorem freeAll_next (l : Ledger ι) (ps : List (Option ℕ)) :
    (l.freeAll ps).next = l.next := by
  induction ps generalizing l with
  | nil => rfl
  | cons p ps ih => exact (ih (l.free p)).trans (l.free_next p)

@[simp] theorem freeAll_owner (l : Ledger ι) (ps : List (Option ℕ)) :
    (l.freeAll ps).owner = l.owner := by
  induction ps generalizing l with
  | nil => rfl
  | cons p ps ih => exact (ih (l.free p)).trans (l.free_owner p)

theorem freeAll_freed (l : Ledger ι) (ps : List (Option ℕ)) (b : ℕ) :
    (l.freeAll ps).freed b = l.freed b + ps.count (some b) := by
  induction ps generalizing l with
  | nil => rfl
  | cons p ps ih =>
      have hstep := (ih (l.free p)).trans (congrArg (· + ps.count (some b)) (l.free_freed p b))
      have hcount : ([p] ++ ps).count (some b) = [p].count (some b) + ps.count (some b) :=
        List.count_append
      change _ = _ + ([p] ++ ps).count (some b)
      rw [hcount, ← Nat.add_assoc]
      exact hstep

theorem balanced_empty (i : ι) : (empty i).Balanced fun _ _ => 0 :=
  ⟨fun b hb => absurd hb (Nat.not_lt_zero b), fun _ _ => rfl,
    fun _ _ h => absurd h (Nat.lt_irrefl 0)⟩

theorem Balanced.congr (h : l.Balanced held) (heq : ∀ i b, held' i b = held i b) :
    l.Balanced held' := by
  have : held' = held := funext fun i => funext fun b => heq i b
  exact this ▸ h

/-- A block is obtained, and its user holds it from then on. -/
theorem Balanced.alloc [DecidableEq ι] (h : l.Balanced held) (i : ι)
    (hheld : ∀ j b, held' j b = held j b + if j = i ∧ b = l.next then 1 else 0) :
    (l.alloc i).Balanced held' := by
  have hnew : ∀ j, held j l.next = 0 := by
    intro j
    by_contra hj
    exact absurd (h.own j l.next (Nat.pos_of_ne_zero hj)).1 (Nat.lt_irrefl _)
  refine ⟨fun b hb => ?_, fun b hb => h.fresh b (Nat.le_of_succ_le hb), fun j b hj => ?_⟩
  · simp only [Ledger.alloc] at hb ⊢
    rcases Nat.lt_or_ge b l.next with hlt | hge
    · rw [Function.update_of_ne (Nat.ne_of_lt hlt), hheld, if_neg (by omega)]
      exact h.once b hlt
    · obtain rfl : b = l.next := by omega
      rw [Function.update_self, hheld, hnew, if_pos ⟨rfl, rfl⟩, h.fresh _ hge]
  · rw [hheld] at hj
    simp only [Ledger.alloc]
    by_cases hb : j = i ∧ b = l.next
    · rw [hb.2, hb.1, Function.update_self]
      exact ⟨Nat.lt_succ_self _, rfl⟩
    · rw [if_neg hb] at hj
      obtain ⟨hlt, hown⟩ := h.own j b hj
      exact ⟨Nat.lt_succ_of_lt hlt, by rwa [Function.update_of_ne (Nat.ne_of_lt hlt)]⟩

/-- A user gives back blocks that it holds. -/
theorem Balanced.freeAll [DecidableEq ι] (h : l.Balanced held) (i : ι) (ps : List (Option ℕ))
    (hheld : ∀ j b, held j b = held' j b + if j = i then ps.count (some b) else 0) :
    (l.freeAll ps).Balanced held' := by
  have hps : ∀ b, ps.count (some b) ≤ held i b := by
    intro b
    rw [hheld i b, if_pos rfl]
    omega
  refine ⟨fun b hb => ?_, fun b hb => ?_, fun j b hj => ?_⟩
  · rw [freeAll_next] at hb
    rw [freeAll_owner, freeAll_freed]
    have honce := h.once b hb
    rw [hheld] at honce
    by_cases hi : l.owner b = i
    · rw [if_pos hi] at honce
      omega
    · have hzero : ps.count (some b) = 0 := by
        by_contra hc
        exact hi (h.own i b (by have := hps b; omega)).2
      rw [if_neg hi] at honce
      omega
  · rw [freeAll_next] at hb
    have hzero : ps.count (some b) = 0 := by
      by_contra hc
      exact absurd (h.own i b (by have := hps b; omega)).1 (Nat.not_lt.mpr hb)
    rw [freeAll_freed, h.fresh b hb, hzero]
  · rw [freeAll_next, freeAll_owner]
    exact h.own j b (by rw [hheld]; omega)

/-- No block is given back twice. -/
theorem Balanced.freed_le_one (h : l.Balanced held) (b : ℕ) : l.freed b ≤ 1 := by
  rcases Nat.lt_or_ge b l.next with hlt | hge
  · have := h.once b hlt
    omega
  · rw [h.fresh b hge]
    exact Nat.zero_le 1

/-- A user that holds nothing has given back everything it obtained. -/
theorem Balanced.all_freed (h : l.Balanced held) {i : ι} (hnone : ∀ b, held i b = 0)
    {b : ℕ} (hb : b < l.next) (hi : l.owner b = i) : l.freed b = 1 := by
  have honce := h.once b hb
  rwa [hi, hnone] at honce

/-- The first pointers of a table, after the next one was set. -/
theorem map_range_update {α : Type} (f : ℕ → α) (i : ℕ) (p : α) :
    (List.range (i + 1)).map (Function.update f i p) = (List.range i).map f ++ [p] := by
  rw [List.range_succ, List.map_append]
  refine congrArg₂ _ (List.map_congr_left fun j hj => ?_) (by simp)
  exact Function.update_of_ne (Nat.ne_of_lt (List.mem_range.mp hj)) _ _

section also
variable [DecidableEq ι] {i : ι}

/-- What is held when one user holds some more pointers. -/
def also (held : ι → ℕ → ℕ) (i : ι) (ps : List (Option ℕ)) (j : ι) (b : ℕ) : ℕ :=
  held j b + if j = i then ps.count (some b) else 0

theorem also_nil (held : ι → ℕ → ℕ) (i : ι) : also held i [] = held := by
  funext j b
  simp [also]

theorem also_none (held : ι → ℕ → ℕ) (i : ι) : also held i [none] = held := by
  funext j b
  simp [also]

theorem also_append (held : ι → ℕ → ℕ) (i : ι) (ps qs : List (Option ℕ)) :
    also (also held i ps) i qs = also held i (ps ++ qs) := by
  funext j b
  unfold also
  split_ifs
  · rw [List.count_append, Nat.add_assoc]
  · rfl

theorem also_comm (held : ι → ℕ → ℕ) (i j : ι) (ps qs : List (Option ℕ)) :
    also (also held i ps) j qs = also (also held j qs) i ps := by
  funext k b
  exact Nat.add_right_comm _ _ _

theorem also_filter (held : ι → ℕ → ℕ) (i : ι) (ps : List (Option ℕ)) :
    also held i (ps.filter Option.isSome) = also held i ps := by
  funext j b
  unfold also
  rw [List.count_filter rfl]

theorem Balanced.allocOne (h : l.Balanced held) (i : ι) :
    (l.alloc i).Balanced (also held i [some l.next]) := by
  refine h.alloc i fun j b => ?_
  unfold also
  by_cases hj : j = i
  · by_cases hb : b = l.next
    · simp [hj, hb]
    · simp [hj, hb, Ne.symm hb]
  · simp [hj]

theorem Balanced.release {ps : List (Option ℕ)} (h : l.Balanced (also held i ps)) :
    (l.freeAll ps).Balanced held :=
  h.freeAll i ps fun _ _ => rfl

/-- The blocks that a user holds are its own. -/
theorem Balanced.own_also {ps : List (Option ℕ)} (h : l.Balanced (also held i ps)) {b : ℕ}
    (hb : some b ∈ ps) : b < l.next ∧ l.owner b = i := by
  refine h.own i b ?_
  have := List.count_pos_iff.mpr hb
  unfold also
  rw [if_pos rfl]
  omega

end also

end Ledger
end HydraAmix.Blocks
