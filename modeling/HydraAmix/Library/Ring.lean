import Mathlib.Data.List.Basic
import Mathlib.Algebra.Order.Group.Nat
import Mathlib.Algebra.BigOperators.Group.List.Basic
import Mathlib.Logic.Function.Basic
import Mathlib.Data.Nat.ModEq

/-!
# Records queued in circular storage

A circular area is `size` cells of a memory `ℕ → α` from address `base` on.
Positions count cells without wrapping; `cell` maps a position to the address
of its cell. `store` writes a list in order from a position on, wrapping at
the end of the area, and `fetch` reads it back.

`Queued` states that a list of records stands in the area one after another,
each in a slot at least as long as the record. It is the whole interface of a
first-in first-out ring: pushing behind the last slot keeps it as long as the
slots together fit in the area, and the first slot can be dropped at any time.
The owner of the ring chooses what a record contains.
-/
namespace HydraAmix.Ring

variable {α : Type} (base size : ℕ)

/-- The address of the cell at a position. -/
def cell (pos : ℕ) : ℕ := base + pos % size

/-- Write a list in order from a position on. -/
def store (m : ℕ → α) : ℕ → List α → ℕ → α
  | _, [] => m
  | pos, x :: xs => store (Function.update m (cell base size pos) x) (pos + 1) xs

/-- Read `n` cells in order from a position on. -/
def fetch (m : ℕ → α) (pos n : ℕ) : List α :=
  (List.range n).map fun i => m (cell base size (pos + i))

@[simp] theorem fetch_length (m : ℕ → α) (pos n : ℕ) :
    (fetch base size m pos n).length = n := by simp [fetch]

@[simp] theorem fetch_zero (m : ℕ → α) (pos : ℕ) : fetch base size m pos 0 = [] := rfl

theorem fetch_succ (m : ℕ → α) (pos n : ℕ) :
    fetch base size m pos (n + 1) =
      m (cell base size pos) :: fetch base size m (pos + 1) n := by
  simp [fetch, List.range_succ_eq_map, Function.comp_def, Nat.add_assoc, Nat.add_comm 1]

theorem fetch_add (m : ℕ → α) (pos n k : ℕ) :
    fetch base size m pos (n + k) =
      fetch base size m pos n ++ fetch base size m (pos + n) k := by
  simp [fetch, List.range_add, Function.comp_def, Nat.add_assoc]

theorem fetch_congr {m m' : ℕ → α} {pos n : ℕ}
    (h : ∀ i < n, m (cell base size (pos + i)) = m' (cell base size (pos + i))) :
    fetch base size m pos n = fetch base size m' pos n := by
  simp only [fetch, List.map_inj_left, List.mem_range]
  exact h

/-- Positions less than one revolution apart share a cell only if equal. -/
theorem cell_inj {p q : ℕ} (hle : p ≤ q) (hlt : q < p + size)
    (h : cell base size p = cell base size q) : p = q := by
  have hm : p % size = q % size := by simpa [cell] using h
  have hd : size ∣ q - p := (Nat.modEq_iff_dvd' hle).mp hm
  have hz : q - p = 0 := Nat.eq_zero_of_dvd_of_lt hd (by omega)
  omega

theorem cell_congr {p q : ℕ} (h : p % size = q % size) (i : ℕ) :
    cell base size (p + i) = cell base size (q + i) := by
  rw [cell, cell, Nat.add_mod, h, ← Nat.add_mod]

theorem getElem_of_fetch {m : ℕ → α} {pos : ℕ} {xs : List α}
    (h : fetch base size m pos xs.length = xs) {i : ℕ} (hi : i < xs.length) :
    m (cell base size (pos + i)) = xs[i] := by
  have hg := List.getElem_of_eq h (i := i) (by simpa using hi)
  simpa [fetch] using hg

theorem fetch_congr_pos (m : ℕ → α) {p q : ℕ} (h : p % size = q % size) (n : ℕ) :
    fetch base size m p n = fetch base size m q n := by
  simp only [fetch, cell_congr base size h]

theorem store_congr_pos (m : ℕ → α) {p q : ℕ} (h : p % size = q % size) (xs : List α) :
    store base size m p xs = store base size m q xs := by
  induction xs generalizing m p q with
  | nil => rfl
  | cons x xs ih =>
      have hc : cell base size p = cell base size q := cell_congr base size h 0
      rw [store, store, hc]
      exact ih _ (by rw [Nat.add_mod, h, ← Nat.add_mod])

/-- The cells outside the written positions keep their contents. -/
theorem store_apply_of_ne (m : ℕ → α) (pos : ℕ) (xs : List α) (a : ℕ)
    (h : ∀ i < xs.length, cell base size (pos + i) ≠ a) :
    store base size m pos xs a = m a := by
  induction xs generalizing m pos with
  | nil => rfl
  | cons x xs ih =>
      rw [store, ih]
      · exact Function.update_of_ne (Ne.symm (h 0 (by simp))) _ _
      · intro i hi
        have hn := h (i + 1) (by simpa using hi)
        rwa [show pos + 1 + i = pos + (i + 1) by omega]

/-- A list no longer than the area reads back as it was written. -/
theorem fetch_store_same (m : ℕ → α) (pos : ℕ) (xs : List α) (hn : xs.length ≤ size) :
    fetch base size (store base size m pos xs) pos xs.length = xs := by
  induction xs generalizing m pos with
  | nil => rfl
  | cons x xs ih =>
      simp only [List.length_cons] at hn
      rw [List.length_cons, fetch_succ, store, ih _ _ (by omega)]
      congr 1
      rw [store_apply_of_ne]
      · exact Function.update_self _ _ _
      · intro i hi he
        have hp := cell_inj base size (Nat.le_add_right pos (1 + i)) (by omega)
          (by rw [← he, Nat.add_assoc])
        omega

/-- Positions behind the written ones, up to one revolution, are unaffected. -/
theorem fetch_store_behind (m : ℕ → α) {pos q n : ℕ} {xs : List α}
    (hq : q + n ≤ pos) (hs : pos + xs.length ≤ q + size) :
    fetch base size (store base size m pos xs) q n = fetch base size m q n := by
  apply fetch_congr
  intro i hi
  apply store_apply_of_ne
  intro j hj he
  have hp := cell_inj base size (p := q + i) (q := pos + j) (by omega) (by omega) he.symm
  omega

/-- The cells that a list of slots takes up. -/
def span (slots : List (List α × ℕ)) : ℕ := (slots.map Prod.snd).sum

@[simp] theorem span_nil : span ([] : List (List α × ℕ)) = 0 := rfl

@[simp] theorem span_cons (r : List α × ℕ) (rs : List (List α × ℕ)) :
    span (r :: rs) = r.2 + span rs := by simp [span]

/-- The records stand one after another from the position on, each at the
start of its own slot. -/
def Queued (m : ℕ → α) : ℕ → List (List α × ℕ) → Prop
  | _, [] => True
  | pos, (xs, k) :: rest =>
      fetch base size m pos xs.length = xs ∧ xs.length ≤ k ∧ Queued m (pos + k) rest

variable {base size} in
/-- Writing one more record behind the last slot, with room for its slot in
the same revolution, extends the queue. -/
theorem Queued.push {m : ℕ → α} {pos k : ℕ} {slots : List (List α × ℕ)}
    (h : Queued base size m pos slots) (xs : List α) (hk : xs.length ≤ k)
    (hs : span slots + k ≤ size) :
    Queued base size (store base size m (pos + span slots) xs) pos
      (slots ++ [(xs, k)]) := by
  -- the revolution is measured from the first slot, the induction moves past it
  suffices H : ∀ q, pos ≤ q → q + span slots + k ≤ pos + size →
      Queued base size m q slots →
      Queued base size (store base size m (q + span slots) xs) q (slots ++ [(xs, k)]) from
    H pos le_rfl (by omega) h
  clear h
  induction slots with
  | nil =>
      intro q hq hr _
      simp only [span_nil, Nat.add_zero] at hr ⊢
      exact ⟨fetch_store_same base size m q xs (by omega), hk, trivial⟩
  | cons r rest ih =>
      obtain ⟨ys, l⟩ := r
      intro q hq hr h
      simp only [span_cons] at hr hs ⊢
      obtain ⟨hf, hl, ht⟩ := h
      refine ⟨?_, hl, ?_⟩
      · rw [fetch_store_behind base size m (by omega) (by omega)]
        exact hf
      · have hrest := ih (by omega) (q + l) (by omega) (by omega) ht
        rwa [Nat.add_assoc] at hrest

end HydraAmix.Ring
