import HydraAmix.Library.Ring

/-!
# A ring between a producer and a consumer

One side puts items in `size` cells of a buffer, the other takes them out. Each has a pointer
that only it moves: the number of the items that went in and of those that came out, both
modulo `size`. As long as there are fewer items between them than cells, the pointers tell an
empty ring from one that holds something, and the cell for the next item is free.
-/
namespace HydraAmix.SharedRing

variable {α : Type} {size : ℕ} {buf : ℕ → α} {items : List α} {out : ℕ}

/-- What went in and has not come out stands in the buffer. -/
structure Holds (size : ℕ) (buf : ℕ → α) (items : List α) (out : ℕ) : Prop where
  le : out ≤ items.length
  room : items.length < out + size
  stands : ∀ i, out ≤ i → ∀ h : i < items.length, buf (i % size) = items[i]

theorem Holds.empty (hsize : 0 < size) : Holds size buf [] 0 :=
  ⟨Nat.le_refl _, by simpa using hsize, fun _ _ h => absurd h (Nat.not_lt_zero _)⟩

/-- Two counts less than a round apart have the same cell only if they are equal. -/
theorem eq_of_mod {p q : ℕ} (hle : p ≤ q) (hlt : q < p + size) (h : p % size = q % size) :
    p = q :=
  Ring.cell_inj 0 size hle hlt (congrArg (0 + ·) h)

theorem Holds.empty_iff (h : Holds size buf items out) :
    items.length % size = out % size ↔ out = items.length :=
  ⟨fun he => eq_of_mod h.le h.room he.symm, fun he => by rw [he]⟩

/-- The pointer behind the next item is not the other one: then there is room for it. -/
theorem Holds.room_of_ne (h : Holds size buf items out)
    (hne : (items.length + 1) % size ≠ out % size) : items.length + 1 < out + size := by
  refine Nat.lt_of_le_of_ne h.room fun he => hne ?_
  rw [show items.length + 1 = out + size from he, Nat.add_mod_right]

/-- A store to the cell behind the last item. -/
theorem Holds.store (h : Holds size buf items out) (c : α) :
    Holds size (Function.update buf (items.length % size) c) items out := by
  refine ⟨h.le, h.room, fun i hi hlt => ?_⟩
  rw [Function.update_of_ne fun he => ?_]
  · exact h.stands i hi hlt
  · have := eq_of_mod (Nat.le_of_lt hlt) (by have := h.room; omega) he
    omega

/-- The item that stands there is one of the ring's. -/
theorem Holds.advance (h : Holds size buf items out) (hroom : items.length + 1 < out + size) :
    Holds size buf (items ++ [buf (items.length % size)]) out := by
  refine ⟨?_, ?_, fun i hi hlt => ?_⟩
  · rw [List.length_append]
    exact Nat.le_add_right_of_le h.le
  · simpa using hroom
  · rw [List.length_append, List.length_singleton] at hlt
    rcases Nat.lt_succ_iff_lt_or_eq.mp hlt with hlt | rfl
    · rw [List.getElem_append_left hlt]
      exact h.stands i hi hlt
    · rw [List.getElem_append_right (Nat.le_refl _)]
      simp

/-- Items are taken, or dropped. -/
theorem Holds.take (h : Holds size buf items out) {n : ℕ} (hle : out ≤ n)
    (hn : n ≤ items.length) : Holds size buf items n :=
  ⟨hn, by have := h.room; omega, fun i hi hlt => h.stands i (Nat.le_trans hle hi) hlt⟩

theorem Holds.next (h : Holds size buf items out) (hlt : out < items.length) :
    buf (out % size) = items[out] ∧ Holds size buf items (out + 1) :=
  ⟨h.stands out (Nat.le_refl _) hlt, h.take (Nat.le_succ _) hlt⟩

end HydraAmix.SharedRing
