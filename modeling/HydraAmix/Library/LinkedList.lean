import Mathlib.Data.List.Nodup
import Mathlib.Logic.Function.Basic
import Mathlib.Order.Basic
import Mathlib.Algebra.Order.Group.Nat

/-!
# Singly linked lists

The nodes of a linked list are found from a head pointer and one link field in
each node. `Spells` says which sequence of nodes the pointers spell. A place
where a pointer is stored is itself a value, a `Link`: the head, or the link
field of a node, as in code that keeps the address of a link field. The rules
say what the usual assignments do to the spelled sequence: writing through the
last link appends, writing the successor of a node through the link that
points to it removes that node.
-/
namespace HydraAmix.LinkedList

variable {α : Type}

/-- A place where a pointer to a node is stored. -/
inductive Link (α : Type) where
  | head
  | next (a : α)
  deriving DecidableEq, Repr

structure Chain (α : Type) where
  head : Option α
  next : α → Option α

/-- The link that points to the node at an index, or ends the sequence. -/
def linkAt (l : List α) : ℕ → Link α
  | 0 => .head
  | i + 1 => (l[i]?).elim .head .next

namespace Chain

/-- The pointer stored at a link. -/
def get (c : Chain α) : Link α → Option α
  | .head => c.head
  | .next a => c.next a

def set [DecidableEq α] (c : Chain α) : Link α → Option α → Chain α
  | .head, p => { c with head := p }
  | .next a, p => { c with next := Function.update c.next a p }

/-- The pointers lead through these nodes, in this order, and end there. -/
structure Spells (c : Chain α) (l : List α) : Prop where
  head : c.head = l[0]?
  next : ∀ i x, l[i]? = some x → c.next x = l[i + 1]?

end Chain

section
variable {l : List α} {i : ℕ} {a b : α}

theorem linkAt_succ (h : l[i]? = some a) : linkAt l (i + 1) = .next a := by
  rw [linkAt, h]
  rfl

/-- The link that ends the sequence is in its last node. -/
theorem linkAt_length (l : List α) : linkAt l l.length = l.getLast?.elim .head .next := by
  cases hl : l.length with
  | zero => rw [List.eq_nil_of_length_eq_zero hl]; rfl
  | succ k => rw [linkAt, List.getLast?_eq_getElem?, hl, Nat.add_sub_cancel]

theorem linkAt_append_self (l : List α) (b : α) : linkAt (l ++ [b]) (l.length + 1) = .next b :=
  linkAt_succ (by rw [List.getElem?_append_right le_rfl, Nat.sub_self]; rfl)

theorem linkAt_append (l r : List α) (h : i ≤ l.length) : linkAt (l ++ r) i = linkAt l i := by
  cases i with
  | zero => rfl
  | succ i => rw [linkAt, linkAt, List.getElem?_append_left h]

/-- A node stands at one index only. -/
theorem index_unique (hn : l.Nodup) {j : ℕ} (hi : l[i]? = some a) (hj : l[j]? = some a) : i = j :=
  (List.getElem?_inj (List.getElem?_eq_some_iff.mp hi).1 hn).mp (hi.trans hj.symm)

/-- The end of the sequence after a removal. -/
theorem linkAt_eraseIdx_end (hi : l[i]? = some a) :
    linkAt (l.eraseIdx i) (l.eraseIdx i).length =
      if l[i + 1]? = none then linkAt l i else linkAt l l.length := by
  have hlt : i < l.length := (List.getElem?_eq_some_iff.mp hi).1
  have hlen : (l.eraseIdx i).length = l.length - 1 := List.length_eraseIdx_of_lt hlt
  rw [hlen]
  split_ifs with h
  · rw [List.getElem?_eq_none_iff] at h
    obtain rfl : i = l.length - 1 := by omega
    cases hk : l.length - 1 with
    | zero => rfl
    | succ k => rw [linkAt, linkAt, List.getElem?_eraseIdx_of_lt (by omega)]
  · rw [List.getElem?_eq_none_iff, not_le] at h
    obtain ⟨k, hk⟩ : ∃ k, l.length = k + 2 := ⟨l.length - 2, by omega⟩
    rw [hk, show k + 2 - 1 = k + 1 by omega, linkAt, linkAt,
      List.getElem?_eraseIdx_of_ge (by omega)]

end

namespace Chain.Spells

variable {c : Chain α} {l : List α} {i : ℕ} {a b : α}

theorem get_linkAt (h : c.Spells l) (hi : i ≤ l.length) : c.get (linkAt l i) = l[i]? := by
  cases i with
  | zero => exact h.head
  | succ i =>
      have hx := List.getElem?_eq_getElem (l := l) hi
      rw [linkAt_succ hx]
      exact h.next i _ hx

variable [DecidableEq α]

/-- Through the last link, a new node is appended. -/
theorem append (h : c.Spells l) (hn : l.Nodup) (hb : b ∉ l) :
    ((c.set (linkAt l l.length) (some b)).set (.next b) none).Spells (l ++ [b]) := by
  have hlast : (l ++ [b])[l.length]? = some b := by
    rw [List.getElem?_append_right le_rfl, Nat.sub_self]
    rfl
  have hold : ∀ i, i < l.length → (l ++ [b])[i]? = l[i]? := fun i hi =>
    List.getElem?_append_left hi
  cases hl : l.length with
  | zero =>
      obtain rfl : l = [] := List.eq_nil_of_length_eq_zero hl
      constructor
      · rfl
      · intro i x hx
        rcases i with _ | i
        · obtain rfl : b = x := Option.some.inj hx
          exact Function.update_self ..
        · simp at hx
  | succ k =>
      have hx := List.getElem?_eq_getElem (l := l) (i := k) (by omega)
      generalize l[k] = x at hx
      rw [linkAt_succ hx]
      constructor
      · rw [hold 0 (by omega), ← h.head]
        rfl
      · intro i y hy
        simp only [Chain.set]
        by_cases hyb : y = b
        · subst hyb
          rw [Function.update_self]
          have hi : l.length ≤ i := by
            by_contra hi
            rw [hold i (by omega)] at hy
            exact hb (List.mem_of_getElem? hy)
          rw [List.getElem?_eq_none (by simp; omega)]
        · rw [Function.update_of_ne hyb]
          have hi : i < l.length := by
            by_contra hi
            rcases Nat.eq_or_lt_of_not_lt hi with he | hgt
            · rw [he, hlast, Option.some.injEq] at hy
              exact hyb hy.symm
            · rw [List.getElem?_eq_none (by simp; omega)] at hy
              exact absurd hy (Option.some_ne_none _).symm
          rw [hold i hi] at hy
          by_cases hyx : y = x
          · subst hyx
            have hik := index_unique hn hy hx
            rw [Function.update_self, hik, ← hl, hlast]
          · have hik : i ≠ k := fun he => hyx (by
              rw [he, hx, Option.some.injEq] at hy
              exact hy.symm)
            rw [Function.update_of_ne hyx, h.next i y hy, hold (i + 1) (by omega)]

/-- Through the link that points to a node, the node is removed. -/
theorem remove (h : c.Spells l) (hn : l.Nodup) (hi : l[i]? = some a) :
    (c.set (linkAt l i) (c.next a)).Spells (l.eraseIdx i) := by
  have hnext := h.next i a hi
  cases i with
  | zero =>
      constructor
      · rw [List.getElem?_eraseIdx_of_ge le_rfl]
        exact hnext
      · intro j y hy
        rw [List.getElem?_eraseIdx_of_ge (Nat.zero_le _)] at hy ⊢
        exact h.next _ y hy
  | succ k =>
      have hk : k < l.length := by
        have := (List.getElem?_eq_some_iff.mp hi).1
        omega
      have hx := List.getElem?_eq_getElem (l := l) hk
      generalize l[k] = x at hx
      rw [linkAt_succ hx]
      constructor
      · rw [List.getElem?_eraseIdx_of_lt (by omega), ← h.head]
        rfl
      · intro j y hy
        simp only [Chain.set]
        rcases Nat.lt_trichotomy j k with hj | rfl | hj
        · rw [List.getElem?_eraseIdx_of_lt (by omega)] at hy ⊢
          have hne : y ≠ x := fun he => by
            subst he
            have := index_unique hn hy hx
            omega
          rw [Function.update_of_ne hne, h.next j y hy]
        · rw [List.getElem?_eraseIdx_of_lt (by omega), hx, Option.some.injEq] at hy
          subst hy
          rw [Function.update_self, hnext, List.getElem?_eraseIdx_of_ge le_rfl]
        · rw [List.getElem?_eraseIdx_of_ge (by omega)] at hy ⊢
          have hne : y ≠ x := fun he => by
            subst he
            have := index_unique hn hy hx
            omega
          rw [Function.update_of_ne hne, h.next (j + 1) y hy]

/-- A node that is not on the list is put before it. -/
theorem push (h : c.Spells l) (ha : a ∉ l) :
    Chain.Spells ⟨some a, Function.update c.next a c.head⟩ (a :: l) where
  head := rfl
  next i x hx := by
    cases i with
    | zero =>
        obtain rfl : a = x := Option.some.inj hx
        exact (Function.update_self ..).trans h.head
    | succ i =>
        have hne : x ≠ a := fun he => ha (he ▸ List.mem_of_getElem? hx)
        exact (Function.update_of_ne hne ..).trans (h.next i x hx)

end Chain.Spells
end HydraAmix.LinkedList
