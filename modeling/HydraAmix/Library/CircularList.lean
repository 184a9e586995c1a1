import Mathlib.Data.List.Nodup
import Mathlib.Logic.Function.Basic

/-!
# Circular lists with links both ways

The nodes of a circular list and its anchor, which is `none` here, point to the node
after them and to the one before. `Spells` says which sequence the links spell, from
the anchor and back to it: wherever the sequence is cut in two, the last node before
the cut and the first one after it point to each other. The rules say what the usual
assignments for linking a node in before another one and for unlinking it do to the
spelled sequence, and where a search along the links stops.
-/
namespace HydraAmix.CircularList

variable {α : Type}

structure Links (α : Type) where
  forw : Option α → Option α
  back : Option α → Option α

/-! ### Cuts of a list -/

section
variable {l₁ l₂ m₁ m₂ : List α} {b : α}

theorem getLast?_append_ne {k : List α} (hn : (l₁ ++ k).Nodup) (hk : k ≠ []) :
    l₁.getLast? ≠ (l₁ ++ k).getLast? := by
  intro he
  rw [List.getLast?_append_of_ne_nil l₁ hk, List.getLast?_eq_some_getLast hk] at he
  exact (List.disjoint_of_nodup_append hn) (List.mem_of_getLast? he) (List.getLast_mem hk)

theorem head?_append_ne {k : List α} (hn : (k ++ l₂).Nodup) (hk : k ≠ []) :
    l₂.head? ≠ (k ++ l₂).head? := by
  intro he
  rw [List.head?_append_of_ne_nil k hk, List.head?_eq_some_head hk] at he
  exact (List.disjoint_of_nodup_append hn) (List.head_mem hk) (List.mem_of_head? he)

/-- Two cuts of a list without repetition are the same or have nothing in common. -/
theorem cuts (hn : (l₁ ++ l₂).Nodup) (he : l₁ ++ l₂ = m₁ ++ m₂) :
    m₁ = l₁ ∧ m₂ = l₂ ∨ m₁.getLast? ≠ l₁.getLast? ∧ m₂.head? ≠ l₂.head? := by
  rcases List.append_eq_append_iff.mp he with ⟨k, rfl, rfl⟩ | ⟨k, rfl, rfl⟩
  · by_cases hk : k = []
    · subst hk
      exact .inl ⟨List.append_nil l₁, rfl⟩
    · rw [← List.append_assoc] at hn
      exact .inr ⟨(getLast?_append_ne hn.of_append_left hk).symm,
        head?_append_ne (hn.sublist (by simp)) hk⟩
  · by_cases hk : k = []
    · subst hk
      exact .inl ⟨(List.append_nil m₁).symm, rfl⟩
    · exact .inr ⟨getLast?_append_ne hn.of_append_left hk,
        (head?_append_ne (hn.sublist (by simp)) hk).symm⟩

/-- A cut of the list with `b` is beside it or comes from a cut of the list without. -/
theorem cuts_insert (he : l₁ ++ b :: l₂ = m₁ ++ m₂) :
    m₁ = l₁ ∧ m₂ = b :: l₂ ∨ m₁ = l₁ ++ [b] ∧ m₂ = l₂ ∨
      ∃ n₁ n₂, l₁ ++ l₂ = n₁ ++ n₂ ∧ (n₁ ≠ l₁ ∨ n₂ ≠ l₂) ∧
        n₁.getLast? = m₁.getLast? ∧ n₂.head? = m₂.head? := by
  rcases List.append_eq_append_iff.mp he with ⟨k, rfl, hk⟩ | ⟨k, rfl, rfl⟩
  · cases k with
    | nil => exact .inl ⟨List.append_nil l₁, hk.symm⟩
    | cons c k =>
        obtain ⟨rfl, rfl⟩ := List.cons.inj hk
        by_cases hk : k = []
        · subst hk
          exact .inr (.inl ⟨rfl, rfl⟩)
        · refine .inr (.inr ⟨l₁ ++ k, m₂, (List.append_assoc ..).symm, .inl ?_, ?_, rfl⟩)
          · simpa using hk
          · rw [List.getLast?_append_of_ne_nil _ hk, List.append_cons,
              List.getLast?_append_of_ne_nil _ hk]
  · by_cases hk : k = []
    · subst hk
      exact .inl ⟨(List.append_nil m₁).symm, rfl⟩
    · refine .inr (.inr ⟨m₁, k ++ l₂, List.append_assoc .., .inl ?_, rfl, ?_⟩)
      · simpa using Ne.symm hk
      · rw [List.head?_append_of_ne_nil _ hk, List.head?_append_of_ne_nil _ hk]

/-- A cut of the list without `b`, not where `b` was, comes from one of the list with. -/
theorem cuts_remove (b : α) (he : l₁ ++ l₂ = m₁ ++ m₂) (hne : m₁ ≠ l₁) :
    ∃ n₁ n₂, l₁ ++ b :: l₂ = n₁ ++ n₂ ∧
      n₁.getLast? = m₁.getLast? ∧ n₂.head? = m₂.head? := by
  rcases List.append_eq_append_iff.mp he with ⟨k, rfl, rfl⟩ | ⟨k, rfl, rfl⟩
  · have hk : k ≠ [] := fun hk => hne (hk ▸ List.append_nil l₁)
    refine ⟨l₁ ++ b :: k, m₂, (List.append_assoc l₁ (b :: k) m₂).symm, ?_, rfl⟩
    rw [List.append_cons, List.getLast?_append_of_ne_nil _ hk,
      List.getLast?_append_of_ne_nil _ hk]
  · have hk : k ≠ [] := fun hk => hne (hk ▸ List.append_nil m₁).symm
    refine ⟨m₁, k ++ b :: l₂, List.append_assoc .., rfl, ?_⟩
    rw [List.head?_append_of_ne_nil _ hk, List.head?_append_of_ne_nil _ hk]

end

namespace Links

section
variable [DecidableEq α]

/-- `b` is linked in before `x`. -/
def insert (c : Links α) (b : α) (x : Option α) : Links α :=
  let c := { c with forw := Function.update c.forw (some b) x }
  let c := { c with back := Function.update c.back (some b) (c.back x) }
  let c := { c with forw := Function.update c.forw (c.back x) (some b) }
  { c with back := Function.update c.back x (some b) }

/-- `b` is unlinked; its own links stay. -/
def remove (c : Links α) (b : α) : Links α :=
  let c := { c with back := Function.update c.back (c.forw (some b)) (c.back (some b)) }
  { c with forw := Function.update c.forw (c.back (some b)) (c.forw (some b)) }

end

/-- Forward from `x`, over the nodes with `p`, for at most `n` nodes. -/
def search (c : Links α) (p : α → Bool) : ℕ → Option α → Option α
  | 0, x => x
  | n + 1, x =>
      match c.forw x with
      | none => none
      | some a => if p a then search c p n (some a) else some a

/-- The links lead through these nodes, in this order, from the anchor and back to it. -/
structure Spells (c : Links α) (l : List α) : Prop where
  forw : ∀ l₁ l₂, l = l₁ ++ l₂ → c.forw l₁.getLast? = l₂.head?
  back : ∀ l₁ l₂, l = l₁ ++ l₂ → c.back l₂.head? = l₁.getLast?

namespace Spells

variable {c : Links α} {l l₁ l₂ : List α} {b : α}

theorem search (h : c.Spells (l₁ ++ l₂)) (p : α → Bool) {n : ℕ} (hlen : l₂.length < n) :
    c.search p n l₁.getLast? = (l₂.dropWhile p).head? := by
  induction l₂ generalizing l₁ n with
  | nil =>
      obtain ⟨n, rfl⟩ := Nat.exists_eq_succ_of_ne_zero (Nat.ne_of_gt hlen)
      have hnext := h.forw l₁ [] rfl
      rw [Links.search, hnext]
      rfl
  | cons a l₂ ih =>
      obtain ⟨n, rfl⟩ := Nat.exists_eq_succ_of_ne_zero (Nat.ne_of_gt (Nat.zero_lt_of_lt hlen))
      have hnext := h.forw l₁ (a :: l₂) rfl
      rw [Links.search, hnext, List.head?_cons]
      dsimp only
      by_cases hp : p a = true
      · rw [if_pos hp, List.dropWhile_cons_of_pos hp]
        rw [List.append_cons] at h
        have hrest := ih h (Nat.lt_of_succ_lt_succ hlen)
        rwa [List.getLast?_concat] at hrest
      · rw [if_neg hp, List.dropWhile_cons_of_neg hp]
        rfl

variable [DecidableEq α]

theorem insert (h : c.Spells (l₁ ++ l₂)) (hn : (l₁ ++ b :: l₂).Nodup) :
    (c.insert b l₂.head?).Spells (l₁ ++ b :: l₂) := by
  obtain ⟨hb, hn'⟩ := List.nodup_cons.mp (List.nodup_middle.mp hn)
  have hx : l₂.head? ≠ some b := fun he =>
    hb (List.mem_append_right l₁ (List.mem_of_head? he))
  have hp : l₁.getLast? ≠ some b := fun he =>
    hb (List.mem_append_left l₂ (List.mem_of_getLast? he))
  have hprev := h.back l₁ l₂ rfl
  have hforw : (c.insert b l₂.head?).forw = Function.update
      (Function.update c.forw (some b) l₂.head?) l₁.getLast? (some b) := by
    simp only [Links.insert, Function.update_of_ne hx, hprev]
  have hback : (c.insert b l₂.head?).back = Function.update
      (Function.update c.back (some b) l₁.getLast?) l₂.head? (some b) := by
    simp only [Links.insert, hprev]
  have hother : ∀ n₁ n₂, l₁ ++ l₂ = n₁ ++ n₂ → (n₁ ≠ l₁ ∨ n₂ ≠ l₂) →
      (c.insert b l₂.head?).forw n₁.getLast? = n₂.head? ∧
        (c.insert b l₂.head?).back n₂.head? = n₁.getLast? := by
    intro n₁ n₂ he hne
    obtain ⟨hlast, hhead⟩ := (cuts hn' he).resolve_left fun hs =>
      hne.elim (fun hl => hl hs.1) fun hr => hr hs.2
    have hlb : n₁.getLast? ≠ some b := fun hs =>
      hb (he ▸ List.mem_append_left n₂ (List.mem_of_getLast? hs))
    have hhb : n₂.head? ≠ some b := fun hs =>
      hb (he ▸ List.mem_append_right n₁ (List.mem_of_head? hs))
    constructor
    · rw [hforw, Function.update_of_ne hlast, Function.update_of_ne hlb]
      exact h.forw n₁ n₂ he
    · rw [hback, Function.update_of_ne hhead, Function.update_of_ne hhb]
      exact h.back n₁ n₂ he
  constructor
  · intro m₁ m₂ he
    obtain ⟨rfl, rfl⟩ | ⟨rfl, rfl⟩ | ⟨n₁, n₂, hcut, hne, hlast, hhead⟩ := cuts_insert he
    · rw [hforw, Function.update_self]
      rfl
    · rw [hforw, List.getLast?_concat, Function.update_of_ne hp.symm, Function.update_self]
    · rw [← hlast, ← hhead]
      exact (hother n₁ n₂ hcut hne).1
  · intro m₁ m₂ he
    obtain ⟨rfl, rfl⟩ | ⟨rfl, rfl⟩ | ⟨n₁, n₂, hcut, hne, hlast, hhead⟩ := cuts_insert he
    · rw [hback, List.head?_cons, Function.update_of_ne hx.symm, Function.update_self]
    · rw [hback, List.getLast?_concat, Function.update_self]
    · rw [← hlast, ← hhead]
      exact (hother n₁ n₂ hcut hne).2

/-- The links of a node that is on the list, and what unlinking it writes. -/
theorem remove_links (h : c.Spells (l₁ ++ b :: l₂)) (hn : (l₁ ++ b :: l₂).Nodup) :
    c.forw (some b) = l₂.head? ∧ c.back (some b) = l₁.getLast? ∧
      (c.remove b).forw = Function.update c.forw l₁.getLast? l₂.head? ∧
      (c.remove b).back = Function.update c.back l₂.head? l₁.getLast? := by
  have hb := (List.nodup_cons.mp (List.nodup_middle.mp hn)).1
  have hnext : c.forw (some b) = l₂.head? := by
    have hcut := h.forw (l₁ ++ [b]) l₂ (List.append_cons ..)
    rwa [List.getLast?_concat] at hcut
  have hprev : c.back (some b) = l₁.getLast? := h.back l₁ (b :: l₂) rfl
  have hx : l₂.head? ≠ some b := fun he =>
    hb (List.mem_append_right l₁ (List.mem_of_head? he))
  refine ⟨hnext, hprev, ?_, ?_⟩
  · simp only [Links.remove, hnext, Function.update_of_ne hx.symm, hprev]
  · simp only [Links.remove, hnext, hprev]

/-- A node that was unlinked still points to its neighbours. -/
theorem remove_self (h : c.Spells (l₁ ++ b :: l₂)) (hn : (l₁ ++ b :: l₂).Nodup) :
    (c.remove b).forw (some b) = l₂.head? ∧ (c.remove b).back (some b) = l₁.getLast? := by
  obtain ⟨hnext, hprev, hforw, hback⟩ := h.remove_links hn
  have hb := (List.nodup_cons.mp (List.nodup_middle.mp hn)).1
  constructor
  · rw [hforw, Function.update_of_ne, hnext]
    exact fun he => hb (List.mem_append_left l₂ (List.mem_of_getLast? he.symm))
  · rw [hback, Function.update_of_ne, hprev]
    exact fun he => hb (List.mem_append_right l₁ (List.mem_of_head? he.symm))

theorem remove (h : c.Spells (l₁ ++ b :: l₂)) (hn : (l₁ ++ b :: l₂).Nodup) :
    (c.remove b).Spells (l₁ ++ l₂) := by
  obtain ⟨-, -, hforw, hback⟩ := h.remove_links hn
  have hn' := (List.nodup_cons.mp (List.nodup_middle.mp hn)).2
  have hcuts : ∀ m₁ m₂, l₁ ++ l₂ = m₁ ++ m₂ → m₁ = l₁ ∧ m₂ = l₂ ∨
      m₁.getLast? ≠ l₁.getLast? ∧ m₂.head? ≠ l₂.head? ∧
        c.forw m₁.getLast? = m₂.head? ∧ c.back m₂.head? = m₁.getLast? := by
    intro m₁ m₂ he
    rcases cuts hn' he with hs | ⟨hlast, hhead⟩
    · exact .inl hs
    obtain ⟨n₁, n₂, hcut, hl, hr⟩ := cuts_remove b he fun hs => hlast (congrArg _ hs)
    rw [← hl] at hlast ⊢
    rw [← hr] at hhead ⊢
    exact .inr ⟨hlast, hhead, h.forw n₁ n₂ hcut, h.back n₁ n₂ hcut⟩
  constructor
  · intro m₁ m₂ he
    obtain ⟨rfl, rfl⟩ | ⟨hlast, -, hm, -⟩ := hcuts m₁ m₂ he
    · rw [hforw, Function.update_self]
    · rwa [hforw, Function.update_of_ne hlast]
  · intro m₁ m₂ he
    obtain ⟨rfl, rfl⟩ | ⟨-, hhead, -, hm⟩ := hcuts m₁ m₂ he
    · rw [hback, Function.update_self]
    · rwa [hback, Function.update_of_ne hhead]

end Spells
end Links
end HydraAmix.CircularList
