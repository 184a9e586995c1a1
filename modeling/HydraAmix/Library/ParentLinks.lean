import Mathlib.Data.Finset.Card
import Mathlib.Data.List.Nodup

/-!
# Chains of parent links

A partial map gives some elements a parent; the roots need none. The path of an
element is the list of the elements met on the way to a root. Where a path
exists it is unique and meets nothing twice, so it is no longer than there are
elements with a parent.
-/
namespace HydraAmix.ParentLinks

variable {α : Type}

/-- The elements from `c` on, up to a root, which is not listed. -/
inductive Path (root : α → Prop) (links : α → Option α) : α → List α → Prop
  | base {c : α} : root c → Path root links c []
  | link {c p : α} {l : List α} : ¬ root c → links c = some p → Path root links p l →
      Path root links c (c :: l)

/-- The chain of the element ends at a root. -/
def Grounded (root : α → Prop) (links : α → Option α) (c : α) : Prop :=
  ∃ l, Path root links c l

variable {root : α → Prop} {links : α → Option α} {c p : α} {l : List α}

theorem Grounded.base (h : root c) : Grounded root links c := ⟨[], .base h⟩

theorem Grounded.link (hc : ¬ root c) (hp : links c = some p) (h : Grounded root links p) :
    Grounded root links c :=
  h.imp' (c :: ·) fun _ hl => .link hc hp hl

theorem Path.unique (h : Path root links c l) {l' : List α} (h' : Path root links c l') :
    l = l' := by
  induction h generalizing l' with
  | base hc =>
      cases h' with
      | base => rfl
      | link hn => exact absurd hc hn
  | link hn hp _ ih =>
      cases h' with
      | base hc => exact absurd hc hn
      | link _ hp' hl' =>
          obtain rfl := Option.some.inj (hp.symm.trans hp')
          rw [ih hl']

/-- From every element of a path the rest of the path goes on. -/
theorem Path.rest (h : Path root links c l) {x : α} (hx : x ∈ l) :
    ∃ l', Path root links x l' ∧ l'.length ≤ l.length := by
  induction h with
  | base => cases hx
  | @link c p l hn hp hl ih =>
      rcases List.mem_cons.mp hx with rfl | hx
      · exact ⟨x :: l, .link hn hp hl, Nat.le_refl _⟩
      · obtain ⟨l', hl', hlen⟩ := ih hx
        exact ⟨l', hl', hlen.trans (Nat.le_succ _)⟩

theorem Path.nodup (h : Path root links c l) : l.Nodup := by
  induction h with
  | base => exact List.nodup_nil
  | @link c p l hn hp hl ih =>
      refine List.nodup_cons.mpr ⟨fun hmem => ?_, ih⟩
      obtain ⟨l', hl', hlen⟩ := hl.rest hmem
      rw [hl'.unique (.link hn hp hl), List.length_cons] at hlen
      omega

theorem Path.linked (h : Path root links c l) {x : α} (hx : x ∈ l) :
    ¬ root x ∧ (links x).isSome := by
  induction h with
  | base => cases hx
  | link hn hp _ ih =>
      rcases List.mem_cons.mp hx with rfl | hx
      · exact ⟨hn, by rw [hp]; rfl⟩
      · exact ih hx

/-- A path is no longer than there are elements with a parent. -/
theorem Path.length_le [DecidableEq α] (h : Path root links c l) (s : Finset α)
    (hs : ∀ x, ¬ root x → (links x).isSome → x ∈ s) : l.length ≤ s.card := by
  rw [← List.toFinset_card_of_nodup h.nodup]
  refine Finset.card_le_card fun x hx => ?_
  have hl := h.linked (List.mem_toFinset.mp hx)
  exact hs x hl.1 hl.2

/-- A path within a set that the links do not leave is no longer than the set is large. -/
theorem Path.length_le_of_closed [DecidableEq α] (h : Path root links c l) {s : Finset α}
    (hc : c ∈ s) (hs : ∀ x y, links x = some y → y ∈ s) : l.length ≤ s.card := by
  have hmem : ∀ x ∈ l, x ∈ s := by
    induction h with
    | base => exact fun x hx => absurd hx List.not_mem_nil
    | link _ hp hl ih =>
        intro x hx
        rcases List.mem_cons.mp hx with rfl | hx
        · exact hc
        · exact ih (hs _ _ hp) x hx
  rw [← List.toFinset_card_of_nodup h.nodup]
  exact Finset.card_le_card fun x hx => hmem x (List.mem_toFinset.mp hx)

end HydraAmix.ParentLinks
