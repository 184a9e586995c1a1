import Mathlib.Data.List.Nodup
import Mathlib.Data.Finset.Card
import Mathlib.Dynamics.PeriodicPts.Defs
import Mathlib.Logic.Relation

/-!
# Following pointers

`next` names the successor of an element, or ends the walk. `visited` lists the
elements that a walk of at most `k` steps leaves. Elements of a kind `P` are left
once each if and only if none of them that the walk can reach leads back to itself;
a cycle in a set of `N` elements shows within `2 * N` steps.
-/
namespace HydraAmix.Pointers
open Relation

variable {α : Type} (next : α → Option α)

def Leads (a b : α) : Prop := next a = some b

/-- The elements that a walk of at most `k` steps leaves, in order. -/
def visited : ℕ → α → List α
  | 0, _ => []
  | k + 1, a =>
      match next a with
      | none => []
      | some b => a :: visited k b

/-- The successor, where there is one. -/
def follow (a : α) : α := (next a).getD a

variable {next} {a b p : α} {k : ℕ}

theorem reaches_of_mem_visited (h : b ∈ visited next k a) : ReflTransGen (Leads next) a b := by
  induction k generalizing a with
  | zero => exact absurd h List.not_mem_nil
  | succ k ih =>
      unfold visited at h
      cases hn : next a with
      | none =>
          rw [hn] at h
          exact absurd h List.not_mem_nil
      | some c =>
          rw [hn] at h
          rcases List.mem_cons.mp h with rfl | h
          · exact .refl
          · exact .head hn (ih h)

theorem mem_of_mem_visited {S : Finset α} (hS : ∀ a ∈ S, ∀ b, next a = some b → b ∈ S)
    (ha : a ∈ S) (h : b ∈ visited next k a) : b ∈ S := by
  replace h := reaches_of_mem_visited h
  induction h with
  | refl => exact ha
  | tail _ hbc ih => exact hS _ ih _ hbc

/-- Elements that lead to themselves apart, a walk leaves nothing twice. -/
theorem visited_pairwise {P : α → Prop}
    (h : ∀ p, ReflTransGen (Leads next) a p → TransGen (Leads next) p p → ¬ P p) :
    (visited next k a).Pairwise fun x y => P x → P y → x ≠ y := by
  induction k generalizing a with
  | zero => exact .nil
  | succ k ih =>
      unfold visited
      cases hn : next a with
      | none => exact .nil
      | some c =>
          refine .cons (fun y hy hx _ hxy => ?_) (ih fun p hp => h p (.head hn hp))
          subst hxy
          exact h a .refl (.head' hn (reaches_of_mem_visited hy)) hx

theorem follow_of_leads (h : Leads next a b) : follow next a = b := by
  rw [follow, h]
  rfl

theorem exists_iterate_of_reaches (h : ReflTransGen (Leads next) a b) :
    ∃ n, (follow next)^[n] a = b ∧ ∀ i < n, (next ((follow next)^[i] a)).isSome := by
  induction h with
  | refl => exact ⟨0, rfl, fun i hi => absurd hi (Nat.not_lt_zero i)⟩
  | @tail b c _ hbc ih =>
      obtain ⟨n, hn, hs⟩ := ih
      refine ⟨n + 1, ?_, fun i hi => ?_⟩
      · rw [Function.iterate_succ_apply', hn, follow_of_leads hbc]
      · rcases Nat.lt_succ_iff_lt_or_eq.mp hi with hi | rfl
        · exact hs i hi
        · rw [hn, hbc]
          rfl

theorem exists_iterate_of_cycle (h : TransGen (Leads next) p p) :
    ∃ c, 0 < c ∧ (follow next)^[c] p = p ∧ ∀ i, (next ((follow next)^[i] p)).isSome := by
  obtain ⟨b, hpb, hb⟩ := TransGen.tail'_iff.mp h
  obtain ⟨n, hn, hs⟩ := exists_iterate_of_reaches hpb
  have hc : (follow next)^[n + 1] p = p := by
    rw [Function.iterate_succ_apply', hn, follow_of_leads hb]
  have hlive : ∀ i < n + 1, (next ((follow next)^[i] p)).isSome := fun i hi => by
    rcases Nat.lt_succ_iff_lt_or_eq.mp hi with hi | rfl
    · exact hs i hi
    · rw [hn, hb]
      rfl
  refine ⟨n + 1, Nat.succ_pos n, hc, fun i => ?_⟩
  have hmod : (follow next)^[i % (n + 1)] p = (follow next)^[i] p :=
    Function.IsPeriodicPt.iterate_mod_apply hc i
  rw [← hmod]
  exact hlive _ (Nat.mod_lt i (Nat.succ_pos n))

/-- A walk that does not end lists the iterates. -/
theorem visited_eq_map (h : ∀ i < k, (next ((follow next)^[i] a)).isSome) :
    visited next k a = (List.range k).map fun i => (follow next)^[i] a := by
  induction k generalizing a with
  | zero => rfl
  | succ k ih =>
      obtain ⟨b, hb⟩ := Option.isSome_iff_exists.mp (h 0 (Nat.succ_pos k))
      have hb : next a = some b := hb
      have hrest : ∀ i, (follow next)^[i + 1] a = (follow next)^[i] b := fun i => by
        rw [Function.iterate_succ_apply, follow_of_leads hb]
      rw [List.range_succ_eq_map, List.map_cons, List.map_map, visited, hb]
      refine congrArg (a :: ·) ((ih fun i hi => ?_).trans (List.map_congr_left fun i _ => ?_))
      · rw [← hrest]
        exact h (i + 1) (Nat.succ_lt_succ hi)
      · exact (hrest i).symm

/-- A walk that comes back to `p` is there twice among its first `2 * N` steps, where it
stays within `N` elements. -/
theorem exists_twice {S : Finset α} (hS : ∀ a ∈ S, ∀ b, next a = some b → b ∈ S) (ha : a ∈ S)
    (hp : ReflTransGen (Leads next) a p) (hc : TransGen (Leads next) p p) :
    (∀ i, (next ((follow next)^[i] a)).isSome) ∧
      ∃ i j, i < j ∧ j < 2 * S.card ∧ (follow next)^[i] a = p ∧ (follow next)^[j] a = p := by
  obtain ⟨m, hm, hlive⟩ := exists_iterate_of_reaches hp
  obtain ⟨c, hcpos, hcyc, hlive'⟩ := exists_iterate_of_cycle hc
  have hafter : ∀ i, (follow next)^[i + m] a = (follow next)^[i] p := fun i => by
    rw [Function.iterate_add_apply, hm]
  have hall : ∀ i, (next ((follow next)^[i] a)).isSome := fun i => by
    rcases Nat.lt_or_ge i m with hi | hi
    · exact hlive i hi
    · obtain ⟨i, rfl⟩ := Nat.exists_eq_add_of_le' hi
      rw [hafter]
      exact hlive' i
  have hmem : ∀ i, (follow next)^[i] a ∈ S := fun i => by
    induction i with
    | zero => exact ha
    | succ i ih =>
        obtain ⟨b, hb⟩ := Option.isSome_iff_exists.mp (hall i)
        rw [Function.iterate_succ_apply', follow_of_leads hb]
        exact hS _ ih b hb
  -- two of the first `N + 1` elements are the same, and the walk is periodic from there
  obtain ⟨x, hx, y, hy, hne, hxy⟩ := Finset.exists_ne_map_eq_of_card_lt_of_maps_to
    (s := Finset.range (S.card + 1)) (t := S) (by rw [Finset.card_range]; omega)
    (f := fun i => (follow next)^[i] a) fun i _ => hmem i
  wlog hlt : x < y generalizing x y
  · exact this y hy x hx hne.symm hxy.symm (by omega)
  rw [Finset.mem_range] at hx hy
  obtain ⟨d, rfl⟩ := Nat.exists_eq_add_of_lt hlt
  have hper : ∀ j, (follow next)^[j] ((follow next)^[x] a) =
      (follow next)^[j % (d + 1)] ((follow next)^[x] a) := fun j => by
    refine (Function.IsPeriodicPt.iterate_mod_apply ?_ j).symm
    rw [Function.IsPeriodicPt, Function.IsFixedPt, ← Function.iterate_add_apply, Nat.add_comm,
      ← Nat.add_assoc]
    exact hxy.symm
  -- `p` comes again after `x`
  have hagain : (follow next)^[x * c] p = p := Function.IsPeriodicPt.const_mul hcyc x
  have hlater : (follow next)^[m + x * c - x] ((follow next)^[x] a) = p := by
    have hle : x ≤ m + x * c := (Nat.le_mul_of_pos_right x hcpos).trans (Nat.le_add_left _ _)
    rw [← Function.iterate_add_apply, Nat.sub_add_cancel hle, Nat.add_comm, hafter, hagain]
  have hlt := Nat.mod_lt (m + x * c - x) (Nat.succ_pos d)
  rw [hper] at hlater
  generalize (m + x * c - x) % (d + 1) = i at hlt hlater
  refine ⟨hall, i + x, i + (d + 1) + x, by omega, by omega, ?_, ?_⟩
  · rw [Function.iterate_add_apply, hlater]
  · rw [Function.iterate_add_apply, hper, Nat.add_mod_right, Nat.mod_eq_of_lt hlt, hlater]

/-- The exact form, for a walk of at least `2 * N` steps. -/
theorem visited_filter_nodup {P : α → Prop} [DecidablePred P] {S : Finset α}
    (hS : ∀ a ∈ S, ∀ b, next a = some b → b ∈ S) (ha : a ∈ S) (hk : 2 * S.card ≤ k) :
    ((visited next k a).filter P).Nodup ↔
      ∀ p, ReflTransGen (Leads next) a p → TransGen (Leads next) p p → ¬ P p := by
  rw [List.Nodup, List.pairwise_filter]
  simp only [decide_eq_true_eq]
  constructor
  · intro h p hp hc hP
    obtain ⟨hall, i, j, hij, hj, hi, hjp⟩ := exists_twice hS ha hp hc
    rw [visited_eq_map fun i _ => hall i, List.pairwise_iff_getElem] at h
    have hne := h i j (by simp; omega) (by simp; omega) hij
    simp only [List.getElem_map, List.getElem_range, hi, hjp] at hne
    exact hne hP hP rfl
  · exact visited_pairwise

end HydraAmix.Pointers
