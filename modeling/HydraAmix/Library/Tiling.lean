import Mathlib.Data.Set.Lattice
import Mathlib.Data.List.Pairwise
import Mathlib.Order.CompletePartialOrder
import Mathlib.Tactic.Tauto

/-!
# A whole tiled by a free part and blocks

The free part and the blocks are disjoint and together make up the whole. A
block is cut out of the free part or given back to it; once every block was
given back the free part is the whole again.
-/
namespace HydraAmix.Tiling

variable {α : Type}

structure Tiles (whole free : Set α) (blocks : List (Set α)) : Prop where
  apart : (free :: blocks).Pairwise Disjoint
  covers : ∀ x, x ∈ whole ↔ x ∈ free ∨ ∃ b ∈ blocks, x ∈ b

variable {whole free : Set α} {blocks blocks' : List (Set α)}

theorem tiles_all_free (whole : Set α) : Tiles whole whole [] where
  apart := List.pairwise_singleton _ _
  covers x := by simp

namespace Tiles

theorem perm (h : Tiles whole free blocks) (hp : blocks.Perm blocks') :
    Tiles whole free blocks' where
  apart := (hp.cons free).pairwise h.apart fun hd => hd.symm
  covers x := by
    rw [h.covers x]
    simp only [hp.mem_iff]

theorem disjoint_free (h : Tiles whole free blocks) {b : Set α} (hb : b ∈ blocks) :
    Disjoint free b := (List.pairwise_cons.mp h.apart).1 b hb

theorem pairwise (h : Tiles whole free blocks) : blocks.Pairwise Disjoint :=
  (List.pairwise_cons.mp h.apart).2

theorem free_subset (h : Tiles whole free blocks) : free ⊆ whole :=
  fun x hx => (h.covers x).mpr (.inl hx)

theorem block_subset (h : Tiles whole free blocks) {b : Set α} (hb : b ∈ blocks) : b ⊆ whole :=
  fun x hx => (h.covers x).mpr (.inr ⟨b, hb, hx⟩)

/-- A block is cut out of the free part. -/
theorem take (h : Tiles whole free blocks) {b : Set α} (hb : b ⊆ free) :
    Tiles whole (free \ b) (b :: blocks) where
  apart := by
    refine List.pairwise_cons.mpr ⟨fun c hc => ?_,
      List.pairwise_cons.mpr ⟨fun c hc => ?_, h.pairwise⟩⟩
    · rcases List.mem_cons.mp hc with rfl | hc
      · exact Set.disjoint_sdiff_left
      · exact (h.disjoint_free hc).mono_left Set.sdiff_subset
    · exact (h.disjoint_free hc).mono_left hb
  covers x := by
    rw [h.covers x]
    by_cases hx : x ∈ b
    · have hfree := hb hx
      simp [hx, hfree]
    · simp [hx]

/-- A block is given back. -/
theorem give {b : Set α} (h : Tiles whole free (b :: blocks)) :
    Tiles whole (free ∪ b) blocks where
  apart := by
    refine List.pairwise_cons.mpr ⟨fun c hc => ?_, (List.pairwise_cons.mp h.pairwise).2⟩
    exact Set.disjoint_union_left.mpr ⟨h.disjoint_free (List.mem_cons_of_mem b hc),
      (List.pairwise_cons.mp h.pairwise).1 c hc⟩
  covers x := by
    rw [h.covers x]
    simp only [List.mem_cons, Set.mem_union, exists_eq_or_imp]
    tauto

theorem free_eq (h : Tiles whole free []) : free = whole := by
  ext x
  rw [h.covers x]
  simp

end Tiles

end HydraAmix.Tiling
