import Mathlib.Data.Nat.Notation
import Mathlib.Logic.Function.Basic

/-!
# Ownership of message blocks

A routine owns the blocks of the messages that it was given and of those that it
allocates, until it frees a block or passes it on. `broken` notes that it freed,
touched or passed a block that it did not own any more. A message is its first
block and the chain behind it, as the link in the first block has it: freeing
the chain leaves that link as it is.
-/
namespace HydraAmix.Blocks

/-- Where a block is. -/
inductive Place where
  | owned
  | freed
  | passed
  deriving DecidableEq, Repr

/-- The blocks, numbered; the first blocks of the messages that were passed to
where replies go; and the allocations so far. -/
structure Heap where
  place : ℕ → Place
  cont : ℕ → List ℕ
  len : ℕ → ℕ
  next : ℕ
  asked : ℕ
  sent : List ℕ
  broken : Bool

namespace Heap

/-- A message of one block and a chain of blocks with these lengths. -/
def message (lens : List ℕ) : Heap where
  place := fun _ => .owned
  cont := fun b => if b = 0 then List.range' 1 lens.length else []
  len := fun b => if b = 0 then 0 else lens.getD (b - 1) 0
  next := lens.length + 1
  asked := 0
  sent := []
  broken := false

def touch (h : Heap) (b : ℕ) : Heap :=
  { h with broken := h.broken || decide (h.place b ≠ .owned) }

/-- The block leaves its owner. -/
def leave (h : Heap) (p : Place) (b : ℕ) : Heap :=
  { h.touch b with place := Function.update h.place b p }

def freeb (h : Heap) (b : ℕ) : Heap := h.leave .freed b

def freemsg (h : Heap) (bs : List ℕ) : Heap := bs.foldl freeb h

/-- The link of a first block is set. -/
def setCont (h : Heap) (mp : ℕ) (bs : List ℕ) : Heap :=
  { h.touch mp with cont := Function.update h.cont mp bs }

/-- `qreply`, and `putnext` of what is no reply. -/
def pass (h : Heap) (mp : ℕ) : Heap := (mp :: h.cont mp).foldl (fun h b => h.leave .passed b) h

/-- `putnext` towards the sender of a request. -/
def putnext (h : Heap) (mp : ℕ) : Heap := { h.pass mp with sent := h.sent ++ [mp] }

/-- `allocb`. -/
def allocb (alloc : ℕ → Bool) (h : Heap) : Option ℕ × Heap :=
  if alloc h.asked then
    (some h.next, { h with
      place := Function.update h.place h.next .owned
      cont := Function.update h.cont h.next []
      next := h.next + 1
      asked := h.asked + 1 })
  else (none, { h with asked := h.asked + 1 })

/-! ### What blocks do to the heap -/

section
variable {h : Heap} {mp : ℕ} {bs : List ℕ}

theorem touch_owned (ho : h.place mp = .owned) : h.touch mp = h := by
  rw [touch, ho, decide_eq_false (not_not.mpr rfl), Bool.or_false]

theorem touch_lost (ho : h.place mp ≠ .owned) : (h.touch mp).broken = true := by
  rw [touch, decide_eq_true ho, Bool.or_true]

theorem touch_broken (hb : h.broken = true) (b : ℕ) : (h.touch b).broken = true := by
  rw [touch, hb, Bool.true_or]

/-- The places after some blocks left. -/
def moved (place : ℕ → Place) (p : Place) (bs : List ℕ) (b : ℕ) : Place :=
  if b ∈ bs then p else place b

theorem foldl_leave (p : Place) (hn : bs.Nodup) (ho : ∀ b ∈ bs, h.place b = .owned) :
    bs.foldl (fun h b => h.leave p b) h = { h with place := moved h.place p bs } := by
  induction bs generalizing h with
  | nil =>
      rw [List.foldl_nil, show moved h.place p [] = h.place from
        funext fun _ => if_neg List.not_mem_nil]
  | cons b bs ih =>
      obtain ⟨hb, hn⟩ := List.nodup_cons.mp hn
      rw [List.foldl_cons, ih hn, leave, touch_owned (ho b List.mem_cons_self)]
      · congr 1
        funext x
        dsimp only [moved]
        by_cases hx : x = b
        · subst hx
          rw [if_neg hb, Function.update_self, if_pos List.mem_cons_self]
        · rw [Function.update_of_ne hx]
          exact if_congr ⟨List.mem_cons_of_mem b, fun hm =>
            (List.mem_cons.mp hm).resolve_left hx⟩ rfl rfl
      · intro x hx
        dsimp only [leave]
        rw [Function.update_of_ne fun he : x = b => hb (he ▸ hx)]
        exact ho x (List.mem_cons_of_mem b hx)

theorem foldl_leave_broken (p : Place) (bs : List ℕ) (hb : h.broken = true) :
    (bs.foldl (fun h b => h.leave p b) h).broken = true := by
  induction bs generalizing h with
  | nil => exact hb
  | cons b bs ih => exact ih (touch_broken hb b)

theorem foldl_leave_lost (p : Place) {b : ℕ} (ho : h.place b ≠ .owned) (bs : List ℕ) :
    ((b :: bs).foldl (fun h b => h.leave p b) h).broken = true :=
  foldl_leave_broken p bs (touch_lost ho)

theorem foldl_leave_place (p : Place) (bs : List ℕ) (b : ℕ) :
    (bs.foldl (fun h b => h.leave p b) h).place b = moved h.place p bs b := by
  induction bs generalizing h with
  | nil => exact (if_neg List.not_mem_nil).symm
  | cons x bs ih =>
      rw [List.foldl_cons, ih]
      dsimp only [moved, leave]
      by_cases hm : b ∈ bs
      · rw [if_pos hm, if_pos (List.mem_cons_of_mem x hm)]
      · rw [if_neg hm]
        by_cases hx : b = x
        · rw [hx, Function.update_self, if_pos List.mem_cons_self]
        · rw [Function.update_of_ne hx]
          exact (if_neg fun h => (List.mem_cons.mp h).elim hx hm).symm

theorem foldl_leave_asked (p : Place) (bs : List ℕ) (h : Heap) :
    (bs.foldl (fun h b => h.leave p b) h).asked = h.asked := by
  induction bs generalizing h with
  | nil => rfl
  | cons b bs ih => exact ih (h.leave p b)

theorem putnext_asked (h : Heap) (mp : ℕ) : (h.putnext mp).asked = h.asked :=
  foldl_leave_asked .passed _ h

theorem putnext_place (h : Heap) (mp : ℕ) : (h.putnext mp).place mp = .passed :=
  (foldl_leave_place .passed _ mp).trans (if_pos List.mem_cons_self)

theorem pass_place (h : Heap) (mp : ℕ) : (h.pass mp).place mp = .passed :=
  (foldl_leave_place .passed _ mp).trans (if_pos List.mem_cons_self)

theorem freemsg_owned (hn : bs.Nodup) (ho : ∀ b ∈ bs, h.place b = .owned) :
    h.freemsg bs = { h with place := moved h.place .freed bs } := foldl_leave .freed hn ho

theorem putnext_owned (hn : (mp :: h.cont mp).Nodup)
    (ho : ∀ b ∈ mp :: h.cont mp, h.place b = .owned) :
    h.putnext mp = { h with
      place := moved h.place .passed (mp :: h.cont mp), sent := h.sent ++ [mp] } := by
  rw [putnext, pass, foldl_leave .passed hn ho]

theorem putnext_broken (hb : h.broken = true) (mp : ℕ) : (h.putnext mp).broken = true :=
  foldl_leave_broken .passed _ hb

theorem freemsg_broken (hb : h.broken = true) (bs : List ℕ) : (h.freemsg bs).broken = true :=
  foldl_leave_broken .freed bs hb

end

end Heap
end HydraAmix.Blocks
