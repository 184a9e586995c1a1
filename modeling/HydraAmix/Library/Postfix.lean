import Mathlib.Data.Nat.Notation
import Mathlib.Data.Nat.Init
import Mathlib.Tactic.TypeStar

/-!
# Postfix code on a stack

A tree is worked out by the instructions of its nodes, the operands before the operator.
Running them leaves the value of the tree on the stack, and the most values that are on the
stack at once depend on the shape of the tree alone.
-/
namespace HydraAmix.Postfix

inductive Tree (α β γ : Type*) where
  | leaf (a : α)
  | unary (f : β) (x : Tree α β γ)
  | binary (g : γ) (l r : Tree α β γ)

inductive Instr (α β γ : Type*) where
  | load (a : α)
  | unary (f : β)
  | binary (g : γ)

/-- What the leaves and the operators stand for. -/
structure Machine (α β γ V : Type*) where
  leaf : α → Option V
  unary : β → V → Option V
  binary : γ → V → V → Option V

variable {α β γ V : Type*}

namespace Machine

variable (M : Machine α β γ V)

def step : Instr α β γ → List V → Option (List V)
  | .load a, stack => (M.leaf a).map (· :: stack)
  | .unary f, a :: stack => (M.unary f a).map (· :: stack)
  | .binary g, b :: a :: stack => (M.binary g a b).map (· :: stack)
  | _, _ => none

def run : List (Instr α β γ) → List V → Option (List V)
  | [], stack => some stack
  | i :: p, stack => (M.step i stack).bind (run p)

/-- The most values that are on the stack at once. -/
def peak : List (Instr α β γ) → List V → ℕ
  | [], stack => stack.length
  | i :: p, stack => max stack.length ((M.step i stack).elim 0 (peak p))

end Machine

namespace Tree

def code : Tree α β γ → List (Instr α β γ)
  | leaf a => [.load a]
  | unary f x => x.code ++ [.unary f]
  | binary g l r => l.code ++ (r.code ++ [.binary g])

def value (M : Machine α β γ V) : Tree α β γ → Option V
  | leaf a => M.leaf a
  | unary f x => (x.value M).bind (M.unary f)
  | binary g l r => (l.value M).bind fun a => (r.value M).bind (M.binary g a)

/-- How many values have to be kept; the left operand waits for the right one. -/
def depth : Tree α β γ → ℕ
  | leaf _ => 1
  | unary _ x => x.depth
  | binary _ l r => max l.depth (r.depth + 1)

theorem depth_pos (x : Tree α β γ) : 0 < x.depth := by
  induction x with
  | leaf a => exact Nat.one_pos
  | unary f x ih => exact ih
  | binary g l r ihl ihr => exact Nat.lt_of_lt_of_le ihl (Nat.le_max_left ..)

end Tree

variable (M : Machine α β γ V)

/-- The code of a tree leaves its value on the stack. -/
theorem run_code (x : Tree α β γ) (p : List (Instr α β γ)) (stack : List V) :
    M.run (x.code ++ p) stack = (x.value M).bind fun v => M.run p (v :: stack) := by
  induction x generalizing p stack with
  | leaf a =>
      change ((M.leaf a).map (· :: stack)).bind (M.run p) = _
      rw [Option.bind_map]
      rfl
  | unary f x ih =>
      unfold Tree.code Tree.value
      rw [List.append_assoc, ih, Option.bind_assoc]
      refine congrArg _ (funext fun a => ?_)
      change ((M.unary f a).map (· :: stack)).bind (M.run p) = _
      rw [Option.bind_map]
      rfl
  | binary g l r ihl ihr =>
      unfold Tree.code Tree.value
      rw [List.append_assoc, List.append_assoc, ihl, Option.bind_assoc]
      refine congrArg _ (funext fun a => ?_)
      rw [ihr, Option.bind_assoc]
      refine congrArg _ (funext fun b => ?_)
      change ((M.binary g a b).map (· :: stack)).bind (M.run p) = _
      rw [Option.bind_map]
      rfl

theorem run_code_nil (x : Tree α β γ) : M.run x.code [] = (x.value M).map ([·]) := by
  have h := run_code M x [] []
  rw [List.append_nil] at h
  rw [h]
  cases x.value M <;> rfl

variable {M}

theorem length_le_peak (p : List (Instr α β γ)) (stack : List V) :
    stack.length ≤ M.peak p stack := by
  cases p with
  | nil => exact Nat.le_refl _
  | cons i p => exact Nat.le_max_left ..

/-- While a tree is worked out the stack grows by the depth of the tree. -/
theorem peak_code {x : Tree α β γ} {v : V} (h : x.value M = some v) (p : List (Instr α β γ))
    (stack : List V) :
    M.peak (x.code ++ p) stack = max (stack.length + x.depth) (M.peak p (v :: stack)) := by
  induction x generalizing v p stack with
  | leaf a =>
      have hstep : M.step (.load a) stack = some (v :: stack) := by
        change (M.leaf a).map _ = _
        rw [show M.leaf a = some v from h]
        rfl
      have hle := length_le_peak (M := M) p (v :: stack)
      change max stack.length ((M.step (.load a) stack).elim 0 (M.peak p)) =
        max (stack.length + 1) _
      rw [hstep, Option.elim_some]
      rw [List.length_cons] at hle
      omega
  | unary f x ih =>
      obtain ⟨a, ha, hv⟩ := Option.bind_eq_some_iff.mp h
      have hstep : M.step (.unary f) (a :: stack) = some (v :: stack) := by
        change (M.unary f a).map _ = _
        rw [hv]
        rfl
      have hpos := x.depth_pos
      unfold Tree.code Tree.depth
      rw [List.append_assoc, ih ha]
      change max _ (max (stack.length + 1) ((M.step (.unary f) (a :: stack)).elim 0 (M.peak p))) = _
      rw [hstep, Option.elim_some]
      omega
  | binary g l r ihl ihr =>
      obtain ⟨a, ha, hr⟩ := Option.bind_eq_some_iff.mp h
      obtain ⟨b, hb, hv⟩ := Option.bind_eq_some_iff.mp hr
      have hstep : M.step (.binary g) (b :: a :: stack) = some (v :: stack) := by
        change (M.binary g a b).map _ = _
        rw [hv]
        rfl
      have hpos := r.depth_pos
      unfold Tree.code Tree.depth
      rw [List.append_assoc, List.append_assoc, ihl ha, ihr hb]
      change max _ (max (stack.length + 1 + r.depth) (max (stack.length + 1 + 1)
        ((M.step (.binary g) (b :: a :: stack)).elim 0 (M.peak p)))) = _
      rw [hstep, Option.elim_some]
      omega

theorem peak_code_nil {x : Tree α β γ} {v : V} (h : x.value M = some v) :
    M.peak x.code [] = x.depth := by
  have hpos := x.depth_pos
  have hpeak := peak_code h [] []
  rw [List.append_nil] at hpeak
  rw [hpeak]
  change max (0 + x.depth) 1 = x.depth
  omega

end HydraAmix.Postfix
