import HydraAmix.Assembler.As65
import HydraAmix.Library.Postfix

/-!
# Expressions

The rules for `expr` in the grammar, whose actions leave the operators and operands of an
expression in `ebuf`, the operands first. The tree of an expression follows the rules, so
the operators of one level are gathered to the left. Its value is that of 32-bit unsigned
arithmetic, in which a shift by 32 bits or more leaves nothing.

What `evaluate` does with its array is what a stack machine does with a stack that has no
end, as long as the stack does not get longer than the array.
-/
namespace HydraAmix.Assembler
open Word Postfix

inductive Nonterminal where
  | shift
  | term
  | factor
  | unary
  | primary

/-- The rules. -/
inductive Expr : Nonterminal → Type where
  | lshift (l : Expr .shift) (r : Expr .term) : Expr .shift
  | rshift (l : Expr .shift) (r : Expr .term) : Expr .shift
  | ofTerm (x : Expr .term) : Expr .shift
  | add (l : Expr .term) (r : Expr .factor) : Expr .term
  | sub (l : Expr .term) (r : Expr .factor) : Expr .term
  | ofFactor (x : Expr .factor) : Expr .term
  | mul (l : Expr .factor) (r : Expr .unary) : Expr .factor
  | div (l : Expr .factor) (r : Expr .unary) : Expr .factor
  | ofUnary (x : Expr .unary) : Expr .factor
  | neg (x : Expr .unary) : Expr .unary
  | ofPrimary (x : Expr .primary) : Expr .unary
  | paren (x : Expr .shift) : Expr .primary
  | symbol (s : Symbol) : Expr .primary
  | constant (c : Long) : Expr .primary

/-! ### The actions -/

/-- `ebuf` with an item more; `etoobig` when it is full. -/
def store (i : Item) (ebuf : List Item) : Option (List Item) :=
  if ebuf.length + 1 = 20 then none else some (ebuf ++ [i])

def efunction (f : Func) (ebuf : List Item) : Option (List Item) := store (.func f) ebuf

def esymbol (s : Symbol) (ebuf : List Item) : Option (List Item) := store (.sym s) ebuf

def econstant (c : Long) (ebuf : List Item) : Option (List Item) := store (.const c) ebuf

namespace Expr

/-- What the parser calls for an expression, in its order. -/
def actions {n : Nonterminal} : Expr n → List Item → Option (List Item)
  | lshift l r, b => ((l.actions b).bind r.actions).bind (efunction .lshift)
  | rshift l r, b => ((l.actions b).bind r.actions).bind (efunction .rshift)
  | ofTerm x, b => x.actions b
  | add l r, b => ((l.actions b).bind r.actions).bind (efunction .add)
  | sub l r, b => ((l.actions b).bind r.actions).bind (efunction .sub)
  | ofFactor x, b => x.actions b
  | mul l r, b => ((l.actions b).bind r.actions).bind (efunction .mul)
  | div l r, b => ((l.actions b).bind r.actions).bind (efunction .div)
  | ofUnary x, b => x.actions b
  | neg x, b => (x.actions b).bind (efunction .neg)
  | ofPrimary x, b => x.actions b
  | paren x, b => x.actions b
  | symbol s, b => esymbol s b
  | constant c, b => econstant c b

/-- `expression`, after the parser got through. -/
def expression (e : Expr .shift) : Option (List Item) := e.actions []

def tree {n : Nonterminal} : Expr n → Tree Item Unit Func
  | lshift l r => .binary .lshift l.tree r.tree
  | rshift l r => .binary .rshift l.tree r.tree
  | ofTerm x => x.tree
  | add l r => .binary .add l.tree r.tree
  | sub l r => .binary .sub l.tree r.tree
  | ofFactor x => x.tree
  | mul l r => .binary .mul l.tree r.tree
  | div l r => .binary .div l.tree r.tree
  | ofUnary x => x.tree
  | neg x => .unary () x.tree
  | ofPrimary x => x.tree
  | paren x => x.tree
  | symbol s => .leaf (.sym s)
  | constant c => .leaf (.const c)

end Expr

/-! ### The meaning -/

/-- The operators in 32-bit unsigned arithmetic. -/
def Func.meaning (a b : Long) : Func → Option Long
  | .add => some (a + b)
  | .sub => some (a - b)
  | .mul => some (a * b)
  | .div => if b = 0 then none else some (a / b)
  | .lshift => some (a <<< b.toNat)
  | .rshift => some (a >>> b.toNat)
  | .neg => none

def Item.operand (syms : Symbols) : Item → Option Long
  | .func _ => none
  | .sym s => (syms s).map Label.value
  | .const c => some c

def arithmetic (syms : Symbols) : Machine Item Unit Func Long where
  leaf i := i.operand syms
  unary _ a := some (-a)
  binary f a b := f.meaning a b

/-- The value of an expression whose symbols are defined and that divides by no zero. -/
def Expr.value (syms : Symbols) (e : Expr .shift) : Option Long := e.tree.value (arithmetic syms)

/-- No shift is by 32 bits or more. -/
def ShiftsFit (syms : Symbols) : Tree Item Unit Func → Prop
  | .leaf _ => True
  | .unary _ x => ShiftsFit syms x
  | .binary f l r =>
      ShiftsFit syms l ∧ ShiftsFit syms r ∧
        (f = .lshift ∨ f = .rshift → ∀ b ∈ r.value (arithmetic syms), b.toNat < 32)

/-! ### The loop of `evaluate` -/

/-- The operators as `evaluate` works them out. -/
def machine (syms : Symbols) : Machine Item Unit Func Long where
  leaf i := i.operand syms
  unary _ a := some (-a)
  binary f a b := f.binary a b

def Item.instr : Item → Postfix.Instr Item Unit Func
  | .func .neg => .unary ()
  | .func f => .binary f
  | i => .load i

/-- `evaluate` uses the elements from 0 to 4, ends with one value and returns `v`. -/
structure Evaluates (syms : Symbols) (p : List Item) (v : Long) : Prop where
  within : (machine syms).peak (p.map Item.instr) [] ≤ 5
  one : (machine syms).run (p.map Item.instr) [] = some [v]
  returns : evaluate syms p [] = some v

variable {syms : Symbols}

theorem app_step (syms : Symbols) (f : Func) (stack : List Long) :
    f.app stack = (machine syms).step (Item.func f).instr stack := by
  cases f <;> rcases stack with _ | ⟨b, _ | ⟨a, stack⟩⟩ <;> rfl

/-- On a stack that stays short the array is as good as a stack without an end. -/
theorem evaluate_run {p : List Item} {stack : List Long}
    (h : (machine syms).peak (p.map Item.instr) stack ≤ 5) :
    evaluate syms p stack = ((machine syms).run (p.map Item.instr) stack).bind List.head? := by
  induction p generalizing stack with
  | nil => rfl
  | cons i p ih =>
      have hpush (v : Long) (hv : (machine syms).peak (p.map Item.instr) (v :: stack) ≤ 5) :
          push v stack = some (v :: stack) :=
        if_pos (Nat.le_trans (length_le_peak (p.map Item.instr) (v :: stack)) hv)
      have hrest := Nat.le_trans (Nat.le_max_right ..) h
      cases i with
      | func f =>
          change (f.app stack).bind (evaluate syms p) =
            (((machine syms).step (Item.func f).instr stack).bind _).bind _
          rw [app_step syms]
          cases hstep : (machine syms).step (Item.func f).instr stack with
          | none => rfl
          | some stack' =>
              rw [hstep] at hrest
              exact ih hrest
      | sym s =>
          change ((syms s).bind _) = (((((syms s).map Label.value).map (· :: stack)).bind _).bind _)
          cases hs : syms s with
          | none => rfl
          | some x =>
              have hstep : (machine syms).step (Item.sym s).instr stack =
                  some (x.value :: stack) := by
                change ((syms s).map _).map _ = _
                rw [hs]
                rfl
              rw [hstep] at hrest
              change (push x.value stack).bind _ = _
              rw [hpush _ hrest]
              exact ih hrest
      | const c =>
          change (push c stack).bind _ = _
          rw [hpush c hrest]
          exact ih hrest

/-! ### The code and the value of an expression -/

theorem store_instr {i : Item} {b p : List Item} (h : store i b = some p) :
    p.map Item.instr = b.map Item.instr ++ [i.instr] := by
  unfold store at h
  split at h
  · exact absurd h.symm (Option.some_ne_none p)
  · rw [← Option.some.inj h, List.map_append]
    rfl

theorem actions_binary {m n : Nonterminal} {l : Expr m} {r : Expr n} {f : Func}
    (hf : (Item.func f).instr = .binary f)
    (ihl : ∀ {b p}, l.actions b = some p → p.map Item.instr = b.map Item.instr ++ l.tree.code)
    (ihr : ∀ {b p}, r.actions b = some p → p.map Item.instr = b.map Item.instr ++ r.tree.code)
    {b p : List Item} (h : ((l.actions b).bind r.actions).bind (efunction f) = some p) :
    p.map Item.instr = b.map Item.instr ++ (Tree.binary f l.tree r.tree).code := by
  obtain ⟨d, hd, hp⟩ := Option.bind_eq_some_iff.mp h
  obtain ⟨c, hc, hd⟩ := Option.bind_eq_some_iff.mp hd
  rw [store_instr hp, ihr hd, ihl hc, hf, List.append_assoc, List.append_assoc]
  rfl

/-- The parser makes the code of the tree. -/
theorem actions_code {n : Nonterminal} {e : Expr n} {b p : List Item} (h : e.actions b = some p) :
    p.map Item.instr = b.map Item.instr ++ e.tree.code := by
  induction e generalizing b p with
  | lshift l r ihl ihr => exact actions_binary rfl ihl ihr h
  | rshift l r ihl ihr => exact actions_binary rfl ihl ihr h
  | add l r ihl ihr => exact actions_binary rfl ihl ihr h
  | sub l r ihl ihr => exact actions_binary rfl ihl ihr h
  | mul l r ihl ihr => exact actions_binary rfl ihl ihr h
  | div l r ihl ihr => exact actions_binary rfl ihl ihr h
  | neg x ih =>
      obtain ⟨c, hc, hp⟩ := Option.bind_eq_some_iff.mp h
      rw [store_instr hp, ih hc, List.append_assoc]
      rfl
  | ofTerm x ih => exact ih h
  | ofFactor x ih => exact ih h
  | ofUnary x ih => exact ih h
  | ofPrimary x ih => exact ih h
  | paren x ih => exact ih h
  | symbol s => exact store_instr h
  | constant c => exact store_instr h

theorem binary_iff {f : Func} {a b v : Long} :
    f.binary a b = some v ↔
      f.meaning a b = some v ∧ (f = .lshift ∨ f = .rshift → b.toNat < 32) := by
  have hshift (x : Long) : (if b.toNat < 32 then some x else none) = some v ↔
      some x = some v ∧ b.toNat < 32 := by
    by_cases h : b.toNat < 32
    · rw [if_pos h, and_iff_left h]
    · rw [if_neg h]
      exact ⟨fun hx => absurd hx.symm (Option.some_ne_none v), fun hx => absurd hx.2 h⟩
  cases f with
  | lshift => exact (hshift _).trans (and_congr_right fun _ => ⟨fun h _ => h, fun h => h (.inl rfl)⟩)
  | rshift => exact (hshift _).trans (and_congr_right fun _ => ⟨fun h _ => h, fun h => h (.inr rfl)⟩)
  | add | sub | mul | div | neg =>
      exact ⟨fun h => ⟨h, by simp⟩, fun h => h.1⟩

/-- `evaluate` works out what the expression means, but for long shifts. -/
theorem machine_value {x : Tree Item Unit Func} {v : Long} :
    x.value (machine syms) = some v ↔
      x.value (arithmetic syms) = some v ∧ ShiftsFit syms x := by
  induction x generalizing v with
  | leaf i => exact (and_iff_left trivial).symm
  | unary f x ih =>
      unfold Tree.value ShiftsFit
      constructor
      · intro h
        obtain ⟨a, ha, hv⟩ := Option.bind_eq_some_iff.mp h
        exact ⟨Option.bind_eq_some_iff.mpr ⟨a, (ih.mp ha).1, hv⟩, (ih.mp ha).2⟩
      · rintro ⟨h, hfit⟩
        obtain ⟨a, ha, hv⟩ := Option.bind_eq_some_iff.mp h
        exact Option.bind_eq_some_iff.mpr ⟨a, ih.mpr ⟨ha, hfit⟩, hv⟩
  | binary f l r ihl ihr =>
      unfold Tree.value ShiftsFit
      constructor
      · intro h
        obtain ⟨a, ha, h⟩ := Option.bind_eq_some_iff.mp h
        obtain ⟨b, hb, hv⟩ := Option.bind_eq_some_iff.mp h
        obtain ⟨hl, hfitl⟩ := ihl.mp ha
        obtain ⟨hr, hfitr⟩ := ihr.mp hb
        obtain ⟨hmeaning, hlt⟩ := binary_iff.mp hv
        refine ⟨Option.bind_eq_some_iff.mpr ⟨a, hl, Option.bind_eq_some_iff.mpr
          ⟨b, hr, hmeaning⟩⟩, hfitl, hfitr, fun hf c hc => ?_⟩
        rw [← Option.some.inj (hr.symm.trans hc)]
        exact hlt hf
      · rintro ⟨h, hfitl, hfitr, hlt⟩
        obtain ⟨a, ha, h⟩ := Option.bind_eq_some_iff.mp h
        obtain ⟨b, hb, hv⟩ := Option.bind_eq_some_iff.mp h
        exact Option.bind_eq_some_iff.mpr ⟨a, ihl.mpr ⟨ha, hfitl⟩, Option.bind_eq_some_iff.mpr
          ⟨b, ihr.mpr ⟨hb, hfitr⟩, binary_iff.mpr ⟨hv, fun hf => hlt hf b hb⟩⟩⟩

/-- The array is long enough for an expression if five values are enough for it. -/
theorem evaluate_iff {e : Expr .shift} {p : List Item} {v : Long} (hp : e.expression = some p)
    (hv : e.value syms = some v) :
    Evaluates syms p v ↔ e.tree.depth ≤ 5 ∧ ShiftsFit syms e.tree := by
  have hcode : p.map Item.instr = e.tree.code := actions_code hp
  have hrun : (machine syms).run (p.map Item.instr) [] =
      (e.tree.value (machine syms)).map ([·]) := by rw [hcode, run_code_nil]
  constructor
  · intro h
    have hvalue : e.tree.value (machine syms) = some v := by
      obtain ⟨w, hw, hone⟩ := Option.map_eq_some_iff.mp (hrun.symm.trans h.one)
      rw [hw, (List.cons.inj hone).1]
    refine ⟨?_, (machine_value.mp hvalue).2⟩
    rw [← peak_code_nil hvalue, ← hcode]
    exact h.within
  · rintro ⟨hdepth, hfit⟩
    have hvalue : e.tree.value (machine syms) = some v := machine_value.mpr ⟨hv, hfit⟩
    have hwithin : (machine syms).peak (p.map Item.instr) [] ≤ 5 := by
      rw [hcode, peak_code_nil hvalue]
      exact hdepth
    have hone : (machine syms).run (p.map Item.instr) [] = some [v] := by
      rw [hrun, hvalue]
      rfl
    refine ⟨hwithin, hone, ?_⟩
    rw [evaluate_run hwithin, hone]
    rfl

/-- `c`. -/
abbrev Expr.number (c : Long) : Expr .shift :=
  .ofTerm (.ofFactor (.ofUnary (.ofPrimary (.constant c))))

/-- `c+(x)`. -/
abbrev Expr.plus (c : Long) (x : Expr .shift) : Expr .shift :=
  .ofTerm (.add (.ofFactor (.ofUnary (.ofPrimary (.constant c)))) (.ofUnary (.ofPrimary (.paren x))))

/-- `1+(2+(3+(4+5)))`. -/
theorem evaluate_iff_nested :
    Evaluates (fun _ => none) [.const 1, .const 2, .const 3, .const 4, .const 5, .func .add,
      .func .add, .func .add, .func .add] 15 :=
  (evaluate_iff (e := .plus 1 (.plus 2 (.plus 3 (.plus 4 (.number 5))))) rfl rfl).mpr
    ⟨by decide, by simp [ShiftsFit, Expr.tree]⟩

/-- `1+(2+(3+(4+(5+6))))` takes a sixth element. -/
theorem evaluate_wrong :
    ∃ p, (Expr.plus 1 (.plus 2 (.plus 3 (.plus 4 (.plus 5 (.number 6)))))).expression = some p ∧
      (Expr.plus 1 (.plus 2 (.plus 3 (.plus 4 (.plus 5 (.number 6)))))).value (fun _ => none) =
        some 21 ∧ p.length ≤ 19 ∧ ¬ Evaluates (fun _ => none) p 21 := by
  refine ⟨_, rfl, rfl, by decide, fun h => ?_⟩
  have hnone : evaluate (fun _ => none) _ [] = some 21 := h.returns
  exact absurd hnone (by decide)

end HydraAmix.Assembler
