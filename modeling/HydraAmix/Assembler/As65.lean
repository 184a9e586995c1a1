import HydraAmix.Library.Word
import Mathlib.Logic.Function.Basic
import Mathlib.Logic.Function.Iterate

/-!
# The 6502 assembler

What `as65` does with the lines of its input: the table of segments, the symbols with
`sdefine` and `sadjust`, the expressions with `evaluate`, the instructions that `cgen1` and
its siblings make, `longcheck`, `segcheck` and `link`. Line numbers only go into messages
and are left out, and `none` is what `croak` leaves.

A symbol is known by its name, and a local one by its digit and how many labels of that
digit come before its own: `lrefer` finds these by `btab` and `ftab`. Beside its value,
which the assembler keeps up to date, a symbol has its place, the number of instructions of
its segment before it. What C leaves undefined in `evaluate` has no value here: a sixth
entry on its stack, a division by zero and a shift by 32 bits or more. A symbol without a
definition has nothing for `sadjust` to change.
-/
namespace HydraAmix.Assembler
open Word

/-! ### Expressions and symbols -/

inductive Func where
  | add
  | sub
  | mul
  | div
  | neg
  | lshift
  | rshift
deriving DecidableEq

inductive Symbol where
  | name (s : List Char)
  | localLabel (l n : ℕ)
deriving DecidableEq

/-- `struct expr`, up to END. -/
inductive Item where
  | func (f : Func)
  | sym (s : Symbol)
  | const (c : Long)
deriving DecidableEq

/-- `struct sym`, where it is defined. -/
structure Label where
  seg : ℕ
  place : ℕ
  value : Long
deriving DecidableEq

abbrev Symbols := Symbol → Option Label

namespace Func

def binary (a b : Long) : Func → Option Long
  | add => some (a + b)
  | sub => some (a - b)
  | mul => some (a * b)
  | div => if b = 0 then none else some (a / b)
  | lshift => if b.toNat < 32 then some (a <<< b.toNat) else none
  | rshift => if b.toNat < 32 then some (a >>> b.toNat) else none
  | neg => none

/-- What a function does with the stack. -/
def app : Func → List Long → Option (List Long)
  | neg, a :: stack => some (-a :: stack)
  | f, b :: a :: stack => (f.binary a b).map (· :: stack)
  | _, _ => none

end Func

/-- `stack[si++] = v`. -/
def push (v : Long) (stack : List Long) : Option (List Long) :=
  if stack.length < 5 then some (v :: stack) else none

/-- `evaluate`. `svalue` croaks on a symbol that is not defined. -/
def evaluate (syms : Symbols) : List Item → List Long → Option Long
  | [], stack => stack.head?
  | .func f :: p, stack => (f.app stack).bind (evaluate syms p)
  | .sym s :: p, stack => (syms s).bind fun x => (push x.value stack).bind (evaluate syms p)
  | .const c :: p, stack => (push c stack).bind (evaluate syms p)

def eabsolute (p : List Item) : Bool :=
  p.all fun
    | .sym _ => false
    | _ => true

/-- `sadjust`. -/
def sadjust (segment : ℕ) (value incr : Long) (syms : Symbols) : Symbols := fun s =>
  (syms s).map fun x =>
    if x.seg = segment ∧ value < x.value then { x with value := x.value + incr } else x

/-! ### Instructions and segments -/

inductive Kind where
  | noArg
  | short
  | branch
  | long
  | varies
  | data1
  | data2
deriving DecidableEq

def isize : Kind → ℕ
  | .noArg => 1
  | .short => 2
  | .branch => 2
  | .long => 3
  | .varies => 2
  | .data1 => 1
  | .data2 => 2

structure Instr where
  type : Kind
  opcode : Byte
  opcode2 : Byte
  expr : List Item
deriving DecidableEq

/-- `struct seg`, with its number in `segtab` as it was made. -/
structure Seg where
  number : ℕ
  addr : Long
  len : Long
  code : List Instr
deriving DecidableEq

/-! ### The lines -/

/-- A part of an expression as `yylex` finds it. -/
inductive Term where
  | func (f : Func)
  | symbol (s : List Char)
  | backward (l : ℕ)
  | forward (l : ℕ)
  | constant (c : Long)

/-- What the parser calls. -/
inductive Line where
  | segcreate (e : List Term)
  | sdefine (s : List Char)
  | ldefine (l : ℕ)
  | cgen1 (opcode : Byte)
  | cgen2 (opcode : Byte) (e : List Term)
  | cgen2r (opcode : Byte) (e : List Term)
  | cgen3 (opcode : Byte) (e : List Term)
  | cgenx (opcode opcode2 : Byte) (e : List Term)
  | cdata1 (e : List Term)
  | cdata2 (e : List Term)
  | cblock (e : List Term)

/-- The segments before the current one, the current one, the symbols, and how many labels
of a digit there were. -/
structure Table where
  segtab : List Seg
  segment : Seg
  symbols : Symbols
  locals : ℕ → ℕ

namespace Table

/-- `srefer`, `lrefer`. -/
def resolve (t : Table) : Term → Option Item
  | .func f => some (.func f)
  | .symbol s => some (.sym (.name s))
  | .backward l => if t.locals l = 0 then none else some (.sym (.localLabel l (t.locals l - 1)))
  | .forward l => some (.sym (.localLabel l (t.locals l)))
  | .constant c => some (.const c)

/-- `expression`; `ebuf` has room for twenty. -/
def expression (t : Table) (e : List Term) : Option (List Item) :=
  if e.length < 20 then e.mapM t.resolve else none

def newinstr (i : Instr) (t : Table) : Table :=
  { t with
    segment := { t.segment with
      len := t.segment.len + BitVec.ofNat 32 (isize i.type)
      code := t.segment.code ++ [i] } }

def cgen1 (t : Table) (opcode : Byte) : Table := t.newinstr ⟨.noArg, opcode, 0, []⟩

def cgen2 (t : Table) (opcode : Byte) (p : List Item) : Table :=
  t.newinstr ⟨.short, opcode, 0, p⟩

def cgen2r (t : Table) (opcode : Byte) (p : List Item) : Table :=
  t.newinstr ⟨.branch, opcode, 0, p⟩

def cgen3 (t : Table) (opcode : Byte) (p : List Item) : Table :=
  t.newinstr ⟨.long, opcode, 0, p⟩

def cgenx (t : Table) (opcode opcode2 : Byte) (p : List Item) : Table :=
  t.newinstr ⟨.varies, opcode, opcode2, p⟩

def cdata1 (t : Table) (p : List Item) : Table := t.newinstr ⟨.data1, 0, 0, p⟩

def cdata2 (t : Table) (p : List Item) : Table := t.newinstr ⟨.data2, 0, 0, p⟩

def cblock (t : Table) (p : List Item) : Option Table :=
  if eabsolute p then
    (evaluate t.symbols p []).map fun i => (newinstr ⟨.noArg, 0, 0, []⟩)^[i.toNat] t
  else none

/-- `segcreate`. The current segment is flushed. -/
def segcreate (t : Table) (p : List Item) : Option Table :=
  if eabsolute p = true ∧ t.segtab.length + 1 ≠ 9 then
    (evaluate t.symbols p []).map fun a =>
      { t with
        segtab := t.segtab ++ [t.segment]
        segment := ⟨t.segtab.length + 1, a, 0, []⟩ }
  else none

/-- A label at the end of the current segment. -/
def define (t : Table) (s : Symbol) : Table :=
  { t with
    symbols := Function.update t.symbols s (some
      ⟨t.segment.number, t.segment.code.length, t.segment.addr + t.segment.len⟩) }

def sdefine (t : Table) (s : List Char) : Option Table :=
  if (t.symbols (.name s)).isSome then none else some (t.define (.name s))

/-- `ldefine`, `sdeflocal`. -/
def ldefine (t : Table) (l : ℕ) : Option Table :=
  if 10 ≤ l then none
  else
    some { t.define (.localLabel l (t.locals l)) with
      locals := Function.update t.locals l (t.locals l + 1) }

def line (t : Table) : Line → Option Table
  | .segcreate e => (t.expression e).bind t.segcreate
  | .sdefine s => t.sdefine s
  | .ldefine l => t.ldefine l
  | .cgen1 opcode => some (t.cgen1 opcode)
  | .cgen2 opcode e => (t.expression e).map (t.cgen2 opcode)
  | .cgen2r opcode e => (t.expression e).map (t.cgen2r opcode)
  | .cgen3 opcode e => (t.expression e).map (t.cgen3 opcode)
  | .cgenx opcode opcode2 e => (t.expression e).map (t.cgenx opcode opcode2)
  | .cdata1 e => (t.expression e).map t.cdata1
  | .cdata2 e => (t.expression e).map t.cdata2
  | .cblock e => (t.expression e).bind t.cblock

/-- Segment 0 is there from the start. -/
def start : Table where
  segtab := []
  segment := ⟨0, 0, 0, []⟩
  symbols _ := none
  locals _ := 0

/-- `yyparse`. -/
def parse : List Line → Table → Option Table
  | [], t => some t
  | l :: ls, t => (t.line l).bind (parse ls)

/-- The segments, with the current one flushed. -/
def segs (t : Table) : List Seg := t.segtab ++ [t.segment]

end Table

/-! ### `longcheck` -/

/-- Whether an instruction has to become long. -/
def expands (syms : Symbols) (i : Instr) : Option Bool :=
  if i.type = .varies then (evaluate syms i.expr []).map fun v => decide (0xff < v)
  else some false

/-- What `cexpand` leaves. -/
structure Expanded where
  code : List Instr
  symbols : Symbols
  len : Long
  changed : Bool

/-- An instruction is done. -/
def Expanded.cons (i : Instr) (changed : Bool) (r : Expanded) : Expanded :=
  { r with code := i :: r.code, changed := changed || r.changed }

def Instr.expanded (i : Instr) : Instr := { i with type := .long, opcode := i.opcode2 }

/-- `cexpand` in the segment `segment`, whose length is `len`. -/
def cexpand (segment : ℕ) : List Instr → Long → Symbols → Long → Option Expanded
  | [], _, syms, len => some ⟨[], syms, len, false⟩
  | i :: ip, addr, syms, len =>
      (expands syms i).bind fun long =>
        if long then
          (cexpand segment ip (addr + BitVec.ofNat 32 (isize .long)) (sadjust segment addr 1 syms)
            (len + 1)).map (Expanded.cons i.expanded true)
        else
          (cexpand segment ip (addr + BitVec.ofNat 32 (isize i.type)) syms len).map
            (Expanded.cons i false)

/-- The segments and symbols, and whether something changed. -/
structure Pass where
  segs : List Seg
  symbols : Symbols
  changed : Bool

def Pass.cons (s : Seg) (changed : Bool) (p : Pass) : Pass :=
  { p with segs := s :: p.segs, changed := changed || p.changed }

/-- The inner loop of `longcheck`. -/
def pass : List Seg → Symbols → Option Pass
  | [], syms => some ⟨[], syms, false⟩
  | s :: segs, syms =>
      (cexpand s.number s.code s.addr syms s.len).bind fun r =>
        (pass segs r.symbols).map (Pass.cons { s with code := r.code, len := r.len } r.changed)

/-- `longcheck`, with a supply of turns; `none` says that the supply ended before it, and
`some none` that it did not get through. -/
def longcheck : ℕ → List Seg → Symbols → Option (Option (List Seg × Symbols))
  | 0, _, _ => none
  | turns + 1, segs, syms =>
      match pass segs syms with
      | none => some none
      | some p =>
          if p.changed then longcheck turns p.segs p.symbols else some (some (p.segs, p.symbols))

/-! ### `segcheck` and `link` -/

/-- No segment ends behind the beginning of the next one. -/
def apart : List Seg → Bool
  | s :: u :: segs => if u.addr < s.addr + s.len then false else apart (u :: segs)
  | _ => true

/-- `segcheck`. What `qsort` makes of the table is looked at in any case. -/
def segcheck (qsort : List Seg → List Seg) (segs : List Seg) : Option (List Seg) :=
  if apart (qsort segs) then some (qsort segs) else none

/-- `hibyte`, of an `int`. -/
def hibyte (i : Long) : Long := i.sshiftRight 8

/-- What `cemit` puts out for an instruction; `addr` is the address behind it. -/
def emit (syms : Symbols) (addr : Long) (i : Instr) : Option (List Byte) :=
  match i.type with
  | .noArg => some [i.opcode]
  | .short | .varies =>
      (evaluate syms i.expr []).bind fun v =>
        if v.toInt < -128 ∨ v.toInt > 255 then none else some [i.opcode, v.setWidth 8]
  | .branch =>
      (evaluate syms i.expr []).bind fun v =>
        if (v - addr).toInt < -128 ∨ (v - addr).toInt > 127 then none
        else some [i.opcode, (v - addr).setWidth 8]
  | .long =>
      (evaluate syms i.expr []).map fun v => [i.opcode, v.setWidth 8, (hibyte v).setWidth 8]
  | .data1 =>
      (evaluate syms i.expr []).bind fun v =>
        if v.toInt < -128 ∨ v.toInt > 255 then none else some [v.setWidth 8]
  | .data2 => (evaluate syms i.expr []).map fun v => [v.setWidth 8, (hibyte v).setWidth 8]

/-- `cemit`. -/
def cemit (syms : Symbols) : List Instr → Long → Option (List Byte)
  | [], _ => some []
  | i :: ip, addr =>
      (emit syms (addr + BitVec.ofNat 32 (isize i.type)) i).bind fun b =>
        (cemit syms ip (addr + BitVec.ofNat 32 (isize i.type))).map (b ++ ·)

/-- `link`, from the address `a`. -/
def link (syms : Symbols) : List Seg → Long → Option (List Byte)
  | [], _ => some []
  | s :: segs, a =>
      (cemit syms s.code s.addr).bind fun b =>
        (link syms segs ((if a < s.addr then s.addr else a) + s.len)).map fun o =>
          List.replicate (s.addr.toNat - a.toNat) 0 ++ (b ++ o)

end HydraAmix.Assembler
