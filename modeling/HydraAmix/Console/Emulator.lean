import HydraAmix.Console.Picture
import HydraAmix.Library.Schedule

/-!
# The terminal emulator

`scrcon_put` takes a byte stream through three states: plain text, after Esc,
and after CSI, where numbers and semicolons are collected until a final byte.
The cursor is two shorts in pixels; the numbers are unsigned longs, multiplied
by the cell size as ints.

Each call goes on where the last one stopped, since the whole state is in the
console, so a stream is the same however it is split over calls. A character
that is drawn is noted with its place; what `draw`, the bell and the cursor's
`revchar` put on the screen is not here.
-/
namespace HydraAmix.Console.Emulator
open Bitplane

/-- Conversion to short. -/
def i16 (x : ℤ) : ℤ := (x + 0x8000) % 0x10000 - 0x8000

/-- The console with its fonts and the state of the emulator. `fHeight` and
`fWidth` are font 0's; `font1` is the bit ATTR_FONT1 of `c_attr`. -/
structure Terminal extends ConsoleState where
  fWidth : ℤ
  fHeight1 : ℤ
  ceMove : Bool → BitVec 8 → ℤ
  cState : ℕ
  cArgc : ℕ
  cCurarg : ℕ
  cArgs : ℕ → ℤ
  font1 : Bool
  drawn : List (ℤ × ℤ)

def MAXARGS : ℕ := 10

namespace Terminal

variable (t : Terminal)

def withCon (c : ConsoleState) : Terminal := { t with toConsoleState := c }

def setRow (row : ℤ) : Terminal := { t with row := row }

def setCol (col : ℤ) : Terminal := { t with col := col }

def setState (cState : ℕ) : Terminal := { t with cState := cState }

def setArgs (argc curarg : ℕ) (args : ℕ → ℤ) : Terminal :=
  { t with cArgc := argc, cCurarg := curarg, cArgs := args }

def setFont1 (b : Bool) : Terminal := { t with font1 := b }

/-- `draw`, of which only the place is kept. -/
def draw : Terminal := { t with drawn := (t.col, t.row) :: t.drawn }

/-- A drawing function that may not end. -/
def drawing (r : Option ConsoleState) : Option Terminal := r.map t.withCon

/-- `delete_lines(cp, 0, h)` and the cursor goes up with the picture. -/
def scroll (h : ℤ) : Option Terminal :=
  (t.drawing (t.deleteLines 0 (u32 h))).map fun t => t.setRow (i16 (t.row - h))

/-- `doclear`, on the first bitplane. -/
def doclear (row col n : ℤ) : Option Terminal :=
  let toLineEnd (t : Terminal) : Terminal :=
    if col < t.width then
      t.withCon (t.charClear (u32 row) (u32 col) (u32 (t.width - col)))
    else t
  if n = 0 then
    some (toLineEnd (t.withCon
      (t.clearLines (u32 (row + t.fHeight)) (u32 (t.height - row - t.fHeight)))))
  else if n = 1 then some (toLineEnd t)
  else if n = 2 then
    some (t.withCon ((t.withOffset 0).withMem (zero 0 (t.width / 8 * t.height) t.mem)))
  else some t

/-! ### Text -/

def backspace : Terminal :=
  let col := i16 (t.col - t.fWidth)
  if col < 0 then
    if t.row < t.fHeight then t.setCol 0
    else
      let col := i16 (t.width - t.fWidth)
      (t.setRow (i16 (t.row - t.fHeight))).setCol (i16 (col - col.tmod t.fWidth))
  else t.setCol col

def tab : Terminal :=
  t.setCol (i16 (t.col + t.fWidth * (8 - t.col.tdiv t.fWidth % 8)))

def lineFeed : Option Terminal :=
  let t := t.setRow (i16 (t.row + t.fHeight))
  if t.height - t.fHeight < t.row then t.scroll t.fHeight else some t

/-- The font that is drawn with. -/
def fpHeight : ℤ := if t.font1 then t.fHeight1 else t.fHeight

def print (c : BitVec 8) : Option Terminal :=
  let move := t.ceMove t.font1 c
  let h := t.fpHeight
  let t := if t.width - move < t.col then (t.setCol 0).setRow (i16 (t.row + h)) else t
  (if t.height - h < t.row then t.scroll h else some t).map fun t =>
    t.draw.setCol (i16 (t.col + move))

/-- A byte in state 0. -/
def ground (c : BitVec 8) : Option Terminal :=
  let t := t.setArgs 0 0 (Function.update t.cArgs 0 0)
  match c.toNat with
  | 0x07 => some t
  | 0x08 => some t.backspace
  | 0x09 => some t.tab
  | 0x0a | 0x0b | 0x0c => t.lineFeed
  | 0x0d => some (t.setCol 0)
  | 0x0e => some (t.setFont1 true)
  | 0x0f => some (t.setFont1 false)
  | 0x1b => some (t.setState 1)
  | 0x9b => some (t.setState 2)
  | _ => if c &&& 0x60#8 ≠ 0 then t.print c else some t

/-- A byte after Esc. -/
def escape (c : BitVec 8) : Terminal := if c.toNat = 0x5b then t.setState 2 else t.setState 0

/-! ### Control sequences -/

/-- CSI A and a: up by `n` pixels. -/
def up (n : ℤ) : Terminal :=
  let row := i16 (i32 (t.row - n))
  t.setRow (if row < 0 then 0 else row)

def down (n : ℤ) : Terminal :=
  let row := i16 (i32 (t.row + n))
  t.setRow (if t.height - t.fHeight < row then i16 (t.height - t.fHeight) else row)

def right (n : ℤ) : Terminal := t.setCol (i16 (i32 (t.col + n)))

def left (n : ℤ) : Terminal :=
  let col := i16 (i32 (t.col - n))
  t.setCol (if col < 0 then 0 else col)

/-- CSI h; CSI H has turned its arguments into pixels before. -/
def moveTo : Terminal :=
  let row := if 0 < t.cArgc then i16 (t.cArgs 0) else 0
  let row := if t.height - t.fHeight < row then i16 (t.height - t.fHeight)
    else if row < 0 then 0 else row
  let col := if 1 < t.cArgc then i16 (t.cArgs 1) else 0
  (t.setRow row).setCol (if col < 0 then 0 else col)

/-- CSI L, and CSI T from the first line on. -/
def insertRows (row n : ℤ) : Option Terminal :=
  let t := t.setCol 0
  let n := i32 (n * t.fHeight)
  if t.height - row ≤ n then t.doclear row 0 0
  else (t.drawing (t.insertLines (u32 row) (u32 n))).map fun t =>
    let toclear := (t.height - row).tmod t.fHeight
    if toclear ≠ 0 then t.withCon (t.clearLines (u32 (t.height - toclear)) (u32 toclear)) else t

/-- CSI M, and CSI S from the first line on. -/
def deleteRows (row n : ℤ) : Option Terminal :=
  let n := i32 (n * t.fHeight)
  if t.height - row ≤ n then t.doclear row 0 0
  else t.drawing (t.deleteLines (u32 row) (u32 n))

/-- CSI @. -/
def insertChars (n : ℤ) : Terminal :=
  let n := i32 (n * t.fWidth)
  if t.width - t.col ≤ n then
    t.withCon (t.charClear (u32 t.row) (u32 t.col) (u32 (t.width - t.col)))
  else
    let t := t.withCon (t.ichars n)
    t.withCon (t.charClear (u32 t.row) (u32 t.col) (u32 n))

/-- CSI P. -/
def deleteChars (n : ℤ) : Terminal :=
  let n := i32 (n * t.fWidth)
  if t.width - t.col ≤ n then
    t.withCon (t.charClear (u32 t.row) (u32 (t.width - (t.width - t.col)))
      (u32 (t.width - t.col)))
  else
    let t := t.withCon (t.dchars n)
    t.withCon (t.charClear (u32 t.row) (u32 (t.width - n)) (u32 n))

/-- What one argument of CSI m does to the bit ATTR_FONT1; the machine shifts
by the count's low six bits. -/
def attr (b : Bool) (n : ℤ) : Bool :=
  if n = 0 then false
  else if 30 ≤ n ∧ n < 38 ∨ 40 ≤ n ∧ n < 48 then b
  else b || n % 64 = 8

/-- CSI m. -/
def attrs : Terminal :=
  t.setFont1 ((List.range (max 1 t.cArgc)).foldl (fun b i => attr b (i32 (t.cArgs i))) t.font1)

/-- `int N`. -/
def argN : ℤ := if 0 < t.cArgc then i32 (t.cArgs 0) else 1

/-- The final byte of a control sequence. -/
def final (c : BitVec 8) : Option Terminal :=
  let n := t.argN
  match c.toNat with
  | 0x41 => some (t.up (i32 (n * t.fHeight)))
  | 0x61 => some (t.up n)
  | 0x42 => some (t.down (i32 (n * t.fHeight)))
  | 0x62 => some (t.down n)
  | 0x43 => some (t.right (i32 (n * t.fWidth)))
  | 0x63 => some (t.right n)
  | 0x44 => some (t.left (i32 (n * t.fWidth)))
  | 0x64 => some (t.left n)
  | 0x48 => some (t.setArgs t.cArgc t.cCurarg (Function.update
      (Function.update t.cArgs 0 (u32 ((t.cArgs 0 - 1) * t.fHeight))) 1
      (u32 ((t.cArgs 1 - 1) * t.fWidth)))).moveTo
  | 0x68 => some t.moveTo
  | 0x4a => t.doclear t.row t.col (if t.cArgc < 1 then 0 else n)
  | 0x4b => t.doclear t.row t.col n
  | 0x54 => t.insertRows 0 n
  | 0x4c => t.insertRows (if 1 < t.cArgc then 0 else t.row) n
  | 0x53 => t.deleteRows 0 n
  | 0x4d => t.deleteRows (if 1 < t.cArgc then 0 else t.row) n
  | 0x40 => some (t.insertChars n)
  | 0x50 => some (t.deleteChars n)
  | 0x6d => some t.attrs
  | _ => some t

/-- The driver's own line, as the source stores it. -/
def signature : List (BitVec 8) :=
  ([0x16, 0x3a, 0x3b, 0x26, 0x3a, 0x39, 0x30, 0x75, 0x31, 0x27, 0x3c, 0x23, 0x30, 0x27, 0x75, 0x37,
    0x2c, 0x75, 0x18, 0x3c, 0x3e, 0x30, 0x75, 0x77, 0x13, 0x3a, 0x27, 0x31, 0x77, 0x75, 0x11, 0x3c,
    0x21, 0x21, 0x3a, 0x7b].map (· ^^^ 0x55#8)) ++ [0]

/-- A byte of a control sequence that does not end it. -/
def collect (c : BitVec 8) : Option Terminal :=
  let x := c.toNat
  if x = 0x3b then
    if t.cCurarg < MAXARGS - 1 then
      some (t.setArgs t.cArgc (t.cCurarg + 1) (Function.update t.cArgs (t.cCurarg + 1) 0))
    else some t
  else if 0x30 ≤ x ∧ x ≤ 0x39 then
    let args := if t.cArgc = 0 then Function.update t.cArgs 0 0 else t.cArgs
    some (t.setArgs (t.cCurarg + 1) t.cCurarg
      (Function.update args t.cCurarg (u32 (args t.cCurarg * 10 + (x - 0x30)))))
  else if x = 42 then
    let t := t.setState 0
    -- the line is plain text, so the call inside the call stays in state 0
    if 0 < t.cArgc ∧ t.cArgs 0 = 42 then signature.foldlM ground t else some t
  else some t

/-- A byte of the stream. -/
def put1 (c : BitVec 8) : Option Terminal :=
  match t.cState with
  | 0 => t.ground c
  | 1 => some (t.escape c)
  | 2 => if c &&& 0x40#8 ≠ 0 then (t.final c).map fun t => t.setState 0 else t.collect c
  | _ => some t

/-- `scrcon_put`. -/
def scrcon_put (p : List (BitVec 8)) : Option Terminal := p.foldlM put1 t

/-- A stream may be split over two calls anywhere. -/
theorem scrcon_put_append (p q : List (BitVec 8)) :
    t.scrcon_put (p ++ q) = (t.scrcon_put p).bind fun t => t.scrcon_put q :=
  List.foldlM_append

end Terminal

end HydraAmix.Console.Emulator
