import HydraAmix.Library.Word
import Mathlib.Data.Int.Notation
import Mathlib.Data.List.Basic
import Mathlib.Logic.Function.Basic

/-!
# The decompressor of the boot code

`decompress` reads LZW codes of a growing number of bits and expands them with
the tables it builds on the way. The bytes come from `gblk`, a buffer at a
time, as long as the input is said to last; they go out in order.

`ALLOC` does not clear the tables, so `decompress` has what they hold at first
as an argument. An index of the tables or a stack beyond `2^maxbits` is a fault
here, where the code would go on in whatever memory it finds; so a run with a
result has had none, and each chain of prefixes it followed came to an end.
-/
namespace HydraAmix.Boot
open Word

abbrev INIT_BITS : ℕ := 9
abbrev MINMAXBITS : ℕ := 12
abbrev MAXMAXBITS : ℕ := 16
abbrev FIRST : ℕ := 257
abbrev CLEAR : ℕ := 256
abbrev MAGIC0 : Byte := 0x1F
abbrev MAGIC1 : Byte := 0x9D

/-- `MAXCODE(n_bits)` -/
def MAXCODE (n_bits : ℕ) : ℕ := (1 <<< n_bits) - 1

/-- `IOSIZE`, where the boot code is `CRAMPED` and where it is not. -/
def IOSIZE (cramped : Bool) : ℕ := if cramped then 256 else 1024

/-- Why there is no result: the run is not over, `gblk` does not return, an
index is out of the tables, or the stack is full. -/
inductive Stop
  | running
  | gblk
  | index (code : ℕ)
  | stack
  deriving DecidableEq, Repr

/-- The input: what is left in `inbuf`, how much may still be read, and what
`gblk` reads from. -/
structure Input (σ : Type) where
  inbuf : List Byte
  inputsize : ℕ
  src : σ

/-- The fields of `globals` that the codes are read with. -/
structure Codes (σ : Type) where
  input : Input σ
  n_bits : ℕ
  maxbits : ℕ
  maxcode : ℕ
  maxmaxcode : ℕ
  free_ent : ℕ
  block_compress : Bool
  clear_flg : Bool
  size : ℤ
  offset : ℕ
  buf : ℕ → Byte

/-- `tab_prefixof` and `tab_suffixof`. -/
structure Tables where
  prefixof : ℕ → ℕ
  suffixof : ℕ → Byte

section
variable {σ : Type} (cramped : Bool) (gblk : σ → ℕ → Option (List Byte × σ))

/-- `fillinbuf`; no byte is `EOF`. -/
def fillinbuf (i : Input σ) : Except Stop (Option Byte × Input σ) :=
  let nbytes := min i.inputsize (IOSIZE cramped)
  if nbytes = 0 then .ok (none, { i with inbuf := [] })
  else match gblk i.src nbytes with
    | none => .error .gblk
    | some ([], src) => .ok (none, { i with inbuf := [], src := src })
    | some (firstchar :: inbuf, src) => .ok (some firstchar, ⟨inbuf, i.inputsize - nbytes, src⟩)

/-- `GETC()` -/
def GETC (i : Input σ) : Except Stop (Option Byte × Input σ) :=
  match i.inbuf with
  | nextch :: inbuf => .ok (some nextch, { i with inbuf := inbuf })
  | [] => fillinbuf cramped gblk i

/-- The loop of `getcode` that reads `n` bytes more into `buf`. -/
def fillbuf : ℕ → ℕ → (ℕ → Byte) → Input σ → Except Stop (ℕ × (ℕ → Byte) × Input σ)
  | 0, size, buf, i => .ok (size, buf, i)
  | n + 1, size, buf, i =>
      match GETC cramped gblk i with
      | .error stop => .error stop
      | .ok (none, i) => .ok (size, buf, i)
      | .ok (some nextch, i) => fillbuf n (size + 1) (Function.update buf size nextch) i

/-- The number of bits for the next codes. -/
def widen (g : Codes σ) : Codes σ :=
  let g :=
    if g.free_ent > g.maxcode then
      { g with n_bits := g.n_bits + 1
               maxcode := if g.n_bits + 1 = g.maxbits then g.maxmaxcode else MAXCODE (g.n_bits + 1) }
    else g
  if g.clear_flg then { g with n_bits := INIT_BITS, maxcode := MAXCODE INIT_BITS, clear_flg := false }
  else g

/-- The `n_bits` bits of `buf` at `offset`, as `getcode` puts them together. -/
def codeAt (buf : ℕ → Byte) (offset n_bits : ℕ) : ℕ :=
  let bp := offset >>> 3
  let r_off := offset &&& 7
  let code := (buf bp).toNat >>> r_off
  let bits := n_bits - (8 - r_off)
  let r_off := 8 - r_off
  if bits ≥ 8 then
    code ||| (buf (bp + 1)).toNat <<< r_off |||
      ((buf (bp + 2)).toNat &&& MAXCODE (bits - 8)) <<< (r_off + 8)
  else code ||| ((buf (bp + 1)).toNat &&& MAXCODE bits) <<< r_off

/-- `getcode`; no code is -1. -/
def getcode (g : Codes σ) : Except Stop (Option ℕ × Codes σ) :=
  if g.clear_flg ∨ g.offset ≥ g.size ∨ g.free_ent > g.maxcode then
    let g := widen g
    match fillbuf cramped gblk g.n_bits 0 g.buf g.input with
    | .error stop => .error stop
    | .ok (size, buf, i) =>
        let g := { g with buf := buf, input := i, size := size }
        if size = 0 then .ok (none, g)
        else .ok (some (codeAt buf 0 g.n_bits),
          { g with size := (size : ℤ) * 8 - (g.n_bits - 1), offset := g.n_bits })
  else .ok (some (codeAt g.buf g.offset g.n_bits), { g with offset := g.offset + g.n_bits })

/-- The head of the loop of `decompress`: the next code, or the one after it
where it is `CLEAR`. A `CLEAR` also sets the prefixes of the first 256 codes to
0, which they are. -/
def nextcode (g : Codes σ) : Except Stop (Option ℕ × Codes σ) :=
  match getcode cramped gblk g with
  | .ok (some code, g) =>
      if code = CLEAR ∧ g.block_compress then
        getcode cramped gblk { g with clear_flg := true, free_ent := FIRST - 1 }
      else .ok (some code, g)
  | r => r

/-- The output characters of a code in reverse order, pushed on a stack that
has room for `n` more. -/
def expand (t : Tables) (maxmaxcode : ℕ) : ℕ → ℕ → List Byte → Except Stop (List Byte)
  | 0, _, _ => .error .stack
  | n + 1, code, stack =>
      if code ≥ 256 then
        if code ≥ maxmaxcode then .error (.index code)
        else expand t maxmaxcode n (t.prefixof code) (t.suffixof code :: stack)
      else .ok (t.suffixof code :: stack)

/-- The room that the code takes the stack to have, beyond the suffixes. -/
def room (g : Codes σ) : ℕ := 1 <<< g.maxbits

/-- The new entry of the tables, if there is one. -/
def Codes.enter (g : Codes σ) : Codes σ :=
  if g.free_ent < g.maxmaxcode then { g with free_ent := g.free_ent + 1 } else g

def Tables.enter (t : Tables) (g : Codes σ) (oldcode : ℕ) (finchar : Byte) : Tables :=
  if g.free_ent < g.maxmaxcode then
    ⟨Function.update t.prefixof g.free_ent oldcode, Function.update t.suffixof g.free_ent finchar⟩
  else t

/-- The loop of `decompress`. -/
def decompressLoop :
    ℕ → Byte → ℕ → List Byte → Tables → Codes σ → Except Stop (List Byte × Input σ)
  | 0, _, _, _, _, _ => .error .running
  | fuel + 1, finchar, oldcode, out, t, g =>
      match nextcode cramped gblk g with
      | .error stop => .error stop
      | .ok (none, g) => .ok (out, g.input)
      | .ok (some code, g) =>
          let pushed :=
            if code ≥ g.free_ent then expand t g.maxmaxcode (room g - 1) oldcode [finchar]
            else expand t g.maxmaxcode (room g) code []
          match pushed with
          | .error stop => .error stop
          | .ok stack =>
              let finchar := stack.headD finchar
              decompressLoop fuel finchar code (out ++ stack) (t.enter g oldcode finchar) g.enter

/-- The decoder before the first code. -/
def Codes.init (i : Input σ) (maxbits : ℕ) (block_compress : Bool) : Codes σ where
  input := i
  n_bits := INIT_BITS
  maxbits := maxbits
  maxcode := MAXCODE INIT_BITS
  maxmaxcode := 1 <<< maxbits
  free_ent := if block_compress then FIRST else 256
  block_compress := block_compress
  clear_flg := false
  size := 0
  offset := 0
  buf _ := 0

/-- The start of `decompress`: the magic number and the number of bits, where
both are good. -/
def header (i : Input σ) : Except Stop (Option (Codes σ) × Input σ) := do
  let (c₀, i) ← GETC cramped gblk i
  if c₀ ≠ some MAGIC0 then return (none, i)
  let (c₁, i) ← GETC cramped gblk i
  if c₁ ≠ some MAGIC1 then return (none, i)
  let (c₂, i) ← GETC cramped gblk i
  -- EOF is -1, all of whose bits are set
  let maxbits := max MINMAXBITS (c₂.elim 0x1f fun c => (c &&& 0x1f).toNat)
  let block_compress := c₂.elim true fun c => c &&& 0x80 ≠ 0
  if maxbits > MAXMAXBITS then return (none, i)
  return (some (.init i maxbits block_compress), i)

/-- The tables with the first 256 entries set. -/
def Tables.init (mem : Tables) : Tables where
  prefixof code := if code < 256 then 0 else mem.prefixof code
  suffixof code := if code < 256 then BitVec.ofNat 8 code else mem.suffixof code

/-- `decompress`: the bytes put out and the input where it stopped. -/
def decompress (fuel : ℕ) (mem : Tables) (i : Input σ) : Except Stop (List Byte × Input σ) := do
  match ← header cramped gblk i with
  | (none, i) => return ([], i)
  | (some g, _) =>
      match ← getcode cramped gblk g with
      | (none, g) => return ([], g.input)
      | (some oldcode, g) =>
          let finchar := BitVec.ofNat 8 oldcode
          decompressLoop cramped gblk fuel finchar oldcode [finchar] mem.init g

end
end HydraAmix.Boot
