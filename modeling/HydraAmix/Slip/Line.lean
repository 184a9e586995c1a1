import HydraAmix.Library.Stuffing
import HydraAmix.Library.Word

/-!
# The two sides of the SLIP module

`slipxmit` turns a packet from IP into characters for the tty, `ttyrput` the
characters of the tty into packets. What STREAMS answers (`canput`, `allocb`)
stands beside each call or, where one message can make many calls, beside each
character. An allocated block has at least the bytes asked for, and how many it
has more is in the answer too: the driver works with `db_lim`.

Of `struct slipdev` only the fields of these routines are kept. The message
that `ttyrput` gets is the list of the characters of its first block: it does
not look at `b_cont`.
-/
namespace HydraAmix.Slip
open Word Library

abbrev FRAME_END : Byte := 0xC0#8
abbrev FRAME_ESCAPE : Byte := 0xDB#8
abbrev TRANSPOSED_FRAME_END : Byte := 0xDC#8
abbrev TRANSPOSED_FRAME_ESCAPE : Byte := 0xDD#8

abbrev SLIP_MAX : ℕ := 1006

/-- The four characters of SLIP as a stuffing. -/
def chars : Stuffing Byte :=
  ⟨FRAME_END, FRAME_ESCAPE, TRANSPOSED_FRAME_END, TRANSPOSED_FRAME_ESCAPE, by decide⟩

/-- A data block that is being filled: `b_rptr` to `b_wptr`, the room from
`db_base` to `db_lim`, and whether a character went past `db_lim`. -/
structure Mblk where
  bytes : List Byte
  lim : ℕ
  overrun : Bool
  deriving DecidableEq, Repr

/-- What `dl_unitdata_ind_t` and the block behind it say. -/
structure UnitdataInd where
  destAddrLength : ℕ
  destAddrOffset : ℕ
  srcAddrLength : ℕ
  srcAddrOffset : ℕ
  reserved : ℕ
  data : List Byte
  deriving DecidableEq, Repr

structure Slipdev where
  ipackets : ℕ
  ierrors : ℕ
  opackets : ℕ
  oerrors : ℕ
  curblk : Option Mblk
  escaped : Bool
  deriving DecidableEq, Repr

/-! ### `slipxmit` -/

namespace Mblk

def putc (b : Mblk) (ch : Byte) : Mblk :=
  if b.bytes.length < b.lim then { b with bytes := b.bytes ++ [ch] } else { b with overrun := true }

/-- A character of the packet, escaped where it has to be. -/
def putEscaped (b : Mblk) (c : Byte) : Mblk :=
  if c = FRAME_ESCAPE then (b.putc FRAME_ESCAPE).putc TRANSPOSED_FRAME_ESCAPE
  else if c = FRAME_END then (b.putc FRAME_ESCAPE).putc TRANSPOSED_FRAME_END
  else b.putc c

end Mblk

/-- `slipxmit`: the blocks behind the request go to the tty as one message, or
nothing happens. `room` is what `allocb(2*SLIP_MAX)` gives beyond that, if
anything. -/
def Slipdev.slipxmit (slip : Slipdev) (canput : Bool) (room : Option ℕ)
    (dlpimp : List (List Byte)) : Slipdev × Option Mblk :=
  if canput = false then (slip, none)
  else
    match room with
    | none => ({ slip with oerrors := slip.oerrors + 1 }, none)
    | some more =>
        let outmp := dlpimp.foldl (List.foldl Mblk.putEscaped) ⟨[], 2 * SLIP_MAX + more, false⟩
        ({ slip with opackets := slip.opackets + 1 }, some (outmp.putc FRAME_END))

/-! ### `ttyrput` -/

/-- What STREAMS answers while one character is handled: `canput` of the queue
above, `allocb(SLIP_MAX)` with the bytes beyond that, and the `allocb` of the
header. -/
structure Answers where
  canput : Bool
  buffer : Option ℕ
  header : Bool
  deriving DecidableEq, Repr

/-- A character of the tty and the answers there. -/
abbrev Input := Byte × Answers

/-- `sizeof (dl_unitdata_ind_t)`. -/
abbrev unitdataIndSize : ℕ := 24

def unitdataInd (outmp : List Byte) : UnitdataInd where
  destAddrLength := 0
  destAddrOffset := unitdataIndSize
  srcAddrLength := 0
  srcAddrOffset := unitdataIndSize
  reserved := 0
  data := outmp

namespace Slipdev

/-- `case FRAME_END`. -/
def frameEnd (slip : Slipdev) (a : Answers) : Slipdev × List UnitdataInd :=
  match slip.curblk with
  | none => (slip, [])
  | some outmp =>
      if outmp.bytes ≠ [] ∧ a.canput = true then
        if a.header = true then
          ({ slip with ipackets := slip.ipackets + 1, curblk := none }, [unitdataInd outmp.bytes])
        else ({ slip with curblk := none }, [])
      else (slip, [])

/-- The end of `default`: the character goes into the block, a new one if there
is none; in a full block everything is dropped first. -/
def store (slip : Slipdev) (c : Byte) (buffer : Option ℕ) : Slipdev :=
  match slip.curblk with
  | none =>
      match buffer with
      | some more => { slip with curblk := some ⟨[c], SLIP_MAX + more, false⟩ }
      | none => { slip with ierrors := slip.ierrors + 1 }
  | some outmp =>
      if outmp.lim ≤ outmp.bytes.length then
        { slip with ierrors := slip.ierrors + 1, curblk := some { outmp with bytes := [c] } }
      else { slip with curblk := some { outmp with bytes := outmp.bytes ++ [c] } }

/-- One turn of the loop of `ttyrput`, with the packets it hands up. -/
def receive (slip : Slipdev) (x : Input) : Slipdev × List UnitdataInd :=
  if x.1 = FRAME_END then slip.frameEnd x.2
  else if x.1 = FRAME_ESCAPE then ({ slip with escaped := true }, [])
  else if slip.escaped then
    let c :=
      if x.1 = TRANSPOSED_FRAME_ESCAPE then FRAME_ESCAPE
      else if x.1 = TRANSPOSED_FRAME_END then FRAME_END
      else x.1
    ({ slip with escaped := false }.store c x.2.buffer, [])
  else (slip.store x.1 x.2.buffer, [])

/-- `ttyrput` on an `M_DATA` message. -/
def ttyrput : Slipdev → List Input → Slipdev × List UnitdataInd
  | slip, [] => (slip, [])
  | slip, x :: inmp =>
      let r := slip.receive x
      let t := r.1.ttyrput inmp
      (t.1, r.2 ++ t.2)

/-- `ttyrput` on one message after another. -/
def ttyrputs : Slipdev → List (List Input) → Slipdev × List UnitdataInd
  | slip, [] => (slip, [])
  | slip, inmp :: inmps =>
      let r := slip.ttyrput inmp
      let t := r.1.ttyrputs inmps
      (t.1, r.2 ++ t.2)

/-- What `ttyopen` does to a slot without a tty: `ttyclose` left it no block. -/
def ttyopen (slip : Slipdev) : Slipdev := { slip with escaped := false }

/-- What `ttyclose` does to its slot. -/
def ttyclose (slip : Slipdev) : Slipdev := { slip with curblk := none }

section
variable {slip : Slipdev}

theorem ttyrput_append (slip : Slipdev) (xs ys : List Input) :
    slip.ttyrput (xs ++ ys) =
      (((slip.ttyrput xs).1.ttyrput ys).1,
        (slip.ttyrput xs).2 ++ ((slip.ttyrput xs).1.ttyrput ys).2) := by
  induction xs generalizing slip with
  | nil => rfl
  | cons x xs ih => simp only [List.cons_append, ttyrput, ih, List.append_assoc]

/-- How the characters are cut into messages makes no difference. -/
theorem ttyrputs_flatten (slip : Slipdev) (inmps : List (List Input)) :
    slip.ttyrputs inmps = slip.ttyrput inmps.flatten := by
  induction inmps generalizing slip with
  | nil => rfl
  | cons inmp inmps ih => rw [ttyrputs, List.flatten_cons, ttyrput_append, ih]

@[simp] theorem store_escaped (slip : Slipdev) (c : Byte) (buffer : Option ℕ) :
    (slip.store c buffer).escaped = slip.escaped := by
  unfold store
  split
  · split <;> rfl
  · split <;> rfl

theorem store_of_none (h : slip.curblk = none) (c : Byte) (buffer : Option ℕ) :
    (slip.store c buffer).curblk = buffer.map fun more => ⟨[c], SLIP_MAX + more, false⟩ := by
  unfold store
  rw [h]
  cases buffer <;> rfl

theorem store_of_some {outmp : Mblk} (h : slip.curblk = some outmp) (c : Byte)
    (buffer : Option ℕ) :
    (slip.store c buffer).curblk =
      some { outmp with
        bytes := if outmp.lim ≤ outmp.bytes.length then [c] else outmp.bytes ++ [c] } := by
  unfold store
  rw [h]
  dsimp only
  split <;> rfl

theorem receive_end (slip : Slipdev) (a : Answers) :
    slip.receive (FRAME_END, a) = slip.frameEnd a := if_pos rfl

/-- Any other character stands for one byte of the packet. -/
theorem receive_char (slip : Slipdev) {x : Input} (he : x.1 ≠ FRAME_END)
    (hx : x.1 ≠ FRAME_ESCAPE) :
    slip.receive x =
      ({ slip with escaped := false }.store (chars.value slip.escaped x.1) x.2.buffer, []) := by
  rw [receive, if_neg he, if_neg hx, Stuffing.value]
  cases h : slip.escaped with
  | true => rfl
  | false => rw [if_neg Bool.false_ne_true, if_neg Bool.false_ne_true, ← h]

end
end Slipdev
end HydraAmix.Slip
