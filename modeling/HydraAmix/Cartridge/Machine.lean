import Mathlib.Data.Nat.Notation
import Mathlib.Data.List.Basic

/-!
# The tape driver's state machine

Reads, writes and special commands wait in the queue of their drive, and
`machine` works on the first of them until it has started a SCSI command, or has
disposed of all. The states say where the tape is: in a file, at the end of a
file, of the data or of the tape, after a bad block, or lost.

There is one special command for all drives, with a `buf` of its own.
-/
namespace HydraAmix.Cartridge

abbrev Long := BitVec 32

inductive CtState
  | NORMAL_IDLE | NORMAL_READ | NORMAL_SPECIAL | NORMAL_SEOF | NORMAL_READ_GETSENSE
  | NORMAL_SEOF_GETSENSE | EOD_IDLE | EOD_WRITE | EOD_WRITE_GETSENSE | EOD_SPECIAL
  | EOM_IDLE | EOM_SPECIAL | EOF_IDLE | EOF_SPECIAL | DOOM_IDLE | DOOM_SPECIAL
  | DOOM_MISC_GETSENSE | BAD_READ_1 | BAD_READ_2 | BAD_READ_NULS
  deriving DecidableEq

/-- `special.com`, and what `start` is asked for (`IO_` is a transfer). -/
inductive Com
  | INIT120 | INIT150 | REWIND | GETSENSE | APPEND | WEOF | FLUSH | SEOF | IO_ | CLOSE
  deriving DecidableEq

def ENOSPC : ℕ := 28

/-- What the driver uses of a `struct buf`. `special` says that it is `special.buf`;
`id` tells two requests apart. -/
structure Buf where
  id : ℕ
  special : Bool
  read : Bool
  addr : ℕ
  bcount : Long
  resid : Long
  error : Bool
  errno : ℕ

namespace Buf

def setResid (bp : Buf) (n : Long) : Buf := { bp with resid := n }

/-- `bp->b_flags |= B_ERROR`, perhaps with a `b_error`. -/
def fail (bp : Buf) (errno : ℕ) : Buf := { bp with error := true, errno := errno }

/-- The request without what became of it. -/
def core (bp : Buf) : ℕ × Bool × Bool × ℕ × Long :=
  (bp.id, bp.special, bp.read, bp.addr, bp.bcount)

end Buf

/-- The SCSI command block of a drive. `id` is the request it was last used for. -/
structure Command where
  com : Com
  id : ℕ
  cdb : List (BitVec 8)
  addr : ℕ
  nbyte : Long
  reading : Bool

/-- A drive. `out` are the commands that the controller has, `asked` the requests that
were queued, `done` those that were disposed of, and `stored` the bytes that the driver
itself stored from the start of a buffer on. -/
structure Ct where
  state : CtState
  opened : Bool
  queue : List Buf
  com : Command
  okay : Bool
  status : ℕ
  sense : ℕ → BitVec 8
  out : List Command
  asked : List Buf
  done : List Buf
  stored : List (Buf × ℕ)

/-- The special command. -/
structure Special where
  active : Bool
  com : Com
  sense : ℕ → BitVec 8
  buf : Buf

/-- A drive, and the special command that the drives share. `senseAddr`, `init120` and
`init150` are where the drive's sense bytes and the two mode blocks are. -/
structure Tape where
  dp : Ct
  special : Special
  senseAddr : ℕ
  init120 : ℕ
  init150 : ℕ

namespace Ct

variable (dp : Ct)

def setState (st : CtState) : Ct := { dp with state := st }

def setQueue (q : List Buf) : Ct := { dp with queue := q }

def setOpened (b : Bool) : Ct := { dp with opened := b }

def ask (bp : Buf) : Ct := { dp with asked := dp.asked ++ [bp] }

def finish (bp : Buf) : Ct := { dp with done := dp.done ++ [bp] }

def bzero (bp : Buf) (n : ℕ) : Ct := { dp with stored := dp.stored ++ [(bp, n)] }

def sdqueue (c : Command) : Ct := { dp with com := c, out := dp.out ++ [c] }

/-- The controller is done with its first command. -/
def ended (okay : Bool) (status : ℕ) (sense : ℕ → BitVec 8) : Ct :=
  { dp with
    out := dp.out.tail, okay := okay, status := status
    sense := if dp.com.com = .GETSENSE then sense else dp.sense }

end Ct

def byte2 (i : Long) : BitVec 8 := (i >>> 16).setWidth 8
def byte1 (i : Long) : BitVec 8 := (i >>> 8).setWidth 8
def byte0 (i : Long) : BitVec 8 := i.setWidth 8

def BSIZE : Long := 512#32

namespace Tape

variable (t : Tape)

def setDp (dp : Ct) : Tape := { t with dp := dp }

def setSpecial (sp : Special) : Tape := { t with special := sp }

def setState (st : CtState) : Tape := t.setDp (t.dp.setState st)

/-- The command block as `start` fills it in; a command without data leaves address and
count as they are. -/
def command (com : Com) (bp : Buf) : Command :=
  let c := t.dp.com
  match com with
  | .APPEND => ⟨com, bp.id, [0x11, 0x03, 0, 0, 0, 0], c.addr, c.nbyte, false⟩
  | .GETSENSE => ⟨com, bp.id, [0x03, 0, 0, 0, 14, 0], t.senseAddr, 14#32, true⟩
  | .INIT120 => ⟨com, bp.id, [0x15, 0, 0, 0, 0x0c, 0], t.init120, 12#32, false⟩
  | .INIT150 => ⟨com, bp.id, [0x15, 0, 0, 0, 0x0c, 0], t.init150, 12#32, false⟩
  | .IO_ => ⟨com, bp.id, [if bp.read then 0x08 else 0x0a, 0x01, byte2 (bp.bcount / BSIZE),
      byte1 (bp.bcount / BSIZE), byte0 (bp.bcount / BSIZE), 0], bp.addr, bp.bcount, bp.read⟩
  | .REWIND => ⟨com, bp.id, [0x01, 0, 0, 0, 0, 0], c.addr, c.nbyte, false⟩
  | .SEOF => ⟨com, bp.id, [0x11, 0x01, 0, 0, 1, 0], c.addr, c.nbyte, false⟩
  | .WEOF => ⟨com, bp.id, [0x10, 0x01, 0, 0, 1, 0], c.addr, c.nbyte, false⟩
  | .FLUSH => ⟨com, bp.id, [0x10, 0, 0, 0, 0, 0], c.addr, c.nbyte, false⟩
  | .CLOSE => ⟨c.com, bp.id, c.cdb, c.addr, c.nbyte, c.reading⟩

def start (com : Com) (st : CtState) : Tape :=
  match t.dp.queue with
  | [] => t
  | bp :: _ => t.setDp ((t.dp.setState st).sdqueue (t.command com bp))

/-- `dispose`. -/
def dispose (st : CtState) : Tape :=
  match t.dp.queue with
  | [] => t
  | bp :: rest =>
    let t' := t.setDp (((t.dp.setQueue rest).finish bp).setState st)
    if bp.special then t'.setSpecial ⟨false, t.special.com, t.dp.sense, bp⟩ else t'

/-- The first request is changed, and stays where it is. -/
def setHead (bp : Buf) : Tape := t.setDp (t.dp.setQueue (bp :: t.dp.queue.tail))

/-- `setresidue`; the count of blocks that were not transferred is a longword. -/
def setresidue (bp : Buf) : Long :=
  if t.dp.sense 0 = 0xf0#8 then
    let r := (t.dp.sense 3 ++ t.dp.sense 4 ++ t.dp.sense 5 ++ t.dp.sense 6 : BitVec 32) * BSIZE
    if r ≤ bp.bcount then r else bp.resid
  else bp.resid

/-- What is left over is noted, and if something was transferred the request is done. -/
def residual (bp : Buf) (st : CtState) : Tape :=
  let r := t.setresidue bp
  let t := t.setHead (bp.setResid r)
  if r < bp.bcount then (t.dispose st).setState st else t.setState st

/-- The end of a command: done, or ask for the sense bytes, or lost. -/
def commandEnded (ok getsense : CtState) : Tape ⊕ Tape :=
  if t.dp.okay = false then .inl (t.setState .DOOM_MISC_GETSENSE)
  else if t.dp.status = 0 then .inl (t.dispose ok)
  else if t.dp.status = 2 then .inr (t.start .GETSENSE getsense)
  else .inl (t.setState .DOOM_MISC_GETSENSE)

/-- The first request fails. -/
def failHead (bp : Buf) (errno : ℕ) (st : CtState) : Tape ⊕ Tape :=
  .inl ((t.setHead (bp.fail errno)).dispose st)

/-- A round of `machine`: it goes on (left), or returns. -/
def turn : Tape ⊕ Tape :=
  match t.dp.queue with
  | [] => .inr t
  | bp :: _ =>
    let com := t.special.com
    match t.dp.state with
    | .NORMAL_IDLE =>
      if bp.special = false then .inr (t.start .IO_ (if bp.read then .NORMAL_READ else .EOD_WRITE))
      else match com with
        | .INIT120 | .INIT150 | .GETSENSE | .WEOF => .inr (t.start com .NORMAL_SPECIAL)
        | .REWIND => .inr (t.start com .DOOM_SPECIAL)
        | .APPEND => .inr (t.start com .EOD_SPECIAL)
        | .SEOF => .inr (t.start com .NORMAL_SEOF)
        | _ => .inl (t.dispose .NORMAL_IDLE)
    | .NORMAL_READ => t.commandEnded .NORMAL_IDLE .NORMAL_READ_GETSENSE
    | .NORMAL_READ_GETSENSE =>
      if t.dp.okay = false ∨ t.dp.status ≠ 0 then .inl (t.setState .DOOM_MISC_GETSENSE)
      else match (t.dp.sense 2 &&& 0x0f#8).toNat with
        | 0 => .inl (t.residual bp .EOF_IDLE)
        | 8 => .inl (t.residual bp .EOD_IDLE)
        | 3 => .inl (t.residual bp .BAD_READ_1)
        | _ => .inl (t.setState .DOOM_IDLE)
    | .BAD_READ_1 =>
      if bp.special then .inl (t.setState .NORMAL_IDLE) else t.failHead bp bp.errno .BAD_READ_2
    | .BAD_READ_2 =>
      if bp.special then .inl (t.setState .NORMAL_IDLE) else t.failHead bp bp.errno .BAD_READ_NULS
    | .BAD_READ_NULS =>
      if bp.special then .inl (t.setState .NORMAL_IDLE)
      else
        let t := t.setDp (t.dp.bzero bp 512)
        .inl (((t.setHead (bp.setResid (bp.bcount - BSIZE))).dispose .NORMAL_IDLE).setState
          .NORMAL_IDLE)
    | .NORMAL_SPECIAL => t.commandEnded .NORMAL_IDLE .DOOM_MISC_GETSENSE
    | .NORMAL_SEOF => t.commandEnded .EOF_IDLE .NORMAL_SEOF_GETSENSE
    | .NORMAL_SEOF_GETSENSE =>
      if t.dp.okay = true ∧ t.dp.status = 0 ∧ t.dp.sense 2 &&& 0x0f#8 = 8#8 then
        .inl (t.dispose .EOD_IDLE)
      else .inl (t.setState .DOOM_MISC_GETSENSE)
    | .EOD_IDLE =>
      if bp.special = false then
        if bp.read then t.failHead bp ENOSPC .EOD_IDLE else .inr (t.start .IO_ .EOD_WRITE)
      else match com with
        | .REWIND => .inr (t.start com .DOOM_SPECIAL)
        | .GETSENSE | .WEOF => .inr (t.start com .EOD_SPECIAL)
        | _ => .inl (t.dispose .EOD_IDLE)
    | .EOD_WRITE => t.commandEnded .EOD_IDLE .EOD_WRITE_GETSENSE
    | .EOD_WRITE_GETSENSE =>
      if t.dp.okay = false ∨ t.dp.status ≠ 0 then .inl (t.setState .DOOM_MISC_GETSENSE)
      else match (t.dp.sense 2 &&& 0x0f#8).toNat with
        | 0 | 13 => .inl (t.residual bp .EOM_IDLE)
        | _ => .inl (t.setState .DOOM_IDLE)
    | .EOD_SPECIAL => t.commandEnded .EOD_IDLE .DOOM_MISC_GETSENSE
    | .EOM_IDLE =>
      if bp.special = false then t.failHead bp ENOSPC .EOM_IDLE
      else match com with
        | .REWIND => .inr (t.start com .DOOM_SPECIAL)
        | .GETSENSE => .inr (t.start com .EOM_SPECIAL)
        | _ => .inl (t.dispose .EOM_IDLE)
    | .EOM_SPECIAL => t.commandEnded .EOM_IDLE .DOOM_MISC_GETSENSE
    | .EOF_IDLE =>
      if bp.special = false then
        .inl ((t.setHead (bp.setResid bp.bcount)).dispose .EOF_IDLE)
      else match com with
        | .REWIND => .inr (t.start com .DOOM_SPECIAL)
        | .GETSENSE => .inr (t.start com .EOF_SPECIAL)
        | .CLOSE => .inl (t.dispose .NORMAL_IDLE)
        | _ => .inl (t.dispose .EOF_IDLE)
    | .EOF_SPECIAL => t.commandEnded .EOF_IDLE .DOOM_MISC_GETSENSE
    | .DOOM_IDLE =>
      if bp.special = false then t.failHead bp bp.errno .DOOM_IDLE
      else match com with
        | .REWIND | .GETSENSE => .inr (t.start com .DOOM_SPECIAL)
        | _ => t.failHead bp bp.errno .DOOM_IDLE
    | .DOOM_SPECIAL => t.commandEnded .DOOM_IDLE .DOOM_MISC_GETSENSE
    | .DOOM_MISC_GETSENSE => t.failHead bp bp.errno .DOOM_IDLE

/-- `machine`, if it returns within `n` rounds. -/
def rounds : ℕ → Tape → Option Tape
  | 0, _ => none
  | n + 1, t =>
    match t.turn with
    | .inl t' => rounds n t'
    | .inr t' => some t'

end Tape

/-- How many rounds a state may be away from one that disposes or starts a command. -/
def CtState.rank : CtState → ℕ
  | .NORMAL_IDLE | .EOD_IDLE | .EOM_IDLE | .EOF_IDLE | .DOOM_IDLE | .DOOM_MISC_GETSENSE => 0
  | .BAD_READ_1 | .BAD_READ_2 | .BAD_READ_NULS => 1
  | _ => 2

namespace Tape

def weight (t : Tape) : ℕ := 3 * t.dp.queue.length + t.dp.state.rank

def machine (t : Tape) : Tape := (rounds (t.weight + 1) t).getD t

/-- `queue`. -/
def queue (t : Tape) (bp : Buf) : Tape :=
  let t := t.setDp (t.dp.ask bp)
  if t.dp.queue ≠ [] then t.setDp (t.dp.setQueue (t.dp.queue ++ [bp]))
  else (t.setDp (t.dp.setQueue [bp])).machine

/-- `strategy`. -/
def strategy (t : Tape) (bp : Buf) : Tape := t.queue (bp.setResid 0)

/-- `command`, from where it has the lock to where it sleeps; each special command gets
its `id`. -/
def ask (t : Tape) (com : Com) (id : ℕ) : Tape :=
  let bp : Buf := ⟨id, true, false, t.special.buf.addr, t.special.buf.bcount, t.special.buf.resid,
    false, t.special.buf.errno⟩
  (t.setSpecial ⟨true, com, t.special.sense, bp⟩).queue bp

/-- The controller is done with the drive's command, and calls `ihandle`. -/
def ihandle (t : Tape) (okay : Bool) (status : ℕ) (sense : ℕ → BitVec 8) : Tape :=
  (t.setDp (t.dp.ended okay status sense)).machine

inductive Event
  /-- A read or a write. -/
  | strategy (id : ℕ) (read : Bool) (addr : ℕ) (bcount : Long)
  /-- A special command; it has to wait if there is one. -/
  | ask (com : Com) (id : ℕ)
  /-- A command ends, if there is one. -/
  | interrupt (okay : Bool) (status : ℕ) (sense : ℕ → BitVec 8)

def step (t : Tape) : Event → Tape
  | .strategy id read addr bcount => t.strategy ⟨id, false, read, addr, bcount, 0, false, 0⟩
  | .ask com id => if t.special.active then t else t.ask com id
  | .interrupt okay status sense => if t.dp.out = [] then t else t.ihandle okay status sense

end Tape

end HydraAmix.Cartridge
