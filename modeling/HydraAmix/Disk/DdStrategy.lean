import Mathlib.Data.Nat.Notation
import Mathlib.Logic.Function.Basic

/-!
# The SCSI disk driver

A request that fits its partition joins the queue of its drive; the first of the
queue has a command under way. A drive has one command block, which is used for
the transfer, to ask why it failed, and to try once more.

Block numbers and counts are 32-bit longs. A minor number is the unit and card,
which name the drive, and a partition; partition 0 is the whole disk. What the
controller did with a command is an event.
-/
namespace HydraAmix.Disk

abbrev Long := BitVec 32

/-- A minor number. -/
abbrev Minor := BitVec 8

/-- Card and unit. -/
abbrev Drive := BitVec 4

def BSIZE : Long := 512#32

def sddrive (dev : Minor) : Drive := dev.setWidth 4

def sdpart (dev : Minor) : BitVec 3 := (dev >>> 4).setWidth 3

def sddev0p (dev : Minor) : Minor := dev &&& 0x8f#8

structure Partition where
  base : Long
  len : Long

/-- `partab`. -/
abbrev Partab := Minor → Partition

/-- What the driver uses of a `struct buf`. `id` tells two requests apart. -/
structure Buf where
  id : ℕ
  edev : Minor
  blkno : Long
  bcount : Long
  read : Bool
  addr : ℕ
  error : Bool
  resid : Long

namespace Buf

def setError (bp : Buf) : Buf := { bp with error := true }

def setResid (bp : Buf) (n : Long) : Buf := { bp with resid := n }

end Buf

section
variable (partab : Partab)

/-- The test of `sdvalid`. -/
def sdvalid (bp : Buf) : Bool :=
  sdpart bp.edev = 0 || bp.blkno + (bp.bcount + (BSIZE - 1)) / BSIZE ≤ (partab bp.edev).len

def sdblkno (bp : Buf) : Long := (partab bp.edev).base + bp.blkno

def sddevsize (dev : Minor) : Long :=
  if (partab dev).len ≠ 0 then (partab dev).len else 1234567#32

end

/-- A SCSI command: the operation code, the block and the count of the command block,
and address and size of the transfer. -/
structure Command where
  opcode : BitVec 8
  block : Long
  count : BitVec 16
  addr : ℕ
  nbyte : Long
  reading : Bool
  deriving DecidableEq

/-- The command of `startio`. -/
def ioCommand (partab : Partab) (bp : Buf) : Command where
  opcode := if bp.read then 0x28#8 else 0x2a#8
  block := sdblkno partab bp
  count := (bp.bcount / BSIZE).setWidth 16
  addr := bp.addr
  nbyte := bp.bcount
  reading := bp.read

/-- The command of `getsense`, for the sense bytes at `sense`. -/
def senseCommand (sense : ℕ) : Command where
  opcode := 0x03#8
  block := 0#32
  count := 0#16
  addr := sense
  nbyte := 16#32
  reading := true

inductive Stage
  | FIRST | SENSE | RETRY
  deriving DecidableEq

/-- How a command ended. -/
structure Outcome where
  okay : Bool
  status : ℕ

/-- A drive. `out` are the commands that the controller has, `asked` the requests that
were accepted; `tried` are the commands that ended for the first request of the
queue, latest first, and `done` the requests that were completed with theirs. -/
structure Dd where
  asked : List Buf
  state : Stage
  queue : List Buf
  out : List Command
  tried : List (Command × Outcome)
  done : List (Buf × List (Command × Outcome))

/-- The driver; `refused` are the requests that `sdvalid` completed. -/
structure Disks where
  ddtab : Drive → Dd
  refused : List Buf

namespace Dd

def setState (dp : Dd) (st : Stage) : Dd := { dp with state := st }

def setQueue (dp : Dd) (q : List Buf) : Dd := { dp with queue := q }

def ask (dp : Dd) (bp : Buf) : Dd := { dp with asked := dp.asked ++ [bp] }

/-- `sdqueue`. -/
def sdqueue (dp : Dd) (c : Command) : Dd := { dp with out := dp.out ++ [c] }

/-- The controller calls back with its first command. -/
def ended (dp : Dd) (o : Outcome) : Dd :=
  { dp with out := dp.out.tail, tried := (dp.out.head?.map fun c => (c, o)).toList ++ dp.tried }

/-- `iodone`. -/
def iodone (dp : Dd) (bp : Buf) : Dd :=
  { dp with done := dp.done ++ [(bp, dp.tried)], tried := [] }

variable (partab : Partab)

def startio (dp : Dd) (st : Stage) : Dd :=
  match dp.queue with
  | [] => dp
  | bp :: _ => (dp.setState st).sdqueue (ioCommand partab bp)

def getsense (dp : Dd) (sense : ℕ) : Dd := (dp.setState .SENSE).sdqueue (senseCommand sense)

/-- The end of `ihandle`. -/
def finish (dp : Dd) (error : Bool) : Dd :=
  match dp.queue with
  | [] => dp
  | bp :: rest =>
    ((dp.setQueue rest).iodone (if error then bp.setError else bp)).startio partab .FIRST

def ihandle (dp : Dd) (sense : ℕ) (o : Outcome) : Dd :=
  if o.okay = false then dp.finish partab true
  else
    match dp.state with
    | .FIRST => if o.status ≠ 0 then dp.getsense sense else dp.finish partab false
    | .SENSE => if o.status = 0 then dp.startio partab .RETRY else dp.finish partab true
    | .RETRY => dp.finish partab (decide (o.status ≠ 0))

/-- `ddstrategy` once the request is accepted. -/
def accept (dp : Dd) (bp : Buf) : Dd :=
  let dp := dp.ask bp
  if dp.queue ≠ [] then dp.setQueue (dp.queue ++ [bp])
  else (dp.setQueue [bp]).startio partab .FIRST

end Dd

namespace Disks

def setDd (s : Disks) (d : Drive) (dp : Dd) : Disks :=
  { s with ddtab := Function.update s.ddtab d dp }

def refuse (s : Disks) (bp : Buf) : Disks := { s with refused := s.refused ++ [bp] }

variable (partab : Partab) (sense : Drive → ℕ)

def ddstrategy (s : Disks) (bp : Buf) : Disks :=
  if sdvalid partab bp = false then s.refuse (bp.setResid bp.bcount).setError
  else s.setDd (sddrive bp.edev) ((s.ddtab (sddrive bp.edev)).accept partab (bp.setResid 0))

inductive Event
  | strategy (bp : Buf)
  /-- The controller is done with a command of the drive, if it has one. -/
  | interrupt (d : Drive) (o : Outcome)

def step (s : Disks) : Event → Disks
  | .strategy bp => s.ddstrategy partab bp
  | .interrupt d o =>
    if (s.ddtab d).out = [] then s
    else s.setDd d (((s.ddtab d).ended o).ihandle partab (sense d) o)

def init : Disks where
  ddtab _ := ⟨[], .FIRST, [], [], [], []⟩
  refused := []

end Disks

/-! ### Raw transfers -/

section
variable (NBPP : Long)

/-- The blocks of `n` bytes. -/
def btod (n : Long) : Long := (n + (BSIZE - 1)) / BSIZE

/-- What became of one piece: the bytes left over, an error, a failed copy. -/
structure Piece where
  left : Long
  error : Bool
  fault : Bool

/-- `amiga_dma_pageio`: the requests that it hands to the driver for `resid` bytes from
block `blkno` on, each no larger than the page that serves as its buffer. -/
def pageio (edev : Minor) (read : Bool) (page : ℕ) : Long → Long → List Piece → List Buf
  | _, _, [] => []
  | blkno, resid, p :: ps =>
    let cc := if resid < NBPP then resid else NBPP
    if cc = 0 then []
    else if read = false ∧ p.fault then []
    else
      let nbp : Buf := ⟨0, edev, blkno, cc, read, page, false, cc⟩
      if p.error ∨ cc - p.left = 0 ∨ read = true ∧ p.fault then [nbp]
      else nbp :: pageio edev read page (blkno + btod (cc - p.left)) (resid - (cc - p.left)) ps

/-- `ddread` and `ddwrite`: the bytes that `uiophysio` is asked for. -/
def clamp (partab : Partab) (dev : Minor) (offset resid : Long) : Option Long :=
  if offset = sddevsize partab dev * BSIZE then none
  else if sddevsize partab dev * BSIZE < offset + resid then
    some (sddevsize partab dev * BSIZE - offset)
  else some resid

/-- A raw transfer: `uiophysio` makes requests of it, each with a block, a count and what
became of its pieces. -/
def raw (partab : Partab) (uiophysio : Long → Long → List (Long × Long × List Piece))
    (dev : Minor) (read : Bool) (page : ℕ) (offset resid : Long) : List Buf :=
  match clamp partab dev offset resid with
  | none => []
  | some n => (uiophysio offset n).flatMap fun r => pageio NBPP dev read page r.1 r.2.1 r.2.2

end

end HydraAmix.Disk
