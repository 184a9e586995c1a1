import Mathlib.Data.Nat.Notation
import Mathlib.Logic.Function.Basic

/-!
# The SCSI controllers

The drivers of the A3000's own controller and of the A2091 are the same state
machine around a WD33C93A. A unit with requests waits on the start list, or is
the current one, or its target has disconnected; a status is turned into an
input, and state and input select one of ten actions.

How the registers of the chip and of the DMA unit are loaded differs, and is a
parameter, the data path; the two drivers' own are at the end. Of the A2091's
copies to and from chip memory only the places are kept. A request is queued
once for each time it is handed to the driver; the handler of a request that
ends may hand it more of them. Whether the target of a unit is disconnected is
no variable of the driver; it is kept beside the driver's state.
-/
namespace HydraAmix.Scsi.Controller

/-- A unit number, as the three bits that the drivers keep of it. -/
abbrev UnitNo := BitVec 3

/-- What the drivers read of a `struct sdcom`. -/
structure Sdcom where
  unit : UnitNo
  reading : Bool
  cdb : List (BitVec 8)
  addr : ℕ
  nbyte : ℕ

inductive IState
  | IDLE | STARTING | RESUMING | DEAD | MESSAGING | ENDING
  deriving DecidableEq

/-- The states in which the current unit has the bus. -/
def IState.Busy (i : IState) : Prop := i ≠ .IDLE ∧ i ≠ .DEAD

/-- The input for a status. -/
def itab (ss : ℕ) : ℕ :=
  match ss with
  | 0x42 => 0
  | 0x21 => 2
  | 0x85 => 3
  | 0x81 => 4
  | 0x4f => 5
  | 0x20 => 6
  | 0x4b => 7
  | 0x16 => 8
  | _ => 1

/-- The action for a state and an input. -/
def atab (i : IState) (input : ℕ) : ℕ :=
  match i, input with
  | .IDLE, 4 => 3
  | .STARTING, 0 => 5
  | .STARTING, 2 => 6
  | .STARTING, 3 => 7
  | .STARTING, 4 => 2
  | .STARTING, 5 => 8
  | .STARTING, 7 => 9
  | .STARTING, 8 => 0
  | .RESUMING, 2 => 6
  | .RESUMING, 3 => 7
  | .RESUMING, 5 => 8
  | .RESUMING, 7 => 9
  | .RESUMING, 8 => 0
  | .MESSAGING, 6 => 4
  | .ENDING, 8 => 0
  | _, _ => 1

/-- The chip and the DMA unit of a controller. `move` is what they do by
themselves, `TC` the chip's transfer count. -/
structure DataPath (D : Type) where
  startdma : D → Sdcom → ℕ → D
  stopdma : D → Sdcom → D
  TC : D → ℕ
  setTC : D → ℕ → D
  setCDB : D → List (BitVec 8) → D
  /-- The unit and the direction. -/
  setDI : D → Sdcom → D
  move : D → ℕ → D

/-- A controller: for each unit its requests and its saved transfer count, the start
list, the current unit and the state. `asked` and `done` are the requests that
were queued and those whose handler was called, with the status if it is okay. -/
structure Card (D : Type) where
  com : UnitNo → List Sdcom
  tc : UnitNo → ℕ
  start : List UnitNo
  cur : UnitNo
  istate : IState
  away : UnitNo → Bool
  asked : UnitNo → List Sdcom
  done : UnitNo → List (Sdcom × Option ℕ)
  path : D

namespace Card

variable {D : Type}

def setCom (s : Card D) (u : UnitNo) (l : List Sdcom) : Card D :=
  { s with com := Function.update s.com u l }

def setTc (s : Card D) (u : UnitNo) (n : ℕ) : Card D := { s with tc := Function.update s.tc u n }

def setStart (s : Card D) (l : List UnitNo) : Card D := { s with start := l }

def setCur (s : Card D) (u : UnitNo) : Card D := { s with cur := u }

def setIstate (s : Card D) (i : IState) : Card D := { s with istate := i }

def setAway (s : Card D) (u : UnitNo) (b : Bool) : Card D :=
  { s with away := Function.update s.away u b }

def setPath (s : Card D) (d : D) : Card D := { s with path := d }

def ask (s : Card D) (r : Sdcom) : Card D :=
  { s with asked := Function.update s.asked r.unit (s.asked r.unit ++ [r]) }

/-- `(*cp->intr)(cp)`, of which only the call is kept. -/
def intr (s : Card D) (u : UnitNo) (r : Sdcom) (okay : Option ℕ) : Card D :=
  { s with done := Function.update s.done u (s.done u ++ [(r, okay)]) }

variable (P : DataPath D)

def startdma (s : Card D) (u : UnitNo) (r : Sdcom) : Card D :=
  s.setPath (P.startdma s.path r (s.tc u))

/-- `stopdma`, with the request of the current unit. -/
def stopdma (s : Card D) : Card D :=
  match s.com s.cur with
  | r :: _ => s.setPath (P.stopdma s.path r)
  | [] => s

def startany (s : Card D) : Card D :=
  match s.istate, s.start with
  | .IDLE, u :: rest =>
    match s.com u with
    | r :: _ =>
      let s := (s.setStart rest).setCur u
      let s := s.setPath (P.setDI (P.setCDB s.path r.cdb) r)
      let s := s.setTc u (r.nbyte % 0x1000000)
      (s.startdma P u r).setIstate .STARTING
    | [] => s
  | _, _ => s

def uqueue (s : Card D) (u : UnitNo) : Card D :=
  if s.start ≠ [] then s.setStart (s.start ++ [u]) else (s.setStart [u]).startany P

/-- `a3091queue` and `a2091queue`. -/
def queue (s : Card D) (r : Sdcom) : Card D :=
  let s := s.ask r
  if s.com r.unit ≠ [] then s.setCom r.unit (s.com r.unit ++ [r])
  else (s.setCom r.unit [r]).uqueue P r.unit

/-- An interrupt: the status, and what the chip's registers hold. `moved` bytes were
transferred before it; `calls` are the requests that the handler of the request
that ends queues itself. -/
structure Interrupt where
  ss : ℕ
  si : BitVec 8
  cp : ℕ
  ts : ℕ
  dr : ℕ
  moved : ℕ
  calls : List Sdcom

/-- Actions 0 and 5. -/
def complete (s : Card D) (okay : Option ℕ) (calls : List Sdcom) : Card D :=
  let s := s.stopdma P
  match s.com s.cur with
  | r :: rest =>
    let u := s.cur
    let s := s.setCom u rest
    let s := if rest ≠ [] then s.uqueue P u else s
    let s := calls.foldl (fun s r => s.queue P r) (s.intr u r okay)
    (s.setIstate .IDLE).startany P
  | [] => s

/-- Action 3. -/
def resume (s : Card D) (si : BitVec 8) : Card D :=
  let u := si.setWidth 3
  match s.com u with
  | r :: _ =>
    let s := s.startdma P u r
    let s := (s.setPath (P.setDI s.path r)).setAway u false
    (s.setCur u).setIstate .RESUMING
  | [] => s.setIstate .DEAD

/-- `a3091intr` and `service`. -/
def service (s : Card D) (e : Interrupt) : Card D :=
  let s := s.setPath (P.move s.path e.moved)
  match atab s.istate (itab e.ss) with
  | 0 => s.complete P (if e.cp = 0x60 then some e.ts else none) e.calls
  | 1 => s.setIstate .DEAD
  | 2 => ((s.stopdma P).uqueue P s.cur).resume P e.si
  | 3 => s.resume P e.si
  | 4 => (s.setPath (P.setTC s.path (s.tc s.cur))).setIstate .RESUMING
  | 5 => s.complete P none e.calls
  | 6 => (s.setTc s.cur (P.TC s.path)).setIstate .RESUMING
  | 7 =>
    let s := s.stopdma P
    ((s.setAway s.cur true).setIstate .IDLE).startany P
  | 8 => s.setIstate (if e.dr = 0x03 then .MESSAGING else .DEAD)
  | _ => (s.setPath (P.setTC s.path 0)).setIstate .ENDING

inductive Event
  | queue (r : Sdcom)
  | intr (e : Interrupt)

def step (s : Card D) : Event → Card D
  | .queue r => s.queue P r
  | .intr e => s.service P e

/-- A controller before its first request. -/
def init (d : D) : Card D where
  com _ := []
  tc _ := 0
  start := []
  cur := 0#3
  istate := .IDLE
  away _ := false
  asked _ := []
  done _ := []
  path := d

end Card

/-! ### The two drivers -/

/-- A 32-bit address or count. -/
def u32 (x : ℕ) : ℕ := x % 0x100000000

/-- The registers that the drivers load: the chip's transfer count, command block, unit
and direction, and the address and direction of the DMA unit. -/
structure Regs where
  TC : ℕ
  CDB : List (BitVec 8)
  DI : UnitNo × Bool
  sac : ℕ
  cntr : Bool

def Regs.setTC (d : Regs) (n : ℕ) : Regs := { d with TC := n }

def Regs.setCDB (d : Regs) (l : List (BitVec 8)) : Regs := { d with CDB := l }

def Regs.setDI (d : Regs) (r : Sdcom) : Regs := { d with DI := (r.unit, r.reading) }

def Regs.setDma (d : Regs) (sac : ℕ) (cntr : Bool) : Regs := { d with sac := sac, cntr := cntr }

/-- The chip counts down and the DMA unit goes on; they stop when the count is 0. -/
def Regs.move (d : Regs) (k : ℕ) : Regs :=
  (d.setTC (d.TC - k)).setDma (u32 (d.sac + min k d.TC)) d.cntr

/-- The A3000's controller, with `dma_on`. -/
structure A3091 extends Regs where
  dma_on : Bool

namespace A3091

def setRegs (d : A3091) (r : Regs) : A3091 := { d with toRegs := r }

def setOn (d : A3091) (b : Bool) : A3091 := { d with dma_on := b }

def startdma (d : A3091) (r : Sdcom) (tc : ℕ) : A3091 :=
  let d := d.setRegs (d.setTC tc)
  if tc = 0 then d
  else (d.setRegs (d.setDma (u32 (r.addr + r.nbyte + 0x100000000 - tc)) r.reading)).setOn true

def path : DataPath A3091 where
  startdma := startdma
  stopdma d _ := if d.dma_on then d.setOn false else d
  TC d := d.TC
  setTC d n := d.setRegs (d.setTC n)
  setCDB d l := d.setRegs (d.setCDB l)
  setDI d r := d.setRegs (d.setDI r)
  move d k := d.setRegs (d.move k)

def a3091queue (s : Card A3091) (r : Sdcom) : Card A3091 := s.queue path r

def a3091intr (s : Card A3091) (e : Card.Interrupt) : Card A3091 := s.service path e

end A3091

/-- An A2091, with the count of the transfer and the chip memory through which it goes
if the buffer cannot be reached. -/
structure A2091 extends Regs where
  tc : ℕ
  chipaddr : Option ℕ

namespace A2091

def setRegs (d : A2091) (r : Regs) : A2091 := { d with toRegs := r }

def setTransfer (d : A2091) (tc : ℕ) (chipaddr : Option ℕ) : A2091 :=
  { d with tc := tc, chipaddr := chipaddr }

variable (AllocMem : ℕ → ℕ)

def startdma (d : A2091) (r : Sdcom) (tc : ℕ) : A2091 :=
  let d := (d.setRegs (d.setTC tc)).setTransfer tc d.chipaddr
  if tc = 0 then d
  else if 0x1000000 ≤ r.addr then
    (d.setRegs (d.setDma (AllocMem tc) r.reading)).setTransfer tc (some (AllocMem tc))
  else d.setRegs (d.setDma (u32 (r.addr + r.nbyte + 0x100000000 - tc)) r.reading)

def path : DataPath A2091 where
  startdma := startdma AllocMem
  stopdma d _ := if d.tc = 0 then d else d.setTransfer d.tc none
  TC d := d.TC
  setTC d n := d.setRegs (d.setTC n)
  setCDB d l := d.setRegs (d.setCDB l)
  setDI d r := d.setRegs (d.setDI r)
  move d k := d.setRegs (d.move k)

def a2091queue (s : Card A2091) (r : Sdcom) : Card A2091 := s.queue (path AllocMem) r

def service (s : Card A2091) (e : Card.Interrupt) : Card A2091 := s.service (path AllocMem) e

end A2091

end HydraAmix.Scsi.Controller
