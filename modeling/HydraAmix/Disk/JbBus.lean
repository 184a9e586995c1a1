import HydraAmix.Library.Schedule
import Mathlib.Logic.Basic
import Mathlib.Data.List.Basic

/-!
# The bus of the A2090

An A2090 has one bus for ST506 drives and for SCSI. The allocator of `jb.c` hands it
between the two drivers, `hd.c` and `a2090.c`: a driver that finds it in the other mode
leaves its start function in `jbfunc`, and the driver that has nothing more to do passes
the bus on. A bus is one controller that `jbinit` has initialised, after `hdopen`; the
others have variables of their own.

`jbpass` calls the registered function, which may call `jbpass`. The first argument of
the functions that reach it is how deep these calls may nest; `none` is deeper than that.
All run at the level of the interrupt, so an event is a call or an interrupt as a whole,
with the calls that the handlers of its ended requests make. The registers of the chips
keep what was last loaded; timing and statistics are left out.
-/
namespace HydraAmix.Disk.Jb

abbrev Byte := BitVec 8

/-- What the drivers read and write of a `struct sdcom`. -/
structure Sdcom where
  reading : Bool
  okay : Bool
  status : Byte
  cdb : List Byte
  addr : ℕ
  nbyte : ℕ
  unit : ℕ
  deriving DecidableEq

/-- What `hd.c` reads and writes of a `struct buf`. -/
structure Buf where
  pdev : ℕ
  read : Bool
  error : Bool
  blkno : ℕ
  bcount : ℕ
  resid : ℕ
  addr : ℕ
  deriving DecidableEq

/-- `struct hdcom`, without the errors that the controller writes. -/
structure Hdcom where
  code : Byte
  usec : Byte
  lsec : BitVec 16
  nblk : Byte
  hdma : Byte
  mdma : Byte
  ldma : Byte
  deriving DecidableEq

abbrev MAXTRAN : ℕ := 256
abbrev NTRY : ℕ := 3
abbrev CRCOM : Byte := 0x08
abbrev CWCOM : Byte := 0x0a

/-- A start function that can be registered. -/
inductive Start where
  | hdstart | start
  deriving DecidableEq

/-- One controller. `head` is the SCSI queue; `acts` is a place in the ST506 queue, `none`
its header. `command` and `loaded` are the last commands given to the two chips, `ended`
and `iodone` the requests whose handlers were called. -/
structure Bus where
  jbbusy : Bool
  jbscsi : Bool
  jbfunc : Option Start
  bcsel : Bool
  head : List Sdcom
  busy : Bool
  initialized : Bool
  queue : List Buf
  acts : Option ℕ
  dirn : Bool
  active : ℕ
  errcnt : ℕ
  command : Option Hdcom
  loaded : Option Sdcom
  ended : List Sdcom
  iodone : List Buf

/-- The block that `hdstart` writes. -/
def Buf.hdcom (bp : Buf) : Hdcom :=
  let off := bp.bcount - bp.resid
  let bno := bp.blkno + off / 512
  let pad := bp.addr + off
  { code := if bp.read then CRCOM else CWCOM
    usec := BitVec.ofNat 8 (bp.pdev <<< 5 ||| (bno >>> 16 &&& 0x1f))
    lsec := BitVec.ofNat 16 bno
    nblk := BitVec.ofNat 8 (if MAXTRAN ≤ bp.resid / 512 then MAXTRAN else bp.resid / 512)
    hdma := BitVec.ofNat 8 (pad >>> 16)
    mdma := BitVec.ofNat 8 (pad >>> 8)
    ldma := BitVec.ofNat 8 pad }

namespace Bus

def setmode (s : Bus) (bm : Bool) : Bus :=
  { s with bcsel := if s.jbscsi ≠ bm then bm else s.bcsel, jbscsi := bm }

/-- The request at `acts`. -/
def current (s : Bus) : Option Buf := s.acts.bind fun i => s.queue[i]?

/-! ### The start functions -/

/-- `hdstart`, with the function that passes the bus on. -/
def hdstart (jbpass : Bus → Option Bus) (s : Bus) : Option Bus :=
  if s.active ≠ 0 then jbpass s
  else
    match s.current with
    | none => jbpass s
    | some bp => some { s with active := s.active + 1, command := some bp.hdcom }

/-- `start` of `a2090.c`. -/
def start (jbpass : Bus → Option Bus) (s : Bus) : Option Bus :=
  if s.busy then some s
  else
    match s.head with
    | [] => jbpass s
    | cp :: _ => some { s with initialized := true, loaded := some cp, busy := true }

def call (jbpass : Bus → Option Bus) (f : Start) (s : Bus) : Option Bus :=
  match f with
  | .hdstart => s.hdstart jbpass
  | .start => s.start jbpass

/-- The registered function is cleared after it has run. -/
def jbpass : ℕ → Bus → Option Bus
  | 0, _ => none
  | n + 1, s =>
      match s.jbfunc with
      | none => some { s with jbbusy := false }
      | some f =>
          ((s.setmode (!s.jbscsi)).call (jbpass n) f).map fun s => { s with jbfunc := none }

/-- A bus in the other mode is asked for; a free bus, or one in this mode, is taken. -/
def jbcall (n : ℕ) (bm : Bool) (fp : Start) (s : Bus) : Option Bus :=
  if s.jbbusy ∧ bm ≠ s.jbscsi then some { s with jbfunc := some fp }
  else (({ s with jbbusy := true }).setmode bm).call (jbpass n) fp

/-! ### The queue of `hd.c` -/

/-- The queue is kept by falling block numbers; a request for a block that is there
already goes before it. -/
def hdinsq (s : Bus) (bp : Buf) : Bus :=
  let i := (s.queue.takeWhile fun xp => bp.blkno < xp.blkno).length
  { s with
    errcnt := 0
    queue := s.queue.insertIdx i bp
    acts := match s.acts with
      | none => some i
      | some j => some (if i ≤ j then j + 1 else j) }

/-- The request at place `i` is removed. `acts` moves to its neighbour in the direction of
travel; at the end of the queue the direction is turned. -/
def hdremq (s : Bus) (i : ℕ) : Bus :=
  let queue := s.queue.eraseIdx i
  let forw := if i < queue.length then some i else none
  let back := if 0 < i then some (i - 1) else none
  match if s.dirn then forw else back with
  | some j => { s with queue := queue, acts := some j }
  | none => { s with queue := queue, dirn := !s.dirn, acts := if s.dirn then back else forw }

/-! ### Requests -/

def hdstrategy (n : ℕ) (s : Bus) (bp : Buf) : Option Bus :=
  let s := s.hdinsq { bp with resid := bp.bcount }
  if s.active = 0 then s.jbcall n false .hdstart else some s

def a2090queue (n : ℕ) (s : Bus) (cp : Sdcom) : Option Bus :=
  ({ s with head := s.head ++ [{ cp with okay := false }] }).jbcall n true .start

inductive Call where
  | hdstrategy (bp : Buf)
  | a2090queue (cp : Sdcom)

def doCall (n : ℕ) (s : Bus) : Call → Option Bus
  | .hdstrategy bp => s.hdstrategy n bp
  | .a2090queue cp => s.a2090queue n cp

/-! ### Interrupts -/

/-- What an interrupt handler finds in the registers, and what the handler of a request
that ends there calls: `iodone` only queues SCSI commands. -/
structure Reply where
  errs : Byte
  ss : Byte
  dmaDone : Bool
  phase : Byte
  status : Byte
  iodone : List Sdcom
  intr : List Call

/-- `hdremq` and `hddone` of the request at place `i`. -/
def hddone (n : ℕ) (s : Bus) (i : ℕ) (bp : Buf) (calls : List Sdcom) : Option Bus :=
  let s := s.hdremq i
  calls.foldlM (a2090queue n) { s with iodone := s.iodone ++ [bp] }

/-- The part of `hdintr` for the request at `acts`. -/
def hdend (n : ℕ) (s : Bus) (i : ℕ) (bp : Buf) (r : Reply) : Option Bus :=
  if r.errs &&& 0x7f = 0 then
    let nb := if MAXTRAN * 512 ≤ bp.resid then MAXTRAN * 512 else bp.resid
    let bp := { bp with resid := bp.resid - nb }
    let s := { s with queue := s.queue.set i bp }
    if bp.resid = 0 then s.hddone n i bp r.iodone else some s
  else
    let s := { s with errcnt := s.errcnt + 1 }
    if s.errcnt < NTRY then some s
    else
      let bp := { bp with error := true }
      ({ s with queue := s.queue.set i bp }).hddone n i bp r.iodone

def hdintr (n : ℕ) (s : Bus) (r : Reply) : Option Bus :=
  if s.active = 0 then some s
  else
    let s := { s with active := 0 }
    match s.acts, s.current with
    | some i, some bp => (s.hdend n i bp r).bind fun s => s.hdstart (jbpass n)
    | _, _ => s.hdstart (jbpass n)

/-- The command at the head of the queue ends, and its handler is called. -/
def finish (n : ℕ) (s : Bus) (cp : Sdcom) (calls : List Call) : Option Bus :=
  calls.foldlM (doCall n) { s with head := s.head.tail, ended := s.ended ++ [cp] }

def a2090intr (n : ℕ) (s : Bus) (r : Reply) : Option Bus :=
  let s := { s with initialized := true }
  match s.head with
  | [] => some s
  | cp :: rest =>
      if r.ss = 0x42 then
        (s.finish n cp r.intr).bind fun s => ({ s with busy := false }).start (jbpass n)
      else if r.ss = 0x4b then
        some { s with head := { cp with okay := true, status := r.status } :: rest }
      else if r.ss = 0x85 then
        (if r.dmaDone then
          let cp := if r.phase = 0x60 then { cp with okay := true, status := r.status } else cp
          s.finish n cp r.intr
        else some s).bind fun s => ({ s with busy := false }).start (jbpass n)
      else some s

/-- An interrupt goes to the driver whose mode the bus is in. -/
def jbintr (n : ℕ) (s : Bus) (r : Reply) : Option Bus :=
  if s.jbscsi then s.a2090intr n r else s.hdintr n r

inductive Event where
  | call (c : Call)
  | interrupt (r : Reply)

def step (n : ℕ) (s : Bus) : Event → Option Bus
  | .call c => s.doCall n c
  | .interrupt r => s.jbintr n r

/-- The run of a schedule, or `none` where calls of `jbpass` nest deeper than `n`. -/
def run (n : ℕ) (s : Bus) (es : List Event) : Option Bus := es.foldlM (step n) s

/-- After `jbinit` and `hdopen`. -/
def boot : Bus where
  jbbusy := false
  jbscsi := true
  jbfunc := none
  bcsel := true
  head := []
  busy := false
  initialized := false
  queue := []
  acts := none
  dirn := true
  active := 0
  errcnt := 0
  command := none
  loaded := none
  ended := []
  iodone := []

end Bus
end HydraAmix.Disk.Jb
