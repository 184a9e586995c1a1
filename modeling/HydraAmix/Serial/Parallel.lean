import HydraAmix.Library.Schedule
import Mathlib.Logic.Function.Basic
import Mathlib.Data.List.Pairwise

/-!
# The parallel port

Output of the generic parallel driver. A writer takes one byte after another from its
buffer; a byte is started at once, or queued behind the one that is pending, and a writer
that finds the queue full sleeps with the byte in hand. The pending byte is put on the
port unless the control lines stop it, and then is tried again every second; where it is
not acknowledged for a minute, an error is left for the writers and it is put there again.

A byte carries its place in the order in which bytes are taken, and its writer. The code
never reads these. Reading the next byte from user memory may wait for a page, so the
bytes that a writer takes are separate events. The device stays open, and clist space
never runs out.
-/
namespace HydraAmix.Serial

abbrev Pid := ℕ

/-- A byte that was removed from a writer's buffer. -/
structure Taken where
  no : ℕ
  owner : Pid
  ch : BitVec 8
  deriving DecidableEq

/-- Where a process is in `parwrite`; `out` is outside, and says if it got EIO. -/
inductive ParCtl where
  | out (eio : Bool)
  | writing (rest : List (BitVec 8)) (fsync : Bool)
  | holding (t : Taken) (rest : List (BitVec 8)) (fsync : Bool)
  | syncing
  deriving DecidableEq

/-- What `timeout` was asked to call. -/
inductive ParTimer where
  | parstart (t : Taken)
  | partimeout
  deriving DecidableEq

abbrev PAR_HIWAT : ℕ := 400
abbrev C_SEL : BitVec 8 := 0x04

/-- The driver. `removed` are the bytes taken from the writers and `port` the bytes put on
the data port, each in order. -/
structure Par where
  outslp : Bool
  flushing : Bool
  outpend : Bool
  outstop : Bool
  outerr : Bool
  control_bits : BitVec 8
  pra : BitVec 8
  outq : List Taken
  currentbyte : Taken
  callouts : List (ℕ × ParTimer)
  timeout_id : ℕ
  nextId : ℕ
  ctl : Pid → ParCtl
  asleep : Pid → Bool
  removed : List Taken
  port : List Taken

inductive ParEvent where
  | parwrite (p : Pid) (bytes : List (BitVec 8)) (fsync : Bool)
  | run (p : Pid)
  | parintr
  | callout (id : ℕ)
  | lines (pra : BitVec 8)
  | setctl (arg : BitVec 8)

namespace Par

def setCtl (s : Par) (p : Pid) (c : ParCtl) : Par := { s with ctl := Function.update s.ctl p c }

/-- `sleep(&par_outq)`. -/
def sleep (s : Par) (p : Pid) (c : ParCtl) : Par :=
  { s.setCtl p c with asleep := Function.update s.asleep p true }

/-- The control lines do not let a byte out. -/
def Stopped (s : Par) : Prop := (s.pra ^^^ C_SEL) &&& s.control_bits ≠ 0

instance (s : Par) : Decidable s.Stopped := by
  unfold Stopped
  infer_instance

def timeout (s : Par) (t : ParTimer) : Par :=
  { s with
    callouts := s.callouts ++ [(s.nextId, t)]
    timeout_id := s.nextId
    nextId := s.nextId + 1 }

def untimeout (s : Par) (id : ℕ) : Par :=
  { s with callouts := s.callouts.filter fun c => c.1 ≠ id }

def parstart (s : Par) (ch : Taken) : Par :=
  let s := { s with currentbyte := ch, outpend := true }
  if s.Stopped then ({ s with outstop := true }).timeout (.parstart ch)
  else ({ s with outstop := false, port := s.port ++ [ch] }).timeout .partimeout

/-- `wakeup(&par_outq)`, if anybody sleeps there. -/
def wakeWriters (s : Par) : Par :=
  if s.flushing ∨ s.outslp then
    { s with flushing := false, outslp := false, asleep := fun _ => false }
  else s

def parintr (s : Par) : Par :=
  if s.outpend then
    let s := s.untimeout s.timeout_id
    match s.outq with
    | ch :: rest => ({ s with outq := rest }).parstart ch
    | [] => ({ s with outpend := false }).wakeWriters
  else s

def partimeout (s : Par) : Par :=
  let s := if s.Stopped then s else ({ s with outerr := true }).wakeWriters
  s.parstart s.currentbyte

/-- The part of the loop of `parwrite` that follows `uwritec`. -/
def give (s : Par) (p : Pid) (t : Taken) (rest : List (BitVec 8)) (fsync : Bool) : Par :=
  if s.outerr = false ∧ PAR_HIWAT < s.outq.length then
    ({ s with outslp := true }).sleep p (.holding t rest fsync)
  else if s.outerr then ({ s with outerr := false }).setCtl p (.out true)
  else
    (if s.outpend then { s with outq := s.outq ++ [t] } else s.parstart t).setCtl p
      (.writing rest fsync)

/-- The part of `parwrite` for FSYNC. -/
def drain (s : Par) (p : Pid) : Par :=
  if s.outpend ∧ s.outerr = false then ({ s with flushing := true }).sleep p .syncing
  else if s.outerr then ({ s with outerr := false }).setCtl p (.out true)
  else s.setCtl p (.out false)

/-- The byte that a process takes next, with its place. -/
def next (s : Par) (p : Pid) (ch : BitVec 8) : Taken := ⟨s.removed.length, p, ch⟩

/-- A process that is awake goes on, up to the next byte. -/
def goOn (s : Par) (p : Pid) : Par :=
  if s.asleep p then s
  else
    match s.ctl p with
    | .out _ => s
    | .writing (ch :: rest) fsync =>
        ({ s with removed := s.removed ++ [s.next p ch] }).give p (s.next p ch) rest fsync
    | .writing [] true => s.drain p
    | .writing [] false => s.setCtl p (.out false)
    | .holding t rest fsync => s.give p t rest fsync
    | .syncing => s.drain p

def step (s : Par) : ParEvent → Par
  | .parwrite p bytes fsync =>
      match s.ctl p with
      | .out _ => s.setCtl p (.writing bytes fsync)
      | _ => s
  | .run p => s.goOn p
  | .parintr => s.parintr
  | .callout id =>
      match s.callouts.find? fun c => c.1 = id with
      | none => s
      | some (_, .parstart ch) => (s.untimeout id).parstart ch
      | some (_, .partimeout) => (s.untimeout id).partimeout
  | .lines pra => { s with pra := pra }
  | .setctl arg => { s with control_bits := arg &&& 0x07 }

/-- After the open. -/
def boot : Par where
  outslp := false
  flushing := false
  outpend := false
  outstop := false
  outerr := false
  control_bits := 0x07
  pra := C_SEL
  outq := []
  currentbyte := ⟨0, 0, 0⟩
  callouts := []
  timeout_id := 0
  nextId := 0
  ctl _ := .out false
  asleep _ := false
  removed := []
  port := []

end Par
end HydraAmix.Serial
