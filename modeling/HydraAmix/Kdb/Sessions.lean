import HydraAmix.Library.Schedule
import Mathlib.Logic.Function.Basic
import Mathlib.Data.List.Pairwise

/-!
# Sessions with a remote kernel

Both sides of the remote kernel debugger, for one debugger process. Requests are numbered
in the order in which `send_kdb_packet` sends them first, and a response carries the number
of the request that was executed for it; neither is in the packets, whose ids are 32-bit
numbers that start from the clock whenever the debugger opens the device.

The links are first-in-first-out queues, from which any packet may be lost. On the debugged
system `Handle_KDB_Packet` is called from the interrupt while the kernel runs and from the
loop of `kdebug` while it is stopped; a command that faults ends up in the debugger through
the panic hook, without a response. What else commands do to the machine is left out.
-/
namespace HydraAmix.Kdb.Remote
open Schedule

abbrev Id := BitVec 32

inductive Command where
  | ECHO | READ | WRITE | STOP | WSTOP | STATUS | RUN | GFAULT | SFAULT | CFAULT | GREG | SREG
  | GFPREG | SFPREG | NMAP | MAP | other
  deriving DecidableEq

structure Request where
  transmit_id : Id
  command : Command
  deriving DecidableEq

/-- A response, with the number of the request that was executed for it. -/
structure Response where
  transmit_id : Id
  of : ℕ
  deriving DecidableEq

/-- The debugger process: without the device, in `rkopen`, with the device, or asleep in
`send_kdb_packet`, with or without a copy of the message. -/
inductive Ctl where
  | closed | opening | opened | sending (mp : Bool) | panicked
  deriving DecidableEq

/-- The debugger: the clock, `rkunit` and its process, bind requests that were not answered
yet, the requests made so far, and the responses that were returned for them. -/
structure Rkunit where
  hrestime : Id
  id : Id
  rkopened : Bool
  response : Option Response
  ctl : Ctl
  binds : ℕ
  count : ℕ
  req : ℕ → Request
  returned : List (ℕ × Response)

/-- The debugged system: `rkdb`, and how often each request was executed. -/
structure Rkdb where
  stopped : Bool
  dstop : Bool
  wstop_id : Id
  last_transmit_id : Id
  last_response : Response
  exec : ℕ → ℕ

/-- The two systems, and the numbers of the requests and the responses under way. -/
structure System where
  unit : Rkunit
  rkdb : Rkdb
  toKernel : List ℕ
  toDebugger : List Response

/-- `dup` is whether `copymsg` succeeds. -/
inductive Event where
  | clock (t : Id)
  | rkopen (alloc : Bool)
  | rkclose
  | bindAck (junk : Response)
  | opened
  | send (command : Command) (dup : Bool)
  | wake (dup : Bool)
  | signal
  | loseRequest (i : ℕ)
  | loseResponse (i : ℕ)
  | request (fault : Bool)
  | response (alloc : Bool)
  | kdebug (clock escape : Bool)

namespace Rkunit

def clock (u : Rkunit) (t : Id) : Rkunit := if u.hrestime ≤ t then { u with hrestime := t } else u

/-- `rkopen`, up to its sleep. -/
def rkopen (u : Rkunit) (alloc : Bool) : Rkunit :=
  match u.ctl with
  | .closed =>
      if u.rkopened then { u with ctl := .opened }
      else if alloc then { u with id := u.hrestime, ctl := .opening, binds := u.binds + 1 }
      else { u with id := u.hrestime }
  | _ => u

def opened (u : Rkunit) : Rkunit :=
  if u.ctl = .opening ∧ u.rkopened = true then { u with ctl := .opened } else u

def rkclose (u : Rkunit) : Rkunit :=
  if u.ctl = .opened then { u with ctl := .closed, rkopened := false } else u

/-- What comes while the device is not open is taken for the answer to a bind request. -/
def rkdrput (u : Rkunit) (r : Response) (alloc : Bool) : Rkunit :=
  if u.rkopened = false then { u with rkopened := true }
  else { u with response := if alloc then some r else none }

/-- The answer to a bind request. As a response its bytes mean nothing. -/
def bindAck (u : Rkunit) (junk : Response) : Rkunit :=
  if u.binds = 0 then u else ({ u with binds := u.binds - 1 }).rkdrput junk true

/-- The last request. -/
def current (u : Rkunit) : ℕ := u.count - 1

/-- `send_kdb_packet`, up to its first sleep. -/
def send (u : Rkunit) (command : Command) (dup : Bool) : Rkunit × List ℕ :=
  match u.ctl with
  | .opened =>
      ({ u with
        id := u.id + 1
        count := u.count + 1
        req := Function.update u.req u.count ⟨u.id, command⟩
        response := none
        ctl := .sending dup }, [u.count])
  | _ => (u, [])

/-- The process comes back from its sleep, woken or after a second. -/
def wake (u : Rkunit) (dup : Bool) : Rkunit × List ℕ :=
  match u.ctl, u.response with
  | .sending true, none => ({ u with ctl := .sending dup }, [u.current])
  | .sending false, none => ({ u with ctl := .opened }, [])
  | .sending mp, some r =>
      if r.transmit_id = (u.req u.current).transmit_id then
        ({ u with ctl := .opened, returned := u.returned ++ [(u.current, r)] }, [])
      else if mp then ({ u with ctl := .sending dup, response := none }, [u.current])
      else ({ u with ctl := .panicked, response := none }, [])
  | _, _ => (u, [])

def signal (u : Rkunit) : Rkunit :=
  match u.ctl with
  | .sending _ => { u with ctl := .opened }
  | .opening => { u with ctl := .closed }
  | _ => u

end Rkunit

namespace Rkdb

/-- `Send_KDB_Packet`. -/
def sendKdbPacket (d : Rkdb) : Rkdb × List Response :=
  ({ d with last_transmit_id := d.last_response.transmit_id }, [d.last_response])

def execute (d : Rkdb) (k : ℕ) : Rkdb :=
  { d with exec := Function.update d.exec k (d.exec k + 1) }

/-- The response that is prepared for a request. -/
def prepare (d : Rkdb) (k : ℕ) (id : Id) : Rkdb :=
  { d with last_response := ⟨id, k⟩, wstop_id := 0 }

/-- `Handle_KDB_Packet`, of the request `k`. A stop of a running kernel is registered, and
answered later. -/
def handle (d : Rkdb) (k : ℕ) (r : Request) (fault : Bool) : Rkdb × List Response :=
  if r.transmit_id = d.last_transmit_id then d.sendKdbPacket
  else
    let d := d.prepare k r.transmit_id
    match r.command with
    | .STOP =>
        if d.stopped then (d.execute k).sendKdbPacket
        else ({ d with dstop := true, wstop_id := r.transmit_id }, [])
    | .WSTOP =>
        if d.stopped then (d.execute k).sendKdbPacket
        else ({ d with wstop_id := r.transmit_id }, [])
    | .RUN => ({ d.execute k with stopped := false }).sendKdbPacket
    | _ =>
        if fault then ({ d.execute k with stopped := true, dstop := false }, [])
        else (d.execute k).sendKdbPacket

/-- The stop that waits is answered. -/
def answerStop (d : Rkdb) : Rkdb × List Response :=
  if d.wstop_id = 0 then (d, [])
  else
    ({ d with
      last_response := { d.last_response with transmit_id := d.wstop_id }
      last_transmit_id := d.wstop_id
      wstop_id := 0 }, [{ d.last_response with transmit_id := d.wstop_id }])

/-- `kdebug`, up to its loop: on a tick with a stop posted, or on a trap, where ESC may be
pressed. -/
def kdebug (d : Rkdb) (clock escape : Bool) : Rkdb × List Response :=
  if d.stopped = true ∨ clock = true ∧ d.dstop = false then (d, [])
  else if escape = true ∧ clock = false then ({ d with dstop := false }, [])
  else ({ d with dstop := false, stopped := true }).answerStop

end Rkdb

namespace System

def setUnit (s : System) (u : Rkunit) : System := { s with unit := u }

/-- A step of the debugger, with the requests it sends. -/
def debugger (s : System) (x : Rkunit × List ℕ) : System :=
  { s with unit := x.1, toKernel := s.toKernel ++ x.2 }

/-- A step of the debugged system, with the responses it sends. -/
def kernel (s : System) (x : Rkdb × List Response) : System :=
  { s with rkdb := x.1, toDebugger := s.toDebugger ++ x.2 }

def step (s : System) : Event → System
  | .clock t => s.setUnit (s.unit.clock t)
  | .rkopen alloc => s.setUnit (s.unit.rkopen alloc)
  | .rkclose => s.setUnit s.unit.rkclose
  | .bindAck junk => s.setUnit (s.unit.bindAck junk)
  | .opened => s.setUnit s.unit.opened
  | .send command dup => s.debugger (s.unit.send command dup)
  | .wake dup => s.debugger (s.unit.wake dup)
  | .signal => s.setUnit s.unit.signal
  | .loseRequest i => { s with toKernel := s.toKernel.eraseIdx i }
  | .loseResponse i => { s with toDebugger := s.toDebugger.eraseIdx i }
  | .request fault =>
      match s.toKernel with
      | k :: rest => ({ s with toKernel := rest }).kernel (s.rkdb.handle k (s.unit.req k) fault)
      | [] => s
  | .response alloc =>
      match s.toDebugger with
      | r :: rest => ({ s with toDebugger := rest }).setUnit (s.unit.rkdrput r alloc)
      | [] => s
  | .kdebug clock escape => s.kernel (s.rkdb.kdebug clock escape)

/-- Both systems after they have started, at the time `t`. -/
def boot (t : Id) : System where
  unit := ⟨t, 0, false, none, .closed, 0, 0, fun _ => ⟨0, .other⟩, []⟩
  rkdb := ⟨false, false, 0, 0, ⟨0, 0⟩, fun _ => 0⟩
  toKernel := []
  toDebugger := []

/-! ### What is claimed -/

/-- Each request was executed at most once, registrations of a pending stop apart, and each
response that was returned was produced by executing the request it was returned for. -/
def AsAnswered (s : System) : Prop :=
  (∀ k, s.rkdb.exec k ≤ 1) ∧ ∀ x ∈ s.unit.returned, x.2.of = x.1

/-- The device is opened at a time after all ids so far; ids do not wrap around; the answer
to a bind request is the first to come after it; and commands do not fault. -/
def Careful (s : System) : Event → Prop
  | .rkopen _ => s.unit.ctl = .closed → s.unit.rkopened = false →
      0 < s.unit.hrestime ∧ s.unit.id ≤ s.unit.hrestime
  | .send _ _ => s.unit.id.toNat + 1 < 0x100000000
  | .bindAck _ => s.unit.rkopened = false
  | .request fault => fault = false
  | _ => True

end System
end HydraAmix.Kdb.Remote
