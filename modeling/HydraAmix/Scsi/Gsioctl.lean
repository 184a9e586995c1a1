import HydraAmix.Library.Schedule
import HydraAmix.Library.Exclusive
import Mathlib.Logic.Function.Basic
import Mathlib.Data.List.Basic

/-!
# Generic SCSI requests

`gsioctl` copies the caller's `struct sdcom` into a static block, queues the block on the
controller of its card, sleeps until it has ended, and copies the block and the data back.
The block, the data buffer and the flag are the same for all callers, and a copy to or from
user memory may wait for a page, so that other processes run meanwhile.

The places of the block in the controllers' queues are kept in one list, with the process
that queued it; commands of other drivers only delay it. The call of `sdqueue` is one step.
The bytes of a reading command arrive in order, and its ending is an event of its own.
-/
namespace HydraAmix.Scsi.Generic
open Schedule

abbrev Byte := BitVec 8
abbrev Pid := ℕ

abbrev DMA_GRANULARITY : ℕ := 4
abbrev SDCARDS : ℕ := 2
abbrev SDUNITS : ℕ := 8
/-- `sizeof iobuf`. -/
abbrev IOBUF : ℕ := 1024

/-- The queuing functions of the controllers. -/
inductive Queuing where
  | a3091queue | a2090queue | a2091queue
  deriving DecidableEq

/-- A buffer address: of the caller, or of `iobuf`. -/
inductive Addr where
  | user (a : ℕ) | iobuf
  deriving DecidableEq

inductive Handler where
  | user (a : ℕ) | ihandle
  deriving DecidableEq

structure Sdcom where
  reading : Bool
  okay : Bool
  status : Byte
  cdb : List Byte
  addr : Addr
  nbyte : ℕ
  card : ℕ
  unit : ℕ
  intr : Handler
  deriving DecidableEq

/-- What is asked of the controller. -/
def Sdcom.command (c : Sdcom) : Bool × List Byte × ℕ × ℕ × ℕ :=
  (c.reading, c.cdb, c.nbyte, c.card, c.unit)

/-- The ending of a command, of which only an okay one has a status. -/
def Sdcom.finish (c : Sdcom) (okay : Bool) (status : Byte) : Sdcom :=
  if okay then { c with okay := true, status := status } else c

/-- A caller's structure, and its memory at an address. -/
structure Args where
  com : Sdcom
  mem : Addr → ℕ → Byte

inductive Errno where
  | EINVAL | EFAULT | ENXIO
  deriving DecidableEq

/-- How the last call of a process ended. For a call that returned 0, `back` is what its
structure holds then and `data` what was copied to which of its buffers. -/
inductive Result where
  | none
  | error (e : Errno)
  | zero (a : Args) (back : Sdcom) (data : Option (Addr × List Byte))
  /-- The card's number had changed after the check, and the call went nowhere. -/
  | wild

/-- Where a process is in `gsioctl`. `begun` says that a part of the structure was copied. -/
inductive Ctl where
  | out (r : Result)
  | copyin (a : Args) (begun : Bool)
  | copydata (a : Args) (addr : Addr) (nbyte : ℕ)
  | waiting (a : Args) (ua : Addr)
  | copyout (a : Args) (ua : Addr) (nbyte : ℕ)
  | copyback (a : Args) (data : Option (Addr × List Byte))

/-- The process may use the block, or has written it. -/
def Ctl.Within : Ctl → Prop
  | .out _ | .copyin _ false => False
  | _ => True

/-- A place of the block in a queue. -/
structure Place where
  pid : Pid
  card : ℕ
  unit : ℕ
  deriving DecidableEq

/-- How a command ended: the block and the buffer then, and the bytes the device sent. -/
structure Answer where
  com : Sdcom
  out : ℕ → Byte
  sent : List Byte

structure Gsio where
  sdcom : Sdcom
  iobuf : ℕ → Byte
  done : Bool
  line : List Place
  sent : List Byte
  answers : Pid → Option Answer
  ctl : Pid → Ctl

/-- `part` and `fault` leave a copy into the block, or into the buffer, half done. -/
inductive Event where
  | gsioctl (p : Pid) (cmd : Bool) (a : Args)
  | part (p : Pid) (com : Sdcom) (buf : ℕ → Byte)
  | fault (p : Pid) (com : Sdcom) (buf : ℕ → Byte)
  | copied (p : Pid)
  | wake (p : Pid)
  | move (b : Byte)
  | intr (card unit : ℕ) (okay : Bool) (status : Byte)

namespace Gsio
open Errno

-- `queue[card].f`
variable (scsi : ℕ → Option Queuing)

def setCtl (s : Gsio) (p : Pid) (c : Ctl) : Gsio := { s with ctl := Function.update s.ctl p c }

def sdopen (card : ℕ) : Bool := card < SDCARDS ∧ (scsi card).isSome

/-- The queue for a unit. The A2090 has a single one. -/
def slot (f : Queuing) (unit : ℕ) : ℕ :=
  match f with
  | .a2090queue => 0
  | _ => unit

def sdqueue (s : Gsio) (p : Pid) (ua : Addr) (a : Args) : Gsio :=
  match scsi s.sdcom.card with
  | some f =>
      { s.setCtl p (.waiting a ua) with
        sdcom := { s.sdcom with okay := false }
        line := s.line ++ [⟨p, s.sdcom.card, slot f s.sdcom.unit⟩]
        sent := [] }
  | none => s.setCtl p (.out .wild)

/-- The part of `gsioctl` from `ua = sdcom.addr` to `sdqueue`. -/
def request (s : Gsio) (p : Pid) (a : Args) : Gsio :=
  let ua := s.sdcom.addr
  let s := { s with sdcom := { s.sdcom with addr := .iobuf, intr := .ihandle }, done := false }
  s.sdqueue scsi p ua a

/-- The part between the two copies. -/
def check (s : Gsio) (p : Pid) (a : Args) : Gsio :=
  if sdopen scsi s.sdcom.card = false then s.setCtl p (.out (.error ENXIO))
  else if s.sdcom.nbyte % DMA_GRANULARITY ≠ 0 ∨ IOBUF < s.sdcom.nbyte then
    s.setCtl p (.out (.error .EINVAL))
  else if s.sdcom.nbyte ≠ 0 ∧ s.sdcom.reading = false then
    s.setCtl p (.copydata a s.sdcom.addr s.sdcom.nbyte)
  else s.request scsi p a

/-- The first `n` bytes of the buffer. -/
def bytes (s : Gsio) (n : ℕ) : List Byte := (List.range n).map s.iobuf

/-- The copy that a process is in has ended. -/
def copied (s : Gsio) (p : Pid) : Gsio :=
  match s.ctl p with
  | .copyin a _ => ({ s with sdcom := a.com }).check scsi p a
  | .copydata a addr n =>
      ({ s with iobuf := fun i => if i < n then a.mem addr i else s.iobuf i }).request scsi p a
  | .copyout a ua n => s.setCtl p (.copyback a (some (ua, s.bytes n)))
  | .copyback a data => s.setCtl p (.out (.zero a s.sdcom data))
  | _ => s

def part (s : Gsio) (p : Pid) (com : Sdcom) (buf : ℕ → Byte) : Gsio :=
  match s.ctl p with
  | .copyin a _ => ({ s with sdcom := com }).setCtl p (.copyin a true)
  | .copydata _ _ _ => { s with iobuf := buf }
  | _ => s

def fault (s : Gsio) (p : Pid) (com : Sdcom) (buf : ℕ → Byte) : Gsio :=
  match s.ctl p with
  | .copyin _ _ => ({ s with sdcom := com }).setCtl p (.out (.error .EFAULT))
  | .copydata _ _ _ => ({ s with iobuf := buf }).setCtl p (.out (.error .EFAULT))
  | .copyout _ _ _ | .copyback _ _ => s.setCtl p (.out (.error .EFAULT))
  | _ => s

def wake (s : Gsio) (p : Pid) : Gsio :=
  match s.ctl p with
  | .waiting a ua =>
      if s.done = false then s
      else if s.sdcom.nbyte ≠ 0 ∧ s.sdcom.okay = true ∧ s.sdcom.reading = true then
        s.setCtl p (.copyout a ua s.sdcom.nbyte)
      else s.setCtl p (.copyback a none)
  | _ => s

/-- A byte from the device to the address in the block. -/
def move (s : Gsio) (b : Byte) : Gsio :=
  if s.line ≠ [] ∧ s.sdcom.reading = true ∧ s.sdcom.addr = .iobuf ∧
      s.sent.length < s.sdcom.nbyte then
    { s with iobuf := Function.update s.iobuf s.sent.length b, sent := s.sent ++ [b] }
  else s

/-- The end of a command, with the call of its handler. -/
def intr (s : Gsio) (card unit : ℕ) (okay : Bool) (status : Byte) : Gsio :=
  match s.line.find? fun x => x.card = card ∧ x.unit = unit with
  | some x =>
      let com := s.sdcom.finish okay status
      { s with
        sdcom := com
        line := s.line.erase x
        done := if com.intr = .ihandle then true else s.done
        answers := Function.update s.answers x.pid (some ⟨com, s.iobuf, s.sent⟩) }
  | none => s

/-- The call, up to the first copy. -/
def gsioctl (s : Gsio) (p : Pid) (cmd : Bool) (a : Args) : Gsio :=
  match s.ctl p with
  | .out _ => s.setCtl p (if cmd then .copyin a false else .out (.error .EINVAL))
  | _ => s

def step (s : Gsio) : Event → Gsio
  | .gsioctl p cmd a => s.gsioctl p cmd a
  | .part p com buf => s.part p com buf
  | .fault p com buf => s.fault p com buf
  | .copied p => s.copied scsi p
  | .wake p => s.wake p
  | .move b => s.move b
  | .intr card unit okay status => s.intr card unit okay status

def boot : Gsio where
  sdcom := ⟨false, false, 0, [], .user 0, 0, 0, 0, .user 0⟩
  iobuf _ := 0
  done := false
  line := []
  sent := []
  answers _ := none
  ctl _ := .out .none

/-! ### What is claimed -/

/-- The event is a step of a process. -/
def OfProcess : Event → Prop
  | .move _ | .intr _ _ _ _ => False
  | _ => True

end Gsio

/-- The command that ended is the one asked for, with the data that was to be written. -/
def Answer.Of (x : Answer) (a : Args) : Prop :=
  x.com.command = a.com.command ∧
    (a.com.reading = false → ∀ i < a.com.nbyte, x.out i = a.mem a.com.addr i)

/-- What a call that asked with `a` must return, from the ending of its command. -/
def Answer.Gives (x : Answer) (a : Args) (back : Sdcom) (data : Option (Addr × List Byte)) :
    Prop :=
  back.okay = x.com.okay ∧ back.status = x.com.status ∧
    data = if a.com.nbyte ≠ 0 ∧ x.com.okay = true ∧ a.com.reading = true then
      some (a.com.addr, x.sent) else none

namespace Gsio
variable (scsi : ℕ → Option Queuing)

/-- Each call that returned 0 returned the status and data of its own command. -/
def Returned (s : Gsio) : Prop :=
  ∀ p a back data, s.ctl p = .out (.zero a back data) →
    ∃ x, s.answers p = some x ∧ x.Of a ∧ x.Gives a back data

/-- The claims of one step: a command in progress is left alone and not queued again, unit
tables are indexed within their bounds, and calls return what is theirs. -/
structure Isolated (s : Gsio) (e : Event) : Prop where
  left : s.line ≠ [] → OfProcess e → (s.step scsi e).sdcom = s.sdcom ∧
    (s.step scsi e).iobuf = s.iobuf ∧ (s.step scsi e).line = s.line
  indexed : ∀ x ∈ (s.step scsi e).line, x.unit < SDUNITS
  returned : (s.step scsi e).Returned

/-- No other process may be using the block. -/
abbrev Alone (s : Gsio) (p : Pid) : Prop := Exclusive.Alone Ctl.Within s.ctl p

/-- The unit of a structure is one that its controller has. -/
def HasUnit (c : Sdcom) : Prop := ∀ f, scsi c.card = some f → slot f c.unit < SDUNITS

/-- A structure is copied only while no other process is using the block, and names a unit
of its controller; and a reading command that is okay has sent all its bytes. -/
def Careful (s : Gsio) : Event → Prop
  | .part p _ _ | .fault p _ _ => ∀ a b, s.ctl p = .copyin a b → s.Alone p
  | .copied p => ∀ a b, s.ctl p = .copyin a b → s.Alone p ∧ HasUnit scsi a.com
  | .intr _ _ okay _ =>
      s.line ≠ [] → s.sdcom.reading = true → okay = true → s.sent.length = s.sdcom.nbyte
  | _ => True

/-! ### The owner of the block -/

/-- The command of the process is in progress. -/
structure Running (s : Gsio) (p : Pid) (a : Args) : Prop where
  line : ∃ card unit, s.line = [⟨p, card, unit⟩] ∧ unit < SDUNITS
  notDone : s.done = false
  okay : s.sdcom.okay = false
  intr : s.sdcom.intr = .ihandle
  written : a.com.reading = false → ∀ i < a.com.nbyte, s.iobuf i = a.mem a.com.addr i
  sent : s.sent = s.bytes s.sent.length

/-- The command of the process has ended, and the block and the buffer are as they were then. -/
structure Ended (s : Gsio) (p : Pid) (a : Args) : Prop where
  line : s.line = []
  answer : ∃ x, s.answers p = some x ∧ x.Of a ∧ x.com = s.sdcom ∧
    (x.com.reading = true → x.com.okay = true → x.sent = s.bytes x.com.nbyte)

/-- What the block and the buffer are to the one process that may be using them. -/
def Owns (s : Gsio) (p : Pid) : Prop :=
  match s.ctl p with
  | .out _ | .copyin _ _ => s.line = []
  | .copydata a addr n => s.line = [] ∧ s.sdcom = a.com ∧ addr = a.com.addr ∧ n = a.com.nbyte ∧
      HasUnit scsi a.com ∧ (scsi a.com.card).isSome = true
  | .waiting a ua => ua = a.com.addr ∧ s.sdcom.command = a.com.command ∧
      (s.Running p a ∨ s.done = true ∧ s.Ended p a)
  | .copyout a ua n => ua = a.com.addr ∧ n = s.sdcom.nbyte ∧ s.Ended p a ∧
      s.sdcom.nbyte ≠ 0 ∧ s.sdcom.okay = true ∧ s.sdcom.reading = true
  | .copyback a data => s.Ended p a ∧ ∃ x, s.answers p = some x ∧ x.Gives a s.sdcom data

structure Inv (s : Gsio) : Prop where
  owner : ∃ p, s.Alone p ∧ s.Owns scsi p
  returned : s.Returned

section
variable {scsi : ℕ → Option Queuing} {s t : Gsio} {p : Pid} {a : Args} {c : Ctl}

theorem setCtl_self (s : Gsio) (p : Pid) (c : Ctl) : (s.setCtl p c).ctl p = c :=
  Function.update_self (β := fun _ => Ctl) p c s.ctl

theorem setCtl_of_ne {q : Pid} (h : q ≠ p) : (s.setCtl p c).ctl q = s.ctl q :=
  Function.update_of_ne (β := fun _ => Ctl) h c s.ctl

/-- What is relied on outside of the block: that no command is in progress. -/
theorem owns_outside (h : ¬(s.ctl p).Within) : s.Owns scsi p ↔ s.line = [] := by
  unfold Owns
  cases hctl : s.ctl p with
  | out r => exact Iff.rfl
  | copyin a b => exact Iff.rfl
  | copydata a addr n => exact absurd (by rw [hctl]; trivial) h
  | waiting a ua => exact absurd (by rw [hctl]; trivial) h
  | copyout a ua n => exact absurd (by rw [hctl]; trivial) h
  | copyback a data => exact absurd (by rw [hctl]; trivial) h

theorem Inv.owns (h : s.Inv scsi) (ha : s.Alone p) : s.Owns scsi p :=
  Exclusive.owner_of_alone h.owner (fun _ => owns_outside) ha

theorem Inv.within (h : s.Inv scsi) (hp : (s.ctl p).Within) : s.Alone p ∧ s.Owns scsi p :=
  Exclusive.owner_of_within h.owner hp

/-- What a step of the owner must do. -/
theorem Inv.step_owner (h : s.Inv scsi) (ha : s.Alone p)
    (hc : t.ctl = Function.update s.ctl p c) (hans : t.answers = s.answers)
    (ho : t.Owns scsi p)
    (hz : ∀ a back data, c = .out (.zero a back data) →
      ∃ x, s.answers p = some x ∧ x.Of a ∧ x.Gives a back data) : t.Inv scsi := by
  refine ⟨⟨p, ?_, ho⟩, fun q a back data hq => ?_⟩
  · change Exclusive.Alone _ t.ctl p
    rw [hc]
    exact ha.update c
  rw [hans]
  by_cases hpq : q = p
  · subst hpq
    rw [hc, Function.update_self] at hq
    exact hz a back data hq
  · rw [hc, Function.update_of_ne hpq] at hq
    exact h.returned q a back data hq

/-- Leaving with an error, with no command in progress. -/
theorem Inv.leave (h : s.Inv scsi) (ha : s.Alone p) {r : Result}
    (hc : t.ctl = Function.update s.ctl p (.out r)) (hans : t.answers = s.answers)
    (hline : t.line = []) (hr : ∀ a back data, r ≠ .zero a back data) : t.Inv scsi := by
  refine h.step_owner ha hc hans ?_ fun a back data he => absurd (Ctl.out.inj he) (hr a back data)
  unfold Owns
  rw [hc, Function.update_self]
  exact hline

/-! ### The steps of a process -/

theorem request_inv (h : s.Inv scsi) (ha : s.Alone p) (ht : t.ctl = s.ctl)
    (hans : t.answers = s.answers) (hline : t.line = []) (hcom : t.sdcom = a.com)
    (hunit : HasUnit scsi a.com) (hcard : (scsi a.com.card).isSome = true)
    (hw : a.com.reading = false → ∀ i < a.com.nbyte, t.iobuf i = a.mem a.com.addr i) :
    (t.request scsi p a).Inv scsi := by
  obtain ⟨f, hf⟩ := Option.isSome_iff_exists.mp hcard
  have hreq : t.request scsi p a = { t.setCtl p (.waiting a a.com.addr) with
      sdcom := { a.com with addr := .iobuf, intr := .ihandle, okay := false }
      done := false
      line := [⟨p, a.com.card, slot f a.com.unit⟩]
      sent := [] } := by
    unfold request sdqueue
    dsimp only
    rw [hcom, hf, hline]
    rfl
  rw [hreq]
  refine h.step_owner ha (c := .waiting a a.com.addr) ?_ hans ?_ fun a back data he => ?_
  · rw [← ht]
    rfl
  · unfold Owns setCtl
    dsimp only
    rw [Function.update_self]
    exact ⟨rfl, rfl, .inl ⟨⟨_, _, rfl, hunit f hf⟩, rfl, rfl, rfl, hw, rfl⟩⟩
  · exact Ctl.noConfusion he

theorem check_inv (h : s.Inv scsi) (ha : s.Alone p) (hline : s.line = [])
    (hunit : HasUnit scsi a.com) : (({ s with sdcom := a.com }).check scsi p a).Inv scsi := by
  unfold check
  dsimp only
  split_ifs with hopen hn hd
  · exact h.leave ha rfl rfl hline fun _ _ _ => Result.noConfusion
  · exact h.leave ha rfl rfl hline fun _ _ _ => Result.noConfusion
  · refine h.step_owner ha rfl rfl ?_ fun a back data he => Ctl.noConfusion he
    unfold Owns setCtl
    dsimp only
    rw [Function.update_self]
    refine ⟨hline, rfl, rfl, rfl, hunit, ?_⟩
    have hopen := eq_true_of_ne_false hopen
    exact (of_decide_eq_true hopen).2
  · have hopen := eq_true_of_ne_false hopen
    refine request_inv h ha rfl rfl hline rfl hunit (of_decide_eq_true hopen).2 fun hr i hi => ?_
    refine absurd ⟨?_, hr⟩ hd
    exact Nat.ne_of_gt (Nat.lt_of_le_of_lt (Nat.zero_le i) hi)

theorem copied_inv (h : s.Inv scsi)
    (hcare : ∀ a b, s.ctl p = .copyin a b → s.Alone p ∧ HasUnit scsi a.com) :
    (s.copied scsi p).Inv scsi := by
  unfold copied
  cases hctl : s.ctl p with
  | out r => exact h
  | waiting a ua => exact h
  | copyin a b =>
      obtain ⟨ha, hunit⟩ := hcare a b hctl
      have ho := h.owns ha
      unfold Owns at ho
      rw [hctl] at ho
      exact check_inv h ha ho hunit
  | copydata a addr n =>
      obtain ⟨ha, ho⟩ := h.within (p := p) (by rw [hctl]; trivial)
      unfold Owns at ho
      rw [hctl] at ho
      obtain ⟨hline, hcom, rfl, rfl, hunit, hcard⟩ := ho
      exact request_inv h ha rfl rfl hline hcom hunit hcard fun _ i hi => if_pos hi
  | copyout a ua n =>
      obtain ⟨ha, ho⟩ := h.within (p := p) (by rw [hctl]; trivial)
      unfold Owns at ho
      rw [hctl] at ho
      obtain ⟨rfl, rfl, hend, hn, hokay, hread⟩ := ho
      refine h.step_owner ha rfl rfl ?_ fun a back data he => Ctl.noConfusion he
      unfold Owns setCtl
      dsimp only
      rw [Function.update_self]
      refine ⟨⟨hend.line, hend.answer⟩, ?_⟩
      obtain ⟨x, hx, hof, hcom, hsent⟩ := hend.answer
      have hcmd : s.sdcom.command = a.com.command := hcom ▸ hof.1
      have hnb : a.com.nbyte = s.sdcom.nbyte := (congrArg (fun c => c.2.2.1) hcmd).symm
      have hrd : a.com.reading = true := (congrArg Prod.fst hcmd).symm.trans hread
      refine ⟨x, hx, by rw [hcom], by rw [hcom], ?_⟩
      rw [hcom] at hsent
      rw [if_pos ⟨by rw [hnb]; exact hn, by rw [hcom]; exact hokay, hrd⟩, hsent hread hokay]
  | copyback a data =>
      obtain ⟨ha, ho⟩ := h.within (p := p) (by rw [hctl]; trivial)
      unfold Owns at ho
      rw [hctl] at ho
      obtain ⟨hend, x, hx, hgives⟩ := ho
      refine h.step_owner ha rfl rfl ?_ fun a' back data' he => ?_
      · unfold Owns setCtl
        dsimp only
        rw [Function.update_self]
        exact hend.line
      · obtain ⟨rfl, rfl, rfl⟩ := Result.zero.inj (Ctl.out.inj he)
        obtain ⟨y, hy, hof, -⟩ := hend.answer
        rw [hx] at hy
        cases hy
        exact ⟨x, hx, hof, hgives⟩

theorem part_inv (h : s.Inv scsi) (com : Sdcom) (buf : ℕ → Byte)
    (hcare : ∀ a b, s.ctl p = .copyin a b → s.Alone p) : (s.part p com buf).Inv scsi := by
  unfold part
  cases hctl : s.ctl p with
  | out r => exact h
  | waiting a ua => exact h
  | copyout a ua n => exact h
  | copyback a data => exact h
  | copyin a b =>
      have ha := hcare a b hctl
      have ho := h.owns ha
      unfold Owns at ho
      rw [hctl] at ho
      refine h.step_owner ha rfl rfl ?_ fun a back data he => Ctl.noConfusion he
      unfold Owns setCtl
      dsimp only
      rw [Function.update_self]
      exact ho
  | copydata a addr n =>
      obtain ⟨ha, ho⟩ := h.within (p := p) (by rw [hctl]; trivial)
      refine ⟨⟨p, ha, ?_⟩, h.returned⟩
      unfold Owns at ho ⊢
      dsimp only
      rw [hctl] at ho ⊢
      exact ho

theorem fault_inv (h : s.Inv scsi) (com : Sdcom) (buf : ℕ → Byte)
    (hcare : ∀ a b, s.ctl p = .copyin a b → s.Alone p) : (s.fault p com buf).Inv scsi := by
  unfold fault
  cases hctl : s.ctl p with
  | out r => exact h
  | waiting a ua => exact h
  | copyin a b =>
      have ha := hcare a b hctl
      have ho := h.owns ha
      unfold Owns at ho
      rw [hctl] at ho
      exact h.leave ha rfl rfl ho fun _ _ _ => Result.noConfusion
  | copydata a addr n =>
      obtain ⟨ha, ho⟩ := h.within (p := p) (by rw [hctl]; trivial)
      unfold Owns at ho
      rw [hctl] at ho
      exact h.leave ha rfl rfl ho.1 fun _ _ _ => Result.noConfusion
  | copyout a ua n =>
      obtain ⟨ha, ho⟩ := h.within (p := p) (by rw [hctl]; trivial)
      unfold Owns at ho
      rw [hctl] at ho
      exact h.leave ha rfl rfl ho.2.2.1.line fun _ _ _ => Result.noConfusion
  | copyback a data =>
      obtain ⟨ha, ho⟩ := h.within (p := p) (by rw [hctl]; trivial)
      unfold Owns at ho
      rw [hctl] at ho
      exact h.leave ha rfl rfl ho.1.line fun _ _ _ => Result.noConfusion

theorem wake_inv (h : s.Inv scsi) (p : Pid) : (s.wake p).Inv scsi := by
  unfold wake
  cases hctl : s.ctl p with
  | out r => exact h
  | copyin a b => exact h
  | copydata a addr n => exact h
  | copyout a ua n => exact h
  | copyback a data => exact h
  | waiting a ua =>
      dsimp only
      split
      next => exact h
      next hdone =>
        obtain ⟨ha, ho⟩ := h.within (p := p) (by rw [hctl]; trivial)
        unfold Owns at ho
        rw [hctl] at ho
        obtain ⟨rfl, hcmd, hrun | ⟨-, hend⟩⟩ := ho
        · exact absurd hrun.notDone hdone
        split
        next hcopy =>
          refine h.step_owner ha rfl rfl ?_ fun a back data he => Ctl.noConfusion he
          unfold Owns setCtl
          dsimp only
          rw [Function.update_self]
          exact ⟨rfl, rfl, ⟨hend.line, hend.answer⟩, hcopy⟩
        next hno =>
          refine h.step_owner ha rfl rfl ?_ fun a back data he => Ctl.noConfusion he
          unfold Owns setCtl
          dsimp only
          rw [Function.update_self]
          obtain ⟨x, hx, hof, hcom, hsent⟩ := hend.answer
          have hnb : s.sdcom.nbyte = a.com.nbyte := congrArg (fun c => c.2.2.1) hcmd
          have hrd : s.sdcom.reading = a.com.reading := congrArg Prod.fst hcmd
          refine ⟨⟨hend.line, x, hx, hof, hcom, hsent⟩, x, hx, by rw [hcom], by rw [hcom], ?_⟩
          rw [hcom, ← hnb, ← hrd, if_neg hno]

/-- Entering the call touches nothing that the owner relies on. -/
theorem enter_inv (h : s.Inv scsi) (hctl : ∃ r, s.ctl p = .out r) (hc : ¬c.Within)
    (hline : s.line = [] → (s.setCtl p c).Owns scsi p)
    (hz : ∀ a back data, c ≠ .out (.zero a back data)) : (s.setCtl p c).Inv scsi := by
  obtain ⟨r, hr⟩ := hctl
  obtain ⟨q, hq, ho⟩ := h.owner
  by_cases hpq : q = p
  · subst hpq
    unfold Owns at ho
    rw [hr] at ho
    exact h.step_owner hq rfl rfl (hline ho) fun a back data he => absurd he (hz a back data)
  · refine ⟨⟨q, hq.other hc, ?_⟩, fun w a back data hw => ?_⟩
    · unfold Owns setCtl at *
      dsimp only
      rw [Function.update_of_ne hpq]
      cases hctl : s.ctl q with
      | out r => rwa [hctl] at ho
      | copyin a b => rwa [hctl] at ho
      | copydata a addr n => rwa [hctl] at ho
      | waiting a ua =>
          rw [hctl] at ho
          obtain ⟨hua, hcmd, hrun | ⟨hdone, hend⟩⟩ := ho
          · exact ⟨hua, hcmd, .inl
              ⟨hrun.line, hrun.notDone, hrun.okay, hrun.intr, hrun.written, hrun.sent⟩⟩
          · exact ⟨hua, hcmd, .inr ⟨hdone, hend.line, hend.answer⟩⟩
      | copyout a ua n =>
          rw [hctl] at ho
          obtain ⟨hua, hn, hend, hcopy⟩ := ho
          exact ⟨hua, hn, ⟨hend.line, hend.answer⟩, hcopy⟩
      | copyback a data =>
          rw [hctl] at ho
          obtain ⟨hend, hgives⟩ := ho
          exact ⟨⟨hend.line, hend.answer⟩, hgives⟩
    · by_cases hwp : w = p
      · rw [hwp, setCtl_self] at hw
        exact absurd hw (hz a back data)
      · rw [setCtl_of_ne hwp] at hw
        exact h.returned w a back data hw

theorem gsioctl_inv (h : s.Inv scsi) (p : Pid) (cmd : Bool) (a : Args) :
    (s.gsioctl p cmd a).Inv scsi := by
  unfold gsioctl
  cases hctl : s.ctl p with
  | copyin a b => exact h
  | copydata a addr n => exact h
  | waiting a ua => exact h
  | copyout a ua n => exact h
  | copyback a data => exact h
  | out r =>
      have howns : ∀ c : Ctl, (¬c.Within) → s.line = [] → (s.setCtl p c).Owns scsi p := by
        intro c hc hline
        unfold Owns setCtl
        dsimp only
        rw [Function.update_self]
        cases c with
        | out r => exact hline
        | copyin a b => exact hline
        | copydata a addr n => exact absurd trivial hc
        | waiting a ua => exact absurd trivial hc
        | copyout a ua n => exact absurd trivial hc
        | copyback a data => exact absurd trivial hc
      cases cmd with
      | true => exact enter_inv h ⟨r, hctl⟩ id (howns _ id) fun _ _ _ => Ctl.noConfusion
      | false =>
          exact enter_inv h ⟨r, hctl⟩ id (howns _ id) fun _ _ _ he =>
            Result.noConfusion (Ctl.out.inj he)

/-! ### The steps of the controller -/

/-- Where a command is in progress, the process that owns the block waits for it. -/
theorem Owns.waits (ho : s.Owns scsi p) (hline : s.line ≠ []) :
    ∃ a, s.ctl p = .waiting a a.com.addr ∧ s.sdcom.command = a.com.command ∧ s.Running p a := by
  unfold Owns at ho
  cases hctl : s.ctl p with
  | out r => exact absurd (by rwa [hctl] at ho) hline
  | copyin a b => exact absurd (by rwa [hctl] at ho) hline
  | copydata a addr n =>
      rw [hctl] at ho
      exact absurd ho.1 hline
  | copyout a ua n =>
      rw [hctl] at ho
      exact absurd ho.2.2.1.line hline
  | copyback a data =>
      rw [hctl] at ho
      exact absurd ho.1.line hline
  | waiting a ua =>
      rw [hctl] at ho
      obtain ⟨rfl, hcmd, hrun | ⟨-, hend⟩⟩ := ho
      · exact ⟨a, rfl, hcmd, hrun⟩
      · exact absurd hend.line hline

theorem bytes_move (s : Gsio) (b : Byte) (hsent : s.sent = s.bytes s.sent.length) :
    s.sent ++ [b] = ({ s with iobuf := Function.update s.iobuf s.sent.length b } : Gsio).bytes
      (s.sent ++ [b]).length := by
  have hsame : (List.range s.sent.length).map (Function.update s.iobuf s.sent.length b) =
      (List.range s.sent.length).map s.iobuf :=
    List.map_congr_left fun i hi => Function.update_of_ne (Nat.ne_of_lt (List.mem_range.mp hi)) _ _
  rw [List.length_append, List.length_singleton, bytes, List.range_succ, List.map_append,
    List.map_singleton]
  dsimp only
  rw [hsame, Function.update_self]
  exact congrArg (· ++ [b]) hsent

theorem move_inv (h : s.Inv scsi) (b : Byte) : (s.move b).Inv scsi := by
  unfold move
  split
  next hmove =>
    obtain ⟨p, ha, ho⟩ := h.owner
    obtain ⟨a, hctl, hcmd, hrun⟩ := ho.waits hmove.1
    have hrd : a.com.reading = true := (congrArg Prod.fst hcmd).symm.trans hmove.2.1
    refine ⟨⟨p, ha, ?_⟩, h.returned⟩
    unfold Owns
    dsimp only
    rw [hctl]
    refine ⟨rfl, hcmd, .inl ⟨hrun.line, hrun.notDone, hrun.okay, hrun.intr, fun hw => ?_, ?_⟩⟩
    · rw [hrd] at hw
      exact Bool.noConfusion hw
    · exact bytes_move s b hrun.sent
  next => exact h

theorem finish_command (c : Sdcom) (okay : Bool) (status : Byte) :
    (c.finish okay status).command = c.command := by
  cases okay <;> rfl

theorem finish_intr (c : Sdcom) (okay : Bool) (status : Byte) :
    (c.finish okay status).intr = c.intr := by
  cases okay <;> rfl

theorem finish_okay {c : Sdcom} (hc : c.okay = false) (okay : Bool) (status : Byte) :
    (c.finish okay status).okay = okay := by
  cases okay
  · exact hc
  · rfl

theorem intr_inv (h : s.Inv scsi) (card unit : ℕ) (okay : Bool) (status : Byte)
    (hcare : s.line ≠ [] → s.sdcom.reading = true → okay = true →
      s.sent.length = s.sdcom.nbyte) :
    (s.intr card unit okay status).Inv scsi := by
  unfold intr
  split
  next x hx =>
    obtain ⟨p, ha, ho⟩ := h.owner
    have hmem := List.mem_of_find?_eq_some hx
    obtain ⟨a, hctl, hcmd, hrun⟩ := ho.waits (List.ne_nil_of_mem hmem)
    obtain ⟨c, u, hline, -⟩ := hrun.line
    have hxp : x = ⟨p, c, u⟩ := by
      rw [hline] at hmem
      exact List.mem_singleton.mp hmem
    have hnone : s.line.erase x = [] := by
      rw [hline, hxp, List.erase_cons_head]
    have hfin := finish_command s.sdcom okay status
    have hnb : (s.sdcom.finish okay status).nbyte = s.sdcom.nbyte :=
      congrArg (fun c => c.2.2.1) hfin
    refine ⟨⟨p, ha, ?_⟩, fun q a' back data hq => ?_⟩
    · unfold Owns
      dsimp only
      rw [hctl]
      refine ⟨rfl, hfin.trans hcmd, .inr ⟨?_, hnone, ?_⟩⟩
      · rw [finish_intr, if_pos hrun.intr]
      · rw [hxp]
        refine ⟨_, Function.update_self p _ _, ⟨hfin.trans hcmd, hrun.written⟩, rfl,
          fun hread hokay => ?_⟩
        rw [finish_okay hrun.okay] at hokay
        have hread : s.sdcom.reading = true := (congrArg Prod.fst hfin).symm.trans hread
        dsimp only
        rw [hnb, ← hcare (List.ne_nil_of_mem hmem) hread hokay]
        exact hrun.sent
    · have hqp : q ≠ x.pid := by
        rintro rfl
        rw [hxp] at hq
        exact Ctl.noConfusion (hctl.symm.trans hq)
      dsimp only
      rw [Function.update_of_ne hqp]
      exact h.returned q a' back data hq
  next => exact h

end

/-! ### Requests are isolated -/

theorem boot_inv : boot.Inv scsi :=
  ⟨⟨0, fun _ _ => id, rfl⟩, fun _ _ _ _ h => Result.noConfusion (Ctl.out.inj h)⟩

theorem step_inv (s : Gsio) (e : Event) (h : s.Inv scsi) (hcare : s.Careful scsi e) :
    (s.step scsi e).Inv scsi := by
  cases e with
  | gsioctl p cmd a => exact gsioctl_inv h p cmd a
  | part p com buf => exact part_inv h com buf hcare
  | fault p com buf => exact fault_inv h com buf hcare
  | copied p => exact copied_inv h hcare
  | wake p => exact wake_inv h p
  | move b => exact move_inv h b
  | intr card unit okay status => exact intr_inv h card unit okay status hcare

/-- While a command is in progress, no process is in a copy into the block or the buffer. -/
theorem Inv.no_copy {s : Gsio} {p : Pid} (h : s.Inv scsi) (hline : s.line ≠ [])
    (hcare : ∀ a b, s.ctl p = .copyin a b → s.Alone p) :
    (∃ r, s.ctl p = .out r) ∨ ∃ a, s.ctl p = .waiting a a.com.addr := by
  have hwait : s.Alone p → ∃ a, s.ctl p = .waiting a a.com.addr := fun ha => by
    obtain ⟨a, ha, -⟩ := (h.owns ha).waits hline
    exact ⟨a, ha⟩
  cases hctl : s.ctl p with
  | out r => exact .inl ⟨r, rfl⟩
  | copyin a b => exact .inr (hctl ▸ hwait (hcare a b hctl))
  | copydata a addr n => exact .inr (hctl ▸ hwait (h.within (by rw [hctl]; trivial)).1)
  | waiting a ua => exact .inr (hctl ▸ hwait (h.within (by rw [hctl]; trivial)).1)
  | copyout a ua n => exact .inr (hctl ▸ hwait (h.within (by rw [hctl]; trivial)).1)
  | copyback a data => exact .inr (hctl ▸ hwait (h.within (by rw [hctl]; trivial)).1)

theorem step_isolated (s : Gsio) (e : Event) (h : s.Inv scsi) (hcare : s.Careful scsi e) :
    s.Isolated scsi e := by
  have ht := step_inv scsi s e h hcare
  refine ⟨fun hline hproc => ?_, fun x hx => ?_, ht.returned⟩
  · cases e with
    | move b => exact hproc.elim
    | intr card unit okay status => exact hproc.elim
    | gsioctl p cmd a =>
        change (s.gsioctl p cmd a).sdcom = _ ∧ (s.gsioctl p cmd a).iobuf = _ ∧
          (s.gsioctl p cmd a).line = _
        unfold gsioctl
        split
        · exact ⟨rfl, rfl, rfl⟩
        · exact ⟨rfl, rfl, rfl⟩
    | part p com buf =>
        change (s.part p com buf).sdcom = _ ∧ (s.part p com buf).iobuf = _ ∧
          (s.part p com buf).line = _
        unfold part
        obtain ⟨r, hr⟩ | ⟨a, ha⟩ := h.no_copy scsi hline hcare
        · rw [hr]
          exact ⟨rfl, rfl, rfl⟩
        · rw [ha]
          exact ⟨rfl, rfl, rfl⟩
    | fault p com buf =>
        change (s.fault p com buf).sdcom = _ ∧ (s.fault p com buf).iobuf = _ ∧
          (s.fault p com buf).line = _
        unfold fault
        obtain ⟨r, hr⟩ | ⟨a, ha⟩ := h.no_copy scsi hline hcare
        · rw [hr]
          exact ⟨rfl, rfl, rfl⟩
        · rw [ha]
          exact ⟨rfl, rfl, rfl⟩
    | copied p =>
        change (s.copied scsi p).sdcom = _ ∧ (s.copied scsi p).iobuf = _ ∧
          (s.copied scsi p).line = _
        unfold copied
        obtain ⟨r, hr⟩ | ⟨a, ha⟩ := h.no_copy scsi hline fun a b hc => (hcare a b hc).1
        · rw [hr]
          exact ⟨rfl, rfl, rfl⟩
        · rw [ha]
          exact ⟨rfl, rfl, rfl⟩
    | wake p =>
        change (s.wake p).sdcom = _ ∧ (s.wake p).iobuf = _ ∧ (s.wake p).line = _
        unfold wake
        split
        · split_ifs
          · exact ⟨rfl, rfl, rfl⟩
          · exact ⟨rfl, rfl, rfl⟩
          · exact ⟨rfl, rfl, rfl⟩
        · exact ⟨rfl, rfl, rfl⟩
  · obtain ⟨p, -, ho⟩ := ht.owner
    obtain ⟨a, -, -, hrun⟩ := ho.waits (List.ne_nil_of_mem hx)
    obtain ⟨card, unit, hline, hunit⟩ := hrun.line
    rw [hline, List.mem_singleton] at hx
    rw [hx]
    exact hunit

/-- Requests are isolated in every run in which no process copies a structure while another
one is using the block, every structure names a unit of its controller, and reading
commands that are okay transfer all their bytes. -/
theorem gsioctl_isolated (es : List Event) (h : Every (step scsi) (Careful scsi) boot es) :
    Every (step scsi) (Isolated scsi) boot es :=
  every_of_invariant (Inv scsi) (step_inv scsi) (step_isolated scsi) (boot_inv scsi) h

/-- The INQUIRY command, for four bytes. -/
def inquiry (unit : ℕ) : Args where
  com := ⟨true, false, 0, [0x12, 0, 0, 0, 4, 0], .user 0x1000, 4, 0, unit, .user 0⟩
  mem _ _ := 0

/-- The A3000's own controller only. -/
def a3000 (card : ℕ) : Option Queuing := if card = 0 then some .a3091queue else none

theorem gsioctl_isolated_inquiry : Every (step a3000) (Isolated a3000) boot
    [.gsioctl 1 true (inquiry 6), .copied 1, .move 0, .move 0, .move 2, .move 1,
      .intr 0 6 true 0, .wake 1, .copied 1, .copied 1] := by
  apply gsioctl_isolated
  refine ⟨trivial, fun a b h => ⟨fun q hq => ?_, fun f _ => ?_⟩, trivial, trivial, trivial, trivial,
    fun _ _ _ => rfl, trivial, fun a b h => Ctl.noConfusion h, fun a b h => Ctl.noConfusion h,
    trivial⟩
  · change ¬(((boot.setCtl 1 (.copyin (inquiry 6) false))).ctl q).Within
    rw [setCtl_of_ne hq]
    exact id
  · have ha : inquiry 6 = a := (Ctl.copyin.inj h).1
    subst ha
    cases f <;> decide

/-- A second process overwrites the block while the command of the first is in progress. -/
theorem gsioctl_isolated_fails :
    ¬∀ scsi es, Every (step scsi) (Isolated scsi) boot es := by
  intro h
  have hc := (h a3000 [.gsioctl 1 true (inquiry 6), .copied 1, .gsioctl 2 true (inquiry 3),
    .copied 2]).2.2.2.1
  have hcom := (hc.left (by decide) trivial).1
  exact absurd (congrArg Sdcom.unit hcom) (by decide)

end Gsio
end HydraAmix.Scsi.Generic
