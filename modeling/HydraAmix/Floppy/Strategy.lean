import HydraAmix.Library.Schedule
import Mathlib.Logic.Function.Basic

/-!
# Who waits for `busy` in `fdstrategy`

Any number of processes call `fdstrategy` while the servant comes, serves,
sleeps and goes. A step of a process is what it does between two points at
which another process may run: its arrival, the loop on `busy` with interrupts
off (up to the sleep or, past the loop, to `splx`), and the rest of its path,
with the device work of the direct path in it, to `busy = FALSE`.

`sleep` leaves a process asleep on a channel until a `wakeup` of that channel.
The driver wakes two channels: `idle` (from `fdstrategy` and, by the timer,
from `chkprod`) and `waiting` (from `prod`).
-/
namespace HydraAmix.Floppy
open Schedule

abbrev ProcId := ℕ

/-- The addresses the driver sleeps on. -/
inductive Channel where
  | busy
  | idle
  | waiting
  deriving DecidableEq, Repr

/-- Where a process stands in `fdstrategy`. -/
inductive Caller where
  | out
  | loop
  | asleep
  | direct
  | queued
  deriving DecidableEq, Repr

inductive Slave where
  | absent
  | running
  | asleep
  deriving DecidableEq, Repr

structure Strategy where
  busy : Bool
  servant : Bool
  idle : Bool
  head : List ProcId
  slave : Slave
  proc : ProcId → Caller

inductive StrategyEvent where
  | fdstrategy (p : ProcId)
  | run (p : ProcId)
  | slave
  | kill
  | prod
  | chkprod

namespace Strategy

def setProc (s : Strategy) (p : ProcId) (c : Caller) : Strategy :=
  { s with proc := Function.update s.proc p c }

/-- Everyone asleep on the channel goes on. -/
def wakeup (s : Strategy) : Channel → Strategy
  | .busy => { s with proc := fun p => if s.proc p = .asleep then .loop else s.proc p }
  | .idle => if s.slave = .asleep then { s with slave := .running, idle := false } else s
  | .waiting => s

/-- A process goes on in `fdstrategy`. -/
def run (s : Strategy) (p : ProcId) : Strategy :=
  match s.proc p with
  | .out => s
  | .asleep => s
  | .loop =>
      if ¬ s.servant ∧ s.busy then s.setProc p .asleep
      else if ¬ s.servant then { s with busy := true }.setProc p .direct
      else { s with busy := true, head := s.head ++ [p] }.setProc p .queued
  | .direct => { s with busy := false }.setProc p .out
  | .queued =>
      let s := if s.idle then s.wakeup .idle else s
      { s with busy := false }.setProc p .out

/-- The servant starts, takes the next request, or goes to sleep. -/
def slaveStep (s : Strategy) : Strategy :=
  match s.slave, s.head with
  | .absent, _ => { s with slave := .running, servant := true }
  | .running, [] => { s with slave := .asleep, idle := true }
  | .running, _ :: rest => { s with head := rest }
  | .asleep, _ => s

/-- A signal ends the servant's sleep; with nothing queued it goes away. -/
def kill (s : Strategy) : Strategy :=
  match s.slave, s.head with
  | .asleep, [] => { s with slave := .absent, servant := false, idle := false }
  | .asleep, _ :: _ => { s with slave := .running, idle := false }
  | _, _ => s

def step (s : Strategy) : StrategyEvent → Strategy
  | .fdstrategy p => if s.proc p = .out then s.setProc p .loop else s
  | .run p => s.run p
  | .slave => s.slaveStep
  | .kill => s.kill
  | .prod => s.wakeup .waiting
  | .chkprod => s.wakeup .idle

def start : Strategy := ⟨false, false, false, [], .absent, fun _ => .out⟩

/-- With `busy` clear, no process is left asleep on it. -/
def NoneLeft (s : Strategy) : Prop := s.busy = false → ∀ p, s.proc p ≠ .asleep

/-- No process comes to the loop while `busy` is set and the servant absent. -/
def FindsFree (s : Strategy) (e : StrategyEvent) : Prop :=
  ∀ p, e = .run p → s.proc p = .loop → s.servant = true ∨ s.busy = false

section
variable {s : Strategy} {p : ProcId}

@[simp] theorem setProc_self (s : Strategy) (p : ProcId) (c : Caller) :
    (s.setProc p c).proc p = c := Function.update_self ..

theorem setProc_of_ne (s : Strategy) {p q : ProcId} (h : q ≠ p) (c : Caller) :
    (s.setProc p c).proc q = s.proc q := Function.update_of_ne h ..

theorem wakeup_idle_proc (s : Strategy) : (s.wakeup .idle).proc = s.proc := by
  rw [wakeup]
  split <;> rfl

theorem slaveStep_proc (s : Strategy) : s.slaveStep.proc = s.proc := by
  unfold slaveStep
  split <;> rfl

theorem kill_proc (s : Strategy) : s.kill.proc = s.proc := by
  unfold kill
  split <;> rfl

/-- A process that goes on changes nobody else. -/
theorem run_proc_of_ne (s : Strategy) {p q : ProcId} (h : q ≠ p) : (s.run p).proc q = s.proc q := by
  unfold run
  split
  · rfl
  · rfl
  · split_ifs <;> exact setProc_of_ne _ h _
  · exact setProc_of_ne _ h _
  · split_ifs
    · rw [setProc_of_ne _ h, wakeup_idle_proc]
    · exact setProc_of_ne _ h _

theorem run_asleep (h : s.proc p = .asleep) : s.run p = s := by
  rw [run, h]

/-- Nothing in the driver wakes who sleeps on `busy`. -/
theorem step_asleep (h : s.proc p = .asleep) (e : StrategyEvent) : (s.step e).proc p = .asleep := by
  cases e with
  | fdstrategy q =>
      rw [step]
      split_ifs with hq
      · have hne : p ≠ q := fun he => by rw [he, hq] at h; cases h
        rwa [setProc_of_ne _ hne]
      · exact h
  | run q =>
      by_cases hq : p = q
      · rw [step, ← hq, run_asleep h, h]
      · rw [step, run_proc_of_ne _ hq, h]
  | slave => rw [step, slaveStep_proc, h]
  | kill => rw [step, kill_proc, h]
  | prod => exact h
  | chkprod => rw [step, wakeup_idle_proc, h]

/-- A process that has gone to sleep on `busy` sleeps for ever. -/
theorem asleep_forever (h : s.proc p = .asleep) (es : List StrategyEvent) :
    (final step s es).proc p = .asleep :=
  final_invariant (fun s : Strategy => s.proc p = .asleep) (fun _ e h => step_asleep h e) h es

/-- A step that finds the loop free puts nobody to sleep. -/
theorem FindsFree.step {e : StrategyEvent} (hf : s.FindsFree e) (h : ∀ q, s.proc q ≠ .asleep)
    (q : ProcId) : (s.step e).proc q ≠ .asleep := by
  cases e with
  | fdstrategy p =>
      rw [Strategy.step]
      split_ifs
      · by_cases hq : q = p
        · rw [hq, setProc_self]
          exact nofun
        · rw [setProc_of_ne _ hq]
          exact h q
      · exact h q
  | run p =>
      by_cases hq : q = p
      · subst hq
        rw [Strategy.step, run]
        split
        · exact h q
        · exact h q
        · next hl =>
            have hfree : ¬ (¬ s.servant = true ∧ s.busy = true) := fun hb => by
              rcases hf q rfl hl with hs | hs
              · exact hb.1 hs
              · rw [hs] at hb
                exact Bool.false_ne_true hb.2
            rw [if_neg hfree]
            split_ifs <;> rw [setProc_self] <;> exact nofun
        · rw [setProc_self]
          exact nofun
        · rw [setProc_self]
          exact nofun
      · rw [Strategy.step, run_proc_of_ne _ hq]
        exact h q
  | slave => rw [Strategy.step, slaveStep_proc]; exact h q
  | kill => rw [Strategy.step, kill_proc]; exact h q
  | prod => exact h q
  | chkprod => rw [Strategy.step, wakeup_idle_proc]; exact h q

end

/-- On every run on which each caller finds `busy` clear or the servant there,
no process is ever left asleep. -/
theorem no_lost_wakeup (es : List StrategyEvent) (h : Every step FindsFree start es) :
    Every step (fun s e => (s.step e).NoneLeft) start es :=
  every_of_invariant (fun s : Strategy => ∀ q, s.proc q ≠ .asleep)
    (fun _ _ hs hf => hf.step hs) (fun _ _ hs hf _ => hf.step hs) (fun _ hq => by cases hq) h

/-- One caller on the direct path, from its arrival to its return. -/
theorem no_lost_wakeup_one :
    Every step (fun s e => (s.step e).NoneLeft) start [.fdstrategy 0, .run 0, .run 0] := by
  refine no_lost_wakeup _ ⟨fun _ _ _ => .inr rfl, fun _ _ _ => .inr rfl, fun p he hl => ?_, trivial⟩
  obtain rfl := StrategyEvent.run.inj he
  cases hl

/-- A second caller arrives while the first is on the direct path, and is left
asleep when the first has returned. -/
theorem no_lost_wakeup_fails :
    ¬ ∀ es, Every step (fun s e => (s.step e).NoneLeft) start es := by
  intro h
  have hrun := h [.fdstrategy 0, .run 0, .fdstrategy 1, .run 1, .run 0]
  exact hrun.2.2.2.2.1 rfl 1 rfl

end Strategy
end HydraAmix.Floppy
