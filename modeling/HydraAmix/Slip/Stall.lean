import HydraAmix.Library.Schedule
import HydraAmix.Slip.Line

/-!
# The write queue of the SLIP interface

`do_dlpiproto` sends a `DL_UNITDATA_REQ` at once or, if there is a message on
the queue already or `slipxmit` refuses, puts it on the queue of the stream.
`canput` of the tty side says no while that is flow-controlled; with its
release STREAMS enables the service procedures behind it. Both of them are
dummies.
-/
namespace HydraAmix.Slip
open Word Schedule

/-- The interface, its write queue, the messages the tty got, and the tty side:
whether it is flow-controlled and which service procedures are to run. -/
structure Output where
  slip : Slipdev
  q : List (List (List Byte))
  out : List Mblk
  full : Bool
  dlpiEnabled : Bool
  ttyEnabled : Bool

inductive OutputEvent where
  | unitdataReq (blocks : List (List Byte)) (room : Option ℕ)
  | flow
  | release
  | dlpiwsrv
  | ttywsrv

namespace Output

def putq (s : Output) (mp : List (List Byte)) : Output :=
  { s with q := s.q ++ [mp], dlpiEnabled := true }

/-- `case DL_UNITDATA_REQ`. -/
def unitdataReq (s : Output) (mp : List (List Byte)) (room : Option ℕ) : Output :=
  if s.q ≠ [] then s.putq mp
  else
    match s.slip.slipxmit (!s.full) room mp with
    | (slip, some outmp) => { s with slip := slip, out := s.out ++ [outmp] }
    | (slip, none) => { s with slip := slip }.putq mp

def dlpiwsrv (s : Output) : Output := s

def ttywsrv (s : Output) : Output := s

def step (s : Output) : OutputEvent → Output
  | .unitdataReq mp room => s.unitdataReq mp room
  | .flow => { s with full := true }
  | .release => { s with full := false, dlpiEnabled := true, ttyEnabled := true }
  | .dlpiwsrv => { s.dlpiwsrv with dlpiEnabled := false }
  | .ttywsrv => { s.ttywsrv with ttyEnabled := false }

def start (slip : Slipdev) : Output := ⟨slip, [], [], false, false, false⟩

/-- The tty side accepts data and no service procedure is left to run. -/
def Settled (s : Output) : Prop :=
  s.full = false ∧ s.dlpiEnabled = false ∧ s.ttyEnabled = false

/-- A request finds the tty side ready and a block to write to. -/
def Accepts (s : Output) (e : OutputEvent) : Prop :=
  ∀ mp room, e = .unitdataReq mp room → s.full = false ∧ room.isSome = true

section
variable {s : Output} {e : OutputEvent}

theorem unitdataReq_of_queued (h : s.q ≠ []) (mp : List (List Byte)) (room : Option ℕ) :
    s.unitdataReq mp room = s.putq mp := if_pos h

/-- A request that finds the queue empty leaves it so if it is accepted. -/
theorem unitdataReq_q_iff (h : s.q = []) (mp : List (List Byte)) (room : Option ℕ) :
    (s.unitdataReq mp room).q = [] ↔ s.full = false ∧ room.isSome = true := by
  rw [unitdataReq, if_neg (not_not.mpr h)]
  cases hf : s.full with
  | true => simp [Slipdev.slipxmit, putq]
  | false =>
      cases room with
      | none => simp [Slipdev.slipxmit, putq]
      | some more => simp [Slipdev.slipxmit, h]

theorem step_q_of_quiet (he : ∀ mp room, e ≠ .unitdataReq mp room) (s : Output) :
    (s.step e).q = s.q := by
  cases e with
  | unitdataReq mp room => exact absurd rfl (he mp room)
  | flow => rfl
  | release => rfl
  | dlpiwsrv => rfl
  | ttywsrv => rfl

theorem final_q_of_quiet {es : List OutputEvent} (s : Output)
    (hes : ∀ e ∈ es, ∀ mp room, e ≠ .unitdataReq mp room) : (final step s es).q = s.q := by
  induction es generalizing s with
  | nil => rfl
  | cons e es ih =>
      rw [final_cons, ih _ fun f hf => hes f (List.mem_cons_of_mem e hf),
        step_q_of_quiet (hes e List.mem_cons_self)]

/-- What is on the queue stays there: nobody takes it off. -/
theorem step_q_ne_nil (h : s.q ≠ []) (e : OutputEvent) : (s.step e).q ≠ [] := by
  cases e with
  | unitdataReq mp room =>
      rw [step, unitdataReq_of_queued h, putq]
      exact List.append_ne_nil_of_right_ne_nil _ (List.cons_ne_nil _ _)
  | flow => exact h
  | release => exact h
  | dlpiwsrv => exact h
  | ttywsrv => exact h

theorem final_q_ne_nil (h : s.q ≠ []) (es : List OutputEvent) : (final step s es).q ≠ [] :=
  final_invariant (fun s : Output => s.q ≠ []) (fun _ e hs => step_q_ne_nil hs e) h es

theorem step_q_iff (h : s.q = []) (e : OutputEvent) : (s.step e).q = [] ↔ s.Accepts e := by
  cases e with
  | unitdataReq mp room =>
      refine (unitdataReq_q_iff h mp room).trans ⟨fun hacc mp' room' he => ?_, fun hacc => ?_⟩
      · injection he with _ hroom
        exact hroom ▸ hacc
      · exact hacc mp room rfl
  | flow => exact ⟨fun _ => nofun, fun _ => h⟩
  | release => exact ⟨fun _ => nofun, fun _ => h⟩
  | dlpiwsrv => exact ⟨fun _ => nofun, fun _ => h⟩
  | ttywsrv => exact ⟨fun _ => nofun, fun _ => h⟩

/-- The queue is empty after a run that accepted every request, and only then. -/
theorem final_q_iff (h : s.q = []) (es : List OutputEvent) :
    (final step s es).q = [] ↔ Every step Accepts s es := by
  induction es generalizing s with
  | nil => exact ⟨fun _ => trivial, fun _ => h⟩
  | cons e es ih =>
      rw [final_cons]
      constructor
      · intro hq
        have he : (s.step e).q = [] := by
          by_contra hne
          exact final_q_ne_nil hne es hq
        exact ⟨(step_q_iff h e).mp he, (ih he).mp hq⟩
      · intro hacc
        exact (ih ((step_q_iff h e).mpr hacc.1)).mpr hacc.2

theorem settled_after_release (s : Output) :
    (final step s [.release, .dlpiwsrv, .ttywsrv]).Settled := ⟨rfl, rfl, rfl⟩

end

/-- From every state that a run reaches, the queue is empty as soon as the tty
side accepts data and the service procedures have run. -/
def NeverStalls (slip : Slipdev) (es : List OutputEvent) : Prop :=
  ∀ (k : ℕ) (quiet : List OutputEvent), (∀ e ∈ quiet, ∀ mp room, e ≠ .unitdataReq mp room) →
    (final step (start slip) (es.take k ++ quiet)).Settled →
      (final step (start slip) (es.take k ++ quiet)).q = []

/-- The output never stalls in the runs in which no request was refused, and in
no others. -/
theorem never_stalls_iff (slip : Slipdev) (es : List OutputEvent) :
    NeverStalls slip es ↔ Every step Accepts (start slip) es := by
  constructor
  · intro h
    have hq := h es.length [.release, .dlpiwsrv, .ttywsrv]
    rw [List.take_length, final, List.foldl_append] at hq
    have hempty := hq (fun e he mp room => by
      rcases List.mem_cons.mp he with rfl | he
      · exact nofun
      · rcases List.mem_cons.mp he with rfl | he
        · exact nofun
        · exact List.mem_singleton.mp he ▸ nofun) (settled_after_release _)
    exact (final_q_iff rfl es).mp hempty
  · intro h k quiet hquiet _
    rw [final, List.foldl_append]
    exact (final_q_of_quiet _ hquiet).trans ((final_q_iff rfl _).mpr (h.take k))

/-- One failing `allocb`, and the message is still there when everything has run. -/
theorem never_stalls_fails : ¬ ∀ slip es, NeverStalls slip es := by
  intro h
  have hq := h ⟨0, 0, 0, 0, none, false⟩ [.unitdataReq [[1]] none] 1
    [.release, .dlpiwsrv, .ttywsrv] (by
      intro e he mp room
      simp only [List.mem_cons, List.not_mem_nil, or_false] at he
      rcases he with rfl | rfl | rfl <;> exact nofun) ⟨rfl, rfl, rfl⟩
  exact absurd hq (by decide)

end Output
end HydraAmix.Slip
