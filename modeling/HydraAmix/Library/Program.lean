import Mathlib.Logic.Basic

/-!
# Programs that talk to a device

A `Prog` is a finite tree of operations: each node performs one operation and
continues with the answer. The tree fixes what the program does and leaves
open what answers. `run` supplies the answers from a deterministic handler
`exec` over a world `W`; `Along` follows the same single execution and asks
something of every operation at the moment it is performed; `collect` lists what
the operations say, and `transcript` what they and their answers say; `All`
ignores the answers and asks something of every operation that any answer can
lead to.

Nothing here names a particular device. The rules below are the only facts
about programs that the later modules use: how these notions pass through
`pure` and `>>=`, and how a property of single operations becomes a property
of whole executions.
-/
namespace HydraAmix.Program

/-- A program over operations `o : Op β`, each answered by a value of type `β`. -/
inductive Prog (Op : Type → Type) (α : Type) : Type 1 where
  | ret (a : α)
  | step {β : Type} (o : Op β) (next : β → Prog Op α)

namespace Prog

variable {Op : Type → Type} {α β γ W : Type}

protected def bind : Prog Op α → (α → Prog Op β) → Prog Op β
  | ret a, f => f a
  | step o next, f => step o fun r => (next r).bind f

instance : Monad (Prog Op) where
  pure := ret
  bind := Prog.bind

/-- The program that performs one operation and returns its answer. -/
def perform (o : Op β) : Prog Op β := step o ret

section Run

variable (exec : {β : Type} → Op β → W → β × W)

/-- The execution of a program against a handler: its result and last world. -/
def run : Prog Op α → W → α × W
  | ret a, w => (a, w)
  | step o next, w => run (next (exec o w).1) (exec o w).2

@[simp] theorem run_pure (a : α) (w : W) :
    run exec (pure a : Prog Op α) w = (a, w) := by rfl

@[simp] theorem run_bind (p : Prog Op α) (f : α → Prog Op β) (w : W) :
    run exec (p >>= f) w = run exec (f (run exec p w).1) (run exec p w).2 := by
  induction p generalizing w with
  | ret a => rfl
  | step o next ih => exact ih (exec o w).1 (exec o w).2

@[simp] theorem run_ite (c : Prop) {_ : Decidable c} (p q : Prog Op α) (w : W) :
    run exec (if c then p else q) w = if c then run exec p w else run exec q w :=
  apply_ite (fun p => run exec p w) c p q

/-- Every operation of the execution from `w` satisfies `P` in the world in
which it is performed. -/
def Along (P : (β : Type) → Op β → W → Prop) : Prog Op α → W → Prop
  | ret _, _ => True
  | step o next, w => P _ o w ∧ Along P (next (exec o w).1) (exec o w).2

variable {exec}
variable {P Q : (β : Type) → Op β → W → Prop}

@[simp] theorem along_pure (a : α) (w : W) :
    Along exec P (pure a : Prog Op α) w := trivial

@[simp] theorem along_bind (p : Prog Op α) (f : α → Prog Op β) (w : W) :
    Along exec P (p >>= f) w ↔
      Along exec P p w ∧ Along exec P (f (run exec p w).1) (run exec p w).2 := by
  induction p generalizing w with
  | ret a => exact ⟨fun h => ⟨trivial, h⟩, fun h => h.2⟩
  | step o next ih =>
      have hr := ih (exec o w).1 (exec o w).2
      exact ⟨fun h => ⟨⟨h.1, (hr.mp h.2).1⟩, (hr.mp h.2).2⟩,
        fun h => ⟨h.1.1, hr.mpr ⟨h.1.2, h.2⟩⟩⟩

@[simp] theorem along_perform (o : Op β) (w : W) :
    Along exec P (perform o : Prog Op β) w ↔ P _ o w :=
  ⟨fun h => h.1, fun h => ⟨h, trivial⟩⟩

@[simp] theorem along_ite (c : Prop) {_ : Decidable c} (p q : Prog Op α) (w : W) :
    Along exec P (if c then p else q) w ↔ if c then Along exec P p w else Along exec P q w := by
  split <;> rfl

theorem Along.mono (h : ∀ β (o : Op β) w, P β o w → Q β o w) {p : Prog Op α} {w : W}
    (hp : Along exec P p w) : Along exec Q p w := by
  induction p generalizing w with
  | ret a => trivial
  | step o next ih => exact ⟨h _ o w hp.1, ih _ hp.2⟩

/-- What the operations of the execution from `w` say, in their order. -/
def collect (exec : {β : Type} → Op β → W → β × W) (f : {β : Type} → Op β → List γ) :
    Prog Op α → W → List γ
  | ret _, _ => []
  | step o next, w => f o ++ collect exec f (next (exec o w).1) (exec o w).2

variable {f : {β : Type} → Op β → List γ}

@[simp] theorem collect_pure (a : α) (w : W) :
    collect exec f (pure a : Prog Op α) w = [] := rfl

@[simp] theorem collect_perform (o : Op β) (w : W) :
    collect exec f (perform o : Prog Op β) w = f o := List.append_nil _

@[simp] theorem collect_bind (p : Prog Op α) (g : α → Prog Op β) (w : W) :
    collect exec f (p >>= g) w =
      collect exec f p w ++ collect exec f (g (run exec p w).1) (run exec p w).2 := by
  induction p generalizing w with
  | ret a => rfl
  | step o next ih =>
      change f o ++ collect exec f (next (exec o w).1 >>= g) (exec o w).2 =
        f o ++ collect exec f (next (exec o w).1) (exec o w).2 ++ _
      rw [ih, List.append_assoc]
      rfl

@[simp] theorem collect_ite (c : Prop) {_ : Decidable c} (p q : Prog Op α) (w : W) :
    collect exec f (if c then p else q) w =
      if c then collect exec f p w else collect exec f q w :=
  apply_ite (fun p => collect exec f p w) c p q

/-- What the operations of the execution from `w` and their answers say, in their order. -/
def transcript (exec : {β : Type} → Op β → W → β × W) (f : {β : Type} → Op β → β → List γ) :
    Prog Op α → W → List γ
  | ret _, _ => []
  | step o next, w => f o (exec o w).1 ++ transcript exec f (next (exec o w).1) (exec o w).2

variable {f : {β : Type} → Op β → β → List γ}

@[simp] theorem transcript_pure (a : α) (w : W) :
    transcript exec f (pure a : Prog Op α) w = [] := rfl

@[simp] theorem transcript_perform (o : Op β) (w : W) :
    transcript exec f (perform o : Prog Op β) w = f o (exec o w).1 := List.append_nil _

@[simp] theorem transcript_bind (p : Prog Op α) (g : α → Prog Op β) (w : W) :
    transcript exec f (p >>= g) w =
      transcript exec f p w ++ transcript exec f (g (run exec p w).1) (run exec p w).2 := by
  induction p generalizing w with
  | ret a => rfl
  | step o next ih =>
      change f o _ ++ transcript exec f (next (exec o w).1 >>= g) (exec o w).2 =
        f o _ ++ transcript exec f (next (exec o w).1) (exec o w).2 ++ _
      rw [ih, List.append_assoc]
      rfl

@[simp] theorem transcript_ite (c : Prop) {_ : Decidable c} (p q : Prog Op α) (w : W) :
    transcript exec f (if c then p else q) w =
      if c then transcript exec f p w else transcript exec f q w :=
  apply_ite (fun p => transcript exec f p w) c p q

end Run

/-- Every operation the program can reach under any answers satisfies `P`. -/
def All (P : (β : Type) → Op β → Prop) : Prog Op α → Prop
  | ret _ => True
  | step o next => P _ o ∧ ∀ r, All P (next r)

variable {P Q : (β : Type) → Op β → Prop}

@[simp] theorem all_pure (a : α) : All P (pure a : Prog Op α) := trivial

@[simp] theorem all_perform {o : Op β} : All P (perform o : Prog Op β) ↔ P _ o :=
  ⟨fun h => h.1, fun h => ⟨h, fun _ => trivial⟩⟩

theorem All.perform {o : Op β} (h : P _ o) : All P (perform o : Prog Op β) :=
  all_perform.mpr h

theorem All.ite {c : Prop} {_ : Decidable c} {p q : Prog Op α} (hp : All P p) (hq : All P q) :
    All P (if c then p else q) := by
  split
  · exact hp
  · exact hq

theorem All.bind {p : Prog Op α} {f : α → Prog Op β} (hp : All P p)
    (hf : ∀ a, All P (f a)) : All P (p >>= f) := by
  induction p with
  | ret a => exact hf a
  | step o next ih => exact ⟨hp.1, fun r => ih r (hp.2 r)⟩

theorem All.mono (h : ∀ β (o : Op β), P β o → Q β o) {p : Prog Op α} (hp : All P p) :
    All Q p := by
  induction p with
  | ret a => trivial
  | step o next ih => exact ⟨h _ o hp.1, fun r => ih r (hp.2 r)⟩

/-- A syntactic bound on the operations holds along every execution. -/
theorem All.along {exec : {β : Type} → Op β → W → β × W}
    {R : (β : Type) → Op β → W → Prop} (h : ∀ β (o : Op β) w, P β o → R β o w)
    {p : Prog Op α} (hp : All P p) (w : W) : Along exec R p w := by
  induction p generalizing w with
  | ret a => trivial
  | step o next ih => exact ⟨h _ o w hp.1, ih _ (hp.2 _) _⟩

/-- A syntactic bound on what the operations say holds of every execution. -/
theorem All.collect {exec : {β : Type} → Op β → W → β × W} {f : {β : Type} → Op β → List γ}
    {R : γ → Prop} {p : Prog Op α} (hp : All (fun _ o => ∀ x ∈ f o, R x) p) {w : W} {x : γ}
    (hx : x ∈ collect exec f p w) : R x := by
  induction p generalizing w with
  | ret a => exact absurd hx List.not_mem_nil
  | step o next ih =>
      rcases List.mem_append.mp hx with hx | hx
      · exact hp.1 x hx
      · exact ih _ (hp.2 _) hx

/-- Operations that say nothing, whatever their answers, leave the transcript empty. -/
theorem All.transcript {exec : {β : Type} → Op β → W → β × W} {f : {β : Type} → Op β → β → List γ}
    {p : Prog Op α} (h : All (fun _ o => ∀ r, f o r = []) p) (w : W) :
    transcript exec f p w = [] := by
  induction p generalizing w with
  | ret a => rfl
  | step o next ih => rw [Prog.transcript, h.1, ih _ (h.2 _), List.append_nil]

/-- A reflexive and transitive relation kept by each permitted operation
relates the first and the last world of every execution. -/
theorem All.run_rel {exec : {β : Type} → Op β → W → β × W} {R : W → W → Prop}
    (hrefl : ∀ w, R w w) (htrans : ∀ a b c, R a b → R b c → R a c)
    (h : ∀ β (o : Op β) w, P β o → R w (exec o w).2) {p : Prog Op α} (hp : All P p) (w : W) :
    R w (run exec p w).2 := by
  induction p generalizing w with
  | ret a => exact hrefl w
  | step o next ih => exact htrans _ _ _ (h _ o w hp.1) (ih _ (hp.2 _) _)

end Prog
end HydraAmix.Program
