import Mathlib.Data.List.Basic

/-!
# Runs of a deterministic step function under a schedule

A system is a step function `step : σ → ε → σ`; everything its surroundings
choose (which party moves, with which data, which of several outcomes an
external service has) is in the event. A schedule is a finite list of events,
so a statement about all schedules is a statement about every interleaving.

`Every step Q s es` says that `Q` holds of each step of the run of `es` from
`s`, given the state before the step and its event. The two rules carry an
invariant along a run: one for a run whose steps are all allowed, and one that
characterizes exactly the runs on which `Q` holds throughout. A step that may
fail, as it does where a recursion goes deeper than allowed, has a rule of its own.
-/
namespace HydraAmix.Schedule

variable {σ ε : Type} (step : σ → ε → σ)

/-- The state in which a schedule ends. -/
def final (s : σ) (es : List ε) : σ := es.foldl step s

/-- `Q` holds of every step of the run of the schedule from `s`. -/
def Every (Q : σ → ε → Prop) : σ → List ε → Prop
  | _, [] => True
  | s, e :: es => Q s e ∧ Every Q (step s e) es

@[simp] theorem final_nil (s : σ) : final step s [] = s := rfl

@[simp] theorem final_cons (s : σ) (e : ε) (es : List ε) :
    final step s (e :: es) = final step (step s e) es := rfl

variable {step}
variable (Inv : σ → Prop) {Q good : σ → ε → Prop}

instance Every.decidable [∀ s e, Decidable (Q s e)] : ∀ s es, Decidable (Every step Q s es)
  | _, [] => inferInstanceAs (Decidable True)
  | s, e :: es =>
      have := Every.decidable (step s e) es
      inferInstanceAs (Decidable (Q s e ∧ Every step Q (step s e) es))

theorem every_of_forall (h : ∀ s e, Q s e) (s : σ) (es : List ε) : Every step Q s es := by
  induction es generalizing s with
  | nil => trivial
  | cons e es ih => exact ⟨h s e, ih _⟩

theorem every_of_forall_mem {P : ε → Prop} {es : List ε} (h : ∀ e ∈ es, P e) (s : σ) :
    Every step (fun _ e => P e) s es := by
  induction es generalizing s with
  | nil => trivial
  | cons e es ih =>
      exact ⟨h e List.mem_cons_self, ih (fun f hf => h f (List.mem_cons_of_mem e hf)) _⟩

theorem Every.take {s : σ} {es : List ε} (h : Every step Q s es) (k : ℕ) :
    Every step Q s (es.take k) := by
  induction es generalizing s k with
  | nil =>
      rw [List.take_nil]
      trivial
  | cons e es ih =>
      cases k with
      | zero => trivial
      | succ k => exact ⟨h.1, ih h.2 k⟩

theorem Every.mono {P : σ → ε → Prop} (hPQ : ∀ s e, P s e → Q s e) {s : σ} {es : List ε}
    (h : Every step P s es) : Every step Q s es := by
  induction es generalizing s with
  | nil => trivial
  | cons e es ih => exact ⟨hPQ s e h.1, ih h.2⟩

theorem Every.and {P : σ → ε → Prop} {s : σ} {es : List ε} (h : Every step P s es)
    (h' : Every step Q s es) : Every step (fun s e => P s e ∧ Q s e) s es := by
  induction es generalizing s with
  | nil => trivial
  | cons e es ih => exact ⟨⟨h.1, h'.1⟩, ih h.2 h'.2⟩

/-- An invariant kept by every step holds at the end of every run. -/
theorem final_invariant (keep : ∀ s e, Inv s → Inv (step s e)) {s : σ} (hs : Inv s)
    (es : List ε) : Inv (final step s es) := by
  induction es generalizing s with
  | nil => exact hs
  | cons e es ih => exact ih (keep s e hs)

/-- An invariant kept by the allowed steps holds at the end of every allowed run. -/
theorem final_of_every (keep : ∀ s e, Inv s → good s e → Inv (step s e)) {s : σ} (hs : Inv s)
    {es : List ε} (hg : Every step good s es) : Inv (final step s es) := by
  induction es generalizing s with
  | nil => exact hs
  | cons e es ih => exact ih (keep s e hs hg.1) hg.2

/-- The run rule: an invariant that the allowed steps keep, and under which
every allowed step satisfies `Q`, gives `Q` along every allowed run. -/
theorem every_of_invariant (keep : ∀ s e, Inv s → good s e → Inv (step s e))
    (ok : ∀ s e, Inv s → good s e → Q s e)
    {s : σ} (hs : Inv s) {es : List ε} (hg : Every step good s es) :
    Every step Q s es := by
  induction es generalizing s with
  | nil => trivial
  | cons e es ih => exact ⟨ok s e hs hg.1, ih (keep s e hs hg.1) hg.2⟩

/-- The exact form: where the invariant makes `Q` and `good` agree step by
step, the runs on which `Q` holds throughout are the runs of good steps. -/
theorem every_iff (keep : ∀ s e, Inv s → good s e → Inv (step s e))
    (iff : ∀ s e, Inv s → (Q s e ↔ good s e)) {s : σ} (hs : Inv s) (es : List ε) :
    Every step Q s es ↔ Every step good s es := by
  induction es generalizing s with
  | nil => exact Iff.rfl
  | cons e es ih =>
      constructor
      · intro h
        have hg := (iff s e hs).mp h.1
        exact ⟨hg, (ih (keep s e hs hg)).mp h.2⟩
      · intro h
        exact ⟨(iff s e hs).mpr h.1, (ih (keep s e hs h.1)).mpr h.2⟩

/-- A run that is seen through a map that commutes with the steps. -/
theorem every_map {τ : Type} {step' : τ → ε → τ} {Q' : τ → ε → Prop} (f : σ → τ)
    (hf : ∀ s e, f (step s e) = step' (f s) e) (s : σ) (es : List ε) :
    Every step' Q' (f s) es ↔ Every step (fun s e => Q' (f s) e) s es := by
  induction es generalizing s with
  | nil => exact Iff.rfl
  | cons e es ih =>
      change Q' (f s) e ∧ Every step' Q' (step' (f s) e) es ↔ _
      rw [← hf s e]
      exact and_congr Iff.rfl (ih _)

/-- A step that may fail does not, on any run, where an invariant keeps it from failing. -/
theorem foldlM_invariant {step : σ → ε → Option σ}
    (keep : ∀ s e, Inv s → ∃ t, step s e = some t ∧ Inv t) {s : σ} (hs : Inv s) (es : List ε) :
    ∃ t, es.foldlM step s = some t ∧ Inv t := by
  induction es generalizing s with
  | nil => exact ⟨s, rfl, hs⟩
  | cons e es ih =>
      obtain ⟨t, ht, hinv⟩ := keep s e hs
      obtain ⟨u, hu, hu'⟩ := ih hinv
      refine ⟨u, ?_, hu'⟩
      rw [List.foldlM_cons, ht]
      exact hu

end HydraAmix.Schedule
