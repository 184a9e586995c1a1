import HydraAmix.Disk.DdStrategy
import HydraAmix.Library.Schedule

/-!
# The life of a disk request

The stage of a drive says which command the controller has for the first request
of the queue, and which have ended for it: none before the first transfer, the
failed transfer before the sense bytes, both before the retry.
-/
namespace HydraAmix.Disk
open Schedule

variable (partab : Partab) (sense : ℕ)

/-- The command that a drive in stage `st` has out for a request. -/
def commandOf (st : Stage) (bp : Buf) : Command :=
  match st with
  | .FIRST | .RETRY => ioCommand partab bp
  | .SENSE => senseCommand sense

/-- The commands that have ended for a request in stage `st`, latest first. -/
def Tried (bp : Buf) : Stage → List (Command × Outcome) → Prop
  | .FIRST, l => l = []
  | .SENSE, l => ∃ o, o.okay = true ∧ o.status ≠ 0 ∧ l = [(ioCommand partab bp, o)]
  | .RETRY, l => ∃ o o', o.okay = true ∧ o.status ≠ 0 ∧ o'.okay = true ∧ o'.status = 0 ∧
      l = [(senseCommand sense, o'), (ioCommand partab bp, o)]

/-- A completed request: without an error its own transfer ended well; in any case
there was one transfer, then at most one sense command and one retry. -/
structure Completed (bp : Buf) (l : List (Command × Outcome)) : Prop where
  well : bp.error = false → ∃ o rest, l = (ioCommand partab bp, o) :: rest ∧
    o.okay = true ∧ o.status = 0
  tries : ∃ o o' o'', l = [(ioCommand partab bp, o)] ∨
    l = [(senseCommand sense, o'), (ioCommand partab bp, o)] ∨
    l = [(ioCommand partab bp, o''), (senseCommand sense, o'), (ioCommand partab bp, o)]

namespace Dd

/-- What holds of a drive after every step. -/
structure Sound (dp : Dd) : Prop where
  /-- One command is out exactly when there are requests. -/
  out : dp.out.length = if dp.queue = [] then 0 else 1
  /-- The accepted requests were completed once and in order, up to their error flags. -/
  order : dp.asked.map Buf.setError = (dp.done.map Prod.fst ++ dp.queue).map Buf.setError
  done : ∀ e ∈ dp.done, Completed partab sense e.1 e.2

/-- The invariant of a drive. -/
structure Inv (dp : Dd) : Prop where
  out : dp.out = dp.queue.head?.toList.map (commandOf partab sense dp.state)
  tried : ∀ bp rest, dp.queue = bp :: rest → Tried partab sense bp dp.state dp.tried
  none : dp.queue = [] → dp.tried = []
  order : dp.asked.map Buf.setError = (dp.done.map Prod.fst ++ dp.queue).map Buf.setError
  done : ∀ e ∈ dp.done, Completed partab sense e.1 e.2

variable {partab sense} {dp : Dd} {bp : Buf} {rest : List Buf} {o : Outcome}

theorem Inv.sound (h : dp.Inv partab sense) : dp.Sound partab sense where
  out := by
    rw [h.out]
    cases dp.queue <;> rfl
  order := h.order
  done := h.done

/-- A request joins the queue. -/
theorem Inv.accept (h : dp.Inv partab sense) (bp : Buf) :
    (dp.accept partab bp).Inv partab sense := by
  have horder : (dp.asked ++ [bp]).map Buf.setError =
      (dp.done.map Prod.fst ++ (dp.queue ++ [bp])).map Buf.setError := by
    simp only [List.map_append, h.order, List.append_assoc]
  cases hq : dp.queue with
  | nil =>
      have hrun : dp.accept partab bp =
          (((dp.ask bp).setQueue [bp]).setState .FIRST).sdqueue (ioCommand partab bp) := by
        unfold Dd.accept
        exact if_neg (not_not.mpr hq)
      rw [hrun]
      have hout := h.out
      rw [hq] at hout horder
      refine ⟨?_, ?_, nofun, horder, h.done⟩
      · change dp.out ++ [ioCommand partab bp] = [ioCommand partab bp]
        rw [hout]
        rfl
      · rintro b l hb
        exact h.none hq
  | cons b l =>
      have hrun : dp.accept partab bp = (dp.ask bp).setQueue (dp.queue ++ [bp]) := by
        unfold Dd.accept
        exact if_pos (hq ▸ List.cons_ne_nil b l)
      rw [hrun]
      refine ⟨?_, fun b' l' hb => ?_, fun hn => ?_, horder, h.done⟩
      · change dp.out = (dp.queue ++ [bp]).head?.toList.map (commandOf partab sense dp.state)
        rw [h.out, hq]
        rfl
      · change dp.queue ++ [bp] = b' :: l' at hb
        rw [hq] at hb
        obtain ⟨rfl, -⟩ := List.cons.inj hb
        exact h.tried b l hq
      · exact absurd hn (List.append_ne_nil_of_right_ne_nil _ (List.cons_ne_nil bp []))

variable (partab sense) in
/-- A drive between two commands for its first request. -/
structure Between (dp : Dd) (bp : Buf) (rest : List Buf) : Prop where
  queue : dp.queue = bp :: rest
  out : dp.out = []
  order : dp.asked.map Buf.setError = (dp.done.map Prod.fst ++ dp.queue).map Buf.setError
  done : ∀ e ∈ dp.done, Completed partab sense e.1 e.2

/-- A further command for the request. -/
theorem Between.next (h : dp.Between partab sense bp rest) (st : Stage)
    (ht : Tried partab sense bp st dp.tried) :
    ((dp.setState st).sdqueue (commandOf partab sense st bp)).Inv partab sense := by
  refine ⟨?_, fun b l hb => ?_, fun hn => ?_, h.order, h.done⟩
  · change dp.out ++ [_] = dp.queue.head?.toList.map (commandOf partab sense st)
    rw [h.out, h.queue]
    rfl
  · obtain ⟨rfl, -⟩ := List.cons.inj (h.queue.symm.trans hb)
    exact ht
  · exact absurd (h.queue.symm.trans hn) (List.cons_ne_nil bp rest)

/-- The request is completed, and the next one starts. -/
theorem Between.finish (h : dp.Between partab sense bp rest) (error : Bool)
    (hc : Completed partab sense (if error then bp.setError else bp) dp.tried) :
    (dp.finish partab error).Inv partab sense := by
  generalize hbp : (if error then bp.setError else bp) = bp' at hc
  have hsame : bp'.setError = bp.setError := by
    rw [← hbp]
    cases error <;> rfl
  have hrun : dp.finish partab error = ((dp.setQueue rest).iodone bp').startio partab .FIRST := by
    unfold Dd.finish
    rw [h.queue, ← hbp]
  have horder : dp.asked.map Buf.setError =
      ((dp.done ++ [(bp', dp.tried)]).map Prod.fst ++ rest).map Buf.setError := by
    rw [h.order, h.queue]
    simp [hsame]
  have hdone : ∀ e ∈ dp.done ++ [(bp', dp.tried)], Completed partab sense e.1 e.2 := by
    intro e he
    rcases List.mem_append.mp he with he | he
    · exact h.done e he
    · rw [List.mem_singleton.mp he]
      exact hc
  rw [hrun]
  cases rest with
  | nil =>
      refine ⟨?_, nofun, fun _ => rfl, horder, hdone⟩
      exact h.out
  | cons b l =>
      refine ⟨?_, fun b' l' _ => rfl, nofun, horder, hdone⟩
      change dp.out ++ [_] = [_]
      rw [h.out]
      rfl

/-- The step: a command ends. -/
theorem Inv.ihandle (h : dp.Inv partab sense) (ho : dp.out ≠ []) (o : Outcome) :
    ((dp.ended o).ihandle partab sense o).Inv partab sense := by
  have hne : dp.queue ≠ [] := fun hn => ho (by rw [h.out, hn]; rfl)
  obtain ⟨bp, rest, hq⟩ := List.exists_cons_of_ne_nil hne
  have hout := h.out
  rw [hq] at hout
  change dp.out = [commandOf partab sense dp.state bp] at hout
  have htried := h.tried bp rest hq
  have hended : (dp.ended o).tried = (commandOf partab sense dp.state bp, o) :: dp.tried := by
    change (dp.out.head?.map fun c => (c, o)).toList ++ dp.tried = _
    rw [hout]
    rfl
  have hbetween : (dp.ended o).Between partab sense bp rest := by
    refine ⟨hq, ?_, h.order, h.done⟩
    change dp.out.tail = []
    rw [hout]
    rfl
  have hfail : Completed partab sense bp.setError ((dp.ended o).tried) := by
    rw [hended]
    refine ⟨nofun, ?_⟩
    cases hst : dp.state with
    | FIRST =>
        rw [hst] at htried
        rw [show dp.tried = [] from htried]
        exact ⟨o, o, o, .inl rfl⟩
    | SENSE =>
        rw [hst] at htried
        obtain ⟨o₁, -, -, hl⟩ := htried
        rw [hl]
        exact ⟨o₁, o, o, .inr (.inl rfl)⟩
    | RETRY =>
        rw [hst] at htried
        obtain ⟨o₁, o₂, -, -, -, -, hl⟩ := htried
        rw [hl]
        exact ⟨o₁, o₂, o, .inr (.inr rfl)⟩
  unfold Dd.ihandle
  by_cases hok : o.okay = false
  · rw [if_pos hok]
    exact hbetween.finish true hfail
  rw [if_neg hok]
  rw [Bool.not_eq_false] at hok
  have hstate : (dp.ended o).state = dp.state := rfl
  rw [hstate]
  cases hst : dp.state with
  | FIRST =>
      rw [hst] at htried hended
      have hnil : dp.tried = [] := htried
      rw [hnil] at hended
      by_cases hs : o.status ≠ 0
      · simp only [if_pos hs]
        refine hbetween.next .SENSE ?_
        rw [hended]
        exact ⟨o, hok, hs, rfl⟩
      · simp only [if_neg hs]
        refine hbetween.finish false ?_
        rw [hended]
        exact ⟨fun _ => ⟨o, [], rfl, hok, not_not.mp hs⟩, o, o, o, .inl rfl⟩
  | SENSE =>
      rw [hst] at htried hended
      obtain ⟨o₁, hok₁, hs₁, hl⟩ := htried
      rw [hl] at hended
      by_cases hs : o.status = 0
      · simp only [if_pos hs]
        have hrun : (dp.ended o).startio partab .RETRY = ((dp.ended o).setState .RETRY).sdqueue
            (commandOf partab sense .RETRY bp) := by
          unfold startio
          rw [hbetween.queue]
          rfl
        rw [hrun]
        refine hbetween.next .RETRY ?_
        rw [hended]
        exact ⟨o₁, o, hok₁, hs₁, hok, hs, rfl⟩
      · simp only [if_neg hs]
        exact hbetween.finish true hfail
  | RETRY =>
      rw [hst] at htried hended
      obtain ⟨o₁, o₂, -, -, -, -, hl⟩ := htried
      rw [hl] at hended
      simp only
      refine hbetween.finish _ ?_
      by_cases hs : o.status = 0
      · simp only [hs, ne_eq, not_true_eq_false, decide_false, Bool.false_eq_true, if_false]
        rw [hended]
        exact ⟨fun _ => ⟨o, _, rfl, hok, hs⟩, o₁, o₂, o, .inr (.inr rfl)⟩
      · simp only [hs, ne_eq, not_false_eq_true, decide_true, if_true]
        exact hfail

end Dd

namespace Disks

variable {partab} {senseOf : Drive → ℕ} {s : Disks}

/-- Each drive of a step is as before, has accepted a request, or had a command end. -/
theorem step_inv (h : ∀ d, (s.ddtab d).Inv partab (senseOf d)) (e : Event) (d : Drive) :
    ((s.step partab senseOf e).ddtab d).Inv partab (senseOf d) := by
  have hset : ∀ d' dp, dp.Inv partab (senseOf d') →
      ((s.setDd d' dp).ddtab d).Inv partab (senseOf d) := by
    intro d' dp hdp
    change (Function.update s.ddtab d' dp d).Inv partab (senseOf d)
    by_cases hd : d = d'
    · subst hd
      rw [Function.update_self]
      exact hdp
    · rw [Function.update_of_ne hd]
      exact h d
  cases e with
  | strategy bp =>
      unfold step ddstrategy
      simp only
      split_ifs
      · exact h d
      · exact hset _ _ ((h _).accept _)
  | interrupt d' o =>
      unfold step
      simp only
      split_ifs with hout
      · exact h d
      · exact hset _ _ ((h d').ihandle hout o)

end Disks

end HydraAmix.Disk
