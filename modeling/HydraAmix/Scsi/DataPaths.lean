import HydraAmix.Scsi.Requests

/-!
# Controllers that differ in their data path

The state machine reads nothing of the data path but the transfer count that it
saves. A map of data paths that commutes with their operations is therefore one
of controllers, and what two paths do on the same events can be seen in the run of
one path that is mapped to both.
-/
namespace HydraAmix.Scsi.Controller

variable {D E : Type}

/-- The same controller with another data path. -/
def Card.map (f : D → E) (s : Card D) : Card E :=
  ⟨s.com, s.tc, s.start, s.cur, s.istate, s.away, s.asked, s.done, f s.path⟩

/-- What one data path does is what another does, seen through `f`. -/
structure DataPath.Hom (P : DataPath D) (Q : DataPath E) (f : D → E) : Prop where
  startdma : ∀ d r n, f (P.startdma d r n) = Q.startdma (f d) r n
  stopdma : ∀ d r, f (P.stopdma d r) = Q.stopdma (f d) r
  TC : ∀ d, P.TC d = Q.TC (f d)
  setTC : ∀ d n, f (P.setTC d n) = Q.setTC (f d) n
  setCDB : ∀ d l, f (P.setCDB d l) = Q.setCDB (f d) l
  setDI : ∀ d r, f (P.setDI d r) = Q.setDI (f d) r
  move : ∀ d k, f (P.move d k) = Q.move (f d) k

namespace Card

variable {P : DataPath D} {Q : DataPath E} {f : D → E}

@[simp] theorem map_com (s : Card D) : (s.map f).com = s.com := rfl

@[simp] theorem map_start (s : Card D) : (s.map f).start = s.start := rfl

@[simp] theorem map_cur (s : Card D) : (s.map f).cur = s.cur := rfl

@[simp] theorem map_istate (s : Card D) : (s.map f).istate = s.istate := rfl

@[simp] theorem map_path (s : Card D) : (s.map f).path = f s.path := rfl

theorem map_setPath (s : Card D) (d : D) : (s.setPath d).map f = (s.map f).setPath (f d) := rfl

theorem map_setIstate (s : Card D) (i : IState) :
    (s.setIstate i).map f = (s.map f).setIstate i := rfl

theorem map_startdma (h : P.Hom Q f) (s : Card D) (u : UnitNo) (r : Sdcom) :
    (s.startdma P u r).map f = (s.map f).startdma Q u r :=
  congrArg (s.map f).setPath (h.startdma s.path r (s.tc u))

theorem map_stopdma (h : P.Hom Q f) (s : Card D) :
    (s.stopdma P).map f = (s.map f).stopdma Q := by
  unfold stopdma
  rw [map_com, map_cur]
  cases s.com s.cur with
  | nil => rfl
  | cons r l => exact congrArg (s.map f).setPath (h.stopdma s.path r)

theorem map_startany (h : P.Hom Q f) (s : Card D) :
    (s.startany P).map f = (s.map f).startany Q := by
  unfold startany
  rw [map_istate, map_start]
  split
  · rename_i u rest _ _
    rw [map_com]
    cases s.com u with
    | nil => rfl
    | cons r l =>
        dsimp only
        rw [map_setIstate, map_startdma h]
        have hpath : f (P.setDI (P.setCDB s.path r.cdb) r) =
            Q.setDI (Q.setCDB (f s.path) r.cdb) r := by
          rw [h.setDI, h.setCDB]
        exact congrArg (fun d => ((((((s.map f).setStart rest).setCur u).setPath d).setTc u
          (r.nbyte % 0x1000000)).startdma Q u r).setIstate .STARTING) hpath
  · rfl

theorem map_uqueue (h : P.Hom Q f) (s : Card D) (u : UnitNo) :
    (s.uqueue P u).map f = (s.map f).uqueue Q u := by
  unfold uqueue
  rw [map_start]
  split_ifs
  · rfl
  · exact map_startany h _

theorem map_queue (h : P.Hom Q f) (s : Card D) (r : Sdcom) :
    (s.queue P r).map f = (s.map f).queue Q r := by
  by_cases hc : s.com r.unit = []
  · rw [queue_of_nil hc, queue_of_nil (s := s.map f) hc]
    exact map_uqueue h _ r.unit
  · rw [queue_of_ne_nil hc, queue_of_ne_nil (s := s.map f) hc]
    rfl

theorem map_calls (h : P.Hom Q f) (calls : List Sdcom) (s : Card D) :
    (calls.foldl (fun s r => s.queue P r) s).map f =
      calls.foldl (fun s r => s.queue Q r) (s.map f) := by
  induction calls generalizing s with
  | nil => rfl
  | cons r calls ih =>
      rw [List.foldl_cons, List.foldl_cons, ih, map_queue h]

theorem map_complete (h : P.Hom Q f) (s : Card D) (okay : Option ℕ) (calls : List Sdcom) :
    (s.complete P okay calls).map f = (s.map f).complete Q okay calls := by
  unfold complete
  dsimp only
  rw [← map_stopdma h]
  generalize s.stopdma P = s
  rw [map_com, map_cur]
  cases s.com s.cur with
  | nil => rfl
  | cons r rest =>
      dsimp only
      rw [map_startany h, map_setIstate, map_calls h]
      split_ifs
      · exact congrArg (fun t => startany Q (setIstate (calls.foldl (fun s r => s.queue Q r)
          (t.intr s.cur r okay)) .IDLE)) (map_uqueue h (s.setCom s.cur rest) s.cur)
      · rfl

theorem map_resume (h : P.Hom Q f) (s : Card D) (si : BitVec 8) :
    (s.resume P si).map f = (s.map f).resume Q si := by
  unfold resume
  dsimp only
  rw [map_com]
  cases s.com (si.setWidth 3) with
  | nil => rfl
  | cons r l =>
      dsimp only
      rw [← map_startdma h]
      generalize s.startdma P (si.setWidth 3) r = s
      exact congrArg (fun d => ((((s.map f).setPath d).setAway (si.setWidth 3) false).setCur
        (si.setWidth 3)).setIstate .RESUMING) (h.setDI s.path r)

theorem map_service (h : P.Hom Q f) (s : Card D) (e : Interrupt) :
    (s.service P e).map f = (s.map f).service Q e := by
  unfold service
  dsimp only
  rw [map_path, ← h.move, ← map_setPath]
  generalize s.setPath (P.move s.path e.moved) = s
  rw [map_istate]
  split
  · exact map_complete h s _ e.calls
  · rfl
  · rw [map_resume h, map_uqueue h, map_stopdma h, map_cur]
  · exact map_resume h s e.si
  · exact congrArg (fun d => ((s.map f).setPath d).setIstate .RESUMING) (h.setTC s.path _)
  · exact map_complete h s _ e.calls
  · exact congrArg (fun n => ((s.map f).setTc s.cur n).setIstate .RESUMING) (h.TC s.path)
  · rw [map_startany h, ← map_stopdma h]
    rfl
  · rfl
  · exact congrArg (fun d => ((s.map f).setPath d).setIstate .ENDING) (h.setTC s.path 0)

theorem map_step (h : P.Hom Q f) (s : Card D) (e : Event) :
    (step P s e).map f = step Q (s.map f) e := by
  cases e with
  | queue r => exact map_queue h s r
  | intr e => exact map_service h s e

end Card
end HydraAmix.Scsi.Controller
