import HydraAmix.Library.Schedule
import HydraAmix.Hydra.OpenOutcome

/-!
# Streams and slots over sequences of opens and closes

A stream is opened with any device number and flag, opened again by its own
device number, and closed. `Owned` is what every such sequence keeps, whatever
goes wrong in it: a slot names a stream exactly if the stream's pointers name
the slot, slots in use are on running boards, and the device number of an open
stream is that of its slot.
-/
namespace HydraAmix.Hydra
open Word Program Prog Schedule DlState BoardState OpenFlag

/-- The machine with the device number of each open stream. -/
structure Streams where
  world : World
  opened : QId → Option Dev

inductive StreamEvent where
  | hydraopen (q : QId) (dev : Dev) (sflag : OpenFlag)
  | hydraclose (q : QId)

namespace Streams

/-- A call of `hydraopen` for a stream: the kernel gives a new stream an empty
pair of queues. -/
def attempt (s : Streams) (q : QId) (dev : Dev) (sflag : OpenFlag) :
    (Option Errno × Dev) × World :=
  run exec (hydraopen q dev sflag)
    (if s.opened q = none then s.world.setWq q [] else s.world)

/-- An open is of a new stream, or of an open one by its own device number. -/
def Admissible (s : Streams) (q : QId) (dev : Dev) : Prop :=
  s.opened q = none ∨ s.opened q = some dev

instance (s : Streams) (q : QId) (dev : Dev) : Decidable (s.Admissible q dev) := by
  unfold Admissible
  infer_instance

def step (s : Streams) : StreamEvent → Streams
  | .hydraopen q dev sflag =>
      if s.Admissible q dev then
        let r := s.attempt q dev sflag
        ⟨r.2, if r.1.1 = none then Function.update s.opened q (some r.1.2) else s.opened⟩
      else s
  | .hydraclose q =>
      if s.opened q = none then s
      else ⟨(run exec (Hydra.hydraclose q) s.world).2, Function.update s.opened q none⟩

/-- The slots and the streams belong to each other. -/
structure Owned (s : Streams) : Prop where
  ptr : ∀ q t, (s.world.drv.slot t).q = some q ↔ s.world.rptr q = some t
  wptr : s.world.wptr = s.world.rptr
  opened : ∀ q, s.opened q = none ↔ s.world.rptr q = none
  minor : ∀ q dev t, s.opened q = some dev → s.world.rptr q = some t →
    dev.minor = makeMinor t.dev t.board
  running : ∀ t, (s.world.drv.slot t).q ≠ none →
    (s.world.drv.board t.board).status.boardState = HYDRA_BOARD_RUNNING
  index : ∀ t, (s.world.drv.slot t).q ≠ none → (s.world.drv.slot t).boardIndex = t.board
  base : ∀ b, (s.world.drv.board b).status.boardState = HYDRA_BOARD_RUNNING →
    (s.world.drv.board b).info.boardBase ≠ 0 ∧ (s.world.drv.board b).info.nicBase ≠ 0

/-- The streams before the first open. -/
def boot (w : World) (autoconfig : BoardId → ℕ) : Streams :=
  ⟨w.boot autoconfig, fun _ => none⟩

theorem boot_owned (w : World) (autoconfig : BoardId → ℕ) : (boot w autoconfig).Owned := by
  constructor <;> simp [boot, World.boot, Driver.boot, Driver.slot]

variable {s : Streams}

/-- A board that is not running has no open stream. -/
theorem Owned.free (h : s.Owned) {t : Slot}
    (hb : (s.world.drv.board t.board).status.boardState ≠ HYDRA_BOARD_RUNNING) :
    (s.world.drv.slot t).q = none := by
  by_contra hq
  exact hb (h.running t hq)

/-- Changes that keep the slot table and the pointers. -/
theorem Owned.congr (h : s.Owned) {w : World}
    (hq : ∀ t, (w.drv.slot t).q = (s.world.drv.slot t).q)
    (hi : ∀ t, (w.drv.slot t).boardIndex = (s.world.drv.slot t).boardIndex)
    (hr : w.rptr = s.world.rptr) (hw : w.wptr = s.world.wptr)
    (hrun : ∀ b, (s.world.drv.board b).status.boardState = HYDRA_BOARD_RUNNING →
      (w.drv.board b).status.boardState = HYDRA_BOARD_RUNNING)
    (hbase : ∀ b, (w.drv.board b).status.boardState = HYDRA_BOARD_RUNNING →
      (w.drv.board b).info.boardBase ≠ 0 ∧ (w.drv.board b).info.nicBase ≠ 0) :
    Owned ⟨w, s.opened⟩ where
  ptr q t := by
    change (w.drv.slot t).q = some q ↔ w.rptr q = some t
    rw [hq, hr, h.ptr]
  wptr := hw.trans (h.wptr.trans hr.symm)
  opened q := by
    change s.opened q = none ↔ w.rptr q = none
    rw [hr, h.opened]
  minor q dev t ho ht := h.minor q dev t ho (hr ▸ ht)
  running t ht := hrun _ (h.running t (hq t ▸ ht))
  index t ht := (hi t).trans (h.index t (hq t ▸ ht))
  base := hbase

/-- A board without an address is not brought up. -/
theorem Owned.refuse (h : s.Owned) {b : BoardId}
    (hb : (s.world.drv.board b).status.boardState ≠ HYDRA_BOARD_RUNNING) :
    Owned ⟨s.world.setDrv (s.world.drv.modifyBoard b fun bd => { bd with
      info := { bd.info with boardBase := 0 } }), s.opened⟩ := by
  have hne : ∀ c, (s.world.drv.board c).status.boardState = HYDRA_BOARD_RUNNING → c ≠ b :=
    fun c hc he => hb (he ▸ hc)
  refine h.congr (fun t => ?_) (fun t => ?_) rfl rfl (fun c hc => ?_) (fun c hc => ?_)
  · by_cases ht : t.board = b
    all_goals simp [Driver.slot, ht]
  · by_cases ht : t.board = b
    all_goals simp [Driver.slot, ht]
  · simpa [hne c hc] using hc
  · by_cases hcb : c = b
    · subst hcb
      simp only [World.setDrv_drv, Driver.modifyBoard_self] at hc
      exact absurd hc hb
    · simp only [World.setDrv_drv, Driver.modifyBoard_of_ne _ hcb] at hc ⊢
      exact h.base c hc

/-- Start-up of a board that is not running clears slots that are free anyway. -/
theorem Owned.start (h : s.Owned) {b : BoardId} {base : ℕ} (hbase : base ≠ 0)
    (a : Vector Byte 6) (n : Nic)
    (hb : (s.world.drv.board b).status.boardState ≠ HYDRA_BOARD_RUNNING) :
    Owned ⟨(s.world.setDrv (s.world.drv.modifyBoard b fun bd => bd.start base a)).setNic b n,
      s.opened⟩ := by
  refine h.congr (fun t => ?_) (fun t => ?_) rfl rfl (fun c hc => ?_) (fun c hc => ?_)
  · rw [World.setNic_drv, World.setDrv_drv, Driver.slot_start]
    split_ifs with ht
    · subst ht
      exact (h.free hb).symm
    · rfl
  · rw [World.setNic_drv, World.setDrv_drv, Driver.slot_start]
    split_ifs <;> rfl
  · by_cases hcb : c = b
    all_goals simp [hcb, HydraBoard.start, HydraStatus.start, hc]
  · by_cases hcb : c = b
    · subst hcb
      simp [HydraBoard.start, HydraInfo.start, hbase, NE8390_NIC_OFFSET]
    · simp only [World.setNic_drv, World.setDrv_drv, Driver.modifyBoard_of_ne _ hcb] at hc ⊢
      exact h.base c hc

/-- A new stream takes a free slot of a running board. -/
theorem Owned.take (h : s.Owned) {q : QId} {t : Slot} {dev : Dev} (hq : s.opened q = none)
    (ht : (s.world.drv.slot t).q = none)
    (hb : (s.world.drv.board t.board).status.boardState = HYDRA_BOARD_RUNNING)
    (hd : dev.minor = makeMinor t.dev t.board) :
    Owned ⟨(run exec (takeSlot q t) s.world).2, Function.update s.opened q (some dev)⟩ := by
  obtain ⟨d, hr, hrun⟩ := takeSlot_run s.world q t
  have hfresh : ∀ u, (s.world.drv.slot u).q ≠ some q := fun u hu => by
    have hn := (h.opened q).mp hq
    rw [(h.ptr q u).mp hu] at hn
    exact absurd hn (Option.some_ne_none _)
  have hptr : ∀ q' : QId, s.world.rptr q' ≠ some t := fun q' hq' => by
    rw [← h.ptr, ht] at hq'
    exact absurd hq' (Option.some_ne_none _).symm
  rw [hrun]
  constructor
  all_goals simp only [World.setDrv_drv, World.setDrv_rptr, World.setDrv_wptr, World.setPtrs_rptr,
    World.setPtrs_wptr, hr.slot, hr.state, hr.info]
  · intro q' u
    by_cases hu : u = t
    · subst hu
      by_cases hq' : q' = q
      · simp [hq']
      · simp [hq', hptr q', Ne.symm hq']
    · by_cases hq' : q' = q
      · subst hq'
        simp [hu, hfresh u, Ne.symm hu]
      · simp [hu, hq', h.ptr]
  · rw [h.wptr]
  · intro q'
    by_cases hq' : q' = q
    · simp [hq']
    · simp [hq', h.opened]
  · intro q' dev' u ho hu
    by_cases hq' : q' = q
    · subst hq'
      simp only [Function.update_self, Option.some.injEq] at ho hu
      rw [← ho, ← hu, hd]
    · rw [Function.update_of_ne hq'] at ho hu
      exact h.minor q' dev' u ho hu
  · intro u hu
    by_cases hut : u = t
    · rw [hut, hb]
    · rw [Function.update_of_ne hut] at hu
      exact h.running u hu
  · intro u hu
    by_cases hut : u = t
    · subst hut
      simp
    · rw [Function.update_of_ne hut] at hu ⊢
      exact h.index u hu
  · exact h.base

theorem Owned.closed (h : s.Owned) {q : QId} (hq : s.opened q ≠ none) :
    Owned ⟨(run exec (Hydra.hydraclose q) s.world).2, Function.update s.opened q none⟩ := by
  obtain ⟨t, ht⟩ := Option.ne_none_iff_exists'.mp fun hn => hq ((h.opened q).mpr hn)
  have hslot : (s.world.drv.slot t).q = some q := (h.ptr q t).mpr ht
  have hindex := h.index t (by simp [hslot])
  obtain ⟨d, n, -, hd, hinfo, hstate, hrun⟩ := hydraclose_run ht hindex
  have hother : ∀ q' u, q' ≠ q → s.world.rptr q' = some u → u ≠ t := fun q' u hne hu he => by
    rw [he, ← h.ptr, hslot, Option.some.injEq] at hu
    exact hne hu.symm
  rw [hrun]
  constructor
  all_goals simp only [World.setNic_drv, World.setNic_rptr, World.setNic_wptr, World.setDrv_drv,
    World.setDrv_rptr, World.setDrv_wptr, World.setPtrs_rptr, World.setPtrs_wptr, hinfo]
  · intro q' u
    rw [hd]
    by_cases hq' : q' = q
    · subst hq'
      by_cases hu : u = t
      · simp [hu]
      · simp [hu, h.ptr, ht, Ne.symm hu]
    · by_cases hu : u = t
      · subst hu
        simp only [Function.update_self, Function.update_of_ne hq']
        exact iff_of_false (by simp) fun he => hother q' u hq' he rfl
      · simp [hu, hq', h.ptr]
  · rw [h.wptr]
  · intro q'
    by_cases hq' : q' = q
    · simp [hq']
    · simp [hq', h.opened]
  · intro q' dev u ho hu
    by_cases hq' : q' = q
    · subst hq'
      simp at ho
    · rw [Function.update_of_ne hq'] at ho hu
      exact h.minor q' dev u ho hu
  · intro u hu
    rw [hstate, if_neg]
    · have hut : u ≠ t := fun he => by
        rw [hd, he] at hu
        simp at hu
      rw [hd, Function.update_of_ne hut] at hu
      exact h.running u hu
    · rintro ⟨-, hall⟩
      exact hu (hall u.dev)
  · intro u hu
    have hut : u ≠ t := fun he => by
      rw [hd, he] at hu
      simp at hu
    rw [hd, Function.update_of_ne hut] at hu ⊢
    exact h.index u hu
  · intro b hb
    rw [hstate] at hb
    refine h.base b ?_
    split_ifs at hb
    exact hb

/-- Opening an open stream again is refused and changes nothing. -/
theorem Owned.reopen (h : s.Owned) {q : QId} {dev : Dev} (hq : s.opened q = some dev)
    (sflag : OpenFlag) : ∃ err, s.attempt q dev sflag = ((some err, dev), s.world) := by
  have hne : s.opened q ≠ none := hq ▸ Option.some_ne_none dev
  rw [attempt, if_neg hne]
  by_cases hflag : sflag = DEVOPEN
  swap
  · exact ⟨.EINVAL, by rw [hydraopen_flag q dev hflag, run_pure]⟩
  obtain ⟨t, ht⟩ := Option.ne_none_iff_exists'.mp fun hn => hne ((h.opened q).mpr hn)
  have hslot : (s.world.drv.slot t).q = some q := (h.ptr q t).mpr ht
  have hrun := h.running t (by simp [hslot])
  have hminor := h.minor q dev t hq ht
  have hb : (t.board : ℕ) < 4 := t.board.isLt
  have hd : (t.dev : ℕ) < 5 := t.dev.isLt
  have hsap : dev.minor / 16 % 16 = t.dev + 1 := by
    rw [hminor, makeMinor_eq]
    omega
  have hdev : ({ dev with minor := makeMinor t.dev t.board } : Dev) = dev := by
    rw [← hminor]
  refine ⟨.EBUSY, ?_⟩
  rw [hflag, hydraopen_board q dev (b := t.board) (by rw [hminor, makeMinor_eq]; omega),
    openBoard_running q dev hrun, openSlot_busy q dev (n := t.dev) (h.base _ hrun).1
      (by rw [hsap]; rfl) (by simp [hslot]), hdev]

/-- A new stream's open starts from the streams as they are. -/
theorem attempt_fresh {q : QId} (hq : s.opened q = none) (dev : Dev) (sflag : OpenFlag) :
    s.attempt q dev sflag = run exec (hydraopen q dev sflag) (s.world.setWq q []) := by
  rw [attempt, if_pos hq]

theorem Owned.setWq (h : s.Owned) (q : QId) (ms : List Msg) :
    Owned ⟨s.world.setWq q ms, s.opened⟩ :=
  h.congr (fun _ => rfl) (fun _ => rfl) rfl rfl (fun _ hb => hb) h.base

theorem Owned.outcome (h : s.Owned) {q : QId} {dev : Dev} (hq : s.opened q = none)
    {r : (Option Errno × Dev) × World} {sflag : OpenFlag} (hr : OpenOutcome s.world q dev sflag r) :
    Owned ⟨r.2, if r.1.1 = none then Function.update s.opened q (some r.1.2) else s.opened⟩ := by
  cases hr with
  | refused err => exact h
  | absent b reset none => exact h.refuse reset
  | wasted flag b a n started reset found => exact h.start found a n reset
  | busy flag t => exact h
  | taken t running free => exact h.take hq free running rfl
  | started t a n started reset found =>
      exact (h.start found a n reset).take hq (World.start_slot a n t.dev)
        (World.start_running a n) rfl

/-- Every open and close keeps slots and streams in correspondence. -/
theorem Owned.step (h : s.Owned) (e : StreamEvent) : (s.step e).Owned := by
  cases e with
  | hydraopen q dev sflag =>
      rw [Streams.step]
      split_ifs with ha
      · cases hq : s.opened q with
        | none =>
            rw [attempt_fresh hq]
            exact (h.setWq q []).outcome hq
              (hydraopen_outcome _ q dev sflag fun b hb => (h.base b hb).1)
        | some dev' =>
            obtain rfl : dev' = dev := by
              rcases ha with ha | ha
              · rw [hq] at ha
                exact absurd ha (Option.some_ne_none _)
              · rwa [hq, Option.some.injEq] at ha
            obtain ⟨err, he⟩ := h.reopen hq sflag
            simpa [he] using h
      · exact h
  | hydraclose q =>
      rw [Streams.step]
      split_ifs with hq
      · exact h
      · exact h.closed hq

end Streams
end HydraAmix.Hydra
