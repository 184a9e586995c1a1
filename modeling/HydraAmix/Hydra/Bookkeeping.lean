import HydraAmix.Hydra.Streams

/-!
# Bookkeeping of opens and closes

What an open or close should leave behind: each open stream has one slot, its
pointers and its device number name it, a board is running exactly while one
of its slots is in use, and a refused open changes nothing. Two refusals break
it: ENOSPC for a slot number above the last, which comes after the board has
been started, and EBUSY, which comes after the device number has been
rewritten to its low eight bits. On runs without these the bookkeeping holds,
and on no others.
-/
namespace HydraAmix.Hydra
open Word Program Prog Schedule DlState BoardState OpenFlag

namespace Streams

/-- The claims of the open streams and the state of the boards. -/
structure Book (s : Streams) : Prop where
  owns : ∀ q dev, s.opened q = some dev → ∃ t : Slot,
    (∀ u, (s.world.drv.slot u).q = some q ↔ u = t) ∧
    s.world.rptr q = some t ∧ s.world.wptr q = some t ∧
    dev.minor &&& 0x0f = t.board ∧ (dev.minor &&& 0xf0) >>> 4 = t.dev + 1
  distinct : ∀ q q', s.opened q ≠ none → s.opened q' ≠ none → q ≠ q' →
    s.world.rptr q ≠ s.world.rptr q'
  running : ∀ b, (s.world.drv.board b).status.boardState = HYDRA_BOARD_RUNNING ↔
    ∃ n, (s.world.drv.slot ⟨b, n⟩).q ≠ none

/-- A refused open leaves the board states, the slots and the device number. -/
def RefusedClean (s : Streams) : StreamEvent → Prop
  | .hydraopen q dev sflag =>
      s.Admissible q dev → ∀ err, (s.attempt q dev sflag).1.1 = some err →
        (∀ b, ((s.attempt q dev sflag).2.drv.board b).status.boardState =
          (s.world.drv.board b).status.boardState) ∧
        (s.attempt q dev sflag).2.drv.slot = s.world.drv.slot ∧
        (s.attempt q dev sflag).1.2 = dev
  | .hydraclose _ => True

/-- The open names a slot number of the board, or the board is running or
absent; and if the slot it names is in use, the minor number has eight bits. -/
def CleanOpen (s : Streams) : StreamEvent → Prop
  | .hydraopen q dev sflag =>
      s.Admissible q dev → sflag = DEVOPEN → ∀ b : BoardId, dev.minor &&& 0x0f = b →
        (HYDRA_MAXDEV < (dev.minor &&& 0xf0) >>> 4 →
          (s.world.drv.board b).status.boardState = HYDRA_BOARD_RUNNING ∨
            s.world.drv.autoconfig b = 0) ∧
        ∀ n : Fin HYDRA_MAXDEV, (dev.minor &&& 0xf0) >>> 4 = n + 1 →
          (s.world.drv.slot ⟨b, n⟩).q ≠ none → dev.minor < 0x100
  | .hydraclose _ => True

variable {s : Streams}

/-- A running board has an open stream. -/
def Used (s : Streams) : Prop :=
  ∀ b, (s.world.drv.board b).status.boardState = HYDRA_BOARD_RUNNING →
    ∃ n, (s.world.drv.slot ⟨b, n⟩).q ≠ none

theorem Owned.book_iff (h : s.Owned) : s.Book ↔ s.Used := by
  refine ⟨fun hb b => (hb.running b).mp, fun hu => ⟨fun q dev hq => ?_, fun q q' hq hq' hne he => ?_,
    fun b => ⟨hu b, fun ⟨n, hn⟩ => h.running ⟨b, n⟩ hn⟩⟩⟩
  · obtain ⟨t, ht⟩ := Option.ne_none_iff_exists'.mp
      fun hn => (hq ▸ Option.some_ne_none dev : s.opened q ≠ none) ((h.opened q).mpr hn)
    have hminor := h.minor q dev t hq ht
    have hb : (t.board : ℕ) < 4 := t.board.isLt
    have hd : (t.dev : ℕ) < 5 := t.dev.isLt
    refine ⟨t, fun u => ?_, ht, by rw [h.wptr, ht], ?_, ?_⟩
    · rw [h.ptr, ht, Option.some.injEq]
      exact eq_comm
    · rw [boardField, hminor, makeMinor_eq]
      omega
    · rw [sapField, hminor, makeMinor_eq]
      omega
  · obtain ⟨t, ht⟩ := Option.ne_none_iff_exists'.mp fun hn => hq ((h.opened q).mpr hn)
    have hslot := (h.ptr q t).mpr ht
    rw [(h.ptr q' t).mpr (he ▸ ht), Option.some.injEq] at hslot
    exact hne hslot.symm

theorem boot_used (w : World) (autoconfig : BoardId → ℕ) : (boot w autoconfig).Used := by
  intro b hb
  simp [boot, World.boot, Driver.boot] at hb

theorem Owned.used_close (h : s.Owned) (hu : s.Used) (q : QId) :
    (s.step (.hydraclose q)).Used := by
  rw [Streams.step]
  split_ifs with hq
  · exact hu
  obtain ⟨t, ht⟩ := Option.ne_none_iff_exists'.mp fun hn => hq ((h.opened q).mpr hn)
  have hslot : (s.world.drv.slot t).q = some q := (h.ptr q t).mpr ht
  obtain ⟨d, n, -, hd, -, hstate, hrun⟩ := hydraclose_run ht (h.index t (by simp [hslot]))
  intro b hb
  rw [hrun] at hb ⊢
  simp only [World.setNic_drv, World.setDrv_drv, hstate] at hb ⊢
  by_cases hbt : b = t.board
  · rw [hbt] at hb ⊢
    by_contra hall
    push Not at hall
    rw [if_pos ⟨rfl, hall⟩] at hb
    exact BoardState.noConfusion hb
  · rw [if_neg fun hc => hbt hc.1] at hb
    obtain ⟨i, hi⟩ := hu b hb
    refine ⟨i, ?_⟩
    rwa [hd, Function.update_of_ne]
    rintro rfl
    exact hbt rfl

/-- Taking a slot adds a user to its board and removes none. -/
theorem used_take {w : World} {q : QId} {t : Slot}
    (hu : ∀ b, b ≠ t.board → (w.drv.board b).status.boardState = HYDRA_BOARD_RUNNING →
      ∃ n, (w.drv.slot ⟨b, n⟩).q ≠ none) (opened : QId → Option Dev) :
    Used ⟨(run exec (takeSlot q t) w).2, opened⟩ := by
  obtain ⟨d, hr, hrun⟩ := takeSlot_run w q t
  intro b hb
  simp only [hrun, World.setDrv_drv, hr.state, hr.slot] at hb ⊢
  by_cases hbt : b = t.board
  · subst hbt
    exact ⟨t.dev, by simp⟩
  · obtain ⟨n, hn⟩ := hu b hbt hb
    refine ⟨n, ?_⟩
    rwa [Function.update_of_ne]
    rintro rfl
    exact hbt rfl

theorem outcome_clean (hu : s.Used) {q : QId} {dev : Dev} {sflag : OpenFlag}
    {w : World} (hw : w.drv = s.world.drv) (hq : s.Admissible q dev)
    (hc : s.CleanOpen (.hydraopen q dev sflag)) {r : (Option Errno × Dev) × World}
    (hr : OpenOutcome w q dev sflag r) :
    Used ⟨r.2, s.opened⟩ ∧ ∀ err, r.1.1 = some err →
      (∀ b, (r.2.drv.board b).status.boardState = (s.world.drv.board b).status.boardState) ∧
      r.2.drv.slot = s.world.drv.slot ∧ r.1.2 = dev := by
  have hu' : ∀ opened, Used ⟨w, opened⟩ := fun opened b hb => by
    simp only [hw] at hb ⊢
    exact hu b hb
  cases hr with
  | refused err => exact ⟨hu' _, fun _ _ => ⟨fun b => by rw [hw], by rw [hw], rfl⟩⟩
  | absent b reset none =>
      have hstate : ∀ c, ((w.drv.modifyBoard b fun bd => { bd with
          info := { bd.info with boardBase := 0 } }).board c).status.boardState =
          (s.world.drv.board c).status.boardState := fun c => by
        by_cases hcb : c = b
        all_goals simp [hcb, hw]
      have hslot : (w.drv.modifyBoard b fun bd => { bd with
          info := { bd.info with boardBase := 0 } }).slot = s.world.drv.slot := by
        funext t
        by_cases htb : t.board = b
        all_goals simp [Driver.slot, htb, hw]
      refine ⟨fun c hc => ?_, fun _ _ => ⟨hstate, hslot, rfl⟩⟩
      simp only [World.setDrv_drv, hstate, hslot] at hc ⊢
      exact hu c hc
  | wasted flag b a n started reset found board slot =>
      rw [← boardField] at board
      rw [← sapField] at slot
      rcases (hc hq flag b board).1 slot with hrun | habsent
      · exact absurd (hw ▸ hrun) reset
      · exact absurd (hw ▸ habsent) found
  | busy flag t used board slot =>
      rw [← boardField] at board
      rw [← sapField] at slot
      have hminor := (hc hq flag t.board board).2 t.dev slot (hw ▸ used)
      rw [boardField] at board
      rw [sapField] at slot
      refine ⟨hu' _, fun _ _ => ⟨fun b => by rw [hw], by rw [hw], ?_⟩⟩
      have hm : makeMinor t.dev t.board = dev.minor := by
        rw [makeMinor_eq]
        omega
      simp only [hm]
  | taken t running free =>
      exact ⟨used_take (fun b _ hb => hu' s.opened b hb) _, fun _ he => absurd he.symm (Option.some_ne_none _)⟩
  | started t a n started reset found =>
      refine ⟨used_take (fun b hbt hb => ?_) _, fun _ he => absurd he.symm (Option.some_ne_none _)⟩
      simp only [World.start, World.setNic_drv, World.setDrv_drv, Driver.modifyBoard_of_ne _ hbt] at hb
      obtain ⟨i, hi⟩ := hu' s.opened b hb
      refine ⟨i, ?_⟩
      rwa [World.start, World.setNic_drv, World.setDrv_drv, Driver.slot_start, if_neg hbt]

/-- An open that is not clean is refused with something changed. -/
theorem Owned.clean_of_refusedClean (h : s.Owned) {q : QId} (hq : s.opened q = none) {dev : Dev}
    {sflag : OpenFlag} (hr : s.RefusedClean (.hydraopen q dev sflag)) :
    s.CleanOpen (.hydraopen q dev sflag) := by
  intro ha hflag b hb
  subst hflag
  rw [boardField] at hb
  have hattempt := attempt_fresh hq dev DEVOPEN
  rw [hydraopen_board q dev hb] at hattempt
  have hclean := hr ha
  rw [hattempt, sapField] at *
  constructor
  · intro hsap
    by_contra hnot
    push Not at hnot
    obtain ⟨a, n, -, he⟩ := openBoard_start q dev (w := s.world.setWq q [])
      (dev.minor / 16 % 16) hnot.1 hnot.2
    rw [he, openSlot_beyond q dev (by rw [World.start_base]; exact hnot.2) hsap] at hclean
    have hstate := (hclean .ENOSPC rfl).1 b
    rw [World.start_running] at hstate
    exact hnot.1 hstate.symm
  · intro n hsap hslot
    have hrun := h.running ⟨b, n⟩ hslot
    rw [openBoard_running (w := s.world.setWq q []) q dev hrun,
      openSlot_busy (w := s.world.setWq q []) q dev (n := n) (h.base b hrun).1 (by rw [hsap]; rfl)
        (Option.isSome_iff_ne_none.mpr hslot)] at hclean
    have hdev := congrArg Dev.minor (hclean .EBUSY rfl).2.2
    have hb4 : (b : ℕ) < 4 := b.isLt
    have hn5 : (n : ℕ) < 5 := n.isLt
    simp only [makeMinor_eq] at hdev
    omega

/-- Opening an open stream again is always clean. -/
theorem Owned.reopen_clean (h : s.Owned) {q : QId} {dev : Dev} (hq : s.opened q = some dev)
    (sflag : OpenFlag) : s.CleanOpen (.hydraopen q dev sflag) := by
  obtain ⟨t, ht⟩ := Option.ne_none_iff_exists'.mp
    fun hn => (hq ▸ Option.some_ne_none dev : s.opened q ≠ none) ((h.opened q).mpr hn)
  have hminor := h.minor q dev t hq ht
  have hb4 : (t.board : ℕ) < 4 := t.board.isLt
  have hn5 : (t.dev : ℕ) < 5 := t.dev.isLt
  intro _ _ b _
  rw [sapField, hminor, makeMinor_eq]
  exact ⟨fun hgt => by change 5 < _ at hgt; omega, fun _ _ _ => by omega⟩

/-- One event keeps the books exactly if it is a clean one. -/
theorem Owned.bookkept_iff (h : s.Owned) (hu : s.Used) (e : StreamEvent) :
    (s.step e).Book ∧ s.RefusedClean e ↔ s.CleanOpen e := by
  rw [(h.step e).book_iff]
  cases e with
  | hydraclose q => exact ⟨fun _ => trivial, fun _ => ⟨h.used_close hu q, trivial⟩⟩
  | hydraopen q dev sflag =>
      by_cases ha : s.Admissible q dev
      swap
      · rw [Streams.step, if_neg ha]
        exact ⟨fun _ ha' => absurd ha' ha, fun _ => ⟨hu, fun ha' => absurd ha' ha⟩⟩
      rw [Streams.step, if_pos ha]
      cases hq : s.opened q with
      | none =>
          refine ⟨fun hr => h.clean_of_refusedClean hq hr.2, fun hc => ?_⟩
          have hout := hydraopen_outcome (s.world.setWq q []) q dev sflag fun b hb => (h.base b hb).1
          rw [← attempt_fresh hq] at hout
          have hr := outcome_clean hu (w := s.world.setWq q []) rfl ha hc hout
          exact ⟨fun b hb => hr.1 b hb, fun _ => hr.2⟩
      | some dev' =>
          obtain rfl : dev' = dev := by
            rcases ha with ha | ha
            · rw [hq] at ha
              exact absurd ha (Option.some_ne_none _)
            · rwa [hq, Option.some.injEq] at ha
          obtain ⟨err, he⟩ := h.reopen hq sflag
          refine ⟨fun _ => h.reopen_clean hq sflag, fun _ => ⟨?_, fun _ _ _ => ?_⟩⟩
          · simpa [he] using hu
          · simp [he]

end Streams

/-- The books are kept throughout a run of opens and closes exactly if every
open in it is clean. -/
theorem bookkeeping_iff (w : World) (autoconfig : BoardId → ℕ) (es : List StreamEvent) :
    (Streams.boot w autoconfig).Book ∧
        Every Streams.step (fun s e => (s.step e).Book ∧ s.RefusedClean e)
          (Streams.boot w autoconfig) es ↔
      Every Streams.step Streams.CleanOpen (Streams.boot w autoconfig) es := by
  have hs := Streams.boot_owned w autoconfig
  have hu := Streams.boot_used w autoconfig
  rw [and_iff_right (hs.book_iff.mpr hu)]
  exact every_iff (fun s => s.Owned ∧ s.Used)
    (fun s e h hc => ⟨h.1.step e,
      (h.1.step e).book_iff.mp ((h.1.bookkept_iff h.2 e).mpr hc).1⟩)
    (fun s e h => h.1.bookkept_iff h.2 e) ⟨hs, hu⟩ es

/-- Slot number 6 of a found board that is not running: the open answers ENOSPC
and leaves the board running without a stream. -/
theorem bookkeeping_fails :
    ¬ Every Streams.step (fun s e => (s.step e).Book ∧ s.RefusedClean e)
      (Streams.boot World.off fun _ => 0x40000) [.hydraopen 1 ⟨40, 0x60⟩ DEVOPEN] := by
  intro h
  have hs := Streams.boot_owned World.off fun _ => 0x40000
  have hu := Streams.boot_used World.off fun _ => 0x40000
  have hc := ((hs.bookkept_iff hu _).mp h.1 (.inl rfl) rfl 0 rfl).1 (by decide)
  rcases hc with hrun | habsent
  · exact BoardState.noConfusion hrun
  · exact absurd habsent (by decide)

end HydraAmix.Hydra
