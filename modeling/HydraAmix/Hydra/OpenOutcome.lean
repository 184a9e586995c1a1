import HydraAmix.Hydra.OpenClose
import Mathlib.Algebra.Order.Group.Nat

/-!
# What opens and closes do

`hydraopen` has six outcomes (`OpenOutcome`): it refuses at once, finds no
card, starts a card and then refuses the slot, finds the slot in use, takes a
free slot of a running board, or starts the board and takes a free slot. The
device number it hands back is rewritten in the last three. `hydraclose` frees
the stream's slot and stops a board whose last slot it frees.
-/
namespace HydraAmix.Hydra
open Word Program Prog DlState BoardState OpenFlag

/-- The slot table is `table`; board states, bases and addresses are kept. -/
structure Driver.Retabled (d d' : Driver) (table : Slot → HydraT) : Prop where
  autoconfig : d'.autoconfig = d.autoconfig
  slot : d'.slot = table
  info : ∀ b, (d'.board b).info = (d.board b).info
  state : ∀ b, (d'.board b).status.boardState = (d.board b).status.boardState

theorem Driver.Retabled.counters {d d₁ d₂ : Driver} {table : Slot → HydraT}
    (h : d.Retabled d₁ table) (h' : d₁.CountersOnly d₂) : d.Retabled d₂ table where
  autoconfig := h'.autoconfig.trans h.autoconfig
  slot := by
    rw [← h.slot]
    funext s
    exact congrFun (h'.hydra s.board) s.dev
  info b := (h'.info b).trans (h.info b)
  state b := (h'.state b).trans (h.state b)

/-- Replacing the record of one slot. -/
theorem Driver.retabled_update (d : Driver) (s : Slot) (f : HydraT → HydraT) :
    d.Retabled (d.modifyBoard s.board fun bd =>
      { bd with hydra := Function.update bd.hydra s.dev (f (bd.hydra s.dev)) })
      (Function.update d.slot s (f (d.slot s))) where
  autoconfig := rfl
  slot := by
    funext t
    obtain ⟨tb, td⟩ := t
    obtain ⟨sb, sd⟩ := s
    by_cases hb : tb = sb
    · subst hb
      by_cases hd : td = sd
      · subst hd
        simp [Driver.slot]
      · simp [Driver.slot, hd]
    · simp [Driver.slot, hb]
  info b := by
    by_cases hb : b = s.board
    all_goals simp [hb]
  state b := by
    by_cases hb : b = s.board
    all_goals simp [hb]

theorem takeSlot_run (w : World) (q : QId) (s : Slot) :
    ∃ d, w.drv.Retabled d (Function.update w.drv.slot s ⟨some q, DL_UNATTACHED, s.board, 0, 0⟩) ∧
      run exec (takeSlot q s) w = ((), (w.setPtrs (Function.update w.rptr q (some s))
        (Function.update w.wptr q (some s))).setDrv d) := by
  have ht := w.drv.retabled_update s fun _ => ⟨some q, DL_UNATTACHED, s.board, 0, 0⟩
  by_cases h : (w.drv.board s.board).ifstats.name = none
  · refine ⟨_, ht.counters ?_, by simp [takeSlot, h]; rfl⟩
    refine ⟨rfl, fun b => ?_, fun b => ?_, fun b => ?_⟩
    all_goals
      by_cases hb : b = s.board
      · simp [hb]
      · simp [hb]
  · refine ⟨_, ht.counters ?_, by simp [takeSlot, h]; rfl⟩
    exact Driver.countersOnly_modifyBoard _ _ rfl rfl rfl

/-! ### Minor numbers -/

theorem boardField (m : ℕ) : m &&& 0x0f = m % 16 := Nat.and_two_pow_sub_one_eq_mod m 4

theorem sapField (m : ℕ) : (m &&& 0xf0) >>> 4 = m / 16 % 16 := by
  rw [Nat.shiftRight_and_distrib, Nat.shiftRight_eq_div_pow]
  exact Nat.and_two_pow_sub_one_eq_mod _ 4

theorem makeMinor_eq (i : ℕ) (b : BoardId) : makeMinor i b = (i + 1) * 16 + b := by
  have hb : (b : ℕ) < 4 := b.isLt
  rw [makeMinor, ← Nat.shiftLeft_add_eq_or_of_lt (by omega), Nat.shiftLeft_eq]

/-! ### What each part of an open does -/

theorem freeSlot_free {bd : HydraBoard} (h : freeSlot bd < HYDRA_MAXDEV) :
    (bd.hydra ⟨freeSlot bd, h⟩).q = none := by
  have hl : (List.ofFn bd.hydra).findIdx (fun h => h.q.isNone) < (List.ofFn bd.hydra).length := by
    rwa [List.length_ofFn]
  have hg := List.findIdx_getElem (w := hl)
  rw [List.getElem_ofFn, Option.isNone_iff_eq_none] at hg
  exact hg

theorem freeSlot_zero {bd : HydraBoard} (h : (bd.hydra 0).q = none) : freeSlot bd = 0 := by
  simp [freeSlot, List.findIdx_cons, h]

section
variable (w : World) (q : QId) (dev : Dev) (b : BoardId)

variable {w b} {sap : ℕ}

theorem openSlot_full (hb : (w.drv.board b).info.boardBase ≠ 0)
    (h : ¬ chooseSlot (w.drv.board b) sap < HYDRA_MAXDEV) :
    run exec (openSlot q dev b sap) w = ((some .ENOSPC, dev), w) := by
  simp only [openSlot, run_bind, run_load, if_neg hb, dif_neg h, run_pure]

theorem openSlot_busy {n : Fin HYDRA_MAXDEV} (hb : (w.drv.board b).info.boardBase ≠ 0)
    (h : chooseSlot (w.drv.board b) sap = n) (hq : (w.drv.slot ⟨b, n⟩).q.isSome) :
    run exec (openSlot q dev b sap) w =
      ((some .EBUSY, { dev with minor := makeMinor n b }), w) := by
  have hn : chooseSlot (w.drv.board b) sap < HYDRA_MAXDEV := h ▸ n.isLt
  have he : (⟨chooseSlot (w.drv.board b) sap, hn⟩ : Fin HYDRA_MAXDEV) = n := Fin.ext h
  simp only [openSlot, run_bind, run_load, run_ite, if_neg hb, dif_pos hn, he]
  have hq' : ((w.drv.board b).hydra n).q.isSome := hq
  rw [if_pos hq', run_pure, h]

theorem openSlot_free {n : Fin HYDRA_MAXDEV} (hb : (w.drv.board b).info.boardBase ≠ 0)
    (h : chooseSlot (w.drv.board b) sap = n) (hq : (w.drv.slot ⟨b, n⟩).q = none) :
    run exec (openSlot q dev b sap) w =
      ((none, { dev with minor := makeMinor n b }), (run exec (takeSlot q ⟨b, n⟩) w).2) := by
  have hn : chooseSlot (w.drv.board b) sap < HYDRA_MAXDEV := h ▸ n.isLt
  have he : (⟨chooseSlot (w.drv.board b) sap, hn⟩ : Fin HYDRA_MAXDEV) = n := Fin.ext h
  simp only [openSlot, run_bind, run_load, run_ite, if_neg hb, dif_pos hn, he]
  have hq' : ¬ ((w.drv.board b).hydra n).q.isSome := by simpa [Driver.slot] using hq
  rw [if_neg hq', run_pure, h]

variable (w) in
/-- The world in which a board has just been started. -/
def World.start (b : BoardId) (a : Vector Byte 6) (n : Nic) : World :=
  (w.setDrv (w.drv.modifyBoard b fun bd => bd.start (w.drv.autoconfig b) a)).setNic b n

theorem openBoard_running (h : (w.drv.board b).status.boardState = HYDRA_BOARD_RUNNING) :
    run exec (openBoard q dev b sap) w = run exec (openSlot q dev b sap) w := by
  simp [openBoard, bringUp, h]

theorem openBoard_absent (h : (w.drv.board b).status.boardState ≠ HYDRA_BOARD_RUNNING)
    (ha : w.drv.autoconfig b = 0) :
    run exec (openBoard q dev b sap) w =
      ((some .ENODEV, dev), w.setDrv (w.drv.modifyBoard b fun bd => { bd with
        info := { bd.info with boardBase := 0 } })) := by
  simp [openBoard, bringUp, h, hydraInitialize_none w b ha]

theorem openSlot_beyond (hb : (w.drv.board b).info.boardBase ≠ 0) (h : HYDRA_MAXDEV < sap) :
    run exec (openSlot q dev b sap) w = ((some .ENOSPC, dev), w) := by
  refine openSlot_full q dev hb ?_
  rw [chooseSlot, if_neg (by omega)]
  omega

theorem openBoard_start (sap : ℕ)
    (h : (w.drv.board b).status.boardState ≠ HYDRA_BOARD_RUNNING)
    (ha : w.drv.autoconfig b ≠ 0) :
    ∃ a n, (w.nic b).Started n ∧
      run exec (openBoard q dev b sap) w = run exec (openSlot q dev b sap) (w.start b a n) := by
  obtain ⟨a, n, hn, hrun⟩ := hydraInitialize_some w b ha
  refine ⟨a, n, hn, ?_⟩
  simp only [openBoard, bringUp, run_bind, run_load, run_ite, if_neg h, hrun]
  exact if_pos trivial

theorem World.start_running (a : Vector Byte 6) (n : Nic) :
    ((w.start b a n).drv.board b).status.boardState = HYDRA_BOARD_RUNNING := by
  simp [World.start, HydraBoard.start, HydraStatus.start]

theorem World.start_base (a : Vector Byte 6) (n : Nic) :
    ((w.start b a n).drv.board b).info.boardBase = w.drv.autoconfig b := by
  simp [World.start, HydraBoard.start, HydraInfo.start]

theorem World.start_slot (a : Vector Byte 6) (n : Nic) (d : Fin HYDRA_MAXDEV) :
    ((w.start b a n).drv.slot ⟨b, d⟩).q = none := by
  simp [World.start, HydraBoard.start, Driver.slot]

/-! ### What an open can do -/

theorem hydraopen_flag {sflag : OpenFlag} (h : sflag ≠ DEVOPEN) :
    hydraopen q dev sflag = pure (some .EINVAL, dev) := by
  cases sflag with
  | DEVOPEN => exact absurd rfl h
  | MODOPEN | CLONEOPEN => rfl

theorem hydraopen_range (h : ¬ dev.minor % 16 < HYDRA_MAXBOARDS) :
    hydraopen q dev .DEVOPEN = pure (some .ENODEV, dev) := by
  rw [hydraopen, if_neg (by simp), dif_neg (by rwa [boardField])]

theorem hydraopen_board (hb : dev.minor % 16 = b) :
    hydraopen q dev .DEVOPEN = openBoard q dev b (dev.minor / 16 % 16) := by
  have hf : (dev.minor &&& 0x0f) = b := (boardField _).trans hb
  rw [hydraopen, if_neg (by simp), dif_pos (hf ▸ b.isLt), sapField]
  congr 1
  exact Fin.ext hf

/-- The outcomes of `hydraopen`: the caller's answer and the world after it. -/
inductive OpenOutcome (w : World) (q : QId) (dev : Dev) (sflag : OpenFlag) :
    (Option Errno × Dev) × World → Prop where
  | refused (err : Errno) : OpenOutcome w q dev sflag ((some err, dev), w)
  | absent (b : BoardId)
      (reset : (w.drv.board b).status.boardState ≠ HYDRA_BOARD_RUNNING)
      (none : w.drv.autoconfig b = 0) :
      OpenOutcome w q dev sflag ((some .ENODEV, dev), w.setDrv (w.drv.modifyBoard b fun bd =>
        { bd with info := { bd.info with boardBase := 0 } }))
  | wasted (flag : sflag = DEVOPEN) (b : BoardId) (a : Vector Byte 6) (n : Nic)
      (started : (w.nic b).Started n)
      (reset : (w.drv.board b).status.boardState ≠ HYDRA_BOARD_RUNNING)
      (found : w.drv.autoconfig b ≠ 0) (board : dev.minor % 16 = b)
      (slot : HYDRA_MAXDEV < dev.minor / 16 % 16) :
      OpenOutcome w q dev sflag ((some .ENOSPC, dev), w.start b a n)
  | busy (flag : sflag = DEVOPEN) (t : Slot) (used : (w.drv.slot t).q ≠ none)
      (board : dev.minor % 16 = t.board)
      (slot : dev.minor / 16 % 16 = t.dev + 1) :
      OpenOutcome w q dev sflag ((some .EBUSY, { dev with minor := makeMinor t.dev t.board }), w)
  | taken (t : Slot)
      (running : (w.drv.board t.board).status.boardState = HYDRA_BOARD_RUNNING)
      (free : (w.drv.slot t).q = none) :
      OpenOutcome w q dev sflag ((none, { dev with minor := makeMinor t.dev t.board }),
        (run exec (takeSlot q t) w).2)
  | started (t : Slot) (a : Vector Byte 6) (n : Nic) (started : (w.nic t.board).Started n)
      (reset : (w.drv.board t.board).status.boardState ≠ HYDRA_BOARD_RUNNING)
      (found : w.drv.autoconfig t.board ≠ 0) :
      OpenOutcome w q dev sflag ((none, { dev with minor := makeMinor t.dev t.board }),
        (run exec (takeSlot q t) (w.start t.board a n)).2)

theorem chooseSlot_cases (bd : HydraBoard) (sap : ℕ) :
    (∃ n : Fin HYDRA_MAXDEV, chooseSlot bd sap = n ∧ ((bd.hydra n).q = none ∨ sap = n + 1)) ∨
      ¬ chooseSlot bd sap < HYDRA_MAXDEV := by
  by_cases hc : chooseSlot bd sap < HYDRA_MAXDEV
  · refine .inl ⟨⟨_, hc⟩, rfl, ?_⟩
    unfold chooseSlot at hc ⊢
    split_ifs at hc ⊢ with hs
    · exact .inl (freeSlot_free hc)
    · exact .inr (by simp; omega)
  · exact .inr hc

theorem hydraopen_outcome (w : World) (q : QId) (dev : Dev) (sflag : OpenFlag)
    (hbase : ∀ b, (w.drv.board b).status.boardState = HYDRA_BOARD_RUNNING →
      (w.drv.board b).info.boardBase ≠ 0) :
    OpenOutcome w q dev sflag (run exec (hydraopen q dev sflag) w) := by
  by_cases hflag : sflag = DEVOPEN
  swap
  · rw [hydraopen_flag q dev hflag]
    exact .refused _
  subst hflag
  by_cases hrange : dev.minor % 16 < HYDRA_MAXBOARDS
  swap
  · rw [hydraopen_range q dev hrange]
    exact .refused _
  obtain ⟨b, hb⟩ : ∃ b : BoardId, dev.minor % 16 = b := ⟨⟨_, hrange⟩, rfl⟩
  rw [hydraopen_board q dev hb]
  by_cases hrun : (w.drv.board b).status.boardState = HYDRA_BOARD_RUNNING
  · rw [openBoard_running q dev hrun]
    rcases chooseSlot_cases (w.drv.board b) (dev.minor / 16 % 16) with ⟨n, hn, hs⟩ | hfull
    · by_cases hq : (w.drv.slot ⟨b, n⟩).q = none
      · rw [openSlot_free q dev (hbase b hrun) hn hq]
        exact .taken ⟨b, n⟩ hrun hq
      · rw [openSlot_busy q dev (hbase b hrun) hn (Option.isSome_iff_ne_none.mpr hq)]
        exact .busy rfl ⟨b, n⟩ hq hb (hs.resolve_left hq)
    · rw [openSlot_full q dev (hbase b hrun) hfull]
      exact .refused _
  by_cases ha : w.drv.autoconfig b = 0
  · rw [openBoard_absent q dev hrun ha]
    exact .absent b hrun ha
  obtain ⟨a, n, hn, he⟩ := openBoard_start q dev (dev.minor / 16 % 16) hrun ha
  have hbase' : ((w.start b a n).drv.board b).info.boardBase ≠ 0 := by
    rwa [World.start_base]
  rw [he]
  rcases chooseSlot_cases ((w.start b a n).drv.board b) (dev.minor / 16 % 16) with ⟨i, hi, -⟩ | hfull
  · rw [openSlot_free q dev hbase' hi (World.start_slot a n i)]
    exact .started ⟨b, i⟩ a n hn hrun ha
  · rw [openSlot_full q dev hbase' hfull]
    refine .wasted rfl b a n hn hrun ha hb ?_
    by_contra hle
    refine hfull ?_
    unfold chooseSlot
    split_ifs with hz
    · rw [freeSlot_zero (World.start_slot a n 0)]
      decide
    · omega

end

theorem freeSlots_iff (bd : HydraBoard) :
    hydraclose.freeSlots bd = true ↔ ∀ n, (bd.hydra n).q = none := by
  simp only [hydraclose.freeSlots, List.all_eq_true, Option.isNone_iff_eq_none, List.mem_ofFn,
    forall_exists_index, forall_apply_eq_imp_iff]

/-- The last close of a board resets it. -/
theorem hydraclose_run {w : World} {q : QId} {s : Slot} (hp : w.rptr q = some s)
    (hi : (w.drv.slot s).boardIndex = s.board) :
    ∃ d n, d.autoconfig = w.drv.autoconfig ∧
      d.slot = Function.update w.drv.slot s { w.drv.slot s with q := none } ∧
      (∀ b, (d.board b).info = (w.drv.board b).info) ∧
      (∀ b, (d.board b).status.boardState =
        if b = s.board ∧ ∀ n, (d.slot ⟨b, n⟩).q = none then HYDRA_BOARD_RESET
        else (w.drv.board b).status.boardState) ∧
      run exec (hydraclose q) w = ((), ((w.setPtrs (Function.update w.rptr q none)
        (Function.update w.wptr q none)).setDrv d).setNic s.board n) := by
  have ht := w.drv.retabled_update s fun h => { h with q := none }
  generalize hd₁ : w.drv.modifyBoard s.board (fun bd => { bd with
    hydra := Function.update bd.hydra s.dev { bd.hydra s.dev with q := none } }) = d₁ at ht
  by_cases hf : hydraclose.freeSlots (d₁.board s.board)
  · have hall := (freeSlots_iff _).mp hf
    refine ⟨_, _, ?_, ?_, fun b => ?_, fun b => ?_, by simp [hydraclose, hp, hi, hd₁, hf]; rfl⟩
    · exact ht.autoconfig
    · rw [← ht.slot]
      funext t
      by_cases hb : t.board = s.board
      all_goals simp [Driver.slot, hb]
    · rw [← ht.info b]
      by_cases hb : b = s.board
      all_goals simp [hb]
    · rw [← ht.state b]
      by_cases hb : b = s.board
      · subst hb
        simp [Driver.slot, hall]
      · simp [hb]
  · refine ⟨d₁, w.nic s.board, ht.autoconfig, ht.slot, ht.info, fun b => ?_, ?_⟩
    · rw [if_neg, ht.state]
      rintro ⟨rfl, hfree⟩
      exact hf ((freeSlots_iff _).mpr hfree)
    · simp [hydraclose, hp, hi, hd₁, hf]
      exact (World.setNic_eq_self _ _).symm

theorem Driver.slot_start (d : Driver) (b : BoardId) (base : ℕ) (a : Vector Byte 6) (s : Slot) :
    (d.modifyBoard b fun bd => bd.start base a).slot s =
      if s.board = b then { d.slot s with q := none, sap := 0, state := DL_UNBOUND }
      else d.slot s := by
  by_cases hb : s.board = b
  all_goals simp [Driver.slot, HydraBoard.start, hb]

end HydraAmix.Hydra
