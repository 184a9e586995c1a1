import HydraAmix.Disk.JbBus

/-!
# The two drivers share the bus

The bus is free, and then nobody waits for it; or it is in the mode of the driver whose
command is in progress, and the other driver is registered exactly if it has requests.
So the function that `jbpass` calls always has something to start, and does not pass the
bus on itself.
-/
namespace HydraAmix.Disk.Jb
open Schedule

namespace Bus

/-- The claims of a shared bus: one command at a time, in its own mode; no requests where
the bus is free; and a driver that waits has the busy bus or is registered. -/
structure SharedSafely (s : Bus) : Prop where
  exclusive : ¬(s.active ≠ 0 ∧ s.busy = true)
  hd_mode : s.active ≠ 0 → s.jbbusy = true ∧ s.jbscsi = false ∧ s.bcsel = false
  scsi_mode : s.busy = true → s.jbbusy = true ∧ s.jbscsi = true ∧ s.bcsel = true
  free : s.jbbusy = false → s.queue = [] ∧ s.head = []
  hd_waits : s.queue ≠ [] → s.active = 0 →
    s.jbbusy = true ∧ s.jbscsi = false ∨ s.jbfunc = some .hdstart
  scsi_waits : s.head ≠ [] → s.busy = false →
    s.jbbusy = true ∧ s.jbscsi = true ∨ s.jbfunc = some .start

/-- The mode is set on the card, and `acts` is a request where there is one. -/
structure Sound (s : Bus) : Prop where
  bcsel : s.bcsel = s.jbscsi
  acts : ∀ i, s.acts = some i → i < s.queue.length
  empty : s.acts = none → s.queue = []

structure Free (s : Bus) : Prop where
  jbbusy : s.jbbusy = false
  jbfunc : s.jbfunc = none
  head : s.head = []
  queue : s.queue = []
  busy : s.busy = false
  active : s.active = 0

/-- `hd.c` has the bus. -/
structure HdHas (s : Bus) : Prop where
  jbbusy : s.jbbusy = true
  jbscsi : s.jbscsi = false
  jbfunc : s.jbfunc = if s.head = [] then none else some .start
  busy : s.busy = false

/-- `a2090.c` has the bus. -/
structure ScsiHas (s : Bus) : Prop where
  jbbusy : s.jbbusy = true
  jbscsi : s.jbscsi = true
  jbfunc : s.jbfunc = if s.queue = [] then none else some .hdstart
  active : s.active = 0

/-- Between two events the driver that has the bus has a command in progress. -/
def Owned (s : Bus) : Prop :=
  s.Free ∨ (s.HdHas ∧ s.active ≠ 0 ∧ s.queue ≠ []) ∨
    (s.ScsiHas ∧ s.busy = true ∧ s.head ≠ [])

def Inv (s : Bus) : Prop := s.Sound ∧ s.Owned

section
variable {s : Bus} {n : ℕ}

theorem Inv.sharedSafely (h : s.Inv) : s.SharedSafely := by
  obtain ⟨hs, hfree | ⟨hd, ha, hq⟩ | ⟨hc, hb, hh⟩⟩ := h
  · refine ⟨fun hc => hc.1 hfree.active, fun ha => absurd hfree.active ha, fun hb => ?_,
      fun _ => ⟨hfree.queue, hfree.head⟩, fun hq => absurd hfree.queue hq,
      fun hh => absurd hfree.head hh⟩
    rw [hfree.busy] at hb
    exact absurd hb Bool.false_ne_true
  · refine ⟨fun hc => ?_, fun _ => ⟨hd.jbbusy, hd.jbscsi, hs.bcsel.trans hd.jbscsi⟩,
      fun hb => ?_, fun hb => ?_, fun _ ha' => absurd ha' ha, fun hh _ => .inr ?_⟩
    · rw [hd.busy] at hc
      exact Bool.false_ne_true hc.2
    · rw [hd.busy] at hb
      exact absurd hb Bool.false_ne_true
    · rw [hd.jbbusy] at hb
      exact absurd hb.symm Bool.false_ne_true
    · rw [hd.jbfunc, if_neg hh]
  · refine ⟨fun hca => hca.1 hc.active, fun ha => absurd hc.active ha,
      fun _ => ⟨hc.jbbusy, hc.jbscsi, hs.bcsel.trans hc.jbscsi⟩, fun hb' => ?_,
      fun hq _ => .inr ?_, fun _ hb' => ?_⟩
    · rw [hc.jbbusy] at hb'
      exact absurd hb'.symm Bool.false_ne_true
    · rw [hc.jbfunc, if_neg hq]
    · rw [hb] at hb'
      exact absurd hb'.symm Bool.false_ne_true

/-! ### The queue of `hd.c` -/

theorem Sound.current (h : s.Sound) (hq : s.queue ≠ []) :
    ∃ i bp, s.acts = some i ∧ i < s.queue.length ∧ s.current = some bp := by
  cases ha : s.acts with
  | none => exact absurd (h.empty ha) hq
  | some i =>
      have hi := h.acts i ha
      refine ⟨i, s.queue[i], rfl, hi, ?_⟩
      rw [Bus.current, ha, Option.bind_some, List.getElem?_eq_getElem hi]

theorem current_of_empty (hq : s.queue = []) : s.current = none := by
  rw [Bus.current, hq]
  cases s.acts with
  | none => rfl
  | some i => rfl

@[simp] theorem hdinsq_length (s : Bus) (bp : Buf) :
    (s.hdinsq bp).queue.length = s.queue.length + 1 :=
  List.length_insertIdx_of_le_length (List.takeWhile_prefix _).length_le _

theorem hdinsq_ne_nil (s : Bus) (bp : Buf) : (s.hdinsq bp).queue ≠ [] := fun hnil => by
  have hlen := s.hdinsq_length bp
  rw [hnil] at hlen
  exact absurd hlen nofun

theorem Sound.hdinsq (h : s.Sound) (bp : Buf) : (s.hdinsq bp).Sound := by
  refine ⟨h.bcsel, fun i hi => ?_, fun hnone => ?_⟩
  · rw [hdinsq_length]
    have hle := (List.takeWhile_prefix (l := s.queue) fun xp => bp.blkno < xp.blkno).length_le
    simp only [Bus.hdinsq] at hi
    cases ha : s.acts with
    | none =>
        rw [ha] at hi
        rw [← Option.some.inj hi]
        omega
    | some j =>
        have hj := h.acts j ha
        rw [ha] at hi
        rw [← Option.some.inj hi]
        split_ifs <;> omega
  · simp only [Bus.hdinsq] at hnone
    cases ha : s.acts with
    | none =>
        rw [ha] at hnone
        exact absurd hnone (Option.some_ne_none _)
    | some j =>
        rw [ha] at hnone
        exact absurd hnone (Option.some_ne_none _)

theorem Sound.hdremq (h : s.Sound) {i : ℕ} (hi : i < s.queue.length) : (s.hdremq i).Sound := by
  have hlen : (s.queue.eraseIdx i).length = s.queue.length - 1 := List.length_eraseIdx_of_lt hi
  have hforw : ∀ j, (if i < (s.queue.eraseIdx i).length then some i else none) = some j →
      j < (s.queue.eraseIdx i).length := fun j hj => by
    split_ifs at hj with hlt
    rw [← Option.some.inj hj]
    exact hlt
  have hback : ∀ j, (if 0 < i then some (i - 1) else none) = some j →
      j < (s.queue.eraseIdx i).length := fun j hj => by
    split_ifs at hj with hpos
    rw [← Option.some.inj hj, hlen]
    omega
  -- with no neighbour on either side the queue is empty
  have hnone : (if i < (s.queue.eraseIdx i).length then some i else none) = none →
      (if 0 < i then some (i - 1) else none) = none → s.queue.eraseIdx i = [] := fun hf hb => by
    split_ifs at hf hb
    exact List.length_eq_zero_iff.mp (by omega)
  unfold Bus.hdremq
  cases hd : s.dirn with
  | true =>
      dsimp only
      rw [if_pos rfl]
      split
      next j hj =>
        refine ⟨h.bcsel, fun k hk => ?_, fun hk => absurd hk (Option.some_ne_none _)⟩
        rw [← Option.some.inj hk]
        exact hforw j hj
      next hj => exact ⟨h.bcsel, hback, hnone hj⟩
  | false =>
      dsimp only
      rw [if_neg Bool.false_ne_true]
      split
      next j hj =>
        refine ⟨h.bcsel, fun k hk => ?_, fun hk => absurd hk (Option.some_ne_none _)⟩
        rw [← Option.some.inj hk]
        exact hback j hj
      next hj => exact ⟨h.bcsel, hforw, fun hf => hnone hf hj⟩

/-! ### Starting and passing on -/

theorem Sound.setmode (h : s.Sound) (bm : Bool) : (s.setmode bm).Sound := by
  refine ⟨?_, h.acts, h.empty⟩
  change (if s.jbscsi ≠ bm then bm else s.bcsel) = bm
  split_ifs with hne
  · rfl
  · rw [h.bcsel, not_not.mp hne]

/-- A driver with requests starts one, and does not pass the bus on. -/
theorem hdstart_issues (hs : s.Sound) (ha : s.active = 0) (hq : s.queue ≠ []) :
    ∃ command, ∀ pass, s.hdstart pass =
      some { s with active := s.active + 1, command := command } := by
  obtain ⟨i, bp, -, -, hbp⟩ := hs.current hq
  refine ⟨some bp.hdcom, fun pass => ?_⟩
  rw [hdstart, if_neg (not_not.mpr ha), hbp]

theorem start_issues (hb : s.busy = false) (hh : s.head ≠ []) :
    ∃ loaded, ∀ pass, s.start pass =
      some { s with initialized := true, loaded := loaded, busy := true } := by
  obtain ⟨cp, rest, hhead⟩ := List.exists_cons_of_ne_nil hh
  refine ⟨some cp, fun pass => ?_⟩
  rw [Bus.start, hb, if_neg Bool.false_ne_true, hhead]

/-- A driver that has the bus starts a request, or passes the bus on to the other driver,
which starts one if it is registered. -/
theorem HdHas.hdstart (hs : s.Sound) (h : s.HdHas) (ha : s.active = 0) :
    ∃ t, s.hdstart (jbpass (n + 1)) = some t ∧ t.Inv := by
  by_cases hq : s.queue = []
  · have hpass : s.hdstart (jbpass (n + 1)) = s.jbpass (n + 1) := by
      rw [Bus.hdstart, if_neg (not_not.mpr ha), current_of_empty hq]
    rw [hpass, jbpass, h.jbfunc]
    by_cases hh : s.head = []
    · rw [if_pos hh]
      exact ⟨_, rfl, ⟨hs.bcsel, hs.acts, hs.empty⟩,
        .inl ⟨rfl, rfl, hh, hq, h.busy, ha⟩⟩
    · obtain ⟨loaded, hstart⟩ := start_issues (s := s.setmode (!s.jbscsi)) h.busy hh
      rw [if_neg hh]
      dsimp only
      rw [call, hstart]
      refine ⟨_, rfl, ⟨(hs.setmode _).bcsel, hs.acts, hs.empty⟩,
        .inr (.inr ⟨⟨h.jbbusy, ?_, (if_pos hq).symm, ha⟩, rfl, hh⟩)⟩
      change (!s.jbscsi) = true
      rw [h.jbscsi]
      rfl
  · obtain ⟨command, hissue⟩ := hdstart_issues hs ha hq
    exact ⟨_, hissue _, ⟨hs.bcsel, hs.acts, hs.empty⟩,
      .inr (.inl ⟨⟨h.jbbusy, h.jbscsi, h.jbfunc, h.busy⟩, Nat.succ_ne_zero _, hq⟩)⟩

theorem ScsiHas.start (hs : s.Sound) (h : s.ScsiHas) (hb : s.busy = false) :
    ∃ t, s.start (jbpass (n + 1)) = some t ∧ t.Inv := by
  by_cases hh : s.head = []
  · have hpass : s.start (jbpass (n + 1)) = s.jbpass (n + 1) := by
      rw [Bus.start, hb, if_neg Bool.false_ne_true, hh]
    rw [hpass, jbpass, h.jbfunc]
    by_cases hq : s.queue = []
    · rw [if_pos hq]
      exact ⟨_, rfl, ⟨hs.bcsel, hs.acts, hs.empty⟩,
        .inl ⟨rfl, rfl, hh, hq, hb, h.active⟩⟩
    · obtain ⟨command, hissue⟩ := hdstart_issues (hs.setmode (!s.jbscsi)) h.active hq
      rw [if_neg hq]
      dsimp only
      rw [call, hissue]
      refine ⟨_, rfl, ⟨(hs.setmode _).bcsel, hs.acts, hs.empty⟩,
        .inr (.inl ⟨⟨h.jbbusy, ?_, (if_pos hh).symm, hb⟩, Nat.succ_ne_zero _, hq⟩)⟩
      change (!s.jbscsi) = false
      rw [h.jbscsi]
      rfl
  · obtain ⟨loaded, hissue⟩ := start_issues hb hh
    exact ⟨_, hissue _, ⟨hs.bcsel, hs.acts, hs.empty⟩,
      .inr (.inr ⟨⟨h.jbbusy, h.jbscsi, h.jbfunc, h.active⟩, rfl, hh⟩)⟩

/-! ### Calls inside a handler -/

/-- While the ST506 driver has the bus, a SCSI request registers its driver. -/
theorem HdHas.a2090queue (h : s.HdHas) (hs : s.Sound) (cp : Sdcom) :
    ∃ t, s.a2090queue n cp = some t ∧ (t.Sound ∧ t.HdHas) ∧ t.active = s.active ∧
      t.queue = s.queue ∧ t.acts = s.acts := by
  have hne : s.head ++ [{ cp with okay := false }] ≠ [] := by simp
  refine ⟨{ s with head := s.head ++ [{ cp with okay := false }], jbfunc := some .start }, ?_,
    ⟨⟨hs.bcsel, hs.acts, hs.empty⟩, h.jbbusy, h.jbscsi, (if_neg hne).symm, h.busy⟩, rfl, rfl, rfl⟩
  have hother : s.jbbusy = true ∧ true ≠ s.jbscsi := by
    rw [h.jbscsi]
    exact ⟨h.jbbusy, nofun⟩
  rw [Bus.a2090queue, jbcall, if_pos hother]

/-- While the SCSI driver has the bus and a command in progress, an ST506 request registers
its driver, and a SCSI request waits. -/
theorem ScsiHas.doCall (h : s.ScsiHas) (hs : s.Sound) (hb : s.busy = true) (c : Call) :
    ∃ t, s.doCall n c = some t ∧ t.Sound ∧ t.ScsiHas ∧ t.busy = true ∧
      (s.head ≠ [] → t.head ≠ []) := by
  cases c with
  | hdstrategy bp =>
      have hs' := hs.hdinsq { bp with resid := bp.bcount }
      have hne := s.hdinsq_ne_nil { bp with resid := bp.bcount }
      refine ⟨{ s.hdinsq { bp with resid := bp.bcount } with jbfunc := some .hdstart }, ?_,
        ⟨hs'.bcsel, hs'.acts, hs'.empty⟩, ⟨h.jbbusy, h.jbscsi, (if_neg hne).symm, h.active⟩, hb,
        fun hh => hh⟩
      have hother : (s.hdinsq { bp with resid := bp.bcount }).jbbusy = true ∧
          false ≠ (s.hdinsq { bp with resid := bp.bcount }).jbscsi :=
        ⟨h.jbbusy, fun hc => absurd (hc.trans h.jbscsi) Bool.false_ne_true⟩
      have hidle : (s.hdinsq { bp with resid := bp.bcount }).active = 0 := h.active
      rw [Bus.doCall, Bus.hdstrategy]
      dsimp only
      rw [if_pos hidle, jbcall, if_pos hother]
  | a2090queue cp =>
      have hasked : Sound { s with
          head := s.head ++ [{ cp with okay := false }], jbbusy := true } :=
        ⟨hs.bcsel, hs.acts, hs.empty⟩
      have hsame : ¬(s.jbbusy = true ∧ true ≠ s.jbscsi) := fun hc => hc.2 h.jbscsi.symm
      refine ⟨_, (if_neg hsame).trans (if_pos hb), hasked.setmode true,
        ⟨rfl, rfl, h.jbfunc, h.active⟩, hb, fun _ => ?_⟩
      exact List.append_ne_nil_of_right_ne_nil _ (List.cons_ne_nil _ _)

/-! ### The steps -/

/-- A free bus is taken by whoever has a request. -/
theorem Free.doCall (h : s.Free) (hs : s.Sound) (c : Call) :
    ∃ t, s.doCall (n + 1) c = some t ∧ t.Inv := by
  have hfree : ∀ bm : Bool, ¬(s.jbbusy = true ∧ bm ≠ s.jbscsi) := fun bm hc =>
    Bool.false_ne_true (h.jbbusy.symm.trans hc.1)
  cases c with
  | hdstrategy bp =>
      have hs' := hs.hdinsq { bp with resid := bp.bcount }
      have hasked : Sound { s.hdinsq { bp with resid := bp.bcount } with jbbusy := true } :=
        ⟨hs'.bcsel, hs'.acts, hs'.empty⟩
      have hidle : (s.hdinsq { bp with resid := bp.bcount }).active = 0 := h.active
      obtain ⟨t, ht, hinv⟩ := HdHas.hdstart (n := n) (hasked.setmode false)
        ⟨rfl, rfl, h.jbfunc.trans (if_pos h.head).symm, h.busy⟩ hidle
      exact ⟨t, (if_pos hidle).trans ((if_neg (hfree false)).trans ht), hinv⟩
  | a2090queue cp =>
      have hasked : Sound { s with
          head := s.head ++ [{ cp with okay := false }], jbbusy := true } :=
        ⟨hs.bcsel, hs.acts, hs.empty⟩
      obtain ⟨t, ht, hinv⟩ := ScsiHas.start (n := n) (hasked.setmode true)
        ⟨rfl, rfl, h.jbfunc.trans (if_pos h.queue).symm, h.active⟩ h.busy
      exact ⟨t, (if_neg (hfree true)).trans ht, hinv⟩

theorem Inv.doCall (h : s.Inv) (c : Call) : ∃ t, s.doCall (n + 1) c = some t ∧ t.Inv := by
  obtain ⟨hs, hfree | ⟨hd, ha, hq⟩ | ⟨hc, hb, hh⟩⟩ := h
  · exact hfree.doCall hs c
  · cases c with
    | hdstrategy bp =>
        have hs' := hs.hdinsq { bp with resid := bp.bcount }
        have hactive : (s.hdinsq { bp with resid := bp.bcount }).active ≠ 0 := ha
        refine ⟨s.hdinsq { bp with resid := bp.bcount }, ?_, hs', .inr (.inl
          ⟨⟨hd.jbbusy, hd.jbscsi, hd.jbfunc, hd.busy⟩, ha, s.hdinsq_ne_nil _⟩)⟩
        rw [Bus.doCall, Bus.hdstrategy]
        exact if_neg hactive
    | a2090queue cp =>
        obtain ⟨t, ht, hsound, hactive, hqueue, -⟩ := hd.a2090queue (n := n + 1) hs cp
        refine ⟨t, ht, hsound.1, .inr (.inl ⟨hsound.2, ?_, ?_⟩)⟩
        · rw [hactive]
          exact ha
        · rw [hqueue]
          exact hq
  · obtain ⟨t, ht, hsound, hhas, hbusy, hhead⟩ := hc.doCall (n := n + 1) hs hb c
    exact ⟨t, ht, hsound, .inr (.inr ⟨hhas, hbusy, hhead hh⟩)⟩

/-- The ST506 driver has the bus and no command in progress. -/
def HdIdle (s : Bus) : Prop := s.Sound ∧ s.HdHas ∧ s.active = 0

theorem HdIdle.a2090queue (h : s.HdIdle) (cp : Sdcom) :
    ∃ t, s.a2090queue n cp = some t ∧ t.HdIdle := by
  obtain ⟨t, ht, hsound, hactive, -, -⟩ := h.2.1.a2090queue (n := n) h.1 cp
  exact ⟨t, ht, hsound.1, hsound.2, hactive.trans h.2.2⟩

theorem HdIdle.hddone (h : s.HdIdle) {i : ℕ} (hi : i < s.queue.length) (bp : Buf)
    (calls : List Sdcom) : ∃ t, s.hddone n i bp calls = some t ∧ t.HdIdle := by
  have hs := h.1.hdremq hi
  have hkept : (s.hdremq i).jbbusy = s.jbbusy ∧ (s.hdremq i).jbscsi = s.jbscsi ∧
      (s.hdremq i).jbfunc = s.jbfunc ∧ (s.hdremq i).head = s.head ∧
      (s.hdremq i).busy = s.busy ∧ (s.hdremq i).active = s.active := by
    unfold Bus.hdremq
    dsimp only
    split
    · exact ⟨rfl, rfl, rfl, rfl, rfl, rfl⟩
    · exact ⟨rfl, rfl, rfl, rfl, rfl, rfl⟩
  obtain ⟨hbusy, hscsi, hfunc, hhead, hb, hact⟩ := hkept
  refine foldlM_invariant HdIdle (fun s cp hs => hs.a2090queue cp) ?_ calls
  refine ⟨⟨hs.bcsel, hs.acts, hs.empty⟩, ⟨hbusy.trans h.2.1.jbbusy, hscsi.trans h.2.1.jbscsi, ?_,
    hb.trans h.2.1.busy⟩, hact.trans h.2.2⟩
  change (s.hdremq i).jbfunc = if (s.hdremq i).head = [] then none else some .start
  rw [hfunc, hhead]
  exact h.2.1.jbfunc

theorem HdIdle.set (h : s.HdIdle) (i : ℕ) (bp : Buf) (errcnt : ℕ) :
    HdIdle { s with queue := s.queue.set i bp, errcnt := errcnt } := by
  refine ⟨⟨h.1.bcsel, fun j hj => ?_, fun hj => ?_⟩,
    ⟨h.2.1.jbbusy, h.2.1.jbscsi, h.2.1.jbfunc, h.2.1.busy⟩, h.2.2⟩
  · rw [List.length_set]
    exact h.1.acts j hj
  · rw [h.1.empty hj]
    rfl

/-- Whatever comes of the request in progress, the driver has the bus and goes on. -/
theorem HdIdle.hdend (h : s.HdIdle) {i : ℕ} (hi : i < s.queue.length) (bp : Buf) (r : Reply) :
    ∃ t, s.hdend n i bp r = some t ∧ t.HdIdle := by
  unfold Bus.hdend
  generalize (if MAXTRAN * 512 ≤ bp.resid then MAXTRAN * 512 else bp.resid) = nb
  dsimp only
  split_ifs
  · exact (h.set i _ s.errcnt).hddone (by rwa [List.length_set]) _ _
  · exact ⟨_, rfl, h.set i _ s.errcnt⟩
  · exact ⟨_, rfl, ⟨h.1.bcsel, h.1.acts, h.1.empty⟩,
      ⟨h.2.1.jbbusy, h.2.1.jbscsi, h.2.1.jbfunc, h.2.1.busy⟩, h.2.2⟩
  · exact (h.set i _ (s.errcnt + 1)).hddone (by rwa [List.length_set]) _ _

theorem HdHas.hdintr (h : s.HdHas) (hs : s.Sound) (ha : s.active ≠ 0) (hq : s.queue ≠ [])
    (r : Reply) : ∃ t, s.hdintr (n + 1) r = some t ∧ t.Inv := by
  obtain ⟨i, bp, hacts, hi, hbp⟩ := hs.current hq
  have hidle : HdIdle { s with active := 0 } :=
    ⟨⟨hs.bcsel, hs.acts, hs.empty⟩, ⟨h.jbbusy, h.jbscsi, h.jbfunc, h.busy⟩, rfl⟩
  obtain ⟨t, ht, hsound, hhas, hact⟩ := hidle.hdend (n := n + 1) hi bp r
  obtain ⟨u, hu, hinv⟩ := hhas.hdstart (n := n) hsound hact
  refine ⟨u, ?_, hinv⟩
  rw [Bus.hdintr, if_neg ha]
  dsimp only
  split
  next j bp' hj hbp' =>
    obtain rfl := Option.some.inj (hacts.symm.trans hj)
    obtain rfl := Option.some.inj (hbp.symm.trans hbp')
    rw [ht, Option.bind_some, hu]
  next hno => exact absurd hbp (hno i bp hacts)

/-- The SCSI driver has the bus, in the handler of its command. -/
def ScsiEnding (s : Bus) : Prop := s.Sound ∧ s.ScsiHas ∧ s.busy = true

theorem ScsiEnding.doCall (h : s.ScsiEnding) (c : Call) :
    ∃ t, s.doCall n c = some t ∧ t.ScsiEnding := by
  obtain ⟨t, ht, hsound, hhas, hbusy, -⟩ := h.2.1.doCall (n := n) h.1 h.2.2 c
  exact ⟨t, ht, hsound, hhas, hbusy⟩

theorem ScsiEnding.finish (h : s.ScsiEnding) (cp : Sdcom) (calls : List Call) :
    ∃ t, s.finish n cp calls = some t ∧ t.ScsiEnding := by
  refine foldlM_invariant ScsiEnding (fun s c hs => hs.doCall c) ?_ calls
  exact ⟨⟨h.1.bcsel, h.1.acts, h.1.empty⟩,
    ⟨h.2.1.jbbusy, h.2.1.jbscsi, h.2.1.jbfunc, h.2.1.active⟩, h.2.2⟩

theorem ScsiEnding.start (h : s.ScsiEnding) :
    ∃ t, ({ s with busy := false } : Bus).start (jbpass (n + 1)) = some t ∧ t.Inv :=
  have hs : Sound { s with busy := false } := ⟨h.1.bcsel, h.1.acts, h.1.empty⟩
  ScsiHas.start hs ⟨h.2.1.jbbusy, h.2.1.jbscsi, h.2.1.jbfunc, h.2.1.active⟩ rfl

theorem ScsiHas.a2090intr (h : s.ScsiHas) (hs : s.Sound) (hb : s.busy = true) (hh : s.head ≠ [])
    (r : Reply) : ∃ t, s.a2090intr (n + 1) r = some t ∧ t.Inv := by
  obtain ⟨cp, rest, hhead⟩ := List.exists_cons_of_ne_nil hh
  have hending : ScsiEnding { s with initialized := true } :=
    ⟨⟨hs.bcsel, hs.acts, hs.empty⟩, ⟨h.jbbusy, h.jbscsi, h.jbfunc, h.active⟩, hb⟩
  have hgoes : ∀ p : Option Bus, (∃ t, p = some t ∧ t.ScsiEnding) →
      ∃ t, (p.bind fun s => ({ s with busy := false } : Bus).start (jbpass (n + 1))) = some t ∧
        t.Inv := by
    rintro p ⟨t, rfl, ht⟩
    exact ht.start
  have hstays : ∀ head : List Sdcom, head ≠ [] →
      Inv { s with initialized := true, head := head } := fun head hne =>
    ⟨⟨hs.bcsel, hs.acts, hs.empty⟩,
      .inr (.inr ⟨⟨h.jbbusy, h.jbscsi, h.jbfunc, h.active⟩, hb, hne⟩)⟩
  unfold Bus.a2090intr
  dsimp only
  split
  next hnil => exact absurd hnil hh
  next cp rest hcons =>
    split_ifs
    · exact hgoes _ (hending.finish cp r.intr)
    · exact ⟨_, rfl, hstays _ (List.cons_ne_nil _ _)⟩
    · exact hgoes _ (hending.finish _ r.intr)
    · exact hgoes _ (hending.finish _ r.intr)
    · exact hgoes _ ⟨_, rfl, hending⟩
    · exact ⟨_, rfl, hstays s.head hh⟩

/-- An interrupt of a free bus finds neither command. -/
theorem Free.jbintr (h : s.Free) (hs : s.Sound) (r : Reply) :
    ∃ t, s.jbintr n r = some t ∧ t.Inv := by
  unfold Bus.jbintr
  split_ifs
  · refine ⟨{ s with initialized := true }, ?_, ⟨hs.bcsel, hs.acts, hs.empty⟩,
      .inl ⟨h.jbbusy, h.jbfunc, h.head, h.queue, h.busy, h.active⟩⟩
    rw [Bus.a2090intr]
    dsimp only
    rw [h.head]
  · exact ⟨s, if_pos h.active, hs, .inl h⟩

theorem Inv.step (h : s.Inv) (e : Event) : ∃ t, s.step (n + 1) e = some t ∧ t.Inv := by
  cases e with
  | call c => exact h.doCall c
  | interrupt r =>
      obtain ⟨hs, hfree | ⟨hd, ha, hq⟩ | ⟨hc, hb, hh⟩⟩ := h
      · exact hfree.jbintr hs r
      · obtain ⟨t, ht, hinv⟩ := hd.hdintr (n := n) hs ha hq r
        refine ⟨t, ?_, hinv⟩
        rw [Bus.step, jbintr, hd.jbscsi]
        exact ht
      · obtain ⟨t, ht, hinv⟩ := hc.a2090intr (n := n) hs hb hh r
        refine ⟨t, ?_, hinv⟩
        rw [Bus.step, jbintr, hc.jbscsi]
        exact ht

end

theorem boot_inv : boot.Inv :=
  ⟨⟨rfl, fun _ hi => absurd hi.symm (Option.some_ne_none _), fun _ => rfl⟩,
    .inl ⟨rfl, rfl, rfl, rfl, rfl, rfl⟩⟩

end Bus
end HydraAmix.Disk.Jb
