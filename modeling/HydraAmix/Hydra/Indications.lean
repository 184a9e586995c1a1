import HydraAmix.Hydra.Demultiplex

/-!
# The streams that a frame is delivered to

A frame goes to the streams whose slot passes the test of the loop over the slots:
a queue, no raw mode, and the type of the frame as `sap`. The `state` of the stream
is not looked at. Deliveries are read off the execution, as the operations that
send a DL_UNITDATA_IND.
-/
namespace HydraAmix.Hydra
open Word Program Prog

/-- The stream that an operation sends a DL_UNITDATA_IND to. -/
def Op.indicated : {β : Type} → Op β → List QId
  | _, .putnext q (.unitdataInd _ _ _) => [q]
  | _, _ => []

/-- Every DL_UNITDATA_IND goes to a stream with `R`. -/
def Op.IndicatesTo (R : QId → Prop) (β : Type) (o : Op β) : Prop := ∀ q ∈ o.indicated, R q

/-- The test of the loop over the slots. -/
structure HydraT.Matches (hp : HydraT) (sap : BitVec 16) (q : QId) : Prop where
  q : hp.q = some q
  flags : hp.flags &&& HYDRA_RAW_DATA = 0
  sap : hp.sap = sap

namespace World

/-- The streams that get a frame. -/
def indicated (w : World) (b : BoardId) (packet : List Byte) : List QId :=
  collect exec Op.indicated (tossPacketUpStream b packet) w

/-- The type of a frame; that of a trailer frame stands behind its data. -/
def frameType (w : World) (b : BoardId) (packet : List Byte) : BitVec 16 :=
  (lengths b packet w).1

end World

section
variable (b : BoardId) (packet : List Byte) {w : World} {R : QId → Prop}

theorem Op.IndicatesTo.of_nil {β : Type} {o : Op β} (h : o.indicated = []) :
    Op.IndicatesTo R β o := fun q hq => by
  rw [h] at hq
  exact absurd hq List.not_mem_nil

theorem modifyStatus_indicates (f : HydraStatus → HydraStatus) :
    All (Op.IndicatesTo R) (modifyStatus b f) := .perform (.of_nil rfl)

theorem peeks_indicates (buf : List Byte) (i : ℤ) (n : ℕ) :
    All (Op.IndicatesTo R) (peeks buf i n) := by
  induction n generalizing i with
  | zero => exact all_pure []
  | succ n ih =>
      exact .bind (.perform (.of_nil rfl)) fun x => .bind (ih _) fun xs => all_pure _

theorem peekShort_indicates (buf : List Byte) (i : ℤ) :
    All (Op.IndicatesTo R) (peekShort buf i) :=
  .bind (.perform (.of_nil rfl)) fun _ => .bind (.perform (.of_nil rfl)) fun _ => all_pure _

theorem packetLengths_indicates (sap : BitVec 16) :
    All (Op.IndicatesTo R) (packetLengths b packet sap) := by
  unfold packetLengths
  refine .ite (.bind (peekShort_indicates _ _) fun _ => ?_) (all_pure _)
  refine .bind (peekShort_indicates _ _) fun _ => ?_
  exact .bind (modifyStatus_indicates b _) fun _ => all_pure _

/-- What a stream in raw mode gets is no DL_UNITDATA_IND. -/
theorem tossRaw_indicates (q : QId) : All (Op.IndicatesTo R) (tossRaw b packet q) := by
  have hstatus := modifyStatus_indicates (R := R) b
  refine .bind (.perform (.of_nil rfl)) fun _ => .ite ?_ (hstatus _)
  refine .bind (.perform (.of_nil rfl)) fun _ => .ite ?_ (hstatus _)
  refine .bind (.perform (.of_nil rfl)) fun _ => .ite ?_ ?_
  · refine .bind (.perform (.of_nil rfl)) fun d => ?_
    exact .bind (peeks_indicates _ _ _) fun data => .perform (.of_nil rfl)
  · exact .bind (hstatus _) fun _ => .perform (.of_nil rfl)

theorem copyPayload_indicates (length trailn : ℤ) :
    All (Op.IndicatesTo R) (copyPayload packet length trailn) := by
  have hdata : ∀ t, All (Op.IndicatesTo R) (do
      let data ← peeks packet ETH_HEADER_SIZE length.toNat
      return t ++ data) := fun t => .bind (peeks_indicates _ _ _) fun data => all_pure _
  unfold copyPayload
  exact .ite (.bind (peeks_indicates _ _ _) fun t => hdata t) (hdata [])

theorem tossBound_indicates (sap : BitVec 16) (length trailn : ℤ) {q : QId} (hq : R q) :
    All (Op.IndicatesTo R) (tossBound b packet sap length trailn q) := by
  have hstatus := modifyStatus_indicates (R := R) b
  refine .bind (peeks_indicates _ _ _) fun dest => .bind (.perform (.of_nil rfl)) fun d => ?_
  refine .ite (hstatus _) (.bind (.perform (.of_nil rfl)) fun _ => .ite ?_ (hstatus _))
  refine .bind (.perform (.of_nil rfl)) fun _ => .ite ?_ (hstatus _)
  refine .bind (.perform (.of_nil rfl)) fun _ => .ite ?_ ?_
  · refine .bind (peeks_indicates _ _ _) fun src => ?_
    refine .bind (copyPayload_indicates _ _ _) fun data => .bind (.perform ?_) fun _ => hstatus _
    intro q' hq'
    rwa [List.mem_singleton.mp hq']
  · exact .bind (hstatus _) fun _ => .perform (.of_nil rfl)

/-- The loop over the slots delivers to streams that pass its test. -/
theorem tossStreams_matches (sap : BitVec 16) (length trailn : ℤ) (ns : List (Fin HYDRA_MAXDEV))
    {q : QId} (hq : q ∈ collect exec Op.indicated (tossStreams b packet sap length trailn ns) w) :
    ∃ n, ((w.drv.board b).hydra n).Matches sap q := by
  induction ns generalizing w with
  | nil => exact absurd hq List.not_mem_nil
  | cons n ns ih =>
      -- the slots stay the same between two rounds of the loop
      have hkept : ∀ {α : Type} {p : HydraM α}, All Op.Reports p →
          ((run exec p w).2.drv.board b).hydra = (w.drv.board b).hydra :=
        fun hp => (countersOnly_of_reports hp w).drv.hydra b
      rw [tossStreams, collect_bind, run_load] at hq
      rcases List.mem_append.mp hq with hq | hq
      · exact absurd hq List.not_mem_nil
      dsimp only at hq
      cases hslot : ((w.drv.board b).hydra n).q with
      | none =>
          rw [hslot] at hq
          exact ih hq
      | some q' =>
          rw [hslot] at hq
          dsimp only at hq
          rw [collect_ite] at hq
          split_ifs at hq with hflags hsap
          · rw [collect_bind] at hq
            rcases List.mem_append.mp hq with hq | hq
            · exact ((tossRaw_indicates (R := fun _ => False) b packet q').collect hq).elim
            · obtain ⟨m, hm⟩ := ih hq
              exact ⟨m, hkept (tossRaw_all b packet q') ▸ hm⟩
          · rw [collect_bind, collect_bind, collect_pure, List.append_nil] at hq
            rcases List.mem_append.mp hq with hq | hq
            · obtain rfl := (tossBound_indicates (R := fun r => r = q') b packet sap length
                trailn rfl).collect hq
              exact ⟨n, hslot, not_not.mp hflags, hsap⟩
            · obtain ⟨m, hm⟩ := ih hq
              exact ⟨m, hkept (tossBound_all b packet sap length trailn q') ▸ hm⟩
          · exact ih hq

end

/-- The type and the lengths do not depend on the statistics. -/
theorem packetLengths_setDrv (b : BoardId) (packet : List Byte) (w : World) (d : Driver)
    (sap : BitVec 16) : (run exec (packetLengths b packet sap) (w.setDrv d)).1 =
      (run exec (packetLengths b packet sap) w).1 := by
  unfold packetLengths
  split_ifs
  · simp
  · rfl

/-- Where all memory is there, it stays so, and `canput` answers as before. -/
def World.StillAnswers (w w' : World) : Prop :=
  (∀ i, w.allocs i = true) → w'.canput = w.canput ∧ ∀ i, w'.allocs i = true

theorem World.StillAnswers.trans {w₁ w₂ w₃ : World} (h : w₁.StillAnswers w₂)
    (h' : w₂.StillAnswers w₃) : w₁.StillAnswers w₃ := fun ha =>
  ⟨(h' (h ha).2).1.trans (h ha).1, (h' (h ha).2).2⟩

theorem stillAnswers_of_reports {α : Type} {p : HydraM α} (h : All Op.Reports p) (w : World) :
    w.StillAnswers (run exec p w).2 := by
  refine h.run_rel (fun w ha => ⟨rfl, ha⟩) (fun _ _ _ => .trans) (fun β o w ho ha => ?_) w
  cases o with
  | allocb => exact ⟨rfl, fun i => ha (i + 1)⟩
  | peek | load | store | canput | freemsg | putnext => exact ⟨rfl, ha⟩
  | _ => exact ho.elim

/-- A broadcast that finds room and memory is delivered. -/
theorem tossBound_indicated {w : World} (b : BoardId) {packet : List Byte} (sap : BitVec 16)
    (length trailn : ℤ) {q : QId} (hd : (run exec (peeks packet 0 6) w).1 = broadcastAddress)
    (hc : w.canput q = true) (ha : ∀ i, w.allocs i = true) :
    q ∈ collect exec Op.indicated (tossBound b packet sap length trailn q) w := by
  have hpeeks : run exec (peeks packet 0 6) w = (broadcastAddress, w) := by
    rw [← hd]
    simp
  rw [tossBound, collect_bind, hpeeks, collect_bind, run_load, collect_ite, if_neg (by simp)]
  refine List.mem_append_right _ (List.mem_append_right _ ?_)
  rw [collect_bind, run_canput, hc]
  refine List.mem_append_right _ ?_
  rw [if_pos rfl, collect_bind, run_allocb, ha]
  refine List.mem_append_right _ ?_
  have hmem : w.useAlloc.allocs 0 = true := ha 1
  rw [if_pos rfl, collect_bind, run_allocb, hmem]
  refine List.mem_append_right _ ?_
  rw [if_pos rfl, collect_bind, collect_bind, collect_bind]
  refine List.mem_append_right _ (List.mem_append_right _ (List.mem_append_left _ ?_))
  exact List.mem_singleton_self q

/-- A stream that matches gets a broadcast, where all have room and memory. -/
theorem tossStreams_indicated {w : World} (b : BoardId) {packet : List Byte} {sap : BitVec 16}
    (length trailn : ℤ) {q : QId}
    (hd : ∀ w, (run exec (peeks packet 0 6) w).1 = broadcastAddress)
    (hc : w.canput q = true) (ha : ∀ i, w.allocs i = true) {ns : List (Fin HYDRA_MAXDEV)}
    {n : Fin HYDRA_MAXDEV} (hn : n ∈ ns) (hm : ((w.drv.board b).hydra n).Matches sap q) :
    q ∈ collect exec Op.indicated (tossStreams b packet sap length trailn ns) w := by
  induction ns generalizing w with
  | nil => exact absurd hn List.not_mem_nil
  | cons m ns ih =>
      -- the rest of the loop, after some statistics
      have hlater : ∀ {α : Type} {p : HydraM α}, All Op.Reports p → n ∈ ns →
          q ∈ collect exec Op.indicated (tossStreams b packet sap length trailn ns)
            (run exec p w).2 := fun hp hns => by
        obtain ⟨hcan, hmem⟩ := stillAnswers_of_reports hp w ha
        refine ih (hcan ▸ hc) hmem hns ?_
        rw [(countersOnly_of_reports hp w).drv.hydra b]
        exact hm
      rw [tossStreams, collect_bind, run_load]
      refine List.mem_append_right _ ?_
      dsimp only
      by_cases hnm : n = m
      · subst hnm
        rw [hm.q]
        dsimp only
        rw [collect_ite, if_neg (not_not.mpr hm.flags), if_pos hm.sap, collect_bind]
        exact List.mem_append_left _ (tossBound_indicated b sap length trailn (hd w) hc ha)
      · have hns := (List.mem_cons.mp hn).resolve_left hnm
        cases hslot : ((w.drv.board b).hydra m).q with
        | none => exact ih hc ha hns hm
        | some q' =>
            dsimp only
            rw [collect_ite]
            split_ifs
            · rw [collect_bind]
              exact List.mem_append_right _ (hlater (tossRaw_all b packet q') hns)
            · rw [collect_bind, collect_bind]
              exact List.mem_append_right _ (List.mem_append_left _
                (hlater (tossBound_all b packet sap length trailn q') hns))
            · exact ih hc ha hns hm

/-- The deliveries of a frame are those of the loop over the slots. -/
theorem World.indicated_eq (w : World) (b : BoardId) (packet : List Byte) :
    ∃ w' length trailn, w.CountersOnly w' ∧ w.StillAnswers w' ∧
      w.indicated b packet = collect exec Op.indicated
        (tossStreams b packet (w.frameType b packet) length trailn (List.finRange HYDRA_MAXDEV))
        w' := by
  have hnone : ∀ {α : Type} {p : HydraM α} {w : World}, All (Op.IndicatesTo fun _ => False) p →
      collect exec Op.indicated p w = [] :=
    fun hp => List.eq_nil_iff_forall_not_mem.mpr fun _ hq => hp.collect hq
  have htype : w.frameType b packet =
      (run exec (packetLengths b packet (run exec (peekShort packet 12) w).1) w).1.1 := by
    rw [frameType, lengths, run_bind]
    rfl
  unfold indicated tossPacketUpStream
  rw [collect_bind, hnone (peekShort_indicates _ _), collect_bind,
    hnone (modifyStatus_indicates _ _), modifyStatus_run, List.nil_append, List.nil_append]
  generalize (run exec (peekShort packet 12) w).1 = sap at htype ⊢
  generalize hd : Driver.modifyBoard _ b _ = d
  have hdrv : w.drv.CountersOnly d := by
    rw [← hd]
    exact .modifyBoard w.drv b rfl rfl rfl
  have hcount : w.CountersOnly (w.setDrv d) := { World.CountersOnly.refl w with drv := hdrv }
  rw [collect_bind, hnone (packetLengths_indicates _ _ _), collect_bind,
    hnone (.ite (all_pure ()) (modifyStatus_indicates _ _)), List.nil_append, List.append_nil,
    htype, ← packetLengths_setDrv b packet w d]
  refine ⟨_, _, _, hcount.trans (countersOnly_of_reports (packetLengths_all b packet sap) _), ?_,
    rfl⟩
  have hstill : w.StillAnswers (w.setDrv d) := fun ha => ⟨rfl, ha⟩
  exact hstill.trans (stillAnswers_of_reports (packetLengths_all b packet sap) _)

/-- A frame is delivered to streams that match its type. -/
theorem World.matches_of_indicated {w : World} {b : BoardId} {packet : List Byte} {q : QId}
    (hq : q ∈ w.indicated b packet) :
    ∃ n, ((w.drv.board b).hydra n).Matches (w.frameType b packet) q := by
  obtain ⟨w', length, trailn, hc, -, heq⟩ := w.indicated_eq b packet
  rw [heq] at hq
  obtain ⟨n, hn⟩ := tossStreams_matches b packet _ length trailn _ hq
  exact ⟨n, hc.drv.hydra b ▸ hn⟩

/-- A broadcast that all can take is delivered to the streams that match its type. -/
theorem World.indicated_of_matches {w : World} {b : BoardId} {packet : List Byte} {q : QId}
    {n : Fin HYDRA_MAXDEV} (hm : ((w.drv.board b).hydra n).Matches (w.frameType b packet) q)
    (hd : ∀ w, (run exec (peeks packet 0 6) w).1 = broadcastAddress)
    (hc : w.canput q = true) (ha : ∀ i, w.allocs i = true) : q ∈ w.indicated b packet := by
  obtain ⟨w', length, trailn, hcount, hanswers, heq⟩ := w.indicated_eq b packet
  obtain ⟨hcan, hmem⟩ := hanswers ha
  rw [heq]
  refine tossStreams_indicated b length trailn hd (hcan ▸ hc) hmem (List.mem_finRange n) ?_
  rw [hcount.drv.hydra b]
  exact hm

end HydraAmix.Hydra
