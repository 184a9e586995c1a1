import HydraAmix.Hydra.Keeps
import HydraAmix.Hydra.Interrupt

/-!
# The interrupt handler leaves the slots alone

Requests change the slots of the streams; the interrupt handler changes nothing
of a board but statistics and the page of the next packet. So a stream has the
same SAP before and after, and in between.
-/
namespace HydraAmix.Hydra
open Word Program Prog

/-- The slots of the streams stay as they are. -/
def Op.SlotsKept : (β : Type) → Op β → Prop
  | _, .store f => ∀ d : Driver, (f d).slot = d.slot
  | _, _ => True

theorem Op.SlotsKept.slot {β : Type} (o : Op β) (w : World) (h : Op.SlotsKept β o) :
    (exec o w).2.drv.slot = w.drv.slot := by
  cases o with
  | store f => exact h w.drv
  | _ => rfl

theorem slot_of_kept {α : Type} {p : HydraM α} (h : All Op.SlotsKept p) (w : World) :
    (run exec p w).2.drv.slot = w.drv.slot :=
  h.run_rel (R := fun w w' : World => w'.drv.slot = w.drv.slot) (fun _ => rfl)
    (fun _ _ _ h h' => h'.trans h) (fun _ o w => Op.SlotsKept.slot o w) w

/-- A board keeps its slots. -/
theorem modifyBoard_slots (b : BoardId) {f : HydraBoard → HydraBoard}
    (h : ∀ bd, (f bd).hydra = bd.hydra) : All Op.SlotsKept (modifyBoard b f) := by
  refine .perform fun d => funext fun t => ?_
  rw [Driver.slot, Driver.slot, Driver.modifyBoard_board]
  split_ifs with ht
  · rw [h, ht]
  · rfl

theorem modifyStatus_slots (b : BoardId) (f : HydraStatus → HydraStatus) :
    All Op.SlotsKept (modifyStatus b f) := modifyBoard_slots b fun _ => rfl

theorem modifyIfstats_slots (b : BoardId) (f : IfStats → IfStats) :
    All Op.SlotsKept (modifyIfstats b f) := modifyBoard_slots b fun _ => rfl

theorem modifyInfo_slots (b : BoardId) (f : HydraInfo → HydraInfo) :
    All Op.SlotsKept (modifyInfo b f) := modifyBoard_slots b fun _ => rfl

theorem hydraOutb_slots (b : BoardId) (reg : ℕ) (v : Byte) :
    All Op.SlotsKept (hydraOutb b reg v) := .perform trivial

theorem hydraInb_slots (b : BoardId) (reg : ℕ) : All Op.SlotsKept (hydraInb b reg) :=
  .perform trivial

/-! ### Reception -/

theorem unpackLong_slots (size : ℕ) (len : ℤ) (i : ℕ) (v : Long) (js : List ℕ) :
    All Op.SlotsKept (unpackLong size len i v js) := by
  induction js with
  | nil => exact all_pure []
  | cons j js ih =>
      exact .ite (.bind (.perform trivial) fun _ => .bind ih fun xs => all_pure _) ih

theorem hydraRamReadOffset_slots (b : BoardId) (size : ℕ) (len offset : ℤ) :
    All Op.SlotsKept (hydraRamReadOffset b size len offset) := by
  have hclear : ∀ k i, All Op.SlotsKept (clearBuf size k i) := by
    intro k
    induction k with
    | zero => exact fun _ => all_pure []
    | succ k ih =>
        exact fun i => .bind (.perform trivial) fun _ => .bind (ih _) fun xs => all_pure _
  have hread : ∀ k i, All Op.SlotsKept (readLongs b size len offset k i) := by
    intro k
    induction k with
    | zero => exact fun _ => all_pure []
    | succ k ih =>
        refine fun i => .bind (.perform trivial) fun v => ?_
        exact .bind (unpackLong_slots _ _ _ _ _) fun xs => .bind (ih _) fun ys => all_pure _
  exact .ite (hclear _ _) (hread _ _)

theorem receiveHeader_slots (b : BoardId) (info : HydraInfo) (header : List Byte) :
    All Op.SlotsKept (receiveHeader b info header) := by
  have hmove : ∀ next, All Op.SlotsKept (moveTo b next) := fun next =>
    .bind (modifyInfo_slots b _) fun _ => hydraOutb_slots b _ _
  have hcopy : ∀ n, All Op.SlotsKept (copyPacket b info n) := fun n => by
    unfold copyPacket
    refine .ite ?_ (hydraRamReadOffset_slots _ _ _ _)
    refine .bind (hydraRamReadOffset_slots _ _ _ _) fun xs => ?_
    exact .bind (hydraRamReadOffset_slots _ _ _ _) fun ys => all_pure _
  unfold receiveHeader
  refine .bind (modifyStatus_slots b _) fun _ => .ite ?_ (.ite ?_ (.ite ?_ ?_))
  · refine .bind (modifyStatus_slots b _) fun _ => .bind (modifyIfstats_slots b _) fun _ => ?_
    refine .bind (modifyInfo_slots b _) fun _ => .bind (hydraOutb_slots b _ _) fun _ => ?_
    exact all_pure _
  · refine .bind (modifyStatus_slots b _) fun _ => .bind (modifyIfstats_slots b _) fun _ => ?_
    exact .bind (hmove _) fun _ => all_pure _
  · exact .bind (modifyStatus_slots b _) fun _ => .bind (hmove _) fun _ => all_pure _
  · refine .bind (hcopy _) fun packet => .bind (modifyStatus_slots b _) fun _ => ?_
    exact .bind (modifyIfstats_slots b _) fun _ => .bind (hmove _) fun _ => all_pure _

theorem receiveFrame_slots (b : BoardId) : All Op.SlotsKept (receiveFrame b) := by
  refine .bind (hydraOutb_slots b _ _) fun _ => .bind (hydraInb_slots b _) fun curr => ?_
  refine .bind (hydraOutb_slots b _ _) fun _ => .bind (hydraInb_slots b _) fun boundary => ?_
  refine .bind (modifyStatus_slots b _) fun _ => .bind (.perform trivial) fun d => ?_
  refine .ite (all_pure _) (.bind (hydraRamReadOffset_slots _ _ _ _) fun header => ?_)
  exact receiveHeader_slots _ _ _

theorem Op.Reports.slotsKept {β : Type} (o : Op β) (h : Op.Reports β o) : Op.SlotsKept β o := by
  cases o with
  | store f => exact fun d => funext fun t => congrFun ((h d).hydra t.board) t.dev
  | peek | load | allocb | canput | freemsg | putnext => trivial
  | _ => exact h.elim

theorem receiveInterrupt_slots (b : BoardId) : All Op.SlotsKept (receiveInterrupt b) := by
  refine .bind (hydraOutb_slots b _ _) fun _ => ?_
  induction 256 with
  | zero => exact modifyStatus_slots b _
  | succ n ih =>
      refine .bind (receiveFrame_slots b) fun r => ?_
      cases r with
      | done => exact all_pure ()
      | again => exact ih
      | packet p =>
          have ht := (tossPacketUpStream_all b p).mono fun _ => Op.Reports.slotsKept
          exact .bind ht fun _ => ih

/-! ### The branches of the handler -/

theorem receiveEvents_slots (b : BoardId) (status : Byte) :
    All Op.SlotsKept (receiveEvents b status) := by
  refine .ite (.bind (modifyStatus_slots b _) fun _ => ?_) (all_pure ())
  refine .bind (modifyIfstats_slots b _) fun _ => .bind (hydraOutb_slots b _ _) fun _ => ?_
  exact .ite (receiveInterrupt_slots b) (all_pure ())

theorem transmitError_slots (b : BoardId) (status : Byte) :
    All Op.SlotsKept (transmitError b status) := by
  refine .ite (.bind (hydraOutb_slots b _ _) fun _ => ?_) (all_pure ())
  refine .bind (hydraInb_slots b _) fun tsr => .bind (modifyStatus_slots b _) fun _ => ?_
  exact modifyIfstats_slots b _

theorem counterOverflow_slots (b : BoardId) (status : Byte) :
    All Op.SlotsKept (counterOverflow b status) := by
  refine .ite (.bind (hydraOutb_slots b _ _) fun _ => ?_) (all_pure ())
  exact .bind (hydraInb_slots b _) fun n => modifyStatus_slots b _

end HydraAmix.Hydra
