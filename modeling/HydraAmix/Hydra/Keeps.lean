import HydraAmix.Hydra.TransmitPass
import HydraAmix.Hydra.ReceivePass

/-!
# Steps that leave transmission alone

Transmission depends on few things: the slots and pointers of the streams, the
state and the bases of the boards, the write queues, and of each chip the
command, TXP, the pending interrupts and the wire. `Keeps` says that all of
these are as they were; `Op.Aside` is the syntactic bound that gives it. The
receive interrupt is of this kind once register page 0 is selected.
-/
namespace HydraAmix.Hydra
open Word Program Prog

/-- The slots name the same streams, and the board is the same. -/
structure HydraBoard.SameSlots (bd bd' : HydraBoard) : Prop where
  q : ∀ n, (bd'.hydra n).q = (bd.hydra n).q
  index : ∀ n, (bd'.hydra n).boardIndex = (bd.hydra n).boardIndex
  state : bd'.status.boardState = bd.status.boardState
  boardBase : bd'.info.boardBase = bd.info.boardBase
  nicBase : bd'.info.nicBase = bd.info.nicBase
  txStartPage : bd'.info.txStartPage = bd.info.txStartPage

theorem HydraBoard.SameSlots.refl (bd : HydraBoard) : bd.SameSlots bd :=
  ⟨fun _ => rfl, fun _ => rfl, rfl, rfl, rfl, rfl⟩

def Driver.SameSlots (d d' : Driver) : Prop := ∀ b, (d.board b).SameSlots (d'.board b)

theorem Driver.SameSlots.trans {d₁ d₂ d₃ : Driver} (h : d₁.SameSlots d₂) (h' : d₂.SameSlots d₃) :
    d₁.SameSlots d₃ := fun b =>
  { q := fun n => ((h' b).q n).trans ((h b).q n)
    index := fun n => ((h' b).index n).trans ((h b).index n)
    state := (h' b).state.trans (h b).state
    boardBase := (h' b).boardBase.trans (h b).boardBase
    nicBase := (h' b).nicBase.trans (h b).nicBase
    txStartPage := (h' b).txStartPage.trans (h b).txStartPage }

theorem Driver.CountersOnly.sameSlots {d d' : Driver} (h : d.CountersOnly d') : d.SameSlots d' :=
  fun b =>
  { q := fun n => by rw [h.hydra]
    index := fun n => by rw [h.hydra]
    state := h.state b
    boardBase := by rw [h.info]
    nicBase := by rw [h.info]
    txStartPage := by rw [h.info] }

theorem Driver.SameSlots.modifyBoard (d : Driver) (b : BoardId) {f : HydraBoard → HydraBoard}
    (h : (d.board b).SameSlots (f (d.board b))) : d.SameSlots (d.modifyBoard b f) := by
  intro c
  by_cases hc : c = b
  · subst hc
    rwa [Driver.modifyBoard_self]
  · rw [Driver.modifyBoard_of_ne _ hc]
    exact .refl _

/-- The streams and the boards are as they were. -/
structure World.SameStreams (w w' : World) : Prop where
  rptr : w'.rptr = w.rptr
  wptr : w'.wptr = w.wptr
  drv : w.drv.SameSlots w'.drv

theorem World.SameStreams.refl (w : World) : w.SameStreams w :=
  ⟨rfl, rfl, fun _ => .refl _⟩

theorem World.SameStreams.trans {w₁ w₂ w₃ : World} (h : w₁.SameStreams w₂)
    (h' : w₂.SameStreams w₃) : w₁.SameStreams w₃ :=
  ⟨h'.rptr.trans h.rptr, h'.wptr.trans h.wptr, h.drv.trans h'.drv⟩

/-- What transmission depends on of a chip is as it was. -/
structure Nic.SameTx (n n' : Nic) : Prop where
  cmd : n'.cmd = n.cmd
  txp : n'.txp = n.txp
  isr : n'.isr = n.isr
  sent : n'.sent = n.sent

theorem Nic.SameTx.trans {n₁ n₂ n₃ : Nic} (h : n₁.SameTx n₂) (h' : n₂.SameTx n₃) : n₁.SameTx n₃ :=
  ⟨h'.cmd.trans h.cmd, h'.txp.trans h.txp, h'.isr.trans h.isr, h'.sent.trans h.sent⟩

/-- Everything transmission depends on is as it was. -/
structure World.Keeps (w w' : World) : Prop extends w.SameStreams w' where
  nic : ∀ b, (w.nic b).SameTx (w'.nic b)
  wq : w'.wq = w.wq

theorem World.Keeps.refl (w : World) : w.Keeps w :=
  { World.SameStreams.refl w with nic := fun _ => ⟨rfl, rfl, rfl, rfl⟩, wq := rfl }

theorem World.Keeps.trans {w₁ w₂ w₃ : World} (h : w₁.Keeps w₂) (h' : w₂.Keeps w₃) : w₁.Keeps w₃ :=
  { h.toSameStreams.trans h'.toSameStreams with
    nic := fun b => (h.nic b).trans (h'.nic b)
    wq := h'.wq.trans h.wq }

/-- The operations with no effect on transmission. -/
def Op.Aside : (β : Type) → Op β → Prop
  | _, .outb _ reg _ => reg = NE_BNRY
  | _, .store f => ∀ d : Driver, d.SameSlots (f d)
  | _, .writel _ _ _ => False
  | _, .putq _ _ => False
  | _, .putbq _ _ => False
  | _, .getq _ => False
  | _, .flushq _ => False
  | _, .setRptr _ _ => False
  | _, .setWptr _ _ => False
  | _, _ => True

theorem Nic.SameTx.outb_bnry (n : Nic) (v : Byte) : n.SameTx (n.outb NE_BNRY v) := by
  by_cases h : n.page = 0
  · rw [Nic.outb_bnry _ _ h]
    exact ⟨rfl, rfl, rfl, rfl⟩
  · simp only [Nic.outb, h, false_and, if_false]
    rw [if_neg (by decide), if_neg fun hc => absurd hc.2 (by decide)]
    exact ⟨rfl, rfl, rfl, rfl⟩

theorem Op.Aside.keeps {β : Type} (o : Op β) (w : World) (h : Op.Aside β o) :
    w.Keeps (exec o w).2 := by
  have hsame := World.Keeps.refl w
  cases o with
  | outb b reg v =>
      refine { hsame with nic := fun c => ?_ }
      obtain rfl : reg = NE_BNRY := h
      by_cases hc : c = b
      · subst hc
        simpa [exec] using Nic.SameTx.outb_bnry (w.nic c) v
      · simpa [exec, World.setNic_of_ne _ _ _ hc] using hsame.nic c
  | store f => exact { hsame with drv := h w.drv }
  | allocb => exact { hsame with }
  | writel | putq | putbq | getq | flushq | setRptr | setWptr => exact h.elim
  | inb | readl | prom | peek | poke | auto | panicstr | load | canput | freemsg | putnext
  | qfirst | rptr | wptr => exact hsame

/-- A program of such operations keeps what transmission depends on. -/
theorem keeps_of_aside {α : Type} {p : HydraM α} (h : All Op.Aside p) (w : World) :
    w.Keeps (run exec p w).2 :=
  h.run_rel .refl (fun _ _ _ => .trans) (fun _ o w => Op.Aside.keeps o w) w

theorem Op.Reports.aside {β : Type} (o : Op β) (h : Op.Reports β o) : Op.Aside β o := by
  cases o with
  | store f => exact fun d => (h d).sameSlots
  | peek | load | allocb | canput | freemsg | putnext => trivial
  | _ => exact h.elim

theorem modifyStatus_aside (b : BoardId) {f : HydraStatus → HydraStatus}
    (h : ∀ s, (f s).boardState = s.boardState) : All Op.Aside (modifyStatus b f) :=
  (modifyStatus_all b h).mono fun _ => Op.Reports.aside

theorem modifyIfstats_aside (b : BoardId) (f : IfStats → IfStats) :
    All Op.Aside (modifyIfstats b f) :=
  .perform fun d => .modifyBoard d b { HydraBoard.SameSlots.refl _ with }

theorem modifySlot_aside (s : Slot) {f : HydraT → HydraT}
    (h : ∀ hp, (f hp).q = hp.q ∧ (f hp).boardIndex = hp.boardIndex) :
    All Op.Aside (modifySlot s f) := by
  refine .perform fun d => .modifyBoard d s.board ⟨fun n => ?_, fun n => ?_, rfl, rfl, rfl, rfl⟩
  all_goals
    by_cases hn : n = s.dev
    · subst hn
      simp [h]
    · simp [hn]

/-! ### The receive interrupt -/

theorem unpackLong_aside (size : ℕ) (len : ℤ) (i : ℕ) (v : Long) (js : List ℕ) :
    All Op.Aside (unpackLong size len i v js) := by
  induction js with
  | nil => exact all_pure []
  | cons j js ih =>
      exact .ite (.bind (.perform trivial) fun _ => .bind ih fun xs => all_pure _) ih

theorem readLongs_aside (b : BoardId) (size : ℕ) (len offset : ℤ) (k i : ℕ) :
    All Op.Aside (readLongs b size len offset k i) := by
  induction k generalizing i with
  | zero => exact all_pure []
  | succ k ih =>
      refine .bind (.perform trivial) fun v => .bind (unpackLong_aside _ _ _ _ _) fun xs => ?_
      exact .bind (ih _) fun ys => all_pure _

theorem clearBuf_aside (size k i : ℕ) : All Op.Aside (clearBuf size k i) := by
  induction k generalizing i with
  | zero => exact all_pure []
  | succ k ih => exact .bind (.perform trivial) fun _ => .bind (ih _) fun xs => all_pure _

theorem hydraRamReadOffset_aside (b : BoardId) (size : ℕ) (len offset : ℤ) :
    All Op.Aside (hydraRamReadOffset b size len offset) :=
  .ite (clearBuf_aside _ _ _) (readLongs_aside _ _ _ _ _ _)

theorem copyPacket_aside (b : BoardId) (info : HydraInfo) (pktsize : ℤ) :
    All Op.Aside (copyPacket b info pktsize) := by
  unfold copyPacket
  refine .ite ?_ (hydraRamReadOffset_aside _ _ _ _)
  refine .bind (hydraRamReadOffset_aside _ _ _ _) fun xs => ?_
  exact .bind (hydraRamReadOffset_aside _ _ _ _) fun ys => all_pure _

theorem modifyInfo_aside (b : BoardId) (next : ℤ) :
    All Op.Aside (modifyInfo b fun i => { i with nextPkt := next }) :=
  .perform fun d => .modifyBoard d b { HydraBoard.SameSlots.refl _ with }

theorem moveTo_aside (b : BoardId) (next : ℤ) : All Op.Aside (moveTo b next) :=
  .bind (modifyInfo_aside b next) fun _ => .perform rfl

theorem receiveHeader_aside (b : BoardId) (info : HydraInfo) (header : List Byte) :
    All Op.Aside (receiveHeader b info header) := by
  unfold receiveHeader
  refine .bind (modifyStatus_aside b fun _ => rfl) fun _ => .ite ?_ (.ite ?_ (.ite ?_ ?_))
  · refine .bind (modifyStatus_aside b fun _ => rfl) fun _ => ?_
    refine .bind (modifyIfstats_aside b _) fun _ => .bind (modifyInfo_aside b _) fun _ => ?_
    exact .bind (.perform rfl) fun _ => all_pure _
  · refine .bind (modifyStatus_aside b fun _ => rfl) fun _ => ?_
    exact .bind (modifyIfstats_aside b _) fun _ => .bind (moveTo_aside b _) fun _ => all_pure _
  · refine .bind (modifyStatus_aside b fun _ => rfl) fun _ => ?_
    exact .bind (moveTo_aside b _) fun _ => all_pure _
  · refine .bind (copyPacket_aside b info _) fun packet => ?_
    refine .bind (modifyStatus_aside b fun _ => rfl) fun _ => ?_
    exact .bind (modifyIfstats_aside b _) fun _ => .bind (moveTo_aside b _) fun _ => all_pure _

/-- A pass from the read of BNRY on. -/
theorem receiveFrame_tail (b : BoardId) (curr : Byte) : All Op.Aside (do
    let boundary ← hydraInb b NE_BNRY
    modifyStatus b fun st => { st with lastCurr := curr.toNat, lastBnry := boundary.toNat }
    let info := ((← load).board b).info
    if info.nextPkt = curr.toNat then return .done
    else
      let header ← hydraRamRead b 4 4 info.nextPkt
      receiveHeader b info header) := by
  refine .bind (.perform trivial) fun boundary => ?_
  refine .bind (modifyStatus_aside b fun _ => rfl) fun _ => ?_
  refine .bind (.perform trivial) fun d => .ite (all_pure _) ?_
  exact .bind (hydraRamReadOffset_aside _ _ _ _) fun header => receiveHeader_aside _ _ _

/-- With register page 0 selected, a pass ends with it selected. -/
theorem receiveFrame_keeps {w : World} {b : BoardId} (h : (w.nic b).cmd = 0x22#8) :
    w.Keeps (run exec (receiveFrame b) w).2 := by
  have hpage : w.setNic b { w.nic b with cmd := 0x22#8 } = w := by
    rw [← h]
    exact w.setNic_eq_self b
  have hcr : ((w.nic b).outb NE_CR (NE_CR_P1 ||| NE_CR_STA ||| NE_CR_RDMA_ABORT)).outb NE_CR
      (NE_CR_P0 ||| NE_CR_STA ||| NE_CR_RDMA_ABORT) = { w.nic b with cmd := 0x22#8 } := by
    rw [Nic.outb_command _ (by decide), Nic.outb_command _ (by decide)]
    rfl
  rw [receiveFrame, run_bind, hydraOutb_run, run_bind, hydraInb_run, run_bind, hydraOutb_run,
    World.setNic_self, World.setNic_setNic, hcr, hpage]
  exact keeps_of_aside (receiveFrame_tail b _) w

theorem receiveLoop_keeps {w : World} {b : BoardId} (h : (w.nic b).cmd = 0x22#8) (n : ℕ) :
    w.Keeps (run exec (receiveLoop b n) w).2 := by
  induction n generalizing w with
  | zero =>
      have hz : All Op.Aside (receiveLoop b 0) := modifyStatus_aside b fun _ => rfl
      exact keeps_of_aside hz w
  | succ n ih =>
      have hf := receiveFrame_keeps h
      have hcmd := (hf.nic b).cmd.trans h
      rw [receiveLoop, run_bind]
      cases (run exec (receiveFrame b) w).1 with
      | done => exact hf
      | again => exact hf.trans (ih hcmd)
      | packet p =>
          have ht := keeps_of_aside ((tossPacketUpStream_all b p).mono fun _ => Op.Reports.aside)
            (run exec (receiveFrame b) w).2
          rw [run_bind]
          exact (hf.trans ht).trans (ih (((ht.nic b).cmd).trans hcmd))

theorem receiveInterrupt_keeps {w : World} {b : BoardId} (h : (w.nic b).cmd = 0x22#8) :
    w.Keeps (run exec (receiveInterrupt b) w).2 := by
  have hcr : (w.nic b).outb NE_CR (NE_CR_P0 ||| NE_CR_STA ||| NE_CR_RDMA_ABORT) = w.nic b := by
    rw [Nic.outb_command _ (by decide)]
    exact congrArg (fun c => { w.nic b with cmd := c }) h.symm
  rw [receiveInterrupt, run_bind, hydraOutb_run, hcr, World.setNic_eq_self]
  exact receiveLoop_keeps h 256

end HydraAmix.Hydra
