import HydraAmix.Hydra.TransmitStall

/-!
# The order of transmission, and the use of the transmit buffer

A step moves messages: those written to a stream go behind its queue, and those
at the front of the queue go to the wire of its board, as frames in the same
order. The steps compose, so over a whole run what was written to a stream is
what went to the wire, and behind it what is still queued. The buffer RAM of a
card is written only after `hydraxmit` has seen TXP clear.
-/
namespace HydraAmix.Hydra
open Word Program Prog Schedule BoardState

/-- The buffer RAM is written while no transmission is under way. -/
def Op.Spares : (β : Type) → Op β → World → Prop
  | _, .writel b _ _, w => (w.nic b).txp = false
  | _, _, _ => True

/-- The operation writes no buffer RAM. -/
def Op.NoWrite : (β : Type) → Op β → Prop
  | _, .writel _ _ _ => False
  | _, _ => True

namespace World

/-- The messages that an event adds to a stream. -/
def wrote (q : QId) (w : World) : TxEvent → List Msg
  | .proto q' mp =>
      if q' = q ∧ w.wptr q' ≠ none ∧ w.primitive mp = DL_UNITDATA_REQ then [mp] else []
  | _ => []

/-- The data requests written to a stream in a run. -/
def written (q : QId) : World → List TxEvent → List Msg
  | _, [] => []
  | w, e :: es => w.wrote q e ++ written q (w.txStep e) es

/-- The driver writes no buffer RAM of a card that transmits. -/
def Spares (w : World) : TxEvent → Prop
  | .proto q mp => Along exec Op.Spares (hydraproto q mp) w
  | .intr => Along exec Op.Spares hydraintr w
  | _ => True

/-- Messages `new` were added to the queues, and the messages `out` of the boards
went from the queues to the wires. -/
structure Passes (out : BoardId → List (QId × Msg)) (new : QId → List Msg) (w w' : World) : Prop
    extends w.SameStreams w' where
  isr : ∀ b, w.Running b → (w'.nic b).isr &&& 0xc0#8 = 0
  sent : ∀ b, ∃ frames, (w'.nic b).sent = (w.nic b).sent ++ frames ∧ CarriesAll (out b) frames
  owner : ∀ b, ∀ x ∈ out b, ∃ n, w.rptr x.1 = some ⟨b, n⟩
  queue : ∀ q t, w.rptr q = some t → w.wq q ++ new q = ofStream q (out t.board) ++ w'.wq q

end World

section
variable {w w' w₁ w₂ w₃ : World}

/-! ### The buffer RAM -/

theorem noWrite_of_aside {α : Type} {p : HydraM α} (h : All Op.Aside p) : All Op.NoWrite p :=
  h.mono fun _ o ha => by
    cases o with
    | writel => exact ha
    | _ => trivial

theorem spares_of_noWrite {α : Type} {p : HydraM α} (h : All Op.NoWrite p) (w : World) :
    Along exec Op.Spares p w :=
  h.along (fun _ o w hn => by
    cases o with
    | writel => exact hn.elim
    | _ => trivial) w

theorem spares_of_aside {α : Type} {p : HydraM α} (h : All Op.Aside p) (w : World) :
    Along exec Op.Spares p w :=
  spares_of_noWrite (noWrite_of_aside h) w

theorem packLong_noWrite (buf : List Byte) (len : ℤ) (i : ℕ) (js : List ℕ) (v : Long) :
    All Op.NoWrite (packLong buf len i js v) := by
  induction js generalizing v with
  | nil => exact all_pure v
  | cons j js ih =>
      rw [packLong]
      exact .ite (.bind (.perform trivial) fun _ => ih _) (ih _)

theorem writeLongs_spares {b : BoardId} (buf : List Byte) (len offset : ℤ) (k i : ℕ)
    (ht : (w.nic b).txp = false) : Along exec Op.Spares (writeLongs b buf len offset k i) w := by
  induction k generalizing w i with
  | zero => exact along_pure () w
  | succ k ih =>
      have hv := packLong_world w buf len i [0, 1, 2, 3] 0
      have hp := spares_of_noWrite (packLong_noWrite buf len i [0, 1, 2, 3] 0) w
      rw [writeLongs]
      generalize packLong buf len i [0, 1, 2, 3] 0 = p at hv hp ⊢
      rw [along_bind, hv, along_bind, run_writel]
      refine ⟨hp, (along_perform _ w).mpr ht, ih _ ?_⟩
      rw [World.setNic_self]
      exact ht

theorem hydraRamWrite_spares {b : BoardId} (buf : List Byte) (len page : ℤ)
    (ht : (w.nic b).txp = false) : Along exec Op.Spares (hydraRamWrite b buf len page) w := by
  rw [hydraRamWrite, hydraRamWriteOffset, along_ite]
  split
  · exact along_pure () w
  · exact writeLongs_spares buf len _ _ _ ht

theorem hydraOutb_noWrite (b : BoardId) (reg : ℕ) (v : Byte) :
    All Op.NoWrite (hydraOutb b reg v) := .perform trivial

theorem startTransmit_spares {b : BoardId} (tmp : List Byte) (page : ℤ)
    (ht : (w.nic b).txp = false) : Along exec Op.Spares (startTransmit b tmp page) w := by
  have houtb := hydraOutb_noWrite b
  rw [startTransmit, along_bind]
  refine ⟨hydraRamWrite_spares tmp _ page ht, spares_of_noWrite ?_ _⟩
  refine .bind (houtb _ _) fun _ => .bind (houtb _ _) fun _ => .bind (houtb _ _) fun _ => ?_
  exact .bind (houtb _ _) fun _ => houtb _ _

theorem peekLong_noWrite (buf : List Byte) (i : ℤ) : All Op.NoWrite (peekLong buf i) := by
  have hpeek : ∀ i, All Op.NoWrite (peek buf i) := fun i => .perform trivial
  exact .bind (hpeek _) fun _ => .bind (hpeek _) fun _ =>
    .bind (hpeek _) fun _ => .bind (hpeek _) fun _ => all_pure _

theorem copyData_noWrite (blks : List (List Byte)) (n : ℕ) : All Op.NoWrite (copyData blks n) := by
  induction blks generalizing n with
  | nil => exact all_pure []
  | cons blk blks ih =>
      refine .bind (noWrite_of_aside ?_) fun xs => .bind (ih _) fun ys => all_pure _
      exact (peeks_all _ _ _).mono fun _ => Op.Reports.aside

theorem buildFrame_noWrite (hp : HydraT) (paddress : Vector Byte 6) (mp : Msg) :
    All Op.NoWrite (buildFrame hp paddress mp) := by
  refine .bind (peekLong_noWrite _ _) fun off => .bind (noWrite_of_aside ?_) fun dest => ?_
  · exact (peeks_all _ _ _).mono fun _ => Op.Reports.aside
  refine .bind (noWrite_of_aside (modifyStatus_aside _ fun _ => rfl)) fun _ => ?_
  have hauto : All Op.NoWrite autoArray := .perform trivial
  exact .bind (copyData_noWrite _ _) fun data => .bind hauto fun tmp => all_pure _

/-- The part of `hydraxmit` after TXP was seen clear. -/
theorem xmit_spares {b : BoardId} (hp : HydraT) (info : HydraInfo) (mp : Msg)
    {f : HydraStatus → HydraStatus} (hf : ∀ st, (f st).boardState = st.boardState)
    (ht : (w.nic b).txp = false) : Along exec Op.Spares (do
      let tmp ← buildFrame hp info.paddress mp
      freemsg mp
      startTransmit b tmp info.txStartPage
      modifyStatus b f
      modifyIfstats b fun i => { i with opackets := i.opackets + 1 }
      return true) w := by
  obtain ⟨d, -, hrun⟩ := buildFrame_run w hp info.paddress mp
  rw [along_bind, hrun, along_bind, run_freemsg, along_bind]
  refine ⟨spares_of_noWrite (buildFrame_noWrite hp _ mp) w, (along_perform _ _).mpr trivial,
    startTransmit_spares _ _ ht, spares_of_aside ?_ _⟩
  exact .bind (modifyStatus_aside b hf) fun _ => .bind (modifyIfstats_aside b _) fun _ => all_pure _

/-- The frame is loaded only where TXP was seen clear. -/
theorem hydraxmit_spares (q : QId) (mp : Msg) (w : World) :
    Along exec Op.Spares (hydraxmit q mp) w := by
  rw [hydraxmit, along_bind, run_wrPtr]
  refine ⟨(along_perform _ w).mpr trivial, ?_⟩
  cases hq : w.wptr q with
  | none => exact along_pure false w
  | some s =>
      have hcr : ∀ b, (w.nic b).outb NE_CR (NE_CR_P0 ||| NE_CR_STA ||| NE_CR_RDMA_ABORT) =
          { w.nic b with cmd := 0x22#8 } := fun b => Nic.outb_command _ (by decide)
      dsimp only
      rw [along_bind, run_load, along_bind, hydraOutb_run, hcr, along_bind, hydraInb_run,
        World.setNic_self]
      refine ⟨(along_perform _ w).mpr trivial, spares_of_noWrite (hydraOutb_noWrite _ _ _) w,
        (along_perform _ _).mpr trivial, ?_⟩
      cases ht : (w.nic (w.drv.slot s).boardIndex).txp with
      | true =>
          rw [if_pos (by simp [Nic.inb, ht])]
          exact along_pure false _
      | false =>
          rw [if_neg (by simp [Nic.inb, ht])]
          refine xmit_spares _ _ _ (fun _ => rfl) ?_
          rw [World.setNic_self]
          exact ht

theorem transmitSlots_spares (b : BoardId) (ns : List (Fin HYDRA_MAXDEV)) (w : World) :
    Along exec Op.Spares (transmitSlots b ns) w := by
  induction ns generalizing w with
  | nil => exact along_pure () w
  | cons n ns ih =>
      rw [transmitSlots, along_bind, run_load]
      refine ⟨(along_perform _ w).mpr trivial, ?_⟩
      cases ((w.drv.board b).hydra n).q with
      | none => exact ih w
      | some q =>
          dsimp only
          rw [along_bind, run_getq]
          refine ⟨(along_perform _ w).mpr trivial, ?_⟩
          cases (w.wq q).head? with
          | none => exact ih _
          | some mp =>
              dsimp only
              rw [along_bind, along_ite]
              refine ⟨hydraxmit_spares q mp _, ?_⟩
              split
              · exact ih _
              · exact (along_perform _ _).mpr trivial

theorem receiveLoop_noWrite (b : BoardId) (n : ℕ) : All Op.NoWrite (receiveLoop b n) := by
  induction n with
  | zero => exact noWrite_of_aside (modifyStatus_aside b fun _ => rfl)
  | succ n ih =>
      have hframe : All Op.NoWrite (receiveFrame b) := by
        have hcurr : All Op.NoWrite (hydraInb b NE_CURR) := .perform trivial
        refine .bind (hydraOutb_noWrite b _ _) fun _ => .bind hcurr fun curr => ?_
        exact .bind (hydraOutb_noWrite b _ _) fun _ => noWrite_of_aside (receiveFrame_tail b curr)
      refine .bind hframe fun r => ?_
      cases r with
      | done => exact all_pure ()
      | again => exact ih
      | packet p =>
          have ht := (tossPacketUpStream_all b p).mono fun _ => Op.Reports.aside
          exact .bind (noWrite_of_aside ht) fun _ => ih

theorem receiveEvents_noWrite (b : BoardId) (status : Byte) :
    All Op.NoWrite (receiveEvents b status) := by
  have hstatus : ∀ f : HydraStatus → HydraStatus, (∀ st, (f st).boardState = st.boardState) →
      All Op.NoWrite (modifyStatus b f) := fun f hf => noWrite_of_aside (modifyStatus_aside b hf)
  refine .ite (.bind (hstatus _ fun _ => rfl) fun _ => ?_) (all_pure ())
  refine .bind (noWrite_of_aside (modifyIfstats_aside b _)) fun _ => ?_
  refine .bind (hydraOutb_noWrite b _ _) fun _ => .ite ?_ (all_pure ())
  exact .bind (hydraOutb_noWrite b _ _) fun _ => receiveLoop_noWrite b 256

theorem transmitError_noWrite (b : BoardId) (status : Byte) :
    All Op.NoWrite (transmitError b status) := by
  have htsr : All Op.NoWrite (hydraInb b NE_TSR) := .perform trivial
  refine .ite (.bind (hydraOutb_noWrite b _ _) fun _ => .bind htsr fun tsr => ?_) (all_pure ())
  refine .bind (noWrite_of_aside (modifyStatus_aside b fun _ => rfl)) fun _ => ?_
  exact noWrite_of_aside (modifyIfstats_aside b _)

theorem counterOverflow_noWrite (b : BoardId) (status : Byte) :
    All Op.NoWrite (counterOverflow b status) := by
  have hcntr : All Op.NoWrite (hydraInb b NE_CNTR0) := .perform trivial
  refine .ite (.bind (hydraOutb_noWrite b _ _) fun _ => .bind hcntr fun n => ?_) (all_pure ())
  exact noWrite_of_aside (modifyStatus_aside b fun _ => rfl)

theorem hydraintrBoard_spares (b : BoardId) (w : World) :
    Along exec Op.Spares (hydraintrBoard b) w := by
  have hisr : All Op.NoWrite (hydraInb b NE_ISR) := .perform trivial
  rw [hydraintrBoard, along_bind, along_ite]
  refine ⟨(along_perform _ w).mpr trivial, ?_⟩
  split
  · rw [along_bind, along_bind, along_ite]
    refine ⟨spares_of_noWrite (hydraOutb_noWrite b _ _) w, spares_of_noWrite hisr _, ?_⟩
    split
    · exact along_pure () _
    · rw [along_bind, along_bind, along_bind]
      refine ⟨spares_of_noWrite (receiveEvents_noWrite b _) _, ?_,
        spares_of_noWrite (transmitError_noWrite b _) _,
        spares_of_noWrite (counterOverflow_noWrite b _) _⟩
      rw [transmitDone, along_ite]
      split
      · rw [along_bind]
        exact ⟨spares_of_noWrite (hydraOutb_noWrite b _ _) _, transmitSlots_spares b _ _⟩
      · exact along_pure () _
  · exact along_pure () _

theorem hydraintrBoards_spares (bs : List BoardId) (w : World) :
    Along exec Op.Spares (hydraintrBoards bs) w := by
  induction bs generalizing w with
  | nil => exact along_pure () w
  | cons b bs ih =>
      rw [hydraintrBoards, along_bind]
      exact ⟨hydraintrBoard_spares b w, ih _⟩

theorem hydraintr_spares (w : World) : Along exec Op.Spares hydraintr w := by
  rw [hydraintr, along_bind, along_ite]
  refine ⟨(along_perform _ w).mpr trivial, ?_⟩
  split
  · exact along_pure () _
  · exact hydraintrBoards_spares _ _

theorem unitdataReq_spares (q : QId) (mp : Msg) (w : World) :
    Along exec Op.Spares (unitdataReq q mp) w := by
  have hputq : ∀ w, Along exec Op.Spares (putq q mp) w := fun w => (along_perform _ w).mpr trivial
  rw [unitdataReq, along_bind, along_ite]
  refine ⟨(along_perform _ w).mpr trivial, ?_⟩
  split
  · exact hputq _
  · rw [along_bind, along_ite]
    refine ⟨hydraxmit_spares q mp _, ?_⟩
    split
    · exact along_pure () _
    · exact hputq _

theorem hydraproto_spares (q : QId) (mp : Msg) (w : World) :
    Along exec Op.Spares (hydraproto q mp) w := by
  rw [hydraproto, along_bind, run_wrPtr]
  refine ⟨(along_perform _ w).mpr trivial, ?_⟩
  cases w.wptr q with
  | none => exact along_pure 0 w
  | some s =>
      dsimp only
      rw [along_bind, peekLong_run]
      refine ⟨spares_of_noWrite (peekLong_noWrite _ _) w, ?_⟩
      dsimp only
      generalize long _ _ _ _ = prim
      by_cases hp : prim = DL_UNITDATA_REQ
      · rw [protoSwitch, if_pos hp, along_bind]
        exact ⟨unitdataReq_spares q mp w, along_pure 0 _⟩
      · exact spares_of_aside (protoSwitch_aside q s mp hp) w

theorem World.spares (w : World) (e : TxEvent) : w.Spares e := by
  cases e with
  | proto q mp => exact hydraproto_spares q mp w
  | intr => exact hydraintr_spares w
  | sent | aborted | raised => trivial

/-! ### The queues and the wires -/

namespace World

variable {out out' : BoardId → List (QId × Msg)} {new new' : QId → List Msg}

theorem Passes.trans (h : Passes out new w₁ w₂) (h' : Passes out' new' w₂ w₃) :
    Passes (fun b => out b ++ out' b) (fun q => new q ++ new' q) w₁ w₃ where
  toSameStreams := h.toSameStreams.trans h'.toSameStreams
  isr b hb := h'.isr b ((Running.congr h.toSameStreams).mpr hb)
  sent b := by
    obtain ⟨fs, hs, hc⟩ := h.sent b
    obtain ⟨gs, hs', hc'⟩ := h'.sent b
    exact ⟨fs ++ gs, by rw [hs', hs, List.append_assoc], hc.append hc'⟩
  owner b x hx := by
    rcases List.mem_append.mp hx with hx | hx
    · exact h.owner b x hx
    · rw [← h.rptr]
      exact h'.owner b x hx
  queue q t hq := by
    have hq' : w₂.rptr q = some t := by rwa [h.rptr]
    rw [← List.append_assoc, h.queue q t hq, List.append_assoc, h'.queue q t hq', ofStream_append,
      List.append_assoc]

theorem Wired.passes (h : w.Wired) (hp : Passes out new w w') : w'.Wired :=
  h.congr hp.toSameStreams hp.isr

theorem Wired.keeps_passes (h : w.Wired) (hk : w.Keeps w') :
    Passes (fun _ => []) (fun _ => []) w w' where
  toSameStreams := hk.toSameStreams
  isr b hb := by
    rw [(hk.nic b).isr]
    exact (h.served b hb).isr
  sent b := ⟨[], by rw [(hk.nic b).sent, List.append_nil], .nil⟩
  owner _ _ hx := absurd hx List.not_mem_nil
  queue q t _ := by rw [hk.wq, List.append_nil, ofStream_nil, List.nil_append]

theorem Wired.setNic_passes (h : w.Wired) {b : BoardId} {n : Nic}
    (hi : (w.nic b).isr &&& 0xc0#8 = 0 → n.isr &&& 0xc0#8 = 0) (hs : n.sent = (w.nic b).sent) :
    Passes (fun _ => []) (fun _ => []) w (w.setNic b n) where
  toSameStreams := ⟨rfl, rfl, fun _ => .refl _⟩
  isr c hc := by
    by_cases hcb : c = b
    · subst hcb
      rw [World.setNic_self]
      exact hi (h.served c hc).isr
    · rw [World.setNic_of_ne _ _ _ hcb]
      exact (h.served c hc).isr
  sent c := by
    refine ⟨[], ?_, .nil⟩
    by_cases hcb : c = b
    · subst hcb
      rw [World.setNic_self, hs, List.append_nil]
    · rw [World.setNic_of_ne _ _ _ hcb, List.append_nil]
  owner _ _ hx := absurd hx List.not_mem_nil
  queue q t _ := by rw [World.setNic_wq, List.append_nil, ofStream_nil, List.nil_append]

/-- A change of one chip sends nothing. -/
theorem movesTyped_setNic (w : World) (b : BoardId) {n : Nic} (hs : n.sent = (w.nic b).sent) :
    MovesTyped (fun _ => []) w (w.setNic b n) where
  slot := rfl
  sent c := by
    refine ⟨[], ?_, .nil⟩
    by_cases hcb : c = b
    · rw [hcb, World.setNic_self, hs, List.append_nil]
    · rw [World.setNic_of_ne _ _ _ hcb, List.append_nil]

/-- A message goes behind the queue of its stream. -/
theorem Wired.setWq_passes (h : w.Wired) (q : QId) (mp : Msg) :
    Passes (fun _ => []) (fun q' => if q = q' then [mp] else []) w
      (w.setWq q (w.wq q ++ [mp])) where
  toSameStreams := ⟨rfl, rfl, fun _ => .refl _⟩
  isr b hb := (h.served b hb).isr
  sent b := ⟨[], by rw [World.setWq_nic, List.append_nil], .nil⟩
  owner _ _ hx := absurd hx List.not_mem_nil
  queue q' t _ := by
    rw [ofStream_nil, List.nil_append]
    by_cases hq : q = q'
    · subst hq
      rw [if_pos rfl, World.setWq_self]
    · rw [if_neg hq, World.setWq_of_ne _ _ _ (Ne.symm hq), List.append_nil]

/-- With nothing queued before it, a message goes to an idle transmitter. -/
theorem Wired.starts_passes (h : w.Wired) {q : QId} {s : Slot} (mp : Msg)
    (hq : w.wptr q = some s) (ht : (w.nic s.board).txp = false) (hw : w.wq q = []) :
    Passes (fun b => if b = s.board then [(q, mp)] else []) (fun q' => if q = q' then [mp] else [])
        w (run exec (unitdataReq q mp) w).2 ∧
      MovesTyped (fun b => if b = s.board then [(q, mp)] else []) w
        (run exec (unitdataReq q mp) w).2 := by
  obtain ⟨hr, hs, hi⟩ := h.slot hq
  obtain ⟨d, n, frame, hd, -, -, hisr, hsent, hframe, hrun⟩ := hydraxmit_idle w s.board mp hq hi ht
  rw [unitdataReq_starts mp hw hrun]
  have hm : MovesTyped (fun b => if b = s.board then [(q, mp)] else []) w
      ((w.setDrv d).setNic s.board n) := by
    refine ⟨funext fun t => congrFun (hd.hydra t.board) t.dev, fun b => ?_⟩
    by_cases hbs : b = s.board
    · refine ⟨[frame], by rw [hbs, World.setNic_self, hsent], ?_⟩
      rw [if_pos hbs, hframe hs.page]
      refine .cons ⟨World.xmitFrame_carries _ _ _ _, fun t ht' => ?_⟩ .nil
      obtain rfl : s = t := Option.some.inj (hr.symm.trans ht')
      exact World.xmitFrame_type _ _ _ _
    · refine ⟨[], ?_, ?_⟩
      · rw [World.setNic_of_ne _ _ _ hbs, List.append_nil]
        rfl
      · rw [if_neg hbs]
        exact .nil
  refine ⟨⟨⟨rfl, rfl, hd.sameSlots⟩, fun b hb => ?_, hm.carries, fun b x hx => ?_,
    fun q' t hq' => ?_⟩, hm⟩
  · by_cases hbs : b = s.board
    · rw [hbs, World.setNic_self, hisr]
      exact hs.isr
    · rw [World.setNic_of_ne _ _ _ hbs]
      exact (h.served b hb).isr
  · by_cases hbs : b = s.board
    · rw [if_pos hbs, List.mem_singleton] at hx
      rw [hx, hbs]
      exact ⟨s.dev, hr⟩
    · rw [if_neg hbs] at hx
      exact absurd hx List.not_mem_nil
  · rw [World.setNic_wq, World.setDrv_wq]
    by_cases hqq : q = q'
    · subst hqq
      obtain rfl : s = t := Option.some.inj (hr.symm.trans hq')
      rw [if_pos rfl, if_pos rfl, ofStream_single, if_pos rfl, hw]
      rfl
    · rw [if_neg hqq, List.append_nil]
      refine (congrArg (· ++ w.wq q') (ofStream_eq_nil fun x hx => ?_)).symm
      by_cases hts : t.board = s.board
      · rw [if_pos hts, List.mem_singleton] at hx
        rw [hx]
        exact hqq
      · rw [if_neg hts] at hx
        exact absurd hx List.not_mem_nil

theorem Wired.unitdataReq_passes (h : w.Wired) {q : QId} {s : Slot} (mp : Msg)
    (hq : w.wptr q = some s) :
    ∃ out, Passes out (fun q' => if q = q' then [mp] else []) w
        (run exec (unitdataReq q mp) w).2 ∧
      MovesTyped out w (run exec (unitdataReq q mp) w).2 := by
  by_cases hw : w.wq q = []
  · cases ht : (w.nic s.board).txp with
    | true =>
        have hcmd : Passes (fun _ => []) (fun _ => []) w
            (w.setNic s.board { w.nic s.board with cmd := 0x22#8 }) := h.setNic_passes id rfl
        have hput := (h.passes hcmd).setWq_passes q mp
        rw [World.setNic_wq, hw, List.nil_append] at hput
        have hsent := movesTyped_setNic w s.board (n := { w.nic s.board with cmd := 0x22#8 }) rfl
        rw [unitdataReq_waits mp hq (h.slot hq).2.2 hw ht]
        exact ⟨_, hcmd.trans hput, rfl, hsent.sent⟩
    | false => exact ⟨_, h.starts_passes mp hq ht hw⟩
  · rw [unitdataReq_busy w hw]
    exact ⟨_, h.setWq_passes q mp, rfl, fun b => ⟨[], (List.append_nil _).symm, .nil⟩⟩

theorem wrote_data {q : QId} {s : Slot} {mp : Msg} (hq : w.wptr q = some s)
    (hp : w.primitive mp = DL_UNITDATA_REQ) :
    (fun q' => w.wrote q' (.proto q mp)) = fun q' => if q = q' then [mp] else [] :=
  funext fun q' => by simp [wrote, hq, hp]

theorem wrote_other {q : QId} {mp : Msg}
    (h : w.wptr q = none ∨ w.primitive mp ≠ DL_UNITDATA_REQ) :
    (fun q' => w.wrote q' (.proto q mp)) = fun _ => [] :=
  funext fun _ => if_neg fun hc => h.elim hc.2.1 fun hp => hp hc.2.2

theorem Wired.proto_passes (h : w.Wired) (q : QId) (mp : Msg) :
    ∃ out, Passes out (fun q' => w.wrote q' (.proto q mp)) w
      (run exec (Hydra.hydraproto q mp) w).2 := by
  cases hq : w.wptr q with
  | none =>
      rw [wrote_other (.inl hq), hydraproto_closed mp hq]
      exact ⟨_, h.keeps_passes (.refl w)⟩
  | some s =>
      by_cases hp : w.primitive mp = DL_UNITDATA_REQ
      · rw [wrote_data hq hp, hydraproto_data hq hp]
        obtain ⟨out, hp, -⟩ := h.unitdataReq_passes mp hq
        exact ⟨out, hp⟩
      · rw [wrote_other (.inr hp)]
        exact ⟨_, h.keeps_passes (hydraproto_keeps hq hp)⟩

theorem Wired.txEnds_passes (h : w.Wired) (b : BoardId) {bit : Byte}
    (hi : ∀ isr : Byte, isr &&& 0xc0#8 = 0 → (isr ||| bit) &&& 0xc0#8 = 0) :
    Passes (fun _ => []) (fun _ => []) w (w.txEnds b bit) := by
  rw [txEnds]
  split
  · exact h.setNic_passes (hi _) rfl
  · exact h.keeps_passes (.refl w)

theorem Wired.intr_passes (h : w.Wired) :
    ∃ out, Passes out (fun _ => []) w (run exec Hydra.hydraintr w).2 ∧
      MovesTyped out w (run exec Hydra.hydraintr w).2 := by
  cases hp : w.panicstr with
  | true =>
      have hrun : run exec Hydra.hydraintr w = ((), w) := by
        rw [Hydra.hydraintr, run_bind, run_panicking, run_ite, if_pos hp]
        rfl
      rw [hrun]
      exact ⟨_, h.keeps_passes (.refl w), .of_keeps (.refl w) rfl⟩
  | false =>
      obtain ⟨out, hm, hy, hh⟩ := hydraintr_moves hp h.served
      refine ⟨out, ⟨hm.toSameStreams, fun b hb => ?_, hm.sent, hm.owner, fun q t hq => ?_⟩, hy⟩
      · rw [(hh b hb).isr]
        rfl
      · rw [List.append_nil]
        exact hm.queue q t hq

theorem Wired.txStep_passes (h : w.Wired) (e : TxEvent) :
    ∃ out, Passes out (fun q => w.wrote q e) w (w.txStep e) := by
  cases e with
  | proto q mp => exact h.proto_passes q mp
  | sent b => exact ⟨_, h.txEnds_passes b fun isr => (isr_or_ptx isr).2⟩
  | aborted b => exact ⟨_, h.txEnds_passes b fun isr => isr_or_txe isr⟩
  | raised b bits =>
      exact ⟨_, h.setNic_passes (fun hz => (isr_or_raised _ bits).2.trans hz) rfl⟩
  | intr =>
      obtain ⟨out, hp, -⟩ := h.intr_passes
      exact ⟨out, hp⟩

theorem Wired.run_passes (h : w.Wired) (es : List TxEvent) :
    ∃ out, Passes out (fun q => w.written q es) w (final txStep w es) := by
  induction es generalizing w with
  | nil => exact ⟨_, h.keeps_passes (.refl w)⟩
  | cons e es ih =>
      obtain ⟨out, hp⟩ := h.txStep_passes e
      obtain ⟨out', hp'⟩ := ih (h.passes hp)
      exact ⟨_, hp.trans hp'⟩

end World

end

/-- In every run, what was queued and written to a stream is what its board sent
of it, in that order, and then what is still queued; a board sends only
messages of its own streams; and the buffer RAM is never written while TXP is
set. -/
theorem transmit_order (w : World) (hw : w.Wired) (es : List TxEvent) :
    Every World.txStep World.Spares w es ∧ ∃ out : BoardId → List (QId × Msg),
      (∀ b, ∃ frames, ((final World.txStep w es).nic b).sent = (w.nic b).sent ++ frames ∧
        CarriesAll (out b) frames) ∧
      (∀ b, ∀ x ∈ out b, ∃ n, w.rptr x.1 = some ⟨b, n⟩) ∧
      ∀ q t, w.rptr q = some t →
        w.wq q ++ w.written q es = ofStream q (out t.board) ++ (final World.txStep w es).wq q := by
  obtain ⟨out, hp⟩ := hw.run_passes es
  exact ⟨every_of_forall World.spares w es, out, hp.sent, hp.owner, hp.queue⟩

/-- Two messages written while the first is on the wire, and the end of its
transmission. -/
theorem transmit_order_two : ∃ out : BoardId → List (QId × Msg),
    World.written 0 (oneStream ⟨0, 0⟩) [.proto 0 oneByte, .proto 0 oneByte, .sent 0, .intr] =
      ofStream 0 (out 0) ++ (final World.txStep (oneStream ⟨0, 0⟩)
        [.proto 0 oneByte, .proto 0 oneByte, .sent 0, .intr]).wq 0 := by
  obtain ⟨-, out, -, -, hq⟩ := transmit_order (oneStream ⟨0, 0⟩) oneStream_ready.toWired
    [.proto 0 oneByte, .proto 0 oneByte, .sent 0, .intr]
  exact ⟨out, hq 0 ⟨0, 0⟩ rfl⟩

end HydraAmix.Hydra
