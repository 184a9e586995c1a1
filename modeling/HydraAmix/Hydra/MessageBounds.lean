import HydraAmix.Hydra.Requests
import HydraAmix.Hydra.Keeps

/-!
# Which bytes of a message are read

`hydraproto` casts the control block to the structure of the primitive it
names, and `hydraxmit` takes six bytes from the offset the message gives; the
length of the block and the length of the address are never looked at. So the
reads stay inside the block, and a data request whose address does not lie in
it is not sent, exactly when the block is as long as the structure and the
address with the six bytes read lies inside.
-/
namespace HydraAmix.Hydra
open Word Program Prog DlState

/-- A byte is read only from inside its buffer. -/
def Op.Inside : (β : Type) → Op β → Prop
  | _, .peek buf i => 0 ≤ i ∧ i < buf.length
  | _, _ => True

/-- Every read of the execution of `p` from `w` is inside its buffer. -/
def ReadsInside {α : Type} (p : HydraM α) (w : World) : Prop :=
  Along exec (fun β o _ => Op.Inside β o) p w

section
variable {α β : Type} (w : World)

theorem ReadsInside.of_all {p : HydraM α} (h : All Op.Inside p) : ReadsInside p w :=
  h.along (fun _ _ _ hc => hc) w

@[simp] theorem readsInside_pure (a : α) : ReadsInside (pure a) w := trivial

@[simp] theorem readsInside_bind (p : HydraM α) (f : α → HydraM β) :
    ReadsInside (p >>= f) w ↔
      ReadsInside p w ∧ ReadsInside (f (run exec p w).1) (run exec p w).2 :=
  along_bind p f w

@[simp] theorem readsInside_perform (o : Op β) : ReadsInside (act o) w ↔ Op.Inside β o :=
  along_perform o w

end

namespace Msg

/-- The longword at an offset of the control block. -/
def field (mp : Msg) (i : ℕ) : Long :=
  long (mp.block.getD i 0) (mp.block.getD (i + 1) 0) (mp.block.getD (i + 2) 0)
    (mp.block.getD (i + 3) 0)

def dl_primitive (mp : Msg) : Long := mp.field 0
def dl_dest_addr_length (mp : Msg) : Long := mp.field 4
def dl_dest_addr_offset (mp : Msg) : Long := mp.field 8

/-- The destination address lies wholly inside the control block. -/
def AddressInside (mp : Msg) : Prop :=
  12 ≤ mp.block.length ∧ 0 ≤ mp.dl_dest_addr_offset.toInt ∧
    mp.dl_dest_addr_offset.toInt + mp.dl_dest_addr_length.toNat ≤ mp.block.length

/-- So do the six bytes that are taken for it. -/
def Sendable (mp : Msg) : Prop :=
  mp.AddressInside ∧ mp.dl_dest_addr_offset.toInt + 6 ≤ mp.block.length

end Msg

/-- What is asked of a call that handles a message: it reads inside the
message's blocks and does not send a message whose address is not inside. -/
structure Bounded {α : Type} (p : HydraM α) (mp : Msg) (w : World) : Prop where
  reads : ReadsInside p w
  unsent : ¬ mp.AddressInside → ∀ b, ((run exec p w).2.nic b).sent = (w.nic b).sent

theorem bounded_return {α β : Type} (p : HydraM α) (a : β) (mp : Msg) (w : World) :
    Bounded (do let _ ← p; return a) mp w ↔ Bounded p mp w := by
  have hreads : ReadsInside (do let _ ← p; return a) w ↔ ReadsInside p w := by
    rw [readsInside_bind]
    exact and_iff_left trivial
  refine ⟨fun h => ⟨hreads.mp h.reads, fun ha b => ?_⟩,
    fun h => ⟨hreads.mpr h.reads, fun ha b => ?_⟩⟩
  · have hs := h.unsent ha b
    rwa [run_bind, run_pure] at hs
  · rw [run_bind, run_pure]
    exact h.unsent ha b

/-- The stream is open and the transmitter of its board idle. -/
def World.Transmits (w : World) (q : QId) : Prop :=
  ∃ s, w.wptr q = some s ∧ (w.nic (w.drv.slot s).boardIndex).txp = false

/-! ### Reads of the parts of a message -/

section
variable (w : World) (b : BoardId)

theorem peeks_inside_iff (buf : List Byte) (i : ℤ) (n : ℕ) :
    ReadsInside (peeks buf i (n + 1)) w ↔ 0 ≤ i ∧ i + n < buf.length := by
  induction n generalizing i with
  | zero => simp [peeks, Op.Inside]
  | succ n ih =>
      rw [peeks]
      simp only [readsInside_bind, readsInside_perform, run_peek, readsInside_pure, and_true, ih,
        Op.Inside]
      omega

theorem peekLong_inside_iff (buf : List Byte) (i : ℤ) :
    ReadsInside (peekLong buf i) w ↔ 0 ≤ i ∧ i + 3 < buf.length := by
  simp only [peekLong, readsInside_bind, readsInside_perform, readsInside_pure, run_peek, and_true,
    Op.Inside]
  omega

theorem peekLong_field {mp : Msg} {i : ℕ} (h : i + 3 < mp.block.length) :
    run exec (peekLong mp.block i) w = (mp.field i, w) := by
  have hb : ∀ k < 4, w.byteAt mp.block (i + k : ℕ) = mp.block.getD (i + k) 0 := fun k hk => by
    rw [w.byteAt_of_lt (by omega), List.getD_eq_getElem _ _ (by omega)]
  have h₀ := hb 0 (by omega)
  have h₁ := hb 1 (by omega)
  have h₂ := hb 2 (by omega)
  have h₃ := hb 3 (by omega)
  simp only [Nat.add_zero, Nat.cast_add, Nat.cast_one, Nat.cast_ofNat] at h₀ h₁ h₂ h₃
  rw [peekLong_run, h₀, h₁, h₂, h₃, Msg.field]

theorem peeks_block_inside (blk : List Byte) {n : ℕ} (h : n ≤ blk.length) :
    ReadsInside (peeks blk 0 n) w := by
  cases n with
  | zero => trivial
  | succ n =>
      rw [peeks_inside_iff]
      omega

theorem copyData_inside (blks : List (List Byte)) (n : ℕ) :
    ReadsInside (copyData blks n) w := by
  induction blks generalizing n with
  | nil => trivial
  | cons blk rest ih =>
      simp only [copyData, readsInside_bind, readsInside_pure, and_true]
      refine ⟨peeks_block_inside w blk (Nat.min_le_left _ _), ?_⟩
      rw [peeks_block w blk (Nat.min_le_left _ _)]
      exact ih _

theorem packLong_inside (buf : List Byte) (i : ℕ) (js : List ℕ) (v : Long) :
    All Op.Inside (packLong buf buf.length i js v) := by
  induction js generalizing v with
  | nil => trivial
  | cons j js ih =>
      rw [packLong]
      by_cases h : ((4 * i + j : ℕ) : ℤ) < buf.length
      · rw [if_pos h]
        exact .bind (.perform ⟨by omega, h⟩) fun x => ih _
      · rw [if_neg h]
        exact ih _

theorem writeLongs_inside (buf : List Byte) (offset : ℤ) (k i : ℕ) :
    All Op.Inside (writeLongs b buf buf.length offset k i) := by
  induction k generalizing i with
  | zero => trivial
  | succ k ih =>
      exact .bind (packLong_inside buf i _ _) fun v => .bind (.perform trivial) fun _ => ih _

theorem startTransmit_inside (tmp : List Byte) (page : ℤ) :
    All Op.Inside (startTransmit b tmp page) := by
  have hwrite : All Op.Inside (hydraRamWrite b tmp tmp.length page) := by
    unfold hydraRamWrite hydraRamWriteOffset
    refine .ite ?_ ?_
    · exact all_pure ()
    · generalize (nlongs tmp.length).toNat = k
      generalize int32 (page * 256) = o
      exact writeLongs_inside b tmp o k 0
  have hout : ∀ reg v, All Op.Inside (hydraOutb b reg v) := fun reg v => .perform trivial
  unfold startTransmit
  refine .bind hwrite fun _ => ?_
  refine .bind (hout _ _) fun _ => .bind (hout _ _) fun _ => .bind (hout _ _) fun _ => ?_
  exact .bind (hout _ _) fun _ => hout _ _

/-- The reads of `hydraxmit` are those of the offset and of the six bytes. -/
theorem buildFrame_inside_iff (hp : HydraT) (paddress : Vector Byte 6) (mp : Msg) :
    ReadsInside (buildFrame hp paddress mp) w ↔
      12 ≤ mp.block.length ∧ 0 ≤ mp.dl_dest_addr_offset.toInt ∧
        mp.dl_dest_addr_offset.toInt + 6 ≤ mp.block.length := by
  rw [buildFrame, readsInside_bind, peekLong_inside_iff]
  by_cases hl : 12 ≤ mp.block.length
  swap
  · exact iff_of_false (fun h => by omega) fun h => hl h.1
  have hoff : run exec (peekLong mp.block 8) w = (mp.dl_dest_addr_offset, w) :=
    peekLong_field w (i := 8) (by omega)
  have hstatus : ∀ f w, ReadsInside (modifyStatus hp.boardIndex f) w :=
    fun f w => ⟨trivial, trivial⟩
  simp only [hoff, readsInside_bind, peeks_inside_iff w mp.block _ 5, peeks_run, modifyStatus_run,
    copyData_run, readsInside_pure, and_true, readsInside_perform, copyData_inside, hstatus,
    Op.Inside]
  omega

/-! ### The two routines -/

variable {q : QId} {s : Slot} {mp : Msg}

theorem hydraxmit_reads_iff (hq : w.wptr q = some s) :
    ReadsInside (hydraxmit q mp) w ↔ ((w.nic (w.drv.slot s).boardIndex).txp = false →
      12 ≤ mp.block.length ∧ 0 ≤ mp.dl_dest_addr_offset.toInt ∧
        mp.dl_dest_addr_offset.toInt + 6 ≤ mp.block.length) := by
  generalize hb : (w.drv.slot s).boardIndex = b
  have hcr : (w.nic b).outb NE_CR (NE_CR_P0 ||| NE_CR_STA ||| NE_CR_RDMA_ABORT) =
      { w.nic b with cmd := 0x22#8 } := Nic.outb_command _ (by decide)
  have hout : ∀ w reg v, ReadsInside (hydraOutb b reg v) w := fun w reg v => ⟨trivial, trivial⟩
  have hin : ∀ w reg, ReadsInside (hydraInb b reg) w := fun w reg => ⟨trivial, trivial⟩
  have hstatus : ∀ f w, ReadsInside (modifyStatus b f) w := fun f w => ⟨trivial, trivial⟩
  have hifstats : ∀ f w, ReadsInside (modifyIfstats b f) w := fun f w => ⟨trivial, trivial⟩
  have hstart : ∀ tmp page w, ReadsInside (startTransmit b tmp page) w :=
    fun tmp page w => .of_all w (startTransmit_inside b tmp page)
  simp only [hydraxmit, readsInside_bind, readsInside_perform, run_wrPtr, hq, run_load, hb,
    hydraOutb_run, hydraInb_run, hcr, World.setNic_self, hout, hin, Op.Inside, true_and]
  by_cases ht : (w.nic b).txp = true
  · have htxp : ({ w.nic b with cmd := 0x22#8 } : Nic).inb NE_CR &&& NE_CR_TXP ≠ 0 := by
      simp [Nic.inb, ht]
    rw [if_pos htxp]
    exact iff_of_true trivial fun h => Bool.noConfusion (ht.symm.trans h)
  · have htxp : ¬ ({ w.nic b with cmd := 0x22#8 } : Nic).inb NE_CR &&& NE_CR_TXP ≠ 0 := by
      simp [Nic.inb, ht]
    rw [if_neg htxp]
    simp only [readsInside_bind, readsInside_perform, buildFrame_inside_iff, hstart, hstatus,
      hifstats, readsInside_pure, Op.Inside, and_true, Bool.eq_false_of_not_eq_true ht, forall_const]

/-- What `hydraxmit` does to the wire. -/
theorem hydraxmit_sent (hq : w.wptr q = some s) :
    (∀ b, ((run exec (hydraxmit q mp) w).2.nic b).sent = (w.nic b).sent) ↔
      (w.nic (w.drv.slot s).boardIndex).txp = true := by
  cases ht : (w.nic (w.drv.slot s).boardIndex).txp with
  | true =>
      refine iff_of_true (fun b => ?_) rfl
      rw [hydraxmit_busy w _ mp hq rfl ht]
      by_cases hb : b = (w.drv.slot s).boardIndex
      · rw [hb, World.setNic_self]
      · rw [World.setNic_of_ne _ _ _ hb]
  | false =>
      refine iff_of_false (fun h => ?_) nofun
      obtain ⟨d, n, frame, -, -, -, -, hsent, -, hrun⟩ := hydraxmit_idle w _ mp hq rfl ht
      have hb := h (w.drv.slot s).boardIndex
      rw [hrun, World.setNic_self, hsent] at hb
      simp at hb

theorem hydraxmit_bounded_iff (w : World) (q : QId) (mp : Msg) :
    Bounded (hydraxmit q mp) mp w ↔ (w.Transmits q → mp.Sendable) := by
  cases hq : w.wptr q with
  | none => 
      have hnone : ¬ w.Transmits q := fun ⟨s, hs, _⟩ => by simp [hq] at hs
      refine iff_of_true ⟨?_, fun _ b => ?_⟩ fun h => absurd h hnone
      · simp [hydraxmit, hq, Op.Inside]
      · simp [hydraxmit, hq]
  | some s =>
      have ht : w.Transmits q ↔ (w.nic (w.drv.slot s).boardIndex).txp = false := by
        simp [World.Transmits, hq]
      have hiff : Bounded (hydraxmit q mp) mp w ↔ ReadsInside (hydraxmit q mp) w ∧
          (¬ mp.AddressInside → ∀ b, ((run exec (hydraxmit q mp) w).2.nic b).sent = (w.nic b).sent) :=
        ⟨fun h => ⟨h.reads, h.unsent⟩, fun h => ⟨h.1, h.2⟩⟩
      rw [hiff, hydraxmit_reads_iff w hq, hydraxmit_sent w hq, ht, Msg.Sendable]
      cases (w.nic (w.drv.slot s).boardIndex).txp with
      | true => simp
      | false =>
          simp only [forall_const, Bool.false_eq_true, imp_false, not_not]
          exact ⟨fun h => ⟨h.2, h.1.2.2⟩, fun h => ⟨⟨h.1.1, h.1.2.1, h.2⟩, h.1⟩⟩

/-! ### Requests -/

/-- An operation that reads no message and leaves transmission alone. -/
def Op.Plain (β : Type) (o : Op β) : Prop := Op.Aside β o ∧ Op.Inside β o

theorem okAck_plain (q : QId) (s : Slot) (prim : Long) {f : HydraT → HydraT}
    (h : ∀ hp, (f hp).q = hp.q ∧ (f hp).boardIndex = hp.boardIndex) :
    All Op.Plain (okAck q s prim f) := by
  refine .bind (.perform ⟨trivial, trivial⟩) fun _ => .ite ?_ (all_pure ())
  refine .bind (.perform ⟨?_, trivial⟩) fun _ => .perform ⟨trivial, trivial⟩
  exact all_perform.mp (modifySlot_aside s h)

theorem infoReq_plain (q : QId) (s : Slot) : All Op.Plain (infoReq q s) := by
  refine .bind (.perform ⟨trivial, trivial⟩) fun d => ?_
  refine .bind (.perform ⟨trivial, trivial⟩) fun _ => .ite ?_ (all_pure ())
  exact .bind (.perform ⟨trivial, trivial⟩) fun d => .perform ⟨trivial, trivial⟩

theorem bindReq_aside (q : QId) (s : Slot) (mp : Msg) : All Op.Aside (bindReq q s mp) := by
  have hlong : ∀ i, All Op.Aside (peekLong mp.block i) := fun i =>
    .bind (.perform trivial) fun _ => .bind (.perform trivial) fun _ =>
      .bind (.perform trivial) fun _ => .bind (.perform trivial) fun _ => all_pure _
  have hslot : ∀ f : HydraT → HydraT, (∀ hp, (f hp).q = hp.q ∧ (f hp).boardIndex = hp.boardIndex) →
      All Op.Aside (modifySlot s f) := fun f h => modifySlot_aside s h
  refine .bind (.perform trivial) fun d => .bind (hlong _) fun sap => ?_
  refine .bind (hslot _ fun _ => ⟨rfl, rfl⟩) fun _ => ?_
  refine .bind (modifyStatus_aside _ fun _ => rfl) fun _ => ?_
  refine .bind (hslot _ fun _ => ⟨rfl, rfl⟩) fun _ => .bind (.perform trivial) fun _ => ?_
  refine .bind (.perform trivial) fun _ => .ite ?_ (all_pure ())
  exact .bind (.perform trivial) fun d => .perform trivial

/-- A bind request is read up to its SAP. -/
theorem bindReq_reads_iff (w : World) (q : QId) (s : Slot) (mp : Msg) :
    ReadsInside (bindReq q s mp) w ↔ 8 ≤ mp.block.length := by
  have hslot : ∀ f w, ReadsInside (modifySlot s f) w := fun f w => ⟨trivial, trivial⟩
  have hstatus : ∀ b f w, ReadsInside (modifyStatus b f) w := fun b f w => ⟨trivial, trivial⟩
  have hanswer : ∀ c b w, ReadsInside (if c = true then do
      let d ← load
      qreply q (.bindAck (d.slot s).sap (d.board b).info.paddress)
      else pure ()) w := fun c b w => .of_all w
    (.ite (.bind (.perform trivial) fun d => .perform trivial) (all_pure ()))
  simp only [bindReq, readsInside_bind, readsInside_perform, peekLong_inside_iff, hslot, hstatus,
    hanswer, Op.Inside, true_and, and_true]
  omega

variable (q : QId) (s : Slot) (mp : Msg)

/-- The requests that carry no data consist of plain operations, but for the
read of a bind request. -/
theorem protoSwitch_all {P : (β : Type) → Op β → Prop} (hP : ∀ β (o : Op β), Op.Plain β o → P β o)
    {prim : Long} (hp : prim ≠ DL_UNITDATA_REQ)
    (hb : prim = DL_BIND_REQ → All P (bindReq q s mp)) : All P (protoSwitch q s mp prim) := by
  have hfree : ∀ {p : HydraM Unit}, All Op.Plain p → All P (do freemsg mp; p; return 1) :=
    fun h => .bind (.perform (hP _ _ ⟨trivial, trivial⟩)) fun _ =>
      .bind (h.mono hP) fun _ => all_pure 1
  have hack : ∀ p {f : HydraT → HydraT}, (∀ hp, (f hp).q = hp.q ∧ (f hp).boardIndex = hp.boardIndex) →
      All P (do freemsg mp; okAck q s p f; return 1) := fun p _ h => hfree (okAck_plain q s p h)
  unfold protoSwitch
  rw [if_neg hp]
  refine .ite (hack _ fun _ => ⟨rfl, rfl⟩) ?_
  by_cases h : prim = DL_BIND_REQ
  · rw [if_pos h]
    exact .bind (hb h) fun _ => all_pure 1
  · rw [if_neg h]
    refine .ite (hfree (infoReq_plain q s)) (.ite (hack _ fun _ => ⟨rfl, rfl⟩) ?_)
    refine .ite (hack _ fun _ => ⟨rfl, rfl⟩) ?_
    exact .bind (.perform (hP _ _ ⟨trivial, trivial⟩)) fun _ => all_pure 1

theorem protoSwitch_aside {prim : Long} (hp : prim ≠ DL_UNITDATA_REQ) :
    All Op.Aside (protoSwitch q s mp prim) :=
  protoSwitch_all q s mp (fun _ _ h => h.1) hp fun _ => bindReq_aside q s mp

/-- Only data requests and bind requests are read past the primitive. -/
theorem protoSwitch_inside {prim : Long} (hp : prim ≠ DL_UNITDATA_REQ) (hb : prim ≠ DL_BIND_REQ) :
    All Op.Inside (protoSwitch q s mp prim) :=
  protoSwitch_all q s mp (fun _ _ h => h.2) hp fun h => absurd h hb

variable {q s mp} (w : World)

theorem unitdataReq_busy (hq : w.wq q ≠ []) :
    run exec (unitdataReq q mp) w = ((), w.setWq q (w.wq q ++ [mp])) := by
  simp [unitdataReq, hq]

theorem unitdataReq_free (hq : w.wq q = []) :
    Bounded (unitdataReq q mp) mp w ↔ Bounded (hydraxmit q mp) mp w := by
  have hreads : ReadsInside (unitdataReq q mp) w ↔ ReadsInside (hydraxmit q mp) w := by
    simp only [unitdataReq, readsInside_bind, readsInside_perform, run_qfirst, hq, List.isEmpty_nil,
      Bool.not_true, Bool.false_eq_true, if_false, Op.Inside, true_and]
    refine and_iff_left ?_
    split_ifs
    · trivial
    · exact ⟨trivial, trivial⟩
  have hnic : (run exec (unitdataReq q mp) w).2.nic = (run exec (hydraxmit q mp) w).2.nic := by
    simp only [unitdataReq, run_bind, run_qfirst, hq, List.isEmpty_nil, Bool.not_true,
      Bool.false_eq_true, if_false, run_ite]
    split_ifs
    · rfl
    · rfl
  refine ⟨fun h => ⟨hreads.mp h.reads, fun ha b => ?_⟩,
    fun h => ⟨hreads.mpr h.reads, fun ha b => ?_⟩⟩
  · rw [← hnic]
    exact h.unsent ha b
  · rw [hnic]
    exact h.unsent ha b

/-- A data request is read by `hydraxmit` only, unless messages wait before it. -/
theorem unitdataReq_bounded_iff :
    Bounded (unitdataReq q mp) mp w ↔ (w.wq q = [] → w.Transmits q → mp.Sendable) := by
  by_cases hq : w.wq q = []
  · rw [unitdataReq_free w hq, hydraxmit_bounded_iff, imp_iff_right hq]
  · refine iff_of_true ⟨?_, fun _ b => ?_⟩ fun h => absurd h hq
    · simp [unitdataReq, hq, Op.Inside]
    · rw [unitdataReq_busy w hq]
      rfl

/-- Reading the primitive and carrying out the request. -/
theorem hydraproto_bounded_iff (hq : w.wptr q = some s) :
    Bounded (hydraproto q mp) mp w ↔
      4 ≤ mp.block.length ∧ Bounded (protoSwitch q s mp mp.dl_primitive) mp w := by
  by_cases hl : 4 ≤ mp.block.length
  · have hlong : run exec (peekLong mp.block 0) w = (mp.dl_primitive, w) :=
      peekLong_field w (i := 0) (by omega)
    have hinside : ReadsInside (peekLong mp.block 0) w := by
      rw [peekLong_inside_iff]
      omega
    have hreads : ReadsInside (hydraproto q mp) w ↔
        ReadsInside (protoSwitch q s mp mp.dl_primitive) w := by
      simp only [hydraproto, readsInside_bind, readsInside_perform, run_wrPtr, hq, hinside, hlong,
        Op.Inside, true_and]
    have hrun : run exec (hydraproto q mp) w = run exec (protoSwitch q s mp mp.dl_primitive) w := by
      simp only [hydraproto, run_bind, run_wrPtr, hq, hlong]
    rw [and_iff_right hl]
    refine ⟨fun h => ⟨hreads.mp h.reads, ?_⟩, fun h => ⟨hreads.mpr h.reads, ?_⟩⟩
    · rw [← hrun]
      exact h.unsent
    · rw [hrun]
      exact h.unsent
  · refine iff_of_false (fun h => ?_) fun h => hl h.1
    have hr := h.reads
    simp only [hydraproto, readsInside_bind, readsInside_perform, run_wrPtr, hq,
      peekLong_inside_iff] at hr
    omega

theorem protoSwitch_bounded_iff :
    Bounded (protoSwitch q s mp mp.dl_primitive) mp w ↔
      (mp.dl_primitive = DL_BIND_REQ → 8 ≤ mp.block.length) ∧
        (mp.dl_primitive = DL_UNITDATA_REQ → w.wq q = [] → w.Transmits q → mp.Sendable) := by
  by_cases hp : mp.dl_primitive = DL_UNITDATA_REQ
  · have hne : mp.dl_primitive ≠ DL_BIND_REQ := by rw [hp]; decide
    rw [imp_iff_right hp, and_iff_right fun h => absurd h hne, ← unitdataReq_bounded_iff,
      protoSwitch, if_pos hp, bounded_return]
  · rw [and_iff_left fun h => absurd h hp]
    have hunsent : ∀ b, ((run exec (protoSwitch q s mp mp.dl_primitive) w).2.nic b).sent =
        (w.nic b).sent := fun b =>
          ((keeps_of_aside (protoSwitch_aside q s mp hp) w).nic b).sent
    have hreads : Bounded (protoSwitch q s mp mp.dl_primitive) mp w ↔
        ReadsInside (protoSwitch q s mp mp.dl_primitive) w :=
      ⟨fun h => h.reads, fun h => ⟨h, fun _ => hunsent⟩⟩
    rw [hreads]
    by_cases hb : mp.dl_primitive = DL_BIND_REQ
    · have hne : mp.dl_primitive ≠ DL_ATTACH_REQ := by rw [hb]; decide
      rw [imp_iff_right hb, ← bindReq_reads_iff w q s mp, protoSwitch, if_neg hp, if_neg hne,
        if_pos hb, readsInside_bind]
      exact and_iff_left trivial
    · exact iff_of_true (.of_all w (protoSwitch_inside q s mp hp hb)) fun h => absurd h hb

end

/-- A message written to a stream, and one that is taken off its queue, are
handled within bounds exactly if the structures cast onto the block fit in it
and, when the request is sent, the address and the six bytes read do. -/
theorem message_bounds_iff (w : World) (q : QId) (mp : Msg) :
    (Bounded (hydraproto q mp) mp w ↔
      (w.wptr q ≠ none → 4 ≤ mp.block.length ∧
        (mp.dl_primitive = DL_BIND_REQ → 8 ≤ mp.block.length)) ∧
      (mp.dl_primitive = DL_UNITDATA_REQ → w.wq q = [] → w.Transmits q → mp.Sendable)) ∧
    (Bounded (hydraxmit q mp) mp w ↔ (w.Transmits q → mp.Sendable)) := by
  refine ⟨?_, hydraxmit_bounded_iff w q mp⟩
  cases hq : w.wptr q with
  | none =>
      have hnone : ¬ w.Transmits q := fun ⟨s, hs, _⟩ => by simp [hq] at hs
      refine iff_of_true ⟨?_, fun _ b => ?_⟩ ⟨fun h => absurd rfl h, fun _ _ h => absurd h hnone⟩
      · simp [hydraproto, hq, Op.Inside]
      · simp [hydraproto, hq]
  | some s =>
      rw [imp_iff_right (Option.some_ne_none s), hydraproto_bounded_iff w hq,
        protoSwitch_bounded_iff w, and_assoc]

/-- An empty control block, and a data request whose address lies behind the
end of its control block. -/
theorem message_bounds_fails :
    let w : World := { World.off with wptr := fun _ => some ⟨0, 0⟩ }
    let mp : Msg := ⟨[0, 0, 0, 7, 0, 0, 0, 6, 0, 0, 0, 12], [[1, 2, 3]]⟩
    ¬ Bounded (hydraproto 0 ⟨[], []⟩) ⟨[], []⟩ w ∧ ¬ Bounded (hydraproto 0 mp) mp w := by
  intro w mp
  have hq : w.wptr 0 = some ⟨0, 0⟩ := rfl
  rw [hydraproto_bounded_iff w hq, hydraproto_bounded_iff w hq, protoSwitch_bounded_iff w,
    protoSwitch_bounded_iff w]
  refine ⟨fun h => absurd h.1 (by decide), fun h => ?_⟩
  have hs := h.2.2 (by decide) rfl ⟨⟨0, 0⟩, rfl, rfl⟩
  exact absurd hs.2 (by decide)

end HydraAmix.Hydra
