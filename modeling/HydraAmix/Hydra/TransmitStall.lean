import HydraAmix.Hydra.Feeds
import HydraAmix.Hydra.MessageBounds
import HydraAmix.Library.Schedule

/-!
# When the Hydra transmitter stalls

The streams of running boards write and the interrupt handler runs, while the
chips end transmissions and raise their other interrupts. A transmission is
started by the TXP bit and ends with PTX or TXE. Where a message waits, the
transmitter is busy or PTX is pending, for PTX is the only interrupt that looks
at the queues; a transmission that TXE ends while a message waits leaves neither.
-/
namespace HydraAmix.Hydra
open Word Program Prog Schedule BoardState

/-- What happens: a message is written to a stream, a transmission ends, a chip
raises interrupts of its other sources, or the handler runs. -/
inductive TxEvent where
  | proto (q : QId) (mp : Msg)
  | sent (b : BoardId)
  | aborted (b : BoardId)
  | raised (b : BoardId) (bits : Byte)
  | intr

namespace World

/-- A transmission that is under way ends with an interrupt. -/
def txEnds (w : World) (b : BoardId) (bit : Byte) : World :=
  if (w.nic b).txp then w.setNic b { w.nic b with txp := false, isr := (w.nic b).isr ||| bit }
  else w

def txStep (w : World) : TxEvent → World
  | .proto q mp => (run exec (hydraproto q mp) w).2
  | .sent b => w.txEnds b NE_ISR_PTX
  | .aborted b => w.txEnds b NE_ISR_TXE
  | .raised b bits =>
      w.setNic b { w.nic b with isr := (w.nic b).isr ||| bits &&& (ISR_RX ||| NE_ISR_CNT) }
  | .intr => (run exec hydraintr w).2

/-- The open streams belong to running boards. -/
structure Wired (w : World) : Prop where
  wptr : w.wptr = w.rptr
  running : ∀ q t, w.rptr q = some t → w.Running t.board
  served : ∀ b, w.Running b → w.Served b

/-- Streams are open, and nothing is queued. -/
structure Ready (w : World) : Prop extends w.Wired where
  empty : ∀ q, w.wq q = []

/-- Where no interrupt of a board is pending, a message that waits for it has
the transmitter busy. -/
def NotStalled (w : World) : Prop :=
  ∀ b, w.Running b → (w.nic b).isr = 0 →
    ∀ q n, w.rptr q = some ⟨b, n⟩ → w.wq q ≠ [] → (w.nic b).txp = true

/-- No message waits for a board whose transmission is aborted. -/
def AbortsEmpty (w : World) : TxEvent → Prop
  | .aborted b => ∀ q n, w.rptr q = some ⟨b, n⟩ → w.wq q = []
  | _ => True

/-- A message that waits has the transmitter busy, or the end of its
transmission pending. -/
structure Lively (w : World) : Prop extends w.Wired where
  pending : ∀ b, w.Running b → ∀ q n, w.rptr q = some ⟨b, n⟩ → w.wq q ≠ [] →
    (w.nic b).txp = true ∨ (w.nic b).isr &&& NE_ISR_PTX ≠ 0

end World

section
variable {w w' : World}

/-! ### Bits of the interrupt register -/

theorem isr_or_ptx (isr : Byte) :
    (isr ||| NE_ISR_PTX) &&& NE_ISR_PTX ≠ 0 ∧
      (isr &&& 0xc0#8 = 0 → (isr ||| NE_ISR_PTX) &&& 0xc0#8 = 0) := by
  revert isr
  decide +kernel

theorem isr_or_txe (isr : Byte) (h : isr &&& 0xc0#8 = 0) : (isr ||| NE_ISR_TXE) &&& 0xc0#8 = 0 := by
  revert isr
  decide +kernel

theorem isr_or_raised (isr bits : Byte) :
    (isr ||| bits &&& (ISR_RX ||| NE_ISR_CNT)) &&& NE_ISR_PTX = isr &&& NE_ISR_PTX ∧
      (isr ||| bits &&& (ISR_RX ||| NE_ISR_CNT)) &&& 0xc0#8 = isr &&& 0xc0#8 := by
  have hmask : ∀ m : Byte, (ISR_RX ||| NE_ISR_CNT) &&& m = 0 →
      (isr ||| bits &&& (ISR_RX ||| NE_ISR_CNT)) &&& m = isr &&& m := fun m hm => by
    rw [BitVec.and_or_distrib_right, BitVec.and_assoc, hm]
    change isr &&& m ||| bits &&& 0#8 = isr &&& m
    rw [BitVec.and_zero, BitVec.or_zero]
  exact ⟨hmask _ (by decide), hmask _ (by decide)⟩

/-! ### The steps -/

namespace World

theorem Wired.congr (h : w.Wired) (hs : w.SameStreams w')
    (hi : ∀ b, w.Running b → (w'.nic b).isr &&& 0xc0#8 = 0) : w'.Wired where
  wptr := hs.wptr.trans (h.wptr.trans hs.rptr.symm)
  running q t hq := (Running.congr hs).mpr (h.running q t (by rwa [← hs.rptr]))
  served b hb := by
    have hr := (Running.congr hs).mp hb
    exact (h.served b hr).congr hs (hi b hr)

/-- The streams stay, and what a board has pending suffices. -/
theorem Lively.congr (h : w.Lively) (hs : w.SameStreams w')
    (hi : ∀ b, w.Running b → (w'.nic b).isr &&& 0xc0#8 = 0)
    (hp : ∀ b, w.Running b → ∀ q n, w.rptr q = some ⟨b, n⟩ → w'.wq q ≠ [] →
      (w'.nic b).txp = true ∨ (w'.nic b).isr &&& NE_ISR_PTX ≠ 0) : w'.Lively where
  toWired := h.toWired.congr hs hi
  pending b hb q n hq hw := hp b ((Running.congr hs).mp hb) q n (by rwa [← hs.rptr]) hw

theorem Lively.keeps (h : w.Lively) (hk : w.Keeps w') : w'.Lively :=
  h.congr hk.toSameStreams
    (fun b hb => by
      rw [(hk.nic b).isr]
      exact (h.served b hb).isr)
    fun b hb q n hq hw => by
      rw [(hk.nic b).txp, (hk.nic b).isr]
      exact h.pending b hb q n hq (by rwa [← hk.wq])

/-- The chip of one board changes. -/
theorem Lively.setNic (h : w.Lively) {b : BoardId} {n : Nic}
    (hi : (w.nic b).isr &&& 0xc0#8 = 0 → n.isr &&& 0xc0#8 = 0)
    (hp : ∀ q d, w.rptr q = some ⟨b, d⟩ → w.wq q ≠ [] →
      (w.nic b).txp = true ∨ (w.nic b).isr &&& NE_ISR_PTX ≠ 0 →
      n.txp = true ∨ n.isr &&& NE_ISR_PTX ≠ 0) : (w.setNic b n).Lively := by
  refine h.congr ⟨rfl, rfl, fun _ => .refl _⟩ (fun c hc => ?_) fun c hc q d hq hw => ?_
  · by_cases hcb : c = b
    · rw [hcb, World.setNic_self]
      exact hi (hcb ▸ (h.served c hc).isr)
    · rw [World.setNic_of_ne _ _ _ hcb]
      exact (h.served c hc).isr
  · have hold := h.pending c hc q d hq hw
    by_cases hcb : c = b
    · subst hcb
      rw [World.setNic_self]
      exact hp q d hq hw hold
    · rw [World.setNic_of_ne _ _ _ hcb]
      exact hold

/-- A message is queued for a board that has something to do. -/
theorem Lively.setWq (h : w.Lively) {q : QId} {ms : List Msg}
    (hp : ∀ b n, w.rptr q = some ⟨b, n⟩ →
      (w.nic b).txp = true ∨ (w.nic b).isr &&& NE_ISR_PTX ≠ 0) : (w.setWq q ms).Lively := by
  refine h.congr ⟨rfl, rfl, fun _ => .refl _⟩ (fun b hb => (h.served b hb).isr) ?_
  intro b hb q' n hq hw
  by_cases hqq : q' = q
  · subst hqq
    exact hp b n hq
  · rw [World.setWq_of_ne _ _ _ hqq] at hw
    exact h.pending b hb q' n hq hw

/-- The slot of an open stream. -/
theorem Wired.slot (h : w.Wired) {q : QId} {s : Slot} (hq : w.wptr q = some s) :
    w.rptr q = some s ∧ w.Served s.board ∧ (w.drv.slot s).boardIndex = s.board := by
  have hr : w.rptr q = some s := by rw [← h.wptr, hq]
  have hs := h.served _ (h.running q s hr)
  exact ⟨hr, hs, hs.index s.dev q ((hs.ptr s.dev q).mpr hr)⟩

/-- A data request with nothing queued before it, while the transmitter is busy. -/
theorem unitdataReq_waits {q : QId} {s : Slot} (mp : Msg) (hq : w.wptr q = some s)
    (hi : (w.drv.slot s).boardIndex = s.board) (hw : w.wq q = [])
    (ht : (w.nic s.board).txp = true) :
    (run exec (unitdataReq q mp) w).2 =
      (w.setNic s.board { w.nic s.board with cmd := 0x22#8 }).setWq q [mp] := by
  simp only [unitdataReq, run_bind, run_qfirst, hw, List.isEmpty_nil, Bool.not_true,
    Bool.false_eq_true, if_false, hydraxmit_busy w s.board mp hq hi ht, run_putq,
    World.setNic_wq, List.nil_append]

/-- While it is idle, the message is sent. -/
theorem unitdataReq_starts {q : QId} (mp : Msg) (hw : w.wq q = []) {w' : World}
    (hx : run exec (hydraxmit q mp) w = (true, w')) :
    (run exec (unitdataReq q mp) w).2 = w' := by
  simp only [unitdataReq, run_bind, run_qfirst, hw, List.isEmpty_nil, Bool.not_true,
    Bool.false_eq_true, if_false, hx, if_true, run_pure]

theorem Lively.unitdataReq (h : w.Lively) {q : QId} {s : Slot} (mp : Msg)
    (hq : w.wptr q = some s) (hw : w.wq q = []) :
    (run exec (Hydra.unitdataReq q mp) w).2.Lively := by
  obtain ⟨hr, -, hi⟩ := h.slot hq
  cases ht : (w.nic s.board).txp with
  | true =>
      have hcmd : (w.setNic s.board { w.nic s.board with cmd := 0x22#8 }).Lively :=
        h.setNic id fun _ _ _ _ => id
      rw [unitdataReq_waits mp hq hi hw ht]
      refine hcmd.setWq fun b n hb => .inl ?_
      rw [World.setNic_rptr, hr, Option.some.injEq] at hb
      rw [show b = s.board by rw [hb], World.setNic_self]
      exact ht
  | false =>
      obtain ⟨d, n, frame, hd, htxp, -, hisr, -, -, hrun⟩ := hydraxmit_idle w s.board mp hq hi ht
      rw [unitdataReq_starts mp hw hrun]
      have hdrv : (w.setDrv d).Lively :=
        h.congr ⟨rfl, rfl, hd.sameSlots⟩ (fun b hb => (h.served b hb).isr) h.pending
      refine hdrv.setNic (fun hz => ?_) fun _ _ _ _ _ => .inl htxp
      rw [hisr]
      exact hz

/-- The primitive that `hydraproto` reads in a message. -/
def primitive (w : World) (mp : Msg) : Long := (run exec (peekLong mp.block 0) w).1

theorem hydraproto_closed {q : QId} (mp : Msg) (hq : w.wptr q = none) :
    (run exec (Hydra.hydraproto q mp) w).2 = w := by
  simp [Hydra.hydraproto, hq]

theorem hydraproto_data {q : QId} {s : Slot} {mp : Msg} (hq : w.wptr q = some s)
    (hp : w.primitive mp = DL_UNITDATA_REQ) :
    (run exec (Hydra.hydraproto q mp) w).2 = (run exec (Hydra.unitdataReq q mp) w).2 := by
  rw [primitive, peekLong_run] at hp
  simp only [Hydra.hydraproto, run_bind, run_wrPtr, hq, peekLong_run]
  rw [protoSwitch, if_pos hp, run_bind]
  rfl

theorem hydraproto_keeps {q : QId} {s : Slot} {mp : Msg} (hq : w.wptr q = some s)
    (hp : w.primitive mp ≠ DL_UNITDATA_REQ) : w.Keeps (run exec (Hydra.hydraproto q mp) w).2 := by
  rw [primitive, peekLong_run] at hp
  simp only [Hydra.hydraproto, run_bind, run_wrPtr, hq, peekLong_run]
  exact keeps_of_aside (protoSwitch_aside q s mp hp) w

theorem Lively.hydraproto (h : w.Lively) (q : QId) (mp : Msg) :
    (run exec (Hydra.hydraproto q mp) w).2.Lively := by
  cases hq : w.wptr q with
  | none =>
      rw [hydraproto_closed mp hq]
      exact h
  | some s =>
      by_cases hp : w.primitive mp = DL_UNITDATA_REQ
      · rw [hydraproto_data hq hp]
        by_cases hw : w.wq q = []
        · exact h.unitdataReq mp hq hw
        · rw [unitdataReq_busy w hw]
          refine h.setWq fun b n hb => ?_
          exact h.pending b (h.running q _ hb) q n hb hw
      · exact h.keeps (hydraproto_keeps hq hp)

theorem Lively.hydraintr (h : w.Lively) : (run exec Hydra.hydraintr w).2.Lively := by
  cases hp : w.panicstr with
  | true =>
      have hrun : run exec Hydra.hydraintr w = ((), w) := by
        rw [Hydra.hydraintr, run_bind, run_panicking, run_ite, if_pos hp]
        rfl
      rw [hrun]
      exact h
  | false =>
      obtain ⟨out, hm, -, hh⟩ := hydraintr_moves hp h.served
      refine h.congr hm.toSameStreams (fun b hb => ?_) fun b hb q n hq hw => .inl ?_
      · rw [(hh b hb).isr]
        rfl
      · have hne : w.wq q ≠ [] := fun he => by
          have hsplit := hm.queue q _ hq
          rw [he] at hsplit
          exact hw (List.append_eq_nil_iff.mp hsplit.symm).2
        by_cases hptx : (w.nic b).isr &&& NE_ISR_PTX = 0
        · rw [((hh b hb).idle hptx).1]
          exact (h.pending b hb q n hq hne).resolve_right fun hn => hn hptx
        · exact (hh b hb).done hptx q n hq hne

theorem Lively.txStep (h : w.Lively) {e : TxEvent} (ha : w.AbortsEmpty e) :
    (w.txStep e).Lively := by
  cases e with
  | proto q mp => exact h.hydraproto q mp
  | sent b =>
      rw [World.txStep, txEnds]
      split
      · exact h.setNic (isr_or_ptx _).2 fun _ _ _ _ _ => .inr (isr_or_ptx _).1
      · exact h
  | aborted b =>
      rw [World.txStep, txEnds]
      split
      · exact h.setNic (isr_or_txe _) fun q n hq hw => absurd (ha q n hq) hw
      · exact h
  | raised b bits =>
      obtain ⟨hptx, hhigh⟩ := isr_or_raised (w.nic b).isr bits
      refine h.setNic (fun hz => hhigh.trans hz) fun _ _ _ _ hold => ?_
      dsimp only
      rwa [hptx]
  | intr => exact h.hydraintr

theorem Lively.notStalled (h : w.Lively) : w.NotStalled := fun b hb hi q n hq hw =>
  (h.pending b hb q n hq hw).resolve_right fun hn => hn (by rw [hi]; rfl)

theorem Ready.lively (h : w.Ready) : w.Lively :=
  ⟨h.toWired, fun _ _ q _ _ hw => absurd (h.empty q) hw⟩

end World

end

/-- In every run in which no transmission is aborted while a message waits for
its board, a message that waits for a board without a pending interrupt has the
transmitter busy. -/
theorem transmit_not_stalled (w : World) (hw : w.Ready) (es : List TxEvent)
    (h : Every World.txStep World.AbortsEmpty w es) : (final World.txStep w es).NotStalled :=
  (final_of_every World.Lively (fun _ _ hl ha => hl.txStep ha) hw.lively h).notStalled

/-- A machine with one board that runs, and one stream on it. -/
def oneStream (s : Slot) : World :=
  { World.off with
    drv := World.off.drv.modifyBoard s.board fun bd => { bd with
      hydra := Function.update bd.hydra s.dev { bd.hydra s.dev with
        q := some 0
        boardIndex := s.board }
      status := { bd.status with boardState := HYDRA_BOARD_RUNNING }
      info := { bd.info with nicBase := 1 } }
    rptr := fun q => if q = 0 then some s else none
    wptr := fun q => if q = 0 then some s else none }

section
variable {s : Slot}

theorem oneStream_board {b : BoardId} (h : (oneStream s).Running b) : b = s.board := by
  by_contra hb
  rw [World.Running, oneStream, Driver.modifyBoard_of_ne _ hb] at h
  exact BoardState.noConfusion h

theorem oneStream_slot (n : Fin HYDRA_MAXDEV) :
    ((oneStream s).drv.slot ⟨s.board, n⟩).q = if n = s.dev then some 0 else none := by
  rw [oneStream, Driver.slot, Driver.modifyBoard_self]
  dsimp only
  by_cases hn : n = s.dev
  · rw [hn, Function.update_self, if_pos rfl]
  · rw [Function.update_of_ne hn, if_neg hn]
    rfl

theorem oneStream_ready : (oneStream s).Ready where
  wptr := rfl
  running q t hq := by
    change (if q = 0 then some s else none) = some t at hq
    split at hq
    · rw [← Option.some.inj hq, World.Running, oneStream, Driver.modifyBoard_self]
    · exact absurd hq.symm (Option.some_ne_none t)
  served b hb := by
    obtain rfl := oneStream_board hb
    refine ⟨⟨?_, rfl, fun n q => ?_, fun n q hq => ?_⟩, ?_, ?_⟩
    · rw [oneStream, Driver.modifyBoard_self]
      rfl
    · rw [oneStream_slot]
      change _ ↔ (if q = 0 then some s else none) = some ⟨s.board, n⟩
      by_cases hn : n = s.dev
      · subst hn
        by_cases hq : q = 0
        · simp [hq]
        · simp [hq, Ne.symm hq]
      · have hs : s ≠ ⟨s.board, n⟩ := fun he => hn (congrArg Slot.dev he).symm
        by_cases hq : q = 0
        · simp [hn, hq, hs]
        · simp [hn, hq]
    · rw [oneStream_slot] at hq
      have hn : n = s.dev := by
        by_contra hne
        rw [if_neg hne] at hq
        exact Option.some_ne_none q hq.symm
      rw [oneStream, Driver.slot, Driver.modifyBoard_self, hn]
      dsimp only
      rw [Function.update_self]
    · rw [oneStream, Driver.modifyBoard_self]
      exact Nat.one_ne_zero
    · change (0 : Byte) &&& 0xc0#8 = 0
      rfl
  empty _ := rfl

end

/-- A data request of one byte. -/
def oneByte : Msg := ⟨[0, 0, 0, 7, 0, 0, 0, 6, 0, 0, 0, 0], [[1]]⟩

theorem transmit_not_stalled_one :
    (final World.txStep (oneStream ⟨0, 0⟩)
      [.proto 0 oneByte, .proto 0 oneByte, .sent 0, .intr]).NotStalled :=
  transmit_not_stalled _ oneStream_ready _ ⟨trivial, trivial, trivial, trivial, trivial⟩

/-- The transmission of the first of two messages is aborted. -/
theorem transmit_not_stalled_fails :
    ¬ ∀ w : World, w.Ready → ∀ es, (final World.txStep w es).NotStalled := by
  intro h
  have hs := h _ (oneStream_ready (s := ⟨0, 0⟩))
    [.proto 0 oneByte, .proto 0 oneByte, .aborted 0, .intr] 0
    (by rw [World.Running]; decide +kernel) (by decide +kernel) 0 0 (by decide +kernel)
    (List.isEmpty_eq_false_iff.mp (by decide +kernel))
  exact absurd hs (by decide +kernel)
end HydraAmix.Hydra
