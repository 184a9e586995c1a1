import HydraAmix.Hydra.Transmit

/-!
# What one call of the transmit routine does

`hydraxmit` either finds the transmitter busy and changes nothing but the
register page, or puts one frame on the wire and leaves the transmitter busy.
The frame is `xmitFrame`: six bytes taken from the control block where the
request says, the board's address, the stream's SAP, the data and the padding.
-/
namespace HydraAmix.Hydra
open Word Program Prog

/-- Where a data request says its destination address lies, as `hydraxmit` reads it. -/
def Msg.destOffset (w : World) (mp : Msg) : Long :=
  long (w.byteAt mp.block 8) (w.byteAt mp.block 9) (w.byteAt mp.block 10) (w.byteAt mp.block 11)

/-- The header and the data of the frame built for a message. -/
def World.xmitHead (w : World) (hp : HydraT) (paddress : Vector Byte 6) (mp : Msg) : List Byte :=
  ((List.range 6).map fun k : ℕ => w.byteAt mp.block ((mp.destOffset w).toInt + k)) ++
    paddress.toList ++ [(hp.sap >>> 8).setWidth 8, hp.sap.setWidth 8] ++
    mp.cont.flatten.take ETH_MAXDATA

def World.xmitFrame (w : World) (hp : HydraT) (paddress : Vector Byte 6) (mp : Msg) : List Byte :=
  w.xmitHead hp paddress mp ++ padding w.auto (w.xmitHead hp paddress mp).length

/-- A frame that carries the data of a message: an Ethernet header, the
message's data up to the largest size, and padding. -/
def Carries (mp : Msg) (frame : List Byte) : Prop :=
  ∃ header pad, header.length = ETH_HEADER_SIZE ∧
    frame = header ++ mp.cont.flatten.take ETH_MAXDATA ++ pad

section
variable (w : World) (b : BoardId)

theorem peeks_block (blk : List Byte) {n : ℕ} (h : n ≤ blk.length) :
    run exec (peeks blk 0 n) w = (blk.take n, w) := by
  rw [peeks_run]
  refine congrArg (Prod.mk · w) (List.ext_getElem (by simp [h]) fun i h₁ h₂ => ?_)
  simp only [List.length_map, List.length_range] at h₁
  simp [w.byteAt_of_lt (show i < blk.length by omega)]

@[simp] theorem copyData_run (blks : List (List Byte)) (n : ℕ) :
    run exec (copyData blks n) w = (blks.flatten.take n, w) := by
  induction blks generalizing n with
  | nil => simp [copyData]
  | cons blk rest ih =>
      rw [copyData, run_bind, peeks_block w blk (Nat.min_le_left _ _), run_bind, ih, run_pure,
        List.flatten_cons, List.take_append]
      congr 2
      · rcases Nat.le_total blk.length n with h | h
        · rw [Nat.min_eq_left h, List.take_length, List.take_of_length_le h]
        · rw [Nat.min_eq_right h]
      · rw [show n - min blk.length n = n - blk.length by omega]

theorem World.xmitFrame_length (hp : HydraT) (paddress : Vector Byte 6) (mp : Msg) :
    64 ≤ (w.xmitFrame hp paddress mp).length ∧ (w.xmitFrame hp paddress mp).length ≤ 1514 := by
  have hh : (w.xmitHead hp paddress mp).length ≤ 1514 := by
    simp [World.xmitHead, ETH_MAXDATA]
    omega
  simp only [xmitFrame, padding, List.length_append, List.length_map, List.length_range',
    ETH_MINPACKET, ETH_HEADER_SIZE, ETH_MINDATA]
  omega

theorem World.xmitFrame_carries (hp : HydraT) (paddress : Vector Byte 6) (mp : Msg) :
    Carries mp (w.xmitFrame hp paddress mp) :=
  ⟨_, _, by simp [ETH_HEADER_SIZE], rfl⟩

theorem buildFrame_run (hp : HydraT) (paddress : Vector Byte 6) (mp : Msg) :
    ∃ d, w.drv.CountersOnly d ∧
      run exec (buildFrame hp paddress mp) w = (w.xmitFrame hp paddress mp, w.setDrv d) := by
  refine ⟨_, ?_, by
    simp only [buildFrame, run_bind, peekLong_run, peeks_run, modifyStatus_run, copyData_run,
      run_autoArray, run_pure]
    rfl⟩
  exact .modifyBoard _ _ rfl rfl rfl

theorem packLong_world (buf : List Byte) (len : ℤ) (i : ℕ) (js : List ℕ) (v : Long) :
    (run exec (packLong buf len i js v) w).2 = w := by
  induction js generalizing v with
  | nil => rfl
  | cons j js ih =>
      rw [packLong, run_ite]
      split_ifs
      · rw [run_bind, run_peek, ih]
      · exact ih _

/-- Whatever the range, a write changes only the buffer RAM. -/
theorem writeLongs_ram (buf : List Byte) (len offset : ℤ) (k i : ℕ) :
    ∃ r, run exec (writeLongs b buf len offset k i) w =
      ((), w.setNic b { w.nic b with ram := r }) := by
  induction k generalizing w i with
  | zero => exact ⟨_, congrArg (Prod.mk ()) (w.setNic_eq_self b).symm⟩
  | succ k ih =>
      have hv := packLong_world w buf len i [0, 1, 2, 3] 0
      generalize hrun : run exec (packLong buf len i [0, 1, 2, 3] 0) w = r at hv
      obtain ⟨m, hm⟩ := ih (w.setNic b ((w.nic b).writel (offset + 4 * i) r.1)) (i + 1)
      refine ⟨m, ?_⟩
      rw [writeLongs, run_bind, hrun, hv, run_bind, run_writel, hm]
      simp [Nic.writel]

theorem hydraRamWrite_ram (buf : List Byte) (len page : ℤ) :
    ∃ r, run exec (hydraRamWrite b buf len page) w =
      ((), w.setNic b { w.nic b with ram := r }) := by
  rw [hydraRamWrite, hydraRamWriteOffset, run_ite]
  split_ifs
  · exact ⟨_, congrArg (Prod.mk ()) (w.setNic_eq_self b).symm⟩
  · exact writeLongs_ram w b buf len _ _ 0

/-- A frame that fits one transmission, written to page 0, reads back as it was. -/
theorem hydraRamWrite_frame {tmp : List Byte} (hl : tmp.length ≤ 1514) :
    ∃ r, run exec (hydraRamWrite b tmp tmp.length 0) w =
        ((), w.setNic b { w.nic b with ram := r }) ∧
      { w.nic b with ram := r }.bytes 0 tmp.length = tmp := by
  have hwrite : run exec (hydraRamWrite b tmp tmp.length 0) w =
      ((), w.setNic b ((w.nic b).fill 0
        ((List.range (4 * ((tmp.length + 3) / 4))).map (padByte w tmp tmp.length)))) :=
    hydraRamWriteOffset_run w b (by omega : 0 + 4 * ((tmp.length + 3) / 4) ≤ 0x4000)
  refine ⟨_, hwrite, ?_⟩
  have hlen : tmp.length ≤
      ((List.range (4 * ((tmp.length + 3) / 4))).map (padByte w tmp tmp.length)).length := by
    rw [List.length_map, List.length_range]
    omega
  have hbytes := (w.nic b).bytes_fill 0 hlen
  rwa [map_padByte_take _ (by omega) le_rfl, List.take_length] at hbytes

/-- Starting the transmitter puts one frame on the wire: the one loaded, if it
was loaded on page 0 and fits. -/
theorem startTransmit_run (tmp : List Byte) (page : ℤ) :
    ∃ n frame, n.txp = true ∧ n.page = 0 ∧ n.isr = (w.nic b).isr ∧
      n.sent = (w.nic b).sent ++ [frame] ∧
      (page = 0 → tmp.length ≤ 1514 → frame = tmp) ∧
      run exec (startTransmit b tmp page) w = ((), w.setNic b n) := by
  obtain ⟨r, hr, hframe⟩ : ∃ r, run exec (hydraRamWrite b tmp tmp.length page) w =
      ((), w.setNic b { w.nic b with ram := r }) ∧ (page = 0 → tmp.length ≤ 1514 →
        { w.nic b with ram := r }.bytes 0 tmp.length = tmp) := by
    by_cases h : page = 0 ∧ tmp.length ≤ 1514
    · obtain ⟨rfl, hl⟩ := h
      obtain ⟨r, hr, hb⟩ := hydraRamWrite_frame w b hl
      exact ⟨r, hr, fun _ _ => hb⟩
    · obtain ⟨r, hr⟩ := hydraRamWrite_ram w b tmp tmp.length page
      exact ⟨r, hr, fun h₁ h₂ => absurd ⟨h₁, h₂⟩ h⟩
  have hcount : tmp.length ≤ 1514 →
      tmp.length >>> 8 % 256 * 256 + tmp.length % 256 = tmp.length := fun h => by
    rw [Nat.shiftRight_eq_div_pow]
    omega
  refine ⟨_, Nic.txFrame { w.nic b with
    ram := r, tpsr := BitVec.ofInt 8 page, tbcnt0 := BitVec.ofNat 8 tmp.length
    tbcnt1 := BitVec.ofNat 8 (tmp.length >>> 8) }, ?_, ?_, ?_, ?_, fun hp hl => ?_, by
      simp [startTransmit, hr, Nic.page]
      rfl⟩
  · simp [Nic.outb, Nic.command]
  · simp [Nic.outb, Nic.command, Nic.page]
  · simp [Nic.outb, Nic.command]
  · simp [Nic.outb, Nic.command, Nic.txFrame, Nic.bytes]
  · rw [Nic.txFrame, hp]
    simp only [BitVec.toNat_ofNat, BitVec.ofInt_ofNat, Nat.reducePow, Nat.zero_mod, Nat.zero_mul,
      hcount hl]
    exact hframe hp hl

/-- A busy transmitter refuses the message. -/
theorem hydraxmit_busy {q : QId} {s : Slot} (mp : Msg) (hq : w.wptr q = some s)
    (hb : (w.drv.slot s).boardIndex = b) (ht : (w.nic b).txp = true) :
    run exec (hydraxmit q mp) w = (false, w.setNic b { w.nic b with cmd := 0x22#8 }) := by
  simp [hydraxmit, hq, hb, Nic.inb, ht]

/-- An idle transmitter is started with the frame of the message. -/
theorem hydraxmit_idle {q : QId} {s : Slot} (mp : Msg) (hq : w.wptr q = some s)
    (hb : (w.drv.slot s).boardIndex = b) (ht : (w.nic b).txp = false) :
    ∃ d n frame, w.drv.CountersOnly d ∧ n.txp = true ∧ n.page = 0 ∧ n.isr = (w.nic b).isr ∧
      n.sent = (w.nic b).sent ++ [frame] ∧
      ((w.drv.board b).info.txStartPage = 0 →
        frame = w.xmitFrame (w.drv.slot s) (w.drv.board b).info.paddress mp) ∧
      run exec (hydraxmit q mp) w = (true, (w.setDrv d).setNic b n) := by
  have hcr : (w.nic b).outb NE_CR (NE_CR_P0 ||| NE_CR_STA ||| NE_CR_RDMA_ABORT) =
      { w.nic b with cmd := 0x22#8 } := Nic.outb_command _ (by decide)
  have htxp : ¬ ({ w.nic b with cmd := 0x22#8 } : Nic).inb NE_CR &&& NE_CR_TXP ≠ 0 := by
    simp [Nic.inb, ht]
  obtain ⟨d, hd, hframe⟩ := buildFrame_run (w.setNic b { w.nic b with cmd := 0x22#8 })
    (w.drv.slot s) (w.drv.board b).info.paddress mp
  have hx : (w.setNic b { w.nic b with cmd := 0x22#8 }).xmitFrame (w.drv.slot s)
      (w.drv.board b).info.paddress mp =
      w.xmitFrame (w.drv.slot s) (w.drv.board b).info.paddress mp := rfl
  have hl := w.xmitFrame_length (w.drv.slot s) (w.drv.board b).info.paddress mp
  rw [hx] at hframe
  generalize w.xmitFrame (w.drv.slot s) (w.drv.board b).info.paddress mp = tmp at hframe hl ⊢
  obtain ⟨n, frame, ht', hpage, hisr, hsent, hsame, hstart⟩ := startTransmit_run
    ((w.setDrv d).setNic b { w.nic b with cmd := 0x22#8 }) b tmp (w.drv.board b).info.txStartPage
  rw [World.setNic_self] at hisr hsent
  refine ⟨_, n, frame, ?_, ht', hpage, hisr, hsent, fun hp => hsame hp hl.2, by
    simp only [hydraxmit, run_bind, run_wrPtr, hq, run_load, hb, hydraOutb_run, hcr, hydraInb_run,
      World.setNic_self, if_neg htxp, hframe, run_freemsg, World.setDrv_setNic, hstart]
    simp
    rfl⟩
  exact hd.trans (.modifyBoard _ b rfl rfl rfl)

end
end HydraAmix.Hydra
