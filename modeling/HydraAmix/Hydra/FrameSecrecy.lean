import HydraAmix.Hydra.MessageBounds

/-!
# What a frame tells of the kernel's memory

`hydraxmit` builds the frame in the automatic array `tmp`. A message of less than 50
bytes leaves the end of the 64 bytes unwritten, and they are sent as they are; an
address that does not lie in the message is read from the memory around it. The chip
depends on nothing but the message, the board's address and the stream's SAP exactly
where neither happens.
-/
namespace HydraAmix.Hydra
open Word Program Prog

/-- The chip after the frame in `tmp` has been loaded and the transmitter started. -/
def Nic.transmit (n : Nic) (tmp : List Byte) : Nic :=
  (((((n.fill 0 (tmp ++ List.replicate (4 * ((tmp.length + 3) / 4) - tmp.length) 0)).outb NE_CR
    (NE_CR_P0 ||| NE_CR_STA ||| NE_CR_RDMA_ABORT)).outb NE_TPSR 0).outb NE_TBCNT0
      (BitVec.ofNat 8 tmp.length)).outb NE_TBCNT1 (BitVec.ofNat 8 (tmp.length >>> 8))).outb NE_CR
        (NE_CR_P0 ||| NE_CR_TXP ||| NE_CR_STA ||| NE_CR_RDMA_ABORT)

namespace World

/-- The same world but for what `tmp` holds and what lies around the messages. -/
def withMemory (w : World) (auto : ℕ → Byte) (stray : ℤ → Byte) : World :=
  { w with auto := auto, stray := stray }

/-- The chip of a stream's board after a message. -/
def chipAfter (w : World) (q : QId) (s : Slot) (mp : Msg) : Nic :=
  (run exec (hydraxmit q mp) w).2.nic (w.drv.slot s).boardIndex

/-- The header and the data of the frame that a stream sends. -/
def head (w : World) (s : Slot) (mp : Msg) : List Byte :=
  w.xmitHead (w.drv.slot s) (w.drv.board (w.drv.slot s).boardIndex).info.paddress mp

/-- The frame is a function of the message, the stream and the board; it is the header,
the data and constant padding; `tmp` and the transmit pages hold it. -/
structure SealsFrame (w : World) (q : QId) (s : Slot) (mp : Msg) : Prop where
  alone : ∀ auto stray, (w.withMemory auto stray).chipAfter q s mp = w.chipAfter q s mp
  layout : ∃ c, (w.chipAfter q s mp).sent = (w.nic (w.drv.slot s).boardIndex).sent ++
    [w.head s mp ++ List.replicate (ETH_MINPACKET - (w.head s mp).length) c]
  tmp : (w.head s mp).length ≤ 1516
  pages : ∀ a, 0x800 ≤ a →
    (w.chipAfter q s mp).ram a = (w.nic (w.drv.slot s).boardIndex).ram a

end World

/-- The six bytes that are taken for the destination lie in the message. -/
def Msg.DestinationInside (mp : Msg) : Prop :=
  12 ≤ mp.block.length ∧ 0 ≤ mp.dl_dest_addr_offset.toInt ∧
    mp.dl_dest_addr_offset.toInt + 6 ≤ mp.block.length

section
variable {w : World} {q : QId} {s : Slot} {mp : Msg}

theorem map_padByte (w : World) (tmp : List Byte) (r : ℕ) :
    (List.range (tmp.length + r)).map (padByte w tmp tmp.length) = tmp ++ List.replicate r 0 := by
  refine List.ext_getElem (by simp) fun i h₁ h₂ => ?_
  rw [List.getElem_map, List.getElem_range, padByte]
  split_ifs with h
  · rw [w.byteAt_of_lt h, List.getElem_append_left h]
  · rw [List.getElem_append_right (by omega), List.getElem_replicate]

theorem startTransmit_transmit (w : World) (b : BoardId) {tmp : List Byte}
    (hl : tmp.length ≤ 1514) :
    run exec (startTransmit b tmp 0) w = ((), w.setNic b ((w.nic b).transmit tmp)) := by
  have hwrite := @hydraRamWriteOffset_run w b tmp tmp.length 0
    (by omega : 0 + 4 * ((tmp.length + 3) / 4) ≤ 0x4000)
  have hround : 4 * ((tmp.length + 3) / 4) =
      tmp.length + (4 * ((tmp.length + 3) / 4) - tmp.length) := by omega
  rw [hround, map_padByte] at hwrite
  have hpage : hydraRamWrite b tmp tmp.length 0 = hydraRamWriteOffset b tmp tmp.length 0 := rfl
  rw [startTransmit, run_bind, hpage, Nat.cast_zero.symm, hwrite]
  simp only [run_bind, hydraOutb_run, World.setNic_self, World.setNic_setNic]
  rfl

/-- The transmitter sends the frame that was loaded. -/
theorem Nic.transmit_sent (n : Nic) {tmp : List Byte} (hl : tmp.length ≤ 1514) :
    (n.transmit tmp).sent = n.sent ++ [tmp] := by
  have hcount : tmp.length >>> 8 % 256 * 256 + tmp.length % 256 = tmp.length := by
    rw [Nat.shiftRight_eq_div_pow]
    omega
  have hbytes := n.bytes_fill 0 (show tmp.length ≤
    (tmp ++ List.replicate (4 * ((tmp.length + 3) / 4) - tmp.length) 0).length by simp)
  rw [List.take_left] at hbytes
  have hsent : (n.fill 0 (tmp ++ List.replicate (4 * ((tmp.length + 3) / 4) -
    tmp.length) 0)).sent = n.sent := rfl
  rw [Nic.transmit]
  generalize n.fill 0 _ = m at hbytes hsent
  simp only [Nic.outb, Nic.command, Nic.page, Nic.txFrame]
  simp [hcount, hsent]
  exact hbytes

theorem Nic.transmit_ram (n : Nic) {tmp : List Byte} (hl : tmp.length ≤ 1514) {a : ℕ}
    (ha : 0x800 ≤ a) : (n.transmit tmp).ram a = n.ram a := by
  have hfill : (n.fill 0 (tmp ++ List.replicate (4 * ((tmp.length + 3) / 4) - tmp.length) 0)).ram a
      = n.ram a := by
    rw [Nic.fill]
    exact if_neg (by simp; omega)
  rw [Nic.transmit]
  generalize n.fill 0 _ = m at hfill
  simp [Nic.outb, Nic.command, Nic.page, hfill]

/-- The frame of a message, loaded and started. -/
theorem World.chipAfter_eq (hq : w.wptr q = some s)
    (ht : (w.nic (w.drv.slot s).boardIndex).txp = false)
    (hp : (w.drv.board (w.drv.slot s).boardIndex).info.txStartPage = 0) :
    w.chipAfter q s mp = ({ w.nic (w.drv.slot s).boardIndex with cmd := 0x22#8 } : Nic).transmit
      (w.xmitFrame (w.drv.slot s) (w.drv.board (w.drv.slot s).boardIndex).info.paddress mp) := by
  rw [World.chipAfter]
  generalize hb : (w.drv.slot s).boardIndex = b at ht hp
  have hcr : (w.nic b).outb NE_CR (NE_CR_P0 ||| NE_CR_STA ||| NE_CR_RDMA_ABORT) =
      { w.nic b with cmd := 0x22#8 } := Nic.outb_command _ (by decide)
  have htxp : ¬ ({ w.nic b with cmd := 0x22#8 } : Nic).inb NE_CR &&& NE_CR_TXP ≠ 0 := by
    simp [Nic.inb, ht]
  obtain ⟨d, hd, hframe⟩ := buildFrame_run (w.setNic b { w.nic b with cmd := 0x22#8 })
    (w.drv.slot s) (w.drv.board b).info.paddress mp
  have hx : (w.setNic b { w.nic b with cmd := 0x22#8 }).xmitFrame (w.drv.slot s)
      (w.drv.board b).info.paddress mp =
      w.xmitFrame (w.drv.slot s) (w.drv.board b).info.paddress mp := rfl
  have hl := w.xmitFrame_length (w.drv.slot s) (w.drv.board b).info.paddress mp
  rw [hx] at hframe
  generalize w.xmitFrame (w.drv.slot s) (w.drv.board b).info.paddress mp = tmp at hframe hl ⊢
  have hstart := startTransmit_transmit ((w.setDrv d).setNic b { w.nic b with cmd := 0x22#8 }) b
    hl.2
  rw [World.setNic_self, World.setNic_setNic] at hstart
  simp only [hydraxmit, run_bind, run_wrPtr, hq, run_load, hb, hydraOutb_run, hcr, hydraInb_run,
    World.setNic_self, if_neg htxp, hframe, run_freemsg, World.setDrv_setNic, hp, hstart,
    run_pure, modifyStatus_run, modifyIfstats_run, World.setNic_self]

theorem World.xmitFrame_eq (w : World) (s : Slot) (mp : Msg) :
    w.xmitFrame (w.drv.slot s) (w.drv.board (w.drv.slot s).boardIndex).info.paddress mp =
      w.head s mp ++ padding w.auto (w.head s mp).length := rfl

theorem World.head_length (w : World) (s : Slot) (mp : Msg) :
    (w.head s mp).length = ETH_HEADER_SIZE + min ETH_MAXDATA mp.cont.flatten.length := by
  simp only [World.head, World.xmitHead, List.length_append, List.length_map, List.length_range,
    Vector.length_toList, List.length_cons, List.length_nil, List.length_take]

/-- Where the transmitter is idle, the chips agree where the frames do. -/
theorem World.chipAfter_withMemory (hq : w.wptr q = some s)
    (ht : (w.nic (w.drv.slot s).boardIndex).txp = false)
    (hp : (w.drv.board (w.drv.slot s).boardIndex).info.txStartPage = 0)
    (auto auto' : ℕ → Byte) (stray stray' : ℤ → Byte) :
    (w.withMemory auto stray).chipAfter q s mp = (w.withMemory auto' stray').chipAfter q s mp ↔
      (w.withMemory auto stray).head s mp ++ padding auto ((w.withMemory auto stray).head s
        mp).length = (w.withMemory auto' stray').head s mp ++ padding auto'
          ((w.withMemory auto' stray').head s mp).length := by
  have hchip : ∀ auto stray, (w.withMemory auto stray).chipAfter q s mp =
      ({ w.nic (w.drv.slot s).boardIndex with cmd := 0x22#8 } : Nic).transmit
        ((w.withMemory auto stray).head s mp ++ padding auto
          ((w.withMemory auto stray).head s mp).length) := fun auto stray =>
    World.chipAfter_eq (w := w.withMemory auto stray) hq ht hp
  have hl : ∀ auto stray, ((w.withMemory auto stray).head s mp ++ padding auto
      ((w.withMemory auto stray).head s mp).length).length ≤ 1514 := fun auto stray =>
    ((w.withMemory auto stray).xmitFrame_length (w.drv.slot s)
      (w.drv.board (w.drv.slot s).boardIndex).info.paddress mp).2
  rw [hchip, hchip]
  constructor
  · intro h
    have hsent := congrArg Nic.sent h
    rw [Nic.transmit_sent _ (hl _ _), Nic.transmit_sent _ (hl _ _)] at hsent
    exact List.head_eq_of_cons_eq (List.append_cancel_left hsent)
  · intro h
    rw [h]

/-! ### What `tmp` holds -/

theorem padding_const (c : Byte) (n : ℕ) :
    padding (fun _ => c) n = List.replicate (ETH_MINPACKET - n) c := by
  rw [padding, List.map_const', List.length_range']

theorem padding_eq_nil (tmp : ℕ → Byte) {n : ℕ} (h : ETH_MINPACKET ≤ n) : padding tmp n = [] := by
  rw [padding, Nat.sub_eq_zero_of_le h]
  rfl

/-- The chip does not depend on `tmp` where the data leave nothing of it to send. -/
theorem World.alone_of_tmp (hq : w.wptr q = some s)
    (ht : (w.nic (w.drv.slot s).boardIndex).txp = false)
    (hp : (w.drv.board (w.drv.slot s).boardIndex).info.txStartPage = 0) :
    (∀ auto, (w.withMemory auto w.stray).chipAfter q s mp = w.chipAfter q s mp) ↔
      ETH_MINDATA ≤ mp.cont.flatten.length := by
  have hsame : ∀ auto, (w.withMemory auto w.stray).head s mp = w.head s mp := fun _ => rfl
  have hlen := w.head_length s mp
  constructor
  · intro h
    by_contra hshort
    have h01 := (h fun _ => 0).trans (h fun _ => 1).symm
    rw [World.chipAfter_withMemory hq ht hp, hsame, hsame, padding_const, padding_const,
      List.append_cancel_left_eq, List.replicate_right_inj] at h01
    · exact absurd h01 (by decide)
    · rw [hlen]
      simp only [ETH_MINPACKET, ETH_HEADER_SIZE, ETH_MINDATA, ETH_MAXDATA] at hshort ⊢
      omega
  · intro hlong auto
    refine (World.chipAfter_withMemory hq ht hp auto w.auto w.stray w.stray).mpr ?_
    rw [hsame, hsame, padding_eq_nil, padding_eq_nil]
    all_goals
      rw [hlen]
      simp only [ETH_MINPACKET, ETH_HEADER_SIZE, ETH_MINDATA, ETH_MAXDATA] at hlong ⊢
      omega

/-! ### What lies around the message -/

/-- The six bytes that are taken for the destination. -/
def World.destination (w : World) (mp : Msg) : List Byte :=
  (List.range 6).map fun k : ℕ => w.byteAt mp.block ((mp.destOffset w).toInt + k)

theorem Msg.destOffset_eq (w : World) (h : 12 ≤ mp.block.length) :
    mp.destOffset w = mp.dl_dest_addr_offset :=
  congrArg Prod.fst (peekLong_field w (show 8 + 3 < mp.block.length by omega))

theorem World.destination_length (w : World) (mp : Msg) : (w.destination mp).length = 6 := by
  rw [World.destination, List.length_map, List.length_range]

theorem World.destination_inside (w : World) (h : mp.DestinationInside) (stray : ℤ → Byte)
    (auto : ℕ → Byte) : (w.withMemory auto stray).destination mp = w.destination mp := by
  obtain ⟨hlen, hlo, hhi⟩ := h
  rw [World.destination, World.destination, Msg.destOffset_eq _ hlen, Msg.destOffset_eq _ hlen]
  obtain ⟨off, hoff⟩ := Int.eq_ofNat_of_zero_le hlo
  rw [hoff] at hhi ⊢
  refine List.map_congr_left fun k hk => ?_
  have hk : off + k < mp.block.length := by
    rw [List.mem_range] at hk
    omega
  rw [← Nat.cast_add, World.byteAt_of_lt _ hk, World.byteAt_of_lt _ hk]

theorem byteAt_outside (w : World) {buf : List Byte} {i : ℤ} (h : ¬(0 ≤ i ∧ i < buf.length)) :
    w.byteAt buf i = w.stray i := by
  unfold World.byteAt
  split_ifs with hi
  · obtain ⟨n, rfl⟩ := Int.eq_ofNat_of_zero_le hi
    rw [Int.toNat_natCast, List.getD_eq_default _ _ (by omega)]
  · rfl

/-- The memory around a message, with the bytes of the offset as a message would have them. -/
def strayOf (c : Byte) (i : ℤ) : Byte := if 8 ≤ i ∧ i < 12 then 0xf0 else c

theorem long_mod (b₃ b₂ b₁ : Byte) : (long b₃ b₂ b₁ 0xf0).toInt % 256 = 0xf0 := by
  have hnat : (long b₃ b₂ b₁ 0xf0).toNat % 256 = 0xf0 := by
    rw [long, BitVec.toNat_append]
    change ((b₃ ++ b₂ ++ b₁).toNat <<< 8 ||| 0xf0) % 2 ^ 8 = _
    rw [Nat.or_mod_two_pow, Nat.shiftLeft_eq, Nat.mul_mod_left, Nat.zero_or]
  generalize long b₃ b₂ b₁ 0xf0 = v at hnat
  rw [BitVec.toInt_eq_toNat_cond]
  split_ifs
  · omega
  · push_cast
    omega

/-- An address outside the message is read from the memory around it. -/
theorem exists_outside (w : World) (h : ¬mp.DestinationInside) : ∃ k < 6, ∀ c auto,
    (w.withMemory auto (strayOf c)).byteAt mp.block
      ((mp.destOffset (w.withMemory auto (strayOf c))).toInt + (k : ℕ)) = c := by
  by_cases hlen : 12 ≤ mp.block.length
  · have hout : ∃ k < 6, ¬(0 ≤ mp.dl_dest_addr_offset.toInt + (k : ℕ) ∧
        mp.dl_dest_addr_offset.toInt + (k : ℕ) < mp.block.length) := by
      by_cases hlo : 0 ≤ mp.dl_dest_addr_offset.toInt
      · refine ⟨5, by decide, fun hc => h ⟨hlen, hlo, ?_⟩⟩
        push_cast at hc
        omega
      · exact ⟨0, by decide, by push_cast; omega⟩
    obtain ⟨k, hk, hout⟩ := hout
    refine ⟨k, hk, fun c auto => ?_⟩
    rw [Msg.destOffset_eq _ hlen, byteAt_outside _ hout]
    exact if_neg (by omega)
  · -- the offset itself is not in the message, and is made to point far from it
    refine ⟨0, by decide, fun c auto => ?_⟩
    have hlast : (w.withMemory auto (strayOf c)).byteAt mp.block 11 = 0xf0 :=
      byteAt_outside _ (by omega)
    have hmod : (mp.destOffset (w.withMemory auto (strayOf c))).toInt % 256 = 0xf0 := by
      rw [Msg.destOffset, hlast]
      exact long_mod _ _ _
    rw [Nat.cast_zero, add_zero, byteAt_outside _ (by omega)]
    exact if_neg (by omega)

/-- The destination is the same whatever lies around the message where it lies in it. -/
theorem destination_alone_iff (w : World) (mp : Msg) :
    (∀ auto stray, (w.withMemory auto stray).destination mp = w.destination mp) ↔
      mp.DestinationInside := by
  refine ⟨fun h => ?_, fun h auto stray => World.destination_inside w h stray auto⟩
  by_contra hout
  obtain ⟨k, hk, hbyte⟩ := exists_outside w hout
  have h01 := (h w.auto (strayOf 0)).trans (h w.auto (strayOf 1)).symm
  have hget : ∀ c, ((w.withMemory w.auto (strayOf c)).destination mp)[k]? = some c := fun c => by
    rw [World.destination, List.getElem?_map, List.getElem?_range hk, Option.map_some, hbyte]
  have hc := hget 0
  rw [h01, hget 1] at hc
  exact absurd (Option.some.inj hc) (by decide)

/-! ### The frame -/

theorem World.head_eq (w : World) (s : Slot) (mp : Msg) : w.head s mp = w.destination mp ++
    ((w.drv.board (w.drv.slot s).boardIndex).info.paddress.toList ++
      [((w.drv.slot s).sap >>> 8).setWidth 8, (w.drv.slot s).sap.setWidth 8] ++
        mp.cont.flatten.take ETH_MAXDATA) := by
  simp only [World.head, World.xmitHead, World.destination, List.append_assoc]

/-- A frame tells of nothing but its message, its stream and its board if and only if the
data leave no padding to send and the destination lies in the message. The contents of
`tmp` alone are kept exactly by data of 50 bytes or more. -/
theorem hydraxmit_seals_frame (w : World) (q : QId) (s : Slot) (mp : Msg)
    (hq : w.wptr q = some s) (ht : (w.nic (w.drv.slot s).boardIndex).txp = false)
    (hp : (w.drv.board (w.drv.slot s).boardIndex).info.txStartPage = 0) :
    (w.SealsFrame q s mp ↔ ETH_MINDATA ≤ mp.cont.flatten.length ∧ mp.DestinationInside) ∧
    ((∀ auto, (w.withMemory auto w.stray).chipAfter q s mp = w.chipAfter q s mp) ↔
      ETH_MINDATA ≤ mp.cont.flatten.length) := by
  have htmp := @World.alone_of_tmp w q s mp hq ht hp
  have hlen := w.head_length s mp
  refine ⟨⟨fun h => ?_, fun ⟨hlong, hin⟩ => ?_⟩, htmp⟩
  · refine ⟨htmp.mp fun auto => h.alone auto w.stray, (destination_alone_iff w mp).mp ?_⟩
    intro auto stray
    have hframe := (World.chipAfter_withMemory hq ht hp auto w.auto stray w.stray).mp
      (h.alone auto stray)
    simp only [World.head_eq, List.append_assoc] at hframe
    refine (List.append_inj hframe ?_).1
    rw [World.destination_length, World.destination_length]
  · have hpad : ∀ auto, padding auto (w.head s mp).length = [] := fun auto =>
      padding_eq_nil auto (by
        rw [hlen]
        simp only [ETH_MINPACKET, ETH_HEADER_SIZE, ETH_MINDATA, ETH_MAXDATA] at hlong ⊢
        omega)
    have hhead : ∀ auto stray, (w.withMemory auto stray).head s mp = w.head s mp :=
      fun auto stray => by
        rw [World.head_eq, World.head_eq, World.destination_inside w hin stray auto]
        rfl
    have hchip := @World.chipAfter_eq w q s mp hq ht hp
    have hl := w.xmitFrame_length (w.drv.slot s)
      (w.drv.board (w.drv.slot s).boardIndex).info.paddress mp
    refine ⟨fun auto stray => ?_, ⟨0, ?_⟩, ?_, fun a ha => ?_⟩
    · refine (World.chipAfter_withMemory hq ht hp auto w.auto stray w.stray).mpr ?_
      rw [hhead, hhead, hpad, hpad]
    · rw [hchip, Nic.transmit_sent _ hl.2, World.xmitFrame_eq, ← padding_const, hpad, hpad]
    · rw [hlen]
      simp only [ETH_HEADER_SIZE, ETH_MAXDATA]
      omega
    · rw [hchip, Nic.transmit_ram _ hl.2 ha]

end

/-! ### Two messages -/

/-- A message of `n` zero bytes to the address behind the request. -/
def zeros (n : ℕ) : Msg :=
  ⟨[0, 0, 0, 7, 0, 0, 0, 6, 0, 0, 0, 20] ++ List.replicate 14 0, [List.replicate n 0]⟩

/-- A stream at a slot of an idle board. -/
def World.idleStream (t : Slot) : World :=
  { World.off with
    drv := World.off.drv.modifyBoard t.board fun bd =>
      { bd with hydra := Function.update bd.hydra t.dev ⟨some 1, .DL_IDLE, t.board, 0, 0x0800⟩ }
    rptr := Function.update (fun _ => none) 1 (some t)
    wptr := Function.update (fun _ => none) 1 (some t) }

/-- A message of 50 bytes tells of nothing else. -/
theorem hydraxmit_seals_frame_min :
    (World.idleStream ⟨0, 0⟩).SealsFrame 1 ⟨0, 0⟩ (zeros 50) :=
  (hydraxmit_seals_frame (World.idleStream ⟨0, 0⟩) 1 ⟨0, 0⟩ (zeros 50) rfl rfl rfl).1.mpr
    ⟨by decide, by decide, by decide, by decide⟩

/-- A message of one byte is sent with 49 bytes of `tmp`. -/
theorem hydraxmit_seals_frame_fails : ¬ ∀ (w : World) (q : QId) (s : Slot) (mp : Msg),
    w.wptr q = some s → (w.nic (w.drv.slot s).boardIndex).txp = false →
      (w.drv.board (w.drv.slot s).boardIndex).info.txStartPage = 0 → w.SealsFrame q s mp := by
  intro h
  have hseal := h (World.idleStream ⟨0, 0⟩) 1 ⟨0, 0⟩ (zeros 1) rfl rfl rfl
  have hlong := (World.alone_of_tmp (w := World.idleStream ⟨0, 0⟩) rfl rfl rfl).mp fun auto =>
    hseal.alone auto _
  exact absurd hlong (by decide)

end HydraAmix.Hydra
