import HydraAmix.Hydra.Receive

/-!
# What a pass of the receive loop does

With `next_pkt` a ring page, a pass is determined by the page's four header
bytes: `received`, `nextPkt` and `boundary` say what it hands up and where it
leaves `next_pkt` and BNRY, and `receiveFrame_run` says that the program
computes exactly these. Handing a packet up afterwards touches neither the
chip nor the ring's variables.
-/
namespace HydraAmix.Hydra
open Word Program Prog

/-- A packet of `len` bytes behind the header on a ring page. -/
def Nic.packet (n : Nic) (page len : ℕ) : List Byte :=
  Ring.fetch 0x800 0x3800 n.ram ((page - 8) * 256 + 4) len

/-- The next page and the size of the packet on a ring page, header included. -/
def Nic.nextPage (n : Nic) (page : ℕ) : ℕ := (n.ram (page * 256)).toNat
def Nic.status (n : Nic) (page : ℕ) : Byte := n.ram (page * 256 + 1)
def Nic.size (n : Nic) (page : ℕ) : ℕ :=
  (n.ram (page * 256 + 3)).toNat * 256 + (n.ram (page * 256 + 2)).toNat

/-- What a pass finds on the page `next_pkt`. -/
def Nic.received (n : Nic) (page : ℕ) : Received :=
  if page = n.curr.toNat then .done
  else if n.nextPage page < 8 ∨ 64 ≤ n.nextPage page then .done
  else if n.status page &&& NE_RSR_PRX = 0 then .again
  else if n.size page < 64 ∨ 1522 < n.size page then .again
  else .packet (n.packet page (n.size page - 4))

/-- `next_pkt` after a pass. -/
def Nic.nextPkt (n : Nic) (page : ℕ) : ℕ :=
  if page = n.curr.toNat then page
  else if n.nextPage page < 8 ∨ 64 ≤ n.nextPage page then 8
  else n.nextPage page

/-- BNRY after a pass. -/
def Nic.boundary (n : Nic) (page : ℕ) : Byte :=
  if page = n.curr.toNat then n.bnry
  else if n.nextPage page < 8 ∨ 64 ≤ n.nextPage page then 0x08#8
  else BitVec.ofInt 8 (boundaryBefore (n.nextPage page))

/-! ### The header -/

section
variable (n : Nic) (page : ℕ)

theorem Nic.header_getD {i : ℕ} (hi : i < 4) :
    (n.bytes (page * 256) 4).getD i 0 = n.ram (page * 256 + i) := by
  simp [Nic.bytes, hi]

theorem Nic.header_nextPage :
    (((n.bytes (page * 256) 4).getD 0 0).toNat : ℤ) = n.nextPage page := by
  rw [n.header_getD page (by decide), Nat.add_zero, Nic.nextPage]

theorem Nic.header_status : (n.bytes (page * 256) 4).getD 1 0 = n.status page :=
  n.header_getD page (by decide)

theorem Nic.header_size : (((n.bytes (page * 256) 4).getD 3 0).toNat : ℤ) * 256 +
    (((n.bytes (page * 256) 4).getD 2 0).toNat : ℤ) = n.size page := by
  rw [n.header_getD page (by decide), n.header_getD page (by decide), Nic.size]
  push_cast
  rfl

end

section
variable (w : World) (b : BoardId)

theorem copyPacket_run {info : HydraInfo} {page len : ℕ} (hn : info.nextPkt = page)
    (hs : info.rxStartPage = 8) (hp : 8 ≤ page ∧ page < 64) (hl : len ≤ 1518) :
    run exec (copyPacket b info len) w = ((w.nic b).packet page len, w) := by
  have ho : info.nextPkt * 256 + 4 = ((page * 256 + 4 : ℕ) : ℤ) := by rw [hn]; push_cast; rfl
  have hstop : NE8390_STOP_PG * 256 = ((0x4000 : ℕ) : ℤ) := rfl
  simp only [copyPacket, ho, hstop, hs]
  by_cases hw : page * 256 + 4 + len ≤ 0x4000
  · rw [if_neg (by omega), hydraRamReadOffset_run _ _ _ (by omega)]
    simp only [Nic.bytes, Nic.packet, Ring.fetch, Ring.cell]
    refine congrArg (Prod.mk · w) (List.map_congr_left fun i hi => ?_)
    rw [List.mem_range] at hi
    exact congrArg (w.nic b).ram (by omega)
  · obtain ⟨semi, hsemi⟩ : ∃ semi, page * 256 + 4 + semi = 0x4000 :=
      ⟨0x4000 - (page * 256 + 4), by omega⟩
    obtain ⟨rest, rfl⟩ : ∃ rest, len = semi + rest := ⟨len - semi, by omega⟩
    have h₁ : ((0x4000 : ℕ) : ℤ) - ((page * 256 + 4 : ℕ) : ℤ) = (semi : ℕ) := by omega
    have h₂ : ((semi + rest : ℕ) : ℤ) - (semi : ℕ) = (rest : ℕ) := by omega
    have h₃ : (8 : ℤ) * 256 = ((0x800 : ℕ) : ℤ) := rfl
    rw [if_pos (by omega), h₁, h₂, h₃]
    simp only [run_bind, run_pure]
    rw [hydraRamReadOffset_run _ _ _ (by omega), hydraRamReadOffset_run _ _ _ (by omega),
      Nic.packet, Ring.fetch_add]
    simp only [Nic.bytes, Ring.fetch, Ring.cell]
    refine congrArg (Prod.mk · w) (congrArg₂ (· ++ ·) (List.map_congr_left fun i hi => ?_)
      (List.map_congr_left fun i hi => ?_))
    all_goals
      rw [List.mem_range] at hi
      exact congrArg (w.nic b).ram (by omega)

theorem receiveHeader_run {info : HydraInfo} {page : ℕ} {d₀ : Driver} {n : Nic}
    (hpage : n.page = 0) (hn : info.nextPkt = page) (hs : info.rxStartPage = 8)
    (hp : 8 ≤ page ∧ page < 64) (hc : page ≠ n.curr.toNat) :
    ∃ d, (d₀.modifyBoard b fun bd => { bd with
        info := { bd.info with nextPkt := n.nextPkt page } }).CountersOnly d ∧
      run exec (receiveHeader b info (n.bytes (page * 256) 4)) ((w.setDrv d₀).setNic b n) =
        (n.received page, (w.setDrv d).setNic b { n with bnry := n.boundary page }) := by
  have hnext := n.header_nextPage page
  have hstatus := n.header_status page
  have hsize := n.header_size page
  unfold receiveHeader
  simp only [hnext, hstatus, hsize, run_bind, modifyStatus_run, moveTo, NE8390_RX_START_PG,
    NE8390_START_PG, NE8390_TX_PAGES, NE8390_STOP_PG, ETH_MINFRAME, ETH_MINPACKET, MAX_BUFFER_LENGTH]
  by_cases h₁ : n.nextPage page < 8 ∨ 64 ≤ n.nextPage page
  · have hr : n.received page = .done := by rw [Nic.received, if_neg hc, if_pos h₁]
    have hx : n.nextPkt page = 8 := by rw [Nic.nextPkt, if_neg hc, if_pos h₁]
    have hbd : n.boundary page = 0x08#8 := by rw [Nic.boundary, if_neg hc, if_pos h₁]
    rw [if_pos (by omega), hr, hx, hbd]
    exact ⟨_, Driver.countersOnly_modifyBoard _ _ rfl rfl rfl, by simp [hpage]; rfl⟩
  have hx : n.nextPkt page = n.nextPage page := by rw [Nic.nextPkt, if_neg hc, if_neg h₁]
  have hbd : n.boundary page = BitVec.ofInt 8 (boundaryBefore (n.nextPage page)) := by
    rw [Nic.boundary, if_neg hc, if_neg h₁]
  rw [if_neg (by omega), hx, hbd]
  by_cases h₂ : n.status page &&& NE_RSR_PRX = 0
  · have hr : n.received page = .again := by
      rw [Nic.received, if_neg hc, if_neg h₁, if_pos h₂]
    rw [if_pos h₂, hr]
    exact ⟨_, Driver.countersOnly_modifyBoard _ _ rfl rfl rfl, by simp [hpage]; rfl⟩
  rw [if_neg h₂]
  by_cases h₃ : n.size page < 64 ∨ 1522 < n.size page
  · have hr : n.received page = .again := by
      rw [Nic.received, if_neg hc, if_neg h₁, if_neg h₂, if_pos h₃]
    rw [if_pos (by simp; omega), hr]
    exact ⟨_, Driver.countersOnly_modifyBoard _ _ rfl rfl rfl, by simp [hpage]; rfl⟩
  have hr : n.received page = .packet (n.packet page (n.size page - 4)) := by
    rw [Nic.received, if_neg hc, if_neg h₁, if_neg h₂, if_neg h₃]
  have hlen : (n.size page : ℤ) - 4 = (n.size page - 4 : ℕ) := by omega
  have hcopy := fun w => copyPacket_run w b hn hs hp (by omega : n.size page - 4 ≤ 1518)
  rw [if_neg (by simp; omega), hr]
  simp only [hlen, run_bind, hcopy]
  exact ⟨_, Driver.countersOnly_modifyBoard _ _ rfl rfl rfl, by simp [hpage]; rfl⟩

theorem readHeader_run {page : ℕ} (hp : page < 64) :
    run exec (hydraRamRead b 4 4 page) w = ((w.nic b).bytes (page * 256) 4, w) := by
  have hint : int32 ((page : ℤ) * 256) = ((page * 256 : ℕ) : ℤ) := by
    rw [int32_of_range (by omega) (by omega)]
    push_cast
    rfl
  rw [hydraRamRead, hint]
  exact hydraRamReadOffset_run w b 4 (by omega : page * 256 + 4 * ((4 + 3) / 4) ≤ 0x4000)

theorem receiveFrame_run {page : ℕ} (hn : (w.drv.board b).info.nextPkt = page)
    (hs : (w.drv.board b).info.rxStartPage = 8) (hp : 8 ≤ page ∧ page < 64) :
    ∃ d, (w.drv.modifyBoard b fun bd => { bd with
        info := { bd.info with nextPkt := (w.nic b).nextPkt page } }).CountersOnly d ∧
      run exec (receiveFrame b) w = ((w.nic b).received page,
        (w.setDrv d).setNic b { w.nic b with cmd := 0x22#8, bnry := (w.nic b).boundary page }) := by
  have hread := fun w => readHeader_run w b hp.2
  by_cases hc : page = (w.nic b).curr.toNat
  · have hr : (w.nic b).received page = .done := by rw [Nic.received, if_pos hc]
    have hx : (w.nic b).nextPkt page = page := by rw [Nic.nextPkt, if_pos hc]
    have hbd : (w.nic b).boundary page = (w.nic b).bnry := by rw [Nic.boundary, if_pos hc]
    rw [hr, hx, hbd]
    refine ⟨_, ?_, by simp [receiveFrame, Nic.page, hn, hc]; rfl⟩
    exact Driver.countersOnly_modifyBoard _ _ rfl (by simp [← hn]) rfl
  · simp only [receiveFrame, run_bind, hydraOutb_run, hydraInb_run]
    simp [Nic.page, hn, hc, hread]
    obtain ⟨d, hd, hrun⟩ := receiveHeader_run w b
      (n := { w.nic b with cmd := 0x22#8 }) (by simp [Nic.page]) hn hs hp hc
    refine ⟨d, ?_, hrun⟩
    rw [Driver.modifyBoard_modifyBoard] at hd
    refine .trans ?_ hd
    exact Driver.countersOnly_modifyBoard _ _ rfl rfl rfl

end

/-! ### Handing a packet up changes only statistics -/

/-- The operations of `toss_packet_up_stream`. -/
def Op.Reports : (β : Type) → Op β → Prop
  | _, .peek _ _ => True
  | _, .load => True
  | _, .store f => ∀ d : Driver, d.CountersOnly (f d)
  | _, .allocb _ => True
  | _, .canput _ => True
  | _, .freemsg _ => True
  | _, .putnext _ _ => True
  | _, _ => False

theorem modifyStatus_all (b : BoardId) {f : HydraStatus → HydraStatus}
    (h : ∀ s, (f s).boardState = s.boardState) : All Op.Reports (modifyStatus b f) :=
  ⟨fun d => .modifyBoard d b rfl rfl (h _), fun _ => trivial⟩

theorem peeks_all (buf : List Byte) (i : ℤ) (n : ℕ) : All Op.Reports (peeks buf i n) := by
  induction n generalizing i with
  | zero => trivial
  | succ n ih => exact .bind (.perform trivial) fun x => .bind (ih _) fun xs => trivial

theorem tossRaw_all (b : BoardId) (packet : List Byte) (q : QId) :
    All Op.Reports (tossRaw b packet q) := by
  unfold tossRaw
  refine .bind (.perform trivial) fun _ => .ite ?_ (modifyStatus_all b fun _ => rfl)
  refine .bind (.perform trivial) fun _ => .ite ?_ (modifyStatus_all b fun _ => rfl)
  refine .bind (.perform trivial) fun _ => .ite ?_ ?_
  · refine .bind (.perform trivial) fun d => ?_
    exact .bind (peeks_all _ _ _) fun data => .perform trivial
  · exact .bind (modifyStatus_all b fun _ => rfl) fun _ => .perform trivial

theorem copyPayload_all (packet : List Byte) (length trailn : ℤ) :
    All Op.Reports (copyPayload packet length trailn) := by
  unfold copyPayload
  have hdata : ∀ trailer, All Op.Reports (do
      let data ← peeks packet ETH_HEADER_SIZE length.toNat
      return trailer ++ data) := fun trailer => .bind (peeks_all _ _ _) fun data => trivial
  exact .ite (.bind (peeks_all _ _ _) fun t => hdata t) (hdata [])

theorem tossBound_all (b : BoardId) (packet : List Byte) (sap : BitVec 16) (length trailn : ℤ)
    (q : QId) : All Op.Reports (tossBound b packet sap length trailn q) := by
  unfold tossBound
  refine .bind (peeks_all _ _ _) fun dest => .bind (.perform trivial) fun d => ?_
  refine .ite (modifyStatus_all b fun _ => rfl) ?_
  refine .bind (.perform trivial) fun _ => .ite ?_ (modifyStatus_all b fun _ => rfl)
  refine .bind (.perform trivial) fun _ => .ite ?_ (modifyStatus_all b fun _ => rfl)
  refine .bind (.perform trivial) fun _ => .ite ?_ ?_
  · refine .bind (peeks_all _ _ _) fun src => .bind (copyPayload_all _ _ _) fun data => ?_
    exact .bind (.perform trivial) fun _ => modifyStatus_all b fun _ => rfl
  · exact .bind (modifyStatus_all b fun _ => rfl) fun _ => .perform trivial

theorem tossStreams_all (b : BoardId) (packet : List Byte) (sap : BitVec 16) (length trailn : ℤ)
    (ns : List (Fin HYDRA_MAXDEV)) :
    All Op.Reports (tossStreams b packet sap length trailn ns) := by
  induction ns with
  | nil => trivial
  | cons n ns ih =>
      refine .bind (.perform trivial) fun d => ?_
      dsimp only
      split
      · exact ih
      · refine .ite (.bind (tossRaw_all _ _ _) fun _ => ih) (.ite ?_ ih)
        exact .bind (tossBound_all _ _ _ _ _ _) fun _ => .bind ih fun _ => trivial

theorem packetLengths_all (b : BoardId) (packet : List Byte) (sap : BitVec 16) :
    All Op.Reports (packetLengths b packet sap) := by
  have hshort : ∀ i, All Op.Reports (peekShort packet i) := fun i =>
    .bind (.perform trivial) fun _ => .bind (.perform trivial) fun _ => trivial
  unfold packetLengths
  refine .ite (.bind (hshort _) fun _ => .bind (hshort _) fun _ => ?_) trivial
  exact .bind (modifyStatus_all b fun _ => rfl) fun _ => trivial

theorem tossPacketUpStream_all (b : BoardId) (packet : List Byte) :
    All Op.Reports (tossPacketUpStream b packet) := by
  unfold tossPacketUpStream
  refine .bind (.bind (.perform trivial) fun _ => .bind (.perform trivial) fun _ => trivial)
    fun sap => .bind (modifyStatus_all b fun _ => rfl) fun _ => ?_
  refine .bind (packetLengths_all _ _ _) fun r => .bind (tossStreams_all _ _ _ _ _ _) fun m => ?_
  exact .ite trivial (modifyStatus_all b fun _ => rfl)

theorem Op.Reports.countersOnly {β : Type} (o : Op β) (w : World) (h : Op.Reports β o) :
    w.CountersOnly (exec o w).2 := by
  cases o with
  | store f => exact { World.CountersOnly.refl w with drv := h w.drv }
  | peek | load | allocb | canput | freemsg | putnext => exact { World.CountersOnly.refl w with }
  | _ => exact h.elim

theorem countersOnly_of_reports {α : Type} {p : HydraM α} (h : All Op.Reports p) (w : World) :
    w.CountersOnly (run exec p w).2 :=
  h.run_rel .refl (fun _ _ _ => .trans) (fun _ o w => Op.Reports.countersOnly o w) w

theorem tossPacketUpStream_run (w : World) (b : BoardId) (packet : List Byte) :
    w.CountersOnly (run exec (tossPacketUpStream b packet) w).2 :=
  countersOnly_of_reports (tossPacketUpStream_all b packet) w

end HydraAmix.Hydra
