import HydraAmix.Hydra.BufferRam

/-!
# Board start-up, open and close

`get_ethernet_address`, `hydra_reset`, `setup_ne2000`, `hydra_initialize`,
`hydraopen` and `hydraclose`. `hydraautoconfig` has run before any open
(`hydrainit` calls it at boot and its static flag makes later calls return at
once), so the table of addresses it found is part of the driver's data here
and may be any table.
-/
namespace HydraAmix.Hydra
open Word Program Prog DlState BoardState OpenFlag Errno

/-- The three tests an address from the PROM must pass: not all ones, not all
zeros, not six times the same byte. -/
def validAddress (a : Vector Byte 6) : Bool :=
  !(a.all (· == 0xff)) && !(a.all (· == 0x00)) && !(a.all (· == a[0]))

/-- The loops that read the six bytes of an address. -/
def readSix (rd : ℕ → HydraM Byte) : HydraM (Vector Byte 6) := do
  return #v[← rd 0, ← rd 1, ← rd 2, ← rd 3, ← rd 4, ← rd 5]

def getEthernetAddress (b : BoardId) : HydraM (Vector Byte 6) := do
  hydraOutb b NE_CR (NE_CR_STP ||| NE_CR_NODMA)
  hydraOutb b NE_IMR 0
  hydraOutb b NE_ISR 0xff
  let a ← readSix (readProm b)
  if validAddress a then return a
  else
    hydraOutb b NE_CR (NE_CR_P1 ||| NE_CR_NODMA)
    let a ← readSix fun i => hydraInb b (NE_PAR0 + i)
    hydraOutb b NE_CR NE_CR_NODMA
    return a

/-- A polling loop of `hydra_reset`: it ends early when RST is as wanted. -/
def pollReset (b : BoardId) (want : Bool) : ℕ → HydraM Unit
  | 0 => pure ()
  | n + 1 => do
      let isr ← hydraInb b NE_ISR
      if (isr &&& NE_ISR_RST != 0) = want then pure () else pollReset b want n

def hydraReset (b : BoardId) : HydraM Unit := do
  hydraOutb b NE_CR (NE_CR_P0 ||| NE_CR_STP ||| NE_CR_RDMA_ABORT)
  pollReset b true 100
  hydraOutb b NE_ISR 0xff
  pollReset b false 100

/-- Consecutive registers written from a list. -/
def outbs (b : BoardId) : ℕ → List Byte → HydraM Unit
  | _, [] => pure ()
  | reg, v :: vs => do
      hydraOutb b reg v
      outbs b (reg + 1) vs

/-- The statistics as `setup_ne2000` leaves them. -/
def HydraStatus.start (s : HydraStatus) (nextPkt : ℤ) : HydraStatus :=
  { s with
    boardState := HYDRA_BOARD_RUNNING
    packetsSent := 0, packetsReceived := 0, allocbsFailed := 0, couldntPut := 0
    txErrors := 0, rxErrors := 0, collisions := 0, overflow := 0, crcErrors := 0
    framingErrors := 0, missedPackets := 0, trailers := 0, bufferError := 0
    lateCollisions := 0, lossOfCarrier := 0, retryErrors := 0, rxDelivered := 0
    rxNoSap := 0, rxNotForUs := 0, lastRxSap := 0, lastBoundSap := 0, txArp := 0, txIp := 0
    rxArpDelivered := 0, rxIpDelivered := 0, lastTxSap := 0, rxArpSeen := 0, rxIpSeen := 0
    swNextPkt := nextPkt
    lastRingPage := 0, lastRingNext := 0, lastRingRsr := 0, lastRingSize := 0
    lastCurr := 0, lastBnry := 0, rxBadNext := 0, rxBadRsr := 0, rxBadSize := 0 }

def setupNe2000 (b : BoardId) (ethernetAddress : Vector Byte 6) : HydraM Bool := do
  modifyInfo b fun i => { i with
    paddress := ethernetAddress
    txStartPage := NE8390_START_PG
    rxStartPage := NE8390_RX_START_PG
    stopPage := NE8390_STOP_PG
    nextPkt := NE8390_RX_START_PG + 1 }
  hydraReset b
  hydraOutb b NE_CR (NE_CR_P0 ||| NE_CR_STP ||| NE_CR_RDMA_ABORT)
  hydraOutb b NE_DCR (NE_DCR_WTS ||| NE_DCR_BOS ||| NE_DCR_LS ||| NE_DCR_FT0)
  hydraOutb b NE_RBCNT0 0
  hydraOutb b NE_RBCNT1 0
  let info := ((← load).board b).info
  hydraOutb b NE_PSTART (BitVec.ofInt 8 info.rxStartPage)
  hydraOutb b NE_PSTOP (BitVec.ofInt 8 info.stopPage)
  hydraOutb b NE_BNRY (BitVec.ofInt 8 info.rxStartPage)
  hydraOutb b NE_ISR 0xff
  hydraOutb b NE_CR (NE_CR_P1 ||| NE_CR_STP ||| NE_CR_RDMA_ABORT)
  outbs b NE_PAR0 ethernetAddress.toList
  outbs b NE_MAR0 [0, 0, 0, 0, 0, 0, 0, 0]
  hydraOutb b NE_CURR (BitVec.ofInt 8 (info.rxStartPage + 1))
  hydraOutb b NE_CR (NE_CR_P0 ||| NE_CR_STA ||| NE_CR_RDMA_ABORT)
  hydraOutb b NE_TCR NE_TCR_NORMAL
  hydraOutb b NE_RCR (NE_RCR_AB ||| NE_RCR_AM)
  hydraOutb b NE_IMR (NE_IMR_PRXE ||| NE_IMR_PTXE ||| NE_IMR_RXEE ||| NE_IMR_TXEE |||
    NE_IMR_OVWE ||| NE_IMR_CNTE)
  modifyStatus b fun s => s.start info.nextPkt
  return true

def hydraInitialize (b : BoardId) : HydraM Bool := do
  let base := (← load).autoconfig b
  modifyInfo b fun i => { i with boardBase := base }
  if base = 0 then return false
  else
    modifyInfo b fun i => { i with nicBase := base + NE8390_NIC_OFFSET }
    let paddress ← getEthernetAddress b
    modifyBoard b fun bd => { bd with
      hydra := fun n => { bd.hydra n with q := none, sap := 0, state := DL_UNBOUND } }
    modifyInfo b fun i => { i with paddress := paddress }
    setupNe2000 b paddress

/-- `hydraopen` brings a board up that is not running. -/
def bringUp (b : BoardId) : HydraM Bool := do
  if ((← load).board b).status.boardState = HYDRA_BOARD_RUNNING then return true
  else hydraInitialize b

/-- The first free slot of a board, `HYDRA_MAXDEV` if there is none. -/
def freeSlot (bd : HydraBoard) : ℕ := (List.ofFn bd.hydra).findIdx fun h => h.q.isNone

/-- The minor number of a slot. -/
def makeMinor (sapIndex boardIndex : ℕ) : ℕ := ((sapIndex + 1) <<< 4) ||| boardIndex

/-- The assignments of `hydraopen` once a free slot is found. -/
def takeSlot (q : QId) (s : Slot) : HydraM Unit := do
  setRdPtr q (some s)
  setWrPtr q (some s)
  modifySlot s fun _ => ⟨some q, DL_UNATTACHED, s.board, 0, 0⟩
  if ((← load).board s.board).ifstats.name.isNone then
    modifyIfstats s.board fun i => { i with name := some "hya", mtu := HYDRA_MTU }
    store fun d => { d with ifstats := s.board :: d.ifstats }
  modifyIfstats s.board fun i => { i with unit := s.board, active := 1 }
  modifyBoard s.board fun bd => { bd with ifFlags := IFF_HYDRA }

/-- The index a minor number names: its own field, or the first free slot. -/
def chooseSlot (bd : HydraBoard) (sapField : ℕ) : ℕ :=
  if sapField = 0 then freeSlot bd else sapField - 1

/-- `hydraopen` from the check of the board's base on. -/
def openSlot (q : QId) (dev : Dev) (b : BoardId) (sapField : ℕ) :
    HydraM (Option Errno × Dev) := do
  let bd := (← load).board b
  if bd.info.boardBase = 0 then return (some ENXIO, dev)
  else if h : chooseSlot bd sapField < HYDRA_MAXDEV then
    let slot : Slot := ⟨b, ⟨chooseSlot bd sapField, h⟩⟩
    let dev := { dev with minor := makeMinor slot.dev b }
    if (bd.hydra slot.dev).q.isSome then return (some .EBUSY, dev)
    else
      takeSlot q slot
      return (none, dev)
  else return (some .ENOSPC, dev)

/-- `hydraopen` from the range check of the board number on. -/
def openBoard (q : QId) (dev : Dev) (b : BoardId) (sapField : ℕ) :
    HydraM (Option Errno × Dev) := do
  if ← bringUp b then openSlot q dev b sapField else return (some .ENODEV, dev)

def hydraopen (q : QId) (dev : Dev) (sflag : OpenFlag) : HydraM (Option Errno × Dev) :=
  if sflag = MODOPEN ∨ sflag = CLONEOPEN then return (some .EINVAL, dev)
  else if h : dev.minor &&& 0x0f < HYDRA_MAXBOARDS then
    openBoard q dev ⟨dev.minor &&& 0x0f, h⟩ ((dev.minor &&& 0xf0) >>> 4)
  else return (some .ENODEV, dev)

def hydraclose (q : QId) : HydraM Unit := do
  match ← rdPtr q with
  | none => pure ()
  | some s =>
      let b := ((← load).slot s).boardIndex
      modifySlot s fun h => { h with q := none }
      setWrPtr q none
      setRdPtr q none
      if freeSlots ((← load).board b) then
        hydraOutb b NE_CR (NE_CR_P0 ||| NE_CR_STP ||| NE_CR_RDMA_ABORT)
        modifyStatus b fun s => { s with boardState := HYDRA_BOARD_RESET }
        modifyIfstats b fun i => { i with
          unit := 0, active := 0, ipackets := 0, ierrors := 0, opackets := 0, oerrors := 0 }
      else pure ()
where
  /-- No slot of the board has a queue. -/
  freeSlots (bd : HydraBoard) : Bool := (List.ofFn bd.hydra).all fun h => h.q.isNone

/-! ### What start-up does -/

/-- Consecutive values of a function replaced by a list. -/
def updates (f : ℕ → Byte) : ℕ → List Byte → ℕ → Byte
  | _, [] => f
  | i, v :: vs => updates (Function.update f i v) (i + 1) vs

section
variable (w : World) (b : BoardId)

@[simp] theorem pollReset_run (want : Bool) (n : ℕ) :
    run exec (pollReset b want n) w = ((), w) := by
  induction n with
  | zero => rfl
  | succ n ih =>
      rw [pollReset, run_bind, hydraInb_run, run_ite, ih]
      exact ite_self _

/-- The registers of page 1 other than CURR are plain ones. -/
theorem outbs_run {reg : ℕ} {vs : List Byte} (hp : (w.nic b).page = 1)
    (hr : 0 < reg ∧ reg + vs.length ≤ 7 ∨ 7 < reg) :
    run exec (outbs b reg vs) w =
      ((), w.setNic b { w.nic b with plain := updates (w.nic b).plain (16 + reg) vs }) := by
  induction vs generalizing w reg with
  | nil => exact congrArg (Prod.mk ()) (w.setNic_eq_self b).symm
  | cons v vs ih =>
      simp only [List.length_cons] at hr
      have ho : (w.nic b).outb reg v =
          { w.nic b with plain := Function.update (w.nic b).plain (16 + reg) v } := by
        simp [Nic.outb, hp, show reg ≠ 0 by omega, show reg ≠ 7 by omega]
      have hn := ih (w.setNic b ((w.nic b).outb reg v)) (by simpa [ho, Nic.page] using hp)
        (by omega : 0 < reg + 1 ∧ reg + 1 + vs.length ≤ 7 ∨ 7 < reg + 1)
      rw [outbs, run_bind, hydraOutb_run, hn]
      simp only [World.setNic_self, World.setNic_setNic, ho, updates, Nat.add_assoc]

attribute [local simp] NE_DCR NE_RBCNT0 NE_RBCNT1 NE_TCR NE_RCR NE_IMR NE_PAR0 NE_MAR0 NE8390_START_PG
  NE8390_RX_START_PG NE8390_TX_PAGES NE8390_STOP_PG

/-- The transmitter and the buffer RAM are untouched. -/
structure Nic.SameLoad (n n' : Nic) : Prop where
  txp : n'.txp = n.txp
  ram : n'.ram = n.ram
  sent : n'.sent = n.sent

/-- The chip after start-up: both ends of the ring, BNRY and CURR are set, no
interrupt is pending, and register page 0 is selected. -/
structure Nic.Started (n n' : Nic) : Prop extends n.SameLoad n' where
  page : n'.page = 0
  pstart : n'.pstart = 0x08#8
  pstop : n'.pstop = 0x40#8
  bnry : n'.bnry = 0x08#8
  curr : n'.curr = 0x09#8
  isr : n'.isr = 0

theorem Nic.Started.of_sameLoad {n m k : Nic} (h : n.SameLoad m) (hk : m.Started k) :
    n.Started k :=
  { hk with
    txp := hk.txp.trans h.txp
    ram := hk.ram.trans h.ram
    sent := hk.sent.trans h.sent }

/-- The driver's view of a board after start-up. -/
def HydraInfo.start (i : HydraInfo) (a : Vector Byte 6) : HydraInfo :=
  { i with paddress := a, txStartPage := 0, rxStartPage := 8, stopPage := 0x40, nextPkt := 9 }

theorem setupNe2000_run (a : Vector Byte 6) :
    ∃ n, (w.nic b).Started n ∧
      run exec (setupNe2000 b a) w =
        (true, (w.setDrv (w.drv.modifyBoard b fun bd => { bd with
          status := bd.status.start 9, info := bd.info.start a })).setNic b n) := by
  simp [setupNe2000, hydraReset, Nic.page, outbs_run]
  refine ⟨_, ?_, rfl⟩
  refine ⟨⟨?_, ?_, ?_⟩, ?_, ?_, ?_, ?_, ?_, ?_⟩ <;> simp [Nic.page]

theorem readSix_run (rd : ℕ → HydraM Byte) (h : ∀ i, (run exec (rd i) w).2 = w) :
    ∃ a, run exec (readSix rd) w = (a, w) := by
  refine ⟨(run exec (readSix rd) w).1, Prod.ext rfl ?_⟩
  simp only [readSix, run_bind, h, run_pure]

theorem getEthernetAddress_run :
    ∃ a n, (w.nic b).SameLoad n ∧
      run exec (getEthernetAddress b) w = (a, w.setNic b n) := by
  choose f hf using fun w => readSix_run w (readProm b) fun _ => rfl
  choose g hg using fun w => readSix_run w (fun i => hydraInb b (NE_PAR0 + i)) fun _ => rfl
  simp only [getEthernetAddress, run_bind, hydraOutb_run, hf, run_ite, run_pure, hg,
    World.setNic_self, World.setNic_setNic]
  split_ifs
  all_goals
    refine ⟨_, _, ?_, rfl⟩
    constructor <;> simp [Nic.page]

/-- Without an address the board is left alone but for its base. -/
theorem hydraInitialize_none (h : w.drv.autoconfig b = 0) :
    run exec (hydraInitialize b) w =
      (false, w.setDrv (w.drv.modifyBoard b fun bd => { bd with
        info := { bd.info with boardBase := 0 } })) := by
  simp [hydraInitialize, h]

/-- The board table after start-up: no slot is in use. -/
def HydraBoard.start (bd : HydraBoard) (base : ℕ) (a : Vector Byte 6) : HydraBoard :=
  { bd with
    hydra := fun n => { bd.hydra n with q := none, sap := 0, state := DL_UNBOUND }
    status := bd.status.start 9
    info := { bd.info with boardBase := base, nicBase := base + NE8390_NIC_OFFSET }.start a }

theorem hydraInitialize_some (h : w.drv.autoconfig b ≠ 0) :
    ∃ a n, (w.nic b).Started n ∧
      run exec (hydraInitialize b) w =
        (true, (w.setDrv (w.drv.modifyBoard b fun bd =>
          bd.start (w.drv.autoconfig b) a)).setNic b n) := by
  choose fa fn hl ha using fun w => getEthernetAddress_run w b
  choose fs hs hr using fun w a => setupNe2000_run w b a
  have hd : ∀ d, (w.nic b).SameLoad (fn (w.setDrv d)) := fun d => hl (w.setDrv d)
  simp [hydraInitialize, h, ha, hr]
  refine ⟨_, _, ?_, rfl⟩
  refine Nic.Started.of_sameLoad ?_ (hs _ _)
  rw [World.setNic_self]
  exact hd _

end
end HydraAmix.Hydra
