import HydraAmix.Library.Program
import HydraAmix.Hydra.Chip

/-!
# The driver's data and its surroundings

The first part is the data of `hydra.h` and `hydrauser.h`: the boards with
their stream slots, statistics, addresses and interface counters. The second
part is what the driver talks to: the bus (registers and longwords of the
buffer RAM of a board, the address PROM), the STREAMS services (queues with
first-in first-out order, `allocb`, `canput`, messages sent upstream), single
bytes of message blocks and buffers, and its own static data.

`exec` answers each operation in a world. Everything the driver cannot know is
a field of the world: the outcome of each `allocb` and `canput`, the bytes
outside a block (`stray`) and what an automatic array holds before it is
filled (`auto`). Statements about every world are statements about every
outcome. A stream is named by the number of its queue pair; both queues of the
pair have their own `q_ptr`.
-/
namespace HydraAmix.Hydra
open Word Program

abbrev HYDRA_MAXDEV : ℕ := 5
abbrev HYDRA_MAXBOARDS : ℕ := 4
abbrev MAX_BUFFER_LENGTH : ℤ := 1518
abbrev HYDRA_MTU : ℕ := 1518 - 14 - 4
abbrev ETH_HEADER_SIZE : ℕ := 6 + 6 + 2
abbrev ETH_MAXDATA : ℕ := 1500
abbrev ETH_MINDATA : ℕ := 50
abbrev ETH_MINPACKET : ℕ := ETH_HEADER_SIZE + ETH_MINDATA
abbrev ETH_MINFRAME : ℤ := (ETH_MINPACKET : ℤ) - 4
abbrev ETHERTYPE_IP : BitVec 16 := 0x0800
abbrev ETHERTYPE_ARP : BitVec 16 := 0x0806
abbrev ETHERTYPE_TRAIL : BitVec 16 := 0x1000
abbrev ETHERTYPE_NTRAILER : BitVec 16 := 16
abbrev HYDRA_RAW_DATA : ℕ := 1
abbrev IFF_HYDRA : ℕ := 0x0002 ||| 0x0020 ||| 0x0040

abbrev BoardId := Fin HYDRA_MAXBOARDS
abbrev QId := ℕ

/-- The address of a stream's `hydra_t`: a slot of a board. -/
structure Slot where
  board : BoardId
  dev : Fin HYDRA_MAXDEV
  deriving DecidableEq, Repr

inductive DlState where
  | DL_UNATTACHED | DL_UNBOUND | DL_IDLE
  deriving DecidableEq, Repr

inductive BoardState where
  | HYDRA_BOARD_RESET | HYDRA_BOARD_RUNNING
  deriving DecidableEq, Repr

/-- `hydra_t`. A free slot has no queue. -/
structure HydraT where
  q : Option QId
  state : DlState
  boardIndex : BoardId
  flags : ℕ
  sap : BitVec 16
  deriving DecidableEq, Repr

/-- `hydra_status_t`, counters as natural numbers. -/
structure HydraStatus where
  boardState : BoardState
  packetsSent : ℕ
  packetsReceived : ℕ
  allocbsFailed : ℕ
  couldntPut : ℕ
  txErrors : ℕ
  rxErrors : ℕ
  collisions : ℕ
  overflow : ℕ
  crcErrors : ℕ
  framingErrors : ℕ
  missedPackets : ℕ
  bufferError : ℕ
  trailers : ℕ
  boardDebug : ℕ
  lateCollisions : ℕ
  lossOfCarrier : ℕ
  retryErrors : ℕ
  rxDelivered : ℕ
  rxNoSap : ℕ
  rxNotForUs : ℕ
  lastRxSap : ℕ
  lastBoundSap : ℕ
  openStreams : ℕ
  boundStreams : ℕ
  arpStreams : ℕ
  ipStreams : ℕ
  ifActive : ℕ
  ifIpackets : ℕ
  ifOpackets : ℕ
  ifIerrors : ℕ
  ifOerrors : ℕ
  txArp : ℕ
  txIp : ℕ
  rxArpDelivered : ℕ
  rxIpDelivered : ℕ
  lastTxSap : ℕ
  rxArpSeen : ℕ
  rxIpSeen : ℕ
  swNextPkt : ℤ
  lastRingPage : ℤ
  lastRingNext : ℕ
  lastRingRsr : ℕ
  lastRingSize : ℕ
  lastCurr : ℕ
  lastBnry : ℕ
  rxBadNext : ℕ
  rxBadRsr : ℕ
  rxBadSize : ℕ
  deriving DecidableEq, Repr

/-- `hydra_info_t`; the two bases are addresses, 0 for NULL. -/
structure HydraInfo where
  boardBase : ℕ
  nicBase : ℕ
  paddress : Vector Byte 6
  txStartPage : ℤ
  rxStartPage : ℤ
  stopPage : ℤ
  nextPkt : ℤ
  deriving DecidableEq, Repr

/-- The driver's part of `struct ifstats`. -/
structure IfStats where
  name : Option String
  mtu : ℕ
  unit : ℕ
  active : ℕ
  ipackets : ℕ
  ierrors : ℕ
  opackets : ℕ
  oerrors : ℕ
  deriving DecidableEq, Repr

/-- `hydra_board_t`. -/
structure HydraBoard where
  hydra : Fin HYDRA_MAXDEV → HydraT
  status : HydraStatus
  info : HydraInfo
  ifstats : IfStats
  ifFlags : ℕ

/-- The driver's static data: the board table, the addresses autoconfiguration
found (0 for none), their number, and the list of interfaces. -/
structure Driver where
  board : BoardId → HydraBoard
  autoconfig : BoardId → ℕ
  numberOfBoards : ℕ
  ifstats : List BoardId

/-- A message: its control block and the blocks chained by `b_cont`, each the
bytes between `b_rptr` and `b_wptr`. -/
structure Msg where
  block : List Byte
  cont : List (List Byte)
  deriving DecidableEq, Repr

/-- `hydra_config_t`. -/
structure HydraConfig where
  boardBase : ℕ
  boardDebug : ℕ
  paddress : Vector Byte 6
  laddress : Vector Byte 8
  mode : ℕ
  flags : ℕ

/-- `hydra_test_t`; the three integers are 32-bit words. -/
structure HydraTest where
  op : Long
  reg : Byte
  val : Byte
  page : Long
  offset : Long
  len : Long
  data : Vector Byte 1024
  tsr : Byte
  isr : Byte
  curr : Byte
  bnry : Byte
  rsr : Byte
  ncr : Byte
  tcr : Byte
  rcr : Byte

/-- `dl_info_ack_t`. -/
structure DlInfoAck where
  maxSdu : ℕ
  minSdu : ℕ
  addrLength : ℕ
  macType : ℕ
  currentState : DlState
  maxIdu : ℕ
  serviceMode : ℕ
  providerStyle : ℕ
  addr : Option (Vector Byte 6)

/-- The structures whose size a request to `allocb` names. -/
inductive Struct where
  | dl_ok_ack | dl_bind_ack | dl_info_ack | DL_primitives
  | hydra_status | hydra_config | hydra_test | int
  deriving DecidableEq, Repr

inductive BlockSize where
  | sizeof (s : Struct) (extra : ℕ)
  | bytes (n : ℤ)
  deriving DecidableEq, Repr

/-- The data block of an answered ioctl. -/
inductive IocData where
  | none
  | same
  | int (n : ℕ)
  | config (c : HydraConfig)
  | status (s : HydraStatus)
  | test (t : HydraTest)

/-- A device number. -/
structure Dev where
  major : ℕ
  minor : ℕ
  deriving DecidableEq, Repr

/-- The `sflag` argument of an open routine. -/
inductive OpenFlag where
  | DEVOPEN | MODOPEN | CLONEOPEN
  deriving DecidableEq, Repr

inductive Errno where
  | EINVAL | ENODEV | ENXIO | ENOSPC | EBUSY | ENOMEM
  deriving DecidableEq, Repr

/-- An ioctl message. `count` is `none` for TRANSPARENT, when the data block
holds the user address `arg`; otherwise it holds the command's structure. -/
inductive IocMsg where
  | ioctl (cmd : ℕ) (count : Option ℕ) (arg : ℕ) (test : HydraTest)
  | iocdata (cmd : ℕ) (rval : ℕ) (priv : ℕ) (test : HydraTest)

/-- What a stream head writes to the driver. -/
inductive Down where
  | flush (flags : Byte)
  | proto (mp : Msg)
  | ioc (m : IocMsg)
  | other (mp : Msg)

/-- What the driver sends upstream. -/
inductive Up where
  | unitdataInd (dest src data : List Byte)
  | raw (status : HydraStatus) (data : List Byte)
  | okAck (correctPrimitive : Long)
  | bindAck (sap : BitVec 16) (addr : Vector Byte 6)
  | infoAck (ack : DlInfoAck)
  | flush (flags : Byte)
  | iocack (data : IocData)
  | iocnak (error : Errno)
  | copyin (addr : ℕ) (size : Struct)
  | copyout (addr : ℕ) (data : IocData)

/-- What the driver does to its surroundings, indexed by the answer. -/
inductive Op : Type → Type where
  | inb (b : BoardId) (reg : ℕ) : Op Byte
  | outb (b : BoardId) (reg : ℕ) (val : Byte) : Op Unit
  | readl (b : BoardId) (offset : ℤ) : Op Long
  | writel (b : BoardId) (offset : ℤ) (val : Long) : Op Unit
  | prom (b : BoardId) (i : ℕ) : Op Byte
  | peek (buf : List Byte) (i : ℤ) : Op Byte
  | poke (size : ℕ) (i : ℤ) : Op Unit
  | auto : Op (ℕ → Byte)
  | panicstr : Op Bool
  | load : Op Driver
  | store (f : Driver → Driver) : Op Unit
  | allocb (size : BlockSize) : Op Bool
  | canput (q : QId) : Op Bool
  | freemsg (mp : Msg) : Op Unit
  | putnext (q : QId) (mp : Up) : Op Unit
  | qfirst (q : QId) : Op Bool
  | putq (q : QId) (mp : Msg) : Op Unit
  | putbq (q : QId) (mp : Msg) : Op Unit
  | getq (q : QId) : Op (Option Msg)
  | flushq (q : QId) : Op Unit
  | rptr (q : QId) : Op (Option Slot)
  | wptr (q : QId) : Op (Option Slot)
  | setRptr (q : QId) (p : Option Slot) : Op Unit
  | setWptr (q : QId) (p : Option Slot) : Op Unit

abbrev HydraM := Prog Op

abbrev act {β : Type} (o : Op β) : HydraM β := Prog.perform o

/-- The world of the driver: its own data, the chips, the queues, and the
answers its surroundings hold ready. -/
structure World where
  drv : Driver
  nic : BoardId → Nic
  rptr : QId → Option Slot
  wptr : QId → Option Slot
  wq : QId → List Msg
  panicstr : Bool
  canput : QId → Bool
  allocs : ℕ → Bool
  stray : ℤ → Byte
  auto : ℕ → Byte
  prom : BoardId → ℕ → Byte

namespace Driver

def modifyBoard (d : Driver) (b : BoardId) (f : HydraBoard → HydraBoard) : Driver :=
  { d with board := Function.update d.board b (f (d.board b)) }

def slot (d : Driver) (s : Slot) : HydraT := (d.board s.board).hydra s.dev

@[simp] theorem modifyBoard_self (d : Driver) (b : BoardId) (f : HydraBoard → HydraBoard) :
    (d.modifyBoard b f).board b = f (d.board b) := Function.update_self ..

theorem modifyBoard_of_ne (d : Driver) {b c : BoardId} (h : c ≠ b)
    (f : HydraBoard → HydraBoard) : (d.modifyBoard b f).board c = d.board c :=
  Function.update_of_ne h ..

@[simp] theorem modifyBoard_modifyBoard (d : Driver) (b : BoardId)
    (f g : HydraBoard → HydraBoard) :
    (d.modifyBoard b f).modifyBoard b g = d.modifyBoard b fun bd => g (f bd) := by
  simp [modifyBoard]

@[simp] theorem modifyBoard_board (d : Driver) (b c : BoardId) (f : HydraBoard → HydraBoard) :
    (d.modifyBoard b f).board c = if c = b then f (d.board b) else d.board c := by
  by_cases h : c = b
  · subst h
    simp
  · simp [modifyBoard, h]

@[simp] theorem modifyBoard_autoconfig (d : Driver) (b : BoardId) (f : HydraBoard → HydraBoard) :
    (d.modifyBoard b f).autoconfig = d.autoconfig := rfl

end Driver

namespace World

def setNic (w : World) (b : BoardId) (n : Nic) : World :=
  { w with nic := Function.update w.nic b n }

def setDrv (w : World) (d : Driver) : World := { w with drv := d }

def setWq (w : World) (q : QId) (ms : List Msg) : World :=
  { w with wq := Function.update w.wq q ms }

def setPtrs (w : World) (r p : QId → Option Slot) : World := { w with rptr := r, wptr := p }

/-- One `allocb` outcome is used up. -/
def useAlloc (w : World) : World := { w with allocs := fun n => w.allocs (n + 1) }

/-- The byte at an index of a buffer, or whatever lies outside it. -/
def byteAt (w : World) (buf : List Byte) (i : ℤ) : Byte :=
  if 0 ≤ i then buf.getD i.toNat (w.stray i) else w.stray i

section
variable (w : World) (b : BoardId) (n : Nic) (d : Driver) (q : QId) (ms : List Msg)
  (r p : QId → Option Slot)

@[simp] theorem setNic_self : (w.setNic b n).nic b = n := Function.update_self ..
theorem setNic_of_ne {c : BoardId} (h : c ≠ b) : (w.setNic b n).nic c = w.nic c :=
  Function.update_of_ne h ..
@[simp] theorem setWq_self : (w.setWq q ms).wq q = ms := Function.update_self ..
theorem setWq_of_ne {c : QId} (h : c ≠ q) : (w.setWq q ms).wq c = w.wq c :=
  Function.update_of_ne h ..
@[simp] theorem setNic_setNic (m : Nic) : (w.setNic b n).setNic b m = w.setNic b m := by
  simp [setNic]
@[simp] theorem setNic_eq_self : w.setNic b (w.nic b) = w := by simp [setNic]
@[simp] theorem setDrv_setDrv (e : Driver) : (w.setDrv d).setDrv e = w.setDrv e := by rfl
@[simp] theorem setDrv_setNic : (w.setNic b n).setDrv d = (w.setDrv d).setNic b n := by rfl
@[simp] theorem setWq_setNic : (w.setNic b n).setWq q ms = (w.setWq q ms).setNic b n := by rfl
@[simp] theorem setWq_setDrv : (w.setDrv d).setWq q ms = (w.setWq q ms).setDrv d := by rfl
@[simp] theorem setWq_setWq (ns : List Msg) : (w.setWq q ms).setWq q ns = w.setWq q ns := by
  simp [setWq]
@[simp] theorem setWq_eq_self : w.setWq q (w.wq q) = w := by simp [setWq]
@[simp] theorem setPtrs_setNic : (w.setNic b n).setPtrs r p = (w.setPtrs r p).setNic b n := by rfl
@[simp] theorem setPtrs_setDrv : (w.setDrv d).setPtrs r p = (w.setPtrs r p).setDrv d := by rfl
@[simp] theorem setPtrs_setPtrs (r' p' : QId → Option Slot) :
    (w.setPtrs r p).setPtrs r' p' = w.setPtrs r' p' := by rfl
@[simp] theorem useAlloc_setNic : (w.setNic b n).useAlloc = w.useAlloc.setNic b n := by rfl
@[simp] theorem useAlloc_setDrv : (w.setDrv d).useAlloc = w.useAlloc.setDrv d := by rfl

@[simp] theorem setNic_drv : (w.setNic b n).drv = w.drv := by rfl
@[simp] theorem setNic_rptr : (w.setNic b n).rptr = w.rptr := by rfl
@[simp] theorem setNic_wptr : (w.setNic b n).wptr = w.wptr := by rfl
@[simp] theorem setNic_wq : (w.setNic b n).wq = w.wq := by rfl
@[simp] theorem setNic_panicstr : (w.setNic b n).panicstr = w.panicstr := by rfl
@[simp] theorem setNic_canput : (w.setNic b n).canput = w.canput := by rfl
@[simp] theorem setNic_allocs : (w.setNic b n).allocs = w.allocs := by rfl
@[simp] theorem setNic_byteAt (buf : List Byte) (i : ℤ) :
    (w.setNic b n).byteAt buf i = w.byteAt buf i := by rfl
@[simp] theorem setDrv_drv : (w.setDrv d).drv = d := by rfl
@[simp] theorem setDrv_nic : (w.setDrv d).nic = w.nic := by rfl
@[simp] theorem setDrv_rptr : (w.setDrv d).rptr = w.rptr := by rfl
@[simp] theorem setDrv_wptr : (w.setDrv d).wptr = w.wptr := by rfl
@[simp] theorem setDrv_wq : (w.setDrv d).wq = w.wq := by rfl
@[simp] theorem setDrv_panicstr : (w.setDrv d).panicstr = w.panicstr := by rfl
@[simp] theorem setDrv_canput : (w.setDrv d).canput = w.canput := by rfl
@[simp] theorem setDrv_allocs : (w.setDrv d).allocs = w.allocs := by rfl
@[simp] theorem setDrv_byteAt (buf : List Byte) (i : ℤ) :
    (w.setDrv d).byteAt buf i = w.byteAt buf i := by rfl
@[simp] theorem setWq_drv : (w.setWq q ms).drv = w.drv := by rfl
@[simp] theorem setWq_nic : (w.setWq q ms).nic = w.nic := by rfl
@[simp] theorem setWq_rptr : (w.setWq q ms).rptr = w.rptr := by rfl
@[simp] theorem setWq_wptr : (w.setWq q ms).wptr = w.wptr := by rfl
@[simp] theorem setWq_panicstr : (w.setWq q ms).panicstr = w.panicstr := by rfl
@[simp] theorem setWq_canput : (w.setWq q ms).canput = w.canput := by rfl
@[simp] theorem setWq_allocs : (w.setWq q ms).allocs = w.allocs := by rfl
@[simp] theorem setWq_byteAt (buf : List Byte) (i : ℤ) :
    (w.setWq q ms).byteAt buf i = w.byteAt buf i := by rfl
@[simp] theorem setPtrs_drv : (w.setPtrs r p).drv = w.drv := by rfl
@[simp] theorem setPtrs_nic : (w.setPtrs r p).nic = w.nic := by rfl
@[simp] theorem setPtrs_rptr : (w.setPtrs r p).rptr = r := by rfl
@[simp] theorem setPtrs_wptr : (w.setPtrs r p).wptr = p := by rfl
@[simp] theorem setPtrs_wq : (w.setPtrs r p).wq = w.wq := by rfl
@[simp] theorem setPtrs_panicstr : (w.setPtrs r p).panicstr = w.panicstr := by rfl
@[simp] theorem setPtrs_canput : (w.setPtrs r p).canput = w.canput := by rfl
@[simp] theorem setPtrs_allocs : (w.setPtrs r p).allocs = w.allocs := by rfl
@[simp] theorem setPtrs_byteAt (buf : List Byte) (i : ℤ) :
    (w.setPtrs r p).byteAt buf i = w.byteAt buf i := by rfl
@[simp] theorem useAlloc_drv : w.useAlloc.drv = w.drv := by rfl
@[simp] theorem useAlloc_nic : w.useAlloc.nic = w.nic := by rfl
@[simp] theorem useAlloc_rptr : w.useAlloc.rptr = w.rptr := by rfl
@[simp] theorem useAlloc_wptr : w.useAlloc.wptr = w.wptr := by rfl
@[simp] theorem useAlloc_wq : w.useAlloc.wq = w.wq := by rfl
@[simp] theorem useAlloc_panicstr : w.useAlloc.panicstr = w.panicstr := by rfl
@[simp] theorem useAlloc_canput : w.useAlloc.canput = w.canput := by rfl
@[simp] theorem useAlloc_byteAt (buf : List Byte) (i : ℤ) :
    w.useAlloc.byteAt buf i = w.byteAt buf i := by rfl

end

end World

/-! ### The machine at boot -/

/-- The static data before the first open: cleared, but for the addresses that
autoconfiguration found. -/
def Driver.boot (autoconfig : BoardId → ℕ) : Driver where
  board _ := {
    hydra := fun _ => ⟨none, .DL_UNATTACHED, 0, 0, 0⟩
    status := ⟨.HYDRA_BOARD_RESET, 0, 0, 0, 0, 0, 0, 0, 0, 0, 0, 0, 0, 0, 0, 0, 0, 0, 0, 0, 0, 0,
      0, 0, 0, 0, 0, 0, 0, 0, 0, 0, 0, 0, 0, 0, 0, 0, 0, 0, 0, 0, 0, 0, 0, 0, 0, 0, 0⟩
    info := ⟨0, 0, .replicate 6 0, 0, 0, 0, 0⟩
    ifstats := ⟨none, 0, 0, 0, 0, 0, 0, 0⟩
    ifFlags := 0 }
  autoconfig := autoconfig
  numberOfBoards := (List.finRange HYDRA_MAXBOARDS).countP fun b => autoconfig b ≠ 0
  ifstats := []

def Nic.off : Nic where
  cmd := 0
  txp := false
  isr := 0
  tsr := 0
  cntr0 := 0
  pstart := 0
  pstop := 0
  bnry := 0
  curr := 0
  tpsr := 0
  tbcnt0 := 0
  tbcnt1 := 0
  plain _ := 0
  ram _ := 0
  sent := []

/-- A machine with everything cleared. -/
def World.off : World where
  drv := Driver.boot fun _ => 0
  nic _ := Nic.off
  rptr _ := none
  wptr _ := none
  wq _ := []
  panicstr := false
  canput _ := true
  allocs _ := true
  stray _ := 0
  auto _ := 0
  prom _ _ := 0

/-- The machine before the first open: nothing is open, queued or in flight,
and the rest is as in any machine `w`. -/
def World.boot (w : World) (autoconfig : BoardId → ℕ) : World :=
  { w with
    drv := Driver.boot autoconfig
    nic := fun b => { w.nic b with txp := false }
    rptr := fun _ => none
    wptr := fun _ => none
    wq := fun _ => [] }

def exec : {β : Type} → Op β → World → β × World
  | _, .inb b r, w => ((w.nic b).inb r, w)
  | _, .outb b r v, w => ((), w.setNic b ((w.nic b).outb r v))
  | _, .readl b o, w => ((w.nic b).readl o, w)
  | _, .writel b o v, w => ((), w.setNic b ((w.nic b).writel o v))
  | _, .prom b i, w => (w.prom b i, w)
  | _, .peek buf i, w => (w.byteAt buf i, w)
  | _, .poke _ _, w => ((), w)
  | _, .auto, w => (w.auto, w)
  | _, .panicstr, w => (w.panicstr, w)
  | _, .load, w => (w.drv, w)
  | _, .store f, w => ((), w.setDrv (f w.drv))
  | _, .allocb _, w => (w.allocs 0, w.useAlloc)
  | _, .canput q, w => (w.canput q, w)
  | _, .freemsg _, w => ((), w)
  | _, .putnext _ _, w => ((), w)
  | _, .qfirst q, w => (!(w.wq q).isEmpty, w)
  | _, .putq q mp, w => ((), w.setWq q (w.wq q ++ [mp]))
  | _, .putbq q mp, w => ((), w.setWq q (mp :: w.wq q))
  | _, .getq q, w => ((w.wq q).head?, w.setWq q (w.wq q).tail)
  | _, .flushq q, w => ((), w.setWq q [])
  | _, .rptr q, w => (w.rptr q, w)
  | _, .wptr q, w => (w.wptr q, w)
  | _, .setRptr q p, w => ((), w.setPtrs (Function.update w.rptr q p) w.wptr)
  | _, .setWptr q p, w => ((), w.setPtrs w.rptr (Function.update w.wptr q p))

/-! ### The services under the names the driver calls them by -/

abbrev readl (b : BoardId) (offset : ℤ) : HydraM Long := act (.readl b offset)
abbrev writel (b : BoardId) (offset : ℤ) (v : Long) : HydraM Unit := act (.writel b offset v)
abbrev readProm (b : BoardId) (i : ℕ) : HydraM Byte := act (.prom b i)
abbrev peek (buf : List Byte) (i : ℤ) : HydraM Byte := act (.peek buf i)
abbrev poke (size : ℕ) (i : ℤ) : HydraM Unit := act (.poke size i)
abbrev autoArray : HydraM (ℕ → Byte) := act .auto
abbrev panicking : HydraM Bool := act .panicstr
abbrev load : HydraM Driver := act .load
abbrev store (f : Driver → Driver) : HydraM Unit := act (.store f)
abbrev allocb (size : BlockSize) : HydraM Bool := act (.allocb size)
abbrev canput (q : QId) : HydraM Bool := act (.canput q)
abbrev freemsg (mp : Msg) : HydraM Unit := act (.freemsg mp)
abbrev putnext (q : QId) (mp : Up) : HydraM Unit := act (.putnext q mp)
abbrev qreply (q : QId) (mp : Up) : HydraM Unit := act (.putnext q mp)
abbrev qfirst (q : QId) : HydraM Bool := act (.qfirst q)
abbrev putq (q : QId) (mp : Msg) : HydraM Unit := act (.putq q mp)
abbrev putbq (q : QId) (mp : Msg) : HydraM Unit := act (.putbq q mp)
abbrev getq (q : QId) : HydraM (Option Msg) := act (.getq q)
abbrev flushq (q : QId) : HydraM Unit := act (.flushq q)
abbrev rdPtr (q : QId) : HydraM (Option Slot) := act (.rptr q)
abbrev wrPtr (q : QId) : HydraM (Option Slot) := act (.wptr q)
abbrev setRdPtr (q : QId) (p : Option Slot) : HydraM Unit := act (.setRptr q p)
abbrev setWrPtr (q : QId) (p : Option Slot) : HydraM Unit := act (.setWptr q p)

section
variable (w : World) (b : BoardId) (q : QId) (mp : Msg) (p : Option Slot)

@[simp] theorem run_inb (reg : ℕ) : Prog.run exec (act (.inb b reg)) w = ((w.nic b).inb reg, w) := by rfl
@[simp] theorem run_outb (reg : ℕ) (v : Byte) :
    Prog.run exec (act (.outb b reg v)) w = ((), w.setNic b ((w.nic b).outb reg v)) := by rfl
@[simp] theorem run_readl (o : ℤ) : Prog.run exec (readl b o) w = ((w.nic b).readl o, w) := by rfl
@[simp] theorem run_writel (o : ℤ) (v : Long) :
    Prog.run exec (writel b o v) w = ((), w.setNic b ((w.nic b).writel o v)) := by rfl
@[simp] theorem run_readProm (i : ℕ) : Prog.run exec (readProm b i) w = (w.prom b i, w) := by rfl
@[simp] theorem run_peek (buf : List Byte) (i : ℤ) :
    Prog.run exec (peek buf i) w = (w.byteAt buf i, w) := by rfl
@[simp] theorem run_poke (n : ℕ) (i : ℤ) : Prog.run exec (poke n i) w = ((), w) := by rfl
@[simp] theorem run_autoArray : Prog.run exec autoArray w = (w.auto, w) := by rfl
@[simp] theorem run_panicking : Prog.run exec panicking w = (w.panicstr, w) := by rfl
@[simp] theorem run_load : Prog.run exec load w = (w.drv, w) := by rfl
@[simp] theorem run_store (f : Driver → Driver) :
    Prog.run exec (store f) w = ((), w.setDrv (f w.drv)) := by rfl
@[simp] theorem run_allocb (n : BlockSize) :
    Prog.run exec (allocb n) w = (w.allocs 0, w.useAlloc) := by rfl
@[simp] theorem run_canput : Prog.run exec (canput q) w = (w.canput q, w) := by rfl
@[simp] theorem run_freemsg : Prog.run exec (freemsg mp) w = ((), w) := by rfl
@[simp] theorem run_putnext (up : Up) : Prog.run exec (putnext q up) w = ((), w) := by rfl
@[simp] theorem run_qfirst : Prog.run exec (qfirst q) w = (!(w.wq q).isEmpty, w) := by rfl
@[simp] theorem run_putq : Prog.run exec (putq q mp) w = ((), w.setWq q (w.wq q ++ [mp])) := by rfl
@[simp] theorem run_putbq : Prog.run exec (putbq q mp) w = ((), w.setWq q (mp :: w.wq q)) := by rfl
@[simp] theorem run_getq :
    Prog.run exec (getq q) w = ((w.wq q).head?, w.setWq q (w.wq q).tail) := by rfl
@[simp] theorem run_flushq : Prog.run exec (flushq q) w = ((), w.setWq q []) := by rfl
@[simp] theorem run_rdPtr : Prog.run exec (rdPtr q) w = (w.rptr q, w) := by rfl
@[simp] theorem run_wrPtr : Prog.run exec (wrPtr q) w = (w.wptr q, w) := by rfl
@[simp] theorem run_setRdPtr : Prog.run exec (setRdPtr q p) w =
    ((), w.setPtrs (Function.update w.rptr q p) w.wptr) := by rfl
@[simp] theorem run_setWrPtr : Prog.run exec (setWrPtr q p) w =
    ((), w.setPtrs w.rptr (Function.update w.wptr q p)) := by rfl

end

def modifyBoard (b : BoardId) (f : HydraBoard → HydraBoard) : HydraM Unit :=
  store fun d => d.modifyBoard b f

def modifyStatus (b : BoardId) (f : HydraStatus → HydraStatus) : HydraM Unit :=
  modifyBoard b fun bd => { bd with status := f bd.status }

def modifyIfstats (b : BoardId) (f : IfStats → IfStats) : HydraM Unit :=
  modifyBoard b fun bd => { bd with ifstats := f bd.ifstats }

def modifyInfo (b : BoardId) (f : HydraInfo → HydraInfo) : HydraM Unit :=
  modifyBoard b fun bd => { bd with info := f bd.info }

def modifySlot (s : Slot) (f : HydraT → HydraT) : HydraM Unit :=
  modifyBoard s.board fun bd =>
    { bd with hydra := Function.update bd.hydra s.dev (f (bd.hydra s.dev)) }

section
variable (w : World) (b : BoardId)

@[simp] theorem modifyBoard_run (f : HydraBoard → HydraBoard) :
    Prog.run exec (modifyBoard b f) w = ((), w.setDrv (w.drv.modifyBoard b f)) := by rfl

@[simp] theorem modifyStatus_run (f : HydraStatus → HydraStatus) :
    Prog.run exec (modifyStatus b f) w =
      ((), w.setDrv (w.drv.modifyBoard b fun bd => { bd with status := f bd.status })) := by rfl

@[simp] theorem modifyIfstats_run (f : IfStats → IfStats) :
    Prog.run exec (modifyIfstats b f) w =
      ((), w.setDrv (w.drv.modifyBoard b fun bd => { bd with ifstats := f bd.ifstats })) := by rfl

@[simp] theorem modifyInfo_run (f : HydraInfo → HydraInfo) :
    Prog.run exec (modifyInfo b f) w =
      ((), w.setDrv (w.drv.modifyBoard b fun bd => { bd with info := f bd.info })) := by rfl

@[simp] theorem modifySlot_run (s : Slot) (f : HydraT → HydraT) :
    Prog.run exec (modifySlot s f) w =
      ((), w.setDrv (w.drv.modifyBoard s.board fun bd =>
        { bd with hydra := Function.update bd.hydra s.dev (f (bd.hydra s.dev)) })) := by rfl

end
/-! ### Changes of the statistics alone -/

/-- Only statistics differ. -/
structure Driver.CountersOnly (d d' : Driver) : Prop where
  autoconfig : d'.autoconfig = d.autoconfig
  hydra : ∀ b, (d'.board b).hydra = (d.board b).hydra
  info : ∀ b, (d'.board b).info = (d.board b).info
  state : ∀ b, (d'.board b).status.boardState = (d.board b).status.boardState

theorem Driver.CountersOnly.trans {d₁ d₂ d₃ : Driver} (h : d₁.CountersOnly d₂)
    (h' : d₂.CountersOnly d₃) : d₁.CountersOnly d₃ :=
  ⟨h'.autoconfig.trans h.autoconfig, fun b => (h'.hydra b).trans (h.hydra b),
    fun b => (h'.info b).trans (h.info b), fun b => (h'.state b).trans (h.state b)⟩

theorem Driver.countersOnly_modifyBoard (d : Driver) (b : BoardId) {f g : HydraBoard → HydraBoard}
    (hh : (g (d.board b)).hydra = (f (d.board b)).hydra)
    (hi : (g (d.board b)).info = (f (d.board b)).info)
    (hs : (g (d.board b)).status.boardState = (f (d.board b)).status.boardState) :
    (d.modifyBoard b f).CountersOnly (d.modifyBoard b g) := by
  refine ⟨rfl, fun c => ?_, fun c => ?_, fun c => ?_⟩
  all_goals
    by_cases hc : c = b
    · subst hc
      simpa only [Driver.modifyBoard_self]
    · simp only [Driver.modifyBoard_of_ne _ hc]

theorem Driver.CountersOnly.modifyBoard (d : Driver) (b : BoardId) {g : HydraBoard → HydraBoard}
    (hh : (g (d.board b)).hydra = (d.board b).hydra) (hi : (g (d.board b)).info = (d.board b).info)
    (hs : (g (d.board b)).status.boardState = (d.board b).status.boardState) :
    d.CountersOnly (d.modifyBoard b g) := by
  have hd : d.modifyBoard b id = d := by simp [Driver.modifyBoard]
  have hc := d.countersOnly_modifyBoard b (f := id) hh hi hs
  rwa [hd] at hc

/-- The chips, the queues and the streams' slots are as they were. -/
structure World.CountersOnly (w w' : World) : Prop where
  nic : w'.nic = w.nic
  rptr : w'.rptr = w.rptr
  wptr : w'.wptr = w.wptr
  wq : w'.wq = w.wq
  panicstr : w'.panicstr = w.panicstr
  drv : w.drv.CountersOnly w'.drv

theorem World.CountersOnly.trans {w₁ w₂ w₃ : World} (h : w₁.CountersOnly w₂)
    (h' : w₂.CountersOnly w₃) : w₁.CountersOnly w₃ :=
  ⟨h'.nic.trans h.nic, h'.rptr.trans h.rptr, h'.wptr.trans h.wptr, h'.wq.trans h.wq,
    h'.panicstr.trans h.panicstr, h.drv.trans h'.drv⟩

theorem World.CountersOnly.refl (w : World) : w.CountersOnly w :=
  ⟨rfl, rfl, rfl, rfl, rfl, rfl, fun _ => rfl, fun _ => rfl, fun _ => rfl⟩

end HydraAmix.Hydra
