import HydraAmix.Hydra.Requests

/-!
# The blocks of an ioctl message

`hydraioctl` again, with the message as it lies in memory: a first block, which
holds the control structure of the message and is an `iocblk`, a `copyresp` or a
`copyreq` in turn, and the blocks chained from its `b_cont`. A block runs from its
`b_rptr` to the end of its buffer; the pointer to a message is the list of the blocks
chained from it, and NULL is the empty list. A structure is reached through the
first block of a message, at the byte offsets that the system's `stream.h` and the
compiler give its fields.
-/
namespace HydraAmix.Hydra.Blocks
open Word Program Prog BoardState

/-- The offsets of the fields of `iocblk`, `copyreq` and `copyresp`, the size of the
block a stream head allocates for any of them, and the bytes the compiler leaves before
an integer that follows two odd bytes. -/
structure Layout where
  iocCmd : ℕ
  iocCount : ℕ
  iocRval : ℕ
  iocError : ℕ
  cqAddr : ℕ
  cqSize : ℕ
  cqFlag : ℕ
  cqPrivate : ℕ
  cpRval : ℕ
  cpPrivate : ℕ
  sizeofCopyreq : ℕ
  ioctypes : ℕ
  fits : ∀ off ∈ [iocCmd, iocCount, iocRval, iocError, cqAddr, cqSize, cqFlag, cqPrivate, cpRval,
    cpPrivate], off + 4 ≤ ioctypes
  pad : ℕ

namespace Layout

variable (L : Layout)

/-! ### The fields of `hydra_test_t` -/

def tOp : ℕ := 0
def tReg : ℕ := 4
def tVal : ℕ := 5
def tPage : ℕ := 6 + L.pad
def tLen : ℕ := 14 + L.pad
def tData : ℕ := 18 + L.pad
def tTsr : ℕ := 1042 + L.pad
def tIsr : ℕ := 1043 + L.pad
def tCurr : ℕ := 1044 + L.pad
def tBnry : ℕ := 1045 + L.pad
def tRsr : ℕ := 1046 + L.pad
def tNcr : ℕ := 1047 + L.pad
def tTcr : ℕ := 1048 + L.pad
def tRcr : ℕ := 1049 + L.pad
def sizeofTest : ℕ := 1050 + L.pad

end Layout

abbrev TRANSPARENT : Long := 0xffffffff#32

/-- The types of the messages that `hydraioctl` handles and sends. -/
inductive DbType where
  | M_IOCTL | M_IOCDATA | M_IOCACK | M_IOCNAK | M_COPYIN | M_COPYOUT
  deriving DecidableEq, Repr

/-- The driver, and the message `mp` with everything around it: the bytes and sizes of
the blocks, what has been freed and what has been sent upstream. -/
structure Mem where
  world : World
  mp : ℕ
  type : DbType
  bCont : List ℕ
  byte : ℕ → ℕ → Byte
  room : ℕ → ℕ
  wptr : ℕ → ℕ
  fresh : ℕ
  freed : List ℕ
  sent : List (List ℕ)

/-- What `hydraioctl` does, indexed by the answer. A structure is accessed at an
offset from the `b_rptr` of a block, which may be missing. -/
inductive BlkOp : Type → Type where
  | driver : BlkOp Driver
  | inb (b : BoardId) (reg : ℕ) : BlkOp Byte
  | testWriteReg (b : BoardId) (reg : ℕ) (val : Byte) : BlkOp Unit
  | ramRead (b : BoardId) (len page : ℤ) : BlkOp (List Byte)
  | ramWrite (b : BoardId) (buf : List Byte) (len page : ℤ) : BlkOp Unit
  | dbType : BlkOp DbType
  | setType (t : DbType) : BlkOp Unit
  | bCont : BlkOp (List ℕ)
  | setBCont (bp : List ℕ) : BlkOp Unit
  | load (bp : Option ℕ) (off n : ℕ) : BlkOp (List Byte)
  | store (bp : Option ℕ) (off : ℕ) (xs : List Byte) : BlkOp Unit
  | setWptr (bp : Option ℕ) (f : ℕ → ℕ) : BlkOp Unit
  | allocb (size : ℕ) : BlkOp (List ℕ)
  | freemsg (bp : List ℕ) : BlkOp Unit
  | putnext : BlkOp Unit

abbrev BlkM := Prog BlkOp

namespace Mem

variable (m : Mem)

/-- The bytes at an offset of a block; what a missing one reads as is open. -/
def bytes (bp : Option ℕ) (off n : ℕ) : List Byte :=
  (List.range n).map fun i => match bp with
    | some b => m.byte b (off + i)
    | none => m.world.stray (off + i)

/-- The bytes of a block with some replaced. -/
def overlay (byte : ℕ → Byte) (off : ℕ) (xs : List Byte) : ℕ → Byte := fun i =>
  if off ≤ i then xs.getD (i - off) (byte i) else byte i

/-- The block is there, has not been freed, and has `n` bytes. -/
def Holds (bp : Option ℕ) (n : ℕ) : Prop := ∃ b, bp = some b ∧ b ∉ m.freed ∧ n ≤ m.room b

end Mem

def exec : {β : Type} → BlkOp β → Mem → β × Mem
  | _, .driver, m => (m.world.drv, m)
  | _, .inb b reg, m =>
      let r := run Hydra.exec (hydraInb b reg) m.world
      (r.1, { m with world := r.2 })
  | _, .testWriteReg b reg val, m =>
      ((), { m with world := (run Hydra.exec (hydraTestWriteReg b reg val) m.world).2 })
  | _, .ramRead b len page, m =>
      let r := run Hydra.exec (hydraRamRead b 1024 len page) m.world
      (r.1, { m with world := r.2 })
  | _, .ramWrite b buf len page, m =>
      ((), { m with world := (run Hydra.exec (hydraRamWrite b buf len page) m.world).2 })
  | _, .dbType, m => (m.type, m)
  | _, .setType t, m => ((), { m with type := t })
  | _, .bCont, m => (m.bCont, m)
  | _, .setBCont bp, m => ((), { m with bCont := bp })
  | _, .load bp off n, m => (m.bytes bp off n, m)
  | _, .store (some b) off xs, m =>
      ((), { m with byte := Function.update m.byte b (Mem.overlay (m.byte b) off xs) })
  | _, .store none _ _, m => ((), m)
  | _, .setWptr (some b) f, m => ((), { m with wptr := Function.update m.wptr b (f (m.wptr b)) })
  | _, .setWptr none _, m => ((), m)
  | _, .allocb size, m =>
      if m.world.allocs 0 then
        ([m.fresh], { m with
          world := m.world.useAlloc
          room := Function.update m.room m.fresh size
          wptr := Function.update m.wptr m.fresh 0
          fresh := m.fresh + 1 })
      else ([], { m with world := m.world.useAlloc })
  | _, .freemsg bp, m => ((), { m with freed := m.freed ++ bp })
  | _, .putnext, m => ((), { m with sent := m.sent ++ [m.mp :: m.bCont] })

/-- The operation accesses bytes inside blocks that have not been freed. -/
def BlkOp.Inside : (β : Type) → BlkOp β → Mem → Prop
  | _, .load bp off n, m => n ≠ 0 → m.Holds bp (off + n)
  | _, .store bp off xs, m => xs ≠ [] → m.Holds bp (off + xs.length)
  | _, .setWptr bp _, m => m.Holds bp 0
  | _, .dbType, m | _, .setType _, m | _, .bCont, m | _, .setBCont _, m | _, .putnext, m =>
      m.mp ∉ m.freed
  | _, _, _ => True

/-! ### The program -/

abbrev blk {β : Type} (o : BlkOp β) : BlkM β := Prog.perform o

def loadByte (bp : Option ℕ) (off : ℕ) : BlkM Byte := do
  return (← blk (.load bp off 1)).getD 0 0

def loadLong (bp : Option ℕ) (off : ℕ) : BlkM Long := do
  let xs ← blk (.load bp off 4)
  return long (xs.getD 0 0) (xs.getD 1 0) (xs.getD 2 0) (xs.getD 3 0)

def longBytes (v : Long) : List Byte := [byte v 3, byte v 2, byte v 1, byte v 0]

/-- `hydra_config_t`. -/
def configBytes (pad : ℕ) (c : HydraConfig) : List Byte :=
  longBytes (BitVec.ofNat 32 c.boardBase) ++ longBytes (BitVec.ofNat 32 c.boardDebug) ++
    c.paddress.toList ++ c.laddress.toList ++ List.replicate pad 0 ++
    longBytes (BitVec.ofNat 32 c.mode) ++ longBytes (BitVec.ofNat 32 c.flags)

/-- `hydra_status_t`, which holds integers only. -/
def statusBytes (st : HydraStatus) : List Byte :=
  let words (ns : List ℕ) := ns.flatMap fun n => longBytes (BitVec.ofNat 32 n)
  words [if st.boardState = HYDRA_BOARD_RUNNING then 1 else 0, st.packetsSent, st.packetsReceived,
      st.allocbsFailed, st.couldntPut, st.txErrors, st.rxErrors, st.collisions, st.overflow,
      st.crcErrors, st.framingErrors, st.missedPackets, st.bufferError, st.trailers,
      st.boardDebug, st.lateCollisions, st.lossOfCarrier, st.retryErrors, st.rxDelivered,
      st.rxNoSap, st.rxNotForUs, st.lastRxSap, st.lastBoundSap, st.openStreams, st.boundStreams,
      st.arpStreams, st.ipStreams, st.ifActive, st.ifIpackets, st.ifOpackets, st.ifIerrors,
      st.ifOerrors, st.txArp, st.txIp, st.rxArpDelivered, st.rxIpDelivered, st.lastTxSap,
      st.rxArpSeen, st.rxIpSeen] ++
    longBytes (BitVec.ofInt 32 st.swNextPkt) ++ longBytes (BitVec.ofInt 32 st.lastRingPage) ++
    words [st.lastRingNext, st.lastRingRsr, st.lastRingSize, st.lastCurr, st.lastBnry,
      st.rxBadNext, st.rxBadRsr, st.rxBadSize]

def storeLong (bp : Option ℕ) (off : ℕ) (v : Long) : BlkM Unit := blk (.store bp off (longBytes v))

def unlinkb : BlkM (List ℕ) := do
  let bp ← blk .bCont
  blk (.setBCont [])
  return bp

section
variable (L : Layout)

/-- Stores of zero, one byte each. -/
def clear (t : Option ℕ) : List ℕ → BlkM Unit
  | [] => pure ()
  | off :: offs => do
      blk (.store t off [0])
      clear t offs

/-- The check of the two RAM commands, with the length and the page where it passes. -/
def ramRequest (t : Option ℕ) : BlkM (Option (ℤ × ℤ)) := do
  let len := (← loadLong t L.tLen).toInt
  if 0 ≤ len ∧ len ≤ 1024 then
    let page := (← loadLong t L.tPage).toInt
    return if int32 (int32 (page * 256) + len) < NE8390_STOP_PG * 256 then some (len, page)
      else none
  else return none

/-- The diagnostic commands, on the structure in a block. -/
def hydraTest (b : BoardId) (t : Option ℕ) : BlkM Unit := do
  let op ← loadLong t Layout.tOp
  if op = HYDRA_TEST_READ_REG then
    let reg ← loadByte t Layout.tReg
    if reg.toNat = NE_FIFO then blk (.store t Layout.tVal [0])
    else
      let val ← blk (.inb b reg.toNat)
      blk (.store t Layout.tVal [val])
  else if op = HYDRA_TEST_WRITE_REG then
    let reg ← loadByte t Layout.tReg
    let val ← loadByte t Layout.tVal
    blk (.testWriteReg b reg.toNat val)
  else if op = HYDRA_TEST_READ_RAM then
    match ← ramRequest L t with
    | some (len, page) =>
        let xs ← blk (.ramRead b len page)
        blk (.store t L.tData xs)
    | none => pure ()
  else if op = HYDRA_TEST_WRITE_RAM then
    match ← ramRequest L t with
    | some (len, page) =>
        -- a copy that is refused reads nothing
        let n := if OutOfRam len (int32 (page * 256)) then 0 else len.toNat
        let xs ← blk (.load t L.tData n)
        blk (.ramWrite b xs len page)
    | none => pure ()
  else if op = HYDRA_TEST_GET_STATE then
    clear t [L.tTsr, L.tIsr, L.tRsr, L.tNcr, L.tTcr, L.tRcr, L.tCurr, L.tBnry]
  else if op = HYDRA_TEST_TX then pure ()
  else if op = HYDRA_TEST_GET_BOARD then
    let bd := (← blk .driver).board b
    storeLong t L.tPage (BitVec.ofNat 32 bd.info.boardBase)
    blk (.store t L.tData bd.info.paddress.toList)
    blk (.store t (L.tData + 6) [if bd.status.boardState = HYDRA_BOARD_RUNNING then 1 else 0])
  else pure ()

/-- The first block as a `copyreq`. -/
def setCopyreq (mp : ℕ) (t : DbType) (addr : Long) (size : ℕ) (priv : Long) : BlkM Unit := do
  blk (.setType t)
  blk (.setWptr (some mp) fun _ => L.sizeofCopyreq)
  storeLong (some mp) L.cqAddr addr
  storeLong (some mp) L.cqSize (BitVec.ofNat 32 size)
  storeLong (some mp) L.cqFlag 0
  storeLong (some mp) L.cqPrivate priv

def copyRequest (mp : ℕ) (t : DbType) (addr : Long) (size : ℕ) (priv : Long) : BlkM Unit := do
  setCopyreq L mp t addr size priv
  blk .putnext

/-- The results in the `iocblk` of an answer without data. -/
def setResult (mp : ℕ) (error : Long) : BlkM Unit := do
  storeLong (some mp) L.iocCount 0
  storeLong (some mp) L.iocRval 0
  storeLong (some mp) L.iocError error

/-- The message without its data as the answer, with an error or with 0. -/
def answer (mp : ℕ) (t : DbType) (error : Long) : BlkM Unit := do
  blk (.setType t)
  blk (.freemsg (← unlinkb))
  setResult L mp error
  blk .putnext

/-- The `iocblk` of an answer with data. -/
def setCount (mp : ℕ) (size : ℕ) : BlkM Unit := do
  storeLong (some mp) L.iocCount (BitVec.ofNat 32 size)
  blk (.setType .M_IOCACK)

abbrev EINVAL : Long := 22
abbrev ENOMEM : Long := 12

/-- `b_cont` replaced by a new block of a given size; the answer is whether there is one. -/
def replaceCont (size : ℕ) : BlkM (Option ℕ) := do
  blk (.freemsg (← blk .bCont))
  let bp ← blk (.allocb size)
  blk (.setBCont bp)
  return bp.head?

/-- The message as the answer to a command that reports a structure, or for a transparent
one as the request to copy it out. -/
def reported (mp : ℕ) (arg : Long) (size : ℕ) : BlkM Unit := do
  if (← loadLong (some mp) L.iocCount) = TRANSPARENT then
    copyRequest L mp .M_COPYOUT arg size 0
  else
    setCount L mp size
    blk .putnext

/-- The body shared by these commands. -/
def report (mp : ℕ) (xs : List Byte) : BlkM Unit := do
  let arg ← loadLong (← blk .bCont).head? 0
  let bp ← replaceCont xs.length
  if bp = none then answer L mp .M_IOCNAK ENOMEM
  else
    blk (.store bp 0 xs)
    blk (.setWptr bp fun n => n + xs.length)
    reported L mp arg xs.length

/-- HYDRA_IOCTL_TEST. -/
def ioctlTest (b : BoardId) (mp : ℕ) : BlkM Unit := do
  if (← loadLong (some mp) L.iocCount) = TRANSPARENT then
    let arg ← loadLong (← blk .bCont).head? 0
    let bp ← replaceCont L.sizeofTest
    if bp = none then answer L mp .M_IOCNAK ENOMEM
    else copyRequest L mp .M_COPYIN arg L.sizeofTest arg
  else
    hydraTest L b (← blk .bCont).head?
    setCount L mp L.sizeofTest
    blk .putnext

def hydraioctl (hp : Slot) (mp : ℕ) : BlkM Unit := do
  let d ← blk .driver
  let b := (d.slot hp).boardIndex
  let bd := d.board b
  if (← blk .dbType) = .M_IOCDATA then
    if (← loadLong (some mp) L.cpRval) ≠ 0 then
      let bp ← blk .bCont
      blk (.freemsg (mp :: bp))
    else
      let priv ← loadLong (some mp) L.cpPrivate
      if priv ≠ 0 then
        hydraTest L b (← blk .bCont).head?
        copyRequest L mp .M_COPYOUT priv L.sizeofTest 0
      else answer L mp .M_IOCACK 0
  else
    let cmd := (← loadLong (some mp) L.iocCmd).toNat
    if cmd = SIOCSIFFLAGS ∨ cmd = SIOCGIFFLAGS then
      blk (.setType .M_IOCACK)
      blk .putnext
    else if cmd = HYDRA_NUMBER_OF_BOARDS then
      report L mp (longBytes (BitVec.ofNat 32 d.numberOfBoards))
    else if cmd = HYDRA_GET_CONFIG then
      report L mp (configBytes L.pad ⟨bd.info.boardBase, bd.status.boardDebug, bd.info.paddress,
        .replicate 8 0, 0, 0⟩)
    else if cmd = HYDRA_GET_STATUS then report L mp (statusBytes (reportStatus bd))
    else if cmd = HYDRA_IOCTL_TEST then ioctlTest L b mp
    else answer L mp .M_IOCNAK EINVAL

end
end HydraAmix.Hydra.Blocks
