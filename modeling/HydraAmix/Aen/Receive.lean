import HydraAmix.Library.Word
import Mathlib.Data.List.FinRange
import Mathlib.Logic.Function.Basic

/-!
# Reception on the LANCE board

`receive_interrupt` walks the ring of receive descriptors from
`rx_buffer_index` on, gathers the buffers of a chain in `rxbuff` and calls
`toss_packet_up_stream`. The chip changes nothing meanwhile. The loops of the
source have no bound of their own, so each takes its turns from a supply;
`none` says that the supply ended before the loop.

`rxbuff` and what follows it in memory is a function of the distance from its
first byte. A `bcopy` of a negative number of bytes copies nothing here and is
noted in `wild`. What STREAMS answers comes from a sequence, one entry for each
stream that a packet is offered to.
-/
namespace HydraAmix.Aen
open Word

abbrev RMD1_ENP : Byte := 0x01#8
abbrev RMD1_STP : Byte := 0x02#8
abbrev RMD1_BUFF : Byte := 0x04#8
abbrev RMD1_CRC : Byte := 0x08#8
abbrev RMD1_OFLO : Byte := 0x10#8
abbrev RMD1_FRAM : Byte := 0x20#8
abbrev RMD1_ERR : Byte := 0x40#8
abbrev RMD1_OWN : Byte := 0x80#8

abbrev RXCOUNT : ℕ := 128
abbrev AEN_MAXDEV : ℕ := 5
abbrev MAX_BUFFER_LENGTH : ℤ := 1518
abbrev ETH_CRC_LEN : ℤ := 4
abbrev ETH_TYPE_SIZE : ℤ := 2
abbrev ETH_LENGTH_SIZE : ℤ := 2
/-- `sizeof(ether_header_t)`. -/
abbrev ETH_HEADER_SIZE : ℤ := 14
abbrev ETHERTYPE_TRAIL : BitVec 16 := 0x1000#16
abbrev ETHERTYPE_NTRAILER : BitVec 16 := 16#16
abbrev AEN_RAW_DATA : BitVec 32 := 1#32
abbrev MODE_PROM : BitVec 16 := 0x8000#16

/-- `struct ringptr`; `hiaddr` is never read. -/
structure Ringptr where
  loaddr : BitVec 16
  mode : Byte
  length : BitVec 16
  count : BitVec 16
  deriving DecidableEq, Repr

namespace Ringptr

/-- `mode & bit`, as a condition. -/
def has (d : Ringptr) (bit : Byte) : Bool := d.mode &&& bit != 0

/-- The chip owns the descriptor. -/
def own (d : Ringptr) : Bool := d.has RMD1_OWN

/-- The descriptor ends a packet. -/
def enp (d : Ringptr) : Bool := d.has RMD1_ENP

/-- `!mode & bit`, as C reads it: the negation comes first. -/
def notHas (d : Ringptr) (bit : Byte) : Bool :=
  (if d.mode = 0 then 1 else 0) &&& bit != 0

end Ringptr

/-- The counters of `aen_status_t` that the interrupt routines keep. -/
structure AenStatus where
  packetsSent : ℕ
  packetsReceived : ℕ
  allocbsFailed : ℕ
  couldntPut : ℕ
  memoryError : ℕ
  missError : ℕ
  collisionError : ℕ
  babbleError : ℕ
  trailers : ℕ
  badStart : ℕ
  bufferError : ℕ
  overflow : ℕ
  framming : ℕ
  crc : ℕ
  deriving DecidableEq, Repr

/-- `aen_t`, with a flag for a stream that is open. -/
structure AenT where
  q : Bool
  flags : BitVec 32
  sap : BitVec 16
  deriving DecidableEq, Repr

/-- What a stream is sent. -/
inductive Upmsg where
  | raw (status : AenStatus) (packet : List Byte)
  | unitdataInd (dest src data : List Byte)
  deriving DecidableEq, Repr

/-- What STREAMS answers for one stream: `canput` and the two `allocb`s. -/
structure Answers where
  canput : Bool
  header : Bool
  data : Bool
  deriving DecidableEq, Repr

/-- What the receive path reads and does not change: the memory of the board,
the mode of the initialization block, the address, the streams, the packet hook
and the answers of STREAMS. -/
structure Env where
  mem : ℕ → Byte
  mode : BitVec 16
  paddress : List Byte
  aen : Fin AEN_MAXDEV → AenT
  hook : Option ((ℤ → Byte) → Bool)
  answers : ℕ → Answers

/-- What it changes besides the ring. `count` is the local variable. -/
structure Sink where
  rxbuff : ℤ → Byte
  count : ℤ
  status : AenStatus
  up : List (Fin AEN_MAXDEV × Upmsg)
  asked : ℕ
  wild : Bool

/-- The ring: the descriptors, `i` and `rx_buffer_index`, and the descriptors
that were handed back so far. -/
structure RxRing where
  rxptr : ℕ → Ringptr
  index : ℕ
  returned : List ℕ

structure Rx where
  ring : RxRing
  sink : Sink

/-! ### `toss_packet_up_stream` -/

/-- `n` bytes of the packet from a distance on. -/
def bytesAt (packet : ℤ → Byte) (start n : ℤ) : List Byte :=
  (List.range n.toNat).map fun k : ℕ => packet (start + k)

def shortAt (packet : ℤ → Byte) (start : ℤ) : BitVec 16 :=
  short (packet start) (packet (start + 1))

def broadcastAddress : List Byte := [0xff, 0xff, 0xff, 0xff, 0xff, 0xff]

def isTrailer (sap : BitVec 16) : Bool :=
  ETHERTYPE_TRAIL ≤ sap && sap ≤ ETHERTYPE_TRAIL + ETHERTYPE_NTRAILER

/-- How a packet is to be delivered: its protocol, and how many bytes stand
behind the header and behind these. -/
structure Lengths where
  sap : BitVec 16
  length : ℤ
  trailn : ℤ

def packetLengths (packet : ℤ → Byte) (count : ℤ) : Lengths :=
  let sap := shortAt packet 12
  if isTrailer sap then
    let length : ℤ := (sap - ETHERTYPE_TRAIL).toNat * 512
    { sap := shortAt packet (ETH_HEADER_SIZE + length)
      length := length
      trailn := (shortAt packet (ETH_HEADER_SIZE + length + ETH_TYPE_SIZE)).toNat -
        ETH_TYPE_SIZE - ETH_LENGTH_SIZE }
  else { sap := sap, length := count - ETH_CRC_LEN, trailn := 0 }

/-- The data block of a `DL_UNITDATA_IND`: what trails comes first. -/
def unitdata (packet : ℤ → Byte) (l : Lengths) : List Byte :=
  (if l.trailn ≠ 0 then
    bytesAt packet (ETH_HEADER_SIZE + l.length + ETH_TYPE_SIZE + ETH_LENGTH_SIZE) l.trailn
  else []) ++ bytesAt packet ETH_HEADER_SIZE l.length

/-- On a promiscuous board, for a stream that is not: the packet is for us. -/
def addressed (env : Env) (packet : ℤ → Byte) : Bool :=
  env.mode &&& MODE_PROM == 0 || bytesAt packet 0 6 == env.paddress ||
    bytesAt packet 0 6 == broadcastAddress

namespace Sink

/-- One message to a stream, if STREAMS lets it through. -/
def send (env : Env) (s : Sink) (j : Fin AEN_MAXDEV) (mp : Upmsg) (size : ℤ) : Sink :=
  let a := env.answers s.asked
  let s := { s with asked := s.asked + 1 }
  if a.canput then
    if a.header && a.data then
      { s with up := s.up ++ [(j, mp)], wild := s.wild || decide (size < 0) }
    else { s with status := { s.status with allocbsFailed := s.status.allocbsFailed + 1 } }
  else { s with status := { s.status with couldntPut := s.status.couldntPut + 1 } }

/-- One turn of the loop over the streams. -/
def tossTo (env : Env) (l : Lengths) (s : Sink) (j : Fin AEN_MAXDEV) : Sink :=
  let aen := env.aen j
  if aen.q = false then s
  else if aen.flags &&& AEN_RAW_DATA ≠ 0 then
    s.send env j (.raw s.status (bytesAt s.rxbuff 0 s.count)) s.count
  else if aen.sap = l.sap then
    if addressed env s.rxbuff then
      s.send env j (.unitdataInd (bytesAt s.rxbuff 0 6) (bytesAt s.rxbuff 6 6)
        (unitdata s.rxbuff l)) (min l.length l.trailn)
    else s
  else s

/-- `toss_packet_up_stream`. -/
def toss (env : Env) (s : Sink) : Sink :=
  let l := packetLengths s.rxbuff s.count
  let s := if isTrailer (shortAt s.rxbuff 12) then
    { s with status := { s.status with trailers := s.status.trailers + 1 } } else s
  (List.finRange AEN_MAXDEV).foldl (tossTo env l) s

end Sink

/-! ### `receive_interrupt` -/

/-- The loop that gathers a chain: `rb` (NULL or a place in `rxbuff`), the
bytes so far, and what the loop changes outside the ring. -/
structure Copy where
  rb : Option ℤ
  rxtotsize : ℤ
  sink : Sink

/-- The counting of errors in that loop. -/
def countErrors (status : AenStatus) (d : Ringptr) : AenStatus :=
  let status := if d.has RMD1_BUFF then
    { status with bufferError := status.bufferError + 1 } else status
  if d.notHas RMD1_ENP && d.has RMD1_OFLO then
    { status with overflow := status.overflow + 1 }
  else if d.notHas RMD1_OFLO then
    { status with
      framming := if d.has RMD1_FRAM then status.framming + 1 else status.framming
      crc := if d.has RMD1_CRC then status.crc + 1 else status.crc }
  else status

/-- The bytes that a descriptor adds to those of the chain before it. -/
def Ringptr.adds (d : Ringptr) (rxtotsize : ℤ) : ℤ :=
  if d.enp then d.count.toNat - rxtotsize else -d.length.toInt

/-- `bcopy` from the memory of the board. -/
def bcopy (mem : ℕ → Byte) (loaddr : BitVec 16) (rxbuff : ℤ → Byte) (rb count : ℤ) : ℤ → Byte :=
  fun a => if rb ≤ a ∧ a < rb + count then mem (loaddr.toNat + (a - rb).toNat) else rxbuff a

/-- The body of the loop that gathers a chain. -/
def Copy.take (mem : ℕ → Byte) (c : Copy) (d : Ringptr) : Copy :=
  if d.has RMD1_ERR then
    { c with rb := none, sink := { c.sink with status := countErrors c.sink.status d } }
  else
    match c.rb with
    | none => c
    | some rb =>
        let count := d.adds c.rxtotsize
        if c.rxtotsize + count > MAX_BUFFER_LENGTH then
          { rb := none
            rxtotsize := c.rxtotsize + count
            sink := { c.sink with
              count := count
              status := { c.sink.status with bufferError := c.sink.status.bufferError + 1 } } }
        else
          { rb := some (rb + count)
            rxtotsize := c.rxtotsize + count
            sink := { c.sink with
              rxbuff := bcopy mem d.loaddr c.sink.rxbuff rb count
              count := if d.enp then d.count.toNat else count
              wild := c.sink.wild || decide (count < 0) } }

/-- A descriptor after `mode = RMD1_OWN`. -/
def Ringptr.handedBack (d : Ringptr) : Ringptr := { d with mode := RMD1_OWN }

/-- `rxptr[i++].mode = RMD1_OWN`, with the wrap of `i`. -/
def RxRing.give (r : RxRing) : RxRing :=
  { rxptr := Function.update r.rxptr r.index (r.rxptr r.index).handedBack
    index := (r.index + 1) % RXCOUNT
    returned := r.returned ++ [r.index] }

/-- The scan for the end of a packet: the `j` that it stops at. -/
def scan (rxptr : ℕ → Ringptr) : ℕ → ℕ → Option ℕ
  | 0, _ => none
  | fuel + 1, j =>
      if (rxptr j).own then some j
      else if (rxptr j).enp then some j
      else scan rxptr fuel ((j + 1) % RXCOUNT)

/-- The loop over the buffers of a chain, from `i` up to `j`. -/
def copyLoop (mem : ℕ → Byte) (j : ℕ) : ℕ → RxRing → Copy → Option (RxRing × Copy)
  | 0, _, _ => none
  | fuel + 1, r, c =>
      if r.index = j then some (r, c)
      else copyLoop mem j fuel r.give (c.take mem (r.rxptr r.index))

/-- What follows that loop: the packet goes to the hook or up the streams. -/
def Copy.handUp (env : Env) (c : Copy) : Sink :=
  match c.rb with
  | none => c.sink
  | some _ =>
      match env.hook with
      | some hook => if hook c.sink.rxbuff then c.sink else c.sink.toss env
      | none => c.sink.toss env

/-- One turn of the loop of `receive_interrupt`, and whether it goes on. -/
def receiveTurn (env : Env) (fuel : ℕ) (s : Rx) : Option (Bool × Rx) :=
  let d := s.ring.rxptr s.ring.index
  if d.own then some (false, s)
  else if d.notHas RMD1_STP then
    some (true,
      { ring := s.ring.give
        sink := { s.sink with
          status := { s.sink.status with badStart := s.sink.status.badStart + 1 } } })
  else
    match scan s.ring.rxptr fuel s.ring.index with
    | none => none
    | some j =>
        if (s.ring.rxptr j).own || !(s.ring.rxptr j).enp then some (false, s)
        else
          match copyLoop env.mem ((j + 1) % RXCOUNT) fuel s.ring ⟨some 0, 0, s.sink⟩ with
          | none => none
          | some (ring, c) => some (true, ⟨ring, c.handUp env⟩)

def receiveLoop (env : Env) : ℕ → Rx → Option Rx
  | 0, _ => none
  | fuel + 1, s =>
      match receiveTurn env fuel s with
      | none => none
      | some (false, s) => some s
      | some (true, s) => receiveLoop env fuel s

/-- `packets_received++`, before anything is known to be received. -/
def Rx.counted (s : Rx) : Rx where
  ring := s.ring
  sink := { s.sink with
    status := { s.sink.status with packetsReceived := s.sink.status.packetsReceived + 1 } }

def receiveInterrupt (env : Env) (fuel : ℕ) (s : Rx) : Option Rx :=
  receiveLoop env fuel s.counted

end HydraAmix.Aen
