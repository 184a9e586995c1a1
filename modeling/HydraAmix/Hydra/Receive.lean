import HydraAmix.Hydra.BufferRam

/-!
# Reception

`receive_interrupt` and `toss_packet_up_stream`. One pass of the receive loop
up to the call of `toss_packet_up_stream` is `receiveFrame`; its result says
whether the loop ends, goes on, or hands a packet up first. A packet is the
bytes the pass has stored in the receive buffer.
-/
namespace HydraAmix.Hydra
open Word Program Prog

inductive Received where
  | done
  | again
  | packet (bytes : List Byte)
  deriving DecidableEq, Repr

/-- The value every regular path writes to BNRY for a next page. -/
def boundaryBefore (nextFrame : ℤ) : ℤ :=
  if nextFrame - 1 < NE8390_RX_START_PG then NE8390_STOP_PG - 1 else nextFrame - 1

/-- Move `next_pkt` and keep BNRY one page behind it. -/
def moveTo (b : BoardId) (nextFrame : ℤ) : HydraM Unit := do
  modifyInfo b fun i => { i with nextPkt := nextFrame }
  hydraOutb b NE_BNRY (BitVec.ofInt 8 (boundaryBefore nextFrame))

/-- The copy of a packet out of the ring, in two parts where it wraps. -/
def copyPacket (b : BoardId) (info : HydraInfo) (pktsize : ℤ) : HydraM (List Byte) :=
  let offset := info.nextPkt * 256 + 4
  let stop := NE8390_STOP_PG * 256
  if offset + pktsize > stop then do
    let semi := stop - offset
    let xs ← hydraRamReadOffset b MAX_BUFFER_LENGTH.toNat semi offset
    let ys ← hydraRamReadOffset b (MAX_BUFFER_LENGTH - semi).toNat (pktsize - semi)
      (info.rxStartPage * 256)
    return xs ++ ys
  else hydraRamReadOffset b MAX_BUFFER_LENGTH.toNat pktsize offset

/-- The part of a pass that follows the read of the header. -/
def receiveHeader (b : BoardId) (info : HydraInfo) (header : List Byte) : HydraM Received := do
  let nextFrame : ℤ := (header.getD 0 0).toNat
  let rsr := header.getD 1 0
  let pktsize : ℤ := (header.getD 3 0).toNat * 256 + (header.getD 2 0).toNat
  modifyStatus b fun st => { st with
    lastRingPage := info.nextPkt
    lastRingNext := (header.getD 0 0).toNat
    lastRingRsr := (header.getD 1 0).toNat
    lastRingSize := (header.getD 3 0).toNat * 256 + (header.getD 2 0).toNat }
  if nextFrame < NE8390_RX_START_PG ∨ nextFrame ≥ NE8390_STOP_PG then
    modifyStatus b fun st => { st with
      rxErrors := st.rxErrors + 1
      bufferError := st.bufferError + 1
      rxBadNext := st.rxBadNext + 1 }
    modifyIfstats b fun i => { i with ierrors := i.ierrors + 1 }
    modifyInfo b fun i => { i with nextPkt := NE8390_RX_START_PG }
    hydraOutb b NE_BNRY (BitVec.ofInt 8 NE8390_RX_START_PG)
    return .done
  else if rsr &&& NE_RSR_PRX = 0 then
    modifyStatus b fun st => { st with
      rxErrors := st.rxErrors + 1
      rxBadRsr := st.rxBadRsr + 1 }
    modifyIfstats b fun i => { i with ierrors := i.ierrors + 1 }
    moveTo b nextFrame
    return .again
  else if pktsize - 4 < ETH_MINFRAME ∨ pktsize - 4 > MAX_BUFFER_LENGTH then
    modifyStatus b fun st => { st with
      bufferError := st.bufferError + 1
      rxBadSize := st.rxBadSize + 1 }
    moveTo b nextFrame
    return .again
  else
    let packet ← copyPacket b info (pktsize - 4)
    modifyStatus b fun st => { st with
      packetsReceived := st.packetsReceived + 1
      crcErrors := st.crcErrors + if rsr &&& NE_RSR_CRC ≠ 0 then 1 else 0
      framingErrors := st.framingErrors + if rsr &&& NE_RSR_FAE ≠ 0 then 1 else 0
      overflow := st.overflow + if rsr &&& NE_RSR_FO ≠ 0 then 1 else 0 }
    modifyIfstats b fun i => { i with ipackets := i.ipackets + 1 }
    moveTo b nextFrame
    return .packet packet

/-- One pass of the loop, from the read of CURR to the call of
`toss_packet_up_stream`. -/
def receiveFrame (b : BoardId) : HydraM Received := do
  hydraOutb b NE_CR (NE_CR_P1 ||| NE_CR_STA ||| NE_CR_RDMA_ABORT)
  let curr ← hydraInb b NE_CURR
  hydraOutb b NE_CR (NE_CR_P0 ||| NE_CR_STA ||| NE_CR_RDMA_ABORT)
  let boundary ← hydraInb b NE_BNRY
  modifyStatus b fun st => { st with lastCurr := curr.toNat, lastBnry := boundary.toNat }
  let info := ((← load).board b).info
  if info.nextPkt = curr.toNat then return .done
  else
    let header ← hydraRamRead b 4 4 info.nextPkt
    receiveHeader b info header

/-! ### Demultiplexing -/

def broadcastAddress : List Byte := [0xff, 0xff, 0xff, 0xff, 0xff, 0xff]

def isTrailer (sap : BitVec 16) : Bool :=
  ETHERTYPE_TRAIL ≤ sap && sap ≤ ETHERTYPE_TRAIL + ETHERTYPE_NTRAILER

/-- The protocol type and the two lengths a packet is delivered with. -/
def packetLengths (b : BoardId) (packet : List Byte) (sap : BitVec 16) :
    HydraM (BitVec 16 × ℤ × ℤ) :=
  if isTrailer sap then do
    let length : ℤ := ((sap - ETHERTYPE_TRAIL).toNat : ℤ) * 512
    let trailn : ℤ := (← peekShort packet (ETH_HEADER_SIZE + length + 2)).toNat - 2 - 2
    let sap ← peekShort packet (ETH_HEADER_SIZE + length)
    modifyStatus b fun st => { st with trailers := st.trailers + 1 }
    return (sap, length, trailn)
  else return (sap, (packet.length : ℤ) - ETH_HEADER_SIZE, 0)

/-- The copy of a packet to a stream in raw mode. -/
def tossRaw (b : BoardId) (packet : List Byte) (q : QId) : HydraM Unit := do
  if ← canput q then
    if ← allocb (.sizeof .hydra_status 0) then
      if ← allocb (.bytes packet.length) then
        let status := ((← load).board b).status
        let data ← peeks packet 0 packet.length
        putnext q (.raw status data)
      else
        modifyStatus b fun st => { st with allocbsFailed := st.allocbsFailed + 1 }
        freemsg ⟨[], []⟩
    else modifyStatus b fun st => { st with allocbsFailed := st.allocbsFailed + 1 }
  else modifyStatus b fun st => { st with couldntPut := st.couldntPut + 1 }

/-- The two `bcopy` calls that fill the data block; the length of the first is
unsigned. -/
def copyPayload (packet : List Byte) (length trailn : ℤ) : HydraM (List Byte) := do
  let trailer ← if trailn ≠ 0 then
      peeks packet (ETH_HEADER_SIZE + length + 2 + 2) (trailn % 4294967296).toNat
    else pure []
  let data ← peeks packet ETH_HEADER_SIZE length.toNat
  return trailer ++ data

/-- The delivery of a packet to a stream whose SAP it has. -/
def tossBound (b : BoardId) (packet : List Byte) (sap : BitVec 16) (length trailn : ℤ)
    (q : QId) : HydraM Unit := do
  let dest ← peeks packet 0 6
  let info := ((← load).board b).info
  if dest ≠ info.paddress.toList ∧ dest ≠ broadcastAddress then
    modifyStatus b fun st => { st with rxNotForUs := st.rxNotForUs + 1 }
  else if ← canput q then
    if ← allocb (.sizeof .DL_primitives 12) then
      if ← allocb (.bytes (length + trailn)) then
        let src ← peeks packet 6 6
        let data ← copyPayload packet length trailn
        putnext q (.unitdataInd dest src data)
        modifyStatus b fun st => { st with
          rxDelivered := st.rxDelivered + 1
          rxArpDelivered := st.rxArpDelivered + if sap = ETHERTYPE_ARP then 1 else 0
          rxIpDelivered := st.rxIpDelivered + if sap = ETHERTYPE_IP then 1 else 0 }
      else
        modifyStatus b fun st => { st with allocbsFailed := st.allocbsFailed + 1 }
        freemsg ⟨[], []⟩
    else modifyStatus b fun st => { st with allocbsFailed := st.allocbsFailed + 1 }
  else modifyStatus b fun st => { st with couldntPut := st.couldntPut + 1 }

/-- The loop over the slots; the result is `sap_matched`. -/
def tossStreams (b : BoardId) (packet : List Byte) (sap : BitVec 16) (length trailn : ℤ) :
    List (Fin HYDRA_MAXDEV) → HydraM Bool
  | [] => return false
  | n :: ns => do
      let hp := ((← load).board b).hydra n
      match hp.q with
      | none => tossStreams b packet sap length trailn ns
      | some q =>
          if hp.flags &&& HYDRA_RAW_DATA ≠ 0 then
            tossRaw b packet q
            tossStreams b packet sap length trailn ns
          else if hp.sap = sap then
            tossBound b packet sap length trailn q
            let _ ← tossStreams b packet sap length trailn ns
            return true
          else tossStreams b packet sap length trailn ns

def tossPacketUpStream (b : BoardId) (packet : List Byte) : HydraM Unit := do
  let sap ← peekShort packet 12
  modifyStatus b fun st => { st with
    lastRxSap := sap.toNat
    rxArpSeen := st.rxArpSeen + if sap = ETHERTYPE_ARP then 1 else 0
    rxIpSeen := st.rxIpSeen + if sap = ETHERTYPE_IP then 1 else 0 }
  let (sap, length, trailn) ← packetLengths b packet sap
  let matched ← tossStreams b packet sap length trailn (List.finRange HYDRA_MAXDEV)
  if matched then pure ()
  else modifyStatus b fun st => { st with rxNoSap := st.rxNoSap + 1 }

/-! ### The loop -/

/-- The receive loop with `n` passes left before `loop_count` ends it. -/
def receiveLoop (b : BoardId) : ℕ → HydraM Unit
  | 0 => modifyStatus b fun st => { st with rxErrors := st.rxErrors + 1 }
  | n + 1 => do
      match ← receiveFrame b with
      | .done => pure ()
      | .again => receiveLoop b n
      | .packet p =>
          tossPacketUpStream b p
          receiveLoop b n

def receiveInterrupt (b : BoardId) : HydraM Unit := do
  hydraOutb b NE_CR (NE_CR_P0 ||| NE_CR_STA ||| NE_CR_RDMA_ABORT)
  receiveLoop b 256

end HydraAmix.Hydra
