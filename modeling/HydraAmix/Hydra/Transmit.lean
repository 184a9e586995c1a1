import HydraAmix.Hydra.BufferRam

/-!
# Transmission

`hydraxmit` and `transmit_interrupt`. `tmp` is an automatic array, so a frame
shorter than the minimum goes out with whatever the array held.
-/
namespace HydraAmix.Hydra
open Word Program Prog

/-- The loop over the data blocks: at most `n` bytes in all. -/
def copyData : List (List Byte) → ℕ → HydraM (List Byte)
  | [], _ => pure []
  | blk :: rest, n => do
      let xs ← peeks blk 0 (min blk.length n)
      let ys ← copyData rest (n - min blk.length n)
      return xs ++ ys

/-- The bytes of `tmp` that the padding to the minimum size adds. -/
def padding (tmp : ℕ → Byte) (n : ℕ) : List Byte :=
  (List.range' n (ETH_MINPACKET - n)).map tmp

/-- The part of `hydraxmit` that fills `tmp`, up to the padded size. -/
def buildFrame (hp : HydraT) (paddress : Vector Byte 6) (mp : Msg) : HydraM (List Byte) := do
  let off ← peekLong mp.block 8
  let dest ← peeks mp.block off.toInt 6
  modifyStatus hp.boardIndex fun st => { st with lastTxSap := hp.sap.toNat }
  let data ← copyData mp.cont ETH_MAXDATA
  let tmp ← autoArray
  let frame := dest ++ paddress.toList ++ [(hp.sap >>> 8).setWidth 8, hp.sap.setWidth 8] ++ data
  return frame ++ padding tmp frame.length

/-- The part of `hydraxmit` that loads `tmp` and starts the transmitter. -/
def startTransmit (b : BoardId) (tmp : List Byte) (page : ℤ) : HydraM Unit := do
  let pktsize := tmp.length
  hydraRamWrite b tmp pktsize page
  hydraOutb b NE_CR (NE_CR_P0 ||| NE_CR_STA ||| NE_CR_RDMA_ABORT)
  hydraOutb b NE_TPSR (BitVec.ofInt 8 page)
  hydraOutb b NE_TBCNT0 (BitVec.ofNat 8 pktsize)
  hydraOutb b NE_TBCNT1 (BitVec.ofNat 8 (pktsize >>> 8))
  hydraOutb b NE_CR (NE_CR_P0 ||| NE_CR_TXP ||| NE_CR_STA ||| NE_CR_RDMA_ABORT)

/-- The result tells whether the message was taken. -/
def hydraxmit (q : QId) (mp : Msg) : HydraM Bool := do
  match ← wrPtr q with
  | none => return false
  | some s =>
      let d ← load
      let hp := d.slot s
      let b := hp.boardIndex
      let info := (d.board b).info
      hydraOutb b NE_CR (NE_CR_P0 ||| NE_CR_STA ||| NE_CR_RDMA_ABORT)
      let cr ← hydraInb b NE_CR
      if cr &&& NE_CR_TXP ≠ 0 then return false
      else
        let tmp ← buildFrame hp info.paddress mp
        freemsg mp
        startTransmit b tmp info.txStartPage
        modifyStatus b fun st => { st with
          packetsSent := st.packetsSent + 1
          txArp := st.txArp + if hp.sap = ETHERTYPE_ARP then 1 else 0
          txIp := st.txIp + if hp.sap = ETHERTYPE_IP then 1 else 0 }
        modifyIfstats b fun i => { i with opackets := i.opackets + 1 }
        return true

/-- The loop of `transmit_interrupt` over the slots of a board. -/
def transmitSlots (b : BoardId) : List (Fin HYDRA_MAXDEV) → HydraM Unit
  | [] => pure ()
  | n :: ns => do
      match (((← load).board b).hydra n).q with
      | none => transmitSlots b ns
      | some q =>
          match ← getq q with
          | none => transmitSlots b ns
          | some mp =>
              if ← hydraxmit q mp then transmitSlots b ns
              else putbq q mp

def transmitInterrupt (b : BoardId) : HydraM Unit := transmitSlots b (List.finRange HYDRA_MAXDEV)

end HydraAmix.Hydra
