import HydraAmix.Hydra.Transmit
import HydraAmix.Hydra.Receive

/-!
# The interrupt handler

`hydraintr` polls every running board. Received frames and errors are
acknowledged first, then a finished transmission, an aborted one, and the
counter overflow.
-/
namespace HydraAmix.Hydra
open Word Program Prog BoardState

abbrev ISR_RX : Byte := NE_ISR_PRX ||| NE_ISR_RXE ||| NE_ISR_OVW

/-- The branch for the three receive bits. -/
def receiveEvents (b : BoardId) (status : Byte) : HydraM Unit :=
  if status &&& ISR_RX ≠ 0 then do
    modifyStatus b fun st => { st with
      rxErrors := st.rxErrors + if status &&& NE_ISR_RXE ≠ 0 then 1 else 0
      overflow := st.overflow + if status &&& NE_ISR_OVW ≠ 0 then 1 else 0 }
    modifyIfstats b fun i => { i with
      ierrors := i.ierrors + (if status &&& NE_ISR_RXE ≠ 0 then 1 else 0) +
        (if status &&& NE_ISR_OVW ≠ 0 then 1 else 0) }
    hydraOutb b NE_ISR (status &&& ISR_RX)
    if status &&& NE_ISR_PRX ≠ 0 then receiveInterrupt b else pure ()
  else pure ()

/-- The branch for a finished transmission. -/
def transmitDone (b : BoardId) (status : Byte) : HydraM Unit :=
  if status &&& NE_ISR_PTX ≠ 0 then do
    hydraOutb b NE_ISR NE_ISR_PTX
    transmitInterrupt b
  else pure ()

/-- The branch for an aborted transmission. -/
def transmitError (b : BoardId) (status : Byte) : HydraM Unit :=
  if status &&& NE_ISR_TXE ≠ 0 then do
    hydraOutb b NE_ISR NE_ISR_TXE
    let tsr ← hydraInb b NE_TSR
    modifyStatus b fun st => { st with
      txErrors := st.txErrors + 1
      collisions := st.collisions + if tsr &&& NE_TSR_COL ≠ 0 then 1 else 0
      retryErrors := st.retryErrors + if tsr &&& NE_TSR_ABT ≠ 0 then 1 else 0
      lateCollisions := st.lateCollisions + if tsr &&& NE_TSR_CDH ≠ 0 then 1 else 0
      lossOfCarrier := st.lossOfCarrier + if tsr &&& NE_TSR_CRS ≠ 0 then 1 else 0 }
    modifyIfstats b fun i => { i with oerrors := i.oerrors + 1 }
  else pure ()

/-- The branch for a tally counter that overflowed. -/
def counterOverflow (b : BoardId) (status : Byte) : HydraM Unit :=
  if status &&& NE_ISR_CNT ≠ 0 then do
    hydraOutb b NE_ISR NE_ISR_CNT
    let n ← hydraInb b NE_CNTR0
    modifyStatus b fun st => { st with missedPackets := st.missedPackets + n.toNat }
  else pure ()

/-- The body of the loop over the boards. -/
def hydraintrBoard (b : BoardId) : HydraM Unit := do
  let bd := (← load).board b
  if bd.status.boardState = HYDRA_BOARD_RUNNING ∧ bd.info.nicBase ≠ 0 then
    hydraOutb b NE_CR (NE_CR_P0 ||| NE_CR_STA ||| NE_CR_RDMA_ABORT)
    let status ← hydraInb b NE_ISR
    if status = 0 then pure ()
    else
      receiveEvents b status
      transmitDone b status
      transmitError b status
      counterOverflow b status
  else pure ()

def hydraintrBoards : List BoardId → HydraM Unit
  | [] => pure ()
  | b :: bs => do
      hydraintrBoard b
      hydraintrBoards bs

def hydraintr : HydraM Unit := do
  if ← panicking then pure ()
  else hydraintrBoards (List.finRange HYDRA_MAXBOARDS)

end HydraAmix.Hydra
