import HydraAmix.Hydra.Transmit

/-!
# What user processes write to a stream

`hydraproto` (DLPI requests), `hydraioctl` with `hydra_test_write_reg`, and
`hydrawput`, which sorts messages by type. The write service procedure
`hydrawsrv` does nothing. The primitive numbers are those of the system's
`dlpi.h`. The two copies of the diagnostic commands in `hydraioctl`, one for
the transparent and one for the I_STR form, are the same text and appear here
once, as `hydraTest`.
-/
namespace HydraAmix.Hydra
open Word Program Prog DlState BoardState

abbrev DL_INFO_REQ : Long := 0x00
abbrev DL_BIND_REQ : Long := 0x01
abbrev DL_UNBIND_REQ : Long := 0x02
abbrev DL_UNITDATA_REQ : Long := 0x07
abbrev DL_ATTACH_REQ : Long := 0x0b
abbrev DL_DETACH_REQ : Long := 0x0c
abbrev DL_ETHER : ℕ := 0x04
abbrev DL_CLDLS : ℕ := 0x02
abbrev DL_STYLE1 : ℕ := 0x0500

/-- Answer a request with DL_OK_ACK and only then change the stream, if there
is memory for the answer. -/
def okAck (q : QId) (s : Slot) (prim : Long) (f : HydraT → HydraT) : HydraM Unit := do
  if ← allocb (.sizeof .dl_ok_ack 0) then
    modifySlot s f
    qreply q (.okAck prim)
  else pure ()

/-- Queue a data request, unless nothing is queued and the chip takes it now. -/
def unitdataReq (q : QId) (mp : Msg) : HydraM Unit := do
  if ← qfirst q then putq q mp
  else if ← hydraxmit q mp then pure ()
  else putq q mp

def bindReq (q : QId) (s : Slot) (mp : Msg) : HydraM Unit := do
  let b := ((← load).slot s).boardIndex
  let sap := (← peekLong mp.block 4).setWidth 16
  modifySlot s fun h => { h with sap := sap }
  modifyStatus b fun st => { st with lastBoundSap := sap.toNat }
  modifySlot s fun h => { h with state := DL_IDLE }
  freemsg mp
  if ← allocb (.sizeof .dl_bind_ack 6) then
    let d ← load
    qreply q (.bindAck (d.slot s).sap (d.board b).info.paddress)
  else pure ()

def infoReq (q : QId) (s : Slot) : HydraM Unit := do
  let b := ((← load).slot s).boardIndex
  if ← allocb (.sizeof .dl_info_ack 6) then
    let d ← load
    let state := (d.slot s).state
    qreply q (.infoAck {
      maxSdu := ETH_MAXDATA, minSdu := 1, addrLength := 6, macType := DL_ETHER
      currentState := state, maxIdu := ETH_MAXDATA, serviceMode := DL_CLDLS
      providerStyle := DL_STYLE1
      addr := if state = DL_IDLE then some (d.board b).info.paddress else none })
  else pure ()

/-- The `switch` of `hydraproto` over the primitive; the result is the source's
return value. -/
def protoSwitch (q : QId) (s : Slot) (mp : Msg) (prim : Long) : HydraM ℕ :=
  if prim = DL_UNITDATA_REQ then do
    unitdataReq q mp
    return 0
  else if prim = DL_ATTACH_REQ then do
    freemsg mp
    okAck q s DL_ATTACH_REQ fun h => { h with state := DL_UNBOUND }
    return 1
  else if prim = DL_BIND_REQ then do
    bindReq q s mp
    return 1
  else if prim = DL_INFO_REQ then do
    freemsg mp
    infoReq q s
    return 1
  else if prim = DL_UNBIND_REQ then do
    freemsg mp
    okAck q s DL_UNBIND_REQ fun h => { h with state := DL_UNBOUND, sap := 0 }
    return 1
  else if prim = DL_DETACH_REQ then do
    freemsg mp
    okAck q s DL_DETACH_REQ fun h => { h with state := DL_UNATTACHED }
    return 1
  else do
    freemsg mp
    return 1

def hydraproto (q : QId) (mp : Msg) : HydraM ℕ := do
  match ← wrPtr q with
  | none => return 0
  | some s =>
      let prim ← peekLong mp.block 0
      protoSwitch q s mp prim

/-! ### Ioctls -/

abbrev SIOCSIFFLAGS : ℕ := 0x80206910
abbrev SIOCGIFFLAGS : ℕ := 0xc0206911
abbrev HYDRAIOC : ℕ := 'H'.toNat <<< 8
abbrev HYDRA_GET_STATUS : ℕ := HYDRAIOC ||| 2
abbrev HYDRA_GET_CONFIG : ℕ := HYDRAIOC ||| 3
abbrev HYDRA_NUMBER_OF_BOARDS : ℕ := HYDRAIOC ||| 5
abbrev HYDRA_IOCTL_TEST : ℕ := HYDRAIOC ||| 20

abbrev HYDRA_TEST_READ_REG : Long := 0
abbrev HYDRA_TEST_WRITE_REG : Long := 1
abbrev HYDRA_TEST_READ_RAM : Long := 2
abbrev HYDRA_TEST_WRITE_RAM : Long := 3
abbrev HYDRA_TEST_GET_STATE : Long := 4
abbrev HYDRA_TEST_TX : Long := 5
abbrev HYDRA_TEST_GET_BOARD : Long := 6

def hydraTestWriteReg (b : BoardId) (reg : ℕ) (val : Byte) : HydraM Unit :=
  if reg > 0x0f then pure ()
  else if reg = NE_TBCNT1_W then pure ()
  else if reg = NE_TPSR ∨ reg = NE_TBCNT0_W ∨ reg = NE_TBCNT1_W then do
    hydraOutb b NE_CR (NE_CR_P0 ||| NE_CR_STA ||| NE_CR_RDMA_ABORT)
    hydraOutb b reg val
  else hydraOutb b reg val

/-- The check of the two RAM commands. -/
def RamRequest (t : HydraTest) : Prop :=
  0 ≤ t.len.toInt ∧ t.len.toInt ≤ 1024 ∧
    int32 (int32 (t.page.toInt * 256) + t.len.toInt) < NE8390_STOP_PG * 256

instance (t : HydraTest) : Decidable (RamRequest t) := by
  unfold RamRequest
  infer_instance

/-- `n` stores from index `i` on into an array of a given size. -/
def pokes (size : ℕ) (i : ℤ) : ℕ → HydraM Unit
  | 0 => pure ()
  | n + 1 => do
      poke size i
      pokes size (i + 1) n

/-- The data array with its first bytes replaced. -/
def storeData (data : Vector Byte 1024) (xs : List Byte) : Vector Byte 1024 :=
  Vector.ofFn fun i => xs.getD i data[i]

def hydraTest (b : BoardId) (t : HydraTest) : HydraM HydraTest := do
  if t.op = HYDRA_TEST_READ_REG then
    if t.reg.toNat = NE_FIFO then return { t with val := 0 }
    else
      let val ← hydraInb b t.reg.toNat
      return { t with val := val }
  else if t.op = HYDRA_TEST_WRITE_REG then
    hydraTestWriteReg b t.reg.toNat t.val
    return t
  else if t.op = HYDRA_TEST_READ_RAM then
    if RamRequest t then
      let xs ← hydraRamRead b 1024 t.len.toInt t.page.toInt
      return { t with data := storeData t.data xs }
    else return t
  else if t.op = HYDRA_TEST_WRITE_RAM then
    if RamRequest t then
      hydraRamWrite b t.data.toList t.len.toInt t.page.toInt
      return t
    else return t
  else if t.op = HYDRA_TEST_GET_STATE then
    return { t with tsr := 0, isr := 0, rsr := 0, ncr := 0, tcr := 0, rcr := 0, curr := 0, bnry := 0 }
  else if t.op = HYDRA_TEST_TX then return t
  else if t.op = HYDRA_TEST_GET_BOARD then
    let bd := (← load).board b
    pokes 1024 0 7
    let state : Byte := if bd.status.boardState = HYDRA_BOARD_RUNNING then 1 else 0
    return { t with
      page := BitVec.ofNat 32 bd.info.boardBase
      data := storeData t.data (bd.info.paddress.toList ++ [state]) }
  else return t

/-- The tail shared by the commands that report a structure. -/
def iocReply (q : QId) (count : Option ℕ) (arg : ℕ) (size : Struct) (data : IocData) :
    HydraM Unit := do
  if ← allocb (.sizeof size 0) then
    match count with
    | none => putnext q (.copyout arg data)
    | some _ => putnext q (.iocack data)
  else putnext q (.iocnak .ENOMEM)

/-- HYDRA_GET_STATUS: the statistics with the counts of open streams filled in. -/
def reportStatus (bd : HydraBoard) : HydraStatus :=
  let opened := (List.ofFn bd.hydra).filter fun h => h.q.isSome
  { bd.status with
    openStreams := opened.length
    boundStreams := (opened.filter fun h => h.sap != 0).length
    arpStreams := (opened.filter fun h => h.sap == ETHERTYPE_ARP).length
    ipStreams := (opened.filter fun h => h.sap == ETHERTYPE_IP).length
    ifActive := bd.ifstats.active
    ifIpackets := bd.ifstats.ipackets
    ifOpackets := bd.ifstats.opackets
    ifIerrors := bd.ifstats.ierrors
    ifOerrors := bd.ifstats.oerrors
    swNextPkt := bd.info.nextPkt }

def hydraioctl (q : QId) (m : IocMsg) : HydraM Unit := do
  match ← wrPtr q with
  | none => pure ()
  | some s =>
      let d ← load
      let b := (d.slot s).boardIndex
      let bd := d.board b
      match m with
      | .iocdata _ rval priv t =>
          if rval ≠ 0 then freemsg ⟨[], []⟩
          else if priv ≠ 0 then
            let t ← hydraTest b t
            putnext q (.copyout priv (.test t))
          else putnext q (.iocack .none)
      | .ioctl cmd count arg t =>
          if cmd = SIOCSIFFLAGS ∨ cmd = SIOCGIFFLAGS then putnext q (.iocack .same)
          else if cmd = HYDRA_NUMBER_OF_BOARDS then
            iocReply q count arg .int (.int d.numberOfBoards)
          else if cmd = HYDRA_GET_CONFIG then
            iocReply q count arg .hydra_config (.config
              ⟨bd.info.boardBase, bd.status.boardDebug, bd.info.paddress, .replicate 8 0, 0, 0⟩)
          else if cmd = HYDRA_GET_STATUS then
            iocReply q count arg .hydra_status (.status (reportStatus bd))
          else if cmd = HYDRA_IOCTL_TEST then
            match count with
            | none =>
                if ← allocb (.sizeof .hydra_test 0) then putnext q (.copyin arg .hydra_test)
                else putnext q (.iocnak .ENOMEM)
            | some _ =>
                let t ← hydraTest b t
                putnext q (.iocack (.test t))
          else putnext q (.iocnak .EINVAL)

/-! ### The put procedure -/

abbrev FLUSHR : Byte := 0x01#8
abbrev FLUSHW : Byte := 0x02#8

def hydrawput (q : QId) (mp : Down) : HydraM Unit :=
  match mp with
  | .flush flags =>
      if flags &&& FLUSHW ≠ 0 then do
        flushq q
        if flags &&& FLUSHR ≠ 0 then qreply q (.flush (flags &&& ~~~FLUSHW))
        else freemsg ⟨[], []⟩
      else if flags &&& FLUSHR ≠ 0 then qreply q (.flush flags)
      else freemsg ⟨[], []⟩
  | .proto mp => do
      let _ ← hydraproto q mp
      return ()
  | .ioc m => hydraioctl q m
  | .other mp => freemsg mp

end HydraAmix.Hydra
