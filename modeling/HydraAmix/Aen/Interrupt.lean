import HydraAmix.Aen.Receive

/-!
# The interrupt routine of the LANCE board and the chip

One board that runs; `aenintr` does the same for each board, and no two share
anything. The routine is cut where the chip can come between: the reading of
CSR0, each of the two writes to it, each turn of the receive loop, each stream
of the transmit loop. A bit of CSR0 is cleared by writing 1 to it; INTR and ERR
are sums of other bits. `aenwput` is not interrupted, so a DL_UNITDATA_REQ comes
between two runs of `aenintr`. Of a transmit descriptor only its OWN bit is kept.
-/
namespace HydraAmix.Aen
open Word

abbrev TXCOUNT : ℕ := 8
abbrev RX_BUFFER_LENGTH : ℕ := 150

/-- The bits of CSR0 that an event sets and the driver clears. -/
structure Csr0 where
  idon : Bool
  tint : Bool
  rint : Bool
  merr : Bool
  miss : Bool
  cerr : Bool
  babl : Bool
  deriving DecidableEq, Repr

namespace Csr0

def intr (c : Csr0) : Bool := c.idon || c.tint || c.rint || c.merr || c.miss || c.babl

def err (c : Csr0) : Bool := c.merr || c.miss || c.cerr || c.babl

/-- `*lance_data = status`. -/
def write (c status : Csr0) : Csr0 where
  idon := c.idon && !status.idon
  tint := c.tint && !status.tint
  rint := c.rint && !status.rint
  merr := c.merr && !status.merr
  miss := c.miss && !status.miss
  cerr := c.cerr && !status.cerr
  babl := c.babl && !status.babl

end Csr0

/-- Where `aenintr` is, with `status` and what is left of the loop of
`transmit_interrupt`. -/
inductive Phase where
  | outside
  | read (status : Csr0)
  | receiving (status : Csr0)
  | transmitting (status : Csr0) (streams : List (Fin AEN_MAXDEV))
  | erring (status : Csr0)

/-- The board, its two rings and the write queues of its streams. -/
structure Board where
  csr0 : Csr0
  rx : Rx
  rxChip : ℕ
  txOwn : ℕ → Bool
  txBufferIndex : ℕ
  q : Fin AEN_MAXDEV → List (List Byte)
  phase : Phase

namespace Board

/-! ### The chip -/

/-- The chip hands its next receive descriptor over; a chain is complete with
ENP. -/
def chipRx (b : Board) (mode : Byte) (count : BitVec 16) : Board :=
  let d := b.rx.ring.rxptr b.rxChip
  if d.own then
    { b with
      rx := { b.rx with ring := { b.rx.ring with
        rxptr := Function.update b.rx.ring.rxptr b.rxChip
          { d with mode := mode &&& ~~~RMD1_OWN, count := count } } }
      rxChip := (b.rxChip + 1) % RXCOUNT
      csr0 := { b.csr0 with rint := b.csr0.rint || mode &&& RMD1_ENP != 0 } }
  else b

/-- The chip gives a transmit descriptor back. -/
def chipTx (b : Board) (k : Fin TXCOUNT) : Board :=
  if b.txOwn k then
    { b with txOwn := Function.update b.txOwn k false, csr0 := { b.csr0 with tint := true } }
  else b

/-- The chip reports errors. -/
def chipErr (b : Board) (merr miss cerr babl : Bool) : Board :=
  { b with csr0 := { b.csr0 with
    merr := b.csr0.merr || merr
    miss := b.csr0.miss || miss
    cerr := b.csr0.cerr || cerr
    babl := b.csr0.babl || babl } }

/-! ### The driver -/

/-- `aenxmit`, as far as the ring goes. -/
def aenxmit (b : Board) : Option Board :=
  if !b.txOwn b.txBufferIndex then
    some { b with
      txOwn := Function.update b.txOwn b.txBufferIndex true
      txBufferIndex := if b.txBufferIndex < TXCOUNT - 1 then b.txBufferIndex + 1 else 0 }
  else none

def setQ (b : Board) (j : Fin AEN_MAXDEV) (q : List (List Byte)) : Board :=
  { b with q := Function.update b.q j q }

/-- DL_UNITDATA_REQ: `if (q->q_first || !aenxmit(q, mp)) putq(q, mp)`. -/
def unitdataReq (b : Board) (j : Fin AEN_MAXDEV) (mp : List Byte) : Board :=
  if b.q j ≠ [] then b.setQ j (b.q j ++ [mp])
  else
    match b.aenxmit with
    | some b => b
    | none => b.setQ j (b.q j ++ [mp])

def afterTransmit (status : Csr0) : Phase :=
  if status.err then .erring status else .outside

def afterReceive (status : Csr0) : Phase :=
  if status.tint then .transmitting status (List.finRange AEN_MAXDEV) else afterTransmit status

def afterAck (status : Csr0) : Phase :=
  if status.rint then .receiving status else afterReceive status

/-- One turn of the loop of `transmit_interrupt`. -/
def transmitTurn (env : Env) (b : Board) (status : Csr0) : List (Fin AEN_MAXDEV) → Board
  | [] => { b with phase := afterTransmit status }
  | j :: js =>
      if (env.aen j).q then
        match b.q j with
        | [] => { b with phase := .transmitting status js }
        | _ :: q =>
            match b.aenxmit with
            | some b => { b.setQ j q with phase := .transmitting status js }
            | none => { b with phase := afterTransmit status }
      else { b with phase := .transmitting status js }

/-- The next step of `aenintr`. Where a turn of the receive loop does not end,
neither does the routine. -/
def aenintr (env : Env) (b : Board) : Board :=
  match b.phase with
  | .outside => { b with phase := .read b.csr0 }
  | .read status =>
      if status.intr then
        { b with
          csr0 := b.csr0.write status
          rx := if status.rint then b.rx.counted else b.rx
          phase := afterAck status }
      else { b with phase := afterTransmit status }
  | .receiving status =>
      match receiveTurn env (RXCOUNT + 1) b.rx with
      | none => b
      | some (true, rx) => { b with rx := rx }
      | some (false, rx) => { b with rx := rx, phase := afterReceive status }
  | .transmitting status js => b.transmitTurn env status js
  | .erring status => { b with csr0 := b.csr0.write status, phase := .outside }

end Board

/-- What happens: the chip does something, a stream writes, or `aenintr` goes on. -/
inductive BoardEvent where
  | rx (mode : Byte) (count : BitVec 16)
  | tx (k : Fin TXCOUNT)
  | err (merr miss cerr babl : Bool)
  | write (j : Fin AEN_MAXDEV) (mp : List Byte)
  | intr

def Board.step (env : Env) (b : Board) : BoardEvent → Board
  | .rx mode count => b.chipRx mode count
  | .tx k => b.chipTx k
  | .err merr miss cerr babl => b.chipErr merr miss cerr babl
  | .write j mp =>
      match b.phase with
      | .outside => if (env.aen j).q then b.unitdataReq j mp else b
      | _ => b
  | .intr => b.aenintr env

/-- The board after `setup_lance`, which puts the buffers at `ptr`. -/
def Board.running (ptr : BitVec 16) (sink : Sink) : Board where
  csr0 := ⟨false, false, false, false, false, false, false⟩
  rx :=
    { ring :=
        { rxptr := fun i =>
            ⟨ptr + BitVec.ofNat 16 (i * RX_BUFFER_LENGTH), RMD1_OWN,
              -BitVec.ofNat 16 RX_BUFFER_LENGTH, 0⟩
          index := 0
          returned := [] }
      sink := sink }
  rxChip := 0
  txOwn := fun _ => false
  txBufferIndex := 0
  q := fun _ => []
  phase := .outside

end HydraAmix.Aen
