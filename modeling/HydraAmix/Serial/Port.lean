import HydraAmix.Library.Word
import HydraAmix.Library.Schedule

/-!
# Output of the serial driver

The write side of the port while it is open: `slwput`, `slputioc`, `slsrvioc`,
`getoblk`, `sltint`, and what resumes them. Nothing here flushes the write queue,
so the carrier comes but does not go. `TTXON` and `TTXOFF` are never set. What
the hardware and STREAMS answer (the transmitter is empty, the line is clear to
send, `allocb`, `canput`) comes from one sequence, in the order of the questions.
`getoblk` spins while nothing makes the port busy; it takes its turns from a
supply, and `none` says that the supply ended before the loop.

Beside the state of the driver stand the characters sent, with the word that
`serdat` got, the bytes written so far, and the ioctl messages that came and
that were answered, by number.
-/
namespace HydraAmix.Serial
open Word

abbrev STOPBIT : BitVec 16 := 0x100#16
abbrev CSTART : Byte := 0x11#8
abbrev CSTOP : Byte := 0x13#8
abbrev IXON : BitVec 32 := 0o2000#32
abbrev IXANY : BitVec 32 := 0o4000#32
abbrev PARENB : BitVec 32 := 0o400#32
abbrev PARODD : BitVec 32 := 0o1000#32

inductive Cmd where
  | tcsetaf
  | tcseta
  | tcsetaw
  | tcsetsf
  | tcsets
  | tcsetsw
  | tcgeta
  | tcgets
  | tcsbrk
  | ldioc
  | other
  deriving DecidableEq, Repr

/-- What the driver reads of `struct termios`. -/
structure Termios where
  iflag : BitVec 32
  cflag : BitVec 32
  deriving DecidableEq, Repr

/-- An M_IOCTL message: its number, the bytes of its `iocblk`, the data block. -/
structure Ioctl where
  id : ℕ
  cmd : Cmd
  raw : List Byte
  cont : Option Termios
  deriving DecidableEq, Repr

/-- A message on the write queue; an M_DATA message by its blocks. -/
inductive Message where
  | data (first : List Byte) (cont : List (List Byte))
  | ioctl (i : Ioctl)
  deriving DecidableEq, Repr

/-- The bytes between `b_rptr` and `b_wptr` of the first block. -/
def Message.block : Message → List Byte
  | .data first _ => first
  | .ioctl i => i.raw

/-- A character, and what is written to `serdat` for it. -/
structure Sent where
  ch : Byte
  serdat : BitVec 16
  deriving DecidableEq, Repr

/-- What the surroundings fix: the answers, the parity table, and whether the
minor device has hardware flow control. -/
structure Env where
  answer : ℕ → Bool
  partab : Byte → Byte
  hardware : Bool

/-- `sl`, with the write queue. -/
structure Port where
  carr : Bool
  busy : Bool
  ttstop : Bool
  timeout : Bool
  iflag : BitVec 32
  cflag : BitVec 32
  outputXoff : Bool
  output : Option (List Byte)
  q : List Message
  asked : ℕ
  sent : List Sent
  written : List Byte
  arrived : ℕ
  answered : List ℕ

namespace Port

/-- A question to the hardware or to STREAMS. -/
def ask (env : Env) (s : Port) : Bool × Port :=
  (env.answer s.asked, { s with asked := s.asked + 1 })

/-! ### `sltint` -/

/-- The loop for a block with something left in it: the next character with the
rest of its block, and the queue. The type of a message is not looked at. -/
def nextChar : List Byte → List Message → Option (Byte × List Byte) × List Message
  | c :: cs, q => (some (c, cs), q)
  | [], [] => (none, [])
  | [], m :: q => nextChar m.block q

/-- The character with its parity. -/
def parity (env : Env) (cflag : BitVec 32) (ch : Byte) : Byte :=
  if cflag &&& PARENB ≠ 0 then
    let ch := ch &&& 0x7f
    let ch := ch ||| env.partab ch &&& 0x80
    if cflag &&& PARODD ≠ 0 then ch ^^^ 0x80 else ch
  else ch

def sendChar (env : Env) (s : Port) : Port :=
  match nextChar (s.output.getD []) s.q with
  | (none, q) => { s with output := none, q := q, busy := false }
  | (some (ch, rest), q) =>
      { s with
        output := some rest
        q := q
        sent := s.sent ++ [⟨ch, STOPBIT ||| (parity env s.cflag ch).setWidth 16⟩]
        busy := true }

/-- What follows the tests of the hardware. -/
def transmit (env : Env) (s : Port) : Port :=
  let s := if s.outputXoff && !s.ttstop then { s with ttstop := true } else s
  if s.ttstop then s else s.sendChar env

def sltint (env : Env) (s : Port) : Port :=
  let (tbe, s) := s.ask env
  if !tbe then s
  else if env.hardware then
    let (clear, s) := s.ask env
    if !clear then { s with busy := true } else { s with busy := false }.transmit env
  else s.transmit env

/-! ### `slsrvioc` and `getoblk` -/

def putq (s : Port) (m : Message) : Port := { s with q := s.q ++ [m] }

def putbq (s : Port) (m : Message) : Port := { s with q := m :: s.q }

/-- `putnext` of the acknowledgement or the refusal. -/
def answer (s : Port) (i : Ioctl) : Port := { s with answered := s.answered ++ [i.id] }

/-- `slproc`, T_RESUME. -/
def slresume (getoblk : Port → Option Port) (s : Port) : Option Port :=
  getoblk { s with ttstop := false }

/-- `slparam`, OPEN, as far as the output goes. -/
def slparam (getoblk : Port → Option Port) (s : Port) : Option Port :=
  if s.iflag &&& IXON = 0 ∧ s.ttstop = true then slresume getoblk s else some s

/-- The commands that set parameters; `set` is what they make of the flags. -/
def setParams (getoblk : Port → Option Port) (set : BitVec 32 → BitVec 32 → BitVec 32) (i : Ioctl)
    (s : Port) : Option Port :=
  match i.cont with
  | none => some (s.answer i)
  | some cb =>
      (slparam getoblk
        { s with cflag := set s.cflag cb.cflag, iflag := set s.iflag cb.iflag }).map (·.answer i)

/-- `struct termio` has only the low half of the flags. -/
def lowHalf (flags new : BitVec 32) : BitVec 32 := flags &&& 0xffff0000 ||| new &&& 0xffff

/-- The commands that need an answer of STREAMS before theirs. -/
def answerIf (env : Env) (i : Ioctl) (s : Port) : Port :=
  let (ok, s) := s.ask env
  if ok then s.answer i else s.putbq (.ioctl i)

/-- `slsrvioc` on an M_IOCTL message. -/
def slsrvioc (env : Env) (getoblk : Port → Option Port) (s : Port) (i : Ioctl) : Option Port :=
  match i.cmd with
  | .tcsetaf => (getoblk s).bind (setParams getoblk lowHalf i)
  | .tcseta | .tcsetaw => setParams getoblk lowHalf i s
  | .tcsetsf => (getoblk s).bind (setParams getoblk (fun _ new => new) i)
  | .tcsets | .tcsetsw => setParams getoblk (fun _ new => new) i s
  | .tcsbrk => getoblk { s.answer i with timeout := true }
  | .tcgeta | .tcgets | .ldioc | .other => some (s.answerIf env i)

/-- A data message is sent next, or goes back. -/
def load (s : Port) (first : List Byte) (cont : List (List Byte)) : Port :=
  match s.output with
  | some _ => s.putbq (.data first cont)
  | none => { s with output := some first }

/-- `getoblk`. -/
def getoblk (env : Env) : ℕ → Port → Option Port
  | 0, _ => none
  | turns + 1, s =>
      match s.q with
      | [] => some { s with busy := false }
      | .data first cont :: q =>
          let s := { s with q := q }
          if s.ttstop || s.timeout then some (s.putbq (.data first cont))
          else
            let s := s.load first cont
            let s := if s.busy then s else s.sltint env
            if s.busy then some s else getoblk env turns s
      | .ioctl i :: q =>
          (slsrvioc env (getoblk env turns) { s with q := q } i).bind fun s =>
            if s.busy then some s else getoblk env turns s

/-! ### What happens -/

/-- `slputioc`. -/
def slputioc (env : Env) (getoblk : Port → Option Port) (s : Port) (i : Ioctl) : Option Port :=
  match i.cmd with
  | .tcseta | .tcsets =>
      if s.busy then some (s.putbq (.ioctl i)) else slsrvioc env getoblk s i
  | .tcgeta | .tcgets => slsrvioc env getoblk s i
  | .ldioc => some (s.answer i)
  | _ =>
      if s.q ≠ [] ∨ s.busy = true then some (s.putbq (.ioctl i)) else slsrvioc env getoblk s i

/-- `if (q->q_first) getoblk(tp)`. -/
def drain (getoblk : Port → Option Port) (s : Port) : Option Port :=
  if s.q ≠ [] then getoblk s else some s

/-- `slwput`, M_DATA. -/
def slwdata (getoblk : Port → Option Port) (s : Port) (first : List Byte)
    (cont : List (List Byte)) : Option Port :=
  let s := { s with written := s.written ++ (first :: cont).flatten }
  if !s.carr then some (s.putq (.data first cont))
  else
    drain getoblk
      { s with q := s.q ++ ((first :: cont).filter (· ≠ [])).map fun b => .data b [] }

/-- `slwput`, M_IOCTL; the message gets the next number. -/
def slwioctl (env : Env) (getoblk : Port → Option Port) (s : Port) (cmd : Cmd) (raw : List Byte)
    (cont : Option Termios) : Option Port :=
  (slputioc env getoblk { s with arrived := s.arrived + 1 } ⟨s.arrived, cmd, raw, cont⟩).bind
    (drain getoblk)

/-- `slrint`, as far as the output goes. -/
def slrint (s : Port) (c : Byte) : Port :=
  if s.iflag &&& IXON ≠ 0 then
    if c = CSTART then { s with outputXoff := false }
    else if c = CSTOP then { s with outputXoff := true }
    else if s.iflag &&& IXANY ≠ 0 then { s with outputXoff := false }
    else s
  else s

/-- `slpoll`, as far as the output goes; a carrier that is there is noticed. -/
def slpoll (env : Env) (getoblk : Port → Option Port) (s : Port) (carrier : Bool) : Option Port :=
  (if env.hardware ∧ s.outputXoff = false ∧ s.ttstop = true then slresume getoblk s
    else some s).map fun s => { s with carr := s.carr || carrier }

end Port

/-- A message, an interrupt, the clock, a timeout after a break, a call of
`bufcall`. -/
inductive Event where
  | data (first : List Byte) (cont : List (List Byte))
  | ioctl (cmd : Cmd) (raw : List Byte) (cont : Option Termios)
  | start
  | stop
  | tint
  | rint (c : Byte)
  | poll (carrier : Bool)
  | restart
  | bufcall

namespace Port

/-- One event. -/
def handle (env : Env) (turns : ℕ) (s : Port) : Event → Option Port
  | .data first cont => s.slwdata (getoblk env turns) first cont
  | .ioctl cmd raw cont => s.slwioctl env (getoblk env turns) cmd raw cont
  | .start => (slresume (getoblk env turns) s).bind (getoblk env turns)
  | .stop => some { s with ttstop := true }
  | .tint => some (s.sltint env)
  | .rint c => some (s.slrint c)
  | .poll carrier => s.slpoll env (getoblk env turns) carrier
  | .restart =>
      (slparam (getoblk env turns) s).bind fun s => getoblk env turns { s with timeout := false }
  | .bufcall => getoblk env turns s

/-- An event after which the driver does not come back has no next state. -/
def step (env : Env) (turns : ℕ) (s : Option Port) (e : Event) : Option Port :=
  s.bind fun s => s.handle env turns e

/-- The port after `slopen`. -/
def opened (carr : Bool) (cflag : BitVec 32) : Port where
  carr := carr
  busy := false
  ttstop := false
  timeout := false
  iflag := 0
  cflag := cflag
  outputXoff := false
  output := none
  q := []
  asked := 0
  sent := []
  written := []
  arrived := 0
  answered := []

end Port

end HydraAmix.Serial
