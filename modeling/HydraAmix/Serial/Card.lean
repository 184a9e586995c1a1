import HydraAmix.Serial.Port
import Mathlib.Logic.Function.Iterate

/-!
# Output of a line of the serial card

The write side of a line of the seven-line card while it is open: `qlwput`, `qlputioc`,
`qlsrvioc`, `getoblk`, `output`, and what resumes them. The driver puts characters in a ring
in the memory of the card, whose processor takes them from there. Nothing flushes the write
queue, so the carrier comes but does not go and `tflush` stays clear.

The card runs all the time: whenever the driver looks at the ring, the card may have taken
some more characters, and sent the control character of `ttandem`. How many, and what
`allocb` and `canput` answer, comes from the surroundings. `getoblk` takes its turns from a
supply, and `none` says that the supply ended before the loop. What `qlwput` does after
`qlputioc` is an event of its own, since an interrupt may come before it.
-/
namespace HydraAmix.Serial.Ql
open Word

abbrev BUFSIZE : ℕ := 0x100

structure Env where
  answer : ℕ → Bool
  takes : ℕ → ℕ
  tandem : ℕ → Bool

/-- `ql`, its terminal, the write queue and the line on the card. `put` are the characters
put in the ring so far, and `sent` those that the card found there. -/
structure Line where
  carr : Bool
  busy : Bool
  ttstop : Bool
  timeout : Bool
  ttxon : Bool
  ttxoff : Bool
  tblock : Bool
  iflag : BitVec 32
  cflag : BitVec 32
  q : List Message
  thead : ℕ
  ttail : ℕ
  ttandem : Byte
  tbuf : ℕ → Byte
  asked : ℕ
  put : List Byte
  sent : List Byte
  written : List Byte
  arrived : ℕ
  answered : List ℕ

namespace Line

/-! ### The card -/

def takeByte (s : Line) : Line :=
  if s.ttail = s.thead then s
  else { s with ttail := (s.ttail + 1) % BUFSIZE, sent := s.sent ++ [s.tbuf s.ttail] }

/-- The card has run since the driver last looked at it. -/
def card (env : Env) (s : Line) : Line :=
  let s := takeByte^[env.takes s.asked] s
  { s with ttandem := if env.tandem s.asked then 0 else s.ttandem, asked := s.asked + 1 }

/-! ### `output` -/

def putByte (s : Line) (c : Byte) : Line :=
  { s with
    tbuf := Function.update s.tbuf s.thead c
    thead := (s.thead + 1) % BUFSIZE
    put := s.put ++ [c]
    busy := true }

/-- A block goes to the ring as far as there is room. What does not is left. -/
def fill (env : Env) : List Byte → Line → List Byte × Line
  | [], s => ([], s)
  | c :: cs, s =>
      let s := s.card env
      if (s.thead + 1) % BUFSIZE = s.ttail then (c :: cs, s) else fill env cs (s.putByte c)

/-- The blocks of a message, up to one that does not fit. -/
def fillAll (env : Env) :
    List Byte → List (List Byte) → Line → Option (List Byte × List (List Byte)) × Line
  | first, [], s =>
      match fill env first s with
      | ([], s) => (none, s)
      | (rest, s) => (some (rest, []), s)
  | first, b :: bs, s =>
      match fill env first s with
      | ([], s) => fillAll env b bs s
      | (rest, s) => (some (rest, b :: bs), s)

/-- The blocks behind the first one. -/
def blocks : Message → List (List Byte)
  | .data _ cont => cont
  | .ioctl _ => []

/-- What is left of a message goes back as a message of its type. -/
def remainder : Message → List Byte × List (List Byte) → Message
  | .data _ _, r => .data r.1 r.2
  | .ioctl i, r => .ioctl { i with raw := r.1 }

/-- `putbq`. -/
def putbq (s : Line) (m : Message) : Line := { s with q := m :: s.q }

/-- The loop of `output`, with the queue. The type of a message is not looked at. -/
def outputLoop (env : Env) : List Message → Line → Line
  | [], s => s
  | m :: q, s =>
      let s := ({ s with q := q } : Line).card env
      if s.ttandem ≠ 0 then s.putbq m
      else if s.ttxon then ({ s with ttxon := false, ttandem := CSTART }).putbq m
      else if s.ttxoff then ({ s with ttxoff := false, ttandem := CSTOP }).putbq m
      else if s.timeout then s.putbq m
      else
        match fillAll env m.block (blocks m) s with
        | (none, s) => outputLoop env q s
        | (some r, s) => s.putbq (remainder m r)

/-- The ring is empty. -/
def idle (s : Line) : Line := if s.thead = s.ttail then { s with busy := false } else s

def output (env : Env) (s : Line) : Line :=
  let s := (s.card env).idle
  outputLoop env s.q s

/-! ### `qlsrvioc` and `getoblk` -/

/-- A question to STREAMS. -/
def ask (env : Env) (s : Line) : Bool × Line :=
  (env.answer s.asked, { s with asked := s.asked + 1 })

def putq (s : Line) (m : Message) : Line := { s with q := s.q ++ [m] }

/-- `putnext` of the acknowledgement or the refusal. -/
def answer (s : Line) (i : Ioctl) : Line := { s with answered := s.answered ++ [i.id] }

/-- The commands that set parameters; `set` is what they make of the flags. -/
def setParams (set : BitVec 32 → BitVec 32 → BitVec 32) (i : Ioctl) (s : Line) : Line :=
  match i.cont with
  | none => s.answer i
  | some cb =>
      ({ s with cflag := set s.cflag cb.cflag, iflag := set s.iflag cb.iflag }).answer i

/-- The commands that need an answer of STREAMS before theirs. -/
def answerIf (env : Env) (i : Ioctl) (s : Line) : Line :=
  let (ok, s) := s.ask env
  if ok then s.answer i else s.putbq (.ioctl i)

/-- `flush`, FREAD. -/
def flushRead (getoblk : Line → Option Line) (s : Line) : Option Line :=
  getoblk { s with tblock := false }

/-- `qlsrvioc` on an M_IOCTL message. -/
def qlsrvioc (env : Env) (getoblk : Line → Option Line) (s : Line) (i : Ioctl) : Option Line :=
  match i.cmd with
  | .tcsetaf => (flushRead getoblk s).map (setParams Port.lowHalf i)
  | .tcseta | .tcsetaw => some (setParams Port.lowHalf i s)
  | .tcsetsf => (flushRead getoblk s).map (setParams (fun _ new => new) i)
  | .tcsets | .tcsetsw => some (setParams (fun _ new => new) i s)
  | .tcsbrk => getoblk { s.answer i with timeout := true }
  | .tcgeta | .tcgets | .ldioc | .other => some (s.answerIf env i)

/-- `getoblk`. -/
def getoblk (env : Env) : ℕ → Line → Option Line
  | 0, _ => none
  | turns + 1, s =>
      match s.q with
      | [] => some (s.card env).idle
      | .data _ _ :: _ =>
          if s.ttstop || s.timeout then some s
          else
            let s := s.output env
            if s.busy then some s else getoblk env turns s
      | .ioctl i :: q =>
          (qlsrvioc env (getoblk env turns) { s with q := q } i).bind fun s =>
            if s.busy then some s else getoblk env turns s

/-! ### What happens -/

/-- `qlputioc`. -/
def qlputioc (env : Env) (getoblk : Line → Option Line) (s : Line) (i : Ioctl) : Option Line :=
  match i.cmd with
  | .tcseta | .tcsets =>
      if s.busy then some (s.putbq (.ioctl i)) else qlsrvioc env getoblk s i
  | .tcgeta | .tcgets => qlsrvioc env getoblk s i
  | .ldioc => some (s.answer i)
  | _ =>
      if s.q ≠ [] ∨ s.busy = true then some (s.putbq (.ioctl i)) else qlsrvioc env getoblk s i

/-- `if (q->q_first) getoblk(tp)`. -/
def drain (getoblk : Line → Option Line) (s : Line) : Option Line :=
  if s.q ≠ [] then getoblk s else some s

/-- `qlwput`, M_DATA. -/
def qlwdata (getoblk : Line → Option Line) (s : Line) (first : List Byte)
    (cont : List (List Byte)) : Option Line :=
  let s := { s with written := s.written ++ (first :: cont).flatten }
  if !s.carr then some (s.putq (.data first cont))
  else
    drain getoblk
      { s with q := s.q ++ ((first :: cont).filter (· ≠ [])).map fun b => .data b [] }

/-- T_RESUME. -/
def resume (getoblk : Line → Option Line) (s : Line) : Option Line :=
  getoblk { s with ttstop := false }

/-- `input`, as far as the output goes. -/
def input (getoblk : Line → Option Line) (s : Line) (c : Byte) : Option Line :=
  if s.iflag &&& IXON ≠ 0 then
    if c = CSTART then s.resume getoblk
    else if c = CSTOP then some { s with ttstop := true }
    else if s.ttstop = true ∧ s.iflag &&& IXANY ≠ 0 then s.resume getoblk
    else some s
  else some s

end Line

/-- A message, the rest of `qlwput`, an interrupt, a character, a timeout, a call of
`bufcall`; T_BLOCK and T_UNBLOCK. -/
inductive Event where
  | data (first : List Byte) (cont : List (List Byte))
  | ioctl (cmd : Cmd) (raw : List Byte) (cont : Option Termios)
  | rest
  | start
  | stop
  | delay
  | intr
  | input (c : Byte)
  | carrier
  | restart
  | delayed
  | bufcall
  | block
  | unblock

namespace Line

/-- One event. -/
def handle (env : Env) (turns : ℕ) (s : Line) : Event → Option Line
  | .data first cont => s.qlwdata (getoblk env turns) first cont
  | .ioctl cmd raw cont =>
      qlputioc env (getoblk env turns) { s with arrived := s.arrived + 1 }
        ⟨s.arrived, cmd, raw, cont⟩
  | .rest => s.drain (getoblk env turns)
  | .start => (s.resume (getoblk env turns)).bind (getoblk env turns)
  | .stop => some { s with ttstop := true }
  | .delay => some { s with timeout := true }
  | .intr => some (s.output env)
  | .input c => s.input (getoblk env turns) c
  | .carrier => some { s with carr := true }
  | .restart => some { s with timeout := false }
  | .delayed => getoblk env turns { s with timeout := false }
  | .bufcall => getoblk env turns s
  | .block => some { s with ttxon := false, tblock := true, ttxoff := true }
  | .unblock => some { s with ttxoff := false, tblock := false, ttxon := true }

/-- An event after which the driver does not come back has no next state. -/
def step (env : Env) (turns : ℕ) (s : Option Line) (e : Event) : Option Line :=
  s.bind fun s => s.handle env turns e

/-- The line after `qlopen`. -/
def opened (carr : Bool) (cflag : BitVec 32) : Line where
  carr := carr
  busy := false
  ttstop := false
  timeout := false
  ttxon := false
  ttxoff := false
  tblock := false
  iflag := 0
  cflag := cflag
  q := []
  thead := 0
  ttail := 0
  ttandem := 0
  tbuf _ := 0
  asked := 0
  put := []
  sent := []
  written := []
  arrived := 0
  answered := []

end Line
end HydraAmix.Serial.Ql
