import Mathlib.Data.List.Perm.Basic
import Mathlib.Data.List.Nodup

/-!
# The write service of a console

`getoblk` takes the messages of the write queue one by one; `srvioc` serves the
ioctl messages. The loop ends while the console is busy, with an empty queue, or
at data while output is suspended or delayed, so a message that `srvioc` puts
back is taken again at once. `getoblk` takes its turns from a supply; `none` says
that the supply ended before the loop, or that a null pointer was followed.

A message carries what its surroundings answer each time it is served, and its
blocks are numbered from 0. What `putnext` sends up is noted by the kind of the
answer, without the values in it.
-/
namespace HydraAmix.Console.WriteService

/-- The commands of `srvioc`; the four fonts have one command of each sort. -/
inductive Cmd where
  | TCSETAF
  | TCSETA
  | TCSETAW
  | TCSETSF
  | TCSETS
  | TCSETSW
  | TCGETA
  | TCGETS
  | TCSBRK
  | TIOCSTI
  | Beep
  | SIOC
  | SIOCDISPLAYTYPE
  | SIOCSETDISPLAYTYPE
  | SIOCSETTYPE
  | SIOCGETTYPE
  | TIOCGWINSZ
  | SIOCWINSIZE
  | SIOCFRONT
  | SIOCBACK
  | SIOCACTIVATE
  | SIOCGROUPFRONT
  | SIOCGETKMAP
  | SIOCSETDEFKMAP
  | SIOCSETKMAP
  | SIOCGETFONT
  | SIOCSETDEFFONT
  | SIOCSETFONT
  | SIOCGETNCOLREGS
  | SIOCSETCMAP
  | SIOCGETCMAP
  | SIOCSETDISPLAYADJUST
  | SIOCGETDISPLAYADJUST
  | SIOCSETGROUP
  | SIOCGETGROUP
  | SIOCGETGROUPINFO
  | SIOCACTIVATESCREEN
  | SIOCACTIVATEGROUP
  | SIOCSETNAME
  | unrecognized

/-- M_DATA; M_IOCTL, with TRANSPARENT; M_IOCDATA, with `cp_rval` and
`cp_private`; anything else. -/
inductive Kind where
  | data
  | ioctl (transparent : Bool)
  | iocdata (rval more : Bool)
  | other

/-- What the surroundings answer: `allocb`, `canput`, `pullupmsg`, whether the
console is initialized or `consinit` succeeds, AllocMem, `suser`. -/
structure Outcome where
  allocb : Bool
  canput : Bool
  pullup : Bool
  ready : Bool
  mem : Bool
  suser : Bool

inductive Reply where
  | M_IOCACK
  | M_IOCNAK
  | M_COPYIN
  | M_COPYOUT
  deriving DecidableEq

/-- What becomes of a message. -/
inductive Ending where
  | answer (r : Reply)
  | free
  | putbq

/-- Beside the number of blocks behind the first stands what the commands ask of
the data: IXON in its flags, a first long that is not zero, the length of a
header, the length that the header tells, and what a command accepts. -/
structure Message where
  id : ℕ
  kind : Kind
  cmd : Cmd
  blocks : ℕ
  ixon : Bool
  arg : Bool
  header : Bool
  whole : Bool
  valid : Bool
  fate : ℕ → Outcome

namespace Message
variable (m : Message)

/-- The message as it is the next time it is served. -/
def later : Message := { m with fate := fun k => m.fate (k + 1) }

def numbered (i : ℕ) : Message := { m with id := i }

/-- The blocks behind the first. -/
def chain : List ℕ := List.range' 1 m.blocks

def all : List ℕ := 0 :: m.chain

def isData : Bool := m.kind matches .data

def transparent : Bool := m.kind matches .ioctl true

/-- The message gets to the switch over the commands. -/
def switched : Bool := m.kind matches .ioctl _ || m.kind matches .iocdata false true

/-- The command follows `b_cont`. -/
def reads (o : Outcome) : Bool :=
  match m.cmd with
  | .TCSETAF | .TCSETA | .TCSETAW | .TCSETSF | .TCSETS | .TCSETSW | .TCGETA | .TCGETS | .TCSBRK
  | .SIOC | .SIOCDISPLAYTYPE | .SIOCFRONT | .SIOCBACK | .SIOCACTIVATE | .SIOCGROUPFRONT
  | .SIOCGETNCOLREGS | .SIOCGETGROUP | .unrecognized => false
  | .TIOCSTI => o.allocb && o.canput
  | .TIOCGWINSZ | .SIOCWINSIZE => o.ready
  | .SIOCSETDEFKMAP | .SIOCSETDEFFONT => o.suser
  | _ => true

/-- `RETURN`, for a message with these blocks behind the first. -/
def RETURN (ok : Bool) (chain : List ℕ) : Ending × List ℕ :=
  (.answer (if ok then .M_IOCACK else .M_IOCNAK), chain)

/-- `pullupmsg`, and what follows it with the blocks that are left. -/
def pullupmsg (o : Outcome) (f : List ℕ → Ending × List ℕ) : Ending × List ℕ :=
  if o.pullup then ((f (m.chain.take 1)).1, m.chain.tail ++ (f (m.chain.take 1)).2) else f m.chain

/-- The data is freed, and a new block gets what is copied out. -/
def copyout (o : Outcome) (copies : Bool) (chain : List ℕ) : Ending × List ℕ :=
  if o.allocb then
    if copies then (.answer .M_COPYOUT, chain)
    else (.answer .M_IOCACK, chain ++ [m.blocks + 1])
  else (.answer .M_IOCNAK, chain)

/-- SIOCSETCMAP, SIOCSETDISPLAYADJUST and SIOCSETNAME. -/
def setData (o : Outcome) : Ending × List ℕ :=
  if m.transparent then (.answer .M_COPYIN, []) else m.pullupmsg o (RETURN m.valid)

/-- SIOCGETKMAP and SIOCGETFONT. -/
def getTable (o : Outcome) : Ending × List ℕ :=
  if m.transparent then (.answer .M_COPYIN, [])
  else m.pullupmsg o fun chain =>
    if m.header then m.copyout o true chain else RETURN false chain

/-- SIOCSETKMAP, SIOCSETFONT and `Beep`. -/
def setTable (o : Outcome) : Ending × List ℕ :=
  if m.transparent then if m.arg then (.answer .M_COPYIN, []) else RETURN true m.chain
  else m.pullupmsg o fun chain =>
    if m.kind matches .iocdata _ _ && m.header then
      if m.valid then (.answer .M_COPYIN, []) else RETURN false chain
    else if m.whole then RETURN o.mem chain
    else RETURN false chain

/-- The switch, for a message whose data is there if the command reads it: what
becomes of the message, and which of its blocks are freed. -/
def command (o : Outcome) : Ending × List ℕ :=
  match m.cmd with
  | .TCSETAF | .TCSETA | .TCSETAW | .TCSETSF | .TCSETS | .TCSETSW =>
      if m.blocks = 0 then (.answer .M_IOCNAK, []) else (.answer .M_IOCACK, [1])
  | .TCGETA | .TCGETS => (if o.allocb then .answer .M_IOCACK else .putbq, m.chain)
  | .TCSBRK => RETURN (m.blocks != 0) m.chain
  | .TIOCSTI => (.answer .M_IOCACK, [])
  | .SIOC | .SIOCDISPLAYTYPE | .SIOCBACK | .SIOCGETNCOLREGS | .SIOCGETGROUP => RETURN true m.chain
  | .SIOCSETDISPLAYTYPE | .SIOCSETGROUP | .SIOCACTIVATESCREEN | .SIOCACTIVATEGROUP =>
      RETURN m.valid m.chain
  | .SIOCSETTYPE => if m.transparent then (.answer .M_COPYIN, []) else RETURN m.valid m.chain
  | .SIOCGETTYPE | .TIOCGWINSZ | .SIOCWINSIZE =>
      if o.ready then m.copyout o m.transparent m.chain else RETURN false m.chain
  | .SIOCFRONT | .SIOCACTIVATE | .SIOCGROUPFRONT => RETURN o.ready m.chain
  | .SIOCGETKMAP | .SIOCGETFONT => m.getTable o
  | .Beep | .SIOCSETKMAP | .SIOCSETFONT => m.setTable o
  | .SIOCSETDEFKMAP | .SIOCSETDEFFONT => if o.suser then m.setTable o else RETURN false m.chain
  | .SIOCSETCMAP | .SIOCSETDISPLAYADJUST | .SIOCSETNAME => m.setData o
  | .SIOCGETCMAP | .SIOCGETDISPLAYADJUST | .SIOCGETGROUPINFO => m.copyout o true m.chain
  | .unrecognized => (if o.canput then .answer .M_IOCNAK else .putbq, [])

/-- What becomes of a message that is served, without the calls of `getoblk`. -/
def served : Option (Ending × List ℕ) :=
  match m.kind with
  | .data | .other | .iocdata true _ => some (.free, m.all)
  | .iocdata false false => some (RETURN true m.chain)
  | _ => if m.reads (m.fate 0) && m.blocks == 0 then none else some (m.command (m.fate 0))

/-- The commands that set parameters. -/
def setsParams : Bool :=
  m.cmd matches .TCSETAF | .TCSETA | .TCSETAW | .TCSETSF | .TCSETS | .TCSETSW

/-- The message ends a suspension of the output. -/
def resumes : Bool := m.switched && m.setsParams && m.blocks != 0 && !m.ixon

end Message

/-- The write queue, the flags of the terminal, and what happened to messages and
blocks: output, M_ERROR messages, answers, and blocks freed. -/
structure Line where
  q : List Message
  busy : Bool
  ttstop : Bool
  timeout : Bool
  ttiow : Bool
  shown : List (ℕ × ℕ)
  errors : ℕ
  answered : List (ℕ × Reply)
  freed : List (ℕ × ℕ)

namespace Line
variable (s : Line)

def setQ (q : List Message) : Line := { s with q := q }

def unbusy : Line := { s with busy := false }

/-- TTSTOP is cleared. -/
def resume : Line := { s with ttstop := false }

/-- Whoever waits for the queue to drain is woken. -/
def drained : Line := { s with ttiow := false }

def stopped : Bool := s.ttstop || s.timeout

def dispose (m : Message) : Ending × List ℕ → Line
  | (.answer r, bs) =>
      { s with answered := s.answered ++ [(m.id, r)], freed := s.freed ++ bs.map (m.id, ·) }
  | (.free, bs) => { s with freed := s.freed ++ bs.map (m.id, ·) }
  | (.putbq, bs) => { s with q := m.later :: s.q, freed := s.freed ++ bs.map (m.id, ·) }

/-- `scrcon_put` of the first block, or M_ERROR if `consinit` fails. -/
def put (m : Message) : Line :=
  if (m.fate 0).ready then { s with shown := s.shown ++ [(m.id, 0)], busy := false }
  else { s with errors := s.errors + if (m.fate 0).allocb then 1 else 0, busy := false }

def settle (m : Message) : Option Line := m.served.map (s.dispose m)

section
variable (getoblk : Line → Option Line)

/-- `flush`, FREAD. -/
def flush : Option Line := getoblk s.unbusy

/-- `coparam`, after the flags of the message were stored. -/
def coparam (m : Message) : Option Line :=
  if s.ttstop && !m.ixon then getoblk s.resume else some s

def setParams (m : Message) : Option Line :=
  if m.blocks = 0 then s.settle m else (s.coparam getoblk m).bind fun s => s.settle m

def srvioc (m : Message) : Option Line :=
  if m.switched then
    match m.cmd with
    | .TCSETAF | .TCSETSF => (s.flush getoblk).bind fun s => s.setParams getoblk m
    | .TCSETA | .TCSETAW | .TCSETS | .TCSETSW => s.setParams getoblk m
    | _ => s.settle m
  else s.settle m

/-- The condition of the loop. -/
def again : Option Line := if s.busy then some s else getoblk s

end

/-- `getoblk`; its value, whether the queue is empty, is left out. -/
def getoblk : ℕ → Line → Option Line
  | 0, _ => none
  | turns + 1, s =>
      match s.q with
      | [] => some s.drained
      | m :: q =>
          match m.kind with
          | .data =>
              if s.stopped then some s
              else (((s.setQ q).put m).dispose m (.free, m.all)).again (getoblk turns)
          | .other => ((s.setQ q).dispose m (.free, m.all)).again (getoblk turns)
          | _ => ((s.setQ q).srvioc (getoblk turns) m).bind fun s => s.again (getoblk turns)

end Line

/-! ### What the service owes to the messages -/

/-- The ioctl messages that are to be answered; a failed copy is freed. -/
def Message.answers (m : Message) : Bool :=
  m.kind matches .ioctl _ || m.kind matches .iocdata false _

/-- The blocks of data that are to be shown. -/
def Message.text (m : Message) : List (ℕ × ℕ) := if m.isData then m.all.map (m.id, ·) else []

/-- The queue that is served holds these messages, numbered. -/
def numbered (ms : List Message) : List Message := ms.zipIdx.map fun p => p.1.numbered p.2

def start (ms : List Message) (ttstop timeout : Bool) : Line :=
  ⟨numbered ms, false, ttstop, timeout, false, [], 0, [], []⟩

/-- The messages of `q` were removed for good from its front on, up to data that
has to wait: their data was shown once and in order, their ioctl messages were
answered once, and no block was freed twice, nor one of a message left. -/
structure Done (q : List Message) (s : Line) (gone : List Message) : Prop where
  queue : q = gone ++ s.q
  waits : s.q = [] ∨ s.stopped = true ∧ ∃ m rest, s.q = m :: rest ∧ m.isData = true
  shown : s.shown = gone.flatMap Message.text
  answered : (s.answered.map Prod.fst).Perm ((gone.filter Message.answers).map Message.id)
  once : s.freed.Nodup
  failed : ∀ m ∈ gone, m.kind matches .iocdata true _ → (m.id, 0) ∈ s.freed
  left : ∀ m ∈ s.q, ∀ b, (m.id, b) ∉ s.freed

/-- The messages that the service gets to. -/
def reached (timeout : Bool) : Bool → List Message → List Message
  | _, [] => []
  | ttstop, m :: q =>
      if m.isData then
        if ttstop || timeout then [] else m :: reached timeout ttstop q
      else m :: reached timeout (ttstop && !m.resumes) q

/-- The messages that are served without a defect: data is one block on a console
that can be initialized; a command finds the data that it reads; TCGETA and
TCGETS get memory at once, or, without data, at some time; what `srvioc` does not
recognize can be passed up at some time. -/
def Message.Serves (m : Message) : Prop :=
  if m.isData then (m.fate 0).ready = true ∧ m.blocks = 0
  else if m.switched then
    (m.reads (m.fate 0) = true → m.blocks ≠ 0) ∧
      match m.cmd with
      | .TCGETA | .TCGETS =>
          if m.blocks = 0 then ∃ k, (m.fate k).allocb = true else (m.fate 0).allocb = true
      | .unrecognized => ∃ k, (m.fate k).canput = true
      | _ => True
  else True

end HydraAmix.Console.WriteService
