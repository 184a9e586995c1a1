import HydraAmix.Library.Ring
import HydraAmix.Serial.Port

/-!
# The input ring of the serial driver

`slrint` puts the characters that come into a ring, and `slpoll` takes them out at
every tick. `slrint` runs from the interrupt, so it is one event; `slpoll` goes on by
one access to what it shares with `slrint`, and `slrint` may come between any two of
these. The flags of the terminal, what STREAMS answers and whether the message has
room come with the event that reads them. What `slpoll` does for the output before its
loop, and `flush`, do not touch the ring.

Beside the variables stand the characters that were stored and those that were taken,
and how many were taken since `slrint` last disabled the receive interrupt.
-/
namespace HydraAmix.Serial.Input
open Word Schedule

abbrev Word16 := BitVec 16
abbrev DATABITS : Word16 := 0x0ff#16
abbrev DATASTOP : Word16 := 0x1ff#16
abbrev BUFsize : BitVec 32 := 256#32
abbrev HIGHwater : BitVec 32 := 64#32
abbrev LOWwater : BitVec 32 := 32#32
abbrev IGNBRK : BitVec 32 := 0o1#32
abbrev BRKINT : BitVec 32 := 0o2#32
abbrev ISTRIP : BitVec 32 := 0o40#32
abbrev NOFLSH : BitVec 32 := 0o200#32

/-- Where `slpoll` is: outside, before the test of the loop, before it reads the
character, with the character, before it enables the interrupt, before it reads
`head` once more, and before it turns RTS on or not. -/
inductive Pc where
  | idle
  | test
  | read
  | got (c : Word16)
  | enable
  | level
  | clear (low : Bool)
  deriving DecidableEq

/-- What `slpoll` sends up. -/
inductive Up where
  | data (bytes : List Byte)
  | brk
  | sigint
  deriving DecidableEq

/-- What a step of `slpoll` may read besides the ring. -/
structure Answers where
  rdq : Bool
  canput : Bool
  iflag : BitVec 32
  cflag : BitVec 32
  lflag : BitVec 32
  full : Bool
  allocb : Bool

structure Line where
  head : BitVec 32
  tail : BitVec 32
  buff : ℕ → Word16
  enabled : Bool
  rts : Bool
  outputXoff : Bool
  pc : Pc
  mp : Option (List Byte)
  up : List Up
  stored : List Word16
  taken : List Word16
  since : ℕ

inductive Event where
  | rint (serdatr : Word16) (iflag : BitVec 32)
  | poll (a : Answers)

namespace Line

/-- After `slopen`. -/
def opened : Line where
  head := 0
  tail := 0
  buff := fun _ => 0
  enabled := true
  rts := true
  outputXoff := false
  pc := .idle
  mp := none
  up := []
  stored := []
  taken := []
  since := 0

def nbytes (s : Line) : BitVec 32 := (BUFsize + s.head - s.tail) % BUFsize

/-- What the ring holds, from `tail` on. -/
def contents (s : Line) : List Word16 := Ring.fetch 0 256 s.buff s.tail.toNat s.nbytes.toNat

/-- `slrint`, after the tests for XON and XOFF. -/
def store (s : Line) (c : Word16) : Line :=
  if BUFsize - 1 ≤ s.nbytes then { s with enabled := false, since := 0 }
  else
    let s := if BUFsize - LOWwater < s.nbytes then { s with rts := false } else s
    { s with
      buff := Function.update s.buff s.head.toNat c
      head := (s.head + 1) % BUFsize
      stored := s.stored ++ [c] }

/-- A character that is XON or XOFF. -/
def Control (c : Word16) (iflag : BitVec 32) : Prop :=
  iflag &&& IXON ≠ 0 ∧ (c = CSTART.setWidth 16 ||| STOPBIT ∨ c = CSTOP.setWidth 16 ||| STOPBIT)

/-- `slrint`; it does not come while it is disabled. -/
def slrint (s : Line) (serdatr : Word16) (iflag : BitVec 32) : Line :=
  let c := serdatr &&& DATASTOP
  if s.enabled = false then s
  else if iflag &&& IXON ≠ 0 then
    if c = CSTART.setWidth 16 ||| STOPBIT then { s with outputXoff := false }
    else if c = CSTOP.setWidth 16 ||| STOPBIT then { s with outputXoff := true }
    else if iflag &&& IXANY ≠ 0 then { s with outputXoff := false }.store c
    else s.store c
  else s.store c

/-- `putnext` of the message that `slpoll` has, if it has one. -/
def putnext (s : Line) : Line :=
  { s with up := s.up ++ (s.mp.map Up.data).toList, mp := none }

/-- The character is taken. -/
def take (s : Line) (c : Word16) : Line :=
  { s with tail := (s.tail + 1) % BUFsize, taken := s.taken ++ [c], since := s.since + 1 }

/-- A break; IGNBRK goes on with the loop. -/
def takeBreak (s : Line) (c : Word16) (a : Answers) : Line :=
  let s := s.take c
  if a.iflag &&& IGNBRK ≠ 0 then { s with pc := .test }
  else
    let s := if a.lflag &&& NOFLSH ≠ 0 then s.putnext else { s with mp := none }
    { s with
      up := s.up ++ .brk :: (if a.iflag &&& BRKINT ≠ 0 then [.sigint] else [])
      pc := .enable }

/-- A character; without memory for it the loop ends. -/
def takeChar (s : Line) (c : Word16) (a : Answers) : Line :=
  let s := if a.full then s.putnext else s
  if s.mp = none ∧ a.allocb = false then { s with pc := .idle }
  else
    let s := s.take c
    let b := (c &&& DATABITS).setWidth 8
    let b := if a.iflag &&& ISTRIP ≠ 0 ∨ a.cflag &&& PARENB ≠ 0 then b &&& 0x7f else b
    { s with mp := some (s.mp.getD [] ++ [b]), pc := .enable }

/-- `slpoll`, up to its next access. -/
def slpoll (s : Line) (a : Answers) : Line :=
  match s.pc with
  | .idle => { s with mp := none, pc := .test }
  | .test =>
      if a.rdq ∧ s.tail ≠ s.head ∧ a.canput then { s with pc := .read }
      else { s.putnext with pc := .idle }
  | .read => { s with pc := .got (s.buff s.tail.toNat) }
  | .got c => if c &&& DATASTOP = 0 then s.takeBreak c a else s.takeChar c a
  | .enable => { s with enabled := true, pc := .level }
  | .level => { s with pc := .clear (s.nbytes < BUFsize - HIGHwater) }
  | .clear low => { s with rts := s.rts || low, pc := .test }

def step (s : Line) : Event → Line
  | .rint serdatr iflag => s.slrint serdatr iflag
  | .poll a => s.slpoll a

/-- What was stored is what was taken and what the ring holds. -/
def Ordered (s : Line) : Prop := s.stored = s.taken ++ s.contents

/-- A character that comes is stored, XON and XOFF apart, unless the ring holds
`BUFsize - 1`. -/
def Kept (s : Line) : Event → Prop
  | .rint serdatr iflag => s.enabled = true → ¬ Control (serdatr &&& DATASTOP) iflag →
      (step s (.rint serdatr iflag)).stored =
        if s.contents.length = 255 then s.stored else s.stored ++ [serdatr &&& DATASTOP]
  | .poll _ => True

/-- Wherever `slpoll` is outside or tests for the next character, the receive interrupt
is enabled if a character was taken since it was disabled. -/
def Reenabled (s : Line) : Prop :=
  s.pc = .idle ∨ s.pc = .test → 0 < s.since → s.enabled = true

instance (s : Line) : Decidable s.Reenabled :=
  inferInstanceAs (Decidable (_ ∨ _ → _ → _))

/-- No break is ignored while the receive interrupt is disabled. -/
def BreakHeard (s : Line) : Event → Prop
  | .rint _ _ => True
  | .poll a => ∀ c, s.pc = .got c → c &&& DATASTOP = 0 → a.iflag &&& IGNBRK ≠ 0 →
      s.enabled = true

end Line
end HydraAmix.Serial.Input
