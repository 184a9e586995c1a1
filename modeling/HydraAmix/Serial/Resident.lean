import HydraAmix.Library.Word
import Mathlib.Logic.Function.Basic

/-!
# The program of the serial card

The seven-line card has a processor of its own. `ql6502.m4` is the code that it runs and that
`startcard` puts in its memory: for each line in turn, `scanlines` looks at the receivers and
transmitters of all the lines, and `housekeep` then tells the driver about one of them. The
two macros are here instruction by instruction, with their local labels, and the card takes
one instruction at a time; between any two the driver on the other processor may access the
memory, and the chips may be found in any state.

What `ql.c` does with a line is cut at its accesses to this memory. The loop of `output`
looks for room, stores a character and then moves `thead`; `input` takes the characters from
`rtail` up to where `rhead` was, or passes over them; `qlparam` sets the parameters one after
the other. The driver does not move characters one way while it is moving others that way.
-/
namespace HydraAmix.Serial.Resident
open Word

abbrev NLINE : ℕ := 7
abbrev BUFSIZE : ℕ := 256
abbrev BREAK_DETECTED : Byte := 1
abbrev CARR_DETECTED : Byte := 2
abbrev CARR_DROPPED : Byte := 3
abbrev RECEIVER_SYNC : Byte := 4
abbrev XOFF : Byte := 0x13

/-- The bytes of a line: `public`, and behind them `private`, `_r$1head` and so on. -/
inductive Cell where
  | rhead | rcondition | rsync | tdisable | thead | ttail | ttandem | tflush
  | setparams | control | command | xon
  | head | cd | cdchanged | cdhead | rbreak | rbreakhead | xonCopy
  deriving DecidableEq

/-- The registers of the chips: those of the line's ACIA, and `c_cd` and `c_cts`. -/
inductive Reg where
  | data | status | command | control | cd | cts
  deriving DecidableEq

/-! ### Instructions -/

inductive Operand where
  | imm (n : Byte)
  | cell (c : Cell)
  | reg (r : Reg)
  /-- `t$1buf, x` and `r$1buf, x` -/
  | tbuf | rbuf
  deriving DecidableEq

inductive Instr where
  | lda (o : Operand) | ldx (o : Operand)
  | sta (o : Operand) | stx (o : Operand) | stz (o : Operand)
  | and (o : Operand) | eor (o : Operand)
  | cmp (o : Operand) | cpx (o : Operand)
  | inx
  | beq (label : ℕ) | bne (label : ℕ) | jmp (label : ℕ)
  deriving DecidableEq

/-- A line of the source. A label may stand alone. -/
structure Stmt where
  label : Option ℕ
  instr : Option Instr

def op (i : Instr) : Stmt := ⟨none, some i⟩

def lbl (label : ℕ) (i : Instr) : Stmt := ⟨some label, some i⟩

def mark (label : ℕ) : Stmt := ⟨some label, none⟩

open Cell Operand Instr in
/-- `scanline` of a line. -/
def scanline (line : ℕ) : List Stmt :=
  [op (lda (reg .status)),
   op (.and (imm ((1 : Byte) <<< 3))),
   op (beq 2),
   op (lda (reg .status)),
   op (.and (imm ((1 : Byte) <<< 1))),
   op (beq 1),
   op (lda (reg .data)),
   op (bne 2),
   op (lda (imm 1)),
   op (sta (cell rbreak)),
   op (ldx (cell head)),
   op (stx (cell rbreakhead)),
   op (jmp 2),
   lbl 1 (ldx (cell head)),
   op (lda (reg .data)),
   op (sta rbuf),
   op inx,
   op (stx (cell head)),
   op (.and (imm 0x7F)),
   op (cmp (imm XOFF)),
   op (bne 2),
   op (lda (cell xonCopy)),
   op (sta (cell tdisable)),
   -- the transmitter
   lbl 2 (lda (cell ttandem)),
   op (beq 1),
   op (lda (reg .status)),
   op (.and (imm ((1 : Byte) <<< 4))),
   op (beq 3),
   op (lda (reg .cts)),
   op (.and (imm ((1 : Byte) <<< line))),
   op (bne 3),
   op (lda (cell ttandem)),
   op (stz (cell ttandem)),
   op (jmp 2),
   lbl 1 (ldx (cell ttail)),
   op (cpx (cell thead)),
   op (beq 3),
   op (lda (cell tdisable)),
   op (bne 3),
   op (lda (reg .status)),
   op (.and (imm ((1 : Byte) <<< 4))),
   op (beq 3),
   op (lda (reg .cts)),
   op (.and (imm ((1 : Byte) <<< line))),
   op (bne 3),
   op (lda tbuf),
   op inx,
   op (stx (cell ttail)),
   lbl 2 (sta (reg .data)),
   mark 3]

open Cell Operand Instr in
/-- `housekeep` of a line. -/
def housekeep (line : ℕ) : List Stmt :=
  [op (lda (reg .cd)),
   op (.and (imm ((1 : Byte) <<< line))),
   op (eor (cell cd)),
   op (beq 1),
   op (sta (cell cdchanged)),
   op (eor (cell cd)),
   op (sta (cell cd)),
   op (lda (cell head)),
   op (sta (cell cdhead)),
   lbl 1 (lda (cell rcondition)),
   op (bne 1),
   op (lda (cell rbreak)),
   op (beq 2),
   op (lda (cell rbreakhead)),
   op (sta (cell cdhead)),
   op (sta (cell rhead)),
   op (lda (imm BREAK_DETECTED)),
   op (sta (cell rcondition)),
   op (stz (cell rbreak)),
   op (jmp 9),
   lbl 2 (lda (cell cdchanged)),
   op (beq 4),
   op (lda (cell cdhead)),
   op (sta (cell rhead)),
   op (ldx (imm CARR_DETECTED)),
   op (lda (cell cd)),
   op (beq 3),
   op (ldx (imm CARR_DROPPED)),
   lbl 3 (stx (cell rcondition)),
   op (stz (cell cdchanged)),
   op (jmp 9),
   lbl 4 (lda (cell rsync)),
   op (beq 2),
   op (stz (cell rsync)),
   op (lda (imm RECEIVER_SYNC)),
   op (sta (cell rcondition)),
   op (jmp 9),
   lbl 2 (lda (cell head)),
   op (sta (cell rhead)),
   lbl 1 (lda (cell setparams)),
   op (beq 1),
   op (stz (cell setparams)),
   op (lda (cell control)),
   op (sta (reg .control)),
   op (lda (cell command)),
   op (sta (reg .command)),
   op (lda (cell xon)),
   op (sta (cell xonCopy)),
   op (stz (cell tdisable)),
   op (jmp 9),
   lbl 1 (lda (cell tflush)),
   op (beq 9),
   op (lda (cell thead)),
   op (sta (cell ttail)),
   op (stz (cell tdisable)),
   op (stz (cell tflush)),
   mark 9]

/-- The label `1f`: the next one of its number. -/
def forward (code : List Stmt) (pc label : ℕ) : ℕ :=
  pc + 1 + (code.drop (pc + 1)).findIdx fun s => s.label = some label

/-! ### The card -/

structure Cpu where
  a : Byte
  x : Byte
  z : Bool

/-- Where the driver is in the loop that fills `tbuf`: nowhere, with a character for which there
was room, or with one that it has stored. -/
inductive Busy where
  | idle
  | room (c : Byte)
  | stored
  deriving DecidableEq

/-- A line: its bytes, its buffers and its chips. Then what `ql.c` has of it: `rtail`, the
position in `rbuf` and the count of a copy, the condition that `handle_exceptions` is at, how
far it is with a character, and whether it is in `qlparam`. Then what happened so far: the
characters with the status that was read before each, those written to the transmitter, those
put in `tbuf` and those in `ttandem`, how many had been put at each request to flush, how many
characters `input` is past, those that it took, with their place, and how often it passed over
some, how often the parameters were set, and the conditions that the card posted and the
driver found. -/
structure Line where
  cell : Cell → Byte
  tbuf : ℕ → Byte
  rbuf : ℕ → Byte
  reg : Reg → Byte
  rtail : ℕ
  from_ : ℕ
  count : ℕ
  seen : Option Byte
  busy : Busy
  setting : Bool
  status : Byte
  received : List (Byte × Byte)
  wrote : List Byte
  put : List Byte
  tandems : List Byte
  flushes : List ℕ
  past : ℕ
  taken : List (ℕ × Byte)
  drops : ℕ
  sets : ℕ
  posted : List Byte
  found : List Byte

namespace Line

def set (s : Line) (c : Cell) (v : Byte) : Line := { s with cell := Function.update s.cell c v }

end Line

/-- What an operand holds. -/
def load (cpu : Cpu) (s : Line) : Operand → Byte
  | .imm n => n
  | .cell c => s.cell c
  | .reg r => s.reg r
  | .tbuf => s.tbuf cpu.x.toNat
  | .rbuf => s.rbuf cpu.x.toNat

/-- What reading an operand leaves: a character is read once. -/
def sense (s : Line) : Operand → Line
  | .reg .status => { s with status := s.reg .status }
  | .reg .data => { s with received := s.received ++ [(s.status, s.reg .data)] }
  | _ => s

def store (cpu : Cpu) (s : Line) (v : Byte) : Operand → Line
  | .imm _ => s
  | .cell .rcondition => { s.set .rcondition v with posted := s.posted ++ [v] }
  | .cell c => s.set c v
  | .reg .data => { s with wrote := s.wrote ++ [v] }
  | .reg r => { s with reg := Function.update s.reg r v }
  | .tbuf => { s with tbuf := Function.update s.tbuf cpu.x.toNat v }
  | .rbuf => { s with rbuf := Function.update s.rbuf cpu.x.toNat v }

/-- What an instruction does with the registers and the memory. -/
def exec (cpu : Cpu) (s : Line) : Instr → Cpu × Line
  | .lda o => let v := load cpu s o; ({ cpu with a := v, z := v = 0 }, sense s o)
  | .ldx o => let v := load cpu s o; ({ cpu with x := v, z := v = 0 }, sense s o)
  | .sta o => (cpu, store cpu s cpu.a o)
  | .stx o => (cpu, store cpu s cpu.x o)
  | .stz o => (cpu, store cpu s 0 o)
  | .and o => let v := cpu.a &&& load cpu s o; ({ cpu with a := v, z := v = 0 }, sense s o)
  | .eor o => let v := cpu.a ^^^ load cpu s o; ({ cpu with a := v, z := v = 0 }, sense s o)
  | .cmp o => ({ cpu with z := cpu.a = load cpu s o }, sense s o)
  | .cpx o => ({ cpu with z := cpu.x = load cpu s o }, sense s o)
  | .inx => ({ cpu with x := cpu.x + 1, z := cpu.x + 1 = 0 }, s)
  | .beq _ | .bne _ | .jmp _ => (cpu, s)

/-- The place of the next instruction. -/
def next (code : List Stmt) (pc : ℕ) (cpu : Cpu) : Instr → ℕ
  | .beq label => if cpu.z then forward code pc label else pc + 1
  | .bne label => if cpu.z then pc + 1 else forward code pc label
  | .jmp label => forward code pc label
  | _ => pc + 1

/-- Where the card is: before the call of `scanlines` for a line, in `scanlines`, or in the
`housekeep` of the line. Behind the last line stand the `rts` and the `jmp main`. -/
inductive Place where
  | main (line : ℕ)
  | scan (caller line pc : ℕ)
  | house (line pc : ℕ)
  deriving DecidableEq

structure Card where
  cpu : Cpu
  place : Place
  line : ℕ → Line

namespace Card

/-- An instruction of a macro, or `none` behind the last. -/
def instr (code : List Stmt) (pc : ℕ) : Option Instr := (code[pc]?).bind Stmt.instr

/-- An instruction that belongs to a line. -/
def turn (card : Card) (line : ℕ) (code : List Stmt) (pc : ℕ) (i : Instr) (place : ℕ → Place) :
    Card :=
  let (cpu, s) := exec card.cpu (card.line line) i
  { cpu := cpu
    place := place (next code pc cpu i)
    line := Function.update card.line line s }

/-- One instruction. -/
def run (card : Card) : Card :=
  match card.place with
  | .main line =>
      if line < NLINE then { card with place := .scan line 0 0 }
      else { card with place := .main 0 }
  | .scan caller line pc =>
      if line < NLINE then
        match instr (scanline line) pc with
        | some i => card.turn line (scanline line) pc i (.scan caller line)
        | none => { card with place := .scan caller (line + 1) 0 }
      else { card with place := .house caller 0 }
  | .house line pc =>
      match instr (housekeep line) pc with
      | some i => card.turn line (housekeep line) pc i (.house line)
      | none => { card with place := .main (line + 1) }

end Card

/-! ### The driver and the chips -/

/-- What `ql.c` does to a line, an access at a time, and what the chips do. -/
inductive Access where
  | look (c : Byte)
  | store
  | advance
  | tandem (c : Byte)
  | suspend (v : Byte)
  | flush
  | setting (c : Cell) (v : Byte)
  | setparams
  | sync
  | examine
  | clear
  | begin
  | take
  | drop
  | chip (r : Reg) (v : Byte)

namespace Line

/-- The characters behind `rtail` that `input` finds, up to the end of the buffer. -/
def ready (s : Line) : ℕ :=
  if s.rtail ≤ (s.cell .rhead).toNat then (s.cell .rhead).toNat - s.rtail else BUFSIZE - s.rtail

def access (s : Line) : Access → Line
  | .look c =>
      if s.busy = .idle ∧ s.cell .tflush = 0 ∧ s.cell .thead + 1 ≠ s.cell .ttail then
        { s with busy := .room c }
      else s
  | .store =>
      match s.busy with
      | .room c =>
          { s with
            tbuf := Function.update s.tbuf (s.cell .thead).toNat c
            busy := .stored }
      | _ => s
  | .advance =>
      match s.busy with
      | .stored =>
          { s.set .thead (s.cell .thead + 1) with
            busy := .idle
            put := s.put ++ [s.tbuf (s.cell .thead).toNat] }
      | _ => s
  | .tandem c =>
      if s.cell .ttandem = 0 ∧ c ≠ 0 then { s.set .ttandem c with tandems := s.tandems ++ [c] }
      else s
  | .suspend v => s.set .tdisable v
  | .flush =>
      if s.busy = .idle then
        { s.set .tflush 1 with flushes := s.flushes ++ [s.put.length] }
      else s
  | .setting c v =>
      if c = .control ∨ c = .command ∨ c = .xon then { s.set c v with setting := true } else s
  | .setparams => { s.set .setparams 1 with setting := false, sets := s.sets + 1 }
  | .sync => s.set .rsync 1
  | .examine =>
      if s.seen = none then
        { s with
          seen := some (s.cell .rcondition)
          found := if s.cell .rcondition = 0 then s.found else s.found ++ [s.cell .rcondition] }
      else s
  | .clear => if s.seen = none then s else { s.set .rcondition 0 with seen := none }
  | .begin =>
      if s.count = 0 then
        { s with
          from_ := s.rtail
          count := s.ready
          rtail := (s.rtail + s.ready) % BUFSIZE }
      else s
  | .take =>
      if s.count = 0 then s
      else
        { s with
          from_ := s.from_ + 1
          count := s.count - 1
          past := s.past + 1
          taken := s.taken ++ [(s.past, s.rbuf s.from_)] }
  | .drop =>
      -- nobody has the line open
      if s.count = 0 then
        { s with
          rtail := (s.cell .rhead).toNat
          past := s.past + ((s.cell .rhead).toNat + BUFSIZE - s.rtail) % BUFSIZE
          drops := s.drops + 1 }
      else s
  | .chip r v =>
      -- what the card writes there, it stays
      if r = .command ∨ r = .control then s
      else { s with reg := Function.update s.reg r v }

end Line

inductive Event where
  | run
  | access (line : ℕ) (a : Access)

namespace Card

def step (card : Card) : Event → Card
  | .run => card.run
  | .access line a =>
      { card with line := Function.update card.line line ((card.line line).access a) }

/-- After `startcard`. The carrier counts as changed, so the driver is told of it. -/
def started : Card where
  cpu := ⟨0, 0, false⟩
  place := .main 0
  line _ :=
    { cell := fun c => if c = .cdchanged then 1 else 0
      tbuf := fun _ => 0
      rbuf := fun _ => 0
      reg := fun _ => 0
      rtail := 0
      from_ := 0
      count := 0
      seen := none
      busy := .idle
      setting := false
      status := 0
      received := []
      wrote := []
      put := []
      tandems := []
      flushes := []
      past := 0
      taken := []
      drops := 0
      sets := 0
      posted := []
      found := [] }

end Card
end HydraAmix.Serial.Resident
