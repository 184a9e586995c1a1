import HydraAmix.Serial.ResidentRuns
import HydraAmix.Library.SharedRing

/-!
# What the card sends

The driver puts characters in `tbuf` and, one at a time, a control character in `ttandem`.
What the card writes to the transmitter are these characters, each at most once and in their
order, however the two processors take turns. None is left out unless the driver asked for a
flush, and when the card has done that, it goes on behind all that was put before.
-/
namespace HydraAmix.Serial.Resident
open Word Schedule SharedRing

/-- Where a character that is sent comes from: its place among those put in `tbuf`, or among
those put in `ttandem`. -/
inductive Token where
  | ring (i : ℕ)
  | tandem (i : ℕ)
  deriving DecidableEq

namespace Token

def ring? : Token → Option ℕ
  | ring i => some i
  | tandem _ => none

def tandem? : Token → Option ℕ
  | ring _ => none
  | tandem i => some i

end Token

/-- The places in `tbuf` of what is sent. -/
def rings (ts : List Token) : List ℕ := ts.filterMap Token.ring?

def controls (ts : List Token) : List ℕ := ts.filterMap Token.tandem?

theorem rings_append (us vs : List Token) : rings (us ++ vs) = rings us ++ rings vs :=
  List.filterMap_append

theorem controls_append (us vs : List Token) :
    controls (us ++ vs) = controls us ++ controls vs := List.filterMap_append

section
variable (ts : List Token) (i : ℕ)

@[simp] theorem rings_ring : rings (ts ++ [.ring i]) = rings ts ++ [i] := rings_append ts _

@[simp] theorem rings_tandem : rings (ts ++ [.tandem i]) = rings ts :=
  (rings_append ts _).trans (List.append_nil _)

@[simp] theorem controls_ring : controls (ts ++ [.ring i]) = controls ts :=
  (controls_append ts _).trans (List.append_nil _)

@[simp] theorem controls_tandem : controls (ts ++ [.tandem i]) = controls ts ++ [i] :=
  controls_append ts _

end

/-- How far the card was at an earlier time: the tokens that had left, the characters out of the
ring, and how many had been written. -/
structure Since where
  ts : List Token
  out : ℕ
  count : ℕ

/-- The driver has a character in hand. -/
def Busy.Putting : Busy → Prop
  | .room _ | .stored => True
  | .idle => False

namespace Line

def char (s : Line) : Token → Byte
  | .ring i => s.put.getD i 0
  | .tandem i => s.tandems.getD i 0

/-- The ring of the transmitter, with `out` characters out of it and `sent` control characters
taken, for the tokens `ts` that left. -/
structure Sending (b : Since) (s : Line) (ts : List Token) (out sent : ℕ) : Prop where
  ring : Holds BUFSIZE s.tbuf s.put out
  thead : (s.cell .thead).toNat = s.put.length % BUFSIZE
  ttail : (s.cell .ttail).toNat = out % BUFSIZE
  room : s.busy.Putting → s.put.length + 1 < out + BUFSIZE
  quiet : s.cell .tflush ≠ 0 → ¬ s.busy.Putting ∧ s.flushes ≠ []
  order : (rings ts).Pairwise (· < ·)
  below : ∀ i ∈ rings ts, i < out
  whole : s.flushes = [] → rings ts = List.range out
  tandem : controls ts = List.range sent
  asked : s.tandems.length = sent + if s.cell .ttandem = 0 then 0 else 1
  waiting : s.cell .ttandem ≠ 0 → s.tandems.getD sent 0 = s.cell .ttandem
  marks : ∀ m ∈ s.flushes, m ≤ s.put.length
  flushed : s.cell .tflush = 0 → ∀ m ∈ s.flushes, m ≤ out
  since : ∃ vs, ts = b.ts ++ vs ∧ ∀ i ∈ rings vs, b.out ≤ i
  least : b.out ≤ out
  written : b.count ≤ s.wrote.length

/-- What the assertion is about, but for what was sent. -/
def outgoing (s : Line) :
    (Byte × Byte × Byte × Byte) × (ℕ → Byte) × List Byte × Prop × List ℕ × List Byte :=
  ((s.cell .thead, s.cell .ttail, s.cell .ttandem, s.cell .tflush), s.tbuf, s.put,
    s.busy.Putting, s.flushes, s.tandems)

end Line

/-- What the registers hold on the way of a character to the transmitter. -/
inductive Carried : ℕ → Cpu → Line → Prop
  | idle {pc : ℕ} {cpu : Cpu} {s : Line} (h : pc ≤ 23 ∨ pc = 34 ∨ 49 ≤ pc) :
      Carried pc cpu s
  | test {cpu : Cpu} {s : Line} (h : cpu.z = false → s.cell .ttandem ≠ 0) : Carried 24 cpu s
  | pending {pc : ℕ} {cpu : Cpu} {s : Line} (hpc : 25 ≤ pc ∧ pc ≤ 31)
      (h : s.cell .ttandem ≠ 0) : Carried pc cpu s
  | loaded {cpu : Cpu} {s : Line} (h : s.cell .ttandem ≠ 0) (ha : cpu.a = s.cell .ttandem) :
      Carried 32 cpu s
  | tail {cpu : Cpu} {s : Line} (hx : cpu.x = s.cell .ttail) : Carried 35 cpu s
  | compared {cpu : Cpu} {s : Line} (hx : cpu.x = s.cell .ttail)
      (h : cpu.z = false → s.cell .thead ≠ s.cell .ttail) : Carried 36 cpu s
  | full {pc : ℕ} {cpu : Cpu} {s : Line} (hpc : 37 ≤ pc ∧ pc ≤ 45)
      (hx : cpu.x = s.cell .ttail) (h : s.cell .thead ≠ s.cell .ttail) : Carried pc cpu s
  | char {cpu : Cpu} {s : Line} (hx : cpu.x = s.cell .ttail)
      (h : s.cell .thead ≠ s.cell .ttail) (ha : cpu.a = s.tbuf (s.cell .ttail).toNat) :
      Carried 46 cpu s
  | past {cpu : Cpu} {s : Line} (hx : cpu.x = s.cell .ttail + 1)
      (h : s.cell .thead ≠ s.cell .ttail) (ha : cpu.a = s.tbuf (s.cell .ttail).toNat) :
      Carried 47 cpu s

/-- What the registers hold while the buffer is flushed. -/
inductive Flushing : ℕ → Cpu → Line → Prop
  | idle {pc : ℕ} {cpu : Cpu} {s : Line} (h : pc ≤ 50 ∨ 56 ≤ pc) : Flushing pc cpu s
  | test {cpu : Cpu} {s : Line} (h : cpu.z = false → s.cell .tflush ≠ 0) : Flushing 51 cpu s
  | asked {cpu : Cpu} {s : Line} (h : s.cell .tflush ≠ 0) : Flushing 52 cpu s
  | loaded {cpu : Cpu} {s : Line} (h : s.cell .tflush ≠ 0) (ha : cpu.a = s.cell .thead) :
      Flushing 53 cpu s
  | empty {pc : ℕ} {cpu : Cpu} {s : Line} (hpc : pc = 54 ∨ pc = 55) (h : s.cell .tflush ≠ 0)
      (he : s.cell .thead = s.cell .ttail) : Flushing pc cpu s

/-- What was written, where a character may be in the accumulator. -/
inductive Under (ts : List Token) : ℕ → Cpu → Line → Prop
  | between {pc : ℕ} {cpu : Cpu} {s : Line} (h : Carried pc cpu s)
      (hw : s.wrote = ts.map s.char) : Under ts pc cpu s
  | last {pc : ℕ} {cpu : Cpu} {s : Line} (hpc : pc = 33 ∨ pc = 48) (us : List Token) (t : Token)
      (hts : ts = us ++ [t]) (hw : s.wrote = us.map s.char) (ha : cpu.a = s.char t)
      (hm : s.cell .tflush = 0 → ∀ i ∈ rings [t], ∀ m ∈ s.flushes, m ≤ i) : Under ts pc cpu s

/-- The assertion. -/
def Sends (b : Since) : At → Cpu → Line → Prop
  | .away, _, s => ∃ ts out sent, s.Sending b ts out sent ∧ s.wrote = ts.map s.char
  | .scan pc, cpu, s => ∃ ts out sent, s.Sending b ts out sent ∧ Under ts pc cpu s
  | .house pc, cpu, s =>
      ∃ ts out sent, s.Sending b ts out sent ∧ Flushing pc cpu s ∧ s.wrote = ts.map s.char

section
variable {b : Since} {s s' : Line} {ts : List Token} {out sent : ℕ}

namespace Line

theorem Sending.congr (h : s.Sending b ts out sent) (he : s'.outgoing = s.outgoing)
    (hw : s.wrote.length ≤ s'.wrote.length) : s'.Sending b ts out sent := by
  simp only [Line.outgoing, Prod.mk.injEq] at he
  obtain ⟨⟨hh, ht, hd, hf⟩, hb, hp, hbusy, hfl, hta⟩ := he
  constructor
  · rw [hb, hp]; exact h.ring
  · rw [hh, hp]; exact h.thead
  · rw [ht]; exact h.ttail
  · rw [hbusy, hp]; exact h.room
  · rw [hf, hbusy, hfl]; exact h.quiet
  · exact h.order
  · exact h.below
  · rw [hfl]; exact h.whole
  · exact h.tandem
  · rw [hta, hd]; exact h.asked
  · rw [hd, hta]; exact h.waiting
  · rw [hfl, hp]; exact h.marks
  · rw [hf, hfl]; exact h.flushed
  · exact h.since
  · exact h.least
  · exact Nat.le_trans h.written hw

/-- From now on. -/
theorem Sending.now (h : s.Sending b ts out sent) :
    s.Sending ⟨ts, out, s.wrote.length⟩ ts out sent :=
  { h with
    since := ⟨[], (List.append_nil ts).symm, fun _ hi => absurd hi List.not_mem_nil⟩
    least := Nat.le_refl _
    written := Nat.le_refl _ }

theorem char_congr (he : s'.outgoing = s.outgoing) : s'.char = s.char := by
  simp only [Line.outgoing, Prod.mk.injEq] at he
  obtain ⟨-, -, hp, -, -, hta⟩ := he
  funext t
  cases t <;> simp only [Line.char, hp, hta]

/-! ### What the card does -/

/-- The control character is taken from its cell. -/
theorem Sending.control (h : s.Sending b ts out sent) (hne : s.cell .ttandem ≠ 0) :
    (s.set .ttandem 0).Sending b (ts ++ [.tandem sent]) out (sent + 1) :=
  { h with
    order := by simpa using h.order
    below := by simpa using h.below
    whole := fun hfl => by simpa using h.whole hfl
    tandem := by rw [controls_tandem, h.tandem, List.range_succ]
    asked := by
      rw [show (s.set .ttandem 0).tandems = s.tandems from rfl, h.asked, if_neg hne]
      rfl
    waiting := fun hh => absurd rfl hh
    since := by
      obtain ⟨vs, rfl, hvs⟩ := h.since
      exact ⟨vs ++ [.tandem sent], List.append_assoc .., by simpa using hvs⟩ }

theorem Sending.lt_of_ne (h : s.Sending b ts out sent) (hne : s.cell .thead ≠ s.cell .ttail) :
    out < s.put.length := by
  refine Nat.lt_of_le_of_ne h.ring.le fun he => hne (BitVec.eq_of_toNat_eq ?_)
  rw [h.thead, h.ttail, he]

/-- The pointer moves behind the character that was loaded. -/
theorem Sending.shift (h : s.Sending b ts out sent) (hne : s.cell .thead ≠ s.cell .ttail) :
    (s.set .ttail (s.cell .ttail + 1)).Sending b (ts ++ [.ring out]) (out + 1) sent ∧
      s.tbuf (s.cell .ttail).toNat = s.char (.ring out) := by
  have hlt := h.lt_of_ne hne
  obtain ⟨hnext, hring⟩ := h.ring.next hlt
  refine ⟨{ h with
    ring := hring
    ttail := ?_
    room := fun hb => Nat.lt_of_lt_of_le (h.room hb) (by omega)
    order := ?_
    below := ?_
    whole := fun hfl => by rw [rings_ring, h.whole hfl, List.range_succ]
    tandem := by simpa using h.tandem
    flushed := fun hf m hm => Nat.le_succ_of_le (h.flushed hf m hm)
    since := ?_
    least := Nat.le_succ_of_le h.least }, ?_⟩
  · change (s.cell .ttail + 1).toNat = (out + 1) % BUFSIZE
    rw [BitVec.toNat_add, h.ttail]
    exact Nat.mod_add_mod out BUFSIZE 1
  · rw [rings_ring, List.pairwise_append]
    exact ⟨h.order, List.pairwise_singleton _ _,
      fun i hi j hj => List.mem_singleton.mp hj ▸ h.below i hi⟩
  · intro i hi
    rw [rings_ring, List.mem_append, List.mem_singleton] at hi
    rcases hi with hi | rfl
    · exact Nat.lt_succ_of_lt (h.below i hi)
    · exact Nat.lt_succ_self i
  · obtain ⟨vs, rfl, hvs⟩ := h.since
    refine ⟨vs ++ [.ring out], List.append_assoc .., fun i hi => ?_⟩
    rw [rings_ring, List.mem_append, List.mem_singleton] at hi
    rcases hi with hi | rfl
    · exact hvs i hi
    · exact h.least
  · rw [h.ttail, hnext]
    simp [Line.char, hlt]

/-- A flush drops what is in the ring. -/
theorem Sending.drop (h : s.Sending b ts out sent) (hf : s.cell .tflush ≠ 0) :
    (s.set .ttail (s.cell .thead)).Sending b ts s.put.length sent :=
  { h with
    ring := h.ring.take h.ring.le (Nat.le_refl _)
    ttail := h.thead
    room := fun hb => absurd hb (h.quiet hf).1
    below := fun i hi => Nat.lt_of_lt_of_le (h.below i hi) h.ring.le
    whole := fun hfl => absurd hfl (h.quiet hf).2
    flushed := fun hz => absurd hz hf
    least := Nat.le_trans h.least h.ring.le }

theorem Sending.done (h : s.Sending b ts out sent) (he : s.cell .thead = s.cell .ttail) :
    (s.set .tflush 0).Sending b ts out sent :=
  { h with
    quiet := fun hh => absurd rfl hh
    flushed := fun _ m hm => by
      have hout : out = s.put.length :=
        h.ring.empty_iff.mp (by rw [← h.thead, ← h.ttail, he])
      exact hout ▸ h.marks m hm }

end Line
end

section
variable {line pc : ℕ} {i : Instr} {cpu : Cpu} {s : Line}

/-- The receiver part goes on to the transmitter part. -/
theorem scan_before (hpc : pc < 23) (hi : Card.instr (scanline line) pc = some i) :
    next (scanline line) pc cpu i ≤ 23 := by
  obtain ⟨h2, h5, h7, h12, h20, -⟩ := scan_forward line
  interval_cases pc <;> cases hi <;> unfold next <;> dsimp only <;> first
    | decide
    | split <;> omega
    | omega

/-- A test on the way either goes on or gives up. -/
theorem scan_way (cpu : Cpu) (s : Line) (hpc : 25 ≤ pc ∧ pc ≤ 30 ∨ 37 ≤ pc ∧ pc ≤ 44)
    (hi : Card.instr (scanline line) pc = some i) :
    (next (scanline line) pc cpu i = pc + 1 ∨ next (scanline line) pc cpu i = 49) ∧
      (exec cpu s i).1.x = cpu.x := by
  obtain ⟨-, -, -, -, -, -, h27, h30, -, -, h38, h41, h44⟩ := scan_forward line
  rcases hpc with ⟨hlo, hhi⟩ | ⟨hlo, hhi⟩ <;> interval_cases pc <;> cases hi <;>
    refine ⟨?_, rfl⟩ <;> unfold next <;> dsimp only <;> first
      | exact .inl rfl
      | (split <;> omega)

/-- But for three stores the card leaves alone what is sent. -/
theorem scan_outgoing (cpu : Cpu) (s : Line) (hi : Card.instr (scanline line) pc = some i)
    (hpc : pc ≠ 32 ∧ pc ≠ 47 ∧ pc ≠ 48) :
    (exec cpu s i).2.outgoing = s.outgoing ∧ (exec cpu s i).2.wrote = s.wrote := by
  have hlt := scan_lt hi
  interval_cases pc <;> first
    | (cases hi; exact ⟨rfl, rfl⟩)
    | omega

theorem house_outgoing (cpu : Cpu) (s : Line) (hi : Card.instr (housekeep line) pc = some i)
    (hpc : pc ≠ 53 ∧ pc ≠ 55) :
    (exec cpu s i).2.outgoing = s.outgoing ∧ (exec cpu s i).2.wrote = s.wrote := by
  have hlt := house_lt hi
  interval_cases pc <;> first
    | (cases hi; exact ⟨rfl, rfl⟩)
    | omega

theorem Line.cell_outgoing {s' : Line} (he : s'.outgoing = s.outgoing) :
    s'.cell .thead = s.cell .thead ∧ s'.cell .ttail = s.cell .ttail ∧
      s'.cell .ttandem = s.cell .ttandem ∧ s'.tbuf = s.tbuf := by
  simp only [Line.outgoing, Prod.mk.injEq] at he
  exact ⟨he.1.1, he.1.2.1, he.1.2.2.1, he.2.1⟩

theorem scan_carried (hpc : pc ≠ 32 ∧ pc ≠ 47 ∧ pc ≠ 48)
    (hi : Card.instr (scanline line) pc = some i) (h : Carried pc cpu s) :
    Carried (next (scanline line) pc (exec cpu s i).1 i) (exec cpu s i).1 (exec cpu s i).2 := by
  obtain ⟨-, -, -, -, -, h24, -, -, -, h36, -⟩ := scan_forward line
  obtain ⟨hhead, htail, htandem, -⟩ :=
    Line.cell_outgoing (scan_outgoing cpu s hi hpc).1
  have hlt := scan_lt hi
  cases h with
  | idle h =>
      by_cases hbefore : pc < 23
      · exact .idle (.inl (scan_before hbefore hi))
      · obtain rfl | rfl : pc = 23 ∨ pc = 34 := by omega
        · cases hi
          exact .test of_decide_eq_false
        · cases hi
          exact .tail rfl
  | test h =>
      cases hi
      change Carried (if cpu.z then forward (scanline line) 24 1 else 25) cpu s
      rw [h24]
      split
      · exact .idle (by decide)
      next hz => exact .pending (by decide) (h (Bool.eq_false_iff.mpr hz))
  | pending hpc h =>
      rcases Nat.lt_or_eq_of_le hpc.2 with hpc' | rfl
      · obtain ⟨hnext | hnext, -⟩ :=
          scan_way (exec cpu s i).1 s (.inl ⟨hpc.1, Nat.le_of_lt_succ hpc'⟩) hi
        · exact hnext ▸ .pending ⟨Nat.le_succ_of_le hpc.1, hpc'⟩ (htandem ▸ h)
        · exact hnext ▸ .idle (by decide)
      · cases hi
        exact .loaded h rfl
  | loaded h ha => exact absurd rfl hpc.1
  | tail hx =>
      cases hi
      exact .compared hx fun hz => hx ▸ Ne.symm (of_decide_eq_false hz)
  | compared hx h =>
      cases hi
      change Carried (if cpu.z then forward (scanline line) 36 3 else 37) cpu s
      rw [h36]
      split
      · exact .idle (by decide)
      next hz => exact .full (by decide) hx (h (Bool.eq_false_iff.mpr hz))
  | full hpc hx h =>
      rcases Nat.lt_or_eq_of_le hpc.2 with hpc' | rfl
      · have hway : 25 ≤ pc ∧ pc ≤ 30 ∨ 37 ≤ pc ∧ pc ≤ 44 :=
          .inr ⟨hpc.1, Nat.le_of_lt_succ hpc'⟩
        have hx' := (scan_way cpu s hway hi).2.trans hx
        obtain ⟨hnext | hnext, -⟩ := scan_way (exec cpu s i).1 s hway hi
        · exact hnext ▸ .full ⟨Nat.le_succ_of_le hpc.1, hpc'⟩ (htail ▸ hx')
            (hhead ▸ htail ▸ h)
        · exact hnext ▸ .idle (by decide)
      · cases hi
        exact .char hx h (congrArg (fun v : Byte => s.tbuf v.toNat) hx)
  | char hx h ha =>
      cases hi
      exact .past (congrArg (· + 1) hx) h ha
  | past hx h ha => exact absurd rfl hpc.2.1

/-- What is before the flush leaves it out or comes to it. -/
theorem house_before (hpc : pc < 50) (hi : Card.instr (housekeep line) pc = some i) :
    next (housekeep line) pc cpu i ≤ 50 ∨ next (housekeep line) pc cpu i = 56 := by
  obtain ⟨h3, h10, h12, h19, h21, h26, h30, h32, h36, h40, h49, -⟩ := house_forward line
  interval_cases pc <;> cases hi <;> unfold next <;> dsimp only <;> first
    | (exact .inl (by decide))
    | split <;> omega
    | omega

theorem house_flushing (hpc : pc ≠ 53 ∧ pc ≠ 55)
    (hi : Card.instr (housekeep line) pc = some i) (h : Flushing pc cpu s) :
    Flushing (next (housekeep line) pc (exec cpu s i).1 i) (exec cpu s i).1
      (exec cpu s i).2 := by
  obtain ⟨-, -, -, -, -, -, -, -, -, -, -, h51⟩ := house_forward line
  have hlt := house_lt hi
  cases h with
  | idle h =>
      rcases Nat.lt_or_ge pc 50 with hbefore | hge
      · exact .idle ((house_before hbefore hi).imp_right fun he => Nat.le_of_eq he.symm)
      · obtain rfl : pc = 50 := by omega
        cases hi
        exact .test of_decide_eq_false
  | test h =>
      cases hi
      change Flushing (if cpu.z then forward (housekeep line) 51 9 else 52) cpu s
      rw [h51]
      split
      · exact .idle (by decide)
      next hz => exact .asked (h (Bool.eq_false_iff.mpr hz))
  | asked h =>
      cases hi
      exact .loaded h rfl
  | loaded h ha => exact absurd rfl hpc.1
  | empty hpc' h he =>
      obtain rfl : pc = 54 := hpc'.resolve_right hpc.2
      cases hi
      exact .empty (.inr rfl) h he

end
end HydraAmix.Serial.Resident
