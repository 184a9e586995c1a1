import HydraAmix.Serial.Resident
import HydraAmix.Library.Schedule
import Mathlib.Tactic.IntervalCases

/-!
# Assertions at the instructions of the card

What holds of a line depends on where the card is in the two macros, as long as it is at work
on this line. An assertion for each place is kept by the instructions of the macros and by
what happens between them, and so it holds on every run.
-/
namespace HydraAmix.Serial.Resident
open Word Schedule

/-- The place of the card, as far as it is at work on a line. -/
inductive At where
  | away
  | scan (pc : ℕ)
  | house (pc : ℕ)
  deriving DecidableEq

def Place.of (line : ℕ) : Place → At
  | .main _ => .away
  | .scan _ l pc => if l = line ∧ line < NLINE then .scan pc else .away
  | .house l pc => if l = line then .house pc else .away

/-- Where the work on a line begins and ends. -/
def At.Edge : At → Prop
  | .away => True
  | .scan pc => pc = 0 ∨ 49 ≤ pc
  | .house pc => pc = 0 ∨ 56 ≤ pc

theorem scan_forward (line : ℕ) :
    forward (scanline line) 2 2 = 23 ∧ forward (scanline line) 5 1 = 13 ∧
    forward (scanline line) 7 2 = 23 ∧ forward (scanline line) 12 2 = 23 ∧
    forward (scanline line) 20 2 = 23 ∧ forward (scanline line) 24 1 = 34 ∧
    forward (scanline line) 27 3 = 49 ∧ forward (scanline line) 30 3 = 49 ∧
    forward (scanline line) 33 2 = 48 ∧ forward (scanline line) 36 3 = 49 ∧
    forward (scanline line) 38 3 = 49 ∧ forward (scanline line) 41 3 = 49 ∧
    forward (scanline line) 44 3 = 49 :=
  ⟨rfl, rfl, rfl, rfl, rfl, rfl, rfl, rfl, rfl, rfl, rfl, rfl, rfl⟩

theorem house_forward (line : ℕ) :
    forward (housekeep line) 3 1 = 9 ∧ forward (housekeep line) 10 1 = 39 ∧
    forward (housekeep line) 12 2 = 20 ∧ forward (housekeep line) 19 9 = 56 ∧
    forward (housekeep line) 21 4 = 31 ∧ forward (housekeep line) 26 3 = 28 ∧
    forward (housekeep line) 30 9 = 56 ∧ forward (housekeep line) 32 2 = 37 ∧
    forward (housekeep line) 36 9 = 56 ∧ forward (housekeep line) 40 1 = 50 ∧
    forward (housekeep line) 49 9 = 56 ∧ forward (housekeep line) 51 9 = 56 :=
  ⟨rfl, rfl, rfl, rfl, rfl, rfl, rfl, rfl, rfl, rfl, rfl, rfl⟩

theorem scan_end {line pc : ℕ} (h : Card.instr (scanline line) pc = none) : 49 ≤ pc := by
  by_contra hlt
  have hpc : pc < 49 := Nat.lt_of_not_le hlt
  interval_cases pc <;> cases h

theorem house_end {line pc : ℕ} (h : Card.instr (housekeep line) pc = none) : 56 ≤ pc := by
  by_contra hlt
  have hpc : pc < 56 := Nat.lt_of_not_le hlt
  interval_cases pc <;> cases h

theorem instr_lt {code : List Stmt} {n pc : ℕ} {i : Instr} (hn : code.length = n + 1)
    (hend : Card.instr code n = none) (hi : Card.instr code pc = some i) : pc < n := by
  by_contra hlt
  rcases Nat.lt_or_eq_of_le (Nat.le_of_not_lt hlt) with hlt | rfl
  · rw [Card.instr, List.getElem?_eq_none (hn ▸ hlt)] at hi
    cases hi
  · cases hend.symm.trans hi

theorem scan_lt {line pc : ℕ} {i : Instr} (hi : Card.instr (scanline line) pc = some i) :
    pc < 49 := instr_lt rfl rfl hi

theorem house_lt {line pc : ℕ} {i : Instr} (hi : Card.instr (housekeep line) pc = some i) :
    pc < 56 := instr_lt rfl rfl hi

/-- An assertion about a line that its instructions keep, and what happens between them. `Ok`
is what a run may take for granted. -/
structure Kept (line : ℕ) (Ok : Line → Prop) (Inv : At → Cpu → Line → Prop) : Prop where
  edge : ∀ p q cpu cpu' s, p.Edge → q.Edge → Inv p cpu s → Inv q cpu' s
  scan : ∀ pc i cpu s, Card.instr (scanline line) pc = some i → Ok (exec cpu s i).2 →
    Inv (.scan pc) cpu s →
    Inv (.scan (next (scanline line) pc (exec cpu s i).1 i)) (exec cpu s i).1 (exec cpu s i).2
  house : ∀ pc i cpu s, Card.instr (housekeep line) pc = some i → Ok (exec cpu s i).2 →
    Inv (.house pc) cpu s →
    Inv (.house (next (housekeep line) pc (exec cpu s i).1 i)) (exec cpu s i).1 (exec cpu s i).2
  access : ∀ p cpu s a, Ok (s.access a) → Inv p cpu s → Inv p cpu (s.access a)

/-- The assertion about one line. -/
def Card.Asserts (line : ℕ) (Inv : At → Cpu → Line → Prop) (card : Card) : Prop :=
  Inv (card.place.of line) card.cpu (card.line line)

section
variable {line : ℕ} {Ok : Line → Prop} {Inv : At → Cpu → Line → Prop} {card : Card}

theorem of_main (line l : ℕ) : (Place.of line (.main l)).Edge := trivial

theorem of_scan_edge (line caller l : ℕ) {pc : ℕ} (h : pc = 0 ∨ 49 ≤ pc ∨ ¬ l < NLINE) :
    (Place.of line (.scan caller l pc)).Edge := by
  unfold Place.of
  dsimp only
  split
  next hl =>
    rcases h with h | h | h
    · exact .inl h
    · exact .inr h
    · exact absurd (hl.1 ▸ hl.2) h
  next => trivial

theorem of_house_edge (line l : ℕ) {pc : ℕ} (h : pc = 0 ∨ 56 ≤ pc) :
    (Place.of line (.house l pc)).Edge := by
  unfold Place.of
  dsimp only
  split
  · exact h
  · trivial

/-- The card moves on without an instruction of a macro. -/
theorem Kept.move (h : Kept line Ok Inv) {cpu : Cpu} {p q : Place} {lines : ℕ → Line}
    (hs : (⟨cpu, p, lines⟩ : Card).Asserts line Inv) (hp : (p.of line).Edge)
    (hq : (q.of line).Edge) : (⟨cpu, q, lines⟩ : Card).Asserts line Inv :=
  h.edge _ _ _ _ _ hp hq hs

/-- An instruction of another line. -/
theorem Kept.other (h : Kept line Ok Inv) {cpu : Cpu} {lines : ℕ → Line} {l : ℕ}
    {code : List Stmt} {pc : ℕ} {i : Instr} {place : ℕ → Place}
    (hs : (⟨cpu, place pc, lines⟩ : Card).Asserts line Inv) (hl : l ≠ line)
    (haway : ∀ n, (place n).of line = .away) :
    ((⟨cpu, place pc, lines⟩ : Card).turn l code pc i place).Asserts line Inv := by
  unfold Card.Asserts Card.turn at *
  dsimp only at hs ⊢
  rw [haway, Function.update_of_ne (Ne.symm hl)]
  rw [haway] at hs
  exact h.edge .away .away cpu _ _ trivial trivial hs

theorem Kept.run (h : Kept line Ok Inv) (hs : card.Asserts line Inv)
    (hok : Ok (card.run.line line)) : card.run.Asserts line Inv := by
  obtain ⟨cpu, place, lines⟩ := card
  cases place with
  | main l =>
      unfold Card.run
      dsimp only
      split
      · exact h.move hs trivial (of_scan_edge line l 0 (.inl rfl))
      · exact hs
  | scan caller l pc =>
      unfold Card.run at hok ⊢
      dsimp only at hok ⊢
      split at hok
      next hl =>
        rw [if_pos hl]
        cases hi : Card.instr (scanline l) pc with
        | none =>
            exact h.move hs (of_scan_edge line caller l (.inr (.inl (scan_end hi))))
              (of_scan_edge line caller (l + 1) (.inl rfl))
        | some i =>
            rw [hi] at hok
            by_cases hline : l = line
            · subst hline
              have hat : ∀ n, Place.of l (.scan caller l n) = .scan n := fun n => if_pos ⟨rfl, hl⟩
              unfold Card.Asserts Card.turn at *
              dsimp only at hs hok ⊢
              rw [Function.update_self] at hok ⊢
              rw [hat] at hs ⊢
              exact h.scan pc i cpu (lines l) hi hok hs
            · exact h.other hs hline fun n => if_neg fun hh => hline hh.1
      next hl =>
        rw [if_neg hl]
        exact h.move hs (of_scan_edge line caller l (.inr (.inr hl)))
          (of_house_edge line caller (.inl rfl))
  | house l pc =>
      unfold Card.run at hok ⊢
      dsimp only at hok ⊢
      cases hi : Card.instr (housekeep l) pc with
      | none => exact h.move hs (of_house_edge line l (.inr (house_end hi))) (of_main line (l + 1))
      | some i =>
          rw [hi] at hok
          by_cases hline : l = line
          · subst hline
            have hat : ∀ n, Place.of l (.house l n) = .house n := fun n => if_pos rfl
            unfold Card.Asserts Card.turn at *
            dsimp only at hs hok ⊢
            rw [Function.update_self] at hok ⊢
            rw [hat] at hs ⊢
            exact h.house pc i cpu (lines l) hi hok hs
          · exact h.other hs hline fun n => if_neg hline

theorem Kept.step (h : Kept line Ok Inv) (hs : card.Asserts line Inv) (e : Event)
    (hok : Ok ((card.step e).line line)) : (card.step e).Asserts line Inv := by
  cases e with
  | run => exact h.run hs hok
  | access l a =>
      unfold Card.Asserts Card.step at *
      dsimp only at hok ⊢
      by_cases hl : line = l
      · subst hl
        rw [Function.update_self] at hok ⊢
        exact h.access _ _ _ a hok hs
      · rw [Function.update_of_ne hl]
        exact hs

/-- On every run the assertion holds of the line at its end. -/
theorem Kept.final (h : Kept line Ok Inv) (hs : card.Asserts line Inv) {es : List Event}
    (hok : Every Card.step (fun card e => Ok ((card.step e).line line)) card es) :
    (final Card.step card es).Asserts line Inv :=
  final_of_every (Card.Asserts line Inv) (fun _ e hinv ho => h.step hinv e ho) hs hok

end

end HydraAmix.Serial.Resident
