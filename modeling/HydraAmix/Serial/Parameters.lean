import HydraAmix.Serial.ResidentRuns

/-!
# The parameters of a line

The driver sets the parameters and then `setparams`, and it may set them again at any time. The
card clears `setparams` before it reads them. Where the driver is done with them and the card
has seen that, the chip and the card have the last parameters, however often they were set.
-/
namespace HydraAmix.Serial.Resident
open Word Schedule

variable {line pc : ℕ} {i : Instr} {cpu : Cpu} {s s' : Line}

namespace Line

/-- The parameters were set, and the card has seen it. -/
def Settled (s : Line) : Prop :=
  s.sets ≠ 0 ∧ s.setting = false ∧ s.cell .setparams = 0

/-- What the driver set, and what of it the card has. -/
def parameters (s : Line) :
    (Byte × Byte × Byte) × (Byte × Byte × Byte) × (ℕ × Bool × Byte) :=
  ((s.cell .control, s.cell .command, s.cell .xon),
    (s.reg .control, s.reg .command, s.cell .xonCopy), (s.sets, s.setting, s.cell .setparams))

end Line

/-- While the card reads the parameters, it has so many of them. -/
inductive Reader (cpu : Cpu) (s : Line) : ℕ → Prop
  | idle {pc : ℕ} (hpc : pc ≤ 41 ∨ 48 ≤ pc)
      (h : s.Settled → s.parameters.2.1 = s.parameters.1) : Reader cpu s pc
  | seen : Reader cpu s 42
  | control (h : s.Settled → cpu.a = s.cell .control) : Reader cpu s 43
  | controlled (h : s.Settled → s.reg .control = s.cell .control) : Reader cpu s 44
  | command (h : s.Settled → s.reg .control = s.cell .control ∧ cpu.a = s.cell .command) :
      Reader cpu s 45
  | commanded (h : s.Settled → s.reg .control = s.cell .control ∧
      s.reg .command = s.cell .command) : Reader cpu s 46
  | xon (h : s.Settled → s.reg .control = s.cell .control ∧
      s.reg .command = s.cell .command ∧ cpu.a = s.cell .xon) : Reader cpu s 47

def Reads : At → Cpu → Line → Prop
  | .house pc, cpu, s => Reader cpu s pc
  | _, _, s => s.Settled → s.parameters.2.1 = s.parameters.1

theorem Line.Settled.congr (h : s'.Settled) (he : s'.parameters = s.parameters) : s.Settled := by
  simp only [Line.parameters, Prod.mk.injEq] at he
  obtain ⟨-, -, hsets, hsetting, hset⟩ := he
  exact ⟨hsets ▸ h.1, hsetting ▸ h.2.1, hset ▸ h.2.2⟩

/-- Nothing of what the card has or should have is changed. -/
theorem agree_congr (h : s.Settled → s.parameters.2.1 = s.parameters.1)
    (he : s'.parameters = s.parameters) : s'.Settled → s'.parameters.2.1 = s'.parameters.1 :=
  fun hs => he ▸ h (hs.congr he)

theorem Reader.congr (h : Reader cpu s pc) (he : s'.parameters = s.parameters) :
    Reader cpu s' pc := by
  have hs : s'.Settled → s.Settled := fun hs => hs.congr he
  have hall := he
  simp only [Line.parameters, Prod.mk.injEq] at he
  obtain ⟨⟨hcontrol, hcommand, hxon⟩, ⟨hc, hd, -⟩, -⟩ := he
  cases h with
  | idle hpc h => exact .idle hpc (agree_congr h hall)
  | seen => exact .seen
  | control h => exact .control fun hh => (h (hs hh)).trans hcontrol.symm
  | controlled h => exact .controlled fun hh => by rw [hc, hcontrol]; exact h (hs hh)
  | command h => exact .command fun hh => by rw [hc, hcontrol, hcommand]; exact h (hs hh)
  | commanded h => exact .commanded fun hh => by rw [hc, hcontrol, hd, hcommand]; exact h (hs hh)
  | xon h => exact .xon fun hh => by rw [hc, hcontrol, hd, hcommand, hxon]; exact h (hs hh)

/-- While the driver sets the parameters, and until the card sees that, nothing is promised. -/
theorem Reader.of_not (h : Reader cpu s pc) (hs : ¬ s'.Settled) : Reader cpu s' pc := by
  cases h with
  | idle hpc _ => exact .idle hpc fun hh => absurd hh hs
  | seen => exact .seen
  | control _ => exact .control fun hh => absurd hh hs
  | controlled _ => exact .controlled fun hh => absurd hh hs
  | command _ => exact .command fun hh => absurd hh hs
  | commanded _ => exact .commanded fun hh => absurd hh hs
  | xon _ => exact .xon fun hh => absurd hh hs

theorem scan_parameters (cpu : Cpu) (s : Line) (hi : Card.instr (scanline line) pc = some i) :
    (exec cpu s i).2.parameters = s.parameters := by
  have hlt := scan_lt hi
  interval_cases pc <;> cases hi <;> rfl

theorem house_parameters (cpu : Cpu) (s : Line) (hi : Card.instr (housekeep line) pc = some i)
    (hpc : pc < 41 ∨ 48 ≤ pc) : (exec cpu s i).2.parameters = s.parameters := by
  have hlt := house_lt hi
  interval_cases pc <;> first
    | (cases hi; rfl)
    | omega

theorem house_past (hi : Card.instr (housekeep line) pc = some i) (hpc : pc < 41 ∨ 48 ≤ pc) :
    next (housekeep line) pc cpu i ≤ 41 ∨ 48 ≤ next (housekeep line) pc cpu i := by
  obtain ⟨h3, h10, h12, h19, h21, h26, h30, h32, h36, h40, h49, h51⟩ := house_forward line
  have hlt := house_lt hi
  interval_cases pc <;> first
    | omega
    | (cases hi; unfold next; dsimp only; first | decide | omega | (split <;> omega))

theorem Reads.house (hi : Card.instr (housekeep line) pc = some i)
    (h : Reads (.house pc) cpu s) :
    Reads (.house (next (housekeep line) pc (exec cpu s i).1 i)) (exec cpu s i).1
      (exec cpu s i).2 := by
  cases h with
  | idle hpc h =>
      by_cases h41 : pc = 41
      · subst h41
        cases hi
        exact .seen
      · have hout : pc < 41 ∨ 48 ≤ pc := by omega
        exact .idle (house_past hi hout) (agree_congr h (house_parameters cpu s hi hout))
  | seen =>
      cases hi
      exact .control fun _ => rfl
  | control h =>
      cases hi
      exact .controlled h
  | controlled h =>
      cases hi
      exact .command fun hs => ⟨h hs, rfl⟩
  | command h =>
      cases hi
      exact .commanded h
  | commanded h =>
      cases hi
      exact .xon fun hs => ⟨(h hs).1, (h hs).2, rfl⟩
  | xon h =>
      cases hi
      refine .idle (.inr (Nat.le_refl 48)) fun hs => ?_
      obtain ⟨hcontrol, hcommand, hxon⟩ := h hs
      exact Prod.ext hcontrol (Prod.ext hcommand hxon)

theorem access_parameters (s : Line) (a : Access) :
    (s.access a).parameters = s.parameters ∨ ¬ (s.access a).Settled := by
  cases a with
  | suspend _ | sync => exact .inl rfl
  | setparams => exact .inr fun h => absurd h.2.2 (show (1 : Byte) ≠ 0 by decide)
  | setting c v =>
      unfold Line.access
      dsimp only
      split
      · exact .inr fun h => Bool.noConfusion h.2.1
      · exact .inl rfl
  | chip r v =>
      unfold Line.access
      dsimp only
      split
      · exact .inl rfl
      next hr =>
        refine .inl ?_
        simp only [Line.parameters, Function.update_of_ne fun h => hr (.inl h.symm),
          Function.update_of_ne fun h => hr (.inr h.symm)]
  | _ =>
      unfold Line.access
      dsimp only
      split <;> exact .inl rfl

theorem Reads.access (a : Access) {p : At} (h : Reads p cpu s) : Reads p cpu (s.access a) := by
  rcases access_parameters s a with he | hn
  · cases p with
    | away | scan _ => exact agree_congr h he
    | house _ => exact Reader.congr h he
  · cases p with
    | away | scan _ => exact fun hs => absurd hs hn
    | house _ => exact Reader.of_not h hn

/-- Outside of the card's reads. -/
theorem Reads.agree {p : At} (hp : ∀ pc, p = .house pc → pc ≤ 41 ∨ 48 ≤ pc) (h : Reads p cpu s)
    (hs : s.Settled) : s.parameters.2.1 = s.parameters.1 := by
  cases p with
  | away => exact h hs
  | scan _ => exact h hs
  | house pc =>
      have hpc := hp pc rfl
      cases h with
      | idle _ h => exact h hs
      | _ => omega

theorem At.Edge.outside {p : At} (hp : p.Edge) : ∀ pc, p = .house pc → pc ≤ 41 ∨ 48 ≤ pc := by
  rintro pc rfl
  have hpc : pc = 0 ∨ 56 ≤ pc := hp
  omega

theorem kept_reads (line : ℕ) : Kept line (fun _ => True) Reads where
  edge p q _ _ s hp hq h := by
    cases q with
    | away => exact h.agree hp.outside
    | scan _ => exact h.agree hp.outside
    | house pc => exact .idle (hq.outside pc rfl) (h.agree hp.outside)
  scan _ _ cpu s hi _ h := agree_congr h (scan_parameters cpu s hi)
  house _ _ _ _ hi _ h := h.house hi
  access _ _ _ a _ h := h.access a

theorem started_reads (line : ℕ) : Card.started.Asserts line Reads := fun h => absurd rfl h.1

/-- Where the driver has set the parameters and is not setting them again, and the card has
cleared `setparams` and is not reading them, the chip and the card have what the driver set. -/
def Card.InForce (card : Card) (line : ℕ) : Prop :=
  (card.line line).Settled → (∀ pc, card.place = .house line pc → pc ≤ 41 ∨ 48 ≤ pc) →
    (card.line line).reg .control = (card.line line).cell .control ∧
      (card.line line).reg .command = (card.line line).cell .command ∧
      (card.line line).cell .xonCopy = (card.line line).cell .xon

/-- On every run, the parameters that were set last are in force. -/
theorem parameters_in_force (es : List Event) (line : ℕ) :
    (final Card.step Card.started es).InForce line := by
  intro hs hplace
  have h : Reads _ _ _ := (kept_reads line).final (started_reads line)
    (every_of_forall (fun _ _ => trivial) _ es)
  have hagree := h.agree (fun pc hpc => hplace pc ?_) hs
  · exact ⟨congrArg Prod.fst hagree, congrArg (fun o => o.2.1) hagree,
      congrArg (fun o => o.2.2) hagree⟩
  · revert hpc
    unfold Place.of
    split <;> (try split) <;> intro hpc <;> cases hpc
    next hl hplace => rw [hplace, hl]

end HydraAmix.Serial.Resident
