import HydraAmix.Serial.ReceivesInOrder

/-!
# Conditions and parameters

The card posts a condition in `rcondition` when there is none, and the driver clears it after
it has looked at it. What it finds are the conditions in the order in which they were posted,
each once. It clears the cell also where it found nothing, and a condition that was posted in
between is lost; as long as that does not happen, it finds all of them.

The other way the driver sets the parameters and then `setparams`, and may set them again at
any time. When it is done and the card has cleared `setparams` and set what it read, the chip
has the last parameters.
-/
namespace HydraAmix.Serial.Resident
open Word Schedule

variable {line pc : ℕ} {i : Instr} {cpu : Cpu} {s s' : Line} {exact : Prop}

namespace Line

/-- The condition that waits to be found. -/
def pending (s : Line) : List Byte :=
  if s.cell .rcondition = 0 ∨ s.seen = some (s.cell .rcondition) then []
  else [s.cell .rcondition]

/-- A condition came after the driver looked. -/
def Late (s : Line) : Prop := s.seen = some 0 ∧ s.cell .rcondition ≠ 0

/-- What the driver found of what was posted, and all of it where nothing came late. -/
structure Told (exact : Prop) (s : Line) : Prop where
  seen : ∀ v, s.seen = some v → v ≠ 0 → s.cell .rcondition = v
  calm : exact → ¬ s.Late
  order : ∃ qs, s.found.Sublist qs ∧ (exact → s.found = qs) ∧ s.posted = qs ++ s.pending

def telling (s : Line) : Byte × Option Byte × List Byte × List Byte :=
  (s.cell .rcondition, s.seen, s.posted, s.found)

theorem Told.congr (h : s.Told exact) (he : s'.telling = s.telling) : s'.Told exact := by
  simp only [telling, Prod.mk.injEq] at he
  obtain ⟨hcond, hseen, hposted, hfound⟩ := he
  constructor
  · rw [hseen, hcond]
    exact h.seen
  · unfold Late
    rw [hseen, hcond]
    exact h.calm
  · unfold pending
    rw [hfound, hposted, hcond, hseen]
    exact h.order

/-- The card posts a condition where there is none. -/
theorem Told.post (h : s.Told exact) {v : Byte} (h0 : s.cell .rcondition = 0) (hv : v ≠ 0)
    (hok : exact → ¬ ({ s.set .rcondition v with posted := s.posted ++ [v] } : Line).Late) :
    ({ s.set .rcondition v with posted := s.posted ++ [v] } : Line).Told exact := by
  obtain ⟨qs, hsub, heq, hposted⟩ := h.order
  have hseen : ∀ w, s.seen = some w → w = 0 := fun w hw => by
    by_contra hne
    exact hne ((h.seen w hw hne).symm.trans h0)
  refine ⟨fun w hw hne => absurd (hseen w hw) hne, hok, qs, hsub, heq, ?_⟩
  have hnone : s.pending = [] := if_pos (.inl h0)
  have hone : ({ s.set .rcondition v with posted := s.posted ++ [v] } : Line).pending = [v] :=
    if_neg fun hc => hc.elim hv fun hc => hv (hseen v hc)
  rw [hone, hposted, hnone, List.append_nil]

theorem Told.examine (h : s.Told exact) (hok : exact → ¬ (s.access .examine).Late) :
    (s.access .examine).Told exact := by
  unfold Line.access at hok ⊢
  dsimp only at hok ⊢
  split
  next hs =>
    rw [if_pos hs] at hok
    obtain ⟨qs, hsub, heq, hposted⟩ := h.order
    refine ⟨fun v hv _ => Option.some.inj hv, hok, ?_⟩
    have hrest : ∀ {t : Line}, t.seen = some (t.cell .rcondition) → t.pending = [] :=
      fun ht => if_pos (.inr ht)
    by_cases h0 : s.cell .rcondition = 0
    · refine ⟨qs, by rw [if_pos h0]; exact hsub, fun he => by rw [if_pos h0]; exact heq he, ?_⟩
      rw [hrest rfl, hposted]
      exact congrArg (qs ++ ·) (if_pos (.inl h0))
    · have hone : s.pending = [s.cell .rcondition] :=
        if_neg fun hc => hc.elim h0 fun hc => Option.some_ne_none _ (hc.symm.trans hs)
      refine ⟨qs ++ [s.cell .rcondition], ?_, fun he => ?_, ?_⟩
      · rw [if_neg h0]
        exact hsub.append (List.Sublist.refl _)
      · rw [if_neg h0, heq he]
      · rw [hrest rfl, hposted, hone, List.append_nil]
  · exact h

theorem Told.clear (h : s.Told exact) : (s.access .clear).Told exact := by
  unfold Line.access
  dsimp only
  split
  · exact h
  next hs =>
    obtain ⟨qs, hsub, heq, hposted⟩ := h.order
    refine ⟨fun v hv => absurd hv.symm (Option.some_ne_none v), fun _ hl => absurd rfl hl.2,
      qs ++ s.pending, hsub.trans (List.sublist_append_left _ _), fun he => ?_, ?_⟩
    · have hnone : s.pending = [] := by
        obtain ⟨v, hv⟩ := Option.ne_none_iff_exists'.mp hs
        refine if_pos ?_
        by_cases h0 : v = 0
        · exact .inl (by_contra fun hne => h.calm he ⟨h0 ▸ hv, hne⟩)
        · exact .inr (hv.trans (congrArg some (h.seen v hv h0).symm))
      rw [hnone, List.append_nil]
      exact heq he
    · exact hposted.trans (List.append_nil _).symm

theorem Told.access (h : s.Told exact) (a : Access) (hok : exact → ¬ (s.access a).Late) :
    (s.access a).Told exact := by
  cases a with
  | examine => exact h.examine hok
  | clear => exact h.clear
  | suspend _ | setparams | sync => exact h.congr rfl
  | setting c v =>
      unfold Line.access
      dsimp only
      split
      next hc =>
        obtain rfl | rfl | rfl := hc
        all_goals exact h.congr rfl
      · exact h
  | _ =>
      unfold Line.access
      dsimp only
      split <;> first
        | exact h
        | exact h.congr rfl

end Line

/-- The places of `housekeep` where no condition is on the way. -/
abbrev Silent (pc : ℕ) : Prop :=
  pc ≤ 9 ∨ pc = 18 ∨ pc = 19 ∨ pc = 29 ∨ pc = 30 ∨ 36 ≤ pc

/-- Where the card is about to post a condition, there is none. -/
inductive Poster (cpu : Cpu) (s : Line) : ℕ → Prop
  | idle {pc : ℕ} (hpc : Silent pc) : Poster cpu s pc
  | asked (hz : cpu.z = true → s.cell .rcondition = 0) : Poster cpu s 10
  | clear {pc : ℕ} (hpc : 11 ≤ pc ∧ pc ≤ 16 ∨ 20 ≤ pc ∧ pc ≤ 24 ∨ 31 ≤ pc ∧ pc ≤ 34)
      (h : s.cell .rcondition = 0) : Poster cpu s pc
  | kind {pc : ℕ} (hpc : 25 ≤ pc ∧ pc ≤ 28) (h : s.cell .rcondition = 0) (hx : cpu.x ≠ 0) :
      Poster cpu s pc
  | value {pc : ℕ} (hpc : pc = 17 ∨ pc = 35) (h : s.cell .rcondition = 0) (ha : cpu.a ≠ 0) :
      Poster cpu s pc

def Posts (exact : Prop) : At → Cpu → Line → Prop
  | .house pc, cpu, s => s.Told exact ∧ Poster cpu s pc
  | _, _, s => s.Told exact

theorem scan_telling (cpu : Cpu) (s : Line) (hi : Card.instr (scanline line) pc = some i) :
    (exec cpu s i).2.telling = s.telling := by
  have hlt := scan_lt hi
  interval_cases pc <;> cases hi <;> rfl

theorem house_telling (cpu : Cpu) (s : Line) (hi : Card.instr (housekeep line) pc = some i)
    (hpc : pc ≠ 17 ∧ pc ≠ 28 ∧ pc ≠ 35) : (exec cpu s i).2.telling = s.telling := by
  have hlt := house_lt hi
  interval_cases pc <;> first
    | (cases hi; rfl)
    | omega

theorem Poster.step (hi : Card.instr (housekeep line) pc = some i)
    (hpc : pc ≠ 17 ∧ pc ≠ 28 ∧ pc ≠ 35) (h : Poster cpu s pc) :
    Poster (exec cpu s i).1 (exec cpu s i).2
      (next (housekeep line) pc (exec cpu s i).1 i) := by
  obtain ⟨h3, h10, h12, h19, h21, h26, h30, h32, h36, h40, h49, h51⟩ := house_forward line
  have hlt := house_lt hi
  cases h with
  | idle hpc' =>
      by_cases h9 : pc = 9
      · subst h9
        cases hi
        exact .asked of_decide_eq_true
      · refine .idle ?_
        interval_cases pc <;> first
          | omega
          | (cases hi; unfold next; dsimp only; first | decide | omega | (split <;> omega))
  | asked hz =>
      cases hi
      change Poster cpu s (if cpu.z then 11 else forward (housekeep line) 10 1)
      split
      next h => exact .clear (by decide) (hz h)
      · exact .idle (by omega)
  | clear hpc' h =>
      by_cases hlast : pc = 16 ∨ pc = 24 ∨ pc = 34
      · obtain rfl | rfl | rfl := hlast <;> cases hi
        · exact .value (.inl rfl) h (show BREAK_DETECTED ≠ 0 by decide)
        · exact .kind (show 25 ≤ 25 ∧ 25 ≤ 28 by decide) h (show CARR_DETECTED ≠ 0 by decide)
        · exact .value (.inr rfl) h (show RECEIVER_SYNC ≠ 0 by decide)
      · have hcond : (exec cpu s i).2.cell .rcondition = 0 :=
          (congrArg Prod.fst (house_telling cpu s hi hpc)).trans h
        by_cases h37 : next (housekeep line) pc (exec cpu s i).1 i = 37
        · exact .idle (by omega)
        · refine .clear ?_ hcond
          revert h37
          interval_cases pc <;> first
            | omega
            | (cases hi; unfold next; dsimp only; first | omega | (split <;> omega))
  | kind hpc' h hx =>
      obtain rfl | rfl | rfl : pc = 25 ∨ pc = 26 ∨ pc = 27 := by omega
      · cases hi
        exact .kind (show 25 ≤ 26 ∧ 26 ≤ 28 by decide) h hx
      · cases hi
        change Poster cpu s (if cpu.z then forward (housekeep line) 26 3 else 27)
        refine .kind ?_ h hx
        split <;> omega
      · cases hi
        exact .kind (show 25 ≤ 28 ∧ 28 ≤ 28 by decide) h (show CARR_DROPPED ≠ 0 by decide)
  | value hpc' => omega

theorem Posts.house (hi : Card.instr (housekeep line) pc = some i)
    (hok : exact → ¬ (exec cpu s i).2.Late) (h : Posts exact (.house pc) cpu s) :
    Posts exact (.house (next (housekeep line) pc (exec cpu s i).1 i)) (exec cpu s i).1
      (exec cpu s i).2 := by
  obtain ⟨ht, hp⟩ := h
  by_cases hpc : pc ≠ 17 ∧ pc ≠ 28 ∧ pc ≠ 35
  · exact ⟨ht.congr (house_telling cpu s hi hpc), hp.step hi hpc⟩
  · cases hp with
    | kind hpc' h hx =>
        obtain rfl : pc = 28 := by omega
        cases hi
        exact ⟨ht.post h hx hok, .idle (show Silent 29 by decide)⟩
    | value hpc' h ha =>
        obtain rfl | rfl := hpc'
        · cases hi
          exact ⟨ht.post h ha hok, .idle (show Silent 18 by decide)⟩
        · cases hi
          exact ⟨ht.post h ha hok, .idle (show Silent 36 by decide)⟩
    | _ => omega

theorem Poster.access (h : Poster cpu s pc) (a : Access) : Poster cpu (s.access a) pc := by
  have h0 : s.cell .rcondition = 0 → (s.access a).cell .rcondition = 0 :=
    (access_apart s a).rcondition
  cases h with
  | idle hpc => exact .idle hpc
  | asked hz => exact .asked fun h => h0 (hz h)
  | clear hpc h => exact .clear hpc (h0 h)
  | kind hpc h hx => exact .kind hpc (h0 h) hx
  | value hpc h ha => exact .value hpc (h0 h) ha

theorem Posts.told {p : At} (h : Posts exact p cpu s) : s.Told exact := by
  cases p with
  | away => exact h
  | scan _ => exact h
  | house _ => exact h.1

theorem kept_posts (exact : Prop) (line : ℕ) :
    Kept line (fun s => exact → ¬ s.Late) (Posts exact) where
  edge p q _ _ s _ hq h := by
    cases q with
    | away => exact h.told
    | scan _ => exact h.told
    | house pc => exact ⟨h.told, .idle (hq.elim (fun h => .inl (h ▸ Nat.zero_le 9)) (by omega))⟩
  scan _ _ cpu s hi _ h := h.congr (scan_telling cpu s hi)
  house _ _ _ _ hi hok h := h.house hi hok
  access p _ _ a hok h := by
    cases p with
    | away => exact Line.Told.access h a hok
    | scan _ => exact Line.Told.access h a hok
    | house _ => exact ⟨h.1.access a hok, h.2.access a⟩

theorem started_posts (exact : Prop) (line : ℕ) : Card.started.Asserts line (Posts exact) :=
  ⟨fun _ hv => absurd hv.symm (Option.some_ne_none _), fun _ hl => hl.2 rfl, [],
    List.Sublist.slnil, fun _ => rfl, rfl⟩

/-- On every run, the conditions that the driver finds were posted, each of them once and in
their order; and as long as no condition comes after the driver looked and found none, it finds
every one but the one that waits. -/
theorem conditions_in_order (es : List Event) (line : ℕ) :
    let s := (final Card.step Card.started es).line line
    s.found.Sublist s.posted ∧
      (Every Card.step (fun card e => ¬ ((card.step e).line line).Late) Card.started es →
        s.posted = s.found ++ s.pending) := by
  intro s
  constructor
  · obtain ⟨qs, hsub, -, hposted⟩ := ((kept_posts False line).final (started_posts False line)
      (every_of_forall (fun _ _ h => h.elim) _ es)).told.order
    change s.posted = qs ++ s.pending at hposted
    rw [hposted]
    exact hsub.trans (List.sublist_append_left _ _)
  · intro hok
    obtain ⟨qs, -, heq, hposted⟩ := ((kept_posts True line).final (started_posts True line)
      (hok.mono fun _ _ h _ => h)).told.order
    change s.posted = qs ++ s.pending at hposted
    change True → s.found = qs at heq
    rw [hposted, heq trivial]

end HydraAmix.Serial.Resident
