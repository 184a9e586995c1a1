import HydraAmix.Serial.ResidentRuns
import HydraAmix.Library.SharedRing

/-!
# What the driver receives

The card puts the characters that come without a framing error in `rbuf`, and moves `rhead` to
tell the driver of them. A break, and a change of the carrier, hold `rhead` at the place where
they were seen until the driver knows of them. As long as fewer characters are waiting than
`rbuf` has cells, the driver takes the characters in their order, and where it finds a break it
is at most as far as the break was.
-/
namespace HydraAmix.Serial.Resident
open Word Schedule SharedRing

/-- The characters without a framing error. -/
def goodOf (received : List (Byte × Byte)) : List Byte :=
  (received.filter fun r => r.1 &&& 2 = 0).map Prod.snd

namespace Line

def good (s : Line) : List Byte := goodOf s.received

/-- A break came behind so many of them. -/
def Broken (s : Line) (n : ℕ) : Prop :=
  ∃ us st vs, s.received = us ++ (st, 0) :: vs ∧ st &&& 2 ≠ 0 ∧ (goodOf us).length = n

/-- The ring of the receiver with the characters `items`; `rhead`, and where the last change of
the carrier and the last break were, are behind `r`, `c` and `b` of them. -/
structure Receiving (s : Line) (items : List Byte) (r c b : ℕ) : Prop where
  ring : Holds BUFSIZE s.rbuf items s.past
  head : (s.cell .head).toNat = items.length % BUFSIZE
  rhead : (s.cell .rhead).toNat = r % BUFSIZE
  cdhead : (s.cell .cdhead).toNat = c % BUFSIZE
  breakhead : (s.cell .rbreakhead).toNat = b % BUFSIZE
  le : r ≤ items.length ∧ c ≤ items.length ∧ b ≤ items.length
  rtail : s.rtail = (s.past + s.count) % BUFSIZE
  copy : s.count ≠ 0 → s.from_ = s.past % BUFSIZE ∧ s.from_ + s.count ≤ BUFSIZE
  found : s.past + s.count ≤ r
  taken : ∀ p ∈ s.taken, items[p.1]? = some p.2
  order : (s.taken.map Prod.fst).Pairwise (· < ·)
  below : ∀ p ∈ s.taken, p.1 < s.past
  whole : s.drops = 0 → s.taken.map Prod.fst = List.range s.past
  post : s.cell .rcondition = BREAK_DETECTED → s.Broken r

/-- A break that the driver does not know of. -/
def Marked (s : Line) (r b : ℕ) : Prop := s.cell .rbreak ≠ 0 → r ≤ b ∧ s.Broken b

/-- A change of the carrier that it does not know of. -/
def Changed (s : Line) (r c : ℕ) : Prop := s.cell .cdchanged ≠ 0 → r ≤ c

end Line

/-- What the registers hold on the way of a character from the receiver. -/
inductive Receiver (cpu : Cpu) (s : Line) (items : List Byte) (r b : ℕ) : ℕ → Prop
  | idle {pc : ℕ} (hpc : pc ≤ 3 ∨ pc = 12 ∨ 18 ≤ pc) (hg : s.good = items)
      (hm : s.Marked r b) : Receiver cpu s items r b pc
  | state (hg : s.good = items) (hm : s.Marked r b) (ha : cpu.a = s.status) :
      Receiver cpu s items r b 4
  | test (hg : s.good = items) (hm : s.Marked r b)
      (hz : cpu.z = decide (s.status &&& 2 = 0)) : Receiver cpu s items r b 5
  | framing (hg : s.good = items) (hm : s.Marked r b) (hs : s.status &&& 2 ≠ 0) :
      Receiver cpu s items r b 6
  | zero (hg : s.good = items) (hm : s.Marked r b)
      (hz : cpu.z = true → s.Broken items.length) : Receiver cpu s items r b 7
  | broken {pc : ℕ} (hpc : pc = 8 ∨ pc = 9) (hg : s.good = items) (hm : s.Marked r b)
      (hb : s.Broken items.length) : Receiver cpu s items r b pc
  | marking (hg : s.good = items) (hb : s.Broken items.length) : Receiver cpu s items r b 10
  | place (hg : s.good = items) (hb : s.Broken items.length) (hx : cpu.x = s.cell .head) :
      Receiver cpu s items r b 11
  | good (hg : s.good = items) (hm : s.Marked r b) (hs : s.status &&& 2 = 0) :
      Receiver cpu s items r b 13
  | head (hg : s.good = items) (hm : s.Marked r b) (hs : s.status &&& 2 = 0)
      (hx : cpu.x = s.cell .head) : Receiver cpu s items r b 14
  | loaded (hg : s.good = items ++ [cpu.a]) (hm : s.Marked r b) (hx : cpu.x = s.cell .head) :
      Receiver cpu s items r b 15
  | stored (hg : s.good = items ++ [s.rbuf (items.length % BUFSIZE)]) (hm : s.Marked r b)
      (hx : cpu.x = s.cell .head) : Receiver cpu s items r b 16
  | past (hg : s.good = items ++ [s.rbuf (items.length % BUFSIZE)]) (hm : s.Marked r b)
      (hx : cpu.x = s.cell .head + 1) : Receiver cpu s items r b 17

/-- The places of `housekeep` where nothing is under way. -/
abbrev Resting (pc : ℕ) : Prop :=
  pc ≤ 4 ∨ pc = 9 ∨ pc = 18 ∨ pc = 19 ∨ pc = 24 ∨ pc = 27 ∨ pc = 29 ∨ pc = 30 ∨ pc = 33 ∨
    pc = 34 ∨ pc = 36 ∨ 39 ≤ pc

/-- What the registers hold while the driver is told. -/
inductive Teller (cpu : Cpu) (s : Line) (r c b : ℕ) : ℕ → Prop
  | idle {pc : ℕ} (hpc : Resting pc) (hc : s.Changed r c) : Teller cpu s r c b pc
  | change {pc : ℕ} (hpc : 5 ≤ pc ∧ pc ≤ 7) : Teller cpu s r c b pc
  | head (ha : cpu.a = s.cell .head) : Teller cpu s r c b 8
  | asked (hc : s.Changed r c) (hz : cpu.z = true → s.cell .rcondition = 0) : Teller cpu s r c b 10
  | clear (hc : s.Changed r c) (h : s.cell .rcondition = 0) : Teller cpu s r c b 11
  | test (hc : s.Changed r c) (h : s.cell .rcondition = 0)
      (hz : cpu.z = decide (s.cell .rbreak = 0)) : Teller cpu s r c b 12
  | broken (hc : s.Changed r c) (h : s.cell .rcondition = 0) (hb : s.cell .rbreak ≠ 0) :
      Teller cpu s r c b 13
  | place (h : s.cell .rcondition = 0) (hb : s.cell .rbreak ≠ 0)
      (ha : cpu.a = s.cell .rbreakhead) : Teller cpu s r c b 14
  | moved (h : s.cell .rcondition = 0) (hb : s.cell .rbreak ≠ 0)
      (ha : cpu.a = s.cell .cdhead) (he : c = b) : Teller cpu s r c b 15
  | posting {pc : ℕ} (hpc : pc = 16 ∨ pc = 17) (hc : s.Changed r c) (hb : s.Broken r) :
      Teller cpu s r c b pc
  | none (hc : s.Changed r c) (h : s.cell .rcondition = 0) (hb : s.cell .rbreak = 0) :
      Teller cpu s r c b 20
  | carrier (hc : s.Changed r c) (h : s.cell .rcondition = 0) (hb : s.cell .rbreak = 0)
      (hz : cpu.z = decide (s.cell .cdchanged = 0)) : Teller cpu s r c b 21
  | changed (hc : r ≤ c) (h : s.cell .rcondition = 0) (hb : s.cell .rbreak = 0) :
      Teller cpu s r c b 22
  | told (hc : r ≤ c) (h : s.cell .rcondition = 0) (hb : s.cell .rbreak = 0)
      (ha : cpu.a = s.cell .cdhead) : Teller cpu s r c b 23
  | kind {pc : ℕ} (hpc : pc = 25 ∨ pc = 26 ∨ pc = 28) (hc : s.Changed r c) (hx : cpu.x ≠ 1) :
      Teller cpu s r c b pc
  | quiet {pc : ℕ} (hpc : pc = 31 ∨ pc = 32 ∨ pc = 37) (h : s.cell .rcondition = 0)
      (hb : s.cell .rbreak = 0) (hc : s.cell .cdchanged = 0) : Teller cpu s r c b pc
  | sync (hc : s.Changed r c) (ha : cpu.a ≠ 1) : Teller cpu s r c b 35
  | level (h : s.cell .rcondition = 0) (hb : s.cell .rbreak = 0) (hc : s.cell .cdchanged = 0)
      (ha : cpu.a = s.cell .head) : Teller cpu s r c b 38

/-- The assertion. -/
def Receives : At → Cpu → Line → Prop
  | .away, _, s => ∃ r c b, s.Receiving s.good r c b ∧ s.Marked r b ∧ s.Changed r c
  | .scan pc, cpu, s =>
      ∃ items r c b, s.Receiving items r c b ∧ s.Changed r c ∧ Receiver cpu s items r b pc
  | .house pc, cpu, s =>
      ∃ r c b, s.Receiving s.good r c b ∧ s.Marked r b ∧ Teller cpu s r c b pc

section
variable {s s' : Line} {items : List Byte} {r c b : ℕ}

namespace Line

/-- What the assertion is about, but for the marks. -/
def incoming (s : Line) :
    (Byte × Byte × Byte × Byte × Byte) × (ℕ → Byte) × List (Byte × Byte) × (ℕ × ℕ × ℕ × ℕ × ℕ) ×
      List (ℕ × Byte) :=
  ((s.cell .head, s.cell .rhead, s.cell .cdhead, s.cell .rbreakhead, s.cell .rcondition), s.rbuf,
    s.received, (s.rtail, s.from_, s.count, s.past, s.drops), s.taken)

theorem Receiving.congr (h : s.Receiving items r c b) (he : s'.incoming = s.incoming) :
    s'.Receiving items r c b := by
  simp only [Line.incoming, Prod.mk.injEq] at he
  obtain ⟨⟨hh, hr, hc, hb, hcond⟩, hbuf, hrec, ⟨ht, hf, hcount, hpast, hdrops⟩, htaken⟩ := he
  constructor
  · rw [hbuf, hpast]; exact h.ring
  · rw [hh]; exact h.head
  · rw [hr]; exact h.rhead
  · rw [hc]; exact h.cdhead
  · rw [hb]; exact h.breakhead
  · exact h.le
  · rw [ht, hpast, hcount]; exact h.rtail
  · rw [hcount, hf, hpast]; exact h.copy
  · rw [hpast, hcount]; exact h.found
  · rw [htaken]; exact h.taken
  · rw [htaken]; exact h.order
  · rw [htaken, hpast]; exact h.below
  · rw [hdrops, htaken, hpast]; exact h.whole
  · unfold Line.Broken
    rw [hcond, hrec]; exact h.post

/-! ### What the card does -/

theorem goodOf_append (us vs : List (Byte × Byte)) :
    goodOf (us ++ vs) = goodOf us ++ goodOf vs := by
  unfold goodOf
  rw [List.filter_append, List.map_append]

theorem goodOf_error {st : Byte} (v : Byte) (h : st &&& 2 ≠ 0) : goodOf [(st, v)] = [] := by
  have hd : decide (st &&& 2 = 0) = false := decide_eq_false h
  simp only [goodOf, List.filter, hd, List.map]

theorem goodOf_char {st : Byte} (v : Byte) (h : st &&& 2 = 0) : goodOf [(st, v)] = [v] := by
  have hd : decide (st &&& 2 = 0) = true := decide_eq_true h
  simp only [goodOf, List.filter, hd, List.map]

theorem Broken.append {x : Byte × Byte} {n : ℕ} (h : s.Broken n)
    (hs : s'.received = s.received ++ [x]) : s'.Broken n := by
  obtain ⟨us, st, vs, he, hst, hn⟩ := h
  exact ⟨us, st, vs ++ [x], by rw [hs, he, List.append_assoc, List.cons_append], hst, hn⟩

/-- A character is read. -/
theorem Receiving.receive (h : s.Receiving items r c b) (x : Byte × Byte) :
    ({ s with received := s.received ++ [x] } : Line).Receiving items r c b :=
  { h with post := fun hp => (h.post hp).append rfl }

/-- It is stored behind the last. -/
theorem Receiving.store (h : s.Receiving items r c b) (v : Byte) :
    ({ s with rbuf := Function.update s.rbuf (items.length % BUFSIZE) v } : Line).Receiving
      items r c b :=
  { h with ring := h.ring.store v }

theorem Receiving.advance (h : s.Receiving items r c b)
    (hroom : items.length + 1 < s.past + BUFSIZE) :
    (s.set .head (s.cell .head + 1)).Receiving
      (items ++ [s.rbuf (items.length % BUFSIZE)]) r c b :=
  { h with
    ring := h.ring.advance hroom
    head := by
      change (s.cell .head + 1).toNat = _
      rw [BitVec.toNat_add, h.head, List.length_append]
      exact Nat.mod_add_mod items.length BUFSIZE 1
    le := by
      obtain ⟨hr, hc, hb⟩ := h.le
      rw [List.length_append]
      exact ⟨Nat.le_succ_of_le hr, Nat.le_succ_of_le hc, Nat.le_succ_of_le hb⟩
    taken := fun p hp => by
      have hlt := Nat.lt_of_lt_of_le (h.below p hp) h.ring.le
      rw [List.getElem?_append_left hlt]
      exact h.taken p hp }

theorem Receiving.mark (h : s.Receiving items r c b) :
    (s.set .rbreakhead (s.cell .head)).Receiving items r c items.length :=
  { h with breakhead := h.head, le := ⟨h.le.1, h.le.2.1, Nat.le_refl _⟩ }

theorem Receiving.change (h : s.Receiving items r c b) {v : Byte} {k : ℕ}
    (hv : v.toNat = k % BUFSIZE) (hk : k ≤ items.length) :
    (s.set .cdhead v).Receiving items r k b :=
  { h with cdhead := hv, le := ⟨h.le.1, hk, h.le.2.2⟩ }

/-- The driver is told of more. -/
theorem Receiving.tell (h : s.Receiving items r c b) {v : Byte} {k : ℕ}
    (hv : v.toNat = k % BUFSIZE) (hle : r ≤ k) (hk : k ≤ items.length)
    (hcond : s.cell .rcondition = 0) : (s.set .rhead v).Receiving items k c b :=
  { h with
    rhead := hv
    le := ⟨hk, h.le.2⟩
    found := Nat.le_trans h.found hle
    post := fun hp => absurd (hcond.symm.trans hp) (by decide) }

theorem Receiving.condition (h : s.Receiving items r c b) {v : Byte} (l : List Byte)
    (hv : v = BREAK_DETECTED → s.Broken r) :
    ({ s.set .rcondition v with posted := l } : Line).Receiving items r c b :=
  { h with post := hv }

end Line
end

section
variable {line pc : ℕ} {i : Instr} {cpu : Cpu} {s s' : Line} {items : List Byte} {r c b : ℕ}

/-- Fewer characters are waiting than `rbuf` has cells. -/
def Line.InTime (s : Line) : Prop := s.good.length < s.past + BUFSIZE

instance (s : Line) : Decidable s.InTime := inferInstanceAs (Decidable (_ < _))

theorem Line.Marked.congr (h : s.Marked r b) (he : s'.received = s.received)
    (hb : s'.cell .rbreak = s.cell .rbreak) : s'.Marked r b := by
  unfold Line.Marked Line.Broken
  rw [hb, he]
  exact h

/-- But for some stores the card leaves alone what is received. -/
theorem scan_incoming (cpu : Cpu) (s : Line) (hi : Card.instr (scanline line) pc = some i)
    (hpc : pc ≠ 6 ∧ pc ≠ 9 ∧ pc ≠ 11 ∧ pc ≠ 14 ∧ pc ≠ 15 ∧ pc ≠ 17) :
    (exec cpu s i).2.incoming = s.incoming ∧
      (exec cpu s i).2.cell .rbreak = s.cell .rbreak ∧
      (exec cpu s i).2.cell .cdchanged = s.cell .cdchanged := by
  have hlt := scan_lt hi
  interval_cases pc <;> first
    | (cases hi; exact ⟨rfl, rfl, rfl⟩)
    | omega

theorem scan_after (hpc : 18 ≤ pc) (hi : Card.instr (scanline line) pc = some i) :
    18 ≤ next (scanline line) pc cpu i := by
  cases i <;> unfold next <;> dsimp only <;> first
    | omega
    | (unfold forward; split <;> omega)
    | (unfold forward; omega)

theorem Line.received_of_incoming (he : s'.incoming = s.incoming) : s'.received = s.received :=
  congrArg (fun o => o.2.2.1) he

theorem Receives.scan (hi : Card.instr (scanline line) pc = some i)
    (hok : (exec cpu s i).2.InTime) (h : Receives (.scan pc) cpu s) :
    Receives (.scan (next (scanline line) pc (exec cpu s i).1 i)) (exec cpu s i).1
      (exec cpu s i).2 := by
  obtain ⟨h2, h5, h7, h12, -⟩ := scan_forward line
  obtain ⟨items, r, c, b, hs, hc, hr⟩ := h
  cases hr with
  | idle hpc hg hm =>
      obtain ⟨he, hb, hcd⟩ := scan_incoming cpu s hi (by omega)
      have hrec := Line.received_of_incoming he
      have hg' : (exec cpu s i).2.good = items := (congrArg goodOf hrec).trans hg
      refine ⟨items, r, c, b, hs.congr he, fun hne => hc (hcd ▸ hne), ?_⟩
      rcases hpc with hlt | rfl | hge
      · interval_cases pc <;> cases hi
        · exact .idle (.inl (show 1 ≤ 3 by decide)) hg' (hm.congr hrec hb)
        · exact .idle (.inl (show 2 ≤ 3 by decide)) hg' (hm.congr hrec hb)
        · refine .idle ?_ hg' (hm.congr hrec hb)
          unfold next
          dsimp only
          split <;> omega
        · exact .state hg' (hm.congr hrec hb) rfl
      · cases hi
        refine .idle (.inr (.inr ?_)) hg' (hm.congr hrec hb)
        change 18 ≤ forward (scanline line) 12 2
        omega
      · exact .idle (.inr (.inr (scan_after hge hi))) hg' (hm.congr hrec hb)
  | state hg hm ha =>
      cases hi
      exact ⟨items, r, c, b, hs.congr rfl, hc, .test hg hm (ha ▸ rfl)⟩
  | test hg hm hz =>
      cases hi
      change Receives (.scan (if cpu.z then forward (scanline line) 5 1 else 6)) cpu s
      rw [h5]
      split
      next h => exact ⟨items, r, c, b, hs, hc, .good hg hm (of_decide_eq_true (hz ▸ h))⟩
      next h =>
        exact ⟨items, r, c, b, hs, hc,
          .framing hg hm (of_decide_eq_false (hz ▸ Bool.eq_false_iff.mpr h))⟩
  | framing hg hm hst =>
      cases hi
      refine ⟨items, r, c, b, hs.receive _, hc, .zero ?_ ?_ fun hz => ?_⟩
      · change goodOf (s.received ++ [(s.status, s.reg .data)]) = items
        rw [Line.goodOf_append, Line.goodOf_error _ hst, List.append_nil]
        exact hg
      · exact fun hb => ⟨(hm hb).1, (hm hb).2.append rfl⟩
      · have hzero : s.reg .data = 0 := of_decide_eq_true hz
        exact ⟨s.received, s.status, [], by rw [← hzero]; rfl, hst, congrArg _ hg⟩
  | zero hg hm hz =>
      cases hi
      change Receives (.scan (if cpu.z then 8 else forward (scanline line) 7 2)) cpu s
      rw [h7]
      split
      next h => exact ⟨items, r, c, b, hs, hc, .broken (.inl rfl) hg hm (hz h)⟩
      · exact ⟨items, r, c, b, hs, hc, .idle (by decide) hg hm⟩
  | broken hpc hg hm hb =>
      obtain rfl | rfl := hpc
      · cases hi
        exact ⟨items, r, c, b, hs.congr rfl, hc, .broken (.inr rfl) hg hm hb⟩
      · cases hi
        exact ⟨items, r, c, b, hs.congr rfl, hc, .marking hg hb⟩
  | marking hg hb =>
      cases hi
      exact ⟨items, r, c, b, hs.congr rfl, hc, .place hg hb rfl⟩
  | place hg hb hx =>
      cases hi
      have hs' : (s.set .rbreakhead cpu.x).Receiving items r c items.length := hx ▸ hs.mark
      exact ⟨items, r, c, items.length, hs', hc,
        .idle (.inr (.inl rfl)) hg fun _ => ⟨hs.le.1, hb⟩⟩
  | good hg hm hst =>
      cases hi
      exact ⟨items, r, c, b, hs.congr rfl, hc, .head hg hm hst rfl⟩
  | head hg hm hst hx =>
      cases hi
      refine ⟨items, r, c, b, hs.receive _, hc, .loaded ?_ ?_ hx⟩
      · change goodOf (s.received ++ [(s.status, s.reg .data)]) = items ++ [s.reg .data]
        rw [Line.goodOf_append, Line.goodOf_char _ hst, ← hg]
        rfl
      · exact fun hb => ⟨(hm hb).1, (hm hb).2.append rfl⟩
  | loaded hg hm hx =>
      cases hi
      have hcell : cpu.x.toNat = items.length % BUFSIZE := hx ▸ hs.head
      have hs' : ({ s with rbuf := Function.update s.rbuf cpu.x.toNat cpu.a } : Line).Receiving
          items r c b := hcell ▸ hs.store cpu.a
      refine ⟨items, r, c, b, hs', hc, .stored ?_ hm hx⟩
      change s.good = items ++ [Function.update s.rbuf cpu.x.toNat cpu.a (items.length % BUFSIZE)]
      rw [hcell, Function.update_self, hg]
  | stored hg hm hx =>
      cases hi
      exact ⟨items, r, c, b, hs.congr rfl, hc, .past hg hm (congrArg (· + 1) hx)⟩
  | past hg hm hx =>
      cases hi
      have hroom : items.length + 1 < s.past + BUFSIZE := by
        have := hok
        unfold Line.InTime at this
        change s.good.length < s.past + BUFSIZE at this
        rwa [hg, List.length_append] at this
      have hs' : (s.set .head cpu.x).Receiving (items ++ [s.rbuf (items.length % BUFSIZE)]) r c b :=
        hx ▸ hs.advance hroom
      exact ⟨_, r, c, b, hs', hc, .idle (.inr (.inr (Nat.le_refl 18))) hg hm⟩

theorem house_incoming (cpu : Cpu) (s : Line) (hi : Card.instr (housekeep line) pc = some i)
    (hpc : pc ≠ 8 ∧ pc ≠ 14 ∧ pc ≠ 15 ∧ pc ≠ 17 ∧ pc ≠ 23 ∧ pc ≠ 28 ∧ pc ≠ 35 ∧ pc ≠ 38) :
    (exec cpu s i).2.incoming = s.incoming ∧
      (pc ≠ 18 → (exec cpu s i).2.cell .rbreak = s.cell .rbreak) ∧
      (pc ≠ 4 → pc ≠ 29 → (exec cpu s i).2.cell .cdchanged = s.cell .cdchanged) := by
  have hlt := house_lt hi
  interval_cases pc <;> first
    | (cases hi; exact ⟨rfl, fun _ => rfl, fun _ _ => rfl⟩)
    | omega
    | (cases hi; exact ⟨rfl, fun _ => rfl, fun h => absurd rfl h⟩)
    | (cases hi; exact ⟨rfl, fun _ => rfl, fun _ h => absurd rfl h⟩)
    | (cases hi; exact ⟨rfl, fun h => absurd rfl h, fun _ _ => rfl⟩)

theorem house_after (cpu : Cpu) (hpc : 39 ≤ pc) (hi : Card.instr (housekeep line) pc = some i) :
    39 ≤ next (housekeep line) pc cpu i := by
  cases i <;> unfold next <;> dsimp only <;> first
    | omega
    | (unfold forward; split <;> omega)
    | (unfold forward; omega)

/-- Where nothing is under way. -/
theorem Teller.idle_step (hi : Card.instr (housekeep line) pc = some i)
    (hpc : Resting pc) (hc : s.Changed r c) :
    Teller (exec cpu s i).1 (exec cpu s i).2 r c b
      (next (housekeep line) pc (exec cpu s i).1 i) := by
  obtain ⟨h3, -, -, h19, -, -, h30, -, h36, -⟩ := house_forward line
  obtain ⟨-, -, hcd⟩ := house_incoming cpu s hi (by omega)
  have hend : ∀ n, n = 56 → Teller cpu s r c b n := fun n hn => .idle (by omega) hc
  rcases hpc with hlt | rfl | rfl | rfl | rfl | rfl | rfl | rfl | rfl | rfl | rfl | hge
  · interval_cases pc <;> cases hi
    · exact .idle (show Resting 1 by decide) hc
    · exact .idle (show Resting 2 by decide) hc
    · exact .idle (show Resting 3 by decide) hc
    · refine .idle ?_ hc
      unfold next
      dsimp only
      split <;> omega
    · exact .change (show 5 ≤ 5 ∧ 5 ≤ 7 by decide)
  · cases hi
    exact .asked hc of_decide_eq_true
  · cases hi
    exact .idle (show Resting 19 by decide) hc
  · cases hi
    exact hend _ h19
  · cases hi
    exact .kind (.inl rfl) hc (show CARR_DETECTED ≠ 1 by decide)
  · cases hi
    exact .kind (.inr (.inr rfl)) hc (show CARR_DROPPED ≠ 1 by decide)
  · cases hi
    exact .idle (show Resting 30 by decide) fun h => absurd rfl h
  · cases hi
    exact hend _ h30
  · cases hi
    exact .idle (show Resting 34 by decide) hc
  · cases hi
    exact .sync hc (show RECEIVER_SYNC ≠ 1 by decide)
  · cases hi
    exact hend _ h36
  · exact .idle (by have := house_after (exec cpu s i).1 hge hi; omega)
      fun h => hc (hcd (by omega) (by omega) ▸ h)

theorem Receives.house (hi : Card.instr (housekeep line) pc = some i)
    (h : Receives (.house pc) cpu s) :
    Receives (.house (next (housekeep line) pc (exec cpu s i).1 i)) (exec cpu s i).1
      (exec cpu s i).2 := by
  obtain ⟨-, h10, h12, -, h21, h26, -, h32, -⟩ := house_forward line
  obtain ⟨r, c, b, hs, hm, ht⟩ := h
  cases ht with
  | idle hpc hc =>
      obtain ⟨he, hb, -⟩ := house_incoming cpu s hi (by omega)
      have hrec := Line.received_of_incoming he
      have hs' : (exec cpu s i).2.Receiving (exec cpu s i).2.good r c b := by
        rw [show (exec cpu s i).2.good = s.good from congrArg goodOf hrec]
        exact hs.congr he
      refine ⟨r, c, b, hs', ?_, Teller.idle_step hi hpc hc⟩
      by_cases h18 : pc = 18
      · subst h18
        cases hi
        exact fun h => absurd rfl h
      · exact hm.congr hrec (hb h18)
  | change hpc =>
      obtain ⟨hlo, hhi⟩ := hpc
      interval_cases pc <;> cases hi
      · exact ⟨r, c, b, hs.congr rfl, hm, .change (show 5 ≤ 6 ∧ 6 ≤ 7 by decide)⟩
      · exact ⟨r, c, b, hs.congr rfl, hm, .change (show 5 ≤ 7 ∧ 7 ≤ 7 by decide)⟩
      · exact ⟨r, c, b, hs.congr rfl, hm, .head rfl⟩
  | head ha =>
      cases hi
      exact ⟨r, s.good.length, b, hs.change (ha ▸ hs.head) (Nat.le_refl _), hm,
        .idle (.inr (.inl rfl)) fun _ => hs.le.1⟩
  | asked hc hz =>
      cases hi
      change Receives (.house (if cpu.z then 11 else forward (housekeep line) 10 1)) cpu s
      rw [h10]
      split
      next h => exact ⟨r, c, b, hs, hm, .clear hc (hz h)⟩
      · exact ⟨r, c, b, hs, hm, .idle (by decide) hc⟩
  | clear hc h =>
      cases hi
      exact ⟨r, c, b, hs.congr rfl, hm, .test hc h rfl⟩
  | test hc h hz =>
      cases hi
      change Receives (.house (if cpu.z then forward (housekeep line) 12 2 else 13)) cpu s
      rw [h12]
      split
      next hz' => exact ⟨r, c, b, hs, hm, .none hc h (of_decide_eq_true (hz ▸ hz'))⟩
      next hz' =>
        exact ⟨r, c, b, hs, hm,
          .broken hc h (of_decide_eq_false (hz ▸ Bool.eq_false_iff.mpr hz'))⟩
  | broken hc h hb =>
      cases hi
      exact ⟨r, c, b, hs.congr rfl, hm, .place h hb rfl⟩
  | place h hb ha =>
      cases hi
      exact ⟨r, b, b, hs.change (ha ▸ hs.breakhead) hs.le.2.2, hm, .moved h hb rfl rfl⟩
  | moved h hb ha he =>
      subst he
      cases hi
      obtain ⟨hle, hbr⟩ := hm hb
      exact ⟨c, c, c, hs.tell (ha ▸ hs.cdhead) hle hs.le.2.1 h, fun _ => ⟨Nat.le_refl c, hbr⟩,
        .posting (.inl rfl) (fun _ => Nat.le_refl c) hbr⟩
  | posting hpc hc hb =>
      obtain rfl | rfl := hpc
      · cases hi
        exact ⟨r, c, b, hs.congr rfl, hm, .posting (.inr rfl) hc hb⟩
      · cases hi
        exact ⟨r, c, b, hs.condition _ fun _ => hb, hm, .idle (show Resting 18 by decide) hc⟩
  | none hc h hb =>
      cases hi
      exact ⟨r, c, b, hs.congr rfl, hm, .carrier hc h hb rfl⟩
  | carrier hc h hb hz =>
      cases hi
      change Receives (.house (if cpu.z then forward (housekeep line) 21 4 else 22)) cpu s
      rw [h21]
      split
      next hz' =>
        exact ⟨r, c, b, hs, hm, .quiet (.inl rfl) h hb (of_decide_eq_true (hz ▸ hz'))⟩
      next hz' =>
        have hne := of_decide_eq_false (hz ▸ Bool.eq_false_iff.mpr hz')
        exact ⟨r, c, b, hs, hm, .changed (hc hne) h hb⟩
  | changed hc h hb =>
      cases hi
      exact ⟨r, c, b, hs.congr rfl, hm, .told hc h hb rfl⟩
  | told hc h hb ha =>
      cases hi
      exact ⟨c, c, b, hs.tell (ha ▸ hs.cdhead) hc hs.le.2.1 h, fun hb' => absurd hb hb',
        .idle (show Resting 24 by decide) fun _ => Nat.le_refl c⟩
  | kind hpc hc hx =>
      obtain rfl | rfl | rfl := hpc
      · cases hi
        exact ⟨r, c, b, hs.congr rfl, hm, .kind (.inr (.inl rfl)) hc hx⟩
      · cases hi
        change Receives (.house (if cpu.z then forward (housekeep line) 26 3 else 27)) cpu s
        rw [h26]
        split
        · exact ⟨r, c, b, hs, hm, .kind (.inr (.inr rfl)) hc hx⟩
        · exact ⟨r, c, b, hs, hm, .idle (by decide) hc⟩
      · cases hi
        exact ⟨r, c, b, hs.condition _ fun hv => absurd hv hx, hm,
          .idle (show Resting 29 by decide) hc⟩
  | quiet hpc h hb hc =>
      obtain rfl | rfl | rfl := hpc
      · cases hi
        exact ⟨r, c, b, hs.congr rfl, hm, .quiet (.inr (.inl rfl)) h hb hc⟩
      · cases hi
        change Receives (.house (if cpu.z then forward (housekeep line) 32 2 else 33)) cpu s
        rw [h32]
        split
        · exact ⟨r, c, b, hs, hm, .quiet (.inr (.inr rfl)) h hb hc⟩
        · exact ⟨r, c, b, hs, hm, .idle (by decide) fun hc' => absurd hc hc'⟩
      · cases hi
        exact ⟨r, c, b, hs.congr rfl, hm, .level h hb hc rfl⟩
  | sync hc ha =>
      cases hi
      exact ⟨r, c, b, hs.condition _ fun hv => absurd hv ha, hm,
        .idle (show Resting 36 by decide) hc⟩
  | level h hb hc ha =>
      cases hi
      exact ⟨s.good.length, c, b, hs.tell (ha ▸ hs.head) hs.le.1 (Nat.le_refl _) h,
        fun hb' => absurd hb hb', .idle (show Resting 39 by decide) fun hc' => absurd hc hc'⟩

end
end HydraAmix.Serial.Resident
