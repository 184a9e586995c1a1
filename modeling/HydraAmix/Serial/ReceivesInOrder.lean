import HydraAmix.Serial.Receives

/-!
# What the driver receives, on every run

The driver's accesses leave alone what the assertion is about, but for `input`, which moves
behind `rhead`.
-/
namespace HydraAmix.Serial.Resident
open Word Schedule SharedRing

variable {line pc : ℕ} {cpu : Cpu} {s s' : Line} {items : List Byte} {r c b : ℕ}

/-! ### What the driver does -/

/-- What the driver leaves as it is. -/
structure Line.Apart (s s' : Line) : Prop where
  received : s'.received = s.received
  status : s'.status = s.status
  rbuf : s'.rbuf = s.rbuf
  head : s'.cell .head = s.cell .head
  cdhead : s'.cell .cdhead = s.cell .cdhead
  rbreakhead : s'.cell .rbreakhead = s.cell .rbreakhead
  rbreak : s'.cell .rbreak = s.cell .rbreak
  cdchanged : s'.cell .cdchanged = s.cell .cdchanged
  rcondition : s.cell .rcondition = 0 → s'.cell .rcondition = 0

theorem access_apart (s : Line) (a : Access) : s.Apart (s.access a) := by
  cases a with
  | suspend _ | setparams | sync => exact ⟨rfl, rfl, rfl, rfl, rfl, rfl, rfl, rfl, id⟩
  | setting c v =>
      unfold Line.access
      dsimp only
      split
      next hc =>
        obtain rfl | rfl | rfl := hc
        all_goals exact ⟨rfl, rfl, rfl, rfl, rfl, rfl, rfl, rfl, id⟩
      · exact ⟨rfl, rfl, rfl, rfl, rfl, rfl, rfl, rfl, id⟩
  | clear =>
      unfold Line.access
      dsimp only
      split
      · exact ⟨rfl, rfl, rfl, rfl, rfl, rfl, rfl, rfl, id⟩
      · exact ⟨rfl, rfl, rfl, rfl, rfl, rfl, rfl, rfl, fun _ => rfl⟩
  | _ =>
      unfold Line.access
      dsimp only
      split <;> exact ⟨rfl, rfl, rfl, rfl, rfl, rfl, rfl, rfl, id⟩

section
variable (ha : s.Apart s')
include ha

theorem Line.Apart.good : s'.good = s.good := congrArg goodOf ha.received

theorem Line.Broken.apart {n : ℕ} (h : s.Broken n) : s'.Broken n := by
  unfold Line.Broken
  rw [ha.received]
  exact h

theorem Line.Marked.apart (h : s.Marked r b) : s'.Marked r b := h.congr ha.received ha.rbreak

theorem Line.Changed.apart (h : s.Changed r c) : s'.Changed r c := by
  unfold Line.Changed
  rw [ha.cdchanged]
  exact h

theorem Receiver.apart (h : Receiver cpu s items r b pc) : Receiver cpu s' items r b pc := by
  have hg := ha.good
  have hh := ha.head
  have hs := ha.status
  have hr := ha.rbuf
  cases h with
  | idle hpc h hm => exact .idle hpc (hg.trans h) (hm.apart ha)
  | state h hm hz => exact .state (hg.trans h) (hm.apart ha) (hz.trans hs.symm)
  | test h hm hz => exact .test (hg.trans h) (hm.apart ha) (hs ▸ hz)
  | framing h hm hst => exact .framing (hg.trans h) (hm.apart ha) (hs ▸ hst)
  | zero h hm hz => exact .zero (hg.trans h) (hm.apart ha) fun hz' => (hz hz').apart ha
  | broken hpc h hm hb => exact .broken hpc (hg.trans h) (hm.apart ha) (hb.apart ha)
  | marking h hb => exact .marking (hg.trans h) (hb.apart ha)
  | place h hb hx => exact .place (hg.trans h) (hb.apart ha) (hx.trans hh.symm)
  | good h hm hst => exact .good (hg.trans h) (hm.apart ha) (hs ▸ hst)
  | head h hm hst hx => exact .head (hg.trans h) (hm.apart ha) (hs ▸ hst) (hx.trans hh.symm)
  | loaded h hm hx => exact .loaded (hg.trans h) (hm.apart ha) (hx.trans hh.symm)
  | stored h hm hx => exact .stored (hr ▸ hg.trans h) (hm.apart ha) (hx.trans hh.symm)
  | past h hm hx => exact .past (hr ▸ hg.trans h) (hm.apart ha) (hh ▸ hx)

theorem Teller.apart (h : Teller cpu s r c b pc) : Teller cpu s' r c b pc := by
  have hb := ha.rbreak
  have hd := ha.cdchanged
  have h0 := ha.rcondition
  cases h with
  | idle hpc hc => exact .idle hpc (hc.apart ha)
  | change hpc => exact .change hpc
  | head h => exact .head (h.trans ha.head.symm)
  | asked hc hz => exact .asked (hc.apart ha) fun h => h0 (hz h)
  | clear hc h => exact .clear (hc.apart ha) (h0 h)
  | test hc h hz => exact .test (hc.apart ha) (h0 h) (hb ▸ hz)
  | broken hc h hne => exact .broken (hc.apart ha) (h0 h) (hb ▸ hne)
  | place h hne hv => exact .place (h0 h) (hb ▸ hne) (hv.trans ha.rbreakhead.symm)
  | moved h hne hv he => exact .moved (h0 h) (hb ▸ hne) (hv.trans ha.cdhead.symm) he
  | posting hpc hc hbr => exact .posting hpc (hc.apart ha) (hbr.apart ha)
  | none hc h hz => exact .none (hc.apart ha) (h0 h) (hb.trans hz)
  | carrier hc h hz hzd => exact .carrier (hc.apart ha) (h0 h) (hb.trans hz) (hd ▸ hzd)
  | changed hc h hz => exact .changed hc (h0 h) (hb.trans hz)
  | told hc h hz hv => exact .told hc (h0 h) (hb.trans hz) (hv.trans ha.cdhead.symm)
  | kind hpc hc hx => exact .kind hpc (hc.apart ha) hx
  | quiet hpc h hz hzd => exact .quiet hpc (h0 h) (hb.trans hz) (hd.trans hzd)
  | sync hc hv => exact .sync (hc.apart ha) hv
  | level h hz hzd hv => exact .level (h0 h) (hb.trans hz) (hd.trans hzd) (hv.trans ha.head.symm)

end

/-- `input` goes on to what it finds. -/
theorem Line.Receiving.begin (h : s.Receiving items r c b) :
    (s.access .begin).Receiving items r c b := by
  unfold Line.access
  dsimp only
  split
  next h0 =>
    have hroom := h.ring.room
    have hle := h.le.1
    have hfound := h.found
    have htail := h.rtail
    have hrhead := h.rhead
    have hready : s.past + s.ready ≤ r ∧ s.rtail + s.ready ≤ BUFSIZE := by
      unfold Line.ready
      unfold BUFSIZE at *
      split <;> omega
    exact { h with
      rtail := by
        change (s.rtail + s.ready) % BUFSIZE = (s.past + s.ready) % BUFSIZE
        rw [htail, h0]
        exact Nat.mod_add_mod s.past BUFSIZE s.ready
      copy := fun _ => ⟨by rw [htail, h0]; rfl, hready.2⟩
      found := hready.1 }
  · exact h

theorem Line.Receiving.take (h : s.Receiving items r c b) :
    (s.access .take).Receiving items r c b := by
  unfold Line.access
  dsimp only
  split
  · exact h
  next h0 =>
    obtain ⟨hfrom, hcopy⟩ := h.copy h0
    have hfound := h.found
    have hle := h.le.1
    have hlt : s.past < items.length := by omega
    obtain ⟨hnext, hring⟩ := h.ring.next hlt
    have hval : s.rbuf s.from_ = items[s.past] := by rw [hfrom, hnext]
    exact { h with
      ring := hring
      rtail := by
        rw [h.rtail]
        congr 1
        change s.past + s.count = s.past + 1 + (s.count - 1)
        omega
      copy := fun hne => by
        change s.count - 1 ≠ 0 at hne
        change s.from_ + 1 = (s.past + 1) % BUFSIZE ∧ s.from_ + 1 + (s.count - 1) ≤ BUFSIZE
        unfold BUFSIZE at *
        omega
      found := by
        change s.past + 1 + (s.count - 1) ≤ r
        omega
      taken := fun p hp => by
        rcases List.mem_append.mp hp with hp | hp
        · exact h.taken p hp
        · rw [List.mem_singleton.mp hp, hval]
          exact List.getElem?_eq_getElem hlt
      order := by
        rw [List.map_append, List.pairwise_append]
        refine ⟨h.order, List.pairwise_singleton _ _, fun i hi j hj => ?_⟩
        obtain ⟨p, hp, rfl⟩ := List.mem_map.mp hi
        rw [List.map_singleton, List.mem_singleton] at hj
        exact hj ▸ h.below p hp
      below := fun p hp => by
        rcases List.mem_append.mp hp with hp | hp
        · exact Nat.lt_succ_of_lt (h.below p hp)
        · rw [List.mem_singleton.mp hp]
          exact Nat.lt_succ_self _
      whole := fun hd => by
        rw [List.map_append, h.whole hd, List.range_succ]
        rfl }

theorem Line.Receiving.drop (h : s.Receiving items r c b) :
    (s.access .drop).Receiving items r c b := by
  unfold Line.access
  dsimp only
  split
  next h0 =>
    have hroom := h.ring.room
    have hle := h.le.1
    have hfound := h.found
    have htail := h.rtail
    have hrhead := h.rhead
    have hpast : s.past + ((s.cell .rhead).toNat + BUFSIZE - s.rtail) % BUFSIZE = r := by
      unfold BUFSIZE at *
      omega
    exact { h with
      ring := hpast ▸ h.ring.take (h0 ▸ hfound) hle
      rtail := by
        change (s.cell .rhead).toNat = (s.past + _ + s.count) % BUFSIZE
        rw [hpast, h0, hrhead]
        rfl
      copy := fun hne => absurd h0 hne
      found := by
        change s.past + _ + s.count ≤ r
        rw [hpast, h0]
        exact Nat.le_refl r
      below := fun p hp => Nat.lt_add_right _ (h.below p hp)
      whole := fun hd => absurd hd (Nat.succ_ne_zero _) }
  · exact h

theorem Line.Receiving.access (h : s.Receiving items r c b) (a : Access) :
    (s.access a).Receiving items r c b := by
  cases a with
  | «begin» => exact h.begin
  | take => exact h.take
  | drop => exact h.drop
  | clear =>
      unfold Line.access
      dsimp only
      split
      · exact h
      · exact { h with post := fun hp => absurd hp (show (0 : Byte) ≠ BREAK_DETECTED by decide) }
  | suspend _ | setparams | sync => exact h.congr rfl
  | setting c v =>
      unfold Line.access
      dsimp only
      split
      next hc =>
        obtain rfl | rfl | rfl := hc
        all_goals exact h.congr rfl
      · exact h
  | _ =>
      unfold Line.access
      dsimp only
      split <;> first
        | exact h
        | exact h.congr rfl

/-! ### Runs -/

theorem Receives.access (a : Access) {p : At} (h : Receives p cpu s) :
    Receives p cpu (s.access a) := by
  have ha := access_apart s a
  cases p with
  | away =>
      obtain ⟨r, c, b, hs, hm, hc⟩ := h
      exact ⟨r, c, b, ha.good ▸ hs.access a, hm.apart ha, hc.apart ha⟩
  | scan pc =>
      obtain ⟨items, r, c, b, hs, hc, hr⟩ := h
      exact ⟨items, r, c, b, hs.access a, hc.apart ha, hr.apart ha⟩
  | house pc =>
      obtain ⟨r, c, b, hs, hm, ht⟩ := h
      exact ⟨r, c, b, ha.good ▸ hs.access a, hm.apart ha, ht.apart ha⟩

theorem Receives.of_edge {p : At} (hp : p.Edge) (h : Receives p cpu s) :
    ∃ r c b, s.Receiving s.good r c b ∧ s.Marked r b ∧ s.Changed r c := by
  cases p with
  | away => exact h
  | scan pc =>
      obtain ⟨items, r, c, b, hs, hc, hr⟩ := h
      have hpc : pc = 0 ∨ 49 ≤ pc := hp
      cases hr with
      | idle _ hg hm => exact ⟨r, c, b, hg ▸ hs, hm, hc⟩
      | broken => omega
      | _ => omega
  | house pc =>
      obtain ⟨r, c, b, hs, hm, ht⟩ := h
      have hpc : pc = 0 ∨ 56 ≤ pc := hp
      cases ht with
      | idle _ hc => exact ⟨r, c, b, hs, hm, hc⟩
      | _ => omega

theorem Receives.at_edge {p : At} (hp : p.Edge)
    (h : ∃ r c b, s.Receiving s.good r c b ∧ s.Marked r b ∧ s.Changed r c) :
    Receives p cpu s := by
  obtain ⟨r, c, b, hs, hm, hc⟩ := h
  cases p with
  | away => exact ⟨r, c, b, hs, hm, hc⟩
  | scan pc =>
      have hpc : pc = 0 ∨ 49 ≤ pc := hp
      exact ⟨s.good, r, c, b, hs, hc, .idle (by omega) rfl hm⟩
  | house pc =>
      have hpc : pc = 0 ∨ 56 ≤ pc := hp
      exact ⟨r, c, b, hs, hm, .idle (by omega) hc⟩

theorem kept_receives (line : ℕ) : Kept line Line.InTime Receives where
  edge _ _ _ _ _ hp hq h := .at_edge hq (h.of_edge hp)
  scan _ _ _ _ hi hok h := h.scan hi hok
  house _ _ _ _ hi _ h := h.house hi
  access _ _ _ a _ h := h.access a

theorem started_receives (line : ℕ) : Card.started.Asserts line Receives :=
  ⟨0, 0, 0, {
    ring := .empty (by decide)
    head := rfl
    rhead := rfl
    cdhead := rfl
    breakhead := rfl
    le := ⟨Nat.le_refl 0, Nat.le_refl 0, Nat.le_refl 0⟩
    rtail := rfl
    copy := fun h => absurd rfl h
    found := Nat.le_refl 0
    taken := fun _ h => absurd h List.not_mem_nil
    order := List.Pairwise.nil
    below := fun _ h => absurd h List.not_mem_nil
    whole := fun _ => rfl
    post := fun h => absurd h (show (0 : Byte) ≠ 1 by decide) },
    fun h => absurd rfl h, fun _ => Nat.le_refl 0⟩

/-- The characters that the card has or is about to store. -/
theorem Receives.ring {p : At} (h : Receives p cpu s) :
    ∃ items r c b, items <+: s.good ∧ s.Receiving items r c b := by
  cases p with
  | away =>
      obtain ⟨r, c, b, hs, -⟩ := h
      exact ⟨s.good, r, c, b, List.prefix_refl _, hs⟩
  | scan pc =>
      obtain ⟨items, r, c, b, hs, -, hr⟩ := h
      refine ⟨items, r, c, b, ?_, hs⟩
      cases hr with
      | loaded hg | stored hg | past hg => exact ⟨_, hg.symm⟩
      | idle _ hg | state hg | test hg | framing hg | zero hg | broken _ hg | marking hg
      | place hg | good hg | head hg => exact hg ▸ List.prefix_refl _
  | house pc =>
      obtain ⟨r, c, b, hs, -⟩ := h
      exact ⟨s.good, r, c, b, List.prefix_refl _, hs⟩

/-- On every run in which fewer than `BUFSIZE` characters ever wait, the driver takes the
characters that came without a framing error, each at most once, in their order and as they
were received, and all up to where it is unless it passed over some. While `BREAK_DETECTED` is
there to be found, what it has taken or is about to came before a break, and `rhead` is there. -/
theorem receives_in_order (es : List Event) (line : ℕ)
    (hok : Every Card.step (fun card e => ((card.step e).line line).InTime) Card.started es) :
    let s := (final Card.step Card.started es).line line
    (∀ p ∈ s.taken, s.good[p.1]? = some p.2) ∧ (s.taken.map Prod.fst).Pairwise (· < ·) ∧
      (s.drops = 0 → s.taken.map Prod.fst = List.range s.past) ∧
      (s.cell .rcondition = BREAK_DETECTED →
        ∃ n, s.Broken n ∧ (s.cell .rhead).toNat = n % BUFSIZE ∧ s.past + s.count ≤ n) := by
  intro s
  obtain ⟨items, r, c, b, ⟨vs, hvs⟩, hs⟩ :=
    ((kept_receives line).final (started_receives line) hok).ring
  change items ++ vs = s.good at hvs
  change s.Receiving items r c b at hs
  refine ⟨fun p hp => ?_, hs.order, hs.whole, fun h => ⟨r, hs.post h, hs.rhead, hs.found⟩⟩
  have hlt := Nat.lt_of_lt_of_le (hs.below p hp) hs.ring.le
  rw [← hvs, List.getElem?_append_left hlt]
  exact hs.taken p hp

/-- A character comes and is read. -/
theorem receives_in_order_character :
    let s := (final Card.step Card.started
      ([.access 0 (.chip .data 65), .access 0 (.chip .status 8)] ++ List.replicate 9 .run)).line 0
    (∀ p ∈ s.taken, s.good[p.1]? = some p.2) ∧ (s.taken.map Prod.fst).Pairwise (· < ·) ∧
      (s.drops = 0 → s.taken.map Prod.fst = List.range s.past) ∧
      (s.cell .rcondition = BREAK_DETECTED →
        ∃ n, s.Broken n ∧ (s.cell .rhead).toNat = n % BUFSIZE ∧ s.past + s.count ≤ n) :=
  receives_in_order _ 0 (by decide)

end HydraAmix.Serial.Resident
