import HydraAmix.Serial.Sends

/-!
# What the card sends, on every run

The driver's accesses keep the assertion as the card's instructions do.
-/
namespace HydraAmix.Serial.Resident
open Word Schedule SharedRing

variable {b : Since} {line pc : ℕ} {i : Instr} {cpu : Cpu} {s : Line}

/-! ### What the driver does -/

/-- What an access leaves as it is. -/
structure Line.Beside (s s' : Line) (ts : List Token) : Prop where
  ttail : s'.cell .ttail = s.cell .ttail
  ttandem : s.cell .ttandem ≠ 0 → s'.cell .ttandem = s.cell .ttandem
  full : s.cell .thead ≠ s.cell .ttail → s'.cell .thead ≠ s'.cell .ttail ∧
    s'.tbuf (s.cell .ttail).toNat = s.tbuf (s.cell .ttail).toNat
  tflush : s.cell .tflush ≠ 0 → s'.cell .tflush ≠ 0 ∧ s'.cell .thead = s.cell .thead
  flushes : s'.cell .tflush = 0 → s.cell .tflush = 0 ∧ s'.flushes = s.flushes
  wrote : s'.wrote = s.wrote
  char : ∀ t ∈ ts, s'.char t = s.char t

variable {s' : Line} {ts : List Token} {out sent : ℕ}

theorem Line.Beside.of_outgoing (he : s'.outgoing = s.outgoing) (hw : s'.wrote = s.wrote) :
    s.Beside s' ts := by
  have hc := congrArg Prod.fst he
  simp only [Line.outgoing, Prod.mk.injEq] at hc
  obtain ⟨hh, ht, hd, hf⟩ := hc
  have hb : s'.tbuf = s.tbuf := congrArg (fun o => o.2.1) he
  have hfl : s'.flushes = s.flushes := congrArg (fun o => o.2.2.2.2.1) he
  exact ⟨ht, fun _ => hd, fun hne => ⟨by rwa [hh, ht], by rw [hb]⟩, fun h => ⟨by rwa [hf], hh⟩,
    fun hz => ⟨hf ▸ hz, hfl⟩, hw, fun t _ => by rw [Line.char_congr he]⟩

theorem Carried.beside (h : Carried pc cpu s) (hb : s.Beside s' ts) : Carried pc cpu s' := by
  have htandem : s.cell .ttandem ≠ 0 → s'.cell .ttandem ≠ 0 := fun hne => hb.ttandem hne ▸ hne
  cases h with
  | idle h => exact .idle h
  | test h => exact .test fun hz => htandem (h hz)
  | pending hpc h => exact .pending hpc (htandem h)
  | loaded h ha => exact .loaded (htandem h) (ha.trans (hb.ttandem h).symm)
  | tail hx => exact .tail (hx.trans hb.ttail.symm)
  | compared hx h => exact .compared (hx.trans hb.ttail.symm) fun hz => (hb.full (h hz)).1
  | full hpc hx h => exact .full hpc (hx.trans hb.ttail.symm) (hb.full h).1
  | char hx h ha =>
      exact .char (hx.trans hb.ttail.symm) (hb.full h).1
        (by rw [ha, hb.ttail]; exact (hb.full h).2.symm)
  | past hx h ha =>
      exact .past (by rw [hx, hb.ttail]) (hb.full h).1
        (by rw [ha, hb.ttail]; exact (hb.full h).2.symm)

theorem Flushing.beside (h : Flushing pc cpu s) (hb : s.Beside s' ts) : Flushing pc cpu s' := by
  cases h with
  | idle h => exact .idle h
  | test h => exact .test fun hz => (hb.tflush (h hz)).1
  | asked h => exact .asked (hb.tflush h).1
  | loaded h ha => exact .loaded (hb.tflush h).1 (ha.trans (hb.tflush h).2.symm)
  | empty hpc h he =>
      exact .empty hpc (hb.tflush h).1 ((hb.tflush h).2.trans (he.trans hb.ttail.symm))

/-- What does not put a character anywhere, and asks for no flush. -/
def Access.Quiet : Access → Prop
  | .look _ | .store | .advance | .tandem _ | .flush => False
  | _ => True

theorem access_quiet {a : Access} (ha : a.Quiet) :
    (s.access a).outgoing = s.outgoing ∧ (s.access a).wrote = s.wrote := by
  cases a with
  | look _ | store | advance | tandem _ | flush => exact ha.elim
  | suspend _ | setparams | sync => exact ⟨rfl, rfl⟩
  | setting c v =>
      unfold Line.access
      dsimp only
      split
      next hc =>
        obtain rfl | rfl | rfl := hc
        all_goals exact ⟨rfl, rfl⟩
      · exact ⟨rfl, rfl⟩
  | examine | clear | «begin» | take | drop | chip _ _ =>
      unfold Line.access
      dsimp only
      split <;> exact ⟨rfl, rfl⟩

theorem Line.Sending.look (h : s.Sending b ts out sent) (c : Byte) :
    (s.access (.look c)).Sending b ts out sent ∧ s.Beside (s.access (.look c)) ts := by
  unfold Line.access
  dsimp only
  split
  next hc =>
    obtain ⟨-, hf, hne⟩ := hc
    refine ⟨{ h with
      room := fun _ => h.ring.room_of_ne fun he => hne (BitVec.eq_of_toNat_eq ?_)
      quiet := fun hh => absurd hf hh }, ⟨rfl, fun _ => rfl, fun hh => ⟨hh, rfl⟩,
        fun hh => ⟨hh, rfl⟩, fun hz => ⟨hz, rfl⟩, rfl, fun _ _ => rfl⟩⟩
    rw [h.ttail, ← he, BitVec.toNat_add, h.thead]
    exact Nat.mod_add_mod s.put.length BUFSIZE 1
  · exact ⟨h, .of_outgoing rfl rfl⟩

theorem Line.Sending.store (h : s.Sending b ts out sent) :
    (s.access .store).Sending b ts out sent ∧ s.Beside (s.access .store) ts := by
  unfold Line.access
  dsimp only
  split
  next c hc =>
    have hput : s.busy.Putting := hc ▸ trivial
    refine ⟨{ h with
      ring := h.thead ▸ h.ring.store c
      room := fun _ => h.room hput
      quiet := fun hh => absurd hput (h.quiet hh).1 }, ⟨rfl, fun _ => rfl, fun hh => ⟨hh, ?_⟩,
        fun hh => ⟨hh, rfl⟩, fun hz => ⟨hz, rfl⟩, rfl, fun _ _ => rfl⟩⟩
    exact Function.update_of_ne (fun he => hh (BitVec.eq_of_toNat_eq he.symm)) _ _
  · exact ⟨h, .of_outgoing rfl rfl⟩

theorem Line.Sending.sent_mem (h : s.Sending b ts out sent) {t : Token} (ht : t ∈ ts) :
    (∀ i, t = .ring i → i < s.put.length) ∧ (∀ i, t = .tandem i → i < s.tandems.length) := by
  refine ⟨fun i he => ?_, fun i he => ?_⟩
  · have hi : i ∈ rings ts := List.mem_filterMap.mpr ⟨t, ht, he ▸ rfl⟩
    exact Nat.lt_of_lt_of_le (h.below i hi) h.ring.le
  · have hi : i ∈ controls ts := List.mem_filterMap.mpr ⟨t, ht, he ▸ rfl⟩
    rw [h.tandem, List.mem_range] at hi
    exact Nat.lt_of_lt_of_le hi (h.asked ▸ Nat.le_add_right _ _)

/-- A character that left is the same when more are put. -/
theorem Line.Sending.char_append (h : s.Sending b ts out sent) {us vs : List Byte}
    (hp : s'.put = s.put ++ us) (ht : s'.tandems = s.tandems ++ vs) :
    ∀ t ∈ ts, s'.char t = s.char t := by
  intro t hmem
  cases t with
  | ring i =>
      have hi := (h.sent_mem hmem).1 i rfl
      simp only [Line.char, hp, List.getD, List.getElem?_append_left hi]
  | tandem i =>
      have hi := (h.sent_mem hmem).2 i rfl
      simp only [Line.char, ht, List.getD, List.getElem?_append_left hi]

theorem Line.Sending.advance (h : s.Sending b ts out sent) :
    (s.access .advance).Sending b ts out sent ∧ s.Beside (s.access .advance) ts := by
  unfold Line.access
  dsimp only
  split
  next hc =>
    have hput : s.busy.Putting := hc ▸ trivial
    have hroom := h.room hput
    have hthead : (s.cell .thead + 1).toNat = (s.put.length + 1) % BUFSIZE := by
      rw [BitVec.toNat_add, h.thead]
      exact Nat.mod_add_mod s.put.length BUFSIZE 1
    refine ⟨{ h with
      ring := h.thead ▸ h.ring.advance hroom
      thead := by rw [List.length_append]; exact hthead
      room := fun hh => hh.elim
      quiet := fun hh => absurd hput (h.quiet hh).1
      marks := fun m hm => by
        rw [List.length_append]
        exact Nat.le_add_right_of_le (h.marks m hm) },
      ⟨rfl, fun _ => rfl, fun _ => ⟨fun he => ?_, rfl⟩, fun hh => absurd hput (h.quiet hh).1,
        fun hz => ⟨hz, rfl⟩, rfl, h.char_append rfl (List.append_nil _).symm⟩⟩
    have hmod := congrArg BitVec.toNat (show s.cell .thead + 1 = s.cell .ttail from he)
    rw [hthead, h.ttail] at hmod
    exact absurd (SharedRing.eq_of_mod (Nat.le_succ_of_le h.ring.le) hroom hmod.symm)
      (by have := h.ring.le; omega)
  · exact ⟨h, .of_outgoing rfl rfl⟩

theorem Line.Sending.put_tandem (h : s.Sending b ts out sent) (c : Byte) :
    (s.access (.tandem c)).Sending b ts out sent ∧ s.Beside (s.access (.tandem c)) ts := by
  unfold Line.access
  dsimp only
  split
  next hc =>
    have hsent : s.tandems.length = sent := by rw [h.asked, if_pos hc.1]; rfl
    refine ⟨{ h with
      asked := ?_
      waiting := fun _ => ?_ },
      ⟨rfl, fun hh => absurd hc.1 hh, fun hh => ⟨hh, rfl⟩, fun hh => ⟨hh, rfl⟩,
        fun hz => ⟨hz, rfl⟩, rfl, h.char_append (List.append_nil _).symm rfl⟩⟩
    · rw [List.length_append, hsent]
      exact congrArg (sent + ·) (if_neg hc.2).symm
    · rw [← hsent]
      simp [Line.set]
  · exact ⟨h, .of_outgoing rfl rfl⟩

theorem Line.Sending.flush (h : s.Sending b ts out sent) :
    (s.access .flush).Sending b ts out sent ∧ s.Beside (s.access .flush) ts := by
  unfold Line.access
  dsimp only
  split
  next hc =>
    have hone : (s.set .tflush 1).cell .tflush ≠ 0 := show (1 : Byte) ≠ 0 by decide
    refine ⟨{ h with
      quiet := fun _ => ⟨fun hp => by
        rw [show (s.set .tflush 1).busy = .idle from hc] at hp; exact hp, by simp⟩
      whole := fun hfl => by simp at hfl
      marks := fun m hm => ?_
      flushed := fun hz => absurd hz hone }, ⟨rfl, fun _ => rfl, fun hh => ⟨hh, rfl⟩,
        fun _ => ⟨hone, rfl⟩, fun hz => absurd hz hone, rfl, fun _ _ => rfl⟩⟩
    rcases List.mem_append.mp hm with hm | hm
    · exact h.marks m hm
    · exact Nat.le_of_eq (List.mem_singleton.mp hm)
  · exact ⟨h, .of_outgoing rfl rfl⟩

theorem Line.Sending.access (h : s.Sending b ts out sent) (a : Access) :
    (s.access a).Sending b ts out sent ∧ s.Beside (s.access a) ts := by
  by_cases ha : a.Quiet
  · obtain ⟨he, hw⟩ := access_quiet (s := s) ha
    exact ⟨h.congr he (Nat.le_of_eq (congrArg _ hw.symm)), .of_outgoing he hw⟩
  · cases a with
    | look c => exact h.look c
    | store => exact h.store
    | advance => exact h.advance
    | tandem c => exact h.put_tandem c
    | flush => exact h.flush
    | _ => exact absurd trivial ha

/-! ### Runs -/

theorem Under.of_edge {p : ℕ} (hp : p = 0 ∨ 49 ≤ p) (h : Under ts p cpu s) :
    s.wrote = ts.map s.char := by
  cases h with
  | between _ hw => exact hw
  | last hpc => omega

theorem Sends.of_edge {p : At} (hp : p.Edge) (h : Sends b p cpu s) :
    ∃ ts out sent, s.Sending b ts out sent ∧ s.wrote = ts.map s.char := by
  cases p with
  | away => exact h
  | scan pc =>
      obtain ⟨ts, out, sent, hs, hu⟩ := h
      exact ⟨ts, out, sent, hs, hu.of_edge hp⟩
  | house pc =>
      obtain ⟨ts, out, sent, hs, -, hts⟩ := h
      exact ⟨ts, out, sent, hs, hts⟩

theorem Sends.at_edge {p : At} (hp : p.Edge)
    (h : ∃ ts out sent, s.Sending b ts out sent ∧ s.wrote = ts.map s.char) : Sends b p cpu s := by
  obtain ⟨ts, out, sent, hs, hts⟩ := h
  cases p with
  | away => exact ⟨ts, out, sent, hs, hts⟩
  | scan pc =>
      have hpc : pc = 0 ∨ 49 ≤ pc := hp
      exact ⟨ts, out, sent, hs, .between (.idle (by omega)) hts⟩
  | house pc =>
      have hpc : pc = 0 ∨ 56 ≤ pc := hp
      exact ⟨ts, out, sent, hs, .idle (by omega), hts⟩

theorem Sends.scan (hi : Card.instr (scanline line) pc = some i) (h : Sends b (.scan pc) cpu s) :
    Sends b (.scan (next (scanline line) pc (exec cpu s i).1 i)) (exec cpu s i).1
      (exec cpu s i).2 := by
  obtain ⟨ts, out, sent, hs, hu⟩ := h
  cases hu with
  | between hcar hw =>
      by_cases hpc : pc ≠ 32 ∧ pc ≠ 47 ∧ pc ≠ 48
      · obtain ⟨he, hw'⟩ := scan_outgoing cpu s hi hpc
        refine ⟨ts, out, sent, hs.congr he (Nat.le_of_eq (congrArg _ hw'.symm)),
          .between (scan_carried hpc hi hcar) ?_⟩
        rw [Line.char_congr he, hw', hw]
      · cases hcar with
        | loaded hne ha =>
            cases hi
            exact ⟨_, _, _, hs.control hne,
              .last (.inl rfl) ts (.tandem sent) rfl hw (ha.trans (hs.waiting hne).symm)
                fun _ _ hi => absurd hi List.not_mem_nil⟩
        | past hx hne ha =>
            cases hi
            obtain ⟨hs', hchar⟩ := hs.shift hne
            refine ⟨_, _, _, hx ▸ hs', .last (.inr rfl) ts (.ring out) rfl hw (ha.trans hchar)
                fun hz i hi m hm => ?_⟩
            exact List.mem_singleton.mp hi ▸ hs.flushed hz m hm
        | _ => omega
  | last hpc us t hts hw ha hm =>
      obtain rfl | rfl := hpc
      · cases hi
        obtain ⟨-, -, -, -, -, -, -, -, h33, -⟩ := scan_forward line
        change Sends b (.scan (forward (scanline line) 33 2)) cpu s
        exact h33 ▸ ⟨ts, out, sent, hs, .last (.inr rfl) us t hts hw ha hm⟩
      · cases hi
        refine ⟨ts, out, sent, hs.congr rfl ?_, .between (.idle (.inr (.inr (Nat.le_refl 49)))) ?_⟩
        · exact List.length_append ▸ Nat.le_add_right _ _
        · change s.wrote ++ [cpu.a] = ts.map s.char
          rw [hts, List.map_append, hw, ha]
          rfl

theorem Sends.house (hi : Card.instr (housekeep line) pc = some i)
    (h : Sends b (.house pc) cpu s) :
    Sends b (.house (next (housekeep line) pc (exec cpu s i).1 i)) (exec cpu s i).1
      (exec cpu s i).2 := by
  obtain ⟨ts, out, sent, hs, hfl, hw⟩ := h
  by_cases hpc : pc ≠ 53 ∧ pc ≠ 55
  · obtain ⟨he, hw'⟩ := house_outgoing cpu s hi hpc
    refine ⟨ts, out, sent, hs.congr he (Nat.le_of_eq (congrArg _ hw'.symm)),
      house_flushing hpc hi hfl, ?_⟩
    rw [Line.char_congr he, hw', hw]
  · cases hfl with
    | loaded hf ha =>
        cases hi
        exact ⟨ts, _, sent, ha ▸ hs.drop hf, .empty (.inl rfl) hf ha.symm, hw⟩
    | empty hpc' hf he =>
        obtain rfl : pc = 55 := by omega
        cases hi
        exact ⟨ts, out, sent, hs.done he, .idle (.inr (Nat.le_refl 56)), hw⟩
    | _ => omega

theorem Sends.access (a : Access) {p : At} (h : Sends b p cpu s) : Sends b p cpu (s.access a) := by
  have key : ∀ {ts out sent}, s.Sending b ts out sent → ∀ us : List Token, (∀ t ∈ us, t ∈ ts) →
      s.wrote = us.map s.char → (s.access a).wrote = us.map (s.access a).char :=
    fun hs us hus hw => by
      obtain ⟨-, hb⟩ := hs.access a
      rw [hb.wrote, hw]
      exact List.map_congr_left fun t ht => (hb.char t (hus t ht)).symm
  cases p with
  | away =>
      obtain ⟨ts, out, sent, hs, hw⟩ := h
      exact ⟨ts, out, sent, (hs.access a).1, key hs ts (fun _ ht => ht) hw⟩
  | scan pc =>
      obtain ⟨ts, out, sent, hs, hu⟩ := h
      obtain ⟨hs', hb⟩ := hs.access a
      refine ⟨ts, out, sent, hs', ?_⟩
      cases hu with
      | between hcar hw => exact .between (hcar.beside hb) (key hs ts (fun _ ht => ht) hw)
      | last hpc us t hts hw ha hm =>
          subst hts
          refine .last hpc us t rfl (key hs us (fun _ ht => List.mem_append_left _ ht) hw)
            (ha.trans (hb.char t (List.mem_append_right _ List.mem_cons_self)).symm)
            fun hz => ?_
          obtain ⟨hz', hfl⟩ := hb.flushes hz
          exact hfl ▸ hm hz'
  | house pc =>
      obtain ⟨ts, out, sent, hs, hfl, hw⟩ := h
      obtain ⟨hs', hb⟩ := hs.access a
      exact ⟨ts, out, sent, hs', hfl.beside hb, key hs ts (fun _ ht => ht) hw⟩

/-- What was written are the tokens but for one that may be on the way; and the assertion from
now on. -/
theorem Sends.parts {p : At} (h : Sends b p cpu s) :
    ∃ ts out sent us r, s.Sending b ts out sent ∧ ts = us ++ r ∧ s.wrote = us.map s.char ∧
      (s.cell .tflush = 0 → ∀ i ∈ rings r, ∀ m ∈ s.flushes, m ≤ i) ∧
      Sends ⟨ts, out, s.wrote.length⟩ p cpu s := by
  cases p with
  | away =>
      obtain ⟨ts, out, sent, hs, hw⟩ := h
      exact ⟨ts, out, sent, ts, [], hs, (List.append_nil ts).symm, hw,
        fun _ _ hi => absurd hi List.not_mem_nil, ts, out, sent, hs.now, hw⟩
  | scan pc =>
      obtain ⟨ts, out, sent, hs, hu⟩ := h
      have hnow : Sends ⟨ts, out, s.wrote.length⟩ (.scan pc) cpu s := ⟨ts, out, sent, hs.now, hu⟩
      cases hu with
      | between _ hw =>
          exact ⟨ts, out, sent, ts, [], hs, (List.append_nil ts).symm, hw,
            fun _ _ hi => absurd hi List.not_mem_nil, hnow⟩
      | last _ us t hts hw _ hm => exact ⟨ts, out, sent, us, [t], hs, hts, hw, hm, hnow⟩
  | house pc =>
      obtain ⟨ts, out, sent, hs, hfl, hw⟩ := h
      exact ⟨ts, out, sent, ts, [], hs, (List.append_nil ts).symm, hw,
        fun _ _ hi => absurd hi List.not_mem_nil, ts, out, sent, hs.now, hfl, hw⟩

theorem kept_sends (b : Since) (line : ℕ) : Kept line (fun _ => True) (Sends b) where
  edge _ _ _ _ _ hp hq h := .at_edge hq (h.of_edge hp)
  scan _ _ _ _ hi _ h := h.scan hi
  house _ _ _ _ hi _ h := h.house hi
  access _ _ _ a _ h := h.access a

theorem started_sends (line : ℕ) : Card.started.Asserts line (Sends ⟨[], 0, 0⟩) :=
  ⟨[], 0, 0, {
    ring := .empty (by decide)
    thead := rfl
    ttail := rfl
    room := fun h => h.elim
    quiet := fun h => absurd rfl h
    order := List.Pairwise.nil
    below := fun _ h => absurd h List.not_mem_nil
    whole := fun _ => rfl
    tandem := rfl
    asked := rfl
    waiting := fun h => absurd rfl h
    marks := fun _ h => absurd h List.not_mem_nil
    flushed := fun _ _ h => absurd h List.not_mem_nil
    since := ⟨[], rfl, fun _ h => absurd h List.not_mem_nil⟩
    least := Nat.le_refl 0
    written := Nat.le_refl 0 }, rfl⟩

theorem range_of_le {m n : ℕ} (h : m ≤ n) : List.range m <+: List.range n := by
  rw [← Nat.min_eq_left h, ← List.take_range]
  exact List.take_prefix _ _

/-- On every run, what the card writes to the transmitter are characters that the driver put,
each once and in their order, and none of `tbuf` is left out before a flush is asked for. Where
`tflush` is found clear, what is written from then on was put after the last request. -/
theorem sends_in_order (es fs : List Event) (line : ℕ) :
    let s := (final Card.step Card.started es).line line
    let s' := (final Card.step Card.started (es ++ fs)).line line
    ∃ us vs, us.length = s.wrote.length ∧ s'.wrote = (us ++ vs).map s'.char ∧
      (rings (us ++ vs)).Pairwise (· < ·) ∧ (∀ i ∈ rings (us ++ vs), i < s'.put.length) ∧
      controls (us ++ vs) <+: List.range s'.tandems.length ∧
      (s'.flushes = [] → rings (us ++ vs) <+: List.range s'.put.length) ∧
      (s.cell .tflush = 0 → ∀ i ∈ rings vs, ∀ m ∈ s.flushes, m ≤ i) := by
  intro s s'
  obtain ⟨ts, out, sent, us, r, hs, hts, hw, hm, hnow⟩ :=
    ((kept_sends _ line).final (started_sends line)
      (every_of_forall (fun _ _ => trivial) _ es)).parts
  obtain ⟨ts', out', sent', us', r', hs', hts', hw', -, -⟩ :=
    ((kept_sends _ line).final hnow (every_of_forall (fun _ _ => trivial) _ fs)).parts
  rw [show final Card.step (final Card.step Card.started es) fs
    = final Card.step Card.started (es ++ fs) from (List.foldl_append ..).symm] at hs' hw'
  change s.wrote = us.map s.char at hw
  change s'.wrote = us'.map s'.char at hw'
  obtain ⟨vs₀, hsince, hvs₀⟩ := hs'.since
  have hlen : us.length ≤ us'.length := by
    have := hs'.written
    change s.wrote.length ≤ s'.wrote.length at this
    rwa [hw, hw', List.length_map, List.length_map] at this
  have hsplit : us' ++ r' = us ++ (r ++ vs₀) := by
    rw [← hts', hsince, hts, List.append_assoc]
  obtain ⟨vs, rfl⟩ : us <+: us' :=
    List.prefix_of_prefix_length_le ⟨r ++ vs₀, hsplit.symm⟩ ⟨r', rfl⟩ hlen
  have hrest : vs ++ r' = r ++ vs₀ := by
    rwa [List.append_assoc, List.append_cancel_left_eq] at hsplit
  have hrings : rings ts' = rings (us ++ vs) ++ rings r' := hts' ▸ rings_append _ _
  refine ⟨us, vs, by rw [hw, List.length_map], hw', ?_, fun i hi => ?_, ?_, fun hfl => ?_,
    fun hz i hi m hmem => ?_⟩
  · exact (List.pairwise_append.mp (hrings ▸ hs'.order)).1
  · exact Nat.lt_of_lt_of_le (hs'.below i (hrings ▸ List.mem_append_left _ hi)) hs'.ring.le
  · have hcontrols : controls ts' = controls (us ++ vs) ++ controls r' :=
      hts' ▸ controls_append _ _
    refine .trans ⟨controls r', hcontrols.symm.trans hs'.tandem⟩ (range_of_le ?_)
    exact hs'.asked ▸ Nat.le_add_right _ _
  · exact .trans ⟨rings r', hrings.symm.trans (hs'.whole hfl)⟩ (range_of_le hs'.ring.le)
  · have hrest' : rings vs ++ rings r' = rings r ++ rings vs₀ := by
      rw [← rings_append, hrest, rings_append]
    have hmem' := hrest' ▸ List.mem_append_left (rings r') hi
    rcases List.mem_append.mp hmem' with hi | hi
    · exact hm hz i hi m hmem
    · exact Nat.le_trans (hs.flushed hz m hmem) (hvs₀ i hi)

end HydraAmix.Serial.Resident
