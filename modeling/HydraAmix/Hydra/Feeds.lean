import HydraAmix.Hydra.SlotsKept

/-!
# What transmission moves from the queues to the wire

`Feeds` relates the worlds before and after a piece of the interrupt handler
that serves one board: some messages have left the fronts of the write queues
of its streams, their frames are on its wire in the same order, and the
interrupt bits `ack` have been acknowledged. `Types` says that the slots stay the
same and that the frames carry the SAPs in them. The pieces compose, and the
whole handler is such a step for each running board.
-/
namespace HydraAmix.Hydra
open Word Program Prog

/-- The messages of one stream among those of several. -/
def ofStream (q : QId) (xs : List (QId × Msg)) : List Msg :=
  (xs.filter fun x => x.1 = q).map Prod.snd

@[simp] theorem ofStream_nil (q : QId) : ofStream q [] = [] := rfl

@[simp] theorem ofStream_append (q : QId) (xs ys : List (QId × Msg)) :
    ofStream q (xs ++ ys) = ofStream q xs ++ ofStream q ys := by
  simp [ofStream]

@[simp] theorem ofStream_single (q : QId) (x : QId × Msg) :
    ofStream q [x] = if x.1 = q then [x.2] else [] := by
  by_cases h : x.1 = q
  all_goals simp [ofStream, h]

theorem ofStream_eq_nil {q : QId} {xs : List (QId × Msg)} (h : ∀ x ∈ xs, x.1 ≠ q) :
    ofStream q xs = [] := by
  simpa [ofStream] using fun a b hx ha => h (a, b) hx ha

/-- The frames carry the messages, in order. -/
def CarriesAll (xs : List (QId × Msg)) (frames : List (List Byte)) : Prop :=
  List.Forall₂ (fun x f => Carries x.2 f) xs frames

theorem CarriesAll.append {xs ys : List (QId × Msg)} {fs gs : List (List Byte)}
    (h : CarriesAll xs fs) (h' : CarriesAll ys gs) : CarriesAll (xs ++ ys) (fs ++ gs) :=
  List.rel_append h h'

/-- The messages `xs` have gone from the queues of a board to its wire, and
the interrupts `ack` have been acknowledged. -/
structure World.Feeds (b : BoardId) (ack : Byte) (xs : List (QId × Msg)) (w w' : World) : Prop
    extends w.SameStreams w' where
  other : ∀ c, c ≠ b → (w.nic c).SameTx (w'.nic c)
  page : (w.nic b).page = 0 → (w'.nic b).page = 0
  isr : (w'.nic b).isr = (w.nic b).isr &&& ~~~ack
  txp : (w.nic b).txp = true → (w'.nic b).txp = true
  sent : ∃ frames, (w'.nic b).sent = (w.nic b).sent ++ frames ∧ CarriesAll xs frames
  owner : ∀ x ∈ xs, ∃ n, w.rptr x.1 = some ⟨b, n⟩
  queue : ∀ q, w.wq q = ofStream q xs ++ w'.wq q

/-- The type field of a frame. -/
def typeField (frame : List Byte) : BitVec 16 := short (frame.getD 12 0) (frame.getD 13 0)

/-- A frame carries a message of a stream, under the SAP in the stream's slot. -/
def World.Typed (w : World) (x : QId × Msg) (frame : List Byte) : Prop :=
  Carries x.2 frame ∧ ∀ t, w.rptr x.1 = some t → typeField frame = (w.drv.slot t).sap

/-- The slots stay the same, and the frames of the messages `xs` carry the SAPs in them. -/
structure World.Types (b : BoardId) (xs : List (QId × Msg)) (w w' : World) : Prop where
  rptr : w'.rptr = w.rptr
  slot : w'.drv.slot = w.drv.slot
  sent : ∃ frames, (w'.nic b).sent = (w.nic b).sent ++ frames ∧ List.Forall₂ w.Typed xs frames

/-- The streams of a board and their slots name each other, and its transmit
buffer starts at page 0. -/
structure World.Linked (b : BoardId) (w : World) : Prop where
  page : (w.drv.board b).info.txStartPage = 0
  wptr : w.wptr = w.rptr
  ptr : ∀ n q, (w.drv.slot ⟨b, n⟩).q = some q ↔ w.rptr q = some ⟨b, n⟩
  index : ∀ n q, (w.drv.slot ⟨b, n⟩).q = some q → (w.drv.slot ⟨b, n⟩).boardIndex = b

section
variable {b : BoardId} {w w₁ w₂ w₃ : World}

theorem World.Linked.congr (h : w₁.Linked b) (hs : w₁.SameStreams w₂) : w₂.Linked b where
  page := (hs.drv b).txStartPage.trans h.page
  wptr := hs.wptr.trans (h.wptr.trans hs.rptr.symm)
  ptr n q := by
    rw [hs.rptr, ← h.ptr]
    exact Eq.congr_left ((hs.drv b).q n)
  index n q hq := ((hs.drv b).index n).trans (h.index n q (((hs.drv b).q n).symm.trans hq))

theorem World.Linked.slot (h : w.Linked b) {n : Fin HYDRA_MAXDEV} {q : QId}
    (hq : (w.drv.slot ⟨b, n⟩).q = some q) :
    w.rptr q = some ⟨b, n⟩ ∧ w.wptr q = some ⟨b, n⟩ ∧ (w.drv.slot ⟨b, n⟩).boardIndex = b :=
  ⟨(h.ptr n q).mp hq, (congrFun h.wptr q).trans ((h.ptr n q).mp hq), h.index n q hq⟩

theorem World.Keeps.feeds (h : w₁.Keeps w₂) (b : BoardId) : World.Feeds b 0 [] w₁ w₂ where
  toSameStreams := h.toSameStreams
  other c _ := h.nic c
  page hp := by
    rw [Nic.page, (h.nic b).cmd]
    exact hp
  isr := by
    rw [(h.nic b).isr]
    exact BitVec.and_allOnes.symm
  txp ht := (h.nic b).txp.trans ht
  sent := ⟨[], by rw [(h.nic b).sent, List.append_nil], .nil⟩
  owner _ hx := absurd hx List.not_mem_nil
  queue q := by rw [h.wq]; rfl

theorem World.Feeds.trans {a₁ a₂ : Byte} {xs ys : List (QId × Msg)} (h : World.Feeds b a₁ xs w₁ w₂)
    (h' : World.Feeds b a₂ ys w₂ w₃) : World.Feeds b (a₁ ||| a₂) (xs ++ ys) w₁ w₃ where
  toSameStreams := h.toSameStreams.trans h'.toSameStreams
  other c hc := (h.other c hc).trans (h'.other c hc)
  page hp := h'.page (h.page hp)
  isr := by rw [h'.isr, h.isr, BitVec.not_or, BitVec.and_assoc]
  txp ht := h'.txp (h.txp ht)
  sent := by
    obtain ⟨fs, hs, hc⟩ := h.sent
    obtain ⟨gs, hs', hc'⟩ := h'.sent
    exact ⟨fs ++ gs, by rw [hs', hs, List.append_assoc], hc.append hc'⟩
  owner x hx := by
    rcases List.mem_append.mp hx with hx | hx
    · exact h.owner x hx
    · rw [← h.rptr]
      exact h'.owner x hx
  queue q := by rw [h.queue, h'.queue, ofStream_append, List.append_assoc]

theorem World.typed_congr (hr : w₂.rptr = w₁.rptr) (hs : w₂.drv.slot = w₁.drv.slot) :
    w₂.Typed = w₁.Typed := by
  unfold World.Typed
  rw [hr, hs]

theorem World.Types.trans {xs ys : List (QId × Msg)} (h : World.Types b xs w₁ w₂)
    (h' : World.Types b ys w₂ w₃) : World.Types b (xs ++ ys) w₁ w₃ where
  rptr := h'.rptr.trans h.rptr
  slot := h'.slot.trans h.slot
  sent := by
    obtain ⟨fs, hs, hc⟩ := h.sent
    obtain ⟨gs, hs', hc'⟩ := h'.sent
    rw [World.typed_congr h.rptr h.slot] at hc'
    exact ⟨fs ++ gs, by rw [hs', hs, List.append_assoc], List.rel_append hc hc'⟩

theorem World.Types.carries {xs : List (QId × Msg)} (h : World.Types b xs w₁ w₂) :
    ∃ frames, (w₂.nic b).sent = (w₁.nic b).sent ++ frames ∧ CarriesAll xs frames := by
  obtain ⟨fs, hs, hc⟩ := h.sent
  exact ⟨fs, hs, hc.imp fun _ _ hx => hx.1⟩

theorem World.Types.refl (b : BoardId) (w : World) : World.Types b [] w w :=
  ⟨rfl, rfl, [], (List.append_nil _).symm, .nil⟩

theorem World.Keeps.types (h : w₁.Keeps w₂) (hs : w₂.drv.slot = w₁.drv.slot) (b : BoardId) :
    World.Types b [] w₁ w₂ :=
  ⟨h.rptr, hs, [], by rw [(h.nic b).sent, List.append_nil], .nil⟩

/-- A step on the chip of one board that sends nothing. -/
theorem World.types_setNic (w : World) (b : BoardId) {n : Nic} (hs : n.sent = (w.nic b).sent) :
    World.Types b [] w (w.setNic b n) :=
  ⟨rfl, rfl, [], by rw [World.setNic_self, hs, List.append_nil], .nil⟩

/-! ### The transmit interrupt -/

/-- A step on the chip of one board that moves nothing. -/
theorem World.feeds_setNic (w : World) (b : BoardId) {n : Nic} {ack : Byte}
    (hp : (w.nic b).page = 0 → n.page = 0) (hi : n.isr = (w.nic b).isr &&& ~~~ack)
    (ht : n.txp = (w.nic b).txp)
    (hs : n.sent = (w.nic b).sent) : World.Feeds b ack [] w (w.setNic b n) where
  toSameStreams := ⟨rfl, rfl, fun _ => .refl _⟩
  other c hc := by
    rw [World.setNic_of_ne _ _ _ hc]
    exact ⟨rfl, rfl, rfl, rfl⟩
  page h := by
    rw [World.setNic_self]
    exact hp h
  isr := by rwa [World.setNic_self]
  txp h := by rwa [World.setNic_self, ht]
  sent := ⟨[], by rw [World.setNic_self, hs, List.append_nil], .nil⟩
  owner _ hx := absurd hx List.not_mem_nil
  queue _ := rfl

/-- A message that waits first in its queue is put back by a busy transmitter. -/
theorem hydraxmit_putBack (hl : w.Linked b) {n : Fin HYDRA_MAXDEV} {q : QId} {mp : Msg}
    {ms : List Msg} (hq : (w.drv.slot ⟨b, n⟩).q = some q) (hw : w.wq q = mp :: ms)
    (ht : (w.nic b).txp = true) :
    ∃ w', run exec (hydraxmit q mp) (w.setWq q ms) = (false, w') ∧
      World.Feeds b 0 [] w (run exec (putbq q mp) w').2 ∧
        World.Types b [] w (run exec (putbq q mp) w').2 := by
  obtain ⟨hr, hptr, hi⟩ := hl.slot hq
  refine ⟨_, hydraxmit_busy (w.setWq q ms) b mp hptr hi ht, ?_⟩
  have hback : w.setWq q (mp :: ms) = w := by
    rw [← hw]
    exact w.setWq_eq_self q
  rw [run_putbq, World.setNic_wq, World.setWq_self, World.setWq_setNic, World.setWq_setWq, hback]
  exact ⟨w.feeds_setNic b (fun _ => by simp [Nic.page]) BitVec.and_allOnes.symm rfl rfl,
    w.types_setNic b rfl⟩

/-- The type of a frame is the SAP of its stream. -/
theorem World.xmitFrame_type (w : World) (hp : HydraT) (paddress : Vector Byte 6) (mp : Msg) :
    typeField (w.xmitFrame hp paddress mp) = hp.sap := by
  have hdest : ∀ f : ℕ → Byte, ((List.range 6).map f ++ paddress.toList).length = 12 := fun f => by
    simp
  have hget : ∀ i, i < 2 → (w.xmitFrame hp paddress mp).getD (12 + i) 0 =
      [(hp.sap >>> 8).setWidth 8, hp.sap.setWidth 8].getD i 0 := by
    intro i hi
    rw [xmitFrame, xmitHead, List.append_assoc, List.append_assoc, List.getD_eq_getElem?_getD,
      List.getElem?_append_right (by rw [hdest]; omega), hdest, Nat.add_sub_cancel_left,
      List.getElem?_append_left hi, List.getD_eq_getElem?_getD]
  have h₀ := hget 0 (by decide)
  have h₁ := hget 1 (by decide)
  rw [Nat.add_zero] at h₀
  rw [typeField, h₀, h₁]
  refine BitVec.eq_of_getLsbD_eq fun i hi => ?_
  simp only [short, List.getD_cons_zero, List.getD_cons_succ, BitVec.getLsbD_append,
    BitVec.getLsbD_setWidth, BitVec.getLsbD_ushiftRight]
  by_cases h : i < 8
  · simp [h]
  · have hlt : i - 8 < 8 := by omega
    have heq : 8 + (i - 8) = i := by omega
    simp [h, hlt, heq]

/-- An idle one is started with it. -/
theorem hydraxmit_sends (hl : w.Linked b) {n : Fin HYDRA_MAXDEV} {q : QId} {mp : Msg}
    {ms : List Msg} (hq : (w.drv.slot ⟨b, n⟩).q = some q) (hw : w.wq q = mp :: ms)
    (ht : (w.nic b).txp = false) :
    ∃ w', run exec (hydraxmit q mp) (w.setWq q ms) = (true, w') ∧ (w'.nic b).txp = true ∧
      World.Feeds b 0 [(q, mp)] w w' ∧ World.Types b [(q, mp)] w w' := by
  obtain ⟨hr, hptr, hi⟩ := hl.slot hq
  obtain ⟨d, m, frame, hd, htxp, hpage, hisr, hsent, hframe, hrun⟩ :=
    hydraxmit_idle (w.setWq q ms) b mp hptr hi ht
  have hslot : d.slot = w.drv.slot := funext fun t => congrFun (hd.hydra t.board) t.dev
  rw [hframe hl.page] at hsent
  have hy : World.Types b [(q, mp)] w (((w.setWq q ms).setDrv d).setNic b m) := by
    refine ⟨rfl, hslot, _, by rw [World.setNic_self, hsent]; rfl,
      .cons ⟨World.xmitFrame_carries _ _ _ _, fun t ht' => ?_⟩ .nil⟩
    obtain rfl : t = ⟨b, n⟩ := Option.some.inj (ht'.symm.trans hr)
    exact World.xmitFrame_type _ _ _ _
  refine ⟨_, hrun, by rwa [World.setNic_self], ?_, hy⟩
  constructor
  · exact ⟨rfl, rfl, hd.sameSlots⟩
  · intro c hc
    rw [World.setNic_of_ne _ _ _ hc]
    exact ⟨rfl, rfl, rfl, rfl⟩
  · intro _
    rwa [World.setNic_self]
  · rw [World.setNic_self, hisr]
    exact BitVec.and_allOnes.symm
  · intro _
    rwa [World.setNic_self]
  · exact hy.carries
  · intro x hx
    rw [List.mem_singleton.mp hx]
    exact ⟨n, hr⟩
  · intro q'
    rw [World.setNic_wq, World.setDrv_wq, ofStream_single]
    by_cases h : q = q'
    · subst h
      rw [if_pos rfl, World.setWq_self, hw]
      rfl
    · rw [if_neg h, World.setWq_of_ne _ _ _ (Ne.symm h)]
      rfl

/-- Serving the slots of a board in turn: what is waiting in any of them, the
transmitter is busy afterwards. -/
theorem transmitSlots_feeds (hl : w.Linked b) (ns : List (Fin HYDRA_MAXDEV)) :
    ∃ xs, World.Feeds b 0 xs w (run exec (transmitSlots b ns) w).2 ∧
      World.Types b xs w (run exec (transmitSlots b ns) w).2 ∧
      ∀ n ∈ ns, ∀ q, (w.drv.slot ⟨b, n⟩).q = some q → w.wq q ≠ [] →
        ((run exec (transmitSlots b ns) w).2.nic b).txp = true := by
  induction ns generalizing w with
  | nil =>
      exact ⟨[], (World.Keeps.refl w).feeds b, .refl b w, fun n hn => absurd hn List.not_mem_nil⟩
  | cons n ns ih =>
      cases hq : (w.drv.slot ⟨b, n⟩).q with
      | none =>
          have hrun : run exec (transmitSlots b (n :: ns)) w = run exec (transmitSlots b ns) w := by
            rw [transmitSlots, run_bind, run_load, show ((w.drv.board b).hydra n).q = none from hq]
          obtain ⟨xs, hf, hy, ht⟩ := ih hl
          rw [hrun]
          refine ⟨xs, hf, hy, fun m hm q' hq' => ?_⟩
          rcases List.mem_cons.mp hm with rfl | hm
          · exact absurd (hq.symm.trans hq') (Option.some_ne_none _).symm
          · exact ht m hm q' hq'
      | some q =>
          have hslot : ((w.drv.board b).hydra n).q = some q := hq
          cases hw : w.wq q with
          | nil =>
              have hrun :
                  run exec (transmitSlots b (n :: ns)) w = run exec (transmitSlots b ns) w := by
                rw [transmitSlots, run_bind, run_load, hslot]
                simp only [run_bind, run_getq, hw, List.head?_nil, List.tail_nil]
                rw [← hw, World.setWq_eq_self]
              obtain ⟨xs, hf, hy, ht⟩ := ih hl
              rw [hrun]
              refine ⟨xs, hf, hy, fun m hm q' hq' hne => ?_⟩
              rcases List.mem_cons.mp hm with rfl | hm
              · rw [hq, Option.some.injEq] at hq'
                exact absurd (hq' ▸ hw) hne
              · exact ht m hm q' hq' hne
          | cons mp ms =>
              cases ht : (w.nic b).txp with
              | true =>
                  obtain ⟨w', hx, hf, hy⟩ := hydraxmit_putBack hl hq hw ht
                  have hrun : run exec (transmitSlots b (n :: ns)) w =
                      run exec (putbq q mp) w' := by
                    rw [transmitSlots, run_bind, run_load, hslot]
                    simp [hw, hx]
                  rw [hrun]
                  exact ⟨[], hf, hy, fun _ _ _ _ _ => hf.txp ht⟩
              | false =>
                  obtain ⟨w', hx, htxp, hf, hy⟩ := hydraxmit_sends hl hq hw ht
                  have hrun : run exec (transmitSlots b (n :: ns)) w =
                      run exec (transmitSlots b ns) w' := by
                    rw [transmitSlots, run_bind, run_load, hslot]
                    simp [hw, hx]
                  obtain ⟨xs, hf', hy', -⟩ := ih (hl.congr hf.toSameStreams)
                  rw [hrun]
                  exact ⟨_, hf.trans hf', hy.trans hy', fun _ _ _ _ _ => hf'.txp htxp⟩

/-! ### Acknowledging interrupts -/

/-- The world in which some interrupts of a board have been acknowledged. -/
def World.ack (b : BoardId) (a : Byte) (w : World) : World :=
  w.setNic b { w.nic b with isr := (w.nic b).isr &&& ~~~a }

theorem World.ack_zero (w : World) (b : BoardId) : w.ack b 0 = w := by
  have hisr : (w.nic b).isr &&& ~~~(0 : Byte) = (w.nic b).isr := BitVec.and_allOnes
  rw [World.ack, hisr]
  exact w.setNic_eq_self b

theorem World.Keeps.ack (h : w₁.Keeps w₂) (b : BoardId) (a : Byte) :
    (w₁.ack b a).Keeps (w₂.ack b a) :=
  { h with
    nic := fun c => by
      by_cases hc : c = b
      · subst hc
        simp only [World.ack, World.setNic_self]
        exact ⟨(h.nic c).cmd, (h.nic c).txp, congrArg (· &&& ~~~a) (h.nic c).isr, (h.nic c).sent⟩
      · simp only [World.ack, World.setNic_of_ne _ _ _ hc]
        exact h.nic c }

theorem World.ack_feeds (w : World) (b : BoardId) (a : Byte) : World.Feeds b a [] w (w.ack b a) :=
  w.feeds_setNic b id rfl rfl rfl

theorem World.Keeps.ack_feeds {a : Byte} (h : (w₁.ack b a).Keeps w₂) :
    World.Feeds b a [] w₁ w₂ := by
  have hf := (w₁.ack_feeds b a).trans (h.feeds b)
  have ha : a ||| (0 : Byte) = a := BitVec.or_zero
  rwa [ha] at hf

theorem World.Keeps.ack_types {a : Byte} (h : (w₁.ack b a).Keeps w₂)
    (hs : w₂.drv.slot = w₁.drv.slot) : World.Types b [] w₁ w₂ :=
  (w₁.types_setNic b rfl : World.Types b [] w₁ (w₁.ack b a)).trans (h.types hs b)

/-- The write that acknowledges interrupts, with register page 0 selected. -/
theorem outb_isr_run (hp : (w.nic b).page = 0) (a : Byte) :
    run exec (hydraOutb b NE_ISR a) w = ((), w.ack b a) := by
  rw [hydraOutb_run, Nic.outb_isr _ _ hp]
  rfl

theorem page_of_cmd {n : Nic} (h : n.cmd = 0x22#8) : n.page = 0 := by
  simp [Nic.page, h]

theorem receiveEvents_acks (h : (w.nic b).cmd = 0x22#8) (status : Byte) :
    (w.ack b (status &&& ISR_RX)).Keeps (run exec (receiveEvents b status) w).2 := by
  rw [receiveEvents, run_ite]
  by_cases hs : status &&& ISR_RX = 0
  · rw [if_neg (not_not.mpr hs), hs, World.ack_zero]
    exact .refl w
  rw [if_pos hs, run_bind, run_bind]
  generalize hr₁ : run exec (modifyStatus b _) w = r₁
  have h₁ : w.Keeps r₁.2 := by
    rw [← hr₁]
    refine keeps_of_aside (modifyStatus_aside b ?_) w
    exact fun _ => rfl
  generalize hr₂ : run exec (modifyIfstats b _) r₁.2 = r₂
  have h₂ : w.Keeps r₂.2 := h₁.trans (hr₂ ▸ keeps_of_aside (modifyIfstats_aside b _) r₁.2)
  have hcmd : (r₂.2.nic b).cmd = 0x22#8 := (h₂.nic b).cmd.trans h
  rw [run_bind, outb_isr_run (page_of_cmd hcmd), run_ite]
  refine (h₂.ack b _).trans ?_
  split_ifs
  · refine receiveInterrupt_keeps ?_
    rwa [World.ack, World.setNic_self]
  · exact .refl _

/-- A single bit of a status. -/
theorem bit_of_ne_zero {status bit : Byte}
    (hb : bit = NE_ISR_PTX ∨ bit = NE_ISR_TXE ∨ bit = NE_ISR_CNT)
    (h : status &&& bit ≠ 0) : status &&& bit = bit := by
  have hall : ∀ s : Byte, (s &&& 0x02#8 ≠ 0 → s &&& 0x02#8 = 0x02#8) ∧
      (s &&& 0x08#8 ≠ 0 → s &&& 0x08#8 = 0x08#8) ∧ (s &&& 0x20#8 ≠ 0 → s &&& 0x20#8 = 0x20#8) := by
    decide +kernel
  rcases hb with rfl | rfl | rfl
  · exact (hall status).1 h
  · exact (hall status).2.1 h
  · exact (hall status).2.2 h

theorem transmitError_acks (h : (w.nic b).page = 0) (status : Byte) :
    (w.ack b (status &&& NE_ISR_TXE)).Keeps (run exec (transmitError b status) w).2 := by
  rw [transmitError, run_ite]
  by_cases hs : status &&& NE_ISR_TXE = 0
  · rw [if_neg (not_not.mpr hs), hs, World.ack_zero]
    exact .refl w
  rw [if_pos hs, bit_of_ne_zero (by simp) hs, run_bind, outb_isr_run h]
  refine keeps_of_aside ?_ _
  refine .bind (.perform trivial) fun tsr => ?_
  exact .bind (modifyStatus_aside b fun _ => rfl) fun _ => modifyIfstats_aside b _

theorem counterOverflow_acks (h : (w.nic b).page = 0) (status : Byte) :
    (w.ack b (status &&& NE_ISR_CNT)).Keeps (run exec (counterOverflow b status) w).2 := by
  rw [counterOverflow, run_ite]
  by_cases hs : status &&& NE_ISR_CNT = 0
  · rw [if_neg (not_not.mpr hs), hs, World.ack_zero]
    exact .refl w
  rw [if_pos hs, bit_of_ne_zero (by simp) hs, run_bind, outb_isr_run h]
  refine keeps_of_aside ?_ _
  exact .bind (.perform trivial) fun n => modifyStatus_aside b fun _ => rfl

theorem transmitDone_feeds (hl : w.Linked b) (h : (w.nic b).page = 0) (status : Byte) :
    ∃ xs, World.Feeds b (status &&& NE_ISR_PTX) xs w (run exec (transmitDone b status) w).2 ∧
      World.Types b xs w (run exec (transmitDone b status) w).2 ∧
      (status &&& NE_ISR_PTX = 0 → (run exec (transmitDone b status) w).2 = w) ∧
      (status &&& NE_ISR_PTX ≠ 0 → ∀ n q, (w.drv.slot ⟨b, n⟩).q = some q → w.wq q ≠ [] →
        ((run exec (transmitDone b status) w).2.nic b).txp = true) := by
  rw [transmitDone, run_ite]
  by_cases hs : status &&& NE_ISR_PTX = 0
  · rw [if_neg (not_not.mpr hs), hs]
    exact ⟨[], (World.Keeps.refl w).feeds b, .refl b w, fun _ => rfl, fun hne => absurd rfl hne⟩
  rw [if_pos hs, bit_of_ne_zero (by simp) hs, run_bind, outb_isr_run h]
  have hf := w.ack_feeds b NE_ISR_PTX
  have hy : World.Types b [] w (w.ack b NE_ISR_PTX) := w.types_setNic b rfl
  obtain ⟨xs, hf', hy', ht⟩ :=
    transmitSlots_feeds (hl.congr hf.toSameStreams) (List.finRange HYDRA_MAXDEV)
  have hb : NE_ISR_PTX ||| 0 = NE_ISR_PTX := by decide
  refine ⟨xs, hb ▸ hf.trans hf', hy.trans hy', fun hz => absurd hz (by decide),
    fun _ n q hq hne => ?_⟩
  exact ht n (List.mem_finRange n) q hq hne

/-- The acknowledged bits together are all that can be pending. -/
theorem acked_all (status : Byte) (h : status &&& 0xc0#8 = 0) :
    status &&& ~~~((status &&& ISR_RX ||| status &&& NE_ISR_PTX) |||
      (status &&& NE_ISR_TXE ||| status &&& NE_ISR_CNT)) = 0 := by
  have hall : ∀ s : Byte, s &&& 0xc0#8 = 0 → s &&& ~~~((s &&& 0x15#8 ||| s &&& 0x02#8) |||
      (s &&& 0x08#8 ||| s &&& 0x20#8)) = 0 := by decide +kernel
  exact hall status h

/-- Serving one board: its pending interrupts are acknowledged; when one of
them is the end of a transmission and a message is waiting, the transmitter is
busy afterwards; when none is, nothing is transmitted. -/
theorem hydraintrBoard_feeds (hl : w.Linked b)
    (hrun : (w.drv.board b).status.boardState = .HYDRA_BOARD_RUNNING)
    (hbase : (w.drv.board b).info.nicBase ≠ 0) (hisr : (w.nic b).isr &&& 0xc0#8 = 0) :
    ∃ xs ack, World.Feeds b ack xs w (run exec (hydraintrBoard b) w).2 ∧
      World.Types b xs w (run exec (hydraintrBoard b) w).2 ∧
      ((run exec (hydraintrBoard b) w).2.nic b).isr = 0 ∧
      ((w.nic b).isr &&& NE_ISR_PTX = 0 → (run exec (hydraintrBoard b) w).2.wq = w.wq ∧
        ((run exec (hydraintrBoard b) w).2.nic b).txp = (w.nic b).txp) ∧
      ((w.nic b).isr &&& NE_ISR_PTX ≠ 0 → ∀ n q, (w.drv.slot ⟨b, n⟩).q = some q → w.wq q ≠ [] →
        ((run exec (hydraintrBoard b) w).2.nic b).txp = true) := by
  generalize hstatus : (w.nic b).isr = status at hisr
  have hcr : (w.nic b).outb NE_CR (NE_CR_P0 ||| NE_CR_STA ||| NE_CR_RDMA_ABORT) =
      { w.nic b with cmd := 0x22#8 } := Nic.outb_command _ (by decide)
  have hf₀ : World.Feeds b 0 [] w (w.setNic b { w.nic b with cmd := 0x22#8 }) :=
    w.feeds_setNic b (fun _ => by simp [Nic.page]) BitVec.and_allOnes.symm rfl rfl
  have hy₀ : World.Types b [] w (w.setNic b { w.nic b with cmd := 0x22#8 }) :=
    w.types_setNic b rfl
  have hin : ({ w.nic b with cmd := 0x22#8 } : Nic).inb NE_ISR = status := by
    rw [Nic.inb_isr _ (by simp [Nic.page]), hstatus]
  have hrun₀ : run exec (hydraintrBoard b) w = if status = 0
      then ((), w.setNic b { w.nic b with cmd := 0x22#8 })
      else run exec (do
        receiveEvents b status
        transmitDone b status
        transmitError b status
        counterOverflow b status) (w.setNic b { w.nic b with cmd := 0x22#8 }) := by
    simp only [hydraintrBoard, run_bind, run_load, run_ite]
    rw [if_pos ⟨hrun, hbase⟩]
    simp only [hydraOutb_run, hydraInb_run, hcr, World.setNic_self, hin, run_pure]
  generalize hw₀ : w.setNic b { w.nic b with cmd := 0x22#8 } = w₀ at hf₀ hy₀ hrun₀
  have hwq₀ : w₀.wq = w.wq := hw₀ ▸ rfl
  have hcmd₀ : (w₀.nic b).cmd = 0x22#8 ∧ (w₀.nic b).txp = (w.nic b).txp ∧
      (w₀.nic b).isr = status := by
    rw [← hw₀, World.setNic_self]
    exact ⟨rfl, rfl, hstatus⟩
  rw [hrun₀]
  by_cases hs : status = 0
  · rw [if_pos hs]
    exact ⟨[], 0, hf₀, hy₀, hcmd₀.2.2.trans hs, fun _ => ⟨hwq₀, hcmd₀.2.1⟩,
      fun hne => absurd (by rw [hs]; rfl) hne⟩
  rw [if_neg hs, run_bind, run_bind, run_bind]
  have h₁ := receiveEvents_acks hcmd₀.1 status
  have hy₁ := h₁.ack_types (slot_of_kept (receiveEvents_slots b status) w₀)
  generalize (run exec (receiveEvents b status) w₀).2 = w₁ at h₁ hy₁
  have hf₁ := hf₀.trans h₁.ack_feeds
  have hp₁ := h₁.ack_feeds.page (page_of_cmd hcmd₀.1)
  obtain ⟨xs, hf₂, hy₂, hz, ht⟩ := transmitDone_feeds (hl.congr hf₁.toSameStreams) hp₁ status
  generalize (run exec (transmitDone b status) w₁).2 = w₂ at hf₂ hy₂ hz ht
  have h₃ := transmitError_acks (hf₂.page hp₁) status
  have hy₃ := h₃.ack_types (slot_of_kept (transmitError_slots b status) w₂)
  generalize (run exec (transmitError b status) w₂).2 = w₃ at h₃ hy₃
  have h₄ := counterOverflow_acks (h₃.ack_feeds.page (hf₂.page hp₁)) status
  have hy₄ := h₄.ack_types (slot_of_kept (counterOverflow_slots b status) w₃)
  generalize (run exec (counterOverflow b status) w₃).2 = w₄ at h₄ hy₄
  have hf := (hf₁.trans hf₂).trans (h₃.ack_feeds.trans h₄.ack_feeds)
  have hy := ((hy₀.trans hy₁).trans hy₂).trans (hy₃.trans hy₄)
  refine ⟨_, _, hf, hy, ?_, fun hptx => ?_, fun hptx n q hq hne => ?_⟩
  · have hzero : (0 : Byte) ||| status &&& ISR_RX = status &&& ISR_RX := BitVec.zero_or
    rw [hf.isr, hstatus, hzero]
    exact acked_all status hisr
  · have h₁₂ := hz hptx
    have htxp : ∀ {a : Byte} {v v' : World}, (v.ack b a).Keeps v' →
        (v'.nic b).txp = (v.nic b).txp :=
      fun h => (h.nic b).txp.trans (by rw [World.ack, World.setNic_self])
    refine ⟨h₄.wq.trans (h₃.wq.trans ((congrArg World.wq h₁₂).trans (h₁.wq.trans hwq₀))), ?_⟩
    rw [htxp h₄, htxp h₃, h₁₂, htxp h₁, hcmd₀.2.1]
  · refine h₄.ack_feeds.txp (h₃.ack_feeds.txp (ht hptx n q ?_ ?_))
    · exact ((hf₁.drv b).q n).trans hq
    · rwa [h₁.wq, World.ack, World.setNic_wq, hwq₀]

/-! ### All boards -/

/-- Messages have gone from the queues to the wires, `out b` on that of `b`. -/
structure World.Moves (out : BoardId → List (QId × Msg)) (w w' : World) : Prop
    extends w.SameStreams w' where
  sent : ∀ b, ∃ frames, (w'.nic b).sent = (w.nic b).sent ++ frames ∧ CarriesAll (out b) frames
  owner : ∀ b, ∀ x ∈ out b, ∃ n, w.rptr x.1 = some ⟨b, n⟩
  queue : ∀ q t, w.rptr q = some t → w.wq q = ofStream q (out t.board) ++ w'.wq q

theorem World.Keeps.moves (h : w₁.Keeps w₂) : World.Moves (fun _ => []) w₁ w₂ where
  toSameStreams := h.toSameStreams
  sent b := ⟨[], by rw [(h.nic b).sent, List.append_nil], .nil⟩
  owner _ _ hx := absurd hx List.not_mem_nil
  queue _ _ _ := by rw [h.wq]; rfl

theorem World.Moves.trans {out out' : BoardId → List (QId × Msg)} (h : World.Moves out w₁ w₂)
    (h' : World.Moves out' w₂ w₃) : World.Moves (fun b => out b ++ out' b) w₁ w₃ where
  toSameStreams := h.toSameStreams.trans h'.toSameStreams
  sent b := by
    obtain ⟨fs, hs, hc⟩ := h.sent b
    obtain ⟨gs, hs', hc'⟩ := h'.sent b
    exact ⟨fs ++ gs, by rw [hs', hs, List.append_assoc], hc.append hc'⟩
  owner b x hx := by
    rcases List.mem_append.mp hx with hx | hx
    · exact h.owner b x hx
    · rw [← h.rptr]
      exact h'.owner b x hx
  queue q t hq := by
    rw [h.queue q t hq, h'.queue q t (by rwa [h.rptr]), ofStream_append, List.append_assoc]

/-- The slots stay the same, and the frames of all boards carry the SAPs in them. -/
structure World.MovesTyped (out : BoardId → List (QId × Msg)) (w w' : World) : Prop where
  slot : w'.drv.slot = w.drv.slot
  sent : ∀ b, ∃ frames, (w'.nic b).sent = (w.nic b).sent ++ frames ∧
    List.Forall₂ w.Typed (out b) frames

theorem World.MovesTyped.trans {out out' : BoardId → List (QId × Msg)} (hr : w₂.rptr = w₁.rptr)
    (h : World.MovesTyped out w₁ w₂) (h' : World.MovesTyped out' w₂ w₃) :
    World.MovesTyped (fun b => out b ++ out' b) w₁ w₃ where
  slot := h'.slot.trans h.slot
  sent b := by
    obtain ⟨fs, hs, hc⟩ := h.sent b
    obtain ⟨gs, hs', hc'⟩ := h'.sent b
    rw [World.typed_congr hr h.slot] at hc'
    exact ⟨fs ++ gs, by rw [hs', hs, List.append_assoc], List.rel_append hc hc'⟩

theorem World.MovesTyped.carries {out : BoardId → List (QId × Msg)}
    (h : World.MovesTyped out w₁ w₂) (b : BoardId) :
    ∃ frames, (w₂.nic b).sent = (w₁.nic b).sent ++ frames ∧ CarriesAll (out b) frames := by
  obtain ⟨fs, hs, hc⟩ := h.sent b
  exact ⟨fs, hs, hc.imp fun _ _ hx => hx.1⟩

theorem World.Types.moves {xs : List (QId × Msg)} (h : World.Types b xs w₁ w₂)
    (ho : ∀ c, c ≠ b → (w₁.nic c).SameTx (w₂.nic c)) :
    World.MovesTyped (fun c => if c = b then xs else []) w₁ w₂ where
  slot := h.slot
  sent c := by
    by_cases hc : c = b
    · rw [if_pos hc, hc]
      exact h.sent
    · rw [if_neg hc]
      exact ⟨[], by rw [(ho c hc).sent, List.append_nil], .nil⟩

theorem World.MovesTyped.of_keeps (h : w₁.Keeps w₂) (hs : w₂.drv.slot = w₁.drv.slot) :
    World.MovesTyped (fun _ => []) w₁ w₂ :=
  ⟨hs, fun b => ⟨[], by rw [(h.nic b).sent, List.append_nil], .nil⟩⟩

/-- Serving a board leaves the queues of the other boards' streams. -/
theorem World.Feeds.other_queue {a : Byte} {xs : List (QId × Msg)} (h : World.Feeds b a xs w₁ w₂)
    {q : QId} {t : Slot} (hq : w₁.rptr q = some t) (ht : t.board ≠ b) : w₂.wq q = w₁.wq q := by
  rw [h.queue q, ofStream_eq_nil, List.nil_append]
  intro x hx he
  obtain ⟨n, hn⟩ := h.owner x hx
  rw [he, hq, Option.some.injEq] at hn
  exact ht (congrArg Slot.board hn)

theorem World.Feeds.moves {a : Byte} {xs : List (QId × Msg)} (h : World.Feeds b a xs w₁ w₂) :
    World.Moves (fun c => if c = b then xs else []) w₁ w₂ where
  toSameStreams := h.toSameStreams
  sent c := by
    by_cases hc : c = b
    · rw [if_pos hc, hc]
      exact h.sent
    · rw [if_neg hc]
      exact ⟨[], by rw [(h.other c hc).sent, List.append_nil], .nil⟩
  owner c x hx := by
    by_cases hc : c = b
    · rw [if_pos hc] at hx
      rw [hc]
      exact h.owner x hx
    · rw [if_neg hc] at hx
      exact absurd hx List.not_mem_nil
  queue q t hq := by
    by_cases ht : t.board = b
    · rw [if_pos ht]
      exact h.queue q
    · rw [if_neg ht, h.other_queue hq ht]
      rfl

/-- What the handler does for a board: nothing stays pending; if the end of a
transmission was, whatever was waiting keeps the transmitter busy, and if not,
queues and transmitter are left alone. -/
structure World.Handled (b : BoardId) (w w' : World) : Prop where
  isr : (w'.nic b).isr = 0
  idle : (w.nic b).isr &&& NE_ISR_PTX = 0 → (w'.nic b).txp = (w.nic b).txp ∧
    ∀ q n, w.rptr q = some ⟨b, n⟩ → w'.wq q = w.wq q
  done : (w.nic b).isr &&& NE_ISR_PTX ≠ 0 →
    ∀ q n, w.rptr q = some ⟨b, n⟩ → w.wq q ≠ [] → (w'.nic b).txp = true

/-- A board the handler serves. -/
structure World.Served (b : BoardId) (w : World) : Prop extends w.Linked b where
  nicBase : (w.drv.board b).info.nicBase ≠ 0
  isr : (w.nic b).isr &&& 0xc0#8 = 0

def World.Running (b : BoardId) (w : World) : Prop :=
  (w.drv.board b).status.boardState = .HYDRA_BOARD_RUNNING

theorem World.Served.congr (h : w₁.Served b) (hs : w₁.SameStreams w₂)
    (hi : (w₂.nic b).isr &&& 0xc0#8 = 0) : w₂.Served b :=
  { h.toLinked.congr hs with
    nicBase := (hs.drv b).nicBase ▸ h.nicBase
    isr := hi }

theorem World.Running.congr (hs : w₁.SameStreams w₂) : w₂.Running b ↔ w₁.Running b := by
  rw [World.Running, (hs.drv b).state]
  rfl

/-- One board of the loop. -/
theorem hydraintrBoard_handled (hs : w.Running b → w.Served b) :
    ∃ xs ack, World.Feeds b ack xs w (run exec (hydraintrBoard b) w).2 ∧
      World.Types b xs w (run exec (hydraintrBoard b) w).2 ∧
      (w.Running b → World.Handled b w (run exec (hydraintrBoard b) w).2) := by
  by_cases hr : w.Running b
  · have h := hs hr
    obtain ⟨xs, ack, hf, hy, hisr, hidle, hdone⟩ :=
      hydraintrBoard_feeds h.toLinked hr h.nicBase h.isr
    refine ⟨xs, ack, hf, hy, fun _ => ⟨hisr, fun hz => ?_, fun hne q n hq => ?_⟩⟩
    · exact ⟨(hidle hz).2, fun q n _ => congrFun (hidle hz).1 q⟩
    · exact hdone hne n q ((h.ptr n q).mpr hq)
  · have hrun : run exec (hydraintrBoard b) w = ((), w) := by
      rw [hydraintrBoard, run_bind, run_load]
      dsimp only
      rw [if_neg fun hc => hr hc.1, run_pure]
    rw [hrun]
    exact ⟨[], 0, (World.Keeps.refl w).feeds b, .refl b w, fun h => absurd h hr⟩

theorem hydraintrBoards_moves (bs : List BoardId) (hbs : bs.Nodup)
    (hs : ∀ b, w.Running b → w.Served b) :
    ∃ out, World.Moves out w (run exec (hydraintrBoards bs) w).2 ∧
      World.MovesTyped out w (run exec (hydraintrBoards bs) w).2 ∧
      (∀ b ∈ bs, w.Running b → World.Handled b w (run exec (hydraintrBoards bs) w).2) ∧
      ∀ b ∉ bs, (w.nic b).SameTx ((run exec (hydraintrBoards bs) w).2.nic b) ∧ out b = [] := by
  induction bs generalizing w with
  | nil =>
      exact ⟨_, (World.Keeps.refl w).moves, .of_keeps (.refl w) rfl,
        fun b hb => absurd hb List.not_mem_nil, fun b _ => ⟨⟨rfl, rfl, rfl, rfl⟩, rfl⟩⟩
  | cons a bs ih =>
      obtain ⟨ha, hbs'⟩ := List.nodup_cons.mp hbs
      obtain ⟨xs, ack, hf, hy, hh⟩ := hydraintrBoard_handled (hs a)
      rw [hydraintrBoards, run_bind]
      generalize (run exec (hydraintrBoard a) w).2 = w₁ at hf hy hh
      have hrun : ∀ b, w₁.Running b ↔ w.Running b := fun b => World.Running.congr hf.toSameStreams
      have hs₁ : ∀ b, w₁.Running b → w₁.Served b := fun b hr => by
        have h := hs b ((hrun b).mp hr)
        refine h.congr hf.toSameStreams ?_
        by_cases hb : b = a
        · subst hb
          rw [(hh ((hrun b).mp hr)).isr]
          rfl
        · rw [(hf.other b hb).isr]
          exact h.isr
      obtain ⟨out, hm, hy', hin, hout⟩ := ih hbs' hs₁
      generalize (run exec (hydraintrBoards bs) w₁).2 = w₂ at hm hy' hin hout
      refine ⟨_, hf.moves.trans hm, (hy.moves hf.other).trans hf.rptr hy', fun b hb hr => ?_,
        fun b hb => ?_⟩
      · by_cases hba : b = a
        · subst hba
          obtain ⟨hsame, hnil⟩ := hout b ha
          have hq : ∀ q n, w₁.rptr q = some ⟨b, n⟩ → w₂.wq q = w₁.wq q := fun q n hq => by
            rw [hm.queue q _ hq, hnil]
            rfl
          refine ⟨hsame.isr.trans (hh hr).isr, fun hz => ?_, fun hne q n hp hw => ?_⟩
          · obtain ⟨ht, hw⟩ := (hh hr).idle hz
            refine ⟨hsame.txp.trans ht, fun q n hp => (hq q n ?_).trans (hw q n hp)⟩
            rwa [hf.rptr]
          · exact hsame.txp.trans ((hh hr).done hne q n hp hw)
        · have h := hin b (List.mem_of_ne_of_mem hba hb) ((hrun b).mpr hr)
          have ho := hf.other b hba
          have hq : ∀ q n, w.rptr q = some ⟨b, n⟩ → w₁.wq q = w.wq q :=
            fun q n hp => hf.other_queue hp hba
          refine ⟨h.isr, fun hz => ?_, fun hne q n hp hw => ?_⟩
          · obtain ⟨ht, hw⟩ := h.idle (by rwa [ho.isr])
            refine ⟨ht.trans ho.txp, fun q n hp => (hw q n ?_).trans (hq q n hp)⟩
            rwa [hf.rptr]
          · refine h.done (by rwa [ho.isr]) q n ?_ ?_
            · rwa [hf.rptr]
            · rwa [hq q n hp]
      · obtain ⟨hba, hbs⟩ := not_or.mp (mt List.mem_cons.mpr hb)
        obtain ⟨hsame, hnil⟩ := hout b hbs
        exact ⟨(hf.other b hba).trans hsame, by simp [hba, hnil]⟩

/-- A call of the interrupt handler outside a panic. -/
theorem hydraintr_moves (hp : w.panicstr = false) (hs : ∀ b, w.Running b → w.Served b) :
    ∃ out, World.Moves out w (run exec hydraintr w).2 ∧
      World.MovesTyped out w (run exec hydraintr w).2 ∧
      ∀ b, w.Running b → World.Handled b w (run exec hydraintr w).2 := by
  have hrun : run exec hydraintr w =
      run exec (hydraintrBoards (List.finRange HYDRA_MAXBOARDS)) w := by
    rw [hydraintr, run_bind, run_panicking, run_ite, if_neg (by simp [hp])]
  obtain ⟨out, hm, hy, hin, -⟩ :=
    hydraintrBoards_moves _ (List.nodup_finRange HYDRA_MAXBOARDS) hs
  rw [hrun]
  exact ⟨out, hm, hy, fun b => hin b (List.mem_finRange b)⟩

end
end HydraAmix.Hydra
