import HydraAmix.Serial.Parallel

/-!
# What becomes of the bytes written to the parallel port

A byte that was taken is on the port, pending, queued, or in its writer's hands. Two
paths lose one: a writer that finds P_OUTERR drops the byte it has just taken, and an
acknowledgement that comes while the control lines stop the pending byte passes it over.
The order is that of the bytes' removal unless a writer hands a byte on while another one
still has an earlier byte in hand.
-/
namespace HydraAmix.Serial
open Schedule

namespace Par

def pending (s : Par) : List Taken := if s.outpend then [s.currentbyte] else []

/-- The bytes that were put on the port, the one that is pending, and those queued. -/
def onward (s : Par) : List Taken := s.port ++ s.pending ++ s.outq

/-- The process has a byte in hand. -/
def Holds (s : Par) (p : Pid) (t : Taken) : Prop := ∃ rest fsync, s.ctl p = .holding t rest fsync

/-- A byte that was removed is sent, pending or queued, or its writer still has it in
hand; so a writer that has returned has removed no others. -/
def Kept (s : Par) : Prop := ∀ t ∈ s.removed, t ∈ s.onward ∨ s.Holds t.owner t

/-- The bytes go on in the order in which they were removed. -/
def InOrder (s : Par) : Prop := s.onward.Pairwise fun t u => t.no ≤ u.no

/-- A process that is awake takes a byte, or has one in hand. -/
def Carries (s : Par) (p : Pid) (t : Taken) : Prop :=
  s.asleep p = false ∧
    (s.Holds p t ∨ ∃ ch rest fsync, s.ctl p = .writing (ch :: rest) fsync ∧ t = s.next p ch)

/-- No writer finds an error with a byte in hand, and no acknowledgement comes for a byte
that was never put on the port. -/
def Careful (s : Par) : ParEvent → Prop
  | .run p => s.outerr = true → ∀ t, ¬s.Carries p t
  | .parintr => s.outpend = true → s.currentbyte ∈ s.port
  | _ => True

/-- Nobody hands a byte on while another writer has an earlier one in hand. -/
def Patient (s : Par) : ParEvent → Prop
  | .run p => s.outq.length ≤ PAR_HIWAT → ∀ t, s.Carries p t → ∀ q u, q ≠ p → s.Holds q u →
      t.no < u.no
  | _ => True

/-- The timer that runs is that of the pending byte, and bytes wait behind it only. -/
structure Timed (s : Par) : Prop where
  idle : s.outpend = false → s.callouts = [] ∧ s.outq = []
  running : s.outpend = true → ∃ t, s.callouts = [(s.timeout_id, t)] ∧
    ∀ ch, t = .parstart ch → ch = s.currentbyte

/-- Every byte under way is one that was removed, and the places count them. -/
structure Known (s : Par) : Prop where
  onward : ∀ t ∈ s.onward, t ∈ s.removed
  held : ∀ p t, s.Holds p t → t ∈ s.removed ∧ t.owner = p
  no : ∀ t ∈ s.removed, t.no < s.removed.length

structure Inv (s : Par) : Prop where
  timed : s.Timed
  known : s.Known
  kept : s.Kept

/-- The order, with the bytes in hand behind all that went on. -/
structure Ordered (s : Par) : Prop where
  order : s.InOrder
  later : ∀ t ∈ s.onward, ∀ p u, s.Holds p u → t.no < u.no

section
variable {s : Par} {p : Pid} {t : Taken}

/-! ### Starting a byte -/

theorem mem_onward : t ∈ s.onward ↔ t ∈ s.port ∨ (s.outpend = true ∧ t = s.currentbyte) ∨
    t ∈ s.outq := by
  unfold onward pending
  cases s.outpend <;> simp

@[simp] theorem parstart_outpend (s : Par) (ch : Taken) : (s.parstart ch).outpend = true := by
  unfold parstart
  dsimp only
  split <;> rfl

@[simp] theorem parstart_currentbyte (s : Par) (ch : Taken) :
    (s.parstart ch).currentbyte = ch := by
  unfold parstart
  dsimp only
  split <;> rfl

@[simp] theorem parstart_outq (s : Par) (ch : Taken) : (s.parstart ch).outq = s.outq := by
  unfold parstart
  dsimp only
  split <;> rfl

@[simp] theorem parstart_ctl (s : Par) (ch : Taken) : (s.parstart ch).ctl = s.ctl := by
  unfold parstart
  dsimp only
  split <;> rfl

@[simp] theorem parstart_removed (s : Par) (ch : Taken) : (s.parstart ch).removed = s.removed := by
  unfold parstart
  dsimp only
  split <;> rfl

theorem parstart_port (s : Par) (ch : Taken) :
    (s.parstart ch).port = s.port ∨ (s.parstart ch).port = s.port ++ [ch] := by
  unfold parstart
  dsimp only
  split
  · exact .inl rfl
  · exact .inr rfl

theorem parstart_callouts (s : Par) (ch : Taken) : ∃ t, (∀ c, t = .parstart c → c = ch) ∧
    (s.parstart ch).callouts = s.callouts ++ [((s.parstart ch).timeout_id, t)] := by
  unfold parstart
  dsimp only
  split
  · exact ⟨.parstart ch, fun c hc => (ParTimer.parstart.inj hc).symm, rfl⟩
  · exact ⟨.partimeout, fun c hc => absurd hc nofun, rfl⟩

/-- Starting a byte puts it behind those on the port. -/
theorem mem_parstart (s : Par) (ch : Taken) :
    t ∈ (s.parstart ch).onward ↔ t ∈ s.port ∨ t = ch ∨ t ∈ s.outq := by
  rw [mem_onward, parstart_outpend, parstart_currentbyte, parstart_outq]
  rcases s.parstart_port ch with hp | hp
  · rw [hp]
    simp
  · rw [hp, List.mem_append, List.mem_singleton]
    simp only [true_and]
    tauto

theorem parstart_timed (s : Par) (ch : Taken) (h : s.callouts = []) : (s.parstart ch).Timed := by
  obtain ⟨t, ht, hc⟩ := s.parstart_callouts ch
  refine ⟨fun hp => ?_, fun _ => ⟨t, ?_, ?_⟩⟩
  · rw [parstart_outpend] at hp
    exact absurd hp.symm Bool.false_ne_true
  · rw [hc, h, List.nil_append]
  · rw [parstart_currentbyte]
    exact ht

theorem parstart_inOrder (s : Par) (ch : Taken)
    (h : (s.port ++ ch :: s.outq).Pairwise fun t u => t.no ≤ u.no) : (s.parstart ch).InOrder := by
  unfold InOrder onward pending
  rw [parstart_outpend, parstart_currentbyte, parstart_outq, if_pos rfl, List.append_assoc,
    List.singleton_append]
  rcases s.parstart_port ch with hp | hp
  · rw [hp]
    exact h
  · rw [hp, List.append_assoc, List.singleton_append]
    rw [List.pairwise_append] at h ⊢
    refine ⟨h.1, List.pairwise_cons.mpr ⟨fun u hu => ?_, h.2.1⟩, fun t ht u hu => ?_⟩
    · rcases List.mem_cons.mp hu with rfl | hu
      · exact Nat.le_refl _
      · exact (List.pairwise_cons.mp h.2.1).1 u hu
    · rcases List.mem_cons.mp hu with rfl | hu
      · exact h.2.2 t ht u List.mem_cons_self
      · exact h.2.2 t ht u hu

/-! ### Steps that move no byte -/

/-- The bytes and the timer are as they were. -/
structure SameBytes (s s' : Par) : Prop where
  port : s'.port = s.port
  outpend : s'.outpend = s.outpend
  currentbyte : s'.currentbyte = s.currentbyte
  outq : s'.outq = s.outq
  callouts : s'.callouts = s.callouts
  timeout_id : s'.timeout_id = s.timeout_id
  removed : s'.removed = s.removed

variable {s' : Par}

theorem SameBytes.onward (h : s.SameBytes s') : s'.onward = s.onward := by
  unfold Par.onward pending
  rw [h.port, h.outpend, h.currentbyte, h.outq]

theorem SameBytes.timed (h : s.SameBytes s') (ht : s.Timed) : s'.Timed := by
  refine ⟨fun hp => ?_, fun hp => ?_⟩
  · rw [h.callouts, h.outq]
    exact ht.idle (h.outpend ▸ hp)
  · rw [h.callouts, h.timeout_id, h.currentbyte]
    exact ht.running (h.outpend ▸ hp)

theorem wakeWriters_same (s : Par) : s.SameBytes s.wakeWriters ∧ s.wakeWriters.ctl = s.ctl := by
  unfold wakeWriters
  split
  · exact ⟨⟨rfl, rfl, rfl, rfl, rfl, rfl, rfl⟩, rfl⟩
  · exact ⟨⟨rfl, rfl, rfl, rfl, rfl, rfl, rfl⟩, rfl⟩

/-- The places of the bytes are the same, though the port may have a byte again. -/
theorem Inv.congr (h : s.Inv) (ht : s'.Timed) (hr : s'.removed = s.removed)
    (hc : ∀ p t, s'.Holds p t ↔ s.Holds p t) (ho : ∀ t, t ∈ s'.onward ↔ t ∈ s.onward) :
    s'.Inv := by
  refine ⟨ht, ⟨fun t hm => ?_, fun p t hh => ?_, ?_⟩, fun t hm => ?_⟩
  · rw [hr]
    exact h.known.onward t ((ho t).mp hm)
  · rw [hr]
    exact h.known.held p t ((hc p t).mp hh)
  · rw [hr]
    exact h.known.no
  · rw [hr] at hm
    exact (h.kept t hm).imp (ho t).mpr (hc _ t).mpr

theorem Inv.same (h : s.Inv) (hs : s.SameBytes s') (hc : ∀ p t, s'.Holds p t ↔ s.Holds p t) :
    s'.Inv :=
  h.congr (hs.timed h.timed) hs.removed hc fun t => by rw [hs.onward]

theorem Ordered.congr (h : s.Ordered) (hin : s'.InOrder)
    (hc : ∀ p t, s'.Holds p t → s.Holds p t) (ho : ∀ t ∈ s'.onward, t ∈ s.onward) :
    s'.Ordered :=
  ⟨hin, fun t ht p u hu => h.later t (ho t ht) p u (hc p u hu)⟩

theorem Ordered.same (h : s.Ordered) (hs : s.SameBytes s')
    (hc : ∀ p t, s'.Holds p t → s.Holds p t) : s'.Ordered :=
  h.congr (by unfold InOrder; rw [hs.onward]; exact h.order) hc fun t ht => by
    rwa [← hs.onward]

theorem holds_of_ctl (hc : s'.ctl = s.ctl) (p : Pid) (t : Taken) : s'.Holds p t ↔ s.Holds p t := by
  unfold Holds
  rw [hc]

/-! ### Interrupts and timers -/

/-- The pending byte was put on the port, and the next one becomes pending. -/
theorem Inv.parintr (h : s.Inv) (hc : s.outpend = true → s.currentbyte ∈ s.port) :
    s.parintr.Inv := by
  unfold Par.parintr
  split
  next hp =>
    obtain ⟨t, ht, -⟩ := h.timed.running hp
    have hnone : (s.untimeout s.timeout_id).callouts = [] := by
      rw [untimeout, ht]
      simp
    dsimp only
    split
    next ch rest hq =>
      have hq : s.outq = ch :: rest := hq
      refine h.congr (parstart_timed _ ch hnone) (parstart_removed _ ch)
        (holds_of_ctl (parstart_ctl _ ch)) fun t => ?_
      rw [mem_parstart, mem_onward, hq, List.mem_cons]
      exact ⟨fun hm => hm.imp_right .inr, fun hm => hm.elim .inl fun hm => hm.elim
        (fun he => .inl (he.2 ▸ hc hp)) .inr⟩
    next hq =>
      have hq : s.outq = [] := hq
      obtain ⟨hsame, hctl⟩ :=
        ({ s.untimeout s.timeout_id with outpend := false } : Par).wakeWriters_same
      refine h.congr (hsame.timed ⟨fun _ => ⟨hnone, hq⟩, fun hp => absurd hp Bool.false_ne_true⟩)
        hsame.removed (holds_of_ctl hctl) fun t => ?_
      rw [hsame.onward, mem_onward, mem_onward]
      refine ⟨fun hm => hm.imp_right fun hm => ?_, fun hm => hm.elim .inl fun hm => ?_⟩
      · exact hm.elim (fun he => absurd he.1 Bool.false_ne_true) .inr
      · exact hm.elim (fun he => .inl (he.2 ▸ hc hp)) fun hm => .inr (.inr hm)
  next hp => exact h

theorem Ordered.parintr (h : s.Ordered) : s.parintr.Ordered := by
  unfold Par.parintr
  split
  next hp =>
    have hline : s.onward = s.port ++ s.currentbyte :: s.outq := by
      rw [onward, pending, if_pos hp, List.append_assoc, List.singleton_append]
    dsimp only
    split
    next ch rest hq =>
      have hq : s.outq = ch :: rest := hq
      have hsub : (s.port ++ ch :: rest).Sublist s.onward := by
        rw [hline, hq]
        exact List.Sublist.append_left (List.sublist_cons_self _ _) _
      refine h.congr (parstart_inOrder _ ch (h.order.sublist hsub))
        (fun p t => (holds_of_ctl (parstart_ctl _ ch) p t).mp) fun t ht => ?_
      rw [mem_parstart] at ht
      refine hsub.subset ?_
      rw [List.mem_append, List.mem_cons]
      exact ht
    next hq =>
      have hq : s.outq = [] := hq
      obtain ⟨hsame, hctl⟩ :=
        ({ s.untimeout s.timeout_id with outpend := false } : Par).wakeWriters_same
      have hport : ({ s.untimeout s.timeout_id with outpend := false } : Par).onward = s.port := by
        change s.port ++ [] ++ s.outq = s.port
        rw [hq, List.append_nil, List.append_nil]
      have hsub : s.port.Sublist s.onward := by
        rw [hline]
        exact List.sublist_append_left _ _
      refine h.congr ?_ (fun p t => (holds_of_ctl hctl p t).mp) fun t ht => ?_
      · unfold InOrder
        rw [hsame.onward, hport]
        exact h.order.sublist hsub
      · rw [hsame.onward, hport] at ht
        exact hsub.subset ht
  next hp => exact h

/-- The pending byte is started once more, after its timer has run out. -/
theorem restart (h : s.Inv) (hp : s.outpend = true) {id : ℕ} (hs : (s.untimeout id).SameBytes s')
    (hc : s'.ctl = s.ctl) (hnone : (s.untimeout id).callouts = []) :
    (s'.parstart s.currentbyte).Inv ∧ (s.Ordered → (s'.parstart s.currentbyte).Ordered) := by
  have hport : s'.port = s.port := hs.port
  have hq : s'.outq = s.outq := hs.outq
  have hholds := fun p t => holds_of_ctl ((parstart_ctl s' s.currentbyte).trans hc) p t
  have hon : ∀ t, t ∈ (s'.parstart s.currentbyte).onward ↔ t ∈ s.onward := fun t => by
    rw [mem_parstart, mem_onward, hport, hq, hp]
    simp only [true_and]
  refine ⟨h.congr (parstart_timed _ _ (hs.callouts.trans hnone))
    ((parstart_removed _ _).trans hs.removed) hholds hon, fun ho => ?_⟩
  refine ho.congr (parstart_inOrder _ _ ?_) (fun p t => (hholds p t).mp) fun t => (hon t).mp
  rw [hport, hq]
  have hline := ho.order
  rwa [InOrder, onward, pending, if_pos hp, List.append_assoc, List.singleton_append] at hline

theorem Inv.callout (h : s.Inv) (id : ℕ) :
    (s.step (.callout id)).Inv ∧ (s.Ordered → (s.step (.callout id)).Ordered) := by
  have hstay : s.callouts.find? (fun c => c.1 = id) = none →
      (s.step (.callout id)).Inv ∧ (s.Ordered → (s.step (.callout id)).Ordered) := fun hf => by
    rw [step, hf]
    exact ⟨h, fun ho => ho⟩
  cases hp : s.outpend with
  | false =>
      refine hstay ?_
      rw [(h.timed.idle hp).1]
      rfl
  | true =>
      obtain ⟨t, ht, hcur⟩ := h.timed.running hp
      by_cases hid : s.timeout_id = id
      · have hfind : s.callouts.find? (fun c => c.1 = id) = some (s.timeout_id, t) := by
          rw [ht, List.find?_cons_of_pos (by simpa using hid)]
        have hnone : (s.untimeout id).callouts = [] := by
          rw [untimeout, ht, ← hid]
          simp
        have hsame : (s.untimeout id).SameBytes (s.untimeout id) :=
          ⟨rfl, rfl, rfl, rfl, rfl, rfl, rfl⟩
        rw [step, hfind]
        cases t with
        | parstart ch =>
            rw [hcur ch rfl]
            exact restart h hp hsame rfl hnone
        | partimeout =>
            rw [Par.partimeout]
            dsimp only
            split
            · exact restart h hp hsame rfl hnone
            · obtain ⟨hwake, hctl⟩ :=
                ({ s.untimeout id with outerr := true } : Par).wakeWriters_same
              have hcurrent :
                  ({ s.untimeout id with outerr := true } : Par).wakeWriters.currentbyte =
                    s.currentbyte := hwake.currentbyte
              rw [hcurrent]
              exact restart h hp ⟨hwake.port, hwake.outpend, hwake.currentbyte, hwake.outq,
                hwake.callouts, hwake.timeout_id, hwake.removed⟩ hctl hnone
      · refine hstay ?_
        rw [ht, List.find?_cons_of_neg (by simpa using hid)]
        rfl

/-! ### Writers -/

/-- A process without a byte in hand stays so. -/
theorem holds_setCtl {c : ParCtl} (hno : ∀ t, ¬s.Holds p t)
    (hc : ∀ t rest fsync, c ≠ .holding t rest fsync) (hctl : s'.ctl = Function.update s.ctl p c)
    (q : Pid) (t : Taken) : s'.Holds q t ↔ s.Holds q t := by
  unfold Holds
  rw [hctl]
  by_cases hq : q = p
  · subst hq
    rw [Function.update_self]
    exact iff_of_false (fun ⟨rest, fsync, h⟩ => hc t rest fsync h) (hno t)
  · rw [Function.update_of_ne hq]

theorem drain_same (s : Par) (p : Pid) : ∃ c, (∀ t rest fsync, c ≠ .holding t rest fsync) ∧
    s.SameBytes (s.drain p) ∧ (s.drain p).ctl = Function.update s.ctl p c := by
  unfold drain
  split_ifs
  · exact ⟨.syncing, nofun, ⟨rfl, rfl, rfl, rfl, rfl, rfl, rfl⟩, rfl⟩
  · exact ⟨.out true, nofun, ⟨rfl, rfl, rfl, rfl, rfl, rfl, rfl⟩, rfl⟩
  · exact ⟨.out false, nofun, ⟨rfl, rfl, rfl, rfl, rfl, rfl, rfl⟩, rfl⟩

/-- What a writer that has a byte in hand, and finds no error, does with it: it keeps it and
sleeps, or hands it on. -/
inductive Gives (s : Par) (p : Pid) (t : Taken) : Par → Prop
  | waits (s' : Par) (rest : List (BitVec 8)) (fsync : Bool) (same : s.SameBytes s')
      (ctl : s'.ctl = Function.update s.ctl p (.holding t rest fsync)) : Gives s p t s'
  | queues (s' : Par) (rest : List (BitVec 8)) (fsync : Bool) (room : s.outq.length ≤ PAR_HIWAT)
      (pend : s.outpend = true) (same : ({ s with outq := s.outq ++ [t] } : Par).SameBytes s')
      (ctl : s'.ctl = Function.update s.ctl p (.writing rest fsync)) : Gives s p t s'
  | starts (s' : Par) (rest : List (BitVec 8)) (fsync : Bool) (room : s.outq.length ≤ PAR_HIWAT)
      (idle : s.outpend = false) (same : (s.parstart t).SameBytes s')
      (ctl : s'.ctl = Function.update s.ctl p (.writing rest fsync)) : Gives s p t s'

theorem give_gives (s : Par) (p : Pid) (t : Taken) (rest : List (BitVec 8)) (fsync : Bool)
    (he : s.outerr = false) : Gives s p t (s.give p t rest fsync) := by
  unfold give
  by_cases hroom : PAR_HIWAT < s.outq.length
  · rw [if_pos ⟨he, hroom⟩]
    exact .waits _ rest fsync ⟨rfl, rfl, rfl, rfl, rfl, rfl, rfl⟩ rfl
  · rw [if_neg fun hc => hroom hc.2, he, if_neg Bool.false_ne_true]
    cases hp : s.outpend with
    | true =>
        rw [if_pos rfl]
        exact .queues _ rest fsync (Nat.le_of_not_lt hroom) hp
          ⟨rfl, hp.symm, rfl, rfl, rfl, rfl, rfl⟩ rfl
    | false =>
        rw [if_neg Bool.false_ne_true]
        refine .starts _ rest fsync (Nat.le_of_not_lt hroom) hp
          ⟨rfl, rfl, rfl, rfl, rfl, rfl, rfl⟩ ?_
        rw [setCtl, parstart_ctl]

/-- The invariant of a moment in which a writer has taken a byte and not handed it on. -/
structure InHand (s : Par) (p : Pid) (t : Taken) : Prop where
  timed : s.Timed
  onward : ∀ u ∈ s.onward, u ∈ s.removed
  held : ∀ q u, q ≠ p → s.Holds q u → u ∈ s.removed ∧ u.owner = q
  no : ∀ u ∈ s.removed, u.no < s.removed.length
  hand : t ∈ s.removed ∧ t.owner = p
  kept : ∀ u ∈ s.removed, u ∈ s.onward ∨ u = t ∨ u.owner ≠ p ∧ s.Holds u.owner u

/-- The byte in hand is behind those that went on, and before those of other writers
where it is handed on now. -/
structure HandOrdered (s : Par) (p : Pid) (t : Taken) : Prop where
  order : s.InOrder
  behind : ∀ u ∈ s.onward, u.no < t.no
  later : ∀ u ∈ s.onward, ∀ q v, q ≠ p → s.Holds q v → u.no < v.no
  first : s.outq.length ≤ PAR_HIWAT → ∀ q v, q ≠ p → s.Holds q v → t.no < v.no

theorem Inv.inHand_holding (h : s.Inv) (ht : s.Holds p t) : s.InHand p t := by
  refine ⟨h.timed, h.known.onward, fun q u _ => h.known.held q u, h.known.no, h.known.held p t ht,
    fun u hu => (h.kept u hu).imp_right fun hh => ?_⟩
  by_cases ho : u.owner = p
  · obtain ⟨rest, fsync, hc⟩ := ht
    obtain ⟨rest', fsync', hc'⟩ := ho ▸ hh
    exact .inl (ParCtl.holding.inj (hc'.symm.trans hc)).1
  · exact .inr ⟨ho, hh⟩

theorem Inv.inHand_next (h : s.Inv) (hno : ∀ t, ¬s.Holds p t) (ch : BitVec 8) :
    InHand { s with removed := s.removed ++ [s.next p ch] } p (s.next p ch) := by
  have hlen : (s.removed ++ [s.next p ch]).length = s.removed.length + 1 := by simp
  refine ⟨⟨h.timed.idle, h.timed.running⟩, fun u hu => ?_, fun q u _ hh => ?_, fun u hu => ?_,
    ⟨List.mem_append_right _ (List.mem_singleton_self _), rfl⟩, fun u hu => ?_⟩
  · exact List.mem_append_left _ (h.known.onward u hu)
  · obtain ⟨hm, ho⟩ := h.known.held q u hh
    exact ⟨List.mem_append_left _ hm, ho⟩
  · change u.no < (s.removed ++ [s.next p ch]).length
    rw [hlen]
    rcases List.mem_append.mp hu with hu | hu
    · exact Nat.lt_succ_of_lt (h.known.no u hu)
    · rw [List.mem_singleton.mp hu]
      exact Nat.lt_succ_self _
  · rcases List.mem_append.mp hu with hu | hu
    · refine (h.kept u hu).imp_right fun hh => .inr ⟨fun ho => ?_, hh⟩
      exact hno u (ho ▸ hh)
    · exact .inr (.inl (List.mem_singleton.mp hu))

/-- Who has a byte in hand after a writer has gone on. -/
theorem holds_update {c : ParCtl} (hctl : s'.ctl = Function.update s.ctl p c) (q : Pid)
    (u : Taken) : s'.Holds q u ↔
      (q = p ∧ ∃ rest fsync, c = .holding u rest fsync) ∨ (q ≠ p ∧ s.Holds q u) := by
  unfold Holds
  rw [hctl]
  by_cases hq : q = p
  · subst hq
    rw [Function.update_self]
    exact ⟨fun h => .inl ⟨rfl, h⟩, fun h => h.elim (fun h => h.2) fun h => absurd rfl h.1⟩
  · rw [Function.update_of_ne hq]
    exact ⟨fun h => .inr ⟨hq, h⟩, fun h => h.elim (fun h => absurd h.1 hq) fun h => h.2⟩

/-- A byte that is handed on goes behind the others. -/
theorem InHand.on (h : s.InHand p t) (ht : s'.Timed) (hr : s'.removed = s.removed)
    {rest : List (BitVec 8)} {fsync : Bool}
    (hctl : s'.ctl = Function.update s.ctl p (.writing rest fsync))
    (ho : ∀ u, u ∈ s'.onward ↔ u ∈ s.onward ∨ u = t) : s'.Inv := by
  have hholds : ∀ q u, s'.Holds q u ↔ q ≠ p ∧ s.Holds q u := fun q u => by
    rw [holds_update hctl]
    exact ⟨fun hh => hh.elim (fun ⟨_, _, _, hc⟩ => absurd hc nofun) id, .inr⟩
  refine ⟨ht, ⟨fun u hu => ?_, fun q u hh => ?_, ?_⟩, fun u hu => ?_⟩
  · rw [hr]
    rcases (ho u).mp hu with hu | rfl
    · exact h.onward u hu
    · exact h.hand.1
  · rw [hr]
    obtain ⟨hq, hh⟩ := (hholds q u).mp hh
    exact h.held q u hq hh
  · rw [hr]
    exact h.no
  · rw [hr] at hu
    rcases h.kept u hu with hu | hu | hu
    · exact .inl ((ho u).mpr (.inl hu))
    · exact .inl ((ho u).mpr (.inr hu))
    · exact .inr ((hholds _ u).mpr hu)

theorem HandOrdered.on (h : s.HandOrdered p t) (hin : s'.InOrder)
    (hroom : s.outq.length ≤ PAR_HIWAT) {rest : List (BitVec 8)} {fsync : Bool}
    (hctl : s'.ctl = Function.update s.ctl p (.writing rest fsync))
    (ho : ∀ u, u ∈ s'.onward ↔ u ∈ s.onward ∨ u = t) : s'.Ordered := by
  refine ⟨hin, fun u hu q v hv => ?_⟩
  rw [holds_update hctl] at hv
  obtain ⟨hq, hv⟩ := hv.resolve_left fun ⟨_, _, _, hc⟩ => absurd hc nofun
  rcases (ho u).mp hu with hu | rfl
  · exact h.later u hu q v hq hv
  · exact h.first hroom q v hq hv

theorem Gives.inv (hg : Gives s p t s') (h : s.InHand p t) :
    s'.Inv ∧ (s.HandOrdered p t → s'.Ordered) := by
  cases hg with
  | waits rest fsync same ctl =>
      have hholds : ∀ q u, s'.Holds q u ↔ (q = p ∧ u = t) ∨ (q ≠ p ∧ s.Holds q u) := fun q u => by
        rw [holds_update ctl]
        refine or_congr (and_congr_right fun _ => ⟨fun ⟨_, _, hc⟩ => ?_, fun he => ?_⟩) .rfl
        · exact (ParCtl.holding.inj hc).1.symm
        · exact ⟨rest, fsync, he ▸ rfl⟩
      refine ⟨⟨same.timed h.timed, ⟨?_, fun q u hh => ?_, ?_⟩, fun u hu => ?_⟩,
        fun ho => ⟨?_, fun u hu q v hv => ?_⟩⟩
      · rw [same.onward, same.removed]
        exact h.onward
      · rw [same.removed]
        rcases (hholds q u).mp hh with ⟨rfl, rfl⟩ | ⟨hq, hh⟩
        · exact h.hand
        · exact h.held q u hq hh
      · rw [same.removed]
        exact h.no
      · rw [same.removed] at hu
        rw [same.onward]
        rcases h.kept u hu with hu | rfl | hu
        · exact .inl hu
        · exact .inr ((hholds _ u).mpr (.inl ⟨h.hand.2, rfl⟩))
        · exact .inr ((hholds _ u).mpr (.inr hu))
      · unfold InOrder
        rw [same.onward]
        exact ho.order
      · rw [same.onward] at hu
        rcases (hholds q v).mp hv with ⟨-, rfl⟩ | ⟨hq, hv⟩
        · exact ho.behind u hu
        · exact ho.later u hu q v hq hv
  | queues rest fsync room pend same ctl =>
      have hlist : s'.onward = s.onward ++ [t] := by
        rw [same.onward]
        exact (List.append_assoc _ _ _).symm
      have hmem : ∀ u, u ∈ s'.onward ↔ u ∈ s.onward ∨ u = t := fun u => by
        rw [hlist, List.mem_append, List.mem_singleton]
      have htimed : Timed { s with outq := s.outq ++ [t] } :=
        ⟨fun hp => absurd (pend.symm.trans hp) (by decide), h.timed.running⟩
      refine ⟨h.on (same.timed htimed) same.removed ctl hmem, fun ho => ho.on ?_ room ctl hmem⟩
      rw [InOrder, hlist, List.pairwise_append]
      refine ⟨ho.order, List.pairwise_singleton _ _, fun u hu v hv => ?_⟩
      rw [List.mem_singleton.mp hv]
      exact Nat.le_of_lt (ho.behind u hu)
  | starts rest fsync room idle same ctl =>
      obtain ⟨hnone, hq⟩ := h.timed.idle idle
      have hport : s.onward = s.port := by
        rw [onward, pending, idle, if_neg Bool.false_ne_true, hq, List.append_nil, List.append_nil]
      have hmem : ∀ u, u ∈ s'.onward ↔ u ∈ s.onward ∨ u = t := fun u => by
        rw [same.onward, mem_parstart, hq, hport]
        simp
      refine ⟨h.on (same.timed (parstart_timed s t hnone))
        (same.removed.trans (parstart_removed s t)) ctl hmem, fun ho => ho.on ?_ room ctl hmem⟩
      have hin : (s.parstart t).InOrder := by
        refine parstart_inOrder s t ?_
        rw [hq, List.pairwise_append, ← hport]
        refine ⟨ho.order, List.pairwise_singleton _ _, fun u hu v hv => ?_⟩
        rw [List.mem_singleton.mp hv]
        exact Nat.le_of_lt (ho.behind u hu)
      unfold InOrder
      rw [same.onward]
      exact hin

theorem Inv.goOn (h : s.Inv) (hc : s.Careful (.run p)) :
    (s.goOn p).Inv ∧ (s.Ordered → s.Patient (.run p) → (s.goOn p).Ordered) := by
  unfold Par.goOn
  split_ifs with hawake
  · exact ⟨h, fun ho _ => ho⟩
  have hawake : s.asleep p = false := by simpa using hawake
  have herr : ∀ t, s.Carries p t → s.outerr = false := fun t ht => by
    by_contra he
    exact hc (by simpa using he) t ht
  have hquiet : ∀ s', (∃ c, (∀ t rest fsync, c ≠ .holding t rest fsync) ∧ s.SameBytes s' ∧
      s'.ctl = Function.update s.ctl p c) → (∀ t, ¬s.Holds p t) →
      s'.Inv ∧ (s.Ordered → s.Patient (.run p) → s'.Ordered) :=
    fun s' ⟨c, hne, hs, hctl⟩ hno => by
      have hh := holds_setCtl hno hne hctl
      exact ⟨h.same hs hh, fun ho _ => ho.same hs fun q t => (hh q t).mp⟩
  split
  next eio hp => exact ⟨h, fun ho _ => ho⟩
  next ch rest fsync hp =>
    have hno : ∀ t, ¬s.Holds p t := fun t ⟨_, _, hh⟩ => absurd (hh.symm.trans hp) nofun
    have hcarries : s.Carries p (s.next p ch) := ⟨hawake, .inr ⟨ch, rest, fsync, hp, rfl⟩⟩
    obtain ⟨hinv, hord⟩ := (give_gives ({ s with removed := s.removed ++ [s.next p ch] } : Par) p
      (s.next p ch) rest fsync (herr _ hcarries)).inv (h.inHand_next hno ch)
    refine ⟨hinv, fun ho hpat => hord ⟨ho.order, fun u hu => ?_, fun u hu q v _ hv => ?_,
      fun hroom q v hq hv => ?_⟩⟩
    · exact h.known.no u (h.known.onward u hu)
    · exact ho.later u hu q v hv
    · exact hpat hroom _ hcarries q v hq hv
  next hp =>
    exact hquiet _ (s.drain_same p) fun t ⟨_, _, hh⟩ => absurd (hh.symm.trans hp) nofun
  next hp =>
    exact hquiet _ ⟨.out false, nofun, ⟨rfl, rfl, rfl, rfl, rfl, rfl, rfl⟩, rfl⟩
      fun t ⟨_, _, hh⟩ => absurd (hh.symm.trans hp) nofun
  next t rest fsync hp =>
    have hholds : s.Holds p t := ⟨rest, fsync, hp⟩
    have hcarries : s.Carries p t := ⟨hawake, .inl hholds⟩
    obtain ⟨hinv, hord⟩ := (give_gives s p t rest fsync (herr _ hcarries)).inv
      (h.inHand_holding hholds)
    refine ⟨hinv, fun ho hpat => hord ⟨ho.order, fun u hu => ?_, fun u hu q v _ hv => ?_,
      fun hroom q v hq hv => ?_⟩⟩
    · exact ho.later u hu p t hholds
    · exact ho.later u hu q v hv
    · exact hpat hroom t hcarries q v hq hv
  next hp =>
    exact hquiet _ (s.drain_same p) fun t ⟨_, _, hh⟩ => absurd (hh.symm.trans hp) nofun

theorem Inv.step (h : s.Inv) (e : ParEvent) (hc : s.Careful e) :
    (s.step e).Inv ∧ (s.Ordered → s.Patient e → (s.step e).Ordered) := by
  cases e with
  | parwrite p bytes fsync =>
      rw [Par.step]
      split
      next eio hp =>
        have hh : ∀ q t, (s.setCtl p (.writing bytes fsync)).Holds q t ↔ s.Holds q t :=
          holds_setCtl (fun t ⟨_, _, hh⟩ => absurd (hh.symm.trans hp) nofun)
            (fun _ _ _ hc => ParCtl.noConfusion hc) rfl
        have hs : s.SameBytes (s.setCtl p (.writing bytes fsync)) :=
          ⟨rfl, rfl, rfl, rfl, rfl, rfl, rfl⟩
        exact ⟨h.same hs hh, fun ho _ => ho.same hs fun q t => (hh q t).mp⟩
      next hp => exact ⟨h, fun ho _ => ho⟩
  | run p => exact h.goOn hc
  | parintr => exact ⟨h.parintr hc, fun ho _ => ho.parintr⟩
  | callout id =>
      obtain ⟨hinv, hord⟩ := h.callout id
      exact ⟨hinv, fun ho _ => hord ho⟩
  | lines pra =>
      have hs : s.SameBytes { s with pra := pra } := ⟨rfl, rfl, rfl, rfl, rfl, rfl, rfl⟩
      exact ⟨h.same hs fun _ _ => .rfl, fun ho _ => ho.same hs fun _ _ h => h⟩
  | setctl arg =>
      have hs : s.SameBytes { s with control_bits := arg &&& 0x07 } :=
        ⟨rfl, rfl, rfl, rfl, rfl, rfl, rfl⟩
      exact ⟨h.same hs fun _ _ => .rfl, fun ho _ => ho.same hs fun _ _ h => h⟩

end

theorem boot_inv : boot.Inv ∧ boot.Ordered := by
  have hno : ∀ p t, ¬boot.Holds p t := fun p t ⟨_, _, h⟩ => absurd h nofun
  have hnil : ∀ t, t ∉ ([] : List Taken) := fun t => List.not_mem_nil
  refine ⟨⟨⟨fun _ => ⟨rfl, rfl⟩, fun h => absurd h Bool.false_ne_true⟩,
    ⟨fun t ht => absurd ht (hnil t), fun p t h => absurd h (hno p t),
      fun t ht => absurd ht (hnil t)⟩, fun t ht => absurd ht (hnil t)⟩,
    ⟨.nil, fun t ht => absurd ht (hnil t)⟩⟩

/-- Bytes are kept in every state of a run in which no writer finds an error with a byte in
hand and no byte is acknowledged that was not put on the port; and they go on in order
where, too, no writer hands a byte on before an earlier one that another has in hand. -/
theorem parallel_output_conserved (es : List ParEvent) (hc : Every step Careful boot es) :
    Every step (fun s e => (s.step e).Kept) boot es ∧
      (Every step Patient boot es →
        Every step (fun s e => (s.step e).Kept ∧ (s.step e).InOrder) boot es) := by
  refine ⟨every_of_invariant Inv (fun s e h hg => (h.step e hg).1)
    (fun s e h hg => (h.step e hg).1.kept) boot_inv.1 hc, fun hp => ?_⟩
  refine every_of_invariant (fun s => s.Inv ∧ s.Ordered) (fun s e h hg => ?_) (fun s e h hg => ?_)
    boot_inv (hc.and hp)
  · obtain ⟨hinv, hord⟩ := h.1.step e hg.1
    exact ⟨hinv, hord h.2 hg.2⟩
  · obtain ⟨hinv, hord⟩ := h.1.step e hg.1
    exact ⟨hinv.kept, (hord h.2 hg.2).order⟩

/-! ### Three runs -/

/-- The printer takes the first of two bytes. -/
def firstByte : List ParEvent := [.parwrite 1 [0x41, 0x42] false, .run 1, .parintr]

/-- The first byte is not acknowledged for a minute, and the writer goes on. -/
def latePrinter : List ParEvent :=
  [.parwrite 1 [0x41, 0x42] false, .run 1, .callout 0, .run 1]

/-- The printer acknowledges twice, and is busy when the second byte is due. -/
def doubleAck : List ParEvent :=
  [.parwrite 1 [0x41, 0x42] false, .run 1, .run 1, .lines 0x05, .parintr, .parintr]

theorem parallel_output_conserved_first :
    Every step (fun s e => (s.step e).Kept ∧ (s.step e).InOrder) boot firstByte := by
  refine (parallel_output_conserved firstByte ⟨trivial, fun h => absurd h (by decide),
    fun _ => by decide, trivial⟩).2 ⟨trivial, fun _ t _ q u hq hu => ?_, trivial, trivial⟩
  -- only the first process writes
  obtain ⟨rest, fsync, hctl⟩ := hu
  have hout : (boot.step (.parwrite 1 [0x41, 0x42] false)).ctl q = .out false :=
    Function.update_of_ne hq _ _
  exact ParCtl.noConfusion (hout.symm.trans hctl)

theorem parallel_output_conserved_fails :
    ¬Every step (fun s e => (s.step e).Kept) boot latePrinter ∧
      ¬Every step (fun s e => (s.step e).Kept) boot doubleAck := by
  refine ⟨fun h => ?_, fun h => ?_⟩
  · obtain ⟨-, -, -, hlast, -⟩ := h
    rcases hlast ⟨1, 1, 0x42⟩ (by decide) with hon | ⟨rest, fsync, hctl⟩
    · exact absurd hon (by decide)
    · have hout : (final step boot latePrinter).ctl 1 = .out true := by decide
      exact ParCtl.noConfusion (hout.symm.trans hctl)
  · obtain ⟨-, -, -, -, -, hlast, -⟩ := h
    rcases hlast ⟨1, 1, 0x42⟩ (by decide) with hon | ⟨rest, fsync, hctl⟩
    · exact absurd hon (by decide)
    · have hwriting : (final step boot doubleAck).ctl 1 = .writing [] false := by decide
      exact ParCtl.noConfusion (hwriting.symm.trans hctl)

end Par
end HydraAmix.Serial
