import HydraAmix.Scsi.DataPointers
import HydraAmix.Scsi.Twin

/-!
# The bounce buffer and direct DMA

The driver is run with its own DMA unit and with one that reaches all of memory, on
the same events. A transfer by way of a block ends in a copy of the whole block. Until
the request ends this does no harm, since what is garbage then is still to come. So the
cells in which the two memories may differ are those that some request has still to
read, and those of the transfer that is going on. When the request ends, the rest of
its last block has to hold what belongs there: usually it was filled.
-/
namespace HydraAmix.Scsi.Controller
open Schedule Staging

namespace Card
open Twin

variable {D : Type}

/-- The first request of unit `v` has still to read this byte, by way of chip memory. -/
def Remains (s : Card D) (v : UnitNo) (x : ℕ) : Prop :=
  ∃ r l, s.com v = r :: l ∧ r.reading = true ∧ 0x1000000 ≤ r.addr ∧
    r.addr + r.nbyte ≤ x + (if s.away v then s.tc v else r.nbyte % 0x1000000) ∧
    x < r.addr + r.nbyte

/-- Transfers, saved pointers, disconnections, reselections and completions: no other status
arrives, and bytes are moved only in the data phase. -/
def Regular (s : Card D) : Event → Prop
  | .queue r => InSpace r
  | .intr e => (∀ r ∈ e.calls, InSpace r) ∧ Allowed s (.intr e) ∧
      (¬ Data s.istate → e.moved = 0) ∧
      atab s.istate (itab e.ss) ≠ 1 ∧ atab s.istate (itab e.ss) ≠ 8

/-- The status completes or aborts the current request. -/
def Ends (s : Card D) (e : Interrupt) : Prop :=
  atab s.istate (itab e.ss) = 0 ∨ atab s.istate (itab e.ss) = 5

/-- The driver with its own DMA unit, and with one that reaches all of memory. -/
def both (C : ChipMem) (p : Card Bounce × Card Bounce) (e : Event) : Card Bounce × Card Bounce :=
  (step (Bounce.path C 0x1000000) p.1 e, step (Bounce.path C 0x100000000) p.2 e)

/-- Both, before the first request. -/
def fresh (m w : Mem) : Card Bounce × Card Bounce :=
  (init (Bounce.clear m w), init (Bounce.clear m w))

/-- Memory with the bytes that the target of the current request has sent at their positions:
as many from the end of the buffer as were to come. -/
def received (s : Card Bounce) : Event → Mem
  | .queue _ => s.path.mem
  | .intr e =>
    match s.com s.cur with
    | r :: _ =>
      if r.reading then put s.path.mem (r.addr + r.nbyte - s.path.TC) (min e.moved s.path.TC)
        s.path.wire
      else s.path.mem
    | [] => s.path.mem

/-- What a step does to memory does not depend on the way. -/
structure Transparent (C : ChipMem) (p : Card Bounce × Card Bounce) (e : Event) : Prop where
  /-- The buffer of a request that ends, but for what another is still reading into it. -/
  same : ∀ i, e = .intr i → Ends p.1 i → ∀ r l, p.1.com p.1.cur = r :: l →
    0x1000000 ≤ r.addr → ∀ x, r.addr ≤ x → x < r.addr + r.nbyte →
    (∀ v, v ≠ p.1.cur → ¬ Remains p.1 v x) →
    (both C p e).1.path.mem x = (both C p e).2.path.mem x
  /-- Direct DMA stores what the target sends, and nothing else. -/
  stored : (both C p e).2.path.mem = received p.2 e
  freed : Ledger (both C p e).1.path

/-- What the target did not fill of the last block of a reading request holds what belongs
there, but for what another request is still reading into the buffer. -/
def Filling (p : Card Bounce × Card Bounce) : Event → Prop
  | .queue _ => True
  | .intr e => Ends p.1 e → ∀ r l a, p.1.com p.1.cur = r :: l → r.reading = true →
      p.1.path.chipaddr = some a →
      ∀ j, p.1.path.sac - a + min e.moved p.1.path.TC ≤ j → j < p.1.path.tc →
        (∀ v, v ≠ p.1.cur → ¬ Remains p.1 v (r.addr + r.nbyte - p.1.path.tc + j)) →
        p.1.path.mem (a + j) = p.2.path.mem (r.addr + r.nbyte - p.1.path.tc + j)

/-! ### The invariant -/

variable {C : ChipMem} {s : Card Twin} {E : ℕ → Prop} {r : Sdcom} {k : ℕ}

/-- What the driver keeps for the units, and the bytes that will come. -/
structure Known (s : Card Twin) : Prop where
  fit : ∀ u, ∀ r ∈ s.com u, InSpace r
  away : ∀ u r l, s.com u = r :: l → s.away u = true → s.tc u ≤ r.nbyte % 0x1000000
  wire : s.path.direct.wire = s.path.bounce.wire
  direct : s.path.direct.chipaddr = none

/-- No transfer is going on. The cells of `E` have been given up. -/
structure Still (E : ℕ → Prop) (s : Card Twin) : Prop extends Known s where
  chip : s.path.bounce.chipaddr = none
  freed : s.path.bounce.allocated = s.path.bounce.freed
  agree : Agree 0x1000000 (fun x => E x ∨ ∃ v, Remains s v x) s.path.bounce.mem s.path.direct.mem

/-- A transfer of the request `r`, of which `k` bytes have been moved, is going on. -/
structure Moving (E : ℕ → Prop) (s : Card Twin) (r : Sdcom) (k : ℕ) : Prop extends Known s where
  head : ∃ l, s.com s.cur = r :: l
  session : Session s.path r (s.tc s.cur) k
  data : Data s.istate → s.path.bounce.TC + k = s.path.bounce.tc
  ledger : Ledger s.path.bounce
  agree : Agree 0x1000000
    (fun x => (E x ∨ ∃ v, v ≠ s.cur ∧ Remains s v x) ∨ Window s.path r x)
    s.path.bounce.mem s.path.direct.mem

def Mirror (E : ℕ → Prop) (s : Card Twin) : Prop :=
  s.istate = .IDLE ∧ Still E s ∨
    s.istate.Busy ∧ s.istate ≠ .MESSAGING ∧ ∃ r k, Moving E s r k

theorem Remains.mono {s t : Card D} {v : UnitNo} {x : ℕ} (h : Remains s v x)
    (hc : ∀ r l, s.com v = r :: l → ∃ l', t.com v = r :: l') (ha : t.away v = s.away v)
    (ht : s.away v = true → t.tc v = s.tc v) : Remains t v x := by
  obtain ⟨r, l, hr, hread, hfar, hx, hx'⟩ := h
  obtain ⟨l', hl'⟩ := hc r l hr
  refine ⟨r, l', hl', hread, hfar, ?_, hx'⟩
  rw [ha]
  by_cases haw : s.away v = true
  · rw [if_pos haw] at hx ⊢
    rw [ht haw]
    exact hx
  · rw [if_neg haw] at hx ⊢
    exact hx

/-! ### Starting and resuming -/

/-- A unit starts or resumes its first request. What it has still to read is the window of
the transfer then. -/
theorem Still.begun (h : Still E s) {u : UnitNo} {l : List Sdcom} {n : ℕ} {s' : Card Twin}
    (hr : s.com u = r :: l) (hn : n = if s.away u then s.tc u else r.nbyte % 0x1000000)
    (hpath : Begun s.path s'.path r n) (hcom : s'.com = s.com) (hcur : s'.cur = u)
    (haway : s'.away = Function.update s.away u false) (htc : s'.tc = Function.update s.tc u n) :
    Moving E s' r 0 := by
  refine ⟨⟨hcom ▸ h.fit, fun v x k hx ha => ?_, ?_, hpath.direct⟩, ⟨l, ?_⟩, ?_, fun _ => ?_,
    hpath.ledger, fun x hx hne => ?_⟩
  · have hv : v ≠ u := by
      rintro rfl
      rw [haway, Function.update_self] at ha
      exact absurd ha nofun
    rw [hcom] at hx
    rw [haway, Function.update_of_ne hv] at ha
    rw [htc, Function.update_of_ne hv]
    exact h.away v x k hx ha
  · rw [hpath.wire, hpath.wire']
    exact h.wire
  · rw [hcom, hcur]
    exact hr
  · rw [hcur, htc, Function.update_self]
    exact hpath.session
  · rw [hpath.TC, hpath.tc]
    rfl
  · rw [hpath.mem.1, hpath.mem.2 x hx]
    refine h.agree x hx fun ho => hne ?_
    rcases ho with ho | ⟨v, hv⟩
    · exact .inl (.inl ho)
    · by_cases hvu : v = u
      · subst hvu
        obtain ⟨r', l', hr', hread, hfar, hlow, hhigh⟩ := hv
        obtain ⟨rfl, -⟩ := List.cons.inj (hr.symm.trans hr')
        have hle := Nat.le_trans hpath.session.tc_le (Nat.mod_le _ _)
        rw [hpath.tc] at hle
        rw [← hn] at hlow
        refine .inr ⟨hpath.chip (by omega) hfar, hread, ?_, ?_⟩
        · rw [hpath.tc]
          omega
        · rw [hpath.tc]
          omega
      · refine .inl (.inr ⟨v, hcur.symm ▸ hvu, hv.mono (fun y k hy => ⟨k, hcom ▸ hy⟩) ?_
          fun _ => ?_⟩)
        · rw [haway, Function.update_of_ne hvu]
        · rw [htc, Function.update_of_ne hvu]

/-- An idle controller starts a transfer, which touches no buffer. -/
theorem Still.startany (h : Still E s) (hp : Placed none s) (hi : s.istate = .IDLE) :
    Mirror E (s.startany (twin C)) ∧ SameMem s.path (s.startany (twin C)).path := by
  cases hstart : s.start with
  | nil =>
      rw [startany_of_nil hstart]
      exact ⟨.inl ⟨hi, h⟩, rfl, fun _ _ => rfl⟩
  | cons u rest =>
      have hu : u ∈ s.start := hstart ▸ List.mem_cons_self
      obtain ⟨r, l, hr⟩ := List.exists_cons_of_ne_nil ((hp.pending u).mpr (.inr (.inl hu)))
      have hrun : s.startany (twin C) = (((((s.setStart rest).setCur u).setPath
          ((twin C).setDI ((twin C).setCDB s.path r.cdb) r)).setTc u
          (r.nbyte % 0x1000000)).startdma (twin C) u r).setIstate .STARTING := by
        unfold Card.startany
        rw [hi, hstart]
        simp only [hr]
        rfl
      have hbegun : Begun s.path ((twin C).startdma ((twin C).setDI
          ((twin C).setCDB s.path r.cdb) r) r (r.nbyte % 0x1000000)) r (r.nbyte % 0x1000000) := by
        obtain ⟨hs, h1, h2, h3, h4, h5, h6, h7, h8⟩ := start_begun (C := C)
          (t := (twin C).setDI ((twin C).setCDB s.path r.cdb) r) h.chip h.direct h.freed
          (h.fit u r (hr ▸ List.mem_cons_self)) (Nat.le_refl _)
        exact ⟨hs, h1, h2, h3, h4, h5, h6, h7, h8⟩
      have haway := hp.start_away u hu
      have hpath : (s.startany (twin C)).path = (twin C).startdma ((twin C).setDI
          ((twin C).setCDB s.path r.cdb) r) r (r.nbyte % 0x1000000) := by
        rw [hrun]
        change (twin C).startdma _ r (Function.update s.tc u _ u) = _
        rw [Function.update_self]
        rfl
      rw [← hpath] at hbegun
      refine ⟨.inr ⟨?_, ?_, r, 0, h.begun hr ?_ hbegun ?_ ?_ ?_ ?_⟩, hbegun.mem⟩
      · rw [hrun]
        exact ⟨nofun, nofun⟩
      · rw [hrun]
        nofun
      · rw [haway]
        rfl
      · rw [hrun]
        rfl
      · rw [hrun]
        rfl
      · rw [hrun, ← haway, Function.update_eq_self]
        rfl
      · rw [hrun]
        rfl

/-- A target that was away comes back. -/
theorem Still.resume (h : Still E s) (hp : Placed none s) {si : BitVec 8}
    (haway : s.away (si.setWidth 3) = true) :
    Mirror E (s.resume (twin C) si) ∧ SameMem s.path (s.resume (twin C) si).path := by
  generalize hu : si.setWidth 3 = u at haway
  obtain ⟨r, l, hr⟩ := List.exists_cons_of_ne_nil ((hp.pending u).mpr (.inr (.inr haway)))
  have hbegun := (start_begun (C := C) h.chip h.direct h.freed
    (h.fit u r (hr ▸ List.mem_cons_self)) (h.away u r l hr haway)).setDI (C := C)
  unfold Card.resume
  simp only [hu, hr]
  refine ⟨.inr ⟨⟨nofun, nofun⟩, nofun, r, 0, h.begun hr ?_ hbegun rfl rfl rfl ?_⟩, hbegun.mem⟩
  · rw [haway]
    rfl
  · exact (Function.update_eq_self u s.tc).symm

/-! ### Queueing -/

theorem queue_known (h : Known s) {t : Card Twin} (hr : InSpace r)
    (hne : ∀ u, s.away u = true → s.com u ≠ [])
    (hc : t.com = Function.update s.com r.unit (s.com r.unit ++ [r])) (htc : t.tc = s.tc)
    (haway : t.away = s.away) (hpath : t.path = s.path) : Known t where
  fit u x hx := by
    rw [hc] at hx
    by_cases hu : u = r.unit
    · subst hu
      rw [Function.update_self, List.mem_append, List.mem_singleton] at hx
      rcases hx with hx | rfl
      · exact h.fit _ x hx
      · exact hr
    · rw [Function.update_of_ne hu] at hx
      exact h.fit u x hx
  away u x l hx ha := by
    rw [haway] at ha
    rw [hc] at hx
    obtain ⟨l', hl'⟩ := queue_head (hne u ha) hx
    rw [htc]
    exact h.away u x l' hl' ha
  wire := by
    rw [hpath]
    exact h.wire
  direct := by
    rw [hpath]
    exact h.direct

/-- The first requests of the units that have some stay. -/
theorem queue_heads {t : Card Twin} (hc : t.com = Function.update s.com r.unit
    (s.com r.unit ++ [r])) (u : UnitNo) (x : Sdcom) (l : List Sdcom) (hx : s.com u = x :: l) :
    ∃ l', t.com u = x :: l' := by
  rw [hc]
  by_cases hu : u = r.unit
  · subst hu
    rw [Function.update_self, hx]
    exact ⟨l ++ [r], rfl⟩
  · rw [Function.update_of_ne hu]
    exact ⟨l, hx⟩

theorem Still.append (h : Still E s) {t : Card Twin} (hr : InSpace r)
    (hne : ∀ u, s.away u = true → s.com u ≠ [])
    (hc : t.com = Function.update s.com r.unit (s.com r.unit ++ [r])) (htc : t.tc = s.tc)
    (haway : t.away = s.away) (hpath : t.path = s.path) : Still E t := by
  refine ⟨queue_known h.toKnown hr hne hc htc haway hpath, by rw [hpath]; exact h.chip,
    by rw [hpath]; exact h.freed, ?_⟩
  rw [hpath]
  exact h.agree.mono fun x hx => hx.imp_right fun ⟨v, hv⟩ =>
    ⟨v, hv.mono (queue_heads hc v) (by rw [haway]) fun _ => by rw [htc]⟩

theorem Still.calls (h : Still E s) {slot : Option UnitNo} (hp : Placed slot s)
    (hi : s.istate ≠ .IDLE) {calls : List Sdcom} (hr : ∀ r ∈ calls, InSpace r) :
    Still E (calls.foldl (fun s r => s.queue (twin C) r) s) ∧
      (calls.foldl (fun s r => s.queue (twin C) r) s).path = s.path := by
  induction calls generalizing s with
  | nil => exact ⟨h, rfl⟩
  | cons r calls ih =>
      obtain ⟨hp', hi', -⟩ := hp.queue (P := twin C) hi r
      obtain ⟨htc, hpath, haway⟩ := queue_tc (P := twin C) hi r
      have hstill := h.append (hr r List.mem_cons_self) hp.away_ne_nil (queue_com s r).1 htc
        haway hpath
      obtain ⟨h', hpath'⟩ := ih hstill hp' (hi'.symm ▸ hi)
        fun x hx => hr x (List.mem_cons_of_mem r hx)
      exact ⟨h', hpath'.trans hpath⟩

theorem Moving.queue (h : Moving E s r k) {slot : Option UnitNo} (hp : Placed slot s)
    (hi : s.istate ≠ .IDLE) {x : Sdcom} (hx : InSpace x) :
    Moving E (s.queue (twin C) x) r k := by
  obtain ⟨hi', hcur⟩ := queue_of_busy (P := twin C) hi x
  obtain ⟨htc, hpath, haway⟩ := queue_tc (P := twin C) hi x
  have hc := (queue_com (P := twin C) s x).1
  obtain ⟨l, hl⟩ := h.head
  refine ⟨queue_known h.toKnown hx hp.away_ne_nil hc htc haway hpath, ?_, ?_, ?_, ?_, ?_⟩
  · rw [hcur]
    exact queue_heads hc s.cur r l hl
  · rw [hpath, htc, hcur]
    exact h.session
  · rw [hi', hpath]
    exact h.data
  · rw [hpath]
    exact h.ledger
  · rw [hpath, hcur]
    exact h.agree.mono fun y hy => hy.imp_left fun ho => ho.imp_right fun ⟨v, hne, hv⟩ =>
      ⟨v, hne, hv.mono (queue_heads hc v) (by rw [haway]) fun _ => by rw [htc]⟩

theorem Mirror.queue (h : Mirror E s) (hlive : s.Live) {x : Sdcom} (hx : InSpace x) :
    Mirror E (s.queue (twin C) x) ∧ SameMem s.path (s.queue (twin C) x).path := by
  have hp := hlive.placed
  rcases h with ⟨hi, h⟩ | ⟨hb, hm, r, k, h⟩
  · rw [slot_of_idle hi] at hp
    by_cases hc : s.com x.unit = []
    · have hnew := hp.queue_new hc
      rw [hlive.idle hi] at hnew
      have hu : ((s.ask x).setCom x.unit [x]).uqueue (twin C) x.unit =
          (((s.ask x).setCom x.unit [x]).setStart [x.unit]).startany (twin C) :=
        if_neg (not_not.mpr (hlive.idle hi))
      rw [queue_of_nil hc, hu]
      refine Still.startany (h.append hx hp.away_ne_nil ?_ rfl rfl rfl) hnew hi
      change Function.update s.com x.unit [x] = _
      rw [hc, List.nil_append]
    · rw [queue_of_ne_nil hc]
      exact ⟨.inl ⟨hi, h.append hx hp.away_ne_nil rfl rfl rfl rfl⟩, rfl, fun _ _ => rfl⟩
  · obtain ⟨hi', -⟩ := queue_of_busy (P := twin C) hb.1 x
    rw [(queue_tc (P := twin C) hb.1 x).2.1]
    refine ⟨.inr ⟨?_, ?_, r, k, h.queue hp hb.1 hx⟩, rfl, fun _ _ => rfl⟩
    · rw [hi']
      exact hb
    · rw [hi']
      exact hm

/-! ### The ends of transfers -/

theorem stopdma_path {l : List Sdcom} (hl : s.com s.cur = r :: l) :
    s.stopdma (twin C) = s.setPath ((twin C).stopdma s.path r) := by
  unfold stopdma
  rw [hl]

/-- When a transfer has stopped, its window is exempt only as far as there is still to read. -/
theorem Moving.still (h : Moving E s r k) {t : Card Twin}
    (hpath : t.path = (twin C).stopdma s.path r) (hfit : ∀ u, ∀ x ∈ t.com u, InSpace x)
    (haway : ∀ u x l, t.com u = x :: l → t.away u = true → t.tc u ≤ x.nbyte % 0x1000000)
    (hrem : ∀ v, v ≠ s.cur → ∀ x, Remains s v x → Remains t v x)
    (hrest : ∀ a, s.path.bounce.chipaddr = some a → r.reading = true → ∀ i, k ≤ i →
      i < s.path.bounce.tc →
      ¬ (E (r.addr + r.nbyte - s.path.bounce.tc + i) ∨
        ∃ v, Remains t v (r.addr + r.nbyte - s.path.bounce.tc + i)) →
      s.path.bounce.mem (a + i) = s.path.direct.mem (r.addr + r.nbyte - s.path.bounce.tc + i)) :
    Still E t := by
  obtain ⟨l, hl⟩ := h.head
  have hr := h.fit s.cur r (hl ▸ List.mem_cons_self)
  have hdirect : t.path.direct = s.path.direct := by
    rw [hpath]
    exact Bounce.stopdma_none h.direct r
  have hbounce : t.path.bounce = s.path.bounce.stopdma r := by
    rw [hpath]
    rfl
  obtain ⟨hchip, hfreed, hwire⟩ := stop_board h.session h.ledger
  refine ⟨⟨hfit, haway, ?_, ?_⟩, ?_, ?_, ?_⟩
  · rw [hdirect, hbounce, hwire]
    exact h.wire
  · rw [hdirect]
    exact h.direct
  · rw [hbounce]
    exact hchip
  · rw [hbounce]
    exact hfreed
  · rw [hdirect, hbounce]
    exact h.session.stop hr h.agree
      (fun x hx => hx.imp_right fun ⟨v, hne, hv⟩ => ⟨v, hrem v hne x hv⟩) hrest

/-- The target disconnects: what is garbage in the window is behind the saved pointer. -/
theorem Moving.leave (h : Moving E s r k) :
    Still E ((s.setPath ((twin C).stopdma s.path r)).setAway s.cur true) := by
  obtain ⟨l, hl⟩ := h.head
  have hle := Nat.le_trans h.session.tc_le (Nat.mod_le _ _)
  refine h.still (C := C) rfl h.fit (fun u x k' hx ha => ?_) (fun v hv x hx => ?_) ?_
  · by_cases hu : u = s.cur
    · subst hu
      obtain ⟨rfl, -⟩ := List.cons.inj (hl.symm.trans hx)
      exact Nat.le_trans h.session.saved_le h.session.tc_le
    · exact h.away u x k' hx ((Function.update_of_ne hu _ _).symm.trans ha)
  · exact hx.mono (fun y k' hy => ⟨k', hy⟩) (Function.update_of_ne hv _ _) fun _ => rfl
  · intro a ha hread i hi hi' hne
    have hkept := h.session.kept
    refine absurd (.inr ⟨s.cur, r, l, hl, hread, (h.session.block a ha).2.1, ?_, ?_⟩) hne
    · rw [show ((s.setPath ((twin C).stopdma s.path r)).setAway s.cur true).away s.cur = true from
        Function.update_self _ _ _, if_pos rfl]
      change r.addr + r.nbyte ≤ r.addr + r.nbyte - s.path.bounce.tc + i + s.tc s.cur
      omega
    · omega

/-- Another target comes back before the current one answers: all is still to read. -/
theorem Moving.requeue (h : Moving E s r k) (haway : s.away s.cur = false) :
    Still E ((s.setPath ((twin C).stopdma s.path r)).setStart (s.start ++ [s.cur])) := by
  obtain ⟨l, hl⟩ := h.head
  have hle := h.session.tc_le
  have hmod := Nat.mod_le r.nbyte 0x1000000
  refine h.still (C := C) rfl h.fit h.away
    (fun v _ x hx => hx.mono (fun y k' hy => ⟨k', hy⟩) rfl fun _ => rfl) ?_
  intro a ha hread i hi hi' hne
  refine absurd (.inr ⟨s.cur, r, l, hl, hread, (h.session.block a ha).2.1, ?_, ?_⟩) hne
  · rw [show ((s.setPath ((twin C).stopdma s.path r)).setStart (s.start ++ [s.cur])).away s.cur =
      false from haway, if_neg Bool.false_ne_true]
    omega
  · omega

/-- The request ends: nothing of its window stays exempt. -/
theorem Moving.complete (h : Moving E s r k) (hlive : s.Live) (hb : s.istate.Busy)
    (okay : Option ℕ) {calls : List Sdcom} (hcalls : ∀ r ∈ calls, InSpace r)
    (hrest : ∀ a, s.path.bounce.chipaddr = some a → r.reading = true → ∀ i, k ≤ i →
      i < s.path.bounce.tc →
      ¬ (E (r.addr + r.nbyte - s.path.bounce.tc + i) ∨
        ∃ v, v ≠ s.cur ∧ Remains s v (r.addr + r.nbyte - s.path.bounce.tc + i)) →
      s.path.bounce.mem (a + i) = s.path.direct.mem (r.addr + r.nbyte - s.path.bounce.tc + i)) :
    Mirror E (s.complete (twin C) okay calls) ∧
      SameMem ((twin C).stopdma s.path r) (s.complete (twin C) okay calls).path := by
  obtain ⟨t, r', rest, hr, hnone, hi, hcom, -, -, htc, haway, hpath, hrun⟩ :=
    hlive.vacate (P := twin C) hb okay calls
  obtain ⟨l, hl⟩ := h.head
  obtain ⟨rfl, rfl⟩ := List.cons.inj (hl.symm.trans hr)
  have hplaced := hlive.placed
  rw [slot_of_busy hb] at hplaced
  have hpath' : (t.intr s.cur r okay).path = (twin C).stopdma s.path r := by
    change t.path = _
    rw [hpath, stopdma_path hl]
    rfl
  have hrem : ∀ v, v ≠ s.cur → ∀ x, Remains s v x → Remains (t.intr s.cur r okay) v x := by
    intro v hv x hx
    refine hx.mono (fun y k' hy => ⟨k', ?_⟩) (congrFun haway v) fun _ => congrFun htc v
    change t.com v = _
    rw [hcom, Function.update_of_ne hv]
    exact hy
  have hstill : Still E (t.intr s.cur r okay) := by
    refine h.still hpath' (fun u x hx => ?_) (fun u x k' hx ha => ?_) hrem
      fun a ha hread i hk hi' hne => hrest a ha hread i hk hi' fun ho => hne (ho.imp_right
        fun ⟨v, hv, hx⟩ => ⟨v, hrem v hv _ hx⟩)
    · change x ∈ t.com u at hx
      rw [hcom] at hx
      by_cases hu : u = s.cur
      · subst hu
        rw [Function.update_self] at hx
        exact h.fit s.cur x (hl ▸ List.mem_cons_of_mem r hx)
      · rw [Function.update_of_ne hu] at hx
        exact h.fit u x hx
    · change t.com u = _ at hx
      change t.away u = true at ha
      rw [haway] at ha
      have hu : u ≠ s.cur := by
        rintro rfl
        rw [hplaced.slot_away _ rfl] at ha
        exact absurd ha nofun
      rw [hcom, Function.update_of_ne hu] at hx
      change t.tc u ≤ _
      rw [htc]
      exact h.away u x k' hx ha
  have hidle : (t.intr s.cur r okay).istate ≠ .IDLE := hi.symm ▸ hb.1
  have hnone' : Placed none (t.intr s.cur r okay) := hnone.congr rfl rfl rfl
  obtain ⟨hcalled, hsame⟩ := hstill.calls (C := C) hnone' hidle hcalls
  have hplaced' := hnone'.calls (P := twin C) hidle calls
  rw [hrun, ← hpath', ← hsame]
  generalize calls.foldl (fun s r => s.queue (twin C) r) (t.intr s.cur r okay) = v
    at hcalled hplaced'
  exact Still.startany (s := v.setIstate .IDLE)
    ⟨⟨hcalled.fit, hcalled.away, hcalled.wire, hcalled.direct⟩, hcalled.chip, hcalled.freed,
      hcalled.agree⟩ (hplaced'.congr rfl rfl rfl) rfl

/-! ### Interrupts -/

theorem Moving.count (h : Moving E s r k) {j : ℕ} (hj : ¬ Data s.istate → j = 0) :
    k + min j s.path.bounce.TC ≤ s.path.bounce.tc := by
  have hk := h.session.k_le
  by_cases hd : Data s.istate
  · have hsum := h.data hd
    omega
  · have h0 := hj hd
    omega

theorem Moving.fits (h : Moving E s r k) : InSpace r := by
  obtain ⟨l, hl⟩ := h.head
  exact h.fit s.cur r (hl ▸ List.mem_cons_self)

theorem Moving.move (h : Moving E s r k) {j : ℕ} (hj : ¬ Data s.istate → j = 0) :
    Moving E (s.setPath ((twin C).move s.path j)) r (k + min j s.path.bounce.TC) := by
  have hle := h.count hj
  refine ⟨⟨h.fit, h.away, (h.session.move_mem h.fits hle h.wire).1, h.direct⟩, h.head,
    h.session.move (C := C) h.fits hle h.wire, fun hd => ?_, h.ledger,
    h.session.move_agree h.fits hle h.wire h.agree⟩
  have hsum := h.data hd
  change s.path.bounce.TC - j + (k + min j s.path.bounce.TC) = s.path.bounce.tc
  omega

/-- No bytes come while no transfer is going on. -/
theorem Still.move (h : Still E s) : Still E (s.setPath ((twin C).move s.path 0)) := by
  obtain ⟨hmem, hwire⟩ := move_nothing (d := s.path.bounce) (Nat.zero_min _)
  obtain ⟨hmem', hwire'⟩ := move_nothing (d := s.path.direct) (Nat.zero_min _)
  refine ⟨⟨h.fit, h.away, ?_, h.direct⟩, h.chip, h.freed, ?_⟩
  · exact hwire'.trans (h.wire.trans hwire.symm)
  · change Agree _ _ (s.path.bounce.move 0).mem (s.path.direct.move 0).mem
    rw [hmem, hmem']
    exact h.agree

theorem atab_idle {n : ℕ} (h : atab .IDLE n ≠ 1) : atab .IDLE n = 3 := by
  unfold atab at h ⊢
  split at h <;> simp_all

/-- The pointers are saved: what has come will not come again. -/
theorem Moving.save (h : Moving E s r k) (hd : Data s.istate) :
    Moving E ((s.setTc s.cur s.path.bounce.TC).setIstate .RESUMING) r k := by
  have hsum := h.data hd
  obtain ⟨l, hl⟩ := h.head
  have hupdate : Function.update s.tc s.cur s.path.bounce.TC s.cur = s.path.bounce.TC :=
    Function.update_self _ _ _
  refine ⟨⟨h.fit, fun u x k' hx ha => ?_, h.wire, h.direct⟩, ⟨l, hl⟩, ⟨h.session.tc_le, ?_, ?_,
    h.session.k_le, h.session.dir, h.session.sac, h.session.near, h.session.block⟩, fun _ => hsum,
    h.ledger, ?_⟩
  · change Function.update s.tc s.cur s.path.bounce.TC u ≤ _
    by_cases hu : u = s.cur
    · subst hu
      obtain ⟨rfl, -⟩ := List.cons.inj (hl.symm.trans hx)
      rw [hupdate]
      exact Nat.le_trans (by omega) h.session.tc_le
    · rw [Function.update_of_ne hu]
      exact h.away u x k' hx ha
  · change Function.update s.tc s.cur s.path.bounce.TC s.cur ≤ s.path.bounce.tc
    rw [hupdate]
    omega
  · change s.path.bounce.tc ≤ Function.update s.tc s.cur s.path.bounce.TC s.cur + k
    rw [hupdate]
    omega
  · exact h.agree.mono fun x hx => hx.imp_left fun ho => ho.imp_right fun ⟨v, hne, hv⟩ =>
      ⟨v, hne, hv.mono (fun y k' hy => ⟨k', hy⟩) rfl fun _ => Function.update_of_ne hne _ _⟩

/-- The status has come; the chip's count is cleared. -/
theorem Moving.ending (h : Moving E s r k) :
    Moving E ((s.setPath ((twin C).setTC s.path 0)).setIstate .ENDING) r k :=
  ⟨⟨h.fit, h.away, h.wire, h.direct⟩, h.head, ⟨h.session.tc_le, h.session.saved_le,
    h.session.kept, h.session.k_le, h.session.dir, h.session.sac, h.session.near,
    h.session.block⟩, fun hd => absurd hd (by rintro (h | h) <;> exact nomatch h), h.ledger,
    h.agree⟩

/-- Seen before the last bytes came, the rest of the block is what `Filling` speaks of. -/
theorem Moving.filled (h : Moving E s r k) {e : Interrupt} (hj : ¬ Data s.istate → e.moved = 0)
    (hfill : Filling (s.map Twin.bounce, s.map Twin.direct) (.intr e)) (hends : Ends s e)
    {a : ℕ} (ha : s.path.bounce.chipaddr = some a) (hread : r.reading = true) {i : ℕ}
    (hi : k + min e.moved s.path.bounce.TC ≤ i) (hi' : i < s.path.bounce.tc)
    (hne : ∀ v, v ≠ s.cur → ¬ Remains s v (r.addr + r.nbyte - s.path.bounce.tc + i)) :
    (s.path.bounce.move e.moved).mem (a + i) =
      (s.path.direct.move e.moved).mem (r.addr + r.nbyte - s.path.bounce.tc + i) := by
  obtain ⟨l, hl⟩ := h.head
  obtain ⟨hb, hd⟩ := h.session.move_behind h.fits (h.count hj) h.wire ha hi
  rw [hb, hd]
  refine hfill hends r l a hl hread ha i ?_ hi' hne
  change s.path.bounce.sac - a + min e.moved s.path.bounce.TC ≤ i
  rw [(h.session.block a ha).2.2.2.1, Nat.add_sub_cancel_left]
  exact hi

/-- The step: an interrupt keeps the memories equal but for the exempt cells, provided that a
request that ends leaves nothing behind. -/
theorem Mirror.service (h : Mirror E s) (hinv : s.Inv) {e : Interrupt}
    (hreg : Regular s (.intr e))
    (hleft : (∀ x, E x) ∨ Filling (s.map Twin.bounce, s.map Twin.direct) (.intr e)) :
    Mirror E (s.service (twin C) e) ∧
      (s.service (twin C) e).path.direct.mem = (s.path.direct.move e.moved).mem ∧
      (Ends s e → ∀ r l, s.com s.cur = r :: l →
        SameMem ((twin C).stopdma ((twin C).move s.path e.moved) r)
          (s.service (twin C) e).path) := by
  obtain ⟨hcalls, hal, hmoved, h1, h8⟩ := hreg
  rcases h with ⟨hi, h⟩ | ⟨hb, hm, r, k, h⟩
  · have h3 : atab s.istate (itab e.ss) = 3 := by
      rw [hi] at h1 ⊢
      exact atab_idle h1
    have h0 := hmoved fun hd => by
      rw [hi] at hd
      rcases hd with hd | hd <;> exact nomatch hd
    have hnotdead : s.istate ≠ .DEAD := hi.symm ▸ nofun
    have hplaced := (hinv.2 hnotdead).placed
    rw [slot_of_idle hi] at hplaced
    have hrun : s.service (twin C) e =
        (s.setPath ((twin C).move s.path 0)).resume (twin C) e.si := by
      unfold Card.service
      dsimp only
      rw [h0, show atab (s.setPath ((twin C).move s.path 0)).istate (itab e.ss) = 3 from h3]
      rfl
    obtain ⟨hmirror, hsame⟩ := (h.move (C := C)).resume (C := C) (hplaced.congr rfl rfl rfl)
      (hal (atab_resume (.inr h3)).1 hnotdead)
    rw [hrun, h0]
    refine ⟨hmirror, hsame.1, fun hends => ?_⟩
    unfold Ends at hends
    rw [h3] at hends
    rcases hends with hends | hends <;> exact nomatch hends
  · have ht := h.move (C := C) hmoved
    have hlive := hinv.2 hb.2
    have hplaced := hlive.placed
    rw [slot_of_busy hb] at hplaced
    have hlive' : (s.setPath ((twin C).move s.path e.moved)).Live :=
      ⟨hlive.placed.congr rfl rfl rfl, hlive.idle⟩
    have hcomplete : Ends s e → ∀ okay,
        Mirror E ((s.setPath ((twin C).move s.path e.moved)).complete (twin C) okay e.calls) ∧
        SameMem ((twin C).stopdma ((twin C).move s.path e.moved) r)
          ((s.setPath ((twin C).move s.path e.moved)).complete (twin C) okay e.calls).path := by
      refine fun hends okay => ht.complete hlive' hb okay hcalls fun a ha hread i hi hi' hne => ?_
      rcases hleft with hE | hfill
      · exact absurd (.inl (hE _)) hne
      · exact h.filled hmoved hfill hends ha hread hi hi' fun v hv hx => hne (.inr ⟨v, hv, hx⟩)
    obtain ⟨l, hl⟩ := h.head
    have hends : Ends s e → ∀ {t : Card Twin},
        SameMem ((twin C).stopdma ((twin C).move s.path e.moved) r) t.path →
        t.path.direct.mem = (s.path.direct.move e.moved).mem ∧
        (Ends s e → ∀ r l, s.com s.cur = r :: l →
          SameMem ((twin C).stopdma ((twin C).move s.path e.moved) r) t.path) := by
      refine fun _ t hsame => ⟨hsame.1.trans ?_, fun _ r' l' hr' => ?_⟩
      · exact congrArg Bounce.mem (Bounce.stopdma_none ht.direct r)
      · obtain ⟨rfl, -⟩ := List.cons.inj (hl.symm.trans hr')
        exact hsame
    have hnot : ∀ {t : Card Twin} {n : ℕ}, atab s.istate (itab e.ss) = n → n ≠ 0 → n ≠ 5 →
        Ends s e → ∀ r l, s.com s.cur = r :: l →
          SameMem ((twin C).stopdma ((twin C).move s.path e.moved) r) t.path :=
      fun hn h0 h5 ho => absurd ho fun ho => ho.elim (fun h => h0 (hn.symm.trans h))
        fun h => h5 (hn.symm.trans h)
    have hstop : (s.setPath ((twin C).move s.path e.moved)).stopdma (twin C) =
        s.setPath ((twin C).stopdma ((twin C).move s.path e.moved) r) :=
      stopdma_path (s := s.setPath ((twin C).move s.path e.moved)) hl
    have hdirect : ((twin C).stopdma ((twin C).move s.path e.moved) r).direct.mem =
        (s.path.direct.move e.moved).mem :=
      congrArg Bounce.mem (Bounce.stopdma_none ht.direct r)
    unfold Card.service
    dsimp only
    split
    case h_1 heq =>
      have he : Ends s e := .inl heq
      obtain ⟨hmirror, hsame⟩ := hcomplete he (if e.cp = 0x60 then some e.ts else none)
      exact ⟨hmirror, hends he hsame⟩
    case h_2 heq => exact absurd heq h1
    case h_3 heq =>
      have h4 := (atab_resume (.inl heq)).1
      have hi : (s.setPath ((twin C).stopdma ((twin C).move s.path e.moved) r)).istate ≠ .IDLE :=
        hb.1
      rw [hstop, uqueue_of_ne_idle hi]
      obtain ⟨hmirror, hsame⟩ := Still.resume (C := C)
        (ht.requeue (C := C) (hplaced.slot_away _ rfl)) (hplaced.requeue rfl rfl rfl) (hal h4 hb.2)
      exact ⟨hmirror, hsame.1.trans hdirect, hnot heq nofun nofun⟩
    case h_4 heq => exact absurd ((atab_resume (.inr heq)).2.2 heq) hb.1
    case h_5 heq => exact absurd (atab_restore heq) hm
    case h_6 heq =>
      have he : Ends s e := .inr heq
      obtain ⟨hmirror, hsame⟩ := hcomplete he none
      exact ⟨hmirror, hends he hsame⟩
    case h_7 heq =>
      have hsave := ht.save (atab_data (.inl heq))
      exact ⟨.inr ⟨⟨nofun, nofun⟩, nofun, r, _, hsave⟩, rfl, hnot heq nofun nofun⟩
    case h_8 heq =>
      rw [hstop]
      have hleave := ht.leave (C := C)
      obtain ⟨hmirror, hsame⟩ := Still.startany (C := C) (s := ((s.setPath ((twin C).stopdma
        ((twin C).move s.path e.moved) r)).setAway s.cur true).setIstate .IDLE)
        ⟨⟨hleave.fit, hleave.away, hleave.wire, hleave.direct⟩, hleave.chip, hleave.freed,
          hleave.agree⟩ (hplaced.leave.congr rfl rfl rfl) rfl
      exact ⟨hmirror, hsame.1.trans hdirect, hnot heq nofun nofun⟩
    case h_9 heq => exact absurd heq h8
    case h_10 h0 _ h2 h3 h4 h5 h6 h7 _ =>
      exact ⟨.inr ⟨⟨nofun, nofun⟩, nofun, r, _, ht.ending⟩, rfl, hnot rfl h0 h5⟩

/-! ### Runs -/

/-- The two controllers that one with two boards stands for. -/
def sides (s : Card Twin) : Card Bounce × Card Bounce := (s.map Twin.bounce, s.map Twin.direct)

theorem sides_step (s : Card Twin) (e : Event) : sides (step (twin C) s e) = both C (sides s) e :=
  Prod.ext (map_step hom_bounce s e) (map_step hom_direct s e)

/-- The invariant of a run. -/
def Kept (E : ℕ → Prop) (s : Card Twin) : Prop := s.Inv ∧ Mirror E s

theorem Kept.live (h : Kept E s) : s.Live := by
  refine h.1.2 ?_
  rcases h.2 with ⟨hi, -⟩ | ⟨hb, -⟩
  · rw [hi]
    nofun
  · exact hb.2

theorem Kept.step (h : Kept E s) {e : Event} (hreg : Regular s e)
    (hleft : (∀ x, E x) ∨ Filling (sides s) e) : Kept E (step (twin C) s e) := by
  cases e with
  | queue r => exact ⟨h.1.queue r, (h.2.queue h.live hreg).1⟩
  | intr e => exact ⟨h.1.service hreg.2.1, (h.2.service h.1 hreg hleft).1⟩

/-- Whatever blocks held, the other invariants are kept. -/
theorem Kept.any (h : Kept E s) : Kept (fun _ => True) s := by
  refine ⟨h.1, h.2.imp (fun ⟨hi, h⟩ => ⟨hi, h.toKnown, h.chip, h.freed, ?_⟩)
    fun ⟨hb, hm, r, k, h⟩ => ⟨hb, hm, r, k, h.toKnown, h.head, h.session, h.data, h.ledger, ?_⟩⟩
  · exact fun x _ hn => absurd (.inl trivial) hn
  · exact fun x _ hn => absurd (.inl (.inl trivial)) hn

theorem Kept.freed (h : Kept E s) : Ledger s.path.bounce := by
  rcases h.2 with ⟨-, h⟩ | ⟨-, -, r, k, h⟩
  · rw [Ledger, h.chip]
    exact h.freed.trans (List.append_nil _).symm
  · exact h.ledger

/-- What moves is stored where the request has its bytes that are still to come. -/
theorem Kept.received (h : Kept E s) {e : Interrupt} (hmoved : ¬ Data s.istate → e.moved = 0) :
    (s.path.direct.move e.moved).mem = received (s.map Twin.direct) (.intr e) := by
  unfold Card.received
  dsimp only
  rw [map_com, map_cur, map_path]
  by_cases hn : min e.moved s.path.direct.TC = 0
  · rw [(move_nothing hn).1, hn]
    split
    · rw [put_zero, ite_self]
    · rfl
  · have hd : Data s.istate := by
      by_contra hd
      rw [hmoved hd, Nat.zero_min] at hn
      exact hn rfl
    rcases h.2 with ⟨hi, -⟩ | ⟨-, -, r, k, h⟩
    · rw [hi] at hd
      rcases hd with hd | hd <;> exact nomatch hd
    · obtain ⟨l, hl⟩ := h.head
      have hsum := h.data hd
      have hle := Nat.le_trans h.session.tc_le (Nat.mod_le _ _)
      rw [hl, (h.session.move_mem h.fits (h.count hmoved) h.wire).2.1, s.path.same, h.wire,
        show r.addr + r.nbyte - s.path.bounce.tc + k = r.addr + r.nbyte - s.path.bounce.TC by omega]

/-- Until now the memories were equal but for what is still to come: then the step is transparent
just when a request that ends has filled its block, or the block held the right bytes. -/
theorem Kept.transparent_iff (h : Kept (fun _ => False) s) {e : Event} (hreg : Regular s e) :
    Transparent C (sides s) e ↔ Filling (sides s) e := by
  have hfreed : Ledger (both C (sides s) e).1.path := by
    rw [← sides_step]
    exact (h.any.step hreg (.inl fun _ => trivial)).freed
  cases e with
  | queue r =>
      refine ⟨fun _ => trivial, fun _ => ⟨nofun, ?_, hfreed⟩⟩
      rw [← sides_step]
      exact (h.2.queue (C := C) h.live hreg).2.1
  | intr e =>
      obtain ⟨-, hdirect, hends⟩ := h.any.2.service (C := C) h.1 hreg (.inl fun _ => trivial)
      have hstored : (both C (sides s) (.intr e)).2.path.mem =
          Card.received (sides s).2 (.intr e) := by
        rw [← sides_step]
        exact hdirect.trans (h.received hreg.2.2.1)
      rcases h.2 with ⟨hi, -⟩ | ⟨-, -, r, k, hmov⟩
      · have hno : ¬ Ends s e := by
          have h1 := hreg.2.2.2.1
          unfold Ends
          rw [hi] at h1 ⊢
          rw [atab_idle h1]
          rintro (h3 | h3) <;> exact nomatch h3
        exact ⟨fun _ he => absurd he hno,
          fun _ => ⟨fun i hi he => absurd (Event.intr.inj hi ▸ he) hno, hstored, hfreed⟩⟩
      · obtain ⟨l, hl⟩ := hmov.head
        have ht := hmov.move (C := C) hreg.2.2.1
        constructor
        · intro htr he r' l' a hr' hread ha j hj hj' hne
          obtain ⟨rfl, -⟩ := List.cons.inj (hl.symm.trans hr')
          obtain ⟨-, hfar, -, hsac, -⟩ := hmov.session.block a ha
          have hle := Nat.le_trans hmov.session.tc_le (Nat.mod_le _ _)
          change s.path.bounce.sac - a + min e.moved s.path.bounce.TC ≤ j at hj
          rw [hsac, Nat.add_sub_cancel_left] at hj
          change j < s.path.bounce.tc at hj'
          obtain ⟨hbehind, hbehind'⟩ := hmov.session.move_behind hmov.fits
            (hmov.count hreg.2.2.1) hmov.wire ha hj
          have hsame := htr.same e rfl he r l hl hfar (r.addr + r.nbyte - s.path.bounce.tc + j)
            (by omega) (by omega) hne
          rw [← sides_step] at hsame
          have hafter := hends he r l hl
          change s.path.bounce.mem (a + j) =
            s.path.direct.mem (r.addr + r.nbyte - s.path.bounce.tc + j)
          rw [← hbehind, ← hbehind', ← hdirect]
          refine Eq.trans ?_ hsame
          have hhigh : 0x1000000 ≤ r.addr + r.nbyte - s.path.bounce.tc + j := by omega
          exact ((hafter.2 _ hhigh).trans
            (ht.session.stop_window hmov.fits ha hread hj')).symm
        · intro hfill
          refine ⟨fun i hi he r' l' hr' hfar x hx hx' hne => ?_, hstored, hfreed⟩
          obtain rfl := Event.intr.inj hi
          obtain ⟨rfl, -⟩ := List.cons.inj (hl.symm.trans hr')
          rw [← sides_step]
          have hafter := hends he r l hl
          refine (hafter.2 x (by omega)).trans (Eq.trans ?_ (congrFun hdirect x).symm)
          refine ht.session.stop (V := fun x => ∃ v, v ≠ s.cur ∧ Remains s v x) hmov.fits ht.agree
            (fun y hy => hy.resolve_left id) (fun a ha hread i hi hi' hn => ?_) x (by omega)
            fun ⟨v, hv, hrem⟩ => hne v hv hrem
          exact hmov.filled hreg.2.2.1 hfill he ha hread hi hi' fun v hv hrem => hn ⟨v, hv, hrem⟩

/-- A controller with two boards, before its first request. -/
theorem kept_fresh (E : ℕ → Prop) (m w : Mem) :
    Kept E (init ⟨Bounce.clear m w, Bounce.clear m w, rfl⟩) :=
  ⟨init_inv _, .inl ⟨rfl, ⟨fun _ _ hr => absurd hr List.not_mem_nil, nofun, rfl, rfl⟩, rfl, rfl,
    fun _ _ _ => rfl⟩⟩

/-- What holds of every step holds of every step of both sides. -/
theorem every_sides {Q : Card Bounce × Card Bounce → Event → Prop} (m w : Mem)
    (es : List Event) : Every (both C) Q (fresh m w) es ↔
      Every (step (twin C)) (fun s e => Q (sides s) e)
        (init ⟨Bounce.clear m w, Bounce.clear m w, rfl⟩) es := by
  rw [show fresh m w = sides (init ⟨Bounce.clear m w, Bounce.clear m w, rfl⟩) from rfl]
  exact every_map sides sides_step _ es

/-- On every run direct DMA stores exactly what the targets send, and every block but the one in
hand has been freed once, with its size. -/
theorem blocks_freed_once (C : ChipMem) (m w : Mem) {es : List Event}
    (hreg : Every (both C) (fun p e => Regular p.1 e) (fresh m w) es) :
    Every (both C) (fun p e => (both C p e).2.path.mem = Card.received p.2 e ∧
      Ledger (both C p e).1.path) (fresh m w) es := by
  rw [every_sides] at hreg ⊢
  refine every_of_invariant (Kept fun _ => True) (fun s e h hr => h.step hr (.inl fun _ => trivial))
    (fun s e h hr => ?_) (kept_fresh _ m w) hreg
  rw [← sides_step]
  refine ⟨?_, (h.step hr (.inl fun _ => trivial)).freed⟩
  cases e with
  | queue r => exact (h.2.queue (C := C) h.live hr).2.1
  | intr e =>
      exact (h.2.service (C := C) h.1 hr (.inl fun _ => trivial)).2.1.trans (h.received hr.2.2.1)

/-- On every run of transfers, saved pointers, disconnections and reselections the bounce buffer
is transparent just when each reading request that ends has filled its last block, or the block
held the right bytes behind what the target sent. -/
theorem bounce_transparent_iff (C : ChipMem) (m w : Mem) {es : List Event}
    (hreg : Every (both C) (fun p e => Regular p.1 e) (fresh m w) es) :
    Every (both C) (Transparent C) (fresh m w) es ↔ Every (both C) Filling (fresh m w) es := by
  rw [every_sides] at hreg ⊢
  rw [every_sides]
  have hiff : Every (step (twin C)) (fun s e => Transparent C (sides s) e ∧ Regular s e)
        (init ⟨Bounce.clear m w, Bounce.clear m w, rfl⟩) es ↔
      Every (step (twin C)) (fun s e => Filling (sides s) e ∧ Regular s e)
        (init ⟨Bounce.clear m w, Bounce.clear m w, rfl⟩) es :=
    every_iff (Kept fun _ => False) (fun s e h hg => h.step hg.2 (.inr hg.1))
      (fun s e h => and_congr_left fun hr => h.transparent_iff hr) (kept_fresh _ m w) es
  have hfst : ∀ {Q R : Card Twin → Event → Prop} {s : Card Twin},
      Every (step (twin C)) (fun s e => Q s e ∧ R s e) s es → Every (step (twin C)) Q s es :=
    fun h => every_of_invariant (fun _ => True) (fun _ _ _ _ => trivial) (fun _ _ _ h => h.1)
      trivial h
  exact ⟨fun h => hfst (hiff.mp (h.and hreg)), fun h => hfst (hiff.mpr (h.and hreg))⟩

/-- 1 MB of chip memory from 64 KB on, whose blocks hold `0xaa`. -/
def chip : ChipMem where
  AllocMem _ size := if size ≤ 0x100000 then 0x10000 else 0x1000000 - size
  held _ _ := 0xaa#8
  low _ size h := by
    split_ifs <;> omega

/-- An inquiry of 255 bytes into memory at 128 MB. -/
def inquiry : Sdcom := ⟨3#3, true, [0x12#8, 0#8, 0#8, 0#8, 255#8, 0#8], 0x8000000, 255⟩

/-- A status for unit 3, after some bytes. -/
def report (ss moved : ℕ) : Event := .intr ⟨ss, 0x83#8, 0x60, 0, 0, moved, []⟩

theorem regular_report {D : Type} {s : Card D} {ss moved : ℕ} (h4 : itab ss ≠ 4)
    (hm : Data s.istate ∨ moved = 0) (h1 : atab s.istate (itab ss) ≠ 1)
    (h8 : atab s.istate (itab ss) ≠ 8) : Regular s (report ss moved) :=
  ⟨nofun, fun h => absurd h h4, fun hd => hm.resolve_left hd, h1, h8⟩

theorem regular_inquiry {D : Type} (s : Card D) : Regular s (.queue inquiry) := by
  change 0x8000000 + 255 ≤ 0x100000000
  decide

theorem filling_report {p : Card Bounce × Card Bounce} {ss moved : ℕ}
    (h0 : atab p.1.istate (itab ss) ≠ 0) (h5 : atab p.1.istate (itab ss) ≠ 5) :
    Filling p (report ss moved) := fun h => absurd h fun ho => ho.elim h0 h5

/-- Target 3 sends 100 bytes, saves the pointers, leaves, comes back and sends the others. -/
theorem bounce_transparent_iff_all : Every (both chip) (Transparent chip)
    (fresh (fun _ => 0#8) fun i => BitVec.ofNat 8 i)
    [.queue inquiry, report 0x21 100, report 0x85 0, report 0x81 0, report 0x4b 155,
      report 0x16 0] := by
  refine (bounce_transparent_iff chip (fun _ => 0#8) (fun i => BitVec.ofNat 8 i) ?_).mpr ?_
  · exact ⟨regular_inquiry _, regular_report (by decide) (.inl (.inl rfl)) (by decide) (by decide),
      regular_report (by decide) (.inl (.inr rfl)) (by decide) (by decide),
      ⟨nofun, fun _ _ => rfl, fun _ => rfl, by decide, by decide⟩,
      regular_report (by decide) (.inl (.inr rfl)) (by decide) (by decide),
      regular_report (by decide) (.inr rfl) (by decide) (by decide), trivial⟩
  · refine ⟨trivial, filling_report (by decide) (by decide), filling_report (by decide) (by decide),
      filling_report (by decide) (by decide), filling_report (by decide) (by decide), ?_, trivial⟩
    intro _ r l a hr hread ha j hj hj' _
    change some 0x10000 = some a at ha
    obtain rfl := Option.some.inj ha
    change 0x10000 + 155 - 0x10000 + 0 ≤ j at hj
    change j < 155 at hj'
    omega

/-- A target that has 36 bytes to send for 255: the other 219 come from chip memory. -/
theorem bounce_transparent_fails : ¬ ∀ (C : ChipMem) (m w : Mem) (es : List Event),
    Every (both C) (fun p e => Regular p.1 e) (fresh m w) es →
      Every (both C) (Transparent C) (fresh m w) es := by
  intro h
  obtain ⟨-, -, hlast, -⟩ := h chip (fun _ => 0#8) (fun i => BitVec.ofNat 8 i)
    [.queue inquiry, report 0x4b 36, report 0x16 0]
    ⟨regular_inquiry _, regular_report (by decide) (.inl (.inl rfl)) (by decide) (by decide),
      regular_report (by decide) (.inr rfl) (by decide) (by decide), trivial⟩
  have hsame := hlast.same _ rfl (.inl rfl) inquiry [] rfl (by decide) (0x8000000 + 100)
    (by decide) (by decide) ?_
  · exact absurd hsame (by decide)
  · intro v hv ⟨r, l, hr, _⟩
    have hnone : ∀ v : UnitNo, v ≠ 3#3 → Function.update (fun _ => ([] : List Sdcom)) (3#3)
        [inquiry] v = [] := fun v hv => Function.update_of_ne hv _ _
    exact absurd ((hnone v hv).symm.trans hr) nofun

end Card

end HydraAmix.Scsi.Controller
