import HydraAmix.Library.Schedule
import HydraAmix.Scsi.Controller
import Mathlib.Data.List.Nodup

/-!
# SCSI requests complete exactly once

Whatever statuses arrive and whatever is queued, also by the handlers of requests
that end, the handlers of a unit's requests are called in queue order. Until the
driver has shut down a unit with requests is at exactly one place: the bus, the
start list, or with its target, which will come back.
-/
namespace HydraAmix.Scsi.Controller
open Schedule

namespace Card

variable {D : Type} {P : DataPath D} {s : Card D}

/-- What was queued for a unit is what was handled, then what is pending. -/
def Logged (s : Card D) : Prop := ∀ u, s.asked u = (s.done u).map Prod.fst ++ s.com u

/-- The units with requests are the one in the slot, those on the start list and
those whose targets are away, and no unit is at two of these places. -/
structure Placed (slot : Option UnitNo) (s : Card D) : Prop where
  nodup : s.start.Nodup
  pending : ∀ u, s.com u ≠ [] ↔ slot = some u ∨ u ∈ s.start ∨ s.away u = true
  slot_start : ∀ u, slot = some u → u ∉ s.start
  slot_away : ∀ u, slot = some u → s.away u = false
  start_away : ∀ u ∈ s.start, s.away u = false

/-- The current unit, in the states in which it has the bus. -/
def slot (s : Card D) : Option UnitNo :=
  match s.istate with
  | .IDLE | .DEAD => none
  | _ => some s.cur

structure Live (s : Card D) : Prop where
  placed : Placed s.slot s
  idle : s.istate = .IDLE → s.start = []

def Inv (s : Card D) : Prop := s.Logged ∧ (s.istate ≠ .DEAD → s.Live)

theorem slot_of_busy (h : s.istate.Busy) : s.slot = some s.cur := by
  unfold slot
  obtain ⟨hi, hd⟩ := h
  cases hs : s.istate <;> simp_all

theorem slot_of_idle (h : s.istate = .IDLE) : s.slot = none := by
  rw [slot, h]

/-! ### The start list -/

theorem startany_of_ne_idle (h : s.istate ≠ .IDLE) : s.startany P = s := by
  unfold startany
  split
  · exact absurd ‹_› h
  · rfl

theorem startany_of_nil (h : s.start = []) : s.startany P = s := by
  unfold startany
  split
  · rename_i hs
    rw [h] at hs
    exact absurd hs nofun
  · rfl

theorem uqueue_of_ne_idle (h : s.istate ≠ .IDLE) (u : UnitNo) :
    s.uqueue P u = s.setStart (s.start ++ [u]) := by
  unfold uqueue
  split_ifs with hs
  · rfl
  · rw [not_not.mp hs]
    exact startany_of_ne_idle h

theorem Placed.congr {slot : Option UnitNo} {t : Card D} (h : Placed slot s) (hc : t.com = s.com)
    (hs : t.start = s.start) (ha : t.away = s.away) : Placed slot t where
  nodup := hs ▸ h.nodup
  pending := by
    rw [hc, hs, ha]
    exact h.pending
  slot_start := by
    rw [hs]
    exact h.slot_start
  slot_away := by
    rw [ha]
    exact h.slot_away
  start_away := by
    rw [hs, ha]
    exact h.start_away

theorem Placed.away_ne_nil {slot : Option UnitNo} (h : Placed slot s) (u : UnitNo)
    (ha : s.away u = true) : s.com u ≠ [] := (h.pending u).mpr (.inr (.inr ha))

/-- What `startany` leaves alone. -/
theorem startany_same (s : Card D) : (s.startany P).com = s.com ∧ (s.startany P).away = s.away ∧
    (s.startany P).asked = s.asked ∧ (s.startany P).done = s.done := by
  unfold startany
  split
  · split
    · exact ⟨rfl, rfl, rfl, rfl⟩
    · exact ⟨rfl, rfl, rfl, rfl⟩
  · exact ⟨rfl, rfl, rfl, rfl⟩

/-- An idle controller takes the first unit of the start list. -/
theorem Placed.startany (h : Placed none s) (hi : s.istate = .IDLE) : (s.startany P).Live := by
  cases hstart : s.start with
  | nil =>
      rw [startany_of_nil hstart]
      exact ⟨by rw [slot_of_idle hi]; exact h, fun _ => hstart⟩
  | cons u rest =>
      have hu : u ∈ s.start := by
        rw [hstart]
        exact List.mem_cons_self
      have hcom := (h.pending u).mpr (.inr (.inl hu))
      obtain ⟨r, l, hr⟩ := List.exists_cons_of_ne_nil hcom
      unfold Card.startany
      rw [hi, hstart]
      simp only [hr]
      refine ⟨?_, nofun⟩
      have hnodup := h.nodup
      rw [hstart] at hnodup
      obtain ⟨hnot, hrest⟩ := List.nodup_cons.mp hnodup
      change Placed (some u) _
      refine ⟨hrest, fun v => ?_, fun v hv => ?_, fun v hv => ?_, fun v hv => ?_⟩
      · have hp := h.pending v
        rw [hstart] at hp
        refine hp.trans ?_
        change none = some v ∨ v ∈ u :: rest ∨ s.away v = true ↔
          some u = some v ∨ v ∈ rest ∨ s.away v = true
        simp only [reduceCtorEq, false_or, List.mem_cons, Option.some.injEq, eq_comm, or_assoc]
      · cases hv
        exact hnot
      · cases hv
        exact h.start_away u hu
      · exact h.start_away v (hstart ▸ List.mem_cons_of_mem u hv)

/-! ### Queueing -/

theorem Logged.of_same {t : Card D} (h : s.Logged) (hc : t.com = s.com) (ha : t.asked = s.asked)
    (hd : t.done = s.done) : t.Logged := by
  intro u
  rw [hc, ha, hd]
  exact h u

theorem uqueue_same (s : Card D) (u : UnitNo) : (s.uqueue P u).com = s.com ∧
    (s.uqueue P u).asked = s.asked ∧ (s.uqueue P u).done = s.done := by
  unfold uqueue
  split_ifs
  · exact ⟨rfl, rfl, rfl⟩
  · obtain ⟨hc, -, ha, hd⟩ := startany_same (P := P) (s.setStart [u])
    exact ⟨hc, ha, hd⟩

theorem queue_of_ne_nil {r : Sdcom} (hc : s.com r.unit ≠ []) :
    s.queue P r = (s.ask r).setCom r.unit (s.com r.unit ++ [r]) := if_pos hc

theorem queue_of_nil {r : Sdcom} (hc : s.com r.unit = []) :
    s.queue P r = ((s.ask r).setCom r.unit [r]).uqueue P r.unit := if_neg (not_not.mpr hc)

/-- The queue of the unit, and no other, has one request more. -/
theorem queue_com (s : Card D) (r : Sdcom) :
    (s.queue P r).com = Function.update s.com r.unit (s.com r.unit ++ [r]) ∧
      (s.queue P r).asked = Function.update s.asked r.unit (s.asked r.unit ++ [r]) ∧
      (s.queue P r).done = s.done := by
  by_cases hc : s.com r.unit = []
  · obtain ⟨h1, h2, h3⟩ := uqueue_same (P := P) ((s.ask r).setCom r.unit [r]) r.unit
    rw [queue_of_nil hc, h1, h2, h3, hc]
    exact ⟨rfl, rfl, rfl⟩
  · rw [queue_of_ne_nil hc]
    exact ⟨rfl, rfl, rfl⟩

theorem Logged.queue (h : s.Logged) (r : Sdcom) : (s.queue P r).Logged := by
  obtain ⟨hc, ha, hd⟩ := queue_com (P := P) s r
  intro u
  rw [hc, ha, hd]
  by_cases hu : u = r.unit
  · subst hu
    rw [Function.update_self, Function.update_self, h, List.append_assoc]
  · rw [Function.update_of_ne hu, Function.update_of_ne hu]
    exact h u

/-- A further request for a unit that has some. -/
theorem Placed.append {slot : Option UnitNo} (h : Placed slot s) {r : Sdcom}
    (hc : s.com r.unit ≠ []) :
    Placed slot ((s.ask r).setCom r.unit (s.com r.unit ++ [r])) where
  nodup := h.nodup
  pending v := by
    refine Iff.trans ?_ (h.pending v)
    change Function.update s.com r.unit (s.com r.unit ++ [r]) v ≠ [] ↔ s.com v ≠ []
    by_cases hv : v = r.unit
    · subst hv
      rw [Function.update_self]
      exact ⟨fun _ => hc, fun _ => List.append_ne_nil_of_right_ne_nil _ (List.cons_ne_nil r [])⟩
    · rw [Function.update_of_ne hv]
  slot_start := h.slot_start
  slot_away := h.slot_away
  start_away := h.start_away

/-- The end of the start list, for a unit that has got requests and is nowhere. -/
theorem Placed.enlist {slot : Option UnitNo} {t : Card D} {u : UnitNo} (h : Placed slot s)
    (hu : s.com u = []) (hc : ∀ v, t.com v ≠ [] ↔ v = u ∨ s.com v ≠ [])
    (hs : t.start = s.start ++ [u]) (ha : t.away = s.away) : Placed slot t := by
  have hnot : ¬ (slot = some u ∨ u ∈ s.start ∨ s.away u = true) := fun hn =>
    absurd hu ((h.pending u).mpr hn)
  obtain ⟨hslot, hstart, haway⟩ := by simpa only [not_or] using hnot
  refine ⟨?_, fun v => ?_, fun v hv => ?_, fun v hv => ?_, fun v hv => ?_⟩
  · rw [hs]
    exact List.nodup_append.mpr ⟨h.nodup, List.nodup_singleton u, fun a ha b hb => by
      rw [List.mem_singleton.mp hb]
      exact fun he => hstart (he ▸ ha)⟩
  · rw [hc, hs, ha, h.pending v, List.mem_append, List.mem_singleton]
    tauto
  · rw [hs, List.mem_append, List.mem_singleton]
    rintro (hm | rfl)
    · exact h.slot_start v hv hm
    · exact hslot hv
  · rw [ha]
    exact h.slot_away v hv
  · rw [ha]
    rw [hs, List.mem_append, List.mem_singleton] at hv
    rcases hv with hv | rfl
    · exact h.start_away v hv
    · exact Bool.eq_false_iff.mpr haway

theorem Placed.queue_new {slot : Option UnitNo} (h : Placed slot s) {r : Sdcom}
    (hc : s.com r.unit = []) :
    Placed slot (((s.ask r).setCom r.unit [r]).setStart (s.start ++ [r.unit])) := by
  refine h.enlist hc (fun v => ?_) rfl rfl
  change Function.update s.com r.unit [r] v ≠ [] ↔ _
  by_cases hv : v = r.unit
  · subst hv
    rw [Function.update_self]
    exact ⟨fun _ => .inl rfl, fun _ => List.cons_ne_nil r []⟩
  · rw [Function.update_of_ne hv]
    exact ⟨.inr, fun ho => ho.resolve_left hv⟩

theorem queue_of_busy (hi : s.istate ≠ .IDLE) (r : Sdcom) :
    (s.queue P r).istate = s.istate ∧ (s.queue P r).cur = s.cur := by
  by_cases hc : s.com r.unit = []
  · rw [queue_of_nil hc, uqueue_of_ne_idle (s := (s.ask r).setCom r.unit [r]) hi]
    exact ⟨rfl, rfl⟩
  · rw [queue_of_ne_nil hc]
    exact ⟨rfl, rfl⟩

/-- While the controller is not idle, a request is only appended or enlisted. -/
theorem queue_tc (hi : s.istate ≠ .IDLE) (r : Sdcom) :
    (s.queue P r).tc = s.tc ∧ (s.queue P r).path = s.path ∧
      (s.queue P r).away = s.away := by
  by_cases hc : s.com r.unit = []
  · rw [queue_of_nil hc, uqueue_of_ne_idle (s := (s.ask r).setCom r.unit [r]) hi]
    exact ⟨rfl, rfl, rfl⟩
  · rw [queue_of_ne_nil hc]
    exact ⟨rfl, rfl, rfl⟩

/-- The first request of a unit that has some stays the first one. -/
theorem queue_head {u : UnitNo} (hne : s.com u ≠ []) {r r' : Sdcom} {l' : List Sdcom}
    (h : Function.update s.com r.unit (s.com r.unit ++ [r]) u = r' :: l') :
    ∃ l, s.com u = r' :: l := by
  obtain ⟨r₀, l₀, h₀⟩ := List.exists_cons_of_ne_nil hne
  by_cases hu : u = r.unit
  · subst hu
    rw [Function.update_self, h₀] at h
    obtain ⟨rfl, -⟩ := List.cons.inj h
    exact ⟨l₀, h₀⟩
  · rw [Function.update_of_ne hu] at h
    exact ⟨l', h⟩

/-- While the controller is not idle, queueing starts nothing. -/
theorem Placed.queue {slot : Option UnitNo} (h : Placed slot s) (hi : s.istate ≠ .IDLE)
    (r : Sdcom) : Placed slot (s.queue P r) ∧ (s.queue P r).istate = s.istate ∧
      (s.queue P r).cur = s.cur := by
  obtain ⟨hi', hcur⟩ := queue_of_busy (P := P) hi r
  refine ⟨?_, hi', hcur⟩
  by_cases hc : s.com r.unit = []
  · rw [queue_of_nil hc, uqueue_of_ne_idle (s := (s.ask r).setCom r.unit [r]) hi]
    exact h.queue_new hc
  · rw [queue_of_ne_nil hc]
    exact h.append hc

/-- What the handler of a request queues. -/
theorem Placed.calls {slot : Option UnitNo} (h : Placed slot s) (hi : s.istate ≠ .IDLE)
    (calls : List Sdcom) : Placed slot (calls.foldl (fun s r => s.queue P r) s) := by
  induction calls generalizing s with
  | nil => exact h
  | cons r calls ih =>
      obtain ⟨hp, hi', -⟩ := h.queue (P := P) hi r
      exact ih hp (hi'.symm ▸ hi)

theorem Logged.calls (h : s.Logged) (calls : List Sdcom) :
    (calls.foldl (fun s r => s.queue P r) s).Logged := by
  induction calls generalizing s with
  | nil => exact h
  | cons r calls ih => exact ih (h.queue r)

theorem Inv.queue (h : s.Inv) (r : Sdcom) : (s.queue P r).Inv := by
  refine ⟨h.1.queue r, fun hd => ?_⟩
  by_cases hi : s.istate = .IDLE
  · have hlive := h.2 (hi ▸ nofun)
    have hplaced := hlive.placed
    rw [slot_of_idle hi] at hplaced
    have hnil := hlive.idle hi
    by_cases hc : s.com r.unit = []
    · have hnew := hplaced.queue_new hc
      rw [hnil] at hnew
      have hu : ((s.ask r).setCom r.unit [r]).uqueue P r.unit =
          (((s.ask r).setCom r.unit [r]).setStart [r.unit]).startany P :=
        if_neg (not_not.mpr hnil)
      rw [queue_of_nil hc, hu]
      exact hnew.startany hi
    · rw [queue_of_ne_nil hc]
      refine ⟨?_, fun _ => hnil⟩
      rw [slot_of_idle (show ((s.ask r).setCom r.unit _).istate = .IDLE from hi)]
      exact hplaced.append hc
  · obtain ⟨hi', hcur⟩ := queue_of_busy (P := P) hi r
    rw [hi'] at hd
    have hslot : (s.queue P r).slot = s.slot := by
      rw [slot, slot, hi', hcur]
    refine ⟨hslot ▸ ((h.2 hd).placed.queue hi r).1, fun h0 => absurd (hi' ▸ h0) hi⟩

/-! ### Interrupts -/

theorem atab_busy {i : IState} {n : ℕ} (h1 : atab i n ≠ 1) (h3 : atab i n ≠ 3) : i.Busy := by
  unfold atab at h1 h3
  split at h1 <;> first
    | exact ⟨by decide, by decide⟩
    | exact absurd rfl h1
    | exact absurd rfl h3

theorem atab_resume {i : IState} {n : ℕ} (h : atab i n = 2 ∨ atab i n = 3) :
    n = 4 ∧ (atab i n = 2 → i = .STARTING) ∧ (atab i n = 3 → i = .IDLE) := by
  unfold atab at h ⊢
  split at h <;> simp_all

theorem atab_dead (n : ℕ) : atab .DEAD n = 1 := by
  unfold atab
  split <;> simp_all

/-- `stopdma` and the moves of the chip do not touch the queues. -/
theorem stopdma_eq (s : Card D) : ∃ d, s.stopdma P = s.setPath d := by
  unfold stopdma
  split
  · exact ⟨_, rfl⟩
  · exact ⟨s.path, rfl⟩

/-- The request of the current unit ends: the unit has left the bus, and waits again
if it has further requests, when the handler is called. The data path has stopped. -/
theorem Live.vacate (h : s.Live) (hb : s.istate.Busy) (okay : Option ℕ)
    (calls : List Sdcom) :
    ∃ t r rest, s.com s.cur = r :: rest ∧ Placed none t ∧ t.istate = s.istate ∧
      t.com = Function.update s.com s.cur rest ∧ t.asked = s.asked ∧ t.done = s.done ∧
      t.tc = s.tc ∧ t.away = s.away ∧ t.path = (s.stopdma P).path ∧
      s.complete P okay calls = ((calls.foldl (fun s r => s.queue P r)
        (t.intr s.cur r okay)).setIstate .IDLE).startany P := by
  have hplaced := h.placed
  rw [slot_of_busy hb] at hplaced
  obtain ⟨r, rest, hr⟩ := List.exists_cons_of_ne_nil ((hplaced.pending s.cur).mpr (.inl rfl))
  obtain ⟨d, hstop⟩ := stopdma_eq (P := P) s
  have hpath : d = (s.stopdma P).path := by rw [hstop]; rfl
  have hrun : s.complete P okay calls = ((calls.foldl (fun s r => s.queue P r)
      ((if rest ≠ [] then ((s.setPath d).setCom s.cur rest).uqueue P s.cur
        else (s.setPath d).setCom s.cur rest).intr s.cur r okay)).setIstate .IDLE).startany P := by
    unfold Card.complete
    simp only [hstop]
    rw [show (s.setPath d).com (s.setPath d).cur = r :: rest from hr]
    rfl
  have hnone : Placed none ((s.setPath d).setCom s.cur []) := by
    refine ⟨hplaced.nodup, fun v => ?_, nofun, nofun, hplaced.start_away⟩
    change Function.update s.com s.cur [] v ≠ [] ↔ none = some v ∨ v ∈ s.start ∨ s.away v = true
    by_cases hv : v = s.cur
    · subst hv
      rw [Function.update_self]
      refine ⟨fun hne => absurd rfl hne, ?_⟩
      rintro (hn | hn | hn)
      · exact absurd hn nofun
      · exact absurd hn (hplaced.slot_start _ rfl)
      · exact absurd hn (by rw [hplaced.slot_away _ rfl]; nofun)
    · rw [Function.update_of_ne hv, hplaced.pending v]
      simp only [Option.some.injEq, reduceCtorEq, Ne.symm hv, false_or]
  by_cases hrest : rest = []
  · rw [if_neg (not_not.mpr hrest)] at hrun
    rw [← hrest] at hnone
    exact ⟨(s.setPath d).setCom s.cur rest, r, rest, hr, hnone, rfl, rfl, rfl, rfl, rfl, rfl,
      hpath, hrun⟩
  · have hi : ((s.setPath d).setCom s.cur rest).istate ≠ .IDLE := hb.1
    rw [if_pos hrest, uqueue_of_ne_idle hi] at hrun
    refine ⟨((s.setPath d).setCom s.cur rest).setStart (s.start ++ [s.cur]), r, rest, hr,
      hnone.enlist (Function.update_self _ _ _) (fun v => ?_) rfl rfl, rfl, rfl, rfl, rfl, rfl,
      rfl, hpath, hrun⟩
    change Function.update s.com s.cur rest v ≠ [] ↔
      v = s.cur ∨ Function.update s.com s.cur [] v ≠ []
    by_cases hv : v = s.cur
    · subst hv
      rw [Function.update_self]
      exact ⟨fun _ => .inl rfl, fun _ => hrest⟩
    · rw [Function.update_of_ne hv, Function.update_of_ne hv]
      exact ⟨.inr, fun ho => ho.resolve_left hv⟩

theorem Live.complete (h : s.Live) (hl : s.Logged) (hb : s.istate.Busy) (okay : Option ℕ)
    (calls : List Sdcom) :
    (s.complete P okay calls).Live ∧ (s.complete P okay calls).Logged := by
  obtain ⟨t, r, rest, hr, hnone, hi, hcom, hasked, hdone, -, -, -, hrun⟩ :=
    h.vacate (P := P) hb okay calls
  have hlog : (t.intr s.cur r okay).Logged := by
    intro v
    change t.asked v = (Function.update t.done s.cur (t.done s.cur ++ [(r, okay)]) v).map
      Prod.fst ++ t.com v
    rw [hasked, hdone, hcom]
    by_cases hv : v = s.cur
    · subst hv
      rw [Function.update_self, Function.update_self, hl, hr]
      simp
    · rw [Function.update_of_ne hv, Function.update_of_ne hv, hl v]
  have hplaced := Placed.calls (P := P) (s := t.intr s.cur r okay) (hnone.congr rfl rfl rfl)
    (hi.symm ▸ hb.1) calls
  have hlogged := hlog.calls (P := P) calls
  rw [hrun]
  generalize List.foldl (fun s r => s.queue P r) (t.intr s.cur r okay) calls = v at hplaced hlogged
  obtain ⟨hc, -, ha, hd⟩ := startany_same (P := P) (v.setIstate .IDLE)
  exact ⟨Placed.startany (hplaced.congr rfl rfl rfl) rfl, hlogged.of_same hc ha hd⟩

/-- The target of unit `u` has come back. -/
theorem Placed.resume (h : Placed none s) (hl : s.Logged) {si : BitVec 8}
    (haway : s.away (si.setWidth 3) = true) :
    (s.resume P si).Live ∧ (s.resume P si).Logged := by
  generalize hu : si.setWidth 3 = u at haway
  obtain ⟨r, l, hr⟩ := List.exists_cons_of_ne_nil ((h.pending u).mpr (.inr (.inr haway)))
  unfold Card.resume
  simp only [hu, hr]
  have hnot : u ∉ s.start := fun hm => by
    rw [h.start_away u hm] at haway
    exact absurd haway nofun
  refine ⟨⟨?_, nofun⟩, hl.of_same rfl rfl rfl⟩
  change Placed (some u) _
  refine ⟨h.nodup, fun v => ?_, fun v hv => ?_, fun v hv => ?_, fun v hv => ?_⟩
  · change s.com v ≠ [] ↔ some u = some v ∨ v ∈ s.start ∨ Function.update s.away u false v = true
    rw [h.pending v]
    by_cases hv : v = u
    · subst hv
      simp [haway]
    · rw [Function.update_of_ne hv]
      simp only [reduceCtorEq, false_or, Option.some.injEq, Ne.symm hv]
  · cases hv
    exact hnot
  · cases hv
    exact Function.update_self _ _ _
  · change Function.update s.away u false v = false
    by_cases hvu : v = u
    · rw [hvu]
      exact Function.update_self _ _ _
    · rw [Function.update_of_ne hvu]
      exact h.start_away v hv

/-- A target reselects only while it is disconnected. -/
def Allowed (s : Card D) : Event → Prop
  | .queue _ => True
  | .intr e => itab e.ss = 4 → s.istate ≠ .DEAD → s.away (e.si.setWidth 3) = true

/-- The current unit goes on: nothing but registers, a transfer count and the state change. -/
theorem Live.goOn (h : s.Live) (hb : s.istate.Busy) {t : Card D} (ht : t.istate.Busy)
    (hc : t.com = s.com) (hs : t.start = s.start) (ha : t.away = s.away) (hcur : t.cur = s.cur) :
    t.Live where
  placed := by
    have hplaced := h.placed
    rw [slot_of_busy hb] at hplaced
    rw [slot_of_busy ht, hcur]
    exact hplaced.congr hc hs ha
  idle h0 := absurd h0 ht.1

/-- The unit in the slot gets to the end of the start list. -/
theorem Placed.requeue {u : UnitNo} (h : Placed (some u) s) {t : Card D} (hc : t.com = s.com)
    (hs : t.start = s.start ++ [u]) (ha : t.away = s.away) : Placed none t where
  nodup := by
    rw [hs]
    exact List.nodup_append.mpr ⟨h.nodup, List.nodup_singleton u, fun a ha b hb => by
      rw [List.mem_singleton.mp hb]
      exact fun he => h.slot_start u rfl (he ▸ ha)⟩
  pending v := by
    rw [hc, hs, ha, h.pending v, List.mem_append, List.mem_singleton, Option.some.injEq]
    simp only [reduceCtorEq, false_or, eq_comm (a := u)]
    tauto
  slot_start := nofun
  slot_away := nofun
  start_away v hv := by
    rw [ha]
    rw [hs, List.mem_append, List.mem_singleton] at hv
    rcases hv with hv | rfl
    · exact h.start_away v hv
    · exact h.slot_away _ rfl

/-- The target of the unit in the slot disconnects. -/
theorem Placed.leave {u : UnitNo} (h : Placed (some u) s) : Placed none (s.setAway u true) where
  nodup := h.nodup
  pending v := by
    change s.com v ≠ [] ↔ none = some v ∨ v ∈ s.start ∨ Function.update s.away u true v = true
    rw [h.pending v]
    by_cases hv : v = u
    · subst hv
      simp
    · rw [Function.update_of_ne hv]
      simp only [Option.some.injEq, reduceCtorEq, Ne.symm hv]
  slot_start := nofun
  slot_away := nofun
  start_away v hv := by
    have hne : v ≠ u := by
      rintro rfl
      exact h.slot_start v rfl hv
    exact (Function.update_of_ne hne _ _).trans (h.start_away v hv)

/-- The step: an interrupt keeps the invariant. -/
theorem Inv.service (h : s.Inv) {e : Interrupt} (hal : Allowed s (.intr e)) :
    (s.service P e).Inv := by
  have h' : (s.setPath (P.move s.path e.moved)).Inv :=
    ⟨h.1, fun hd => ⟨(h.2 hd).placed.congr rfl rfl rfl, (h.2 hd).idle⟩⟩
  have hal' : itab e.ss = 4 → (s.setPath (P.move s.path e.moved)).istate ≠ .DEAD →
      (s.setPath (P.move s.path e.moved)).away (e.si.setWidth 3) = true := hal
  unfold Card.service
  simp only
  generalize s.setPath (P.move s.path e.moved) = t at h' hal'
  obtain ⟨hl, hlive⟩ := h'
  have hdead : (t.setIstate .DEAD).Inv := ⟨hl.of_same rfl rfl rfl, fun hd => absurd rfl hd⟩
  by_cases hd : t.istate = .DEAD
  · rw [hd, atab_dead]
    exact hdead
  have hv := hlive hd
  have hbusy : atab t.istate (itab e.ss) ≠ 1 → atab t.istate (itab e.ss) ≠ 3 →
      t.istate.Busy := atab_busy
  have hon : ∀ {u : Card D}, atab t.istate (itab e.ss) ≠ 1 → atab t.istate (itab e.ss) ≠ 3 →
      u.istate.Busy → u.com = t.com → u.start = t.start → u.away = t.away → u.cur = t.cur →
      u.asked = t.asked → u.done = t.done → u.Inv :=
    fun h1 h3 hu hc hs ha hcur hask hdone =>
      ⟨hl.of_same hc hask hdone, fun _ => hv.goOn (hbusy h1 h3) hu hc hs ha hcur⟩
  obtain ⟨d, hstop⟩ := stopdma_eq (P := P) t
  split
  case h_1 heq =>
    have hb := hbusy (by rw [heq]; decide) (by rw [heq]; decide)
    obtain ⟨hlive', hl'⟩ := hv.complete (P := P) hl hb (if e.cp = 0x60 then some e.ts else none)
      e.calls
    exact ⟨hl', fun _ => hlive'⟩
  case h_2 => exact hdead
  case h_3 heq =>
    have hb := hbusy (by rw [heq]; decide) (by rw [heq]; decide)
    have hplaced := hv.placed
    rw [slot_of_busy hb] at hplaced
    rw [hstop, uqueue_of_ne_idle (show (t.setPath d).istate ≠ .IDLE from hb.1)]
    have hback := Placed.resume (P := P) (hplaced.requeue (t := (t.setPath d).setStart
      (t.start ++ [t.cur])) rfl rfl rfl) (hl.of_same rfl rfl rfl)
      (hal' (atab_resume (.inl heq)).1 hd)
    exact ⟨hback.2, fun _ => hback.1⟩
  case h_4 heq =>
    have hidle := (atab_resume (.inr heq)).2.2 heq
    have hplaced := hv.placed
    rw [slot_of_idle hidle] at hplaced
    have hback := Placed.resume (P := P) hplaced hl (hal' (atab_resume (.inr heq)).1 hd)
    exact ⟨hback.2, fun _ => hback.1⟩
  case h_5 heq =>
    exact hon (by rw [heq]; decide) (by rw [heq]; decide) ⟨nofun, nofun⟩ rfl rfl rfl rfl rfl rfl
  case h_6 heq =>
    have hb := hbusy (by rw [heq]; decide) (by rw [heq]; decide)
    obtain ⟨hlive', hl'⟩ := hv.complete (P := P) hl hb none e.calls
    exact ⟨hl', fun _ => hlive'⟩
  case h_7 heq =>
    exact hon (by rw [heq]; decide) (by rw [heq]; decide) ⟨nofun, nofun⟩ rfl rfl rfl rfl rfl rfl
  case h_8 heq =>
    have hb := hbusy (by rw [heq]; decide) (by rw [heq]; decide)
    have hplaced := hv.placed
    rw [slot_of_busy hb] at hplaced
    rw [hstop]
    have hidle := Placed.startany (P := P) (s := ((t.setPath d).setAway t.cur true).setIstate .IDLE)
      (hplaced.leave.congr rfl rfl rfl) rfl
    obtain ⟨hc, -, ha, hdone⟩ :=
      startany_same (P := P) (((t.setPath d).setAway t.cur true).setIstate .IDLE)
    exact ⟨hl.of_same hc ha hdone, fun _ => hidle⟩
  case h_9 heq =>
    split_ifs
    · exact hon (by rw [heq]; decide) (by rw [heq]; decide) ⟨nofun, nofun⟩ rfl rfl rfl rfl rfl rfl
    · exact hdead
  case h_10 h0 h1 h2 h3 h4 h5 h6 h7 h8 =>
    exact hon h1 h3 ⟨nofun, nofun⟩ rfl rfl rfl rfl rfl rfl

/-- What holds of the requests after every step. -/
structure Sound (s : Card D) : Prop where
  /-- The handlers were called in queue order, once for each queueing at most. -/
  order : ∀ u, (s.done u).map Prod.fst <+: s.asked u
  pending : ∀ u, s.asked u = (s.done u).map Prod.fst ++ s.com u
  once : s.istate ≠ .DEAD → s.start.Nodup
  place : s.istate ≠ .DEAD → ∀ u, s.com u ≠ [] →
    (s.istate.Busy ∧ u = s.cur) ∧ u ∉ s.start ∧ s.away u = false ∨
    ¬ (s.istate.Busy ∧ u = s.cur) ∧ u ∈ s.start ∧ s.away u = false ∨
    ¬ (s.istate.Busy ∧ u = s.cur) ∧ u ∉ s.start ∧ s.away u = true
  busy : s.istate.Busy → s.com s.cur ≠ []
  idle : s.istate = .IDLE → s.start = []

theorem Inv.sound (h : s.Inv) : s.Sound where
  order u := ⟨s.com u, (h.1 u).symm⟩
  pending := h.1
  once hd := (h.2 hd).placed.nodup
  place hd u hu := by
    have hp := (h.2 hd).placed
    have hslot : s.slot = some u ↔ s.istate.Busy ∧ u = s.cur := by
      by_cases hb : s.istate.Busy
      · rw [slot_of_busy hb, Option.some.injEq]
        exact ⟨fun he => ⟨hb, he.symm⟩, fun he => he.2.symm⟩
      · have hi : s.istate = .IDLE := by
          by_contra hi
          exact hb ⟨hi, hd⟩
        rw [slot_of_idle hi]
        exact ⟨nofun, fun he => absurd he.1 hb⟩
    rw [← hslot]
    rcases (hp.pending u).mp hu with h1 | h1 | h1
    · exact .inl ⟨h1, hp.slot_start u h1, hp.slot_away u h1⟩
    · exact .inr (.inl ⟨fun h2 => hp.slot_start u h2 h1, h1, hp.start_away u h1⟩)
    · refine .inr (.inr ⟨fun h2 => ?_, fun h2 => ?_, h1⟩)
      · rw [hp.slot_away u h2] at h1
        exact absurd h1 nofun
      · rw [hp.start_away u h2] at h1
        exact absurd h1 nofun
  busy hb := by
    have hp := (h.2 hb.2).placed
    exact (hp.pending s.cur).mpr (.inl (slot_of_busy hb))
  idle hi := (h.2 (by rw [hi]; nofun)).idle hi

theorem init_inv (d : D) : (init d).Inv :=
  ⟨fun _ => rfl, fun _ => ⟨⟨List.nodup_nil, fun _ => ⟨fun h => absurd rfl h, by
    rintro (h | h | h)
    · exact absurd h nofun
    · exact absurd h List.not_mem_nil
    · exact absurd h nofun⟩, nofun, nofun, fun _ h => absurd h List.not_mem_nil⟩, fun _ => rfl⟩⟩

end Card

end HydraAmix.Scsi.Controller
