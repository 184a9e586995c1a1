import Mathlib.Data.Fintype.Option
import HydraAmix.Floppy.Heads

/-!
# The heads are where the driver thinks

Between the writes of a routine the port is one of few values: STEP is high, the
drive that `selected` names is selected and no other, and its side is that of
its track. Together with the motors that the driver thinks are on and the heads
of the drives whose track it knows, this is kept by every call.
-/
namespace HydraAmix.Floppy
open Schedule

/-- The port with its lines, each high or low. -/
def portOf (sel : Option (Fin NDRIVES)) (motor side direc step : Bool) : Port :=
  (match sel with
    | none => DSKSEL
    | some d => DSKSEL &&& ~~~selbits d) |||
    (if motor then DSKMOTOR else 0) ||| (if side then DSKSIDE else 0) |||
    (if direc then DSKDIREC else 0) ||| (if step then DSKSTEP else 0)

/-- What holds between the writes of a routine. -/
structure Agrees (s : Fl) : Prop where
  port : ∃ motor side direc, s.hw.drives.prb = portOf s.selected motor side direc true ∧
    ∀ d, s.selected = some d → 0 ≤ (s.spindle d).trk →
      (side = true ↔ (s.spindle d).trk % TRKPCYL = 0)
  motors : ∀ d, (s.spindle d).on = true → s.hw.drives.motor d = true
  heads : ∀ d, 0 ≤ (s.spindle d).trk → (s.hw.drives.cyl d : ℤ) = (s.spindle d).trk / TRKPCYL

/-- A routine for one drive steps no other head and starts no DMA. -/
structure Spares (drv : Fin NDRIVES) (h h' : Hw) : Prop where
  stepped : ∃ l, h'.stepped = h.stepped ++ l ∧ ∀ d ∈ l, d = drv
  started : h'.started = h.started

/-- A routine for one drive moves at most its head. -/
structure Moves (drv : Fin NDRIVES) (h h' : Hw) : Prop extends Spares drv h h' where
  motor : h'.drives.motor = h.drives.motor
  others : ∀ d, d ≠ drv → h'.drives.cyl d = h.drives.cyl d

/-- What every routine keeps. -/
structure Kept (drv : Fin NDRIVES) (s s' : Fl) : Prop where
  agrees : Agrees s'
  spares : Spares drv s.hw s'.hw

/-- The drive is selected and its motor is on. -/
structure Spins (drv : Fin NDRIVES) (s : Fl) : Prop where
  selected : s.selected = some drv
  on : (s.spindle drv).on = true

/-- The drives are set for a track. -/
structure OnTrack (s : Drives) (drv : Fin NDRIVES) (trk : ℕ) : Prop where
  selected : ∀ d, selects s.prb d = true ↔ d = drv
  motor : s.motor drv = true
  head : s.cyl drv = trk / TRKPCYL
  side : high s.prb DSKSIDE = true ↔ trk % TRKPCYL = 0

/-- The drive of a call, and the track that it reads or writes. -/
def Call.drv : Call → Fin NDRIVES
  | .flread drv _ _ | .flwrite drv _ _ | .flwprot drv | .flok drv | .flstop drv | .fllost drv => drv

def Call.trk : Call → Option (Fin TRACKS)
  | .flread _ trk _ | .flwrite _ trk _ => some trk
  | .flwprot _ | .flok _ | .flstop _ | .fllost _ => none

/-- A call steps only the head of its own drive, and where it starts a DMA, the
drives are set for its track. -/
def Follows (env : Env) (s : Fl) (c : Call) : Prop :=
  (∃ l, (s.call env c).hw.stepped = s.hw.stepped ++ l ∧ ∀ d ∈ l, d = c.drv) ∧
    ∃ l, (s.call env c).hw.started = s.hw.started ++ l ∧
      ∀ dma ∈ l, ∃ trk, c.trk = some trk ∧ OnTrack dma.drives c.drv trk

/-! ### The port -/

section
variable (sel : Option (Fin NDRIVES)) (motor side direc step : Bool)

theorem portOf_deselect :
    portOf sel motor side direc step ||| DSKSEL = portOf none motor side direc step := by
  revert sel motor side direc step
  decide

theorem portOf_idle (on : Bool) (odd : Prop) [Decidable odd] :
    (if odd then (if on then ~~~0 &&& ~~~DSKMOTOR else ~~~0) &&& ~~~DSKSIDE
      else if on then ~~~0 &&& ~~~DSKMOTOR else ~~~0) =
      portOf none (!on) (decide ¬odd) true true := by
  have hbits : ∀ on odd : Bool,
      (if odd then (if on then ~~~0 &&& ~~~DSKMOTOR else ~~~0) &&& ~~~DSKSIDE
        else if on then ~~~0 &&& ~~~DSKMOTOR else ~~~0) = portOf none (!on) (!odd) true true := by
    decide
  rw [decide_not, ← hbits on (decide odd)]
  simp only [decide_eq_true_eq]

theorem portOf_choose (d : Fin NDRIVES) :
    portOf none motor side direc step &&& ~~~selbits d = portOf (some d) motor side direc step := by
  revert d motor side direc step
  decide

theorem portOf_step_low :
    portOf sel motor side direc step &&& ~~~DSKSTEP = portOf sel motor side direc false := by
  revert sel motor side direc step
  decide

theorem portOf_step_high :
    portOf sel motor side direc step ||| DSKSTEP = portOf sel motor side direc true := by
  revert sel motor side direc step
  decide

theorem portOf_side_high :
    portOf sel motor side direc step ||| DSKSIDE = portOf sel motor true direc step := by
  revert sel motor side direc step
  decide

theorem portOf_side_low :
    portOf sel motor side direc step &&& ~~~DSKSIDE = portOf sel motor false direc step := by
  revert sel motor side direc step
  decide

theorem portOf_direc_high :
    portOf sel motor side direc step ||| DSKDIREC = portOf sel motor side true step := by
  revert sel motor side direc step
  decide

theorem portOf_direc_low :
    portOf sel motor side direc step &&& ~~~DSKDIREC = portOf sel motor side false step := by
  revert sel motor side direc step
  decide

@[simp] theorem selects_portOf (d : Fin NDRIVES) :
    selects (portOf sel motor side direc step) d = decide (sel = some d) := by
  revert sel motor side direc step d
  decide

@[simp] theorem high_motor : high (portOf sel motor side direc step) DSKMOTOR = motor := by
  revert sel motor side direc step
  decide

@[simp] theorem high_side : high (portOf sel motor side direc step) DSKSIDE = side := by
  revert sel motor side direc step
  decide

@[simp] theorem high_direc : high (portOf sel motor side direc step) DSKDIREC = direc := by
  revert sel motor side direc step
  decide

@[simp] theorem high_step : high (portOf sel motor side direc step) DSKSTEP = step := by
  revert sel motor side direc step
  decide

end

/-! ### One write, and the steps -/

section
variable {drv : Fin NDRIVES} {h h' h'' : Hw}

theorem Spares.refl (drv : Fin NDRIVES) (h : Hw) : Spares drv h h := ⟨⟨[], by simp⟩, rfl⟩

theorem Spares.trans (h₁ : Spares drv h h') (h₂ : Spares drv h' h'') : Spares drv h h'' := by
  obtain ⟨l, hl, hd⟩ := h₁.stepped
  obtain ⟨l', hl', hd'⟩ := h₂.stepped
  refine ⟨⟨l ++ l', by rw [hl', hl, List.append_assoc], fun d hm => ?_⟩,
    h₂.started.trans h₁.started⟩
  exact (List.mem_append.mp hm).elim (hd d) (hd' d)

theorem Moves.refl (drv : Fin NDRIVES) (h : Hw) : Moves drv h h :=
  ⟨Spares.refl drv h, rfl, fun _ _ => rfl⟩

theorem Moves.trans (h₁ : Moves drv h h') (h₂ : Moves drv h' h'') : Moves drv h h'' :=
  ⟨h₁.toSpares.trans h₂.toSpares, h₂.motor.trans h₁.motor,
    fun d hd => (h₂.others d hd).trans (h₁.others d hd)⟩

namespace Hw

/-- A write that leaves STEP high moves nothing, and the motor line is latched
by a drive that was not selected before. -/
theorem write_rest {a b : Option (Fin NDRIVES)} {m s o m' s' o' : Bool}
    (hp : h.drives.prb = portOf a m s o true) :
    h.write (portOf b m' s' o' true) = { h with
      drives :=
        { prb := portOf b m' s' o' true
          cyl := h.drives.cyl
          motor := fun d => if a ≠ some d ∧ b = some d then !m' else h.drives.motor d } } := by
  have hs : h.steps (portOf b m' s' o' true) = fun _ => false := funext fun d => by
    rw [steps, high_step, Bool.not_true, Bool.and_false, Bool.false_and]
  rw [write, hs, List.filter_false, List.append_nil, hp]
  simp only [selects_portOf, high_motor, Bool.and_eq_true, Bool.not_eq_true', decide_eq_true_eq,
    decide_eq_false_iff_not, Bool.false_eq_true, if_false, ne_eq]

/-- The three writes that select a drive. -/
theorem write_choose {a : Option (Fin NDRIVES)} {m s o : Bool}
    (hp : h.drives.prb = portOf a m s o true) (drv : Fin NDRIVES) (m' s' : Bool) :
    ((h.write (portOf none m s o true)).write (portOf none m' s' true true)).write
      (portOf (some drv) m' s' true true) = { h with
      drives :=
        { prb := portOf (some drv) m' s' true true
          cyl := h.drives.cyl
          motor := Function.update h.drives.motor drv (!m') } } := by
  have h₁ := @write_rest h a none m s o m s o hp
  have h₂ := @write_rest (h.write (portOf none m s o true)) none none m s o m' s' true rfl
  have h₃ := @write_rest ((h.write (portOf none m s o true)).write (portOf none m' s' true true))
    none (some drv) m' s' true m' s' true rfl
  rw [h₃, h₂, h₁]
  congr 2
  funext d
  by_cases hd : d = drv
  · subst hd
    simp
  · rw [Function.update_of_ne hd]
    simp [Ne.symm hd]

theorem filter_selected (sel : Option (Fin NDRIVES)) :
    (List.finRange NDRIVES).filter (fun d => decide (sel = some d)) = sel.toList := by
  revert sel
  decide

/-- A pulse steps the selected drive, to where DIREC says by then. -/
theorem pulse_selected {m s o' : Bool} (hp : h.drives.prb = portOf (some drv) m s o' true)
    (o : Bool) :
    h.pulse (portOf (some drv) m s o true) = { h with
      drives :=
        { prb := portOf (some drv) m s o true
          cyl := Function.update h.drives.cyl drv
            (if o then h.drives.cyl drv - 1 else h.drives.cyl drv + 1)
          motor := h.drives.motor }
      stepped := h.stepped ++ [drv] } := by
  have hdown : h.steps (portOf (some drv) m s o false) = fun d => decide (some drv = some d) :=
    funext fun d => by rw [steps, hp, high_step, high_step, selects_portOf]; rfl
  have hup : ∀ h' : Hw, h'.steps (portOf (some drv) m s o true) = fun _ => false := fun h' =>
    funext fun d => by rw [steps, high_step, Bool.not_true, Bool.and_false, Bool.false_and]
  rw [pulse, portOf_step_low, portOf_step_high, write, hup, List.filter_false, List.append_nil,
    write, hdown, filter_selected, hp]
  simp only [selects_portOf, high_direc, decide_eq_true_eq, Bool.not_and_self, Bool.false_eq_true,
    if_false, Option.some.injEq, Option.toList_some]
  congr 2
  funext d
  by_cases hd : d = drv
  · subst hd
    rw [if_pos rfl, Function.update_self]
  · rw [if_neg (Ne.symm hd), Function.update_of_ne hd]

theorem pulse_moves {m s o' : Bool} (hp : h.drives.prb = portOf (some drv) m s o' true)
    (o : Bool) :
    Moves drv h (h.pulse (portOf (some drv) m s o true)) ∧
      (h.pulse (portOf (some drv) m s o true)).drives.prb = portOf (some drv) m s o true := by
  rw [pulse_selected hp]
  exact ⟨⟨⟨⟨[drv], rfl, fun d hd => List.mem_singleton.mp hd⟩, rfl⟩, rfl,
    fun d hd => Function.update_of_ne hd ..⟩, rfl⟩

/-- With the drive selected as before, a write moves nothing. -/
theorem write_moves {m s o : Bool} (hp : h.drives.prb = portOf (some drv) m s o true)
    (s' o' : Bool) :
    Moves drv h (h.write (portOf (some drv) m s' o' true)) ∧
      (h.write (portOf (some drv) m s' o' true)).drives.cyl = h.drives.cyl := by
  rw [write_rest hp]
  refine ⟨⟨⟨⟨[], by rw [List.append_nil], nofun⟩, rfl⟩, funext fun d => ?_, fun _ _ => rfl⟩, rfl⟩
  exact if_neg fun hd => hd.1 hd.2

theorem polled_moves (drv : Fin NDRIVES) (h : Hw) : Moves drv h h.polled :=
  ⟨⟨⟨[], by rw [List.append_nil]; rfl, nofun⟩, rfl⟩, rfl, fun _ _ => rfl⟩

theorem spinUp_drives (env : Env) (n : ℕ) (h : Hw) :
    (h.spinUp env n).2.drives = h.drives ∧ (h.spinUp env n).2.stepped = h.stepped ∧
      (h.spinUp env n).2.started = h.started := by
  induction n generalizing h with
  | zero => exact ⟨rfl, rfl, rfl⟩
  | succ n ih =>
      rw [spinUp]
      split
      · exact ih h.polled
      · exact ⟨rfl, rfl, rfl⟩

theorem stepTimes_moves {m s o : Bool} (n : ℕ)
    (hp : h.drives.prb = portOf (some drv) m s o true) :
    Moves drv h (h.stepTimes n (portOf (some drv) m s o true)) ∧
      (h.stepTimes n (portOf (some drv) m s o true)).drives.prb = portOf (some drv) m s o true ∧
      (h.stepTimes n (portOf (some drv) m s o true)).drives.cyl drv =
        if o then h.drives.cyl drv - n else h.drives.cyl drv + n := by
  induction n generalizing h with
  | zero => exact ⟨Moves.refl drv h, hp, by simp [stepTimes]⟩
  | succ n ih =>
      obtain ⟨hm, hprb⟩ := pulse_moves hp o
      have hc : (h.pulse (portOf (some drv) m s o true)).drives.cyl drv =
          if o then h.drives.cyl drv - 1 else h.drives.cyl drv + 1 := by
        rw [pulse_selected hp]
        exact Function.update_self ..
      obtain ⟨hm', hprb', hc'⟩ := ih hprb
      rw [stepTimes, portOf_step_low, portOf_step_high]
      refine ⟨hm.trans hm', hprb', ?_⟩
      rw [hc', hc]
      cases o <;> simp only [Bool.false_eq_true, if_false, if_true] <;> omega

theorem stepIn_moves (env : Env) {m s o : Bool} (n : ℕ)
    (hp : h.drives.prb = portOf (some drv) m s o true) :
    Moves drv h (h.stepIn env n (portOf (some drv) m s o true)).2 ∧
      (h.stepIn env n (portOf (some drv) m s o true)).2.drives.prb =
        portOf (some drv) m s o true ∧
      (h.stepIn env n (portOf (some drv) m s o true)).1 = portOf (some drv) m s o true := by
  induction n generalizing h with
  | zero => exact ⟨Moves.refl drv h, hp, rfl⟩
  | succ n ih =>
      rw [stepIn]
      split
      · exact ⟨polled_moves drv h, hp, rfl⟩
      · obtain ⟨hm, hprb⟩ := pulse_moves (h := h.polled) hp o
        obtain ⟨hm', hrest⟩ := ih hprb
        rw [portOf_step_low, portOf_step_high]
        exact ⟨((polled_moves drv h).trans hm).trans hm', hrest⟩

/-- With one drive selected, TRACK0 is low exactly at its cylinder 0. -/
theorem pra_track0 (env : Env) {m s o : Bool}
    (hp : h.drives.prb = portOf (some drv) m s o true) :
    high (h.pra env) DSKTRACK0 = false ↔ h.drives.cyl drv = 0 := by
  have hbits : ∀ a b c : Bool, high ((if a then 0 else DSKRDY) ||| (if b then 0 else DSKTRACK0) |||
      (if c then DSKPROT else 0)) DSKTRACK0 = !b := by decide
  rw [pra, hbits, Bool.not_eq_false', track0, hp]
  simp

theorem stepOut_moves (env : Env) {m s o : Bool} (n : ℕ)
    (hp : h.drives.prb = portOf (some drv) m s o true) :
    Moves drv h (h.stepOut env n (portOf (some drv) m s true true)).2 ∧
      (∃ o', (h.stepOut env n (portOf (some drv) m s true true)).2.drives.prb =
        portOf (some drv) m s o' true) ∧
      ((h.stepOut env n (portOf (some drv) m s true true)).1 = true →
        (h.stepOut env n (portOf (some drv) m s true true)).2.drives.cyl drv = 0) := by
  induction n generalizing h o with
  | zero => exact ⟨Moves.refl drv h, ⟨o, hp⟩, nofun⟩
  | succ n ih =>
      obtain ⟨hm, hprb⟩ := pulse_moves hp true
      have hm' := hm.trans (polled_moves drv _)
      rw [stepOut]
      split
      case isTrue ht =>
        exact ⟨hm', ⟨true, hprb⟩, fun _ => (pra_track0 env hprb).mp (Bool.not_eq_true' _ ▸ ht)⟩
      case isFalse ht =>
        obtain ⟨hrest, hend⟩ := ih (h := (h.pulse (portOf (some drv) m s true true)).polled) hprb
        rw [portOf_step_low, portOf_step_high]
        exact ⟨hm'.trans hrest, hend⟩

end Hw
end

/-! ### The routines -/

section
variable {drv : Fin NDRIVES} {s s' s'' : Fl}

theorem Kept.trans (h₁ : Kept drv s s') (h₂ : Kept drv s' s'') : Kept drv s s'' :=
  ⟨h₂.agrees, h₁.spares.trans h₂.spares⟩

theorem Fl.choose_hw {sel : Option (Fin NDRIVES)} {m si o : Bool}
    (hp : s.hw.drives.prb = portOf sel m si o true) (drv : Fin NDRIVES) (on : Bool) :
    (s.choose drv on).hw = { s.hw with
      drives :=
        { prb := portOf (some drv) (!on) (decide ¬ (s.spindle drv).trk % TRKPCYL ≠ 0) true true
          cyl := s.hw.drives.cyl
          motor := Function.update s.hw.drives.motor drv on } } := by
  rw [Fl.choose]
  dsimp only [Fl.out]
  rw [portOf_idle, hp, portOf_deselect, portOf_choose, Hw.write_choose hp, Bool.not_not]

theorem Fl.deselect_hw {sel : Option (Fin NDRIVES)} {m si o : Bool}
    (hp : s.hw.drives.prb = portOf sel m si o true) :
    s.deselect.hw = { s.hw with
      drives := { s.hw.drives with prb := portOf none m si o true } } := by
  rw [Fl.deselect]
  dsimp only [Fl.out]
  rw [hp, portOf_deselect, Hw.write_rest hp]
  simp

/-- What depends on the drives only. -/
theorem Agrees.congr (h : Agrees s) {hw : Hw} (hd : hw.drives = s.hw.drives) :
    Agrees { s with hw := hw } := by
  refine ⟨?_, fun d => ?_, fun d => ?_⟩
  · dsimp only
    rw [hd]
    exact h.port
  · dsimp only
    rw [hd]
    exact h.motors d
  · dsimp only
    rw [hd]
    exact h.heads d

theorem Agrees.deselect (h : Agrees s) (drv : Fin NDRIVES) : Kept drv s s.deselect := by
  obtain ⟨m, si, o, hp, -⟩ := h.port
  have hw := Fl.deselect_hw hp
  refine ⟨⟨⟨m, si, o, by rw [hw]; rfl, fun d hd => absurd hd nofun⟩, fun d => ?_, fun d => ?_⟩,
    ⟨[], by rw [hw, List.append_nil], nofun⟩, by rw [hw]⟩
  · rw [hw]
    exact h.motors d
  · rw [hw]
    exact h.heads d

theorem Fl.turn_trk (s : Fl) (drv : Fin NDRIVES) (on : Bool) (d : Fin NDRIVES) :
    ((s.turn drv on).spindle d).trk = (s.spindle d).trk := by
  dsimp only [Fl.turn]
  by_cases hd : d = drv
  · subst hd
    rw [Function.update_self]
  · rw [Function.update_of_ne hd]

theorem Agrees.turn (h : Agrees s) (drv : Fin NDRIVES) (on : Bool) : Kept drv s (s.turn drv on) := by
  obtain ⟨m, si, o, hp, -⟩ := h.port
  have hw : (s.turn drv on).hw = _ := Fl.choose_hw hp drv on
  refine ⟨⟨⟨_, _, true, by rw [hw]; rfl, fun d hd _ => ?_⟩, fun d => ?_, fun d => ?_⟩, ⟨[], by rw [hw, List.append_nil], nofun⟩,
    by rw [hw]⟩
  · obtain rfl : drv = d := Option.some.inj hd
    rw [Fl.turn_trk]
    exact decide_eq_true_iff.trans not_not
  · rw [hw]
    dsimp only [Fl.turn]
    by_cases hd : d = drv
    · subst hd
      rw [Function.update_self, Function.update_self]
      exact id
    · rw [Function.update_of_ne hd, Function.update_of_ne hd]
      exact h.motors d
  · rw [hw, Fl.turn_trk]
    exact h.heads d

theorem Agrees.motorOff (h : Agrees s) (drv : Fin NDRIVES) : Kept drv s (s.motorOff drv) := by
  rw [Fl.motorOff]
  split
  · split
    · exact h.deselect drv
    · exact ⟨h, Spares.refl drv s.hw⟩
  · exact (h.turn drv false).trans ((h.turn drv false).agrees.deselect drv)

theorem Agrees.motorOn (h : Agrees s) (env : Env) (drv : Fin NDRIVES) :
    Kept drv s (s.motor env drv true).2 ∧ ((s.motor env drv true).1 = true →
      ((s.motor env drv true).2.spindle drv).on = true ∧
      ((s.motor env drv true).2.spindle drv).trk = (s.spindle drv).trk) := by
  rw [Fl.motor]
  split
  case isTrue hon => exact ⟨⟨h, Spares.refl drv s.hw⟩, fun _ => ⟨hon, rfl⟩⟩
  case isFalse =>
    have hturn := h.turn drv true
    obtain ⟨hdrives, hstepped, hstarted⟩ :=
      (s.turn drv true).hw.spinUp_drives env MOTOR_MAX_NAPS
    cases hspin : (s.turn drv true).hw.spinUp env MOTOR_MAX_NAPS with
    | mk ready hw =>
        rw [hspin] at hdrives hstepped hstarted
        have hkept : Kept drv s { s.turn drv true with hw := hw } :=
          hturn.trans ⟨hturn.agrees.congr hdrives,
            ⟨[], by rw [List.append_nil]; exact hstepped, nofun⟩, hstarted⟩
        cases ready with
        | true =>
            refine ⟨hkept, fun _ => ⟨?_, s.turn_trk drv true drv⟩⟩
            dsimp only [Fl.turn]
            rw [Function.update_self]
        | false => exact ⟨hkept.trans (hkept.agrees.motorOff drv), nofun⟩

theorem Agrees.select (h : Agrees s) (drv : Fin NDRIVES) :
    Kept drv s (s.select drv) ∧ (s.select drv).selected = some drv ∧
      (s.select drv).spindle = s.spindle := by
  rw [Fl.select]
  split
  case isTrue hsel => exact ⟨⟨h, Spares.refl drv s.hw⟩, hsel, rfl⟩
  case isFalse =>
    obtain ⟨m, si, o, hp, -⟩ := h.port
    have hw := Fl.choose_hw hp drv (s.spindle drv).on
    refine ⟨⟨⟨⟨_, _, true, by rw [hw]; rfl, fun d hd _ => ?_⟩, fun d => ?_, fun d => ?_⟩,
      ⟨[], by rw [hw, List.append_nil], nofun⟩, by rw [hw]⟩, rfl, rfl⟩
    · obtain rfl : drv = d := Option.some.inj hd
      exact decide_eq_true_iff.trans not_not
    · rw [hw]
      by_cases hd : d = drv
      · subst hd
        dsimp only
        rw [Function.update_self]
        exact id
      · dsimp only
        rw [Function.update_of_ne hd]
        exact h.motors d
    · rw [hw]
      exact h.heads d

/-- A routine that moved the head of the selected drive, and knows where to. -/
theorem Agrees.moved (h : Agrees s) (hsel : s'.selected = some drv) (hm : Moves drv s.hw s'.hw)
    {m si o : Bool} (hp : s'.hw.drives.prb = portOf (some drv) m si o true)
    (hother : ∀ d, d ≠ drv → s'.spindle d = s.spindle d)
    (hon : (s'.spindle drv).on = (s.spindle drv).on)
    (hhead : 0 ≤ (s'.spindle drv).trk → (si = true ↔ (s'.spindle drv).trk % TRKPCYL = 0) ∧
      (s'.hw.drives.cyl drv : ℤ) = (s'.spindle drv).trk / TRKPCYL) : Kept drv s s' := by
  refine ⟨⟨⟨m, si, o, by rw [hsel]; exact hp, fun d hd h0 => ?_⟩, fun d => ?_, fun d h0 => ?_⟩,
    hm.toSpares⟩
  · obtain rfl : drv = d := Option.some.inj (hsel.symm.trans hd)
    exact (hhead h0).1
  · rw [hm.motor]
    by_cases hd : d = drv
    · subst hd
      rw [hon]
      exact h.motors d
    · rw [hother d hd]
      exact h.motors d
  · by_cases hd : d = drv
    · subst hd
      exact (hhead h0).2
    · rw [hm.others d hd]
      rw [hother d hd] at h0 ⊢
      exact h.heads d h0

theorem Fl.setTrk_self (s : Fl) (drv : Fin NDRIVES) (trk : ℤ) :
    (s.setTrk drv trk).spindle drv = { s.spindle drv with trk := trk } := Function.update_self ..

theorem Fl.setTrk_other (s : Fl) (drv : Fin NDRIVES) (trk : ℤ) {d : Fin NDRIVES} (hd : d ≠ drv) :
    (s.setTrk drv trk).spindle d = s.spindle d := Function.update_of_ne hd ..

theorem Agrees.recal (h : Agrees s) (env : Env) (htrk : (s.spindle drv).trk < 0) :
    Kept drv s (s.recal env drv).2 ∧ ((s.recal env drv).1 = true →
      Spins drv (s.recal env drv).2 ∧ ((s.recal env drv).2.spindle drv).trk = 0) := by
  obtain ⟨hkept, hon⟩ := h.motorOn env drv
  rw [Fl.recal]
  cases hmotor : s.motor env drv true with
  | mk ok s₁ =>
      rw [hmotor] at hkept hon
      cases ok with
      | false => exact ⟨hkept, nofun⟩
      | true =>
          obtain ⟨hon, htrk₁⟩ := hon rfl
          obtain ⟨hkept₂, hsel, hspin⟩ := hkept.agrees.select drv
          obtain ⟨m, si, o, hp, -⟩ := hkept₂.agrees.port
          rw [hsel] at hp
          dsimp only at hon htrk₁ ⊢
          rw [hp, portOf_side_high, portOf_direc_low]
          obtain ⟨hm, -⟩ := Hw.write_moves hp true false
          obtain ⟨hm₁, hp₁, hprb⟩ := Hw.stepIn_moves env (TRACKS / 4)
            (h := (s₁.select drv).hw.write (portOf (some drv) m true false true)) rfl
          rw [hprb, portOf_direc_high]
          obtain ⟨hm₂, ⟨o', hp₂⟩, hzero⟩ :=
            Hw.stepOut_moves env (TRACKS / TRKPCYL + RECSLOP) hp₁
          have hmoves := (hm.trans hm₁).trans hm₂
          cases hout : Hw.stepOut env (TRACKS / TRKPCYL + RECSLOP) _ _ with
          | mk found hw =>
              rw [hout] at hmoves hp₂ hzero
              have hlow : (s₁.select drv).spindle drv = s₁.spindle drv := by rw [hspin]
              cases found with
              | false =>
                  have hfail : Kept drv (s₁.select drv) { s₁.select drv with hw := hw } :=
                    hkept₂.agrees.moved hsel hmoves hp₂ (fun _ _ => rfl) rfl fun h0 => by
                      dsimp only at h0
                      rw [hlow] at h0
                      omega
                  have hoff := hfail.trans (hfail.agrees.motorOff drv)
                  exact ⟨(hkept.trans hkept₂).trans hoff, nofun⟩
              | true =>
                  have htrk₀ := { s₁.select drv with hw := hw }.setTrk_self drv 0
                  have hdone : Kept drv (s₁.select drv)
                      ({ s₁.select drv with hw := hw }.setTrk drv 0) :=
                    hkept₂.agrees.moved hsel hmoves hp₂
                      (fun d hd => { s₁.select drv with hw := hw }.setTrk_other drv 0 hd)
                      (by rw [htrk₀]) fun _ => by
                        rw [htrk₀]
                        exact ⟨⟨fun _ => rfl, fun _ => rfl⟩,
                          congrArg (Nat.cast : ℕ → ℤ) (hzero rfl)⟩
                  refine ⟨(hkept.trans hkept₂).trans hdone, fun _ => ⟨⟨hsel, ?_⟩, ?_⟩⟩
                  · dsimp only
                    rw [htrk₀, hlow]
                    exact hon
                  · dsimp only
                    rw [htrk₀]

/-- As many steps as the difference, the right way. -/
theorem steps_arrive {c : ℕ} {a b : ℤ} (hc : (c : ℤ) = a) (hb : 0 ≤ b) :
    ((if 0 ≤ a - b then c - (a - b).natAbs else c + (a - b).natAbs : ℕ) : ℤ) = b := by
  split <;> omega

/-- The steps of a seek bring the head to the cylinder of the track. -/
theorem Agrees.move (h : Agrees s) (hs : Spins drv s) (h0 : 0 ≤ (s.spindle drv).trk) (trk : ℕ) :
    Kept drv s (s.move drv trk) ∧ Spins drv (s.move drv trk) ∧
      ((s.move drv trk).spindle drv).trk = trk := by
  obtain ⟨m, si, o, hp, -⟩ := h.port
  rw [hs.selected] at hp
  have hcyl := h.heads drv h0
  have hside : (if trk % TRKPCYL ≠ 0 then portOf (some drv) m true true true &&& ~~~DSKSIDE
      else portOf (some drv) m true true true) =
      portOf (some drv) m (decide (trk % TRKPCYL = 0)) true true := by
    by_cases hz : trk % TRKPCYL = 0
    · rw [if_neg (not_not.mpr hz), decide_eq_true hz]
    · rw [if_pos hz, portOf_side_low, decide_eq_false hz]
  have hdirec : ∀ si (delta : ℤ), (if delta < 0 then portOf (some drv) m si true true &&& ~~~DSKDIREC
      else portOf (some drv) m si true true) =
      portOf (some drv) m si (decide (0 ≤ delta)) true := fun si delta => by
    by_cases hz : delta < 0
    · rw [if_pos hz, portOf_direc_low, decide_eq_false (Int.not_le.mpr hz)]
    · rw [if_neg hz, decide_eq_true (Int.not_lt.mp hz)]
  have hset := Fl.setTrk_self
  rw [Fl.move, hp, ← BitVec.or_assoc, portOf_side_high, portOf_direc_high, hside, hdirec]
  obtain ⟨hm, hc⟩ := Hw.write_moves hp (decide (trk % TRKPCYL = 0))
    (decide (0 ≤ (s.spindle drv).trk / (TRKPCYL : ℤ) - trk / (TRKPCYL : ℤ)))
  obtain ⟨hm', hp', hc'⟩ := Hw.stepTimes_moves
    ((s.spindle drv).trk / (TRKPCYL : ℤ) - trk / (TRKPCYL : ℤ)).natAbs
    (h := s.hw.write (portOf (some drv) m (decide (trk % TRKPCYL = 0))
      (decide (0 ≤ (s.spindle drv).trk / (TRKPCYL : ℤ) - trk / (TRKPCYL : ℤ))) true)) rfl
  refine ⟨h.moved hs.selected (hm.trans hm') hp'
    (fun d hd => Fl.setTrk_other _ drv trk hd) (by rw [hset]) fun _ => ?_, ⟨hs.selected, ?_⟩, ?_⟩
  · rw [hset]
    refine ⟨decide_eq_true_iff.trans ⟨fun hz => by dsimp only; omega, fun hz => by
      dsimp only at hz; omega⟩, ?_⟩
    have hfinal := hc'.trans (if_congr decide_eq_true_iff (by rw [hc]) (by rw [hc]))
    change ((Hw.stepTimes _ _ _).drives.cyl drv : ℤ) = (trk : ℤ) / TRKPCYL
    rw [hfinal]
    exact steps_arrive hcyl (Int.ediv_nonneg (Int.natCast_nonneg trk) (by decide))
  · rw [hset]
    exact hs.on
  · rw [hset]

theorem Agrees.seek (h : Agrees s) (hs : Spins drv s) (env : Env) (trk : ℕ) :
    Kept drv s (s.seek env drv trk).2 ∧ ((s.seek env drv trk).1 = true →
      Spins drv (s.seek env drv trk).2 ∧ ((s.seek env drv trk).2.spindle drv).trk = trk) := by
  rw [Fl.seek]
  split
  case isTrue htrk => exact ⟨⟨h, Spares.refl drv s.hw⟩, fun _ => ⟨hs, htrk⟩⟩
  case isFalse =>
    have hmotor : s.motor env drv true = (true, s) := if_pos hs.on
    have hselect : s.select drv = s := if_pos hs.selected
    rw [hmotor]
    dsimp only
    rw [hselect]
    split
    case isTrue hlost =>
      obtain ⟨hkept, hdone⟩ := h.recal env hlost
      cases hrecal : s.recal env drv with
      | mk ok s₁ =>
          rw [hrecal] at hkept hdone
          cases ok with
          | false => exact ⟨hkept, nofun⟩
          | true =>
              obtain ⟨hs₁, h0⟩ := hdone rfl
              obtain ⟨hkept₁, hend⟩ := hkept.agrees.move hs₁ (Int.le_of_eq h0.symm) trk
              exact ⟨hkept.trans hkept₁, fun _ => hend⟩
    case isFalse hknown =>
      obtain ⟨hkept, hend⟩ := h.move hs (Int.not_lt.mp hknown) trk
      exact ⟨hkept, fun _ => hend⟩

theorem Agrees.approach (h : Agrees s) (env : Env) (drv : Fin NDRIVES) (trk : ℕ) :
    Kept drv s (s.approach env drv trk).2 ∧ ((s.approach env drv trk).1 = true →
      Spins drv (s.approach env drv trk).2 ∧
        ((s.approach env drv trk).2.spindle drv).trk = trk) := by
  obtain ⟨hkept, hon⟩ := h.motorOn env drv
  rw [Fl.approach]
  cases hmotor : s.motor env drv true with
  | mk ok s₁ =>
      rw [hmotor] at hkept hon
      cases ok with
      | false => exact ⟨hkept, nofun⟩
      | true =>
          obtain ⟨hkept₁, hsel, hspin⟩ := hkept.agrees.select drv
          obtain ⟨hkept₂, hend⟩ :=
            hkept₁.agrees.seek ⟨hsel, by rw [hspin]; exact (hon rfl).1⟩ env trk
          exact ⟨(hkept.trans hkept₁).trans hkept₂, hend⟩

/-- What the driver knows about the drive is so. -/
theorem Agrees.onTrack (h : Agrees s) (hs : Spins drv s) {trk : ℕ}
    (htrk : (s.spindle drv).trk = trk) : OnTrack s.hw.drives drv trk := by
  have h0 : 0 ≤ (s.spindle drv).trk := htrk ▸ Int.natCast_nonneg trk
  obtain ⟨m, si, o, hp, hside⟩ := h.port
  have hhead := h.heads drv h0
  have hside' := hside drv hs.selected h0
  rw [htrk] at hhead hside'
  refine ⟨fun d => ?_, h.motors drv hs.on, by omega, ?_⟩
  · rw [hp, selects_portOf, hs.selected, decide_eq_true_eq, Option.some.injEq]
    exact eq_comm
  · rw [hp, high_side, hside']
    omega

theorem Agrees.setTrk_lost (h : Agrees s) (drv : Fin NDRIVES) : Kept drv s (s.setTrk drv (-1)) := by
  obtain ⟨m, si, o, hp, hside⟩ := h.port
  have hset : ∀ d, 0 ≤ ((s.setTrk drv (-1)).spindle d).trk → d ≠ drv := fun d h0 hd => by
    subst hd
    rw [Fl.setTrk_self] at h0
    exact absurd (show (0 : ℤ) ≤ -1 from h0) (by decide)
  refine ⟨⟨⟨m, si, o, hp, fun d hd h0 => ?_⟩, fun d => ?_, fun d h0 => ?_⟩, Spares.refl drv s.hw⟩
  · have hne := hset d h0
    rw [Fl.setTrk_other s drv (-1) hne] at h0 ⊢
    exact hside d hd h0
  · by_cases hd : d = drv
    · subst hd
      rw [Fl.setTrk_self]
      exact h.motors d
    · rw [Fl.setTrk_other s drv (-1) hd]
      exact h.motors d
  · have hne := hset d h0
    rw [Fl.setTrk_other s drv (-1) hne] at h0 ⊢
    exact h.heads d h0

/-- A call that only keeps. -/
theorem Kept.follows {env : Env} {c : Call} (h : Kept c.drv s (s.call env c)) : Follows env s c :=
  ⟨h.spares.stepped, [], by rw [List.append_nil]; exact h.spares.started, nofun⟩

/-- A call that starts a DMA once the drives are set. -/
theorem Kept.start_follows {env : Env} {c : Call} {trk : Fin TRACKS} (htrk : c.trk = some trk)
    (h : Kept c.drv s s') (hs : Spins c.drv s') (ht : (s'.spindle c.drv).trk = trk) (hw : Hw)
    (hdrives : hw.drives = s'.hw.drives) (hstepped : hw.stepped = s'.hw.stepped)
    (hstarted : hw.started = s'.hw.started) {b : Fl.Buffer}
    (hcall : ∃ adkcon dsklen, s.call env c = { s' with hw := hw }.start adkcon dsklen b) :
    Follows env s c ∧ Agrees (s.call env c) := by
  obtain ⟨adkcon, dsklen, hcall⟩ := hcall
  rw [Follows, hcall]
  refine ⟨⟨?_, [⟨hw.drives, adkcon, b.buff, dsklen⟩], ?_, fun dma hd => ?_⟩, ?_⟩
  · obtain ⟨l, hl, hd⟩ := h.spares.stepped
    exact ⟨l, by rw [← hl]; exact hstepped, hd⟩
  · change hw.started ++ _ = _
    rw [hstarted, h.spares.started]
  · obtain rfl := List.mem_singleton.mp hd
    refine ⟨trk, htrk, ?_⟩
    rw [hdrives]
    exact h.agrees.onTrack hs ht
  · exact @Agrees.congr _ h.agrees { hw with adkcon := adkcon, started := _ } hdrives

/-- Every call follows, and keeps what the driver thinks in agreement. -/
theorem Agrees.call (h : Agrees s) (env : Env) (c : Call) :
    Follows env s c ∧ Agrees (s.call env c) := by
  have hkept : Kept c.drv s (s.call env c) → Follows env s c ∧ Agrees (s.call env c) :=
    fun hk => ⟨hk.follows, hk.agrees⟩
  have hpolled : ∀ {s : Fl}, Agrees s → Kept c.drv s { s with hw := s.hw.polled } := fun h =>
    ⟨h.congr rfl, (Hw.polled_moves c.drv _).toSpares⟩
  cases c with
  | flread drv trk b =>
      obtain ⟨hk, hend⟩ := h.approach env drv trk
      cases happ : s.approach env drv trk with
      | mk ok s₁ =>
          rw [happ] at hk hend
          cases ok with
          | false =>
              refine hkept ?_
              rw [Fl.call, Fl.flread, happ]
              exact hk
          | true =>
              exact hk.start_follows (c := .flread drv trk b) rfl (hend rfl).1 (hend rfl).2 s₁.hw
                rfl rfl rfl ⟨_, _, by rw [Fl.call, Fl.flread, happ]⟩
  | flwrite drv trk b =>
      obtain ⟨hk, hend⟩ := h.approach env drv trk
      cases happ : s.approach env drv trk with
      | mk ok s₁ =>
          rw [happ] at hk hend
          cases ok with
          | false =>
              refine hkept ?_
              rw [Fl.call, Fl.flwrite, happ]
              exact hk
          | true =>
              by_cases hprot : (!high (s₁.hw.pra env) DSKPROT) = true
              · refine hkept ?_
                rw [Fl.call, Fl.flwrite, happ]
                dsimp only
                rw [if_pos hprot]
                exact hk.trans (hpolled hk.agrees)
              · have hcall : ∃ adkcon dsklen, s.call env (.flwrite drv trk b) =
                    { s₁ with hw := s₁.hw.polled }.start adkcon dsklen b := by
                  rw [Fl.call, Fl.flwrite, happ]
                  dsimp only
                  rw [if_neg hprot]
                  exact ⟨_, _, rfl⟩
                exact hk.start_follows (c := .flwrite drv trk b) rfl (hend rfl).1 (hend rfl).2
                  s₁.hw.polled rfl rfl rfl hcall
  | flwprot drv =>
      have hk := (h.select drv).1
      exact hkept (hk.trans (hpolled hk.agrees))
  | flok drv => exact hkept (h.motorOn env drv).1
  | flstop drv => exact hkept (h.motorOff drv)
  | fllost drv => exact hkept (h.setTrk_lost drv)

end

theorem flinit_agrees (hw : Hw) : Agrees (Fl.flinit hw) :=
  ⟨⟨true, true, true, show (~~~0 : Port) = portOf none true true true true by decide,
    fun _ hd => absurd hd nofun⟩, fun _ hon => absurd hon nofun,
    fun _ h0 => absurd (show (0 : ℤ) ≤ -1 from h0) (by decide)⟩

/-- Whatever the drives were before `flinit` and whatever they answer, no call
steps the head of another drive, and every DMA starts with the drives set for
its track. -/
theorem heads_follow (env : Env) (hw : Hw) (calls : List Call) :
    Every (Fl.call env) (Follows env) (Fl.flinit hw) calls :=
  every_of_invariant Agrees (fun _ c h _ => (h.call env c).2) (fun _ c h _ => (h.call env c).1)
    (flinit_agrees hw) (every_of_forall (Q := fun _ _ => True) (fun _ _ => trivial) _ _)

/-- Two drives, at cylinders 3 and 79, write tracks 5 and 158 after each other. -/
example :
    let hw : Hw := ⟨⟨0, fun d => if d = 0 then 3 else 79, fun _ => false⟩, 0, 0, [], []⟩
    let b : Fl.Buffer := ⟨0, 512, by decide, by decide, by decide, by decide⟩
    let s := final (Fl.call ⟨fun _ => true, fun _ => true⟩) (Fl.flinit hw)
      [.flwrite 0 5 b, .flwrite 1 158 b]
    s.hw.started.map (fun dma => (dma.drives.cyl 0, dma.drives.cyl 1)) = [(2, 79), (2, 79)] := by
  decide +kernel

end HydraAmix.Floppy
