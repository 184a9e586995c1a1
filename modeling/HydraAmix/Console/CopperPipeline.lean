import HydraAmix.Library.Schedule
import Mathlib.Data.List.FinRange
import Mathlib.Tactic.SplitIfs

/-!
# The copper lists in use

A list that is to be displayed is queued, loaded and then executed, and the
bit CopF_BUSY is meant to keep it from being rebuilt meanwhile. Every driver
owns two lists, and the null view is a list of its own. The routines run with
interrupts masked, apart from `conscop` when `coputc` calls it and from the
sleep of CloseScreen; these are steps of their own. Every step tells whether
the beam is at a safe position when it is tested.
-/
namespace HydraAmix.Console
open Schedule

abbrev MAXSCREENS : ℕ := 32

/-- A copper list: the null view, or `view[0]` or `view[1]` of a driver. -/
inductive Coplist where
  | nullview
  | view (user : ℕ) (second : Bool)
  deriving DecidableEq

namespace CopperPipeline

structure Screen where
  inuse : Bool
  user : ℕ
  display : Bool
  needcop : Bool
  /-- The Sf_DISPLAY bit of the driver's `scrflags`. -/
  scrdisplay : Bool
  coplist : Option Coplist

structure Copper where
  execing : Coplist
  loaded : Option Coplist
  queued : Option Coplist
  busy : Coplist → Bool
  /-- `coplist->screen`. -/
  screenOf : Coplist → Option (Fin MAXSCREENS)
  screen : Fin MAXSCREENS → Screen
  displayed : Option (Fin MAXSCREENS)
  /-- The drivers that are open. -/
  attached : ℕ → Bool
  /-- The lists that calls of `coputc` are about to finish, and their screens. -/
  writing : ℕ → Option (Fin MAXSCREENS × Coplist)
  /-- The calls of CloseScreen that wait, and the drivers they are made for. -/
  closing : ℕ → Option (Fin MAXSCREENS × ℕ)

namespace Copper

def init : Copper where
  execing := .nullview
  loaded := none
  queued := none
  busy c := c = .nullview
  screenOf _ := none
  screen _ := ⟨false, 0, false, false, false, none⟩
  displayed := none
  attached _ := false
  writing _ := none
  closing _ := none

variable (s : Copper)

def busyCop (c : Coplist) : Copper := { s with busy := Function.update s.busy c true }
def freeCop (c : Coplist) : Copper := { s with busy := Function.update s.busy c false }

def setScreen (sp : Fin MAXSCREENS) (scr : Screen) : Copper :=
  { s with screen := Function.update s.screen sp scr }

def setDisplayed (d : Option (Fin MAXSCREENS)) : Copper := { s with displayed := d }

def setWriting (p : ℕ) (w : Option (Fin MAXSCREENS × Coplist)) : Copper :=
  { s with writing := Function.update s.writing p w }

/-- What LoadView does about the list in the queue. -/
def unqueue : Copper :=
  match s.queued with
  | some q => { s.freeCop q with queued := none }
  | none => s

def loadView (c : Coplist) (safe : Bool) : Copper :=
  let s := (s.busyCop c).unqueue
  if s.loaded = none ∧ safe = true then { s with loaded := some c }
  else { s with queued := some c }

/-- LoadView of what a screen displays; nothing is left queued if it has no list. -/
def loadCoplist (sp : Fin MAXSCREENS) (safe : Bool) : Copper :=
  match (s.screen sp).coplist with
  | some c => s.loadView c safe
  | none => s.unqueue

/-- The list that `conscop` and `scrcop` choose. -/
def choose (sp : Fin MAXSCREENS) : Option Coplist :=
  let u := (s.screen sp).user
  if !s.busy (.view u false) then some (.view u false)
  else if !s.busy (.view u true) then some (.view u true)
  else none

/-- What `conscop` and `scrcop` do once the list is written. -/
def publish (sp : Fin MAXSCREENS) (c : Coplist) (safe : Bool) : Copper :=
  let s := { s.setScreen sp { s.screen sp with needcop := false, coplist := some c } with
    screenOf := Function.update s.screenOf c (some sp) }
  if s.displayed = some sp then s.loadCoplist sp safe else s

/-- `conscop` and `scrcop`. -/
def buildCop (sp : Fin MAXSCREENS) (safe : Bool) : Copper :=
  match s.choose sp with
  | some c => s.publish sp c safe
  | none => s

/-- The driver is to rebuild the list of a screen that comes to the front. -/
def Due (sp : Fin MAXSCREENS) : Prop :=
  (s.screen sp).display = true ∧ (s.screen sp).scrdisplay = false ∧ (s.screen sp).needcop = true

instance (sp : Fin MAXSCREENS) : Decidable (s.Due sp) := instDecidableAnd

/-- SC_CHANGE of both drivers. -/
def change (sp : Fin MAXSCREENS) (safe : Bool) : Copper :=
  let s := if s.Due sp then s.buildCop sp safe else s
  s.setScreen sp { s.screen sp with scrdisplay := (s.screen sp).display }

def setDisplay (sp : Fin MAXSCREENS) (on : Bool) : Copper :=
  s.setScreen sp { s.screen sp with display := on }

/-- The displayed screen is told that it no longer is. -/
def undisplay (safe : Bool) : Copper :=
  match s.displayed with
  | some old => (s.setDisplay old false).change old safe
  | none => s

/-- DisplayScreen up to the call of LoadView. -/
def toFront (sp : Fin MAXSCREENS) (safe : Bool) : Copper :=
  ((s.undisplay safe).setDisplay sp true).change sp safe

def displayScreen (sp : Fin MAXSCREENS) (safe : Bool) : Copper :=
  if s.displayed = some sp then s
  else ((s.toFront sp safe).loadCoplist sp safe).setDisplayed (some sp)

/-- The end of HideScreen, when no other screen takes over. -/
def hideScreen (safe : Bool) : Copper :=
  ((s.loadView .nullview safe).undisplay safe).setDisplayed none

/-- The first part of `screen_vbint`. -/
def shift : Copper :=
  match s.loaded with
  | some c => { s.freeCop s.execing with execing := c, loaded := none }
  | none => s

/-- SC_BLDCOP for the screen of the list that executes. -/
def vbBuild (safe : Bool) : Copper :=
  match s.screenOf s.execing with
  | some sp => if (s.screen sp).needcop then s.buildCop sp safe else s
  | none => s

def vbLoad (safe : Bool) : Copper :=
  if s.loaded = none ∧ safe = true then { s with loaded := s.queued, queued := none } else s

def screenVbint (safe safe' : Bool) : Copper := (s.shift.vbBuild safe).vbLoad safe'

/-- OpenScreen and what the driver `u` does with the screen; `u` is not open. -/
def openScreen (u : ℕ) : Copper :=
  match (List.finRange MAXSCREENS).find? fun sp => !(s.screen sp).inuse with
  | some sp =>
      if s.attached u then s
      else { s.setScreen sp ⟨true, u, false, true, false, none⟩ with
        attached := Function.update s.attached u true }
  | none => s

/-- CloseScreen up to WaitCop, after the calls of DisplayScreen for the screens
that could take over. -/
def closeScreen (p : ℕ) (sp : Fin MAXSCREENS) (safe : Bool) : Copper :=
  if (s.screen sp).inuse ∧ s.closing p = none then
    let s := if s.displayed = some sp then (s.loadView .nullview safe).setDisplayed none else s
    let s := s.setScreen sp { s.screen sp with inuse := false, display := false, needcop := false }
    { s.change sp safe with closing := Function.update s.closing p (some (sp, (s.screen sp).user)) }
  else s

/-- WaitCop keeps CloseScreen waiting. -/
def waits (sp : Fin MAXSCREENS) : Bool :=
  match (s.screen sp).coplist with
  | some c => s.busy c
  | none => false

/-- CloseScreen wakes up; when it returns, the driver clears its lists. -/
def closed (p : ℕ) : Copper :=
  match s.closing p with
  | some (sp, u) =>
      if s.waits sp then s
      else { (s.freeCop (.view u false)).freeCop (.view u true) with
        screenOf := Function.update (Function.update s.screenOf (.view u false) none)
          (.view u true) none
        attached := Function.update s.attached u false
        closing := Function.update s.closing p none }
  | none => s

/-- `conscop` of `coputc` has chosen a list and writes it. -/
def coputcBegin (p : ℕ) (sp : Fin MAXSCREENS) : Copper :=
  if s.writing p = none then s.setWriting p ((s.choose sp).map (sp, ·)) else s

/-- `conscop` of `coputc` has written its list. -/
def coputcEnd (p : ℕ) (safe : Bool) : Copper :=
  match s.writing p with
  | some (sp, c) => (s.setWriting p none).publish sp c safe
  | none => s

inductive Event where
  | openScreen (u : ℕ)
  | needcop (sp : Fin MAXSCREENS)
  | buildCop (sp : Fin MAXSCREENS) (safe : Bool)
  | coputcBegin (p : ℕ) (sp : Fin MAXSCREENS)
  | coputcEnd (p : ℕ) (safe : Bool)
  | displayScreen (sp : Fin MAXSCREENS) (safe : Bool)
  | hideScreen (safe : Bool)
  | closeScreen (p : ℕ) (sp : Fin MAXSCREENS) (safe : Bool)
  | closed (p : ℕ)
  | vbint (safe safe' : Bool)

def step (s : Copper) : Event → Copper
  | .openScreen u => s.openScreen u
  | .needcop sp => s.setScreen sp { s.screen sp with needcop := true }
  | .buildCop sp safe => s.buildCop sp safe
  | .coputcBegin p sp => s.coputcBegin p sp
  | .coputcEnd p safe => s.coputcEnd p safe
  | .displayScreen sp safe => s.displayScreen sp safe
  | .hideScreen safe => s.hideScreen safe
  | .closeScreen p sp safe => s.closeScreen p sp safe
  | .closed p => s.closed p
  | .vbint safe safe' => s.screenVbint safe safe'

/-- The copper executes the list, or is to load it. -/
def InUse (c : Coplist) : Prop := s.execing = c ∨ s.loaded = some c ∨ s.queued = some c

def Written (c : Coplist) : Prop := ∃ p sp, s.writing p = some (sp, c)

/-- The list that DisplayScreen hands to LoadView. -/
def shown (sp : Fin MAXSCREENS) : Option Coplist :=
  if (s.screen sp).scrdisplay = false ∧ (s.screen sp).needcop = true then
    (s.choose sp).or (s.screen sp).coplist
  else (s.screen sp).coplist

/-- The rebuilding of a displayed screen's list does not meet a call of
`coputc` that still writes it. -/
def Undisturbed (sp : Fin MAXSCREENS) : Prop :=
  s.displayed = some sp → ∀ c, s.choose sp = some c → ¬ s.Written c

/-- The steps that do not reach a defect: no list is handed to LoadView that is
in use or being written, and when CloseScreen returns neither of the driver's
lists is busy. -/
def Allowed (s : Copper) : Event → Prop
  | .buildCop sp _ => s.Undisturbed sp
  | .coputcEnd p _ => ∀ sp c, s.writing p = some (sp, c) → s.displayed = some sp →
      ∀ q sp', q ≠ p → s.writing q ≠ some (sp', c)
  | .displayScreen sp _ => s.displayed ≠ some sp → ∀ c, s.shown sp = some c →
      ¬ s.InUse c ∧ ¬ s.Written c
  | .hideScreen _ => ¬ s.InUse .nullview
  | .closeScreen _ sp _ => s.displayed = some sp → ¬ s.InUse .nullview
  | .closed p => ∀ sp u, s.closing p = some (sp, u) → s.waits sp = false →
      s.busy (.view u false) = false ∧ s.busy (.view u true) = false
  | .vbint _ _ => ∀ sp, s.shift.screenOf s.shift.execing = some sp →
      (s.screen sp).needcop = true → s.shift.Undisturbed sp
  | _ => True

/-- What is claimed of a step: a list that it rebuilds, or begins to rebuild,
is not in use, and CloseScreen returns only when its driver's lists are not. -/
def Respects (s : Copper) : Event → Prop
  | .buildCop sp _ => ∀ c, s.choose sp = some c → ¬ s.InUse c
  | .coputcBegin _ sp => ∀ c, s.choose sp = some c → ¬ s.InUse c
  | .displayScreen sp _ => ∀ c, s.choose sp = some c → ¬ s.InUse c
  | .vbint _ _ => ∀ sp c, s.shift.screenOf s.shift.execing = some sp →
      s.shift.choose sp = some c → ¬ s.shift.InUse c
  | .closed p => ∀ sp u, s.closing p = some (sp, u) → s.waits sp = false →
      ∀ second, ¬ s.InUse (.view u second)
  | _ => True

/-- What is claimed of a state: a list in use is busy, and nobody writes it. -/
structure Guarded (s : Copper) : Prop where
  busy : ∀ c, s.InUse c → s.busy c = true
  written : ∀ c, s.Written c → ¬ s.InUse c

structure Inv (s : Copper) : Prop where
  guarded : s.Guarded
  loaded : s.loaded ≠ some s.execing
  queued : s.queued ≠ some s.execing
  apart : ∀ c, s.loaded = some c → s.queued ≠ some c
  null : ¬ s.Written .nullview

variable {s : Copper} {sp : Fin MAXSCREENS} {c : Coplist}

theorem Guarded.not_inUse (h : s.Guarded) (hb : s.busy c = false) : ¬ s.InUse c := by
  intro hc
  rw [h.busy c hc] at hb
  cases hb

theorem choose_some (h : s.choose sp = some c) :
    s.busy c = false ∧ ∃ second, c = .view (s.screen sp).user second := by
  simp only [choose] at h
  split_ifs at h with h0 h1 <;> cases h
  · exact ⟨by simpa using h0, _, rfl⟩
  · exact ⟨by simpa using h1, _, rfl⟩

/-- A list that is chosen for rebuilding is not in use. -/
theorem Guarded.choose_free (h : s.Guarded) (hc : s.choose sp = some c) : ¬ s.InUse c :=
  h.not_inUse (choose_some hc).1

/-- The steps that change screens only. -/
structure Frame (s t : Copper) : Prop where
  execing : t.execing = s.execing
  loaded : t.loaded = s.loaded
  queued : t.queued = s.queued
  busy : t.busy = s.busy
  writing : t.writing = s.writing
  displayed : t.displayed = s.displayed

theorem Frame.refl (s : Copper) : Frame s s := ⟨rfl, rfl, rfl, rfl, rfl, rfl⟩

theorem Frame.trans {t r : Copper} (h : Frame s t) (h' : Frame t r) : Frame s r :=
  ⟨h'.execing.trans h.execing, h'.loaded.trans h.loaded, h'.queued.trans h.queued,
    h'.busy.trans h.busy, h'.writing.trans h.writing, h'.displayed.trans h.displayed⟩

theorem Frame.inUse {t : Copper} (h : Frame s t) : t.InUse c ↔ s.InUse c := by
  rw [InUse, InUse, h.execing, h.loaded, h.queued]

theorem Frame.written {t : Copper} (h : Frame s t) : t.Written c ↔ s.Written c := by
  rw [Written, Written, h.writing]

theorem Frame.setScreen (s : Copper) (sp : Fin MAXSCREENS) (scr : Screen) :
    Frame s (s.setScreen sp scr) := ⟨rfl, rfl, rfl, rfl, rfl, rfl⟩

theorem Frame.setDisplay (s : Copper) (sp : Fin MAXSCREENS) (on : Bool) :
    Frame s (s.setDisplay sp on) := .setScreen s sp _

theorem Inv.frame {t : Copper} (h : Inv s) (hf : Frame s t) : Inv t := by
  refine ⟨⟨fun c hc => ?_, fun c hc => ?_⟩, ?_, ?_, ?_, ?_⟩
  · rw [hf.busy]
    exact h.guarded.busy c (hf.inUse.mp hc)
  · rw [hf.inUse]
    exact h.guarded.written c (hf.written.mp hc)
  · rw [hf.loaded, hf.execing]
    exact h.loaded
  · rw [hf.queued, hf.execing]
    exact h.queued
  · rw [hf.loaded, hf.queued]
    exact h.apart
  · rw [hf.written]
    exact h.null

/-- What LoadView leaves in the pipeline. -/
theorem unqueue_fields :
    s.unqueue.execing = s.execing ∧ s.unqueue.loaded = s.loaded ∧ s.unqueue.queued = none ∧
      s.unqueue.writing = s.writing ∧
      ∀ d, s.queued ≠ some d → s.unqueue.busy d = s.busy d := by
  unfold unqueue
  split
  · next q hq =>
    refine ⟨rfl, rfl, rfl, rfl, fun d hd => ?_⟩
    exact Function.update_of_ne (fun he => hd (hq.trans (congrArg some he.symm))) _ _
  · next hq => exact ⟨rfl, rfl, hq, rfl, fun _ _ => rfl⟩

theorem Inv.unqueue (h : Inv s) : Inv s.unqueue := by
  obtain ⟨he, hl, hq, hw, hb⟩ := unqueue_fields (s := s)
  have huse : ∀ c, s.unqueue.InUse c → s.InUse c ∧ s.queued ≠ some c := by
    intro c hc
    rcases hc with hc | hc | hc
    · exact ⟨.inl (he ▸ hc), fun hn => h.queued (hn.trans (congrArg some (he ▸ hc).symm))⟩
    · exact ⟨.inr (.inl (hl ▸ hc)), h.apart c (hl ▸ hc)⟩
    · rw [hq] at hc
      cases hc
  refine ⟨⟨fun c hc => ?_, fun c hc hu => ?_⟩, ?_, ?_, fun c _ => ?_, ?_⟩
  · rw [hb c (huse c hc).2]
    exact h.guarded.busy c (huse c hc).1
  · rw [Written, hw] at hc
    exact h.guarded.written c hc (huse c hu).1
  · rw [hl, he]
    exact h.loaded
  · rw [hq]
    exact nofun
  · rw [hq]
    exact nofun
  · rw [Written, hw]
    exact h.null

/-- A list that is neither in use nor being written may be loaded. -/
theorem Inv.loadView (h : Inv s) (hu : ¬ s.InUse c) (hw : ¬ s.Written c) (safe : Bool) :
    Inv (s.loadView c safe) := by
  have hbusied : Inv (s.busyCop c) := by
    refine ⟨⟨fun d hd => ?_, h.guarded.written⟩, h.loaded, h.queued, h.apart, h.null⟩
    by_cases hdc : d = c
    · rw [hdc]
      exact Function.update_self ..
    · exact (Function.update_of_ne hdc _ _).trans (h.guarded.busy d hd)
  have hun := hbusied.unqueue
  obtain ⟨he, hl, hq, hwr, hb⟩ := unqueue_fields (s := s.busyCop c)
  have hbusy : (s.busyCop c).unqueue.busy c = true := by
    rw [hb c (fun hn => hu (.inr (.inr hn)))]
    exact Function.update_self ..
  have hce : s.execing ≠ c := fun hn => hu (.inl hn)
  have hcl : s.loaded ≠ some c := fun hn => hu (.inr (.inl hn))
  have hother : ∀ d, s.Written d → d ≠ c := fun d hd hn => hw (hn ▸ hd)
  unfold Copper.loadView
  revert hun he hl hq hwr hbusy
  generalize (s.busyCop c).unqueue = t
  intro hun he hl hq hwr hbusy
  have hwritten : ∀ d, t.Written d → d ≠ c := fun d hd => hother d (by rwa [Written, hwr] at hd)
  dsimp only
  split_ifs with hload
  · refine ⟨⟨?_, ?_⟩, ?_, hun.queued, ?_, hun.null⟩
    · rintro d (hd | hd | hd)
      · exact hun.guarded.busy d (.inl hd)
      · cases hd
        exact hbusy
      · exact hun.guarded.busy d (.inr (.inr hd))
    · rintro d hd (hd' | hd' | hd')
      · exact hun.guarded.written d hd (.inl hd')
      · exact hwritten d hd (Option.some.inj hd').symm
      · exact hun.guarded.written d hd (.inr (.inr hd'))
    · intro hn
      exact hce (he.symm.trans (Option.some.inj hn).symm)
    · intro d _
      rw [hq]
      exact nofun
  · refine ⟨⟨?_, ?_⟩, hun.loaded, ?_, ?_, hun.null⟩
    · rintro d (hd | hd | hd)
      · exact hun.guarded.busy d (.inl hd)
      · exact hun.guarded.busy d (.inr (.inl hd))
      · cases hd
        exact hbusy
    · rintro d hd (hd' | hd' | hd')
      · exact hun.guarded.written d hd (.inl hd')
      · exact hun.guarded.written d hd (.inr (.inl hd'))
      · exact hwritten d hd (Option.some.inj hd').symm
    · intro hn
      exact hce (he.symm.trans (Option.some.inj hn).symm)
    · intro d hd hn
      cases hn
      exact hcl (hl.symm.trans hd)

theorem Inv.setDisplayed (h : Inv s) (d : Option (Fin MAXSCREENS)) : Inv (s.setDisplayed d) :=
  ⟨⟨h.guarded.busy, h.guarded.written⟩, h.loaded, h.queued, h.apart, h.null⟩

theorem publish_frame (hd : s.displayed ≠ some sp) (c : Coplist) (safe : Bool) :
    Frame s (s.publish sp c safe) := by
  simp only [publish]
  rw [if_neg (by exact hd)]
  exact ⟨rfl, rfl, rfl, rfl, rfl, rfl⟩

theorem Inv.publish (h : Inv s) (hu : ¬ s.InUse c)
    (hw : s.displayed = some sp → ¬ s.Written c) (safe : Bool) : Inv (s.publish sp c safe) := by
  by_cases hd : s.displayed = some sp
  · simp only [Copper.publish]
    rw [if_pos (by exact hd)]
    have hscreen : Inv { s.setScreen sp { s.screen sp with
        needcop := false, coplist := some c } with
        screenOf := Function.update s.screenOf c (some sp) } :=
      h.frame ⟨rfl, rfl, rfl, rfl, rfl, rfl⟩
    simp only [loadCoplist, Copper.setScreen, Function.update_self]
    exact hscreen.loadView hu (hw hd) safe
  · exact h.frame (publish_frame hd c safe)

theorem Inv.buildCop (h : Inv s) (hw : s.Undisturbed sp) (safe : Bool) :
    Inv (s.buildCop sp safe) := by
  unfold Copper.buildCop
  split
  · next c hc => exact h.publish (h.guarded.choose_free hc) (fun hd => hw hd c hc) safe
  · exact h

theorem buildCop_frame (hd : s.displayed ≠ some sp) (safe : Bool) :
    Frame s (s.buildCop sp safe) := by
  unfold buildCop
  split
  · next c _ => exact publish_frame hd c safe
  · exact .refl s

theorem change_frame (hd : s.Due sp → s.displayed ≠ some sp) (safe : Bool) :
    Frame s (s.change sp safe) := by
  simp only [change]
  split_ifs with hdue
  · exact (buildCop_frame (hd hdue) safe).trans (.setScreen _ _ _)
  · exact .setScreen _ _ _

theorem not_due_of_display (h : (s.screen sp).display = false) : ¬ s.Due sp := by
  rintro ⟨hd, -⟩
  rw [h] at hd
  cases hd

theorem undisplay_frame (s : Copper) (safe : Bool) : Frame s (s.undisplay safe) := by
  unfold undisplay
  split
  · next old _ =>
    have hoff : ((s.setDisplay old false).screen old).display = false := by
      simp [setDisplay, setScreen]
    exact (Frame.setScreen s old _).trans
      (change_frame (fun hdue => absurd hdue (not_due_of_display hoff)) safe)
  · exact .refl s

theorem toFront_frame (hd : s.displayed ≠ some sp) (safe : Bool) :
    Frame s (s.toFront sp safe) := by
  have h1 : Frame s ((s.undisplay safe).setDisplay sp true) :=
    (undisplay_frame s safe).trans (.setDisplay _ _ _)
  refine h1.trans (change_frame (fun _ => ?_) safe)
  rw [h1.displayed]
  exact hd

theorem undisplay_screen (hd : s.displayed ≠ some sp) (safe : Bool) :
    (s.undisplay safe).screen sp = s.screen sp := by
  unfold undisplay
  split
  · next old hold =>
    have hne : sp ≠ old := fun he => hd (he ▸ hold)
    have hoff : ((s.setDisplay old false).screen old).display = false := by
      simp [setDisplay, setScreen]
    simp only [change]
    rw [if_neg (not_due_of_display hoff)]
    simp [setDisplay, setScreen, hne]
  · rfl

theorem buildCop_coplist (hd : s.displayed ≠ some sp) (safe : Bool) :
    ((s.buildCop sp safe).screen sp).coplist = (s.choose sp).or (s.screen sp).coplist := by
  unfold buildCop
  split
  · next c hc =>
    simp only [publish]
    rw [if_neg (by exact hd)]
    simp [setScreen, hc]
  · next hc => simp [hc]

theorem toFront_coplist (hd : s.displayed ≠ some sp) (safe : Bool) :
    ((s.toFront sp safe).screen sp).coplist = s.shown sp := by
  have hf := undisplay_frame s safe
  have hscr := undisplay_screen hd safe
  unfold toFront shown
  revert hf hscr
  generalize s.undisplay safe = t
  intro hf hscr
  have hchoose : (t.setDisplay sp true).choose sp = s.choose sp := by
    simp [choose, setDisplay, setScreen, hscr, hf.busy]
  have hon : (t.setDisplay sp true).screen sp = { s.screen sp with display := true } := by
    simp [setDisplay, setScreen, hscr]
  have hdisp : (t.setDisplay sp true).displayed ≠ some sp := by
    rw [(Frame.setDisplay t sp true).displayed, hf.displayed]
    exact hd
  simp only [change, Copper.setScreen, Function.update_self]
  by_cases hdue : (t.setDisplay sp true).Due sp
  · have ⟨_, hs, hn⟩ := hdue
    rw [if_pos hdue, buildCop_coplist hdisp, hchoose, hon]
    rw [hon] at hs hn
    exact (if_pos ⟨hs, hn⟩).symm
  · rw [if_neg hdue, hon]
    refine (if_neg fun hc => hdue ?_).symm
    rw [Due, hon]
    exact ⟨rfl, hc⟩

theorem Inv.displayScreen (h : Inv s)
    (ha : s.displayed ≠ some sp → ∀ c, s.shown sp = some c → ¬ s.InUse c ∧ ¬ s.Written c)
    (safe : Bool) : Inv (s.displayScreen sp safe) := by
  unfold Copper.displayScreen
  split_ifs with hd
  · exact h
  · have hf := toFront_frame hd safe
    have hfront := h.frame hf
    have hload : Inv ((s.toFront sp safe).loadCoplist sp safe) := by
      unfold loadCoplist
      split
      · next c hc =>
        rw [toFront_coplist hd] at hc
        obtain ⟨hu, hw⟩ := ha hd c hc
        exact hfront.loadView (fun hn => hu (hf.inUse.mp hn)) (fun hn => hw (hf.written.mp hn)) safe
      · exact hfront.unqueue
    exact hload.setDisplayed _

theorem Inv.hideScreen (h : Inv s) (ha : ¬ s.InUse .nullview) (safe : Bool) :
    Inv (s.hideScreen safe) := by
  exact ((h.loadView ha h.null safe).frame (undisplay_frame _ safe)).setDisplayed none

theorem shift_inUse (h : s.shift.InUse c) : s.InUse c := by
  unfold shift at h
  split at h
  · next d hd =>
    rcases h with h | h | h
    · exact .inr (.inl (hd.trans (congrArg some h)))
    · cases h
    · exact .inr (.inr h)
  · exact h

theorem shift_writing (s : Copper) : s.shift.writing = s.writing := by
  unfold shift
  split <;> rfl

/-- What executed is freed, and what was loaded executes. -/
theorem Inv.shift (h : Inv s) : Inv s.shift := by
  have hnot : ∀ c, s.shift.Written c → ¬ s.shift.InUse c := fun c hw hu =>
    h.guarded.written c (by rwa [Written, shift_writing] at hw) (shift_inUse hu)
  have hnull : ¬ s.shift.Written .nullview := by
    rw [Written, shift_writing]
    exact h.null
  revert hnot hnull
  unfold Copper.shift
  split
  · next d hd =>
    intro hnot hnull
    refine ⟨⟨?_, hnot⟩, nofun, fun hq => h.apart d hd hq, nofun, hnull⟩
    have hfreed : ∀ c, c ≠ s.execing → s.InUse c → (s.freeCop s.execing).busy c = true :=
      fun c hc hu => (Function.update_of_ne hc _ _).trans (h.guarded.busy c hu)
    rintro c (hc | hc | hc)
    · cases hc
      exact hfreed d (fun he => h.loaded (he ▸ hd)) (.inr (.inl hd))
    · cases hc
    · exact hfreed c (fun he => h.queued (he ▸ hc)) (.inr (.inr hc))
  · exact fun _ _ => h

theorem Inv.vbBuild (h : Inv s)
    (ha : ∀ sp, s.screenOf s.execing = some sp → (s.screen sp).needcop = true →
      s.Undisturbed sp) (safe : Bool) : Inv (s.vbBuild safe) := by
  unfold Copper.vbBuild
  split
  · next sp hsp =>
    split_ifs with hn
    · exact h.buildCop (ha sp hsp hn) safe
    · exact h
  · exact h

theorem Inv.vbLoad (h : Inv s) (safe : Bool) : Inv (s.vbLoad safe) := by
  unfold Copper.vbLoad
  split_ifs with hl
  · have huse : ∀ c, Copper.InUse { s with loaded := s.queued, queued := none } c →
        s.InUse c := by
      rintro c (hc | hc | hc)
      · exact .inl hc
      · exact .inr (.inr hc)
      · cases hc
    exact ⟨⟨fun c hc => h.guarded.busy c (huse c hc),
      fun c hw hc => h.guarded.written c hw (huse c hc)⟩, h.queued, nofun, fun _ _ => nofun, h.null⟩
  · exact h

theorem Inv.closeScreen (h : Inv s) (p : ℕ)
    (ha : s.displayed = some sp → ¬ s.InUse .nullview) (safe : Bool) :
    Inv (s.closeScreen p sp safe) := by
  have hclear : ∀ t : Copper, Inv t → ∀ w, Inv { (t.setScreen sp { t.screen sp with
      inuse := false, display := false, needcop := false }).change sp safe with closing := w } := by
    intro t ht w
    have hoff : ((t.setScreen sp { t.screen sp with
        inuse := false, display := false, needcop := false }).screen sp).display = false := by
      simp [Copper.setScreen]
    have hf := (Frame.setScreen t sp _).trans
      (change_frame (fun hdue => absurd hdue (not_due_of_display hoff)) safe)
    exact ht.frame ⟨hf.execing, hf.loaded, hf.queued, hf.busy, hf.writing, hf.displayed⟩
  simp only [Copper.closeScreen]
  split_ifs with hopen hd
  · exact hclear _ ((h.loadView (ha hd) h.null safe).setDisplayed none) _
  · exact hclear s h _
  · exact h

theorem Inv.closed (h : Inv s) (p : ℕ) (ha : ∀ sp u, s.closing p = some (sp, u) →
    s.waits sp = false → s.busy (.view u false) = false ∧ s.busy (.view u true) = false) :
    Inv (s.closed p) := by
  unfold Copper.closed
  split
  · next sp u hp =>
    split_ifs with hw
    · exact h
    · obtain ⟨h0, h1⟩ := ha sp u hp (Bool.eq_false_iff.mpr hw)
      have hbusy : ((s.freeCop (.view u false)).freeCop (.view u true)).busy = s.busy := by
        funext d
        by_cases hd1 : d = .view u true
        · simp [freeCop, hd1, h1]
        · by_cases hd0 : d = .view u false
          · simp [freeCop, hd0, h0]
          · simp [freeCop, hd0, hd1]
      exact h.frame ⟨rfl, rfl, rfl, hbusy, rfl, rfl⟩
  · exact h

theorem written_setWriting {p : ℕ} {w : Option (Fin MAXSCREENS × Coplist)}
    (h : (s.setWriting p w).Written c) :
    (∃ q sp, q ≠ p ∧ s.writing q = some (sp, c)) ∨ ∃ sp, w = some (sp, c) := by
  obtain ⟨q, sp, hq⟩ := h
  simp only [setWriting] at hq
  by_cases hqp : q = p
  · rw [hqp, Function.update_self] at hq
    exact .inr ⟨sp, hq⟩
  · rw [Function.update_of_ne hqp] at hq
    exact .inl ⟨q, sp, hqp, hq⟩

/-- What one step keeps. -/
theorem Inv.step (h : Inv s) {e : Event} (ha : s.Allowed e) : Inv (s.step e) := by
  cases e with
  | openScreen u =>
      simp only [Copper.step, Copper.openScreen]
      split
      · split_ifs
        · exact h
        · exact h.frame ⟨rfl, rfl, rfl, rfl, rfl, rfl⟩
      · exact h
  | needcop sp => exact h.frame (.setScreen _ _ _)
  | buildCop sp safe => exact h.buildCop ha safe
  | coputcBegin p sp =>
      simp only [Copper.step, Copper.coputcBegin]
      split_ifs
      · have hwr : ∀ c, (s.setWriting p ((s.choose sp).map (sp, ·))).Written c →
            s.Written c ∨ s.choose sp = some c := by
          intro c hc
          obtain ⟨q, sp', hq⟩ | hc := written_setWriting hc
          · exact .inl ⟨q, sp', hq.2⟩
          · obtain ⟨sp', hc⟩ := hc
            obtain ⟨_, hc, he⟩ := Option.map_eq_some_iff.mp hc
            cases he
            exact .inr hc
        refine ⟨⟨h.guarded.busy, fun c hc => ?_⟩, h.loaded, h.queued, h.apart, fun hc => ?_⟩
        · rcases hwr c hc with hc | hc
          · exact h.guarded.written c hc
          · exact h.guarded.choose_free hc
        · rcases hwr _ hc with hc | hc
          · exact h.null hc
          · obtain ⟨-, _, hv⟩ := choose_some hc
            cases hv
      · exact h
  | coputcEnd p safe =>
      simp only [Copper.step, Copper.coputcEnd]
      split
      · next sp c hp =>
        have hwr : ∀ d, (s.setWriting p none).Written d →
            ∃ q sp', q ≠ p ∧ s.writing q = some (sp', d) := by
          intro d hd
          obtain hd | ⟨_, hd⟩ := written_setWriting hd
          · exact hd
          · cases hd
        have hdone : Inv (s.setWriting p none) := by
          refine ⟨⟨h.guarded.busy, fun d hd => ?_⟩, h.loaded, h.queued, h.apart, fun hd => ?_⟩
          · obtain ⟨q, sp', -, hq⟩ := hwr d hd
            exact h.guarded.written d ⟨q, sp', hq⟩
          · obtain ⟨q, sp', -, hq⟩ := hwr _ hd
            exact h.null ⟨q, sp', hq⟩
        refine hdone.publish (h.guarded.written c ⟨p, sp, hp⟩) (fun hd hc => ?_) safe
        obtain ⟨q, sp', hqp, hq⟩ := hwr c hc
        exact ha sp c hp hd q sp' hqp hq
      · exact h
  | displayScreen sp safe => exact h.displayScreen ha safe
  | hideScreen safe => exact h.hideScreen ha safe
  | closeScreen p sp safe => exact h.closeScreen p ha safe
  | closed p => exact h.closed p ha
  | vbint safe safe' =>
      have hscreen : s.shift.screen = s.screen := by
        unfold Copper.shift
        split <;> rfl
      refine (h.shift.vbBuild (fun sp hsp hn => ?_) safe).vbLoad safe'
      exact ha sp hsp (by rwa [hscreen] at hn)

theorem Inv.respects (h : Inv s) {e : Event} (ha : s.Allowed e) : s.Respects e := by
  cases e with
  | buildCop sp _ => exact fun c => h.guarded.choose_free
  | coputcBegin _ sp => exact fun c => h.guarded.choose_free
  | displayScreen sp _ => exact fun c => h.guarded.choose_free
  | vbint _ _ => exact fun sp c _ => h.shift.guarded.choose_free
  | closed p =>
      intro sp u hp hw second
      obtain ⟨h0, h1⟩ := ha sp u hp hw
      cases second with
      | false => exact h.guarded.not_inUse h0
      | true => exact h.guarded.not_inUse h1
  | _ => trivial

theorem init_inv : Inv init := by
  have hnone : ∀ c, ¬ init.Written c := fun c ⟨_, _, hw⟩ => nomatch hw
  refine ⟨⟨fun c hc => ?_, fun c hc => absurd hc (hnone c)⟩, nofun, nofun, nofun, hnone _⟩
  rcases hc with hc | hc | hc
  · exact decide_eq_true hc.symm
  · cases hc
  · cases hc

/-- In every run of steps that do not reach a defect, a list in use is busy and
never rebuilt, and CloseScreen returns only when the lists are not in use. -/
theorem copper_lists_guarded (es : List Event) (h : Every step Allowed init es) :
    Every step Respects init es ∧ Guarded (final step init es) :=
  ⟨every_of_invariant Inv (fun _ _ hi ha => hi.step ha) (fun _ _ hi ha => hi.respects ha)
      init_inv h,
    (final_of_every Inv (fun _ _ hi ha => hi.step ha) init_inv h).guarded⟩

/-- A screen is opened, displayed and closed. -/
def oneScreen (sp : Fin MAXSCREENS) : List Event :=
  [.openScreen 0, .displayScreen sp true, .vbint true true, .closeScreen 0 sp true,
    .vbint true true, .closed 0]

theorem copper_lists_guarded_one :
    Every step Respects init (oneScreen 0) ∧ Guarded (final step init (oneScreen 0)) := by
  refine copper_lists_guarded (oneScreen 0) ⟨trivial, ?_, ?_, ?_, ?_, ?_, trivial⟩
  · rintro - c hc
    obtain rfl : Coplist.view 0 false = c := Option.some.inj hc
    refine ⟨fun hu => ?_, fun ⟨_, _, hw⟩ => nomatch hw⟩
    rcases hu with hu | hu | hu <;> cases hu
  · intro sp hsp hn
    obtain rfl : 0 = sp := Option.some.inj hsp
    exact absurd hn (by decide)
  · rintro - (hu | hu | hu) <;> cases hu
  · intro sp hsp
    cases hsp
  · intro sp u hp _
    cases hp
    exact ⟨rfl, rfl⟩

/-- Two screens; the first one is displayed again before the second one has
replaced it. -/
def backAndForth (a b : Fin MAXSCREENS) : List Event :=
  [.openScreen 0, .openScreen 1, .displayScreen a true, .vbint true true,
    .displayScreen b true, .displayScreen a true, .vbint true true]

theorem copper_lists_guarded_fails : ¬ Guarded (final step init (backAndForth 0 1)) := by
  intro h
  have hb := h.busy (.view 0 false) (.inr (.inl (by decide)))
  revert hb
  decide

end Copper
end CopperPipeline
end HydraAmix.Console
