import HydraAmix.Console.ShiftTable

/-!
# The shift state follows the keys

The keyboard state belongs to the screen that is active, and its shift keys to the
keymap that `fixstate` has read last. `fixstate` is called when a screen is selected
and when a keymap is set for the active one, but not when SIOCSETINPUTMODE takes it
out of raw mode; keys that went up or down in raw mode have only been noted. Two other
keys come without a note or with the notes of others: the keyboard's reset warning, and
mouse buttons that change at once.

What a screen's `kbfunc` and `mifunc` do is not here, nor is the console's own input. A
step has no value where the keymap is left, or the keyboard's second warning halts the
machine.
-/
namespace HydraAmix.Console.KeyEncode
open Schedule

/-- What is read of a `struct screen`; Sf_RAWKEY is in its flags. -/
structure Scr where
  rawkey : Bool
  kmap : Option Keymap
  kbfunc : Bool

/-- The static state of the screen code. A call of `repeat` may be pending. -/
structure Input where
  kb : Keyboard
  screens : ℕ → Scr
  activescreen : Option ℕ
  scr_defkmap : Keymap
  mousebuttons : BitVec 3
  timeoutid : Bool
  repcode : ℕ
  pending : Bool
  resetwarning : Bool

namespace Input

variable (s : Input)

def setKb (kb : Keyboard) : Input := { s with kb := kb }

def setScreen (sp : ℕ) (x : Scr) : Input := { s with screens := Function.update s.screens sp x }

/-- `if (timeoutid) untimeout(timeoutid)`. -/
def untimeout : Input := if s.timeoutid then { s with pending := false } else s

/-- The same, with `timeoutid = 0`. -/
def cancel : Input := { s.untimeout with timeoutid := false }

def GetKmap (sp : ℕ) : Keymap := (s.screens sp).kmap.getD s.scr_defkmap

def fixstate (sp : ℕ) : Option Input :=
  let kmap := if (s.screens sp).rawkey then s.scr_defkmap else s.GetKmap sp
  (kmap.fixstate s.kb).map s.setKb

/-- `keyboardstate = 0`, and no repeat. -/
def reset : Input := (s.setKb (s.kb.setState 0#32)).cancel

def SelectScreen (sp : Option ℕ) : Option Input :=
  if s.activescreen ≠ none ∧ s.activescreen = sp then some s
  else
    let s := { s.reset with activescreen := sp }
    match sp with
    | some sp => s.fixstate sp
    | none => some s

def SetKmap (sp : ℕ) (kmap : Option Keymap) : Option Input :=
  let s := s.setScreen sp { s.screens sp with kmap := kmap.map Keymap.setKmap }
  if s.activescreen = some sp then s.reset.fixstate sp else some s

def SetDefKmap (scr_builtinkmap : Keymap) (kmap : Option Keymap) : Option Input :=
  let s := { s with scr_defkmap := (kmap.map Keymap.setKmap).getD scr_builtinkmap }
  match s.activescreen with
  | some sp => if (s.screens sp).kmap.isNone then s.reset.fixstate sp else some s
  | none => some s

/-- SIOCSETINPUTMODE, of which the menu bit is of no interest here. -/
def setInputMode (sp : ℕ) (arg : BitVec 32) : Input :=
  if arg &&& ~~~3#32 ≠ 0#32 then s
  else s.setScreen sp { s.screens sp with rawkey := arg.getLsbD 0 }

/-- The keymap through which the active screen's keys are interpreted, unless it is
without `kbfunc` or in raw mode. -/
def interpreter : Option Keymap :=
  s.activescreen.bind fun sp =>
    if (s.screens sp).kbfunc && !(s.screens sp).rawkey then some (s.GetKmap sp) else none

/-- The repeat timer, by what `encode` has returned. -/
def rearm (code rawcode : ℕ) : Input :=
  match code with
  | 0 => s
  | 1 => s.untimeout
  | _ =>
    if rawcode < 128 then
      { s.untimeout with repcode := rawcode % 128, timeoutid := true, pending := true }
    else s.untimeout

def dokb (rawcode : ℕ) (repeatflag : Bool) : Option Input :=
  let s := if 128 ≤ rawcode ∧ s.timeoutid = true ∧ s.repcode = rawcode % 128 then s.cancel else s
  match s.interpreter with
  | some kmap => (kmap.dokb kmap.length rawcode repeatflag s.kb).map fun r =>
      (s.setKb r.kb).rearm r.code rawcode
  | none => some s

/-- The keymap and the keyboard with which `dokb` calls `encode`. -/
def interprets (rawcode : ℕ) : Option (Keymap × Keyboard) :=
  s.interpreter.bind fun kmap => (kmap.shifted rawcode s.kb).map (kmap, ·)

/-- `kbintr` up to its call of `dokb`. The group keys select the screen that is found, if any. -/
def kbintr (c : BitVec 8) (found : Option ℕ) : Option Input :=
  if c = 0x78#8 ∧ s.resetwarning = true then none
  else
    let s := { s with resetwarning := s.resetwarning || c = 0x78#8 }
    let s := s.setKb ((Event.key c).note s.kb)
    if ¬ (c = 0x78#8 ∨ 0xf8#8 ≤ c) ∧ (s.kb.keystates 100 || s.kb.keystates 101) = true ∧
        (c.toNat / 16 = 5 ∨ c = 0x45#8) then s.SelectScreen found
    else some s

/-- The part of `screen_vbint` that notes the mouse buttons. -/
def noteButtons (cur_buttons : BitVec 3) : Input :=
  if cur_buttons = s.mousebuttons then s
  else
    { s with
      kb := ⟨fun k => if 124 ≤ k ∧ k < 127 then cur_buttons.getLsbD (k - 124)
        else s.kb.keystates k, s.kb.shiftkeys, s.kb.keyboardstate, s.kb.clearprefix⟩
      mousebuttons := cur_buttons }

/-- What happens: the interrupts of the keyboard, the repeat timer and the screen, and
the calls for the system's users. -/
inductive Event
  | key (c : BitVec 8) (found : Option ℕ)
  | again
  | buttons (cur_buttons : BitVec 3)
  | select (sp : Option ℕ)
  | setKmap (sp : ℕ) (kmap : Option Keymap)
  | setDefKmap (kmap : Option Keymap)
  | setInputMode (sp : ℕ) (arg : BitVec 32)

/-- All but the calls of `dokb`. -/
def before (scr_builtinkmap : Keymap) : Event → Option Input
  | .key c found => s.kbintr c found
  | .again => some { s with pending := false }
  | .buttons cur_buttons => some (s.noteButtons cur_buttons)
  | .select sp => s.SelectScreen sp
  | .setKmap sp kmap => s.SetKmap sp kmap
  | .setDefKmap kmap => s.SetDefKmap scr_builtinkmap kmap
  | .setInputMode sp arg => some (s.setInputMode sp arg)

/-- The calls of `dokb`, with raw code and repeat flag. -/
def codes : Event → List (ℕ × Bool)
  | .key c _ => [(c.toNat, false)]
  | .again => if s.pending then [(s.repcode, true)] else []
  | .buttons cur_buttons =>
    ([0, 1, 2].filter fun j => cur_buttons.getLsbD j != s.mousebuttons.getLsbD j).map fun j =>
      (if cur_buttons.getLsbD j then 124 + j else 124 + j + 128, false)
  | _ => []

def step (scr_builtinkmap : Keymap) (s : Option Input) (e : Event) : Option Input :=
  s.bind fun s => (s.before scr_builtinkmap e).bind fun t =>
    (s.codes e).foldlM (fun t c => t.dokb c.1 c.2) t

/-- Nothing is down, and no screen is active. -/
def boot (scr_builtinkmap : Keymap) (screens : ℕ → Scr) : Input :=
  ⟨idleKeyboard, screens, none, scr_builtinkmap, 0#3, false, 0, false, false⟩

/-- In all of the calls, the shift state follows the keys when a key is interpreted. -/
def Shown : Input → List (ℕ × Bool) → Prop
  | _, [] => True
  | s, c :: l => (∀ kmap kb, s.interprets c.1 = some (kmap, kb) → kmap.Follows kb) ∧
      ∀ t, s.dokb c.1 c.2 = some t → Shown t l

/-- Where the shift state may get out of step: the active screen leaves raw mode, and `fixstate`
would have changed the state; a shift key comes as pressed in a reset warning; or the mouse
button that is reported is not the only shift key that was noted. -/
def Steady : Event → Prop
  | .key c _ => c = 0x78#8 → s.interpreter ≠ none → s.kb.shiftkeys 0x78 = false
  | .buttons cur_buttons => cur_buttons ≠ s.mousebuttons → ∀ j < 3,
      s.kb.keystates (124 + j) ≠ cur_buttons.getLsbD j →
      (cur_buttons.getLsbD j = s.mousebuttons.getLsbD j ∨ s.interpreter ≠ none ∧
        ∃ i < j, cur_buttons.getLsbD i ≠ s.mousebuttons.getLsbD i) →
      s.kb.shiftkeys (124 + j) = false
  | .setInputMode sp arg => s.interpreter = none → ∀ kmap,
      (s.setInputMode sp arg).interpreter = some kmap →
      ∃ kb, kmap.fixstate s.kb = some kb ∧ Block.Low kb s.kb
  | _ => True

/-- The keymaps' KA_STAT entries set only bits above 15. -/
def Fits : Event → Prop
  | .setKmap _ kmap | .setDefKmap kmap => ∀ km, kmap = some km → km.setKmap.HighStat
  | _ => True

/-! ### The invariant -/

variable {s t : Input} {stale : ℕ → Prop} {l : List (ℕ × Bool)}

/-- The keymaps set only high bits. -/
structure High (s : Input) : Prop where
  own : ∀ sp kmap, (s.screens sp).kmap = some kmap → kmap.HighStat
  default : s.scr_defkmap.HighStat

/-- A key that is to be repeated is down or no shift key, or its release is still to be
interpreted. -/
def Timed (s : Input) (l : List (ℕ × Bool)) : Prop :=
  s.pending = true → s.timeoutid = true ∧ s.repcode < 128 ∧
    (s.kb.keystates s.repcode = true ∨ s.kb.shiftkeys s.repcode = false ∨
      ∃ c ∈ l, c.1 = s.repcode + 128)

/-- Before the calls in `l`, the shift state follows the keys but for the rows that list a
stale key. -/
structure Sound (s : Input) (l : List (ℕ × Bool)) (stale : ℕ → Prop) : Prop where
  high : s.High
  table : ∀ kmap, s.interpreter = some kmap → kmap.Table s.kb
  follows : ∀ kmap, s.interpreter = some kmap → ∀ i < 16, (∀ k ∈ kmap.listed i, ¬ stale k) →
    s.kb.keyboardstate.getLsbD i = (kmap.listed i).any s.kb.keystates
  timed : s.Timed l

theorem High.getKmap (h : s.High) (sp : ℕ) : (s.GetKmap sp).HighStat := by
  unfold GetKmap
  cases hk : (s.screens sp).kmap with
  | none => exact h.default
  | some kmap => exact h.own sp kmap hk

theorem interpreter_some {kmap : Keymap} (h : s.interpreter = some kmap) :
    ∃ sp, s.activescreen = some sp ∧ (s.screens sp).rawkey = false ∧ s.GetKmap sp = kmap := by
  obtain ⟨sp, hsp, h⟩ := Option.bind_eq_some_iff.mp h
  split_ifs at h with hflags
  rw [Bool.and_eq_true, Bool.not_eq_true'] at hflags
  exact ⟨sp, hsp, hflags.2, Option.some.inj h⟩

theorem High.interpreter (h : s.High) {kmap : Keymap} (hk : s.interpreter = some kmap) :
    kmap.HighStat := by
  obtain ⟨sp, -, -, rfl⟩ := interpreter_some hk
  exact h.getKmap sp

theorem any_congr_mem {ks : List ℕ} {p q : ℕ → Bool} (h : ∀ k ∈ ks, p k = q k) :
    ks.any p = ks.any q := by
  rw [Bool.eq_iff_iff, List.any_eq_true, List.any_eq_true]
  exact exists_congr fun k => and_congr_right fun hk => by rw [h k hk]

/-! ### Rebuilding -/

theorem untimeout_same (s : Input) : s.untimeout.kb = s.kb ∧ s.untimeout.screens = s.screens ∧
    s.untimeout.activescreen = s.activescreen ∧ s.untimeout.scr_defkmap = s.scr_defkmap := by
  unfold untimeout
  split_ifs <;> exact ⟨rfl, rfl, rfl, rfl⟩

theorem untimeout_pending (h : s.Timed l) : s.untimeout.pending = false := by
  unfold untimeout
  split_ifs with ht
  · rfl
  · cases hp : s.pending with
    | false => rfl
    | true => exact absurd (h hp).1 ht

theorem cancel_same (s : Input) : s.cancel.kb = s.kb ∧ s.cancel.screens = s.screens ∧
    s.cancel.activescreen = s.activescreen ∧ s.cancel.scr_defkmap = s.scr_defkmap :=
  untimeout_same s

theorem timed_of_not (h : s.pending = false) (l : List (ℕ × Bool)) : s.Timed l :=
  fun hp => absurd (h.symm.trans hp) nofun

/-- After `fixstate` of the active screen nothing is stale. -/
theorem fixstate_sound {sp : ℕ} (hhigh : s.High) (hactive : s.activescreen = some sp)
    (hp : s.pending = false) (h : s.fixstate sp = some t) :
    Sound t l stale ∧ t.kb.keystates = s.kb.keystates ∧ t.interpreter = s.interpreter := by
  obtain ⟨kb, hkb, rfl⟩ := Option.map_eq_some_iff.mp h
  obtain ⟨hkeys, htable, hfollows⟩ := Block.fixstate_spec hkb
  have hkmap : ∀ kmap, (s.setKb kb).interpreter = some kmap →
      (if (s.screens sp).rawkey then s.scr_defkmap else s.GetKmap sp) = kmap := by
    intro kmap hk
    obtain ⟨sp', hsp', hraw, hget⟩ := interpreter_some hk
    obtain rfl := Option.some.inj (hactive.symm.trans hsp')
    rw [if_neg (show ¬ (s.screens sp).rawkey = true by
      rw [show (s.screens sp).rawkey = false from hraw]; nofun)]
    exact hget
  refine ⟨⟨⟨hhigh.own, hhigh.default⟩, fun kmap hk => ?_, fun kmap hk i hi _ => ?_,
    timed_of_not (s := s.setKb kb) hp l⟩, hkeys, rfl⟩
  · rw [← hkmap kmap hk]
    exact htable
  · rw [← hkmap kmap hk]
    exact hfollows i hi

theorem reset_same (s : Input) : s.reset.kb.keystates = s.kb.keystates ∧
    s.reset.screens = s.screens ∧ s.reset.activescreen = s.activescreen ∧
    s.reset.scr_defkmap = s.scr_defkmap := by
  obtain ⟨hkb, hsc, ha, hd⟩ := cancel_same (s.setKb (s.kb.setState 0#32))
  refine ⟨?_, hsc, ha, hd⟩
  unfold reset
  rw [hkb]
  rfl

theorem reset_pending (h : s.Timed l) : s.reset.pending = false :=
  untimeout_pending (s := s.setKb (s.kb.setState 0#32)) (l := l) h

theorem reset_high (h : s.High) : s.reset.High := by
  obtain ⟨-, hsc, -, hd⟩ := reset_same s
  exact ⟨hsc ▸ h.own, hd ▸ h.default⟩

theorem Sound.select (h : Sound s l stale) {sp : Option ℕ} (ht : s.SelectScreen sp = some t) :
    Sound t l stale ∧ t.kb.keystates = s.kb.keystates := by
  unfold SelectScreen at ht
  split_ifs at ht with hsame
  · obtain rfl := Option.some.inj ht
    exact ⟨h, rfl⟩
  · obtain ⟨hkeys, -, -, -⟩ := reset_same s
    have hhigh : High { s.reset with activescreen := sp } :=
      ⟨(reset_high h.high).own, (reset_high h.high).default⟩
    have hpending := reset_pending h.timed
    cases sp with
    | none =>
        obtain rfl := Option.some.inj ht
        exact ⟨⟨hhigh, fun _ hk => absurd hk nofun, fun _ hk => absurd hk nofun,
          timed_of_not hpending l⟩, hkeys⟩
    | some a =>
        obtain ⟨hsound, hk, -⟩ : Sound t l stale ∧ _ ∧ _ :=
          fixstate_sound hhigh rfl hpending ht
        exact ⟨hsound, hk.trans hkeys⟩

theorem Sound.setKmap (h : Sound s l stale) {sp : ℕ} {kmap : Option Keymap}
    (hkmap : ∀ km, kmap = some km → km.setKmap.HighStat) (ht : s.SetKmap sp kmap = some t) :
    Sound t l stale := by
  have hhigh : (s.setScreen sp { s.screens sp with kmap := kmap.map Keymap.setKmap }).High := by
    refine ⟨fun a k hk => ?_, h.high.default⟩
    change (Function.update s.screens sp _ a).kmap = some k at hk
    by_cases ha : a = sp
    · subst ha
      rw [Function.update_self] at hk
      obtain ⟨km, hkm, rfl⟩ := Option.map_eq_some_iff.mp hk
      exact hkmap km hkm
    · rw [Function.update_of_ne ha] at hk
      exact h.high.own a k hk
  unfold SetKmap at ht
  dsimp only at ht
  split_ifs at ht with hactive
  · have htimed : (s.setScreen sp { s.screens sp with kmap := kmap.map Keymap.setKmap }).Timed l :=
      h.timed
    exact (fixstate_sound (reset_high hhigh) ((reset_same _).2.2.1.trans hactive)
      (reset_pending htimed) ht).1
  · obtain rfl := Option.some.inj ht
    have hsame : ∀ k, (s.setScreen sp { s.screens sp with
        kmap := kmap.map Keymap.setKmap }).interpreter = some k → s.interpreter = some k := by
      intro k hk
      obtain ⟨a, ha, hk⟩ := Option.bind_eq_some_iff.mp hk
      have hne : a ≠ sp := by
        rintro rfl
        exact hactive ha
      refine Option.bind_eq_some_iff.mpr ⟨a, ha, ?_⟩
      unfold GetKmap at hk ⊢
      rw [show (s.setScreen sp { s.screens sp with kmap := kmap.map Keymap.setKmap }).screens a =
        s.screens a from Function.update_of_ne hne _ _] at hk
      exact hk
    exact ⟨hhigh, fun k hk => h.table k (hsame k hk), fun k hk => h.follows k (hsame k hk),
      h.timed⟩

theorem Sound.setDefKmap (h : Sound s l stale) {scr_builtinkmap : Keymap}
    (hb : scr_builtinkmap.HighStat) {kmap : Option Keymap}
    (hkmap : ∀ km, kmap = some km → km.setKmap.HighStat)
    (ht : s.SetDefKmap scr_builtinkmap kmap = some t) : Sound t l stale := by
  have hdefault : ((kmap.map Keymap.setKmap).getD scr_builtinkmap).HighStat := by
    cases kmap with
    | none => exact hb
    | some km => exact hkmap km rfl
  have hhigh : High { s with scr_defkmap := (kmap.map Keymap.setKmap).getD scr_builtinkmap } :=
    ⟨h.high.own, hdefault⟩
  have htimed : Timed { s with scr_defkmap := (kmap.map Keymap.setKmap).getD scr_builtinkmap } l :=
    h.timed
  unfold SetDefKmap at ht
  dsimp only at ht
  split at ht
  · next sp hactive =>
    split_ifs at ht with hown
    · exact (fixstate_sound (reset_high hhigh) ((reset_same _).2.2.1.trans hactive)
        (reset_pending htimed) ht).1
    · obtain rfl := Option.some.inj ht
      have hsame : ∀ k, Input.interpreter { s with
          scr_defkmap := (kmap.map Keymap.setKmap).getD scr_builtinkmap } = some k →
          s.interpreter = some k := by
        intro k hk
        obtain ⟨a, ha, hk⟩ := Option.bind_eq_some_iff.mp hk
        obtain rfl := Option.some.inj (hactive.symm.trans ha)
        refine Option.bind_eq_some_iff.mpr ⟨sp, ha, ?_⟩
        unfold GetKmap at hk ⊢
        cases hkm : (s.screens sp).kmap with
        | none => exact absurd (by rw [hkm]; rfl) hown
        | some km =>
            rw [hkm] at hk
            exact hk
      exact ⟨hhigh, fun k hk => h.table k (hsame k hk), fun k hk => h.follows k (hsame k hk),
        htimed⟩
  · next hactive =>
    obtain rfl := Option.some.inj ht
    have hnone : ∀ k, Input.interpreter { s with
        scr_defkmap := (kmap.map Keymap.setKmap).getD scr_builtinkmap } ≠ some k := by
      intro k hk
      obtain ⟨a, ha, -⟩ := Option.bind_eq_some_iff.mp hk
      exact absurd (hactive.symm.trans ha) nofun
    exact ⟨hhigh, fun k hk => absurd hk (hnone k), fun k hk => absurd hk (hnone k), htimed⟩

/-- A change of the input mode that gives the keys to a keymap finds the state that `fixstate`
would leave. -/
theorem Sound.setInputMode (h : Sound s l stale) {sp : ℕ} {arg : BitVec 32}
    (hsteady : s.Steady (.setInputMode sp arg)) : Sound (s.setInputMode sp arg) l stale := by
  have hkb : (s.setInputMode sp arg).kb = s.kb := by
    unfold Input.setInputMode
    split_ifs <;> rfl
  have hkmap : ∀ a, ((s.setInputMode sp arg).screens a).kmap = (s.screens a).kmap := by
    intro a
    unfold Input.setInputMode
    split_ifs
    · rfl
    · change (Function.update s.screens sp _ a).kmap = _
      by_cases ha : a = sp
      · subst ha
        rw [Function.update_self]
      · rw [Function.update_of_ne ha]
  have hsame : (s.setInputMode sp arg).activescreen = s.activescreen ∧
      (s.setInputMode sp arg).scr_defkmap = s.scr_defkmap := by
    unfold Input.setInputMode
    split_ifs <;> exact ⟨rfl, rfl⟩
  have htimed : (s.setInputMode sp arg).Timed l := by
    unfold Input.setInputMode
    split_ifs <;> exact h.timed
  have hboth : ∀ kmap, (s.setInputMode sp arg).interpreter = some kmap →
      kmap.Table s.kb ∧ ∀ i < 16, (∀ k ∈ kmap.listed i, ¬ stale k) →
        s.kb.keyboardstate.getLsbD i = (kmap.listed i).any s.kb.keystates := by
    intro kmap hk
    cases hs : s.interpreter with
    | none =>
        obtain ⟨kb, hfix, hlow⟩ := hsteady hs kmap hk
        obtain ⟨-, htable, hfollows⟩ := Block.fixstate_spec hfix
        exact ⟨hlow.table htable, fun i hi _ => hlow.follows hfollows i hi⟩
    | some kmap' =>
        obtain ⟨a, ha, -, rfl⟩ := interpreter_some hk
        obtain ⟨a', ha', -, rfl⟩ := interpreter_some hs
        rw [hsame.1] at ha
        obtain rfl := Option.some.inj (ha.symm.trans ha')
        have hget : (s.setInputMode sp arg).GetKmap a = s.GetKmap a := by
          unfold GetKmap
          rw [hkmap, hsame.2]
        rw [hget]
        exact ⟨h.table _ hs, h.follows _ hs⟩
  refine ⟨⟨fun a k hk => h.high.own a k ((hkmap a).symm.trans hk), hsame.2 ▸ h.high.default⟩,
    fun k hk => ?_, fun k hk => ?_, htimed⟩
  · rw [hkb]
    exact (hboth k hk).1
  · rw [hkb]
    exact (hboth k hk).2

/-! ### Interpreting -/

theorem rearm_same (s : Input) (code rawcode : ℕ) : (s.rearm code rawcode).kb = s.kb ∧
    (s.rearm code rawcode).screens = s.screens ∧
    (s.rearm code rawcode).activescreen = s.activescreen ∧
    (s.rearm code rawcode).scr_defkmap = s.scr_defkmap := by
  unfold rearm
  split
  · exact ⟨rfl, rfl, rfl, rfl⟩
  · exact untimeout_same s
  · split_ifs
    · exact untimeout_same s
    · exact untimeout_same s

theorem rearm_timed (h : s.Timed l) {code rawcode : ℕ}
    (hd : rawcode < 128 → s.kb.keystates rawcode = true ∨ s.kb.shiftkeys rawcode = false) :
    (s.rearm code rawcode).Timed l := by
  unfold rearm
  split
  · exact h
  · exact timed_of_not (untimeout_pending h) l
  · split_ifs with hdown
    · intro _
      have hmod : rawcode % 128 = rawcode := Nat.mod_eq_of_lt hdown
      refine ⟨rfl, Nat.mod_lt _ (by decide), ?_⟩
      change s.untimeout.kb.keystates (rawcode % 128) = true ∨
        s.untimeout.kb.shiftkeys (rawcode % 128) = false ∨ _
      rw [(untimeout_same s).1, hmod]
      exact (hd hdown).imp_right .inl
    · exact timed_of_not (untimeout_pending h) l

theorem interpreter_congr (hsc : t.screens = s.screens) (ha : t.activescreen = s.activescreen)
    (hd : t.scr_defkmap = s.scr_defkmap) : t.interpreter = s.interpreter := by
  unfold Input.interpreter GetKmap
  rw [hsc, ha, hd]

/-- The release of a key that is to be repeated ends that. -/
theorem release_timed {c : ℕ} {rep : Bool} (h : s.Timed ((c, rep) :: l)) :
    (if 128 ≤ c ∧ s.timeoutid = true ∧ s.repcode = c % 128 then s.cancel else s).Timed l := by
  split_ifs with hrel
  · exact timed_of_not (s := s.cancel) (untimeout_pending h) l
  · intro hp
    obtain ⟨ht, hr, hk⟩ := h hp
    refine ⟨ht, hr, hk.imp_right fun hk => hk.imp_right ?_⟩
    rintro ⟨x, hx, hxc⟩
    rcases List.mem_cons.mp hx with rfl | hx
    · change c = s.repcode + 128 at hxc
      exact absurd ⟨by omega, ht, by omega⟩ hrel
    · exact ⟨x, hx, hxc⟩

/-- One call of `dokb`: the state with which the key is interpreted follows the keys, and no
row is stale afterwards. -/
theorem Sound.dokb {c : ℕ} {rep : Bool} (h : Sound s ((c, rep) :: l) stale)
    (hstale : ∀ k, stale k → k = c % 128) (hc : c < 256)
    (hd : ∀ kmap, s.interpreter = some kmap → 128 ≤ c ∨ s.kb.keystates c = true ∨
      s.kb.shiftkeys c = false) :
    (∀ kmap kb, s.interprets c = some (kmap, kb) → kmap.Follows kb) ∧
      ∀ t, s.dokb c rep = some t → Sound t l (fun _ => False) ∧
        t.kb.keystates = s.kb.keystates ∧ t.kb.shiftkeys = s.kb.shiftkeys ∧
        t.interpreter = s.interpreter := by
  have hspec : ∀ kmap kb, s.interpreter = some kmap → kmap.shifted c s.kb = some kb →
      kb.keystates = s.kb.keystates ∧ kb.shiftkeys = s.kb.shiftkeys ∧ kmap.Follows kb := by
    intro kmap kb hk hkb
    refine Block.shifted_spec (h.table kmap hk) (fun i hi hlisted => ?_) ?_ hkb
    · refine h.follows kmap hk i hi fun k hk hs => hlisted ?_
      rw [← hstale k hs]
      exact hk
    · rcases hd kmap hk with hup | hdown
      · exact .inl hup
      · by_cases hup : 128 ≤ c
        · exact .inl hup
        · rw [Nat.mod_eq_of_lt (by omega)]
          exact .inr hdown.symm
  refine ⟨fun kmap kb hint => ?_, fun t ht => ?_⟩
  · obtain ⟨km, hk, hint⟩ := Option.bind_eq_some_iff.mp hint
    obtain ⟨kb', hkb, hpair⟩ := Option.map_eq_some_iff.mp hint
    obtain ⟨rfl, rfl⟩ := Prod.mk.inj hpair
    exact (hspec km kb' hk hkb).2.2
  · unfold Input.dokb at ht
    dsimp only at ht
    have hrelease := release_timed h.timed
    have hsame : ∀ u : Input, u = (if 128 ≤ c ∧ s.timeoutid = true ∧ s.repcode = c % 128
        then s.cancel else s) → u.kb = s.kb ∧ u.screens = s.screens ∧
        u.activescreen = s.activescreen ∧ u.scr_defkmap = s.scr_defkmap := by
      rintro u rfl
      split_ifs
      · exact cancel_same s
      · exact ⟨rfl, rfl, rfl, rfl⟩
    generalize hu : (if 128 ≤ c ∧ s.timeoutid = true ∧ s.repcode = c % 128
      then s.cancel else s) = u at ht hrelease
    obtain ⟨hkb, hsc, ha, hdef⟩ := hsame u hu.symm
    have hint := interpreter_congr hsc ha hdef
    have hhigh : u.High := ⟨hsc ▸ h.high.own, hdef ▸ h.high.default⟩
    cases hk : s.interpreter with
    | none =>
        rw [hint, hk] at ht
        obtain rfl := Option.some.inj ht
        exact ⟨⟨hhigh, fun _ hk' => absurd (hk.symm.trans (hint.symm.trans hk')) nofun,
          fun _ hk' => absurd (hk.symm.trans (hint.symm.trans hk')) nofun, hrelease⟩,
          by rw [hkb], by rw [hkb], hint.trans hk⟩
    | some kmap =>
        rw [hint, hk] at ht
        dsimp only at ht
        obtain ⟨r, hr, rfl⟩ := Option.map_eq_some_iff.mp ht
        rw [hkb] at hr
        obtain ⟨kb, hshift, hr⟩ := Option.bind_eq_some_iff.mp hr
        obtain ⟨e, he, hr⟩ := Option.bind_eq_some_iff.mp hr
        obtain ⟨hkeys, hshiftkeys, hfollows⟩ := hspec kmap kb hk hshift
        have hlow := Block.encode_low (h.high.interpreter hk) (.top c e hc he) hr
        obtain ⟨hkb', hsc', ha', hdef'⟩ := rearm_same (u.setKb r.kb) r.code c
        have hint' : ((u.setKb r.kb).rearm r.code c).interpreter = s.interpreter :=
          interpreter_congr (hsc'.trans hsc) (ha'.trans ha) (hdef'.trans hdef)
        have htable : kmap.Table r.kb :=
          hlow.table ⟨(h.table kmap hk).row, hshiftkeys ▸ (h.table kmap hk).shiftkeys⟩
        have htimed : (u.setKb r.kb).Timed l := by
          intro hp
          obtain ⟨h1, h2, h3⟩ := hrelease hp
          refine ⟨h1, h2, ?_⟩
          change r.kb.keystates u.repcode = true ∨ r.kb.shiftkeys u.repcode = false ∨ _
          rw [hlow.keystates, hkeys, hlow.shiftkeys, hshiftkeys, ← hkb]
          exact h3
        refine ⟨⟨⟨hsc' ▸ hhigh.own, hdef' ▸ hhigh.default⟩, fun k hk' => ?_,
          fun k hk' i hi _ => ?_, rearm_timed htimed fun hdown => ?_⟩, ?_, ?_, hint'.trans hk⟩
        · obtain rfl := Option.some.inj (hk.symm.trans (hint'.symm.trans hk'))
          rw [hkb']
          exact htable
        · obtain rfl := Option.some.inj (hk.symm.trans (hint'.symm.trans hk'))
          rw [hkb']
          exact hlow.follows hfollows i hi
        · change r.kb.keystates c = true ∨ r.kb.shiftkeys c = false
          rw [hlow.keystates, hkeys, hlow.shiftkeys, hshiftkeys]
          exact (hd kmap hk).resolve_left (by omega)
        · rw [hkb']
          exact hlow.keystates.trans hkeys
        · rw [hkb']
          exact hlow.shiftkeys.trans hshiftkeys

/-- Only the key of the first call may be stale. -/
theorem Sound.codes (h : Sound s l stale)
    (hstale : ∀ k, stale k → ∃ c l', l = c :: l' ∧ k = c.1 % 128) (hc : ∀ c ∈ l, c.1 < 256)
    (hd : ∀ kmap, s.interpreter = some kmap → ∀ c ∈ l,
      128 ≤ c.1 ∨ s.kb.keystates c.1 = true ∨ s.kb.shiftkeys c.1 = false) :
    s.Shown l ∧ ∀ t, l.foldlM (fun t c => t.dokb c.1 c.2) s = some t →
      Sound t [] (fun _ => False) := by
  induction l generalizing s stale with
  | nil =>
      refine ⟨trivial, fun t ht => ?_⟩
      obtain rfl := Option.some.inj ht
      refine ⟨h.high, h.table, fun kmap hk i hi _ => h.follows kmap hk i hi fun k _ hs => ?_,
        h.timed⟩
      obtain ⟨c, l', hl, -⟩ := hstale k hs
      exact absurd hl nofun
  | cons c l ih =>
      have hhead : ∀ k, stale k → k = c.1 % 128 := by
        intro k hs
        obtain ⟨c', l', hl, hk⟩ := hstale k hs
        rw [hk, (List.cons.inj hl).1]
      have hone : Sound s ((c.1, c.2) :: l) stale := h
      obtain ⟨hshown, hnext⟩ := hone.dokb hhead
        (hc c List.mem_cons_self) fun kmap hk => hd kmap hk c List.mem_cons_self
      have hrest : ∀ t, s.dokb c.1 c.2 = some t → t.Shown l ∧
          ∀ u, l.foldlM (fun t c => t.dokb c.1 c.2) t = some u → Sound u [] (fun _ => False) := by
        intro t ht
        obtain ⟨hsound, hkeys, hshift, hint⟩ := hnext t ht
        refine ih hsound (fun _ hf => hf.elim) (fun x hx => hc x (List.mem_cons_of_mem c hx))
          fun kmap hk x hx => ?_
        rw [hkeys, hshift]
        exact hd kmap (hint.symm.trans hk) x (List.mem_cons_of_mem c hx)
      refine ⟨⟨hshown, fun t ht => (hrest t ht).1⟩, fun u hu => ?_⟩
      rw [List.foldlM_cons] at hu
      obtain ⟨t, ht, hu⟩ := Option.bind_eq_some_iff.mp hu
      exact (hrest t ht).2 u hu

/-! ### The interrupts -/

/-- A key that is noted makes the state stale only for its own rows. -/
theorem Sound.note (h : Sound s [] (fun _ => False)) (c : BitVec 8) :
    Sound (s.setKb ((KeyEncode.Event.key c).note s.kb)) [(c.toNat, false)]
      (· = c.toNat % 128) := by
  have htimed : s.Timed [(c.toNat, false)] := by
    intro hp
    obtain ⟨ht, hr, hk⟩ := h.timed hp
    exact ⟨ht, hr, hk.imp_right fun hk => hk.imp_right fun ⟨x, hx, _⟩ =>
      absurd hx List.not_mem_nil⟩
  unfold KeyEncode.Event.note
  dsimp only
  split_ifs with hmessage
  · exact ⟨⟨h.high.own, h.high.default⟩, h.table, fun kmap hk i hi _ =>
      h.follows kmap hk i hi fun _ _ hf => hf, htimed⟩
  · refine ⟨⟨h.high.own, h.high.default⟩, fun kmap hk => ⟨(h.table kmap hk).row,
      (h.table kmap hk).shiftkeys⟩, fun kmap hk i hi hnot => ?_, fun hp => ?_⟩
    · change s.kb.keyboardstate.getLsbD i = (kmap.listed i).any
        (Function.update s.kb.keystates (c.toNat % 128) (c.toNat < 128))
      rw [h.follows kmap hk i hi fun _ _ hf => hf]
      exact any_congr_mem fun k hmem => (Function.update_of_ne (hnot k hmem) _ _).symm
    · obtain ⟨ht, hr, hk⟩ := htimed hp
      refine ⟨ht, hr, ?_⟩
      change Function.update s.kb.keystates (c.toNat % 128) (c.toNat < 128) s.repcode = true ∨
        s.kb.shiftkeys s.repcode = false ∨ _
      by_cases hrep : s.repcode = c.toNat % 128
      · rw [hrep, Function.update_self]
        by_cases hup : c.toNat < 128
        · exact .inl (decide_eq_true hup)
        · have h256 := c.isLt
          refine .inr (.inr ⟨_, List.mem_singleton_self _, ?_⟩)
          change c.toNat = s.repcode + 128
          omega
      · rw [Function.update_of_ne hrep]
        exact hk

theorem Sound.key (h : Sound s [] (fun _ => False)) {c : BitVec 8} {found : Option ℕ}
    (hsteady : s.Steady (.key c found)) (ht : s.kbintr c found = some t) :
    Sound t [(c.toNat, false)] (· = c.toNat % 128) ∧ ∀ kmap, t.interpreter = some kmap →
      128 ≤ c.toNat ∨ t.kb.keystates c.toNat = true ∨ t.kb.shiftkeys c.toNat = false := by
  unfold kbintr at ht
  split_ifs at ht with hhalt
  have hwarned : Sound { s with resetwarning := s.resetwarning || c = 0x78#8 } []
      (fun _ => False) :=
    ⟨⟨h.high.own, h.high.default⟩, h.table, h.follows, h.timed⟩
  have hnote := hwarned.note c
  have hdown : ∀ kb : Keyboard, ¬ (c = 0x78#8 ∨ 0xf8#8 ≤ c) →
      128 ≤ c.toNat ∨ ((KeyEncode.Event.key c).note kb).keystates c.toNat = true := by
    intro kb hkey
    by_cases hup : 128 ≤ c.toNat
    · exact .inl hup
    · refine .inr ?_
      unfold KeyEncode.Event.note
      dsimp only
      rw [if_neg hkey]
      change Function.update kb.keystates (c.toNat % 128) (c.toNat < 128) c.toNat = true
      rw [Nat.mod_eq_of_lt (by omega), Function.update_self]
      exact decide_eq_true (by omega)
  dsimp only at ht
  split_ifs at ht with hgroup
  · obtain ⟨hsound, hkeys⟩ := hnote.select ht
    refine ⟨hsound, fun kmap _ => ?_⟩
    rw [hkeys]
    exact (hdown s.kb hgroup.1).imp_right .inl
  · obtain rfl := Option.some.inj ht
    refine ⟨hnote, fun kmap hk => ?_⟩
    by_cases hmessage : c = 0x78#8 ∨ 0xf8#8 ≤ c
    · rcases hmessage with rfl | hup
      · refine .inr (.inr ?_)
        have hint : s.interpreter = some kmap := hk
        exact hsteady rfl (by rw [hint]; nofun)
      · have hle : 0xf8 ≤ c.toNat := hup
        exact .inl (by omega)
    · exact (hdown s.kb hmessage).imp_right .inl

theorem Sound.again (h : Sound s [] (fun _ => False)) :
    Sound { s with pending := false } (s.codes .again) (fun _ => False) ∧
      ∀ c ∈ s.codes .again, c.1 < 256 ∧
        (s.kb.keystates c.1 = true ∨ s.kb.shiftkeys c.1 = false) := by
  refine ⟨⟨⟨h.high.own, h.high.default⟩, h.table, h.follows, fun hp => absurd hp nofun⟩,
    fun c hc => ?_⟩
  unfold Input.codes at hc
  split_ifs at hc with hp
  · obtain rfl := List.mem_singleton.mp hc
    obtain ⟨-, hr, hk⟩ := h.timed hp
    refine ⟨by omega, hk.imp_right fun hk => hk.resolve_right ?_⟩
    rintro ⟨x, hx, -⟩
    exact List.not_mem_nil hx
  · exact absurd hc List.not_mem_nil

theorem mem_codes {cur_buttons : BitVec 3} {c : ℕ × Bool}
    (hc : c ∈ s.codes (.buttons cur_buttons)) : ∃ j < 3,
      cur_buttons.getLsbD j ≠ s.mousebuttons.getLsbD j ∧
      c = (if cur_buttons.getLsbD j then 124 + j else 124 + j + 128, false) := by
  obtain ⟨j, hj, rfl⟩ := List.mem_map.mp hc
  obtain ⟨hmem, hne⟩ := List.mem_filter.mp hj
  refine ⟨j, ?_, bne_iff_ne.mp hne, rfl⟩
  simp only [List.mem_cons, List.not_mem_nil, or_false] at hmem
  omega

theorem codes_mem {cur_buttons : BitVec 3} {j : ℕ} (hj : j < 3)
    (hne : cur_buttons.getLsbD j ≠ s.mousebuttons.getLsbD j) :
    (if cur_buttons.getLsbD j then 124 + j else 124 + j + 128, false) ∈
      s.codes (.buttons cur_buttons) := by
  refine List.mem_map.mpr ⟨j, List.mem_filter.mpr ⟨?_, bne_iff_ne.mpr hne⟩, rfl⟩
  simp only [List.mem_cons, List.not_mem_nil, or_false]
  omega

/-- The first button that has changed is reported first. -/
theorem codes_head {cur_buttons : BitVec 3} {j : ℕ} (hj : j < 3)
    (hne : cur_buttons.getLsbD j ≠ s.mousebuttons.getLsbD j)
    (hfirst : ∀ i < j, cur_buttons.getLsbD i = s.mousebuttons.getLsbD i) :
    ∃ c l', s.codes (.buttons cur_buttons) = c :: l' ∧ 124 + j = c.1 % 128 := by
  have hcode : ∀ i < 3, (if cur_buttons.getLsbD i then 124 + i else 124 + i + 128) % 128 =
      124 + i := by
    intro i hi
    split_ifs <;> omega
  have hsplit : ∃ js, [0, 1, 2].filter (fun j => cur_buttons.getLsbD j != s.mousebuttons.getLsbD j)
      = j :: js := by
    have hbne := bne_iff_ne.mpr hne
    obtain rfl | rfl | rfl : j = 0 ∨ j = 1 ∨ j = 2 := by omega
    · exact ⟨_, List.filter_cons_of_pos hbne⟩
    · rw [List.filter_cons_of_neg (by simpa using hfirst 0 (by omega))]
      exact ⟨_, List.filter_cons_of_pos hbne⟩
    · rw [List.filter_cons_of_neg (by simpa using hfirst 0 (by omega)),
        List.filter_cons_of_neg (by simpa using hfirst 1 (by omega))]
      exact ⟨_, List.filter_cons_of_pos hbne⟩
  obtain ⟨js, hjs⟩ := hsplit
  have hcodes : s.codes (.buttons cur_buttons) = (j :: js).map fun j =>
      (if cur_buttons.getLsbD j then 124 + j else 124 + j + 128, false) :=
    congrArg (List.map _) hjs
  exact ⟨_, _, hcodes, (hcode j hj).symm⟩

theorem Sound.buttons (h : Sound s [] (fun _ => False)) {cur_buttons : BitVec 3}
    (hsteady : s.Steady (.buttons cur_buttons)) :
    Sound (s.noteButtons cur_buttons) (s.codes (.buttons cur_buttons))
      (fun k => ∃ c l', s.codes (.buttons cur_buttons) = c :: l' ∧ k = c.1 % 128) ∧
    ∀ c ∈ s.codes (.buttons cur_buttons), c.1 < 256 ∧
      (128 ≤ c.1 ∨ (s.noteButtons cur_buttons).kb.keystates c.1 = true) := by
  unfold noteButtons
  by_cases hsame : cur_buttons = s.mousebuttons
  · rw [if_pos hsame]
    refine ⟨⟨h.high, h.table, fun kmap hk i hi _ => h.follows kmap hk i hi fun _ _ hf => hf,
      fun hp => ?_⟩, fun c hc => ?_⟩
    · obtain ⟨ht, hr, hk⟩ := h.timed hp
      exact ⟨ht, hr, hk.imp_right fun hk => hk.imp_right fun ⟨x, hx, _⟩ =>
        absurd hx List.not_mem_nil⟩
    · obtain ⟨j, -, hne, -⟩ := mem_codes hc
      exact absurd (by rw [hsame]) hne
  · rw [if_neg hsame]
    have hquiet := hsteady hsame
    refine ⟨⟨⟨h.high.own, h.high.default⟩, fun kmap hk => ⟨(h.table kmap hk).row,
      (h.table kmap hk).shiftkeys⟩, fun kmap hk i hi hnot => ?_, fun hp => ?_⟩, fun c hc => ?_⟩
    · have hint : s.interpreter = some kmap := hk
      change s.kb.keyboardstate.getLsbD i = (kmap.listed i).any fun k =>
        if 124 ≤ k ∧ k < 127 then cur_buttons.getLsbD (k - 124) else s.kb.keystates k
      rw [h.follows kmap hint i hi fun _ _ hf => hf]
      refine any_congr_mem fun k hmem => ?_
      split_ifs with hbutton
      · by_contra hchanged
        obtain ⟨j, rfl⟩ : ∃ j, k = 124 + j := ⟨k - 124, by omega⟩
        rw [Nat.add_sub_cancel_left] at hchanged
        have hshift := ((h.table kmap hint).shiftkeys _).mpr ⟨i, hi, hmem⟩
        have hreported : ¬ (cur_buttons.getLsbD j = s.mousebuttons.getLsbD j ∨
            s.interpreter ≠ none ∧ ∃ i < j,
              cur_buttons.getLsbD i ≠ s.mousebuttons.getLsbD i) := by
          intro hlate
          have hfalse := hquiet j (by omega) hchanged hlate
          exact absurd (hshift.symm.trans hfalse) nofun
        obtain ⟨hne, hfirst⟩ := not_or.mp hreported
        refine hnot _ hmem (codes_head (by omega) hne fun x hx => ?_)
        by_contra hx'
        exact hfirst ⟨by rw [hint]; nofun, x, hx, hx'⟩
      · rfl
    · obtain ⟨ht, hr, hk⟩ := h.timed hp
      refine ⟨ht, hr, ?_⟩
      change (if 124 ≤ s.repcode ∧ s.repcode < 127 then cur_buttons.getLsbD (s.repcode - 124)
        else s.kb.keystates s.repcode) = true ∨ s.kb.shiftkeys s.repcode = false ∨ _
      have hkey : s.kb.keystates s.repcode = true ∨ s.kb.shiftkeys s.repcode = false :=
        hk.imp_right fun hk => hk.resolve_right fun ⟨x, hx, _⟩ => List.not_mem_nil hx
      split_ifs with hbutton
      · obtain ⟨j, hj⟩ : ∃ j, s.repcode = 124 + j := ⟨s.repcode - 124, by omega⟩
        rw [hj] at hkey ⊢
        rw [Nat.add_sub_cancel_left]
        cases hcur : cur_buttons.getLsbD j with
        | true => exact .inl rfl
        | false =>
            rcases hkey with hdown | hno
            · by_cases hne : cur_buttons.getLsbD j = s.mousebuttons.getLsbD j
              · exact .inr (.inl (hquiet j (by omega) (by rw [hdown, hcur]; nofun) (.inl hne)))
              · have hmem := codes_mem (by omega) hne
                rw [hcur, if_neg Bool.false_ne_true] at hmem
                exact .inr (.inr ⟨_, hmem, rfl⟩)
            · exact .inr (.inl hno)
      · exact hkey.imp_right .inl
    · obtain ⟨j, hj, -, rfl⟩ := mem_codes hc
      cases hcur : cur_buttons.getLsbD j with
      | true =>
          refine ⟨by rw [if_pos rfl]; omega, .inr ?_⟩
          rw [if_pos rfl]
          change (if 124 ≤ 124 + j ∧ 124 + j < 127 then cur_buttons.getLsbD (124 + j - 124)
            else _) = true
          rw [if_pos ⟨by omega, by omega⟩, Nat.add_sub_cancel_left]
          exact hcur
      | false =>
          rw [if_neg Bool.false_ne_true]
          exact ⟨by omega, .inl (by omega)⟩

/-! ### Runs -/

/-- One step: the calls of `dokb` find a state that follows the keys, and so does the next
step. -/
theorem Sound.step {scr_builtinkmap : Keymap} (hb : scr_builtinkmap.HighStat) {e : Event}
    (h : Sound s [] (fun _ => False)) (hfits : Fits e) (hsteady : s.Steady e)
    (ht : s.before scr_builtinkmap e = some t) :
    t.Shown (s.codes e) ∧
      ∀ u, (s.codes e).foldlM (fun t c => t.dokb c.1 c.2) t = some u →
        Sound u [] (fun _ => False) := by
  cases e with
  | key c found =>
      have h256 := c.isLt
      obtain ⟨hsound, hd⟩ := h.key hsteady ht
      refine hsound.codes (fun k hk => ⟨_, _, rfl, hk⟩) (fun x hx => ?_) fun kmap hk x hx => ?_
      · obtain rfl := List.mem_singleton.mp hx
        exact h256
      · obtain rfl := List.mem_singleton.mp hx
        exact hd kmap hk
  | again =>
      obtain rfl := Option.some.inj ht
      obtain ⟨hsound, hd⟩ := h.again
      exact hsound.codes (fun _ hf => hf.elim) (fun c hc => (hd c hc).1)
        fun _ _ c hc => .inr (hd c hc).2
  | buttons cur_buttons =>
      obtain rfl := Option.some.inj ht
      obtain ⟨hsound, hd⟩ := h.buttons hsteady
      exact hsound.codes (fun _ hk => hk) (fun c hc => (hd c hc).1)
        fun _ _ c hc => (hd c hc).2.imp_right .inl
  | select sp => exact (h.select ht).1.codes (fun _ hf => hf.elim) nofun nofun
  | setKmap sp kmap => exact (h.setKmap hfits ht).codes (fun _ hf => hf.elim) nofun nofun
  | setDefKmap kmap =>
      exact (h.setDefKmap hb hfits ht).codes (fun _ hf => hf.elim) nofun nofun
  | setInputMode sp arg =>
      obtain rfl := Option.some.inj ht
      exact (h.setInputMode hsteady).codes (fun _ hf => hf.elim) nofun nofun

/-- The state of a booted system follows the keys. -/
theorem boot_sound {scr_builtinkmap : Keymap} (hb : scr_builtinkmap.HighStat) {screens : ℕ → Scr}
    (hscreens : ∀ sp kmap, (screens sp).kmap = some kmap → kmap.HighStat) :
    Sound (boot scr_builtinkmap screens) [] (fun _ => False) :=
  ⟨⟨hscreens, hb⟩, fun _ hk => absurd hk nofun, fun _ hk => absurd hk nofun,
    timed_of_not (s := boot scr_builtinkmap screens) rfl []⟩

/-- In a run that never lets the state get out of step, it follows the keys whenever `dokb`
interprets one. -/
theorem shown_of_steady {scr_builtinkmap : Keymap} {screens : ℕ → Scr} {es : List Event}
    (hb : scr_builtinkmap.HighStat)
    (hscreens : ∀ sp kmap, (screens sp).kmap = some kmap → kmap.HighStat)
    (hfits : ∀ e ∈ es, Fits e)
    (hsteady : Every (step scr_builtinkmap) (fun s e => ∀ i, s = some i → i.Steady e)
      (some (boot scr_builtinkmap screens)) es) :
    Every (step scr_builtinkmap) (fun s e => ∀ i t, s = some i →
        i.before scr_builtinkmap e = some t → t.Shown (i.codes e))
      (some (boot scr_builtinkmap screens)) es := by
  refine every_of_invariant (fun s => ∀ i, s = some i → Sound i [] (fun _ => False)) ?_ ?_ ?_
    ((every_of_forall_mem hfits _).and hsteady)
  · rintro s e hs ⟨hfit, hsteady⟩ u hu
    obtain ⟨i, rfl, hi⟩ := Option.bind_eq_some_iff.mp hu
    obtain ⟨t, ht, hu⟩ := Option.bind_eq_some_iff.mp hi
    exact ((hs i rfl).step hb hfit (hsteady i rfl) ht).2 u hu
  · rintro s e hs ⟨hfit, hsteady⟩ i t rfl ht
    exact ((hs i rfl).step hb hfit (hsteady i rfl) ht).1
  · intro i hi
    obtain rfl := Option.some.inj hi
    exact boot_sound hb hscreens

/-- A keymap whose only shift bit is that of the two shift keys; every key is a character. -/
def shiftKeymap : Keymap where
  length := sizeofKeymap
  byte p := match p with
    | 6 => 0x04#8
    | 7 => 0x48#8
    | 8 => 0x60#8
    | 9 => 0x61#8
    | p => if 10 ≤ p ∧ p < 72 then 0xff#8 else 0#8
  km_length := by decide

theorem shiftKeymap_highStat : shiftKeymap.HighStat := by
  have hent : ∀ p e, 72 ≤ p → shiftKeymap.keyent p = some e → e = ⟨0, 0, 0⟩ := by
    intro p e hp he
    obtain ⟨w, hw, rfl⟩ := Option.map_eq_some_iff.mp he
    have hzero : ∀ q, 72 ≤ q → shiftKeymap.byte q = 0#8 := by
      intro q hq
      obtain ⟨q, rfl⟩ : ∃ r, q = r + 10 := ⟨q - 10, by omega⟩
      exact if_neg (by omega)
    unfold Block.read at hw
    split_ifs at hw
    obtain rfl := Option.some.inj hw
    simp only [Block.bigEndian, hzero p hp, hzero (p + 1) (by omega), hzero (p + 2) (by omega),
      hzero (p + 3) (by omega), Nat.add_zero]
    rfl
  have hplain : ∀ e, shiftKeymap.Entry e → e.action = .chr := by
    intro e he
    induction he with
    | top rawcode e hr he =>
        rw [hent _ e (by omega) he]
        rfl
    | tab state e e' _ ha _ ih => exact absurd (ih.symm.trans ha) (by decide)
  intro e he ha
  exact absurd ((hplain e he).symm.trans ha) (by decide)

/-- A shift key is held in cooked mode, and another screen goes into raw mode and back. -/
def heldShift : List Event :=
  [.select (some 0), .key 0x60#8 none, .key 0x20#8 none, .setInputMode 1 1#32,
    .setInputMode 1 0#32, .key 0xe0#8 none, .setInputMode 0 1#32, .key 0x20#8 none,
    .select (some 1)]

theorem steady_of_isSome {sp : ℕ} {arg : BitVec 32} (h : s.interpreter.isSome = true) :
    s.Steady (.setInputMode sp arg) := by
  intro hnone
  rw [hnone] at h
  exact absurd h nofun

theorem held_shift_shown : Every (step shiftKeymap) (fun s e => ∀ i t, s = some i →
      i.before shiftKeymap e = some t → t.Shown (i.codes e))
    (some (boot shiftKeymap fun _ => ⟨false, none, true⟩)) heldShift := by
  have hint : ∀ (o : Option Input), o.any (fun i => i.interpreter.isSome) = true → ∀ i, o = some i →
      ∀ sp arg, i.Steady (.setInputMode sp arg) := by
    rintro o ho i rfl sp arg
    exact steady_of_isSome ho
  refine shown_of_steady shiftKeymap_highStat nofun ?_ ⟨fun _ _ => trivial, ?_, ?_, ?_, ?_, ?_,
    ?_, ?_, fun _ _ => trivial, trivial⟩
  · simp only [heldShift, List.forall_mem_cons]
    exact ⟨trivial, trivial, trivial, trivial, trivial, trivial, trivial, trivial, trivial, nofun⟩
  · exact fun _ _ h => absurd h (by decide)
  · exact fun _ _ h => absurd h (by decide)
  · exact fun i hi => hint _ (by decide +kernel) i hi 1 1#32
  · exact fun i hi => hint _ (by decide +kernel) i hi 1 0#32
  · exact fun _ _ h => absurd h (by decide)
  · exact fun i hi => hint _ (by decide +kernel) i hi 0 1#32
  · exact fun _ _ h => absurd h (by decide)

/-- A shift key is pressed in raw mode, and then a key in cooked mode. -/
def rawShift : List Event :=
  [.select (some 0), .setInputMode 0 1#32, .key 0x60#8 none, .setInputMode 0 0#32,
    .key 0x20#8 none]

theorem raw_shift_lost : shiftKeymap.HighStat ∧ (∀ e ∈ rawShift, Fits e) ∧
    ¬ Every (step shiftKeymap) (fun s e => ∀ i t, s = some i →
        i.before shiftKeymap e = some t → t.Shown (i.codes e))
      (some (boot shiftKeymap fun _ => ⟨false, none, true⟩)) rawShift := by
  refine ⟨shiftKeymap_highStat, ?_, fun h => ?_⟩
  · simp only [rawShift, List.forall_mem_cons]
    exact ⟨trivial, trivial, trivial, trivial, trivial, nofun⟩
  · have hlost : (((final (step shiftKeymap) (some (boot shiftKeymap fun _ => ⟨false, none, true⟩))
        (rawShift.take 4)).bind fun i => (i.kbintr 0x20#8 none).bind fun t =>
          t.interprets 0x20).map fun x => (x.2.keyboardstate.getLsbD 0,
            (x.1.listed 0).any x.2.keystates)) = some (false, true) := by
      decide +kernel
    obtain ⟨⟨kmap, kb⟩, hx, hbits⟩ := Option.map_eq_some_iff.mp hlost
    obtain ⟨i, hi, hx⟩ := Option.bind_eq_some_iff.mp hx
    obtain ⟨t, ht, hx⟩ := Option.bind_eq_some_iff.mp hx
    have hfollows := (h.2.2.2.2.1 i t hi ht).1 kmap kb hx 0 (by decide)
    obtain ⟨hbit, hany⟩ := Prod.mk.inj hbits
    exact absurd (hbit.symm.trans (hfollows.trans hany)) nofun

end Input

end HydraAmix.Console.KeyEncode
