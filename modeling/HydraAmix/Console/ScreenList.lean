import HydraAmix.Console.CopperPipeline
import HydraAmix.Library.LinkedList
import Mathlib.Data.Fintype.Card

/-!
# The lists of screens

The screens of a group form a linked list, and two pointers tell which screen
is displayed and which gets the input. The fields of `screens[]` are functions
of the index. A routine that would look at a screen that is not in use, or
beyond the arrays, or that would follow a list forever, has no result. What the
routines ask of the drivers is left out.
-/
namespace HydraAmix.Console
open LinkedList Schedule

abbrev MAXSCREENGROUPS : ℕ := 20

namespace ScreenList

abbrev Scr := Fin MAXSCREENS
abbrev Group := Fin MAXSCREENGROUPS

structure Screens where
  inuse : Scr → Bool
  display : Scr → Bool
  kbd : Scr → Bool
  /-- `kbfunc` and `mifunc` are set. -/
  ready : Scr → Bool
  group : Scr → Option Group
  next : Scr → Option Scr
  top : Group → Option Scr
  displayed : Option Scr
  active : Option Scr
  blank : Option Scr
  /-- The processes that sleep in SIOCBLANKWAIT. -/
  waiting : ℕ → Option Scr

namespace Screens

def init : Screens where
  inuse _ := false
  display _ := false
  kbd _ := false
  ready _ := false
  group _ := none
  next _ := none
  top _ := none
  displayed := none
  active := none
  blank := none
  waiting _ := none

variable (s : Screens)

/-- The pointers of the list of a group. -/
def chain (g : Group) : Chain Scr := ⟨s.top g, s.next⟩

def setLink (g : Group) (pp : Link Scr) (p : Option Scr) : Screens :=
  { s with
    top := Function.update s.top g ((s.chain g).set pp p).head
    next := ((s.chain g).set pp p).next }

/-- The loop of UnsetScreenGroup from the link `pp` on. -/
def unlink (s : Screens) (g : Group) (sp : Scr) : ℕ → Link Scr → Option Screens
  | 0, _ => none
  | fuel + 1, pp =>
      match (s.chain g).get pp with
      | none => some s
      | some q =>
          if q = sp then unlink (s.setLink g pp (s.next sp)) g sp fuel pp
          else if s.inuse q then unlink s g sp fuel (.next q)
          else none

def unsetScreenGroup (sp : Scr) : Option Screens :=
  match s.group sp with
  | some g => s.unlink g sp (MAXSCREENS + 2) .head
  | none => some s

/-- A screen is put in front of the list of a group. -/
def push (sp : Scr) (g : Group) : Screens :=
  { s with
    group := Function.update s.group sp (some g)
    next := Function.update s.next sp (s.top g)
    top := Function.update s.top g (some sp) }

/-- An element of an array of `n`; a negative index has none. -/
def index (n : ℕ) (arg : ℤ) : Option (Fin n) :=
  if h : 0 ≤ arg ∧ arg < n then some ⟨arg.toNat, by omega⟩ else none

/-- The group that SetScreenGroup takes for its argument. -/
def groupnum (n : ℤ) : Option Group :=
  if n = -1 then (List.finRange MAXSCREENGROUPS).find? fun g => 11 ≤ g.val ∧ s.top g = none
  else index MAXSCREENGROUPS n

def setScreenGroup (sp : Scr) (n : ℤ) : Option Screens :=
  match s.groupnum n with
  | none => some s
  | some g => (s.unsetScreenGroup sp).map (·.push sp g)

def selectScreen (sp : Scr) : Option Screens :=
  if s.active = some sp then some s
  else if s.inuse sp ∧ ∀ a, s.active = some a → s.inuse a then
    let kbd := match s.active with
      | some a => Function.update s.kbd a false
      | none => s.kbd
    some { s with kbd := Function.update kbd sp true, active := some sp }
  else none

/-- A screen without a group joins that of the displayed screen. -/
def join (sp : Scr) : Screens :=
  match s.group sp, s.displayed.bind s.group with
  | none, some g => s.push sp g
  | _, _ => s

def displayScreen (sp : Scr) : Option Screens :=
  if s.displayed = some sp then some s
  else if s.inuse sp ∧ ∀ d, s.displayed = some d → s.inuse d then
    let display := match s.displayed with
      | some d => Function.update s.display d false
      | none => s.display
    some { s.join sp with display := Function.update display sp true, displayed := some sp }
  else none

/-- DisplayScreen and SelectScreen, as they are called for a screen that comes
to the front. -/
def toFront (sp : Scr) : Option Screens := (s.displayScreen sp).bind (·.selectScreen sp)

def groupFront (sp : Scr) : Option Screens :=
  match s.group sp, s.displayed with
  | none, _ => s.toFront sp
  | some _, none => some s
  | some g, some d =>
      if s.inuse d then if s.group d = some g then s.toFront sp else some s else none

def hideScreen (sp : Scr) : Option Screens :=
  if s.displayed = some sp ∨ s.active = some sp then
    match s.next sp with
    | some n => s.toFront n
    | none =>
        match (List.finRange MAXSCREENS).find? fun n => s.inuse n && s.ready n && n ≠ sp with
        | some n => s.toFront n
        | none =>
            match s.displayed with
            | some d =>
                if s.inuse d then
                  some { s with display := Function.update s.display d false, displayed := none }
                else none
            | none => none
  else some s

def openScreen : Screens :=
  match (List.finRange MAXSCREENS).find? fun sp => !s.inuse sp with
  | some sp =>
      { s with
        inuse := Function.update s.inuse sp true
        display := Function.update s.display sp false
        kbd := Function.update s.kbd sp false
        ready := Function.update s.ready sp false
        group := Function.update s.group sp none
        next := Function.update s.next sp none }
  | none => s

/-- The first loop of CloseScreen: it goes through the array from `sp->next` on. -/
def otherScreen (n : Scr) : Option Scr :=
  (List.finRange MAXSCREENS).find? fun k => n ≤ k && s.inuse k && s.ready k

/-- CloseScreen, up to the choice of another screen. -/
def leave (sp : Scr) : Option Screens :=
  if s.displayed = some sp ∨ s.active = some sp then
    match s.next sp with
    | none => some s
    | some n =>
        match s.otherScreen n with
        | some k => s.toFront k
        | none => none
  else some s

/-- A screen that is still displayed gives way to the menu, or to nothing. -/
def giveWay (sp : Scr) : Option Screens :=
  if s.displayed = some sp then
    match s.top 0 with
    | some m => if m = sp then some { s with displayed := none } else s.toFront m
    | none => some { s with displayed := none }
  else some s

/-- `sp->flags = 0`, with the pointers that are set to NULL before. -/
def clear (sp : Scr) : Screens :=
  { s with
    active := if s.active = some sp then none else s.active
    inuse := Function.update s.inuse sp false
    display := Function.update s.display sp false
    kbd := Function.update s.kbd sp false }

def closeScreen (sp : Scr) : Option Screens :=
  let s := { s with blank := if s.blank = some sp then none else s.blank }
  ((s.leave sp).bind (·.giveWay sp)).bind fun s =>
    (s.unsetScreenGroup sp).map (·.clear sp)

/-- SIOCACTIVATESCREEN. -/
def activateScreen (arg : ℤ) : Option Screens :=
  if arg < MAXSCREENS then
    match index MAXSCREENS arg with
    | some sp => if s.inuse sp ∧ s.ready sp then s.toFront sp else some s
    | none => none
  else some s

/-- The loop of SIOCACTIVATEGROUP: the first screen with functions. -/
def firstReady (s : Screens) : ℕ → Option Scr → Option (Option Scr)
  | _, none => some none
  | 0, some _ => none
  | fuel + 1, some sp =>
      if s.inuse sp then if s.ready sp then some (some sp) else firstReady s fuel (s.next sp)
      else none

def activateGroup (arg : ℤ) : Option Screens :=
  if arg < MAXSCREENGROUPS then
    match index MAXSCREENGROUPS arg with
    | some g =>
        match s.firstReady (MAXSCREENS + 1) (s.top g) with
        | some (some sp) => s.toFront sp
        | some none => some s
        | none => none
    | none => none
  else some s

/-- SIOCBLANKWAIT, up to its sleep. -/
def blankWait (p : ℕ) (sp : Scr) : Option Screens :=
  (s.unsetScreenGroup sp).map fun s =>
    { s with blank := some sp, waiting := Function.update s.waiting p (some sp) }

def blankWake (p : ℕ) : Option Screens :=
  match s.waiting p with
  | some sp =>
      let s := { s with waiting := Function.update s.waiting p none }
      if s.blank = some sp then s.displayScreen sp else some s
  | none => some s

/-- Input ends the blanking. -/
def input : Option Screens :=
  match s.active with
  | some a => if s.displayed = s.blank ∧ s.blank ≠ some a then s.displayScreen a else some s
  | none => some s

/-- The drivers call for a screen that they have open. -/
inductive Event where
  | openScreen
  | ready (sp : Scr)
  | setScreenGroup (sp : Scr) (n : ℤ)
  | displayScreen (sp : Scr)
  | selectScreen (sp : Scr)
  | groupFront (sp : Scr)
  | hideScreen (sp : Scr)
  | closeScreen (sp : Scr)
  | activateScreen (arg : ℤ)
  | activateGroup (arg : ℤ)
  | blankWait (p : ℕ) (sp : Scr)
  | blankWake (p : ℕ)
  | input

/-- The screen that a driver makes the call for. -/
def Event.caller : Event → Option Scr
  | .ready sp => some sp
  | .setScreenGroup sp _ => some sp
  | .displayScreen sp => some sp
  | .selectScreen sp => some sp
  | .groupFront sp => some sp
  | .hideScreen sp => some sp
  | .closeScreen sp => some sp
  | .blankWait _ sp => some sp
  | _ => none

def call (s : Screens) : Event → Option Screens
  | .openScreen => some s.openScreen
  | .ready sp => some { s with ready := Function.update s.ready sp true }
  | .setScreenGroup sp n => s.setScreenGroup sp n
  | .displayScreen sp => s.displayScreen sp
  | .selectScreen sp => s.selectScreen sp
  | .groupFront sp => s.groupFront sp
  | .hideScreen sp => s.hideScreen sp
  | .closeScreen sp => s.closeScreen sp
  | .activateScreen arg => s.activateScreen arg
  | .activateGroup arg => s.activateGroup arg
  | .blankWait p sp => s.blankWait p sp
  | .blankWake p => s.blankWake p
  | .input => s.input

def called (s : Screens) (e : Event) : Bool := e.caller.all s.inuse

/-- A routine without a result leaves the state as it is. -/
def step (s : Screens) (e : Event) : Screens := if s.called e then (s.call e).getD s else s

/-- The pointers spell a list for each group, of the screens in use that name it. -/
structure Linked (s : Screens) (l : Group → List Scr) : Prop where
  spells : ∀ g, (s.chain g).Spells (l g)
  nodup : ∀ g, (l g).Nodup
  mem : ∀ g sp, sp ∈ l g ↔ s.inuse sp = true ∧ s.group sp = some g

/-- What is claimed of the screens. -/
structure Integrity (s : Screens) : Prop where
  lists : ∃ l, s.Linked l
  displayed : ∀ sp, s.displayed = some sp → s.inuse sp = true
  active : ∀ sp, s.active = some sp → s.inuse sp = true
  display : ∀ sp, s.display sp = true ↔ s.displayed = some sp
  kbd : ∀ sp, s.kbd sp = true ↔ s.active = some sp

/-- What is claimed of a call. -/
def Returns (s : Screens) (e : Event) : Prop := s.called e = true → (s.call e).isSome = true

/-- The calls that do not reach a defect. -/
def Allowed (s : Screens) : Event → Prop
  | .hideScreen sp => s.active = some sp → s.displayed = none →
      s.next sp ≠ none ∨ ∃ n, n ≠ sp ∧ s.inuse n = true ∧ s.ready n = true
  | .closeScreen sp => s.displayed = some sp ∨ s.active = some sp → ∀ n, s.next sp = some n →
      ∃ k, n ≤ k ∧ s.inuse k = true ∧ s.ready k = true
  | .activateScreen arg => 0 ≤ arg
  | .activateGroup arg => 0 ≤ arg
  | .blankWait _ sp => s.group sp = none
  | _ => True

structure Inv (s : Screens) : Prop extends Integrity s where
  loose : ∀ sp, s.inuse sp = true → s.group sp = none → s.next sp = none
  blank : ∀ sp, s.blank = some sp → s.inuse sp = true

variable {s : Screens} {sp : Scr} {l : Group → List Scr}

theorem filter_eraseIdx {α : Type} (p : α → Bool) {xs : List α} {i : ℕ} {x : α}
    (hx : xs[i]? = some x) (hp : p x = false) : (xs.eraseIdx i).filter p = xs.filter p := by
  obtain ⟨hi, rfl⟩ := List.getElem?_eq_some_iff.mp hx
  rw [List.eraseIdx_eq_take_drop_succ, List.filter_append]
  conv_rhs => rw [← List.take_append_drop i xs, List.filter_append, List.drop_eq_getElem_cons hi]
  rw [List.filter_cons_of_neg (by simp [hp])]

theorem chain_setLink (g : Group) (pp : Link Scr) (p : Option Scr) :
    (s.setLink g pp p).chain g = (s.chain g).set pp p := by
  simp [chain, setLink]

/-- Writing through a link of a list leaves the pointers of the others alone. -/
theorem setLink_next {xs : List Scr} {i : ℕ} (g : Group) (p : Option Scr) {x : Scr}
    (hx : x ∉ xs) : (s.setLink g (linkAt xs i) p).next x = s.next x := by
  cases i with
  | zero => rfl
  | succ i =>
      cases hi : xs[i]? with
      | none => simp [setLink, linkAt, hi, Chain.set, chain]
      | some y =>
          have hne : x ≠ y := fun he => hx (he ▸ List.mem_of_getElem? hi)
          simp [setLink, linkAt, hi, Chain.set, chain, hne]

/-- The loop of UnsetScreenGroup takes the screen out of a list. -/
theorem unlink_spec {g : Group} (fuel : ℕ) {xs : List Scr} {i : ℕ}
    (h : (s.chain g).Spells xs) (hnd : xs.Nodup) (hu : ∀ x ∈ xs, s.inuse x = true)
    (hi : i ≤ xs.length) (hfuel : xs.length - i < fuel) (hbefore : ∀ j < i, xs[j]? ≠ some sp) :
    ∃ T N, s.unlink g sp fuel (linkAt xs i) = some { s with top := T, next := N } ∧
      Chain.Spells ⟨T g, N⟩ (xs.filter (· ≠ sp)) ∧ (∀ g', g' ≠ g → T g' = s.top g') ∧
      ∀ x, x ∉ xs → N x = s.next x := by
  induction fuel generalizing s xs i with
  | zero => omega
  | succ fuel ih =>
      rw [unlink, h.get_linkAt hi]
      cases hx : xs[i]? with
      | none =>
          have hlen : xs.length ≤ i := List.getElem?_eq_none_iff.mp hx
          have hnot : ∀ x ∈ xs, x ≠ sp := by
            intro x hmem he
            obtain ⟨j, hj, hjx⟩ := List.getElem_of_mem hmem
            exact hbefore j (by omega) (List.getElem?_eq_some_iff.mpr ⟨hj, hjx.trans he⟩)
          refine ⟨s.top, s.next, rfl, ?_, fun _ _ => rfl, fun _ _ => rfl⟩
          rw [List.filter_eq_self.mpr fun x hmem => by simpa using hnot x hmem]
          exact h
      | some q =>
          have hilt : i < xs.length := (List.getElem?_eq_some_iff.mp hx).1
          dsimp only
          split_ifs with hq huq
          · subst hq
            have hrem := h.remove hnd hx
            have hlen : (xs.eraseIdx i).length = xs.length - 1 := List.length_eraseIdx_of_lt hilt
            have hlink : linkAt xs i = linkAt (xs.eraseIdx i) i := by
              cases i with
              | zero => rfl
              | succ i => simp [linkAt, List.getElem?_eraseIdx_of_lt]
            have hspells : ((s.setLink g (linkAt xs i) (s.next q)).chain g).Spells
                (xs.eraseIdx i) := (chain_setLink g _ _).symm ▸ hrem
            obtain ⟨T, N, hrun, hsp, hT, hN⟩ := ih hspells (hnd.eraseIdx i)
              (fun x hmem => hu x (List.mem_of_mem_eraseIdx hmem)) (i := i) (by omega) (by omega)
              (fun j hj => by
                rw [List.getElem?_eraseIdx_of_lt hj]
                exact hbefore j hj)
            rw [filter_eraseIdx _ hx (by simp)] at hsp
            refine ⟨T, N, ?_, hsp, fun g' hg' => ?_, fun x hmem => ?_⟩
            · rw [hlink]
              rw [hlink] at hrun
              exact hrun
            · rw [hT g' hg']
              exact Function.update_of_ne hg' _ _
            · rw [hN x fun hm => hmem (List.mem_of_mem_eraseIdx hm), setLink_next g _ hmem]
          · have hstep := ih h hnd hu (i := i + 1) hilt (by omega) (fun j hj => by
              rcases Nat.lt_succ_iff_lt_or_eq.mp hj with hlt | rfl
              · exact hbefore j hlt
              · rw [hx]
                exact fun he => hq (Option.some.inj he))
            rwa [linkAt_succ hx] at hstep
          · exact absurd (hu q (List.mem_of_getElem? hx)) huq

theorem nodup_length {xs : List Scr} (h : xs.Nodup) : xs.length ≤ MAXSCREENS :=
  h.length_le_card.trans (by simp)

/-- UnsetScreenGroup takes a screen out of the list of its group. -/
theorem unsetScreenGroup_spec (h : s.Linked l) (sp : Scr) :
    ∃ T N, s.unsetScreenGroup sp = some { s with top := T, next := N } ∧
      (∀ g, Chain.Spells ⟨T g, N⟩ ((l g).filter (· ≠ sp))) ∧
      ∀ x, (∀ g, x ∉ l g) → N x = s.next x := by
  have hsame : ∀ g, s.group sp ≠ some g → (l g).filter (· ≠ sp) = l g := by
    intro g hg
    refine List.filter_eq_self.mpr fun x hx => ?_
    have hne : x ≠ sp := fun he => hg (he ▸ ((h.mem g x).mp hx).2)
    simpa using hne
  unfold unsetScreenGroup
  split
  · next g hg =>
    have hlen := nodup_length (h.nodup g)
    obtain ⟨T, N, hrun, hsp, hT, hN⟩ := @unlink_spec _ sp _ (MAXSCREENS + 2) _ 0
      (h.spells g) (h.nodup g) (fun x hx => ((h.mem g x).mp hx).1) (Nat.zero_le _) (by omega)
      (fun j hj => absurd hj (Nat.not_lt_zero j))
    refine ⟨T, N, hrun, fun g' => ?_, fun x hx => hN x (hx g)⟩
    by_cases hg' : g' = g
    · exact hg' ▸ hsp
    · rw [hsame g' (fun he => hg' (Option.some.inj (he.symm.trans hg)))]
      constructor
      · exact (hT g' hg').trans (h.spells g').head
      · intro i x hx
        have hnot : x ∉ l g := fun hm => hg' (Option.some.inj
          (((h.mem g' x).mp (List.mem_of_getElem? hx)).2.symm.trans ((h.mem g x).mp hm).2))
        exact (hN x hnot).trans ((h.spells g').next i x hx)
  · next hg =>
    refine ⟨s.top, s.next, rfl, fun g => ?_, fun _ _ => rfl⟩
    rw [hsame g (by rw [hg]; exact nofun)]
    exact h.spells g

/-- A screen that is in no list comes in front of one. -/
theorem Linked.push {s t : Screens} (hsp : ∀ g', (s.chain g').Spells (l g'))
    (hnd : ∀ g', (l g').Nodup) (hnot : ∀ g', sp ∉ l g') (g : Group)
    (ht : t.inuse = s.inuse ∧ t.group = Function.update s.group sp (some g) ∧
      t.next = Function.update s.next sp (s.top g) ∧ t.top = Function.update s.top g (some sp))
    (hmem : ∀ g' x, x ≠ sp → (x ∈ l g' ↔ s.inuse x = true ∧ s.group x = some g'))
    (hu : s.inuse sp = true) : t.Linked (Function.update l g (sp :: l g)) := by
  obtain ⟨htu, htg, htn, htt⟩ := ht
  refine ⟨fun g' => ?_, fun g' => ?_, fun g' x => ?_⟩
  · by_cases hg : g' = g
    · subst hg
      have hpush := (hsp g').push (hnot g')
      simpa [chain, htn, htt] using hpush
    · rw [Function.update_of_ne hg]
      have hold := hsp g'
      constructor
      · simpa [chain, htt, hg] using hold.head
      · intro i x hx
        have hne : x ≠ sp := fun he => hnot g' (he ▸ List.mem_of_getElem? hx)
        simpa [chain, htn, hne] using hold.next i x hx
  · by_cases hg : g' = g
    · rw [hg, Function.update_self]
      exact List.nodup_cons.mpr ⟨hnot g, hnd g⟩
    · rw [Function.update_of_ne hg]
      exact hnd g'
  · rw [htu, htg]
    by_cases hx : x = sp
    · rw [hx, Function.update_self]
      by_cases hg : g' = g
      · rw [hg, Function.update_self]
        exact ⟨fun _ => ⟨hu, rfl⟩, fun _ => List.mem_cons_self⟩
      · rw [Function.update_of_ne hg]
        exact ⟨fun hm => absurd hm (hnot g'), fun hc => absurd (Option.some.inj hc.2).symm hg⟩
    · rw [Function.update_of_ne hx, ← hmem g' x hx]
      by_cases hg : g' = g
      · rw [hg, Function.update_self, List.mem_cons]
        exact ⟨fun hm => hm.resolve_left hx, .inr⟩
      · rw [Function.update_of_ne hg]

/-- Only the fields of the lists matter for the lists. -/
theorem Linked.congr {t : Screens} (h : s.Linked l) (hu : t.inuse = s.inuse)
    (hg : t.group = s.group) (hn : t.next = s.next) (ht : t.top = s.top) : t.Linked l := by
  refine ⟨fun g => ?_, h.nodup, fun g x => ?_⟩
  · rw [chain, hn, ht]
    exact h.spells g
  · rw [hu, hg]
    exact h.mem g x

theorem Linked.next_inuse (h : s.Linked l) {g : Group} (hsp : sp ∈ l g) {n : Scr}
    (hn : s.next sp = some n) : s.inuse n = true := by
  obtain ⟨i, hi, hx⟩ := List.getElem_of_mem hsp
  have hnext := (h.spells g).next i sp (List.getElem?_eq_some_iff.mpr ⟨hi, hx⟩)
  have hmem : n ∈ l g := List.mem_of_getElem? (hnext.symm.trans hn)
  exact ((h.mem g n).mp hmem).1

theorem Linked.top_inuse (h : s.Linked l) {g : Group} (hsp : s.top g = some sp) :
    s.inuse sp = true := by
  have hmem : sp ∈ l g := List.mem_of_getElem? ((h.spells g).head.symm.trans hsp)
  exact ((h.mem g sp).mp hmem).1

/-- The next screen of a screen in use is in use. -/
theorem Inv.next_inuse (h : Inv s) (hu : s.inuse sp = true) {n : Scr}
    (hn : s.next sp = some n) : s.inuse n = true := by
  obtain ⟨l, hl⟩ := h.lists
  cases hg : s.group sp with
  | none =>
      rw [h.loose sp hu hg] at hn
      cases hn
  | some g => exact hl.next_inuse ((hl.mem g sp).mpr ⟨hu, hg⟩) hn

theorem Inv.join (h : Inv s) (hu : s.inuse sp = true) : Inv (s.join sp) := by
  unfold Screens.join
  split
  · next g hnone hg =>
    obtain ⟨l, hl⟩ := h.lists
    have hnot : ∀ g', sp ∉ l g' := fun g' hm => by
      have := ((hl.mem g' sp).mp hm).2
      rw [hnone] at this
      cases this
    refine ⟨⟨⟨_, Linked.push hl.spells hl.nodup hnot g ⟨rfl, rfl, rfl, rfl⟩
      (fun g' x _ => hl.mem g' x) hu⟩, h.displayed, h.active, h.display, h.kbd⟩,
      fun x hx hgx => ?_, h.blank⟩
    simp only [push] at hx hgx ⊢
    by_cases hne : x = sp
    · rw [hne, Function.update_self] at hgx
      cases hgx
    · rw [Function.update_of_ne hne] at hgx ⊢
      exact h.loose x hx hgx
  · exact h

theorem join_fields : (s.join sp).inuse = s.inuse ∧ (s.join sp).active = s.active ∧
    (s.join sp).displayed = s.displayed ∧ (s.join sp).blank = s.blank := by
  unfold join
  split <;> exact ⟨rfl, rfl, rfl, rfl⟩

/-- What one flag and one pointer are after the pointer moves to `sp`. -/
theorem flag_moves {flag : Scr → Bool} {ptr : Option Scr}
    (h : ∀ x, flag x = true ↔ ptr = some x) (sp x : Scr) :
    Function.update (match ptr with
      | some d => Function.update flag d false
      | none => flag) sp true x = true ↔ some sp = some x := by
  by_cases hx : x = sp
  · rw [hx, Function.update_self]
    exact ⟨fun _ => rfl, fun _ => rfl⟩
  · rw [Function.update_of_ne hx, Option.some.injEq]
    refine ⟨fun hf => ?_, fun he => absurd he.symm hx⟩
    cases ptr with
    | none =>
        have := (h x).mp hf
        cases this
    | some d =>
        by_cases hd : x = d
        · simp [hd] at hf
        · simp only [Function.update_of_ne hd] at hf
          exact absurd (Option.some.inj ((h x).mp hf)).symm hd

/-- What DisplayScreen comes to. -/
theorem Inv.displayScreen (h : Inv s) (hu : s.inuse sp = true) :
    ∃ t, s.displayScreen sp = some t ∧ Inv t ∧ t.inuse = s.inuse ∧ t.blank = s.blank ∧
      t.displayed = some sp := by
  unfold Screens.displayScreen
  split_ifs with hd hlive
  · exact ⟨s, rfl, h, rfl, rfl, hd⟩
  · obtain ⟨hju, -, -, hjb⟩ := @join_fields s sp
    have hj := h.join hu
    obtain ⟨l, hl⟩ := hj.lists
    refine ⟨_, rfl, ⟨⟨⟨l, hl.congr rfl rfl rfl rfl⟩, ?_, hj.active, ?_, hj.kbd⟩, hj.loose,
      hj.blank⟩, hju, hjb, rfl⟩
    · intro x hx
      cases hx
      exact (congrFun hju sp).trans hu
    · exact flag_moves h.display sp
  · exact absurd ⟨hu, h.displayed⟩ hlive

theorem Inv.selectScreen (h : Inv s) (hu : s.inuse sp = true) :
    ∃ t, s.selectScreen sp = some t ∧ Inv t ∧ t.inuse = s.inuse ∧ t.blank = s.blank ∧
      t.displayed = s.displayed := by
  unfold Screens.selectScreen
  split_ifs with ha hlive
  · exact ⟨s, rfl, h, rfl, rfl, rfl⟩
  · obtain ⟨l, hl⟩ := h.lists
    refine ⟨_, rfl, ⟨⟨⟨l, hl.congr rfl rfl rfl rfl⟩, h.displayed, ?_, h.display, ?_⟩, h.loose,
      h.blank⟩, rfl, rfl, rfl⟩
    · intro x hx
      cases hx
      exact hu
    · exact flag_moves h.kbd sp
  · exact absurd ⟨hu, h.active⟩ hlive

theorem Inv.toFront (h : Inv s) (hu : s.inuse sp = true) :
    ∃ t, s.toFront sp = some t ∧ Inv t ∧ t.inuse = s.inuse ∧ t.blank = s.blank ∧
      t.displayed = some sp := by
  obtain ⟨t, ht, hti, htu, htb, htd⟩ := h.displayScreen hu
  obtain ⟨r, hr, hri, hru, hrb, hrd⟩ := hti.selectScreen (by rwa [htu] : t.inuse sp = true)
  refine ⟨r, ?_, hri, hru.trans htu, hrb.trans htb, hrd.trans htd⟩
  rw [Screens.toFront, ht]
  exact hr

/-- A call has a result, and the result is sound. -/
def Fine (r : Option Screens) : Prop := ∃ t, r = some t ∧ Inv t

theorem Inv.fine (h : Inv s) : Fine (some s) := ⟨s, rfl, h⟩

theorem Inv.toFront_fine (h : Inv s) (hu : s.inuse sp = true) : Fine (s.toFront sp) := by
  obtain ⟨t, ht, hi, -⟩ := h.toFront hu
  exact ⟨t, ht, hi⟩

theorem Inv.displayScreen_fine (h : Inv s) (hu : s.inuse sp = true) :
    Fine (s.displayScreen sp) := by
  obtain ⟨t, ht, hi, -⟩ := h.displayScreen hu
  exact ⟨t, ht, hi⟩

theorem Inv.setScreenGroup (h : Inv s) (hu : s.inuse sp = true) (n : ℤ) :
    Fine (s.setScreenGroup sp n) := by
  unfold Screens.setScreenGroup
  split
  · exact h.fine
  · next g _ =>
    obtain ⟨l, hl⟩ := h.lists
    obtain ⟨T, N, hrun, hsp, hN⟩ := unsetScreenGroup_spec hl sp
    rw [hrun]
    refine ⟨_, rfl, ⟨⟨⟨_, Linked.push (s := { s with top := T, next := N })
      (l := fun g => (l g).filter (· ≠ sp)) hsp (fun g' => (hl.nodup g').filter _)
      (fun g' hm => by simpa using (List.mem_filter.mp hm).2) g ⟨rfl, rfl, rfl, rfl⟩
      (fun g' x hx => ?_) hu⟩, h.displayed, h.active, h.display, h.kbd⟩, fun x hx hgx => ?_,
      h.blank⟩⟩
    · rw [List.mem_filter, hl.mem g' x]
      simp [hx]
    · simp only [push] at hx hgx ⊢
      by_cases hne : x = sp
      · rw [hne, Function.update_self] at hgx
        cases hgx
      · rw [Function.update_of_ne hne] at hgx ⊢
        rw [hN x fun g' hm => ?_]
        · exact h.loose x hx hgx
        · have := ((hl.mem g' x).mp hm).2
          rw [hgx] at this
          cases this

theorem Inv.groupFront (h : Inv s) (hu : s.inuse sp = true) : Fine (s.groupFront sp) := by
  unfold Screens.groupFront
  split
  · exact h.toFront_fine hu
  · exact h.fine
  · next g d _ hd =>
    rw [if_pos (h.displayed d hd)]
    split_ifs
    · exact h.toFront_fine hu
    · exact h.fine

theorem Inv.hideScreen (h : Inv s) (hu : s.inuse sp = true)
    (ha : s.active = some sp → s.displayed = none →
      s.next sp ≠ none ∨ ∃ n, n ≠ sp ∧ s.inuse n = true ∧ s.ready n = true) :
    Fine (s.hideScreen sp) := by
  unfold Screens.hideScreen
  split_ifs with hfront
  · split
    · next n hn => exact h.toFront_fine (h.next_inuse hu hn)
    · next hn =>
      split
      · next n hfind =>
        have hnu := List.find?_some hfind
        simp only [Bool.and_eq_true] at hnu
        exact h.toFront_fine hnu.1.1
      · next hfind =>
        split
        · next d hd =>
          rw [if_pos (h.displayed d hd)]
          obtain ⟨l, hl⟩ := h.lists
          refine ⟨_, rfl, ⟨⟨⟨l, hl.congr rfl rfl rfl rfl⟩, nofun, h.active, fun x => ?_, h.kbd⟩,
            h.loose, h.blank⟩⟩
          simp only [reduceCtorEq, iff_false]
          by_cases hx : x = d
          · simp [hx]
          · simp only [Function.update_of_ne hx]
            intro hf
            exact hx (Option.some.inj (hd.symm.trans ((h.display x).mp hf))).symm
        · next hd =>
          -- the branch that follows a null pointer
          have hactive : s.active = some sp := hfront.resolve_left (by rw [hd]; exact nofun)
          obtain hc | ⟨n, hne, hnu, hnr⟩ := ha hactive hd
          · exact absurd hn hc
          · have := List.find?_eq_none.mp hfind n (List.mem_finRange n)
            simp [hnu, hnr, hne] at this
  · exact h.fine

theorem Inv.openScreen (h : Inv s) : Inv s.openScreen := by
  unfold Screens.openScreen
  split
  · next sp hsp =>
    have hfree : s.inuse sp = false := by simpa using List.find?_some hsp
    obtain ⟨l, hl⟩ := h.lists
    have hnot : ∀ g, sp ∉ l g := fun g hm => by
      rw [((hl.mem g sp).mp hm).1] at hfree
      cases hfree
    have hne : ∀ {ptr : Option Scr}, (∀ x, ptr = some x → s.inuse x = true) → ptr ≠ some sp :=
      fun hp he => by
        rw [hp sp he] at hfree
        cases hfree
    have hlive : ∀ {ptr : Option Scr}, (∀ x, ptr = some x → s.inuse x = true) →
        ∀ x, ptr = some x → Function.update s.inuse sp true x = true := fun hp x hx => by
      by_cases he : x = sp
      · rw [he, Function.update_self]
      · rw [Function.update_of_ne he]
        exact hp x hx
    have hflag : ∀ {flag : Scr → Bool} {ptr : Option Scr}, (∀ x, flag x = true ↔ ptr = some x) →
        ptr ≠ some sp → ∀ x, Function.update flag sp false x = true ↔ ptr = some x := by
      intro flag ptr hf hp x
      by_cases he : x = sp
      · rw [he, Function.update_self]
        exact ⟨nofun, fun hc => absurd hc hp⟩
      · rw [Function.update_of_ne he]
        exact hf x
    refine ⟨⟨⟨l, fun g => ⟨(hl.spells g).head, fun i x hx => ?_⟩, hl.nodup, fun g x => ?_⟩,
      hlive h.displayed, hlive h.active, hflag h.display (hne h.displayed),
      hflag h.kbd (hne h.active)⟩, fun x hx hgx => ?_, hlive h.blank⟩
    · have hx' : x ≠ sp := fun he => hnot g (he ▸ List.mem_of_getElem? hx)
      simp only [chain, Function.update_of_ne hx']
      exact (hl.spells g).next i x hx
    · by_cases he : x = sp
      · simp [he, hnot g]
      · simp [he, hl.mem g x]
    · by_cases he : x = sp
      · simp [he]
      · simp only [Function.update_of_ne he] at hx hgx ⊢
        exact h.loose x hx hgx
  · exact h

theorem Inv.leave (h : Inv s)
    (ha : s.displayed = some sp ∨ s.active = some sp → ∀ n, s.next sp = some n →
      ∃ k, n ≤ k ∧ s.inuse k = true ∧ s.ready k = true) :
    ∃ t, s.leave sp = some t ∧ Inv t ∧ t.inuse = s.inuse ∧ t.blank = s.blank := by
  unfold Screens.leave
  split_ifs with hfront
  · split
    · exact ⟨s, rfl, h, rfl, rfl⟩
    · next n hn =>
      split
      · next k hk =>
        have hku := List.find?_some hk
        simp only [Bool.and_eq_true] at hku
        obtain ⟨t, ht, hi, htu, htb, -⟩ := h.toFront hku.1.2
        exact ⟨t, ht, hi, htu, htb⟩
      · next hk =>
        obtain ⟨k, hle, hku, hkr⟩ := ha hfront n hn
        have := List.find?_eq_none.mp hk k (List.mem_finRange k)
        simp [hle, hku, hkr] at this
  · exact ⟨s, rfl, h, rfl, rfl⟩

/-- What still holds when `sp` is about to be closed. -/
structure Closing (t : Screens) (sp : Scr) : Prop where
  lists : ∃ l, t.Linked l
  displayed : ∀ x, t.displayed = some x → t.inuse x = true
  gone : t.displayed ≠ some sp
  active : ∀ x, t.active = some x → t.inuse x = true
  display : ∀ x, x ≠ sp → (t.display x = true ↔ t.displayed = some x)
  kbd : ∀ x, t.kbd x = true ↔ t.active = some x
  loose : ∀ x, t.inuse x = true → t.group x = none → t.next x = none
  blank : ∀ x, t.blank = some x → t.inuse x = true

theorem Inv.closing (h : Inv s) (hd : s.displayed ≠ some sp) : Closing s sp :=
  ⟨h.lists, h.displayed, hd, h.active, fun x _ => h.display x, h.kbd, h.loose, h.blank⟩

theorem Inv.giveWay (h : Inv s) (sp : Scr) :
    ∃ t, s.giveWay sp = some t ∧ Closing t sp ∧ t.inuse = s.inuse ∧ t.blank = s.blank := by
  obtain ⟨l, hl⟩ := h.lists
  have hnone : s.displayed = some sp → Closing { s with displayed := none } sp := by
    intro hd
    refine ⟨⟨l, hl.congr rfl rfl rfl rfl⟩, nofun, nofun, h.active, fun x hx => ?_, h.kbd, h.loose,
      h.blank⟩
    rw [h.display x, hd]
    exact ⟨fun he => absurd (Option.some.inj he).symm hx, fun hc => by cases hc⟩
  unfold Screens.giveWay
  split_ifs with hd
  · split
    · next m hm =>
      split_ifs with hmsp
      · exact ⟨_, rfl, hnone hd, rfl, rfl⟩
      · obtain ⟨t, ht, hi, htu, htb, htd⟩ := h.toFront (hl.top_inuse hm)
        exact ⟨t, ht, hi.closing fun he => hmsp (Option.some.inj (htd.symm.trans he)), htu, htb⟩
    · exact ⟨_, rfl, hnone hd, rfl, rfl⟩
  · exact ⟨s, rfl, h.closing hd, rfl, rfl⟩

/-- The screen is taken out of its list, and its flags are cleared. -/
theorem Closing.clear {t : Screens} (h : Closing t sp) (hb : t.blank ≠ some sp) :
    Fine ((t.unsetScreenGroup sp).map (·.clear sp)) := by
  obtain ⟨l, hl⟩ := h.lists
  obtain ⟨T, N, hrun, hsp, hN⟩ := unsetScreenGroup_spec hl sp
  rw [hrun]
  have hstay : ∀ {ptr : Option Scr}, (∀ x, ptr = some x → t.inuse x = true) → ptr ≠ some sp →
      ∀ x, ptr = some x → Function.update t.inuse sp false x = true := fun hp hne x hx => by
    have he : x ≠ sp := fun he => hne (he ▸ hx)
    rw [Function.update_of_ne he]
    exact hp x hx
  have hactive : (if t.active = some sp then none else t.active) ≠ some sp := by
    split_ifs with ha
    · exact nofun
    · exact ha
  refine ⟨_, rfl, ⟨⟨⟨fun g => (l g).filter (· ≠ sp), hsp, fun g => (hl.nodup g).filter _,
    fun g x => ?_⟩, hstay h.displayed h.gone, hstay (fun x hx => ?_) hactive, fun x => ?_,
    fun x => ?_⟩, fun x hx hgx => ?_, hstay h.blank hb⟩⟩
  · rw [List.mem_filter, hl.mem g x]
    by_cases he : x = sp
    · simp [Screens.clear, he]
    · simp [Screens.clear, he]
  · simp only [Screens.clear] at hx
    by_cases hsp : t.active = some sp
    · rw [if_pos hsp] at hx
      cases hx
    · rw [if_neg hsp] at hx
      exact h.active x hx
  · simp only [Screens.clear]
    by_cases he : x = sp
    · rw [he, Function.update_self]
      exact ⟨nofun, fun hc => absurd hc h.gone⟩
    · rw [Function.update_of_ne he]
      exact h.display x he
  · simp only [Screens.clear]
    by_cases he : x = sp
    · rw [he, Function.update_self]
      exact ⟨nofun, fun hc => absurd hc hactive⟩
    · rw [Function.update_of_ne he, h.kbd x]
      split_ifs with ha
      · rw [ha]
        exact ⟨fun hc => absurd (Option.some.inj hc).symm he, fun hc => by cases hc⟩
      · rfl
  · simp only [Screens.clear] at hx hgx ⊢
    have he : x ≠ sp := fun he => by
      rw [he, Function.update_self] at hx
      cases hx
    rw [Function.update_of_ne he] at hx
    rw [hN x fun g hm => ?_]
    · exact h.loose x hx hgx
    · have := ((hl.mem g x).mp hm).2
      rw [hgx] at this
      cases this

theorem Inv.closeScreen (h : Inv s)
    (ha : s.displayed = some sp ∨ s.active = some sp → ∀ n, s.next sp = some n →
      ∃ k, n ≤ k ∧ s.inuse k = true ∧ s.ready k = true) : Fine (s.closeScreen sp) := by
  have hb : (if s.blank = some sp then none else s.blank) ≠ some sp := by
    split_ifs with hb
    · exact nofun
    · exact hb
  obtain ⟨l, hl⟩ := h.lists
  have h0 : Inv { s with blank := if s.blank = some sp then none else s.blank } := by
    refine ⟨⟨⟨l, hl.congr rfl rfl rfl rfl⟩, h.displayed, h.active, h.display, h.kbd⟩, h.loose,
      fun x hx => ?_⟩
    simp only at hx
    split_ifs at hx
    exact h.blank x hx
  obtain ⟨t, ht, hti, -, htb⟩ := @Inv.leave _ sp h0 ha
  obtain ⟨r, hr, hrc, -, hrb⟩ := hti.giveWay sp
  simp only [Screens.closeScreen, ht, hr, Option.bind_some]
  exact hrc.clear (by rw [hrb, htb]; exact hb)

theorem firstReady_spec (hl : s.Linked l) {g : Group} (fuel : ℕ) {i : ℕ}
    (hi : i ≤ (l g).length) (hfuel : (l g).length - i ≤ fuel) :
    s.firstReady fuel ((l g)[i]?) = some none ∨
      ∃ sp, s.firstReady fuel ((l g)[i]?) = some (some sp) ∧ s.inuse sp = true := by
  induction fuel generalizing i with
  | zero =>
      rw [List.getElem?_eq_none (by omega)]
      exact .inl (by rw [firstReady])
  | succ fuel ih =>
      cases hx : (l g)[i]? with
      | none => exact .inl (by rw [firstReady])
      | some sp =>
          have hu := ((hl.mem g sp).mp (List.mem_of_getElem? hx)).1
          have hlt := (List.getElem?_eq_some_iff.mp hx).1
          rw [firstReady, if_pos hu]
          split_ifs
          · exact .inr ⟨sp, rfl, hu⟩
          · rw [show s.next sp = (l g)[i + 1]? from (hl.spells g).next i sp hx]
            exact ih hlt (by omega)

theorem Inv.activateScreen (h : Inv s) {arg : ℤ} (ha : 0 ≤ arg) : Fine (s.activateScreen arg) := by
  unfold Screens.activateScreen
  split_ifs with hlt
  · rw [index, dif_pos ⟨ha, hlt⟩]
    dsimp only
    split_ifs with hu
    · exact h.toFront_fine hu.1
    · exact h.fine
  · exact h.fine

theorem Inv.activateGroup (h : Inv s) {arg : ℤ} (ha : 0 ≤ arg) : Fine (s.activateGroup arg) := by
  obtain ⟨l, hl⟩ := h.lists
  unfold Screens.activateGroup
  split_ifs with hlt
  · rw [index, dif_pos ⟨ha, hlt⟩]
    generalize (⟨arg.toNat, _⟩ : Group) = g
    have hlen := nodup_length (hl.nodup g)
    have htop : s.top g = (l g)[0]? := (hl.spells g).head
    dsimp only
    rw [htop]
    obtain hr | ⟨sp, hr, hu⟩ := firstReady_spec hl (g := g) (MAXSCREENS + 1) (Nat.zero_le _)
      (by omega)
    · rw [hr]
      exact h.fine
    · rw [hr]
      exact h.toFront_fine hu
  · exact h.fine

theorem Inv.blankWait (h : Inv s) (hu : s.inuse sp = true) (hg : s.group sp = none) (p : ℕ) :
    Fine (s.blankWait p sp) := by
  obtain ⟨l, hl⟩ := h.lists
  rw [Screens.blankWait, unsetScreenGroup, hg]
  refine ⟨_, rfl, ⟨⟨⟨l, hl.congr rfl rfl rfl rfl⟩, h.displayed, h.active, h.display, h.kbd⟩,
    h.loose, fun x hx => ?_⟩⟩
  cases hx
  exact hu

theorem Inv.blankWake (h : Inv s) (p : ℕ) : Fine (s.blankWake p) := by
  unfold Screens.blankWake
  split
  · next sp _ =>
    obtain ⟨l, hl⟩ := h.lists
    have hw : Inv { s with waiting := Function.update s.waiting p none } :=
      ⟨⟨⟨l, hl.congr rfl rfl rfl rfl⟩, h.displayed, h.active, h.display, h.kbd⟩, h.loose, h.blank⟩
    dsimp only
    split_ifs with hb
    · exact hw.displayScreen_fine (h.blank sp hb)
    · exact hw.fine
  · exact h.fine

theorem Inv.input (h : Inv s) : Fine s.input := by
  unfold Screens.input
  split
  · next a ha =>
    split_ifs
    · exact h.displayScreen_fine (h.active a ha)
    · exact h.fine
  · exact h.fine

theorem Inv.call (h : Inv s) {e : Event} (hc : s.called e = true) (ha : s.Allowed e) :
    Fine (s.call e) := by
  have hu : ∀ sp, e.caller = some sp → s.inuse sp = true := by
    intro sp hsp
    rw [called, hsp] at hc
    exact hc
  cases e with
  | openScreen => exact h.openScreen.fine
  | ready sp =>
      obtain ⟨l, hl⟩ := h.lists
      exact ⟨_, rfl, ⟨⟨⟨l, hl.congr rfl rfl rfl rfl⟩, h.displayed, h.active, h.display, h.kbd⟩,
        h.loose, h.blank⟩⟩
  | setScreenGroup sp n => exact h.setScreenGroup (hu sp rfl) n
  | displayScreen sp => exact h.displayScreen_fine (hu sp rfl)
  | selectScreen sp =>
      obtain ⟨t, ht, hi, -⟩ := h.selectScreen (hu sp rfl)
      exact ⟨t, ht, hi⟩
  | groupFront sp => exact h.groupFront (hu sp rfl)
  | hideScreen sp => exact h.hideScreen (hu sp rfl) ha
  | closeScreen sp => exact h.closeScreen ha
  | activateScreen arg => exact h.activateScreen ha
  | activateGroup arg => exact h.activateGroup ha
  | blankWait p sp => exact h.blankWait (hu sp rfl) ha p
  | blankWake p => exact h.blankWake p
  | input => exact h.input

theorem Inv.step (h : Inv s) {e : Event} (ha : s.Allowed e) : Inv (s.step e) := by
  unfold Screens.step
  split_ifs with hc
  · obtain ⟨t, ht, hi⟩ := h.call hc ha
    rwa [ht]
  · exact h

theorem init_inv : Inv init :=
  ⟨⟨⟨fun _ => [], fun _ => ⟨rfl, fun i x hx => by simp at hx⟩, fun _ => List.nodup_nil,
    fun _ _ => ⟨fun hm => by simp at hm, fun hc => by cases hc.1⟩⟩, nofun, nofun,
    fun _ => ⟨fun hc => Bool.noConfusion hc, nofun⟩,
    fun _ => ⟨fun hc => Bool.noConfusion hc, nofun⟩⟩, fun _ _ _ => rfl, nofun⟩

/-- In every run of calls that do not reach a defect, every call returns, and
the lists, the flags and the pointers agree at every point. -/
theorem screens_integrity (es : List Event) (h : Every step Allowed init es) :
    Every step Returns init es ∧ Integrity (final step init es) :=
  ⟨every_of_invariant Inv (fun _ _ hi ha => hi.step ha)
      (fun _ _ hi ha hc => by
        obtain ⟨t, ht, -⟩ := hi.call hc ha
        rw [ht]
        rfl) init_inv h,
    (final_of_every Inv (fun _ _ hi ha => hi.step ha) init_inv h).toIntegrity⟩

/-- Two screens of a group, one of which is closed while it is displayed. -/
def twoScreens (a b : Scr) : List Event :=
  [.openScreen, .ready a, .openScreen, .ready b, .setScreenGroup a 1, .setScreenGroup b 1,
    .displayScreen b, .selectScreen b, .closeScreen b, .activateScreen 0]

theorem screens_integrity_two :
    Every step Returns init (twoScreens 0 1) ∧ Integrity (final step init (twoScreens 0 1)) := by
  refine screens_integrity (twoScreens 0 1) ⟨trivial, trivial, trivial, trivial, trivial, trivial,
    trivial, trivial, ?_, (by decide : (0 : ℤ) ≤ 0), trivial⟩
  intro _ n hn
  obtain rfl : 0 = n := Option.some.inj hn
  exact ⟨0, le_refl _, by decide, by decide⟩

/-- A screen of a group waits to blank the display. -/
def blanker (a : Scr) : List Event := [.openScreen, .setScreenGroup a 1, .blankWait 0 a]

theorem screens_integrity_fails : ¬ Integrity (final step init (blanker 0)) := by
  rintro ⟨⟨l, hl⟩, -⟩
  have hmem : (0 : Scr) ∈ l 1 := (hl.mem 1 0).mpr (by decide)
  obtain ⟨i, hi, -⟩ := List.getElem_of_mem hmem
  have hhead : (l 1)[0]? = none := (hl.spells 1).head.symm.trans (by decide)
  have hlen := List.getElem?_eq_none_iff.mp hhead
  omega

end Screens
end ScreenList
end HydraAmix.Console
