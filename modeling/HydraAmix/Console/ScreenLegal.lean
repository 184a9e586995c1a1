import HydraAmix.Console.ScreenType
import Mathlib.Algebra.Group.Nat.Defs
import Mathlib.Tactic.ByContra

/-!
# When an accepted screen type is legal

`check_scrtype` chooses modes, rounds the width, chooses more modes from it,
and only then forces width and height between the limits of the modes. So a
width that is cut to an odd overscan is not rounded again, and a width that is
raised would have chosen other modes: the request that comes out is then
changed by a second check, or rejected by it.
-/
namespace HydraAmix.Console
open Word

namespace Scrtype

section
variable (pal : Bool) (adj : Displayadjust) (st : Scrtype)

/-! ### The limits -/

def maxwidth : ℕ :=
  if st.has SM_CHUNKY then 1024
  else if st.has SM_HEDLEY then HEDLEY_SCRWIDTH
  else if st.has SM_HIRES then HIRES_SCRWIDTH + adj.xoverscan.toNat * 2
  else LORES_SCRWIDTH + adj.xoverscan.toNat

def minwidth : ℕ :=
  if st.has SM_CHUNKY then 320
  else if st.has SM_HEDLEY then HEDLEY_SCRWIDTH
  else if st.has SM_HIRES then HIRES_SCRWIDTH
  else LORES_SCRWIDTH

def maxheight : ℕ :=
  (if st.has SM_CHUNKY then 768
    else if st.has SM_HEDLEY then HEDLEY_SCRHEIGHT pal
    else if st.has SM_INTERLACE then LACE_SCRHEIGHT pal + adj.yoverscan.toNat * 2
    else NORM_SCRHEIGHT pal + adj.yoverscan.toNat) % 65536

def minheight : ℕ :=
  if st.has SM_CHUNKY then 200
  else if st.has SM_HEDLEY then HEDLEY_SCRHEIGHT pal
  else if st.has SM_INTERLACE then LACE_SCRHEIGHT pal
  else NORM_SCRHEIGHT pal

/-- The request when its sizes are to be checked. -/
def moded : Option Scrtype :=
  (st.checkModes.bind fun st => (st.chooseHires adj).roundWidth).map fun st =>
    (st.chooseHedley adj).chooseLace pal adj

/-- The checks of the sizes and the planes let the request pass. -/
def Passes : Prop :=
  (st.fit st.minwidth (st.maxwidth adj) st.dispx).isSome = true ∧
    (st.fit (st.minheight pal) (st.maxheight pal adj) st.dispy).isSome = true ∧
    (st.maxplanes < st.dispz.toNat → st.has SM_CHUNKY = true ∨ st.may SF_LESSPLANES = true)

/-- What the modes of an accepted request allow, and what its flags allow of the
way there. -/
structure LegalFor (st st' : Scrtype) : Prop where
  width16 : 16 ∣ st'.dispx.toNat
  width32 : st'.has SM_HIRES = true → 32 ∣ st'.dispx.toNat
  width : st'.minwidth ≤ st'.dispx.toNat ∧ st'.dispx.toNat ≤ st'.maxwidth adj
  height : st'.minheight pal ≤ st'.dispy.toNat ∧ st'.dispy.toNat ≤ st'.maxheight pal adj
  planes : st'.has SM_CHUNKY = true ∧ st'.dispz = 16 ∨ st'.dispz.toNat ≤ st'.maxplanes
  modes : st'.nonsense = false
  moreres : st.may SF_MORERES = false →
    st'.dispx.toNat ≤ st.dispx.toNat ∧ st'.dispy.toNat ≤ st.dispy.toNat
  lessres : st.may SF_LESSRES = false →
    st.dispx.toNat ≤ st'.dispx.toNat ∧ st.dispy.toNat ≤ st'.dispy.toNat
  moreplanes : st.may SF_MOREPLANES = false → st'.dispz.toNat ≤ st.dispz.toNat
  lessplanes : st.may SF_LESSPLANES = false → st.dispz.toNat ≤ st'.dispz.toNat

/-- If the request is accepted, it is legal then and stays as it is. -/
def Sound : Prop :=
  ∀ st', checkScrtype pal adj st = some st' →
    LegalFor pal adj st st' ∧ checkScrtype pal adj st' = some st'

/-- The request `l` that comes of `st` takes none of the branches that go wrong. -/
structure Straight (st l : Scrtype) : Prop where
  /-- the width was not rounded up past the largest short -/
  rounded : l.dispx.toNat < st.dispx.toNat → st.may SF_LESSRES = true
  /-- a width that is cut to the overscan is cut to a multiple of 16 -/
  cut : l.maxwidth adj < l.dispx.toNat → l.has SM_CHUNKY = true ∨ l.has SM_HEDLEY = true ∨
    16 ∣ adj.xoverscan.toNat
  /-- the greatest height fits a short -/
  tall : l.minheight pal ≤ l.maxheight pal adj
  /-- a Hedley screen has a resolution, or none is chosen for its width -/
  resolved : l.has SM_HEDLEY = true → l.has (SM_HIRES ||| SM_LORES ||| SM_CHUNKY) = true ∨
    HEDLEY_SCRWIDTH ≤ LORES_SCRWIDTH + adj.xoverscan.toNat
  /-- a width that is raised to the least of hires does not ask for a Hedley screen -/
  raised : l.has SM_HIRES = true → l.dispx.toNat < HIRES_SCRWIDTH → adj.xoverscan.toNat = 0 →
    l.has (SM_CHUNKY ||| SM_HEDLEY ||| SM_INTERLACE ||| SM_NONHEDLEY) = true ∨
      l.may SF_LESSRES = true ∧ 2 < l.dispz.toNat ∧ l.may SF_LESSPLANES = false

end

section
variable {pal : Bool} {adj : Displayadjust} {st l m : Scrtype}

theorem has_or (st : Scrtype) (a b : Long) : st.has (a ||| b) = (st.has a || st.has b) := by
  have hz : ∀ x y : Long, x ||| y = 0 ↔ x = 0 ∧ y = 0 := fun x y => BitVec.or_eq_zero_iff
  unfold has
  rw [BitVec.and_or_distrib_left, ← Bool.decide_or]
  exact decide_eq_decide.mpr (by rw [ne_eq, hz, not_and_or])

theorem has_orModes (st : Scrtype) (a b : Long) :
    (st.orModes a).has b = (st.has b || decide (a &&& b ≠ 0)) := by
  have hz : ∀ x y : Long, x ||| y = 0 ↔ x = 0 ∧ y = 0 := fun x y => BitVec.or_eq_zero_iff
  unfold has orModes
  rw [BitVec.and_or_distrib_right, ← Bool.decide_or]
  exact decide_eq_decide.mpr (by rw [ne_eq, hz, not_and_or])

theorem checkScrtype_eq (pal : Bool) (adj : Displayadjust) (st : Scrtype) :
    checkScrtype pal adj st =
      (st.moded pal adj).bind fun l => (l.fitSize pal adj).bind fitPlanes := by
  unfold checkScrtype moded
  rw [Option.bind_map]
  rfl

theorem minheight_lt (pal : Bool) (st : Scrtype) : st.minheight pal < 65536 := by
  unfold minheight HEDLEY_SCRHEIGHT LACE_SCRHEIGHT NORM_SCRHEIGHT
  split_ifs <;> decide

theorem minwidth_lt (st : Scrtype) : st.minwidth < 65536 := by
  unfold minwidth
  split_ifs <;> decide

theorem fitSize_eq (pal : Bool) (adj : Displayadjust) (st : Scrtype) :
    st.fitSize pal adj =
      (st.fit st.minwidth (st.maxwidth adj) st.dispx).bind fun x =>
        (st.fit (st.minheight pal) (st.maxheight pal adj) st.dispy).bind fun y =>
          some { st with dispx := x, dispy := y } := by
  have hw : st.minwidth % 65536 = st.minwidth := Nat.mod_eq_of_lt st.minwidth_lt
  have hh : st.minheight pal % 65536 = st.minheight pal := Nat.mod_eq_of_lt (st.minheight_lt pal)
  rw [← hw, ← hh]
  rfl

/-! ### The checks -/

/-- The three ways through a size check. -/
theorem fit_cases {lo hi : ℕ} {x y : Ushort} (hlo : lo < 65536) (h : st.fit lo hi x = some y) :
    y = x ∧ lo ≤ x.toNat ∧ x.toNat ≤ hi ∨
    hi < x.toNat ∧ st.may SF_LESSRES = true ∧ lo ≤ hi ∧ y.toNat = hi ∨
    y.toNat = lo ∧ st.may SF_MORERES = true ∧
      (x.toNat < lo ∧ x.toNat ≤ hi ∨ hi < x.toNat ∧ st.may SF_LESSRES = true ∧ hi < lo) := by
  have hx := x.isLt
  have hof : ∀ n < 65536, (BitVec.ofNat 16 n).toNat = n := fun n hn => by
    rw [BitVec.toNat_ofNat]
    exact Nat.mod_eq_of_lt hn
  obtain ⟨x', hx', h⟩ := Option.bind_eq_some_iff.mp h
  by_cases hhi : hi < x.toNat
  · rw [if_pos hhi] at hx'
    by_cases hless : st.may SF_LESSRES = true
    · rw [if_pos hless] at hx'
      obtain rfl := Option.some.inj hx'
      rw [hof hi (by omega)] at h
      by_cases hlow : hi < lo
      · rw [if_pos hlow] at h
        by_cases hmore : st.may SF_MORERES = true
        · rw [if_pos hmore] at h
          obtain rfl := Option.some.inj h
          exact .inr (.inr ⟨hof lo hlo, hmore, .inr ⟨hhi, hless, hlow⟩⟩)
        · rw [if_neg hmore] at h
          exact absurd h.symm (Option.some_ne_none y)
      · rw [if_neg hlow] at h
        obtain rfl := Option.some.inj h
        exact .inr (.inl ⟨hhi, hless, by omega, hof hi (by omega)⟩)
    · rw [if_neg hless] at hx'
      exact absurd hx'.symm (Option.some_ne_none x')
  · rw [if_neg hhi] at hx'
    obtain rfl := Option.some.inj hx'
    by_cases hlow : x.toNat < lo
    · rw [if_pos hlow] at h
      by_cases hmore : st.may SF_MORERES = true
      · rw [if_pos hmore] at h
        obtain rfl := Option.some.inj h
        exact .inr (.inr ⟨hof lo hlo, hmore, .inl ⟨hlow, by omega⟩⟩)
      · rw [if_neg hmore] at h
        exact absurd h.symm (Option.some_ne_none y)
    · rw [if_neg hlow] at h
      obtain rfl := Option.some.inj h
      exact .inl ⟨rfl, by omega, by omega⟩

theorem fit_self {lo hi : ℕ} {x : Ushort} (hlo : lo ≤ x.toNat) (hhi : x.toNat ≤ hi) :
    st.fit lo hi x = some x := by
  unfold fit
  rw [if_neg (Nat.not_lt.mpr hhi)]
  exact if_neg (Nat.not_lt.mpr hlo)

/-- What `checkModes` makes sure of. -/
structure Fine (m : Scrtype) : Prop where
  type : m.type = ST_AMIGA
  sense : m.nonsense = false
  lores : m.has (SM_HAM ||| SM_HALFBRITE) = true → m.has SM_LORES = true
  chunky : m.has SM_CHUNKY = true → m.dispz = 16

theorem checkModes_fine (h : st.checkModes = some m) :
    Fine m ∧ m.flags = st.flags ∧ m.dispx = st.dispx ∧ m.dispy = st.dispy ∧
      m.dispz = st.dispz := by
  simp only [checkModes] at h
  split at h
  case isTrue => exact absurd h.symm (Option.some_ne_none m)
  case isFalse =>
    obtain ⟨n, hn, htype, hlores, hflags, hx, hy, hz⟩ : ∃ n : Scrtype,
        (if ({ st with type := ST_AMIGA } : Scrtype).has (SM_HAM ||| SM_HALFBRITE) = true then
          ({ st with type := ST_AMIGA } : Scrtype).orModes SM_LORES
          else { st with type := ST_AMIGA }) = n ∧ n.type = ST_AMIGA ∧
        (n.has (SM_HAM ||| SM_HALFBRITE) = true → n.has SM_LORES = true) ∧ n.flags = st.flags ∧
        n.dispx = st.dispx ∧ n.dispy = st.dispy ∧ n.dispz = st.dispz := by
      by_cases hham : ({ st with type := ST_AMIGA } : Scrtype).has (SM_HAM ||| SM_HALFBRITE) = true
      · refine ⟨_, if_pos hham, rfl, fun _ => ?_, rfl, rfl, rfl, rfl⟩
        rw [has_orModes]
        exact Bool.or_true _
      · exact ⟨_, if_neg hham, rfl, fun hh => absurd hh hham, rfl, rfl, rfl, rfl⟩
    rw [hn] at h
    split at h
    case isTrue => exact absurd h.symm (Option.some_ne_none m)
    case isFalse hc =>
      split at h
      case isTrue => exact absurd h.symm (Option.some_ne_none m)
      case isFalse hsense =>
        obtain rfl := Option.some.inj h
        refine ⟨⟨htype, Bool.eq_false_iff.mpr hsense, hlores, fun hch => ?_⟩, hflags, hx, hy, hz⟩
        by_contra hne
        exact hc ⟨hch, hne⟩

theorem orModes_lores (h : st.has SM_LORES = true) : st.orModes SM_LORES = st := by
  have hbit : st.modes &&& SM_LORES = SM_LORES := by
    have hand := BitVec.and_twoPow st.modes 7
    have hne : st.modes &&& SM_LORES ≠ 0 := of_decide_eq_true h
    have htwo : BitVec.twoPow 32 7 = SM_LORES := by decide
    rw [htwo] at hand
    rw [hand]
    split
    case isTrue => rfl
    case isFalse hno =>
      rw [if_neg hno] at hand
      exact absurd hand hne
  have hor : st.modes ||| SM_LORES = st.modes := by
    rw [← hbit]
    apply BitVec.eq_of_getLsbD_eq
    intro i hi
    simp only [BitVec.getLsbD_or, BitVec.getLsbD_and]
    cases st.modes.getLsbD i <;> rfl
  unfold orModes
  rw [hor]

/-- What it made sure of, `checkModes` lets pass. -/
theorem Fine.checkModes (h : Fine m) : m.checkModes = some m := by
  have htype : ({ m with type := ST_AMIGA } : Scrtype) = m := by
    rw [← h.type]
  have hham : (if m.has (SM_HAM ||| SM_HALFBRITE) = true then m.orModes SM_LORES else m) = m := by
    split
    case isTrue hh => exact orModes_lores (h.lores hh)
    case isFalse => rfl
  simp only [Scrtype.checkModes]
  rw [htype, hham, if_neg (fun hno => hno.2 h.type), if_neg (fun hno => hno.2 (h.chunky hno.1)),
    if_neg (Bool.eq_false_iff.mp h.sense)]

theorem Fine.resize (h : Fine m) (x y : Ushort) : Fine { m with dispx := x, dispy := y } :=
  ⟨h.type, h.sense, h.lores, h.chunky⟩

@[simp] theorem may_orModes (st : Scrtype) (a : Long) (b : Ushort) :
    (st.orModes a).may b = st.may b := rfl

theorem nonsense_eq_false (st : Scrtype) : st.nonsense = false ↔
    (st.has SM_INTERLACE = true → st.has SM_NONLACE = false) ∧
    (st.has SM_HEDLEY = true → st.has SM_NONHEDLEY = false) ∧
    (st.has SM_INTERLACE = true → st.has SM_HEDLEY = false) ∧
    (st.has SM_HIRES = true → st.has SM_LORES = false) ∧
    (st.has SM_OVERSCAN = true → st.has SM_NONOVERSCAN = false) ∧
    st.may (~~~(SF_LESSPLANES ||| SF_MOREPLANES ||| SF_LESSRES ||| SF_MORERES)) = false ∧
    st.has (~~~(SM_HEDLEY ||| SM_NONHEDLEY ||| SM_INTERLACE ||| SM_NONLACE ||| SM_HIRES |||
      SM_LORES ||| SM_OVERSCAN ||| SM_NONOVERSCAN ||| SM_HAM ||| SM_HALFBRITE ||| SM_CHUNKY)) =
        false := by
  have hand : ∀ a b : Bool, (a && b) = false ↔ (a = true → b = false) := by decide
  unfold nonsense
  simp only [Bool.or_eq_false_iff, hand, and_assoc]

/-- A resolution that is chosen where there is none. -/
theorem Fine.resolution (h : Fine m) {b : Long} (hb : b = SM_HIRES ∨ b = SM_LORES)
    (hno : m.has (SM_HIRES ||| SM_LORES ||| SM_CHUNKY) = false) : Fine (m.orModes b) := by
  obtain ⟨htype, hsense, hlores, hchunky⟩ := h
  obtain ⟨hlace, hhed, hboth, -, hrest⟩ := (nonsense_eq_false m).mp hsense
  simp only [has_or, Bool.or_eq_false_iff] at hno
  rcases hb with rfl | rfl
  · refine ⟨htype, (nonsense_eq_false _).mpr ?_, ?_, ?_⟩
    · simp [has_orModes] at hlace hhed hboth hno hrest ⊢
      exact ⟨hlace, hhed, hboth, hno.1.2, hrest⟩
    · simp [has_orModes] at hlores ⊢
      exact hlores
    · simp [has_orModes] at hchunky ⊢
      exact hchunky
  · refine ⟨htype, (nonsense_eq_false _).mpr ?_, ?_, ?_⟩
    · simp [has_orModes] at hlace hhed hboth hno hrest ⊢
      exact ⟨hlace, hhed, hboth, hno.1.1, hrest⟩
    · simp [has_orModes]
    · simp [has_orModes] at hchunky ⊢
      exact hchunky

theorem Fine.hedley (h : Fine m)
    (hno : m.has (SM_INTERLACE ||| SM_LORES ||| SM_HEDLEY ||| SM_NONHEDLEY) = false) :
    Fine (m.orModes SM_HEDLEY) := by
  obtain ⟨htype, hsense, hlores, hchunky⟩ := h
  obtain ⟨hlace, -, -, hrest⟩ := (nonsense_eq_false m).mp hsense
  simp only [has_or, Bool.or_eq_false_iff] at hno
  refine ⟨htype, (nonsense_eq_false _).mpr ?_, ?_, ?_⟩
  · simp [has_orModes] at hlace hno hrest ⊢
    exact ⟨hlace, hno.2, hno.1.1.1, hrest⟩
  · simp [has_orModes] at hlores ⊢
    exact hlores
  · simp [has_orModes] at hchunky ⊢
    exact hchunky

theorem Fine.lace (h : Fine m) {b : Long} (hb : b = SM_INTERLACE ∨ b = SM_NONLACE)
    (hno : m.has (SM_HEDLEY ||| SM_INTERLACE ||| SM_NONLACE) = false) : Fine (m.orModes b) := by
  obtain ⟨htype, hsense, hlores, hchunky⟩ := h
  obtain ⟨-, hhed, hboth, hrest⟩ := (nonsense_eq_false m).mp hsense
  simp only [has_or, Bool.or_eq_false_iff] at hno
  rcases hb with rfl | rfl
  · refine ⟨htype, (nonsense_eq_false _).mpr ?_, ?_, ?_⟩
    · simp [has_orModes] at hhed hno hrest ⊢
      exact ⟨hno.2, hhed, hno.1.1, hrest⟩
    · simp [has_orModes] at hlores ⊢
      exact hlores
    · simp [has_orModes] at hchunky ⊢
      exact hchunky
  · refine ⟨htype, (nonsense_eq_false _).mpr ?_, ?_, ?_⟩
    · simp [has_orModes] at hhed hboth hno hrest ⊢
      exact ⟨hno.1.2, hhed, hboth, hrest⟩
    · simp [has_orModes] at hlores ⊢
      exact hlores
    · simp [has_orModes] at hchunky ⊢
      exact hchunky

/-! ### The request before its sizes are checked -/

/-- The width, the depth and the flags would have a Hedley screen. -/
def Wide (adj : Displayadjust) (l : Scrtype) : Prop :=
  (HEDLEY_SCRWIDTH ≤ l.dispx.toNat ∨ l.may SF_MORERES = true ∧
      HIRES_SCRWIDTH + adj.xoverscan.toNat * 2 ≤ l.dispx.toNat) ∧
    (l.may SF_LESSRES = false ∨ l.dispz.toNat ≤ 2 ∨ l.may SF_LESSPLANES = true)

/-- The width is a multiple of what the resolution asks for. -/
def Aligned (l : Scrtype) : Prop :=
  (if l.has (SM_HIRES ||| SM_CHUNKY) = true then 32 else 16) ∣ l.dispx.toNat

/-- What the choice of the modes and the rounding leave. -/
structure Moded (adj : Displayadjust) (st l : Scrtype) : Prop where
  fine : Fine l
  flags : l.flags = st.flags
  dispy : l.dispy = st.dispy
  dispz : l.dispz = st.dispz
  aligned : Aligned l
  laced : l.has (SM_HEDLEY ||| SM_INTERLACE ||| SM_NONLACE) = true
  narrow : l.has SM_HEDLEY = false →
    l.has (SM_INTERLACE ||| SM_LORES ||| SM_NONHEDLEY) = true ∨ ¬ Wide adj l
  up : st.may SF_MORERES = false → l.dispx.toNat ≤ st.dispx.toNat
  down : st.dispx.toNat ≤ l.dispx.toNat ∨ st.may SF_LESSRES = true ∨
    l.dispx.toNat = 0 ∧ 65504 < st.dispx.toNat

theorem mask_getLsbD {mask : Ushort} {k : ℕ} (hm : mask = 15 ∧ k = 4 ∨ mask = 31 ∧ k = 5) {i : ℕ}
    (hi : i < 16) : mask.getLsbD i = decide (i < k) := by
  revert i
  rcases hm with ⟨rfl, rfl⟩ | ⟨rfl, rfl⟩ <;> decide

theorem toNat_and_not {mask : Ushort} {k : ℕ} (hm : mask = 15 ∧ k = 4 ∨ mask = 31 ∧ k = 5)
    (x : Ushort) : (x &&& ~~~mask).toNat = x.toNat / 2 ^ k * 2 ^ k := by
  have hshift : x &&& ~~~mask = x >>> k <<< k := by
    apply BitVec.eq_of_getLsbD_eq
    intro i hi
    rw [BitVec.getLsbD_and, BitVec.getLsbD_not, mask_getLsbD hm hi, BitVec.getLsbD_shiftLeft,
      BitVec.getLsbD_ushiftRight]
    by_cases hk : i < k
    · simp [hk]
    · have hik : k + (i - k) = i := by omega
      simp [hk, hi, hik]
  have hx := x.isLt
  rw [hshift, BitVec.toNat_shiftLeft, BitVec.toNat_ushiftRight, Nat.shiftLeft_eq,
    Nat.shiftRight_eq_div_pow]
  apply Nat.mod_eq_of_lt
  exact Nat.lt_of_le_of_lt (Nat.div_mul_le_self _ _) hx

theorem toNat_and_mask {mask : Ushort} {k : ℕ} (hm : mask = 15 ∧ k = 4 ∨ mask = 31 ∧ k = 5)
    (x : Ushort) : (x &&& mask).toNat = x.toNat % 2 ^ k := by
  rw [BitVec.toNat_and, ← Nat.and_two_pow_sub_one_eq_mod]
  rcases hm with ⟨rfl, rfl⟩ | ⟨rfl, rfl⟩ <;> rfl

theorem mask_cases (st : Scrtype) : ∃ k, ∃ mask : Ushort,
    (if st.has (SM_HIRES ||| SM_CHUNKY) = true then 31 else 15) = mask ∧
      (mask = 15 ∧ k = 4 ∨ mask = 31 ∧ k = 5) ∧
      2 ^ k = if st.has (SM_HIRES ||| SM_CHUNKY) = true then 32 else 16 := by
  by_cases hh : st.has (SM_HIRES ||| SM_CHUNKY) = true
  · exact ⟨5, 31, if_pos hh, .inr ⟨rfl, rfl⟩, (if_pos hh).symm⟩
  · exact ⟨4, 15, if_neg hh, .inl ⟨rfl, rfl⟩, (if_neg hh).symm⟩

theorem roundWidth_spec (h : st.roundWidth = some m) :
    (∃ x, m = { st with dispx := x }) ∧ Aligned m ∧
      (st.may SF_MORERES = false → m.dispx.toNat ≤ st.dispx.toNat) ∧
      (st.dispx.toNat ≤ m.dispx.toNat ∨ st.may SF_LESSRES = true ∨
        m.dispx.toNat = 0 ∧ 65504 < st.dispx.toNat) := by
  obtain ⟨k, mask, hmask, hm, hk⟩ := mask_cases st
  have halign : ∀ x : Ushort, 2 ^ k ∣ x.toNat → Aligned { st with dispx := x } := by
    intro x hx
    rw [hk] at hx
    exact hx
  have hx := st.dispx.isLt
  have hpow : 2 ^ k = 16 ∧ mask.toNat = 15 ∨ 2 ^ k = 32 ∧ mask.toNat = 31 := by
    rcases hm with ⟨rfl, rfl⟩ | ⟨rfl, rfl⟩
    · exact .inl ⟨rfl, rfl⟩
    · exact .inr ⟨rfl, rfl⟩
  simp only [roundWidth] at h
  rw [hmask] at h
  by_cases hodd : st.dispx &&& mask ≠ 0
  · rw [if_pos hodd] at h
    by_cases hmore : st.may SF_MORERES = true
    · rw [if_pos hmore] at h
      obtain rfl := Option.some.inj h
      have hround := toNat_and_not hm (st.dispx + mask)
      refine ⟨⟨_, rfl⟩, halign _ (hround ▸ Nat.dvd_mul_left _ _), ?_, ?_⟩
      · intro hno
        exact absurd (hmore.symm.trans hno) (by decide)
      · change _ ≤ ((st.dispx + mask) &&& ~~~mask).toNat ∨ _ ∨
          ((st.dispx + mask) &&& ~~~mask).toNat = 0 ∧ _
        rw [hround, BitVec.toNat_add]
        change _ ≤ (st.dispx.toNat + mask.toNat) % 65536 / 2 ^ k * 2 ^ k ∨ _ ∨
          (st.dispx.toNat + mask.toNat) % 65536 / 2 ^ k * 2 ^ k = 0 ∧ _
        rcases hpow with ⟨hp, hmm⟩ | ⟨hp, hmm⟩
        · rw [hp, hmm]
          omega
        · rw [hp, hmm]
          omega
    · rw [if_neg hmore] at h
      by_cases hless : st.may SF_LESSRES = true
      · rw [if_pos hless] at h
        obtain rfl := Option.some.inj h
        have hround := toNat_and_not hm st.dispx
        refine ⟨⟨_, rfl⟩, halign _ (hround ▸ Nat.dvd_mul_left _ _), fun _ => ?_,
          .inr (.inl hless)⟩
        change (st.dispx &&& ~~~mask).toNat ≤ _
        rw [hround]
        exact Nat.div_mul_le_self _ _
      · rw [if_neg hless] at h
        exact absurd h.symm (Option.some_ne_none m)
  · rw [if_neg hodd] at h
    obtain rfl := Option.some.inj h
    have heven : st.dispx &&& mask = 0 := not_not.mp hodd
    refine ⟨⟨_, rfl⟩, halign _ (Nat.dvd_of_mod_eq_zero ?_), fun _ => Nat.le_refl _,
      .inl (Nat.le_refl _)⟩
    rw [← toNat_and_mask hm, heven]
    rfl

/-- An even width is left alone. -/
theorem roundWidth_aligned (h : Aligned st) : st.roundWidth = some st := by
  obtain ⟨k, mask, hmask, hm, hk⟩ := mask_cases st
  have heven : st.dispx &&& mask = 0 := by
    apply BitVec.eq_of_toNat_eq
    rw [toNat_and_mask hm, hk]
    exact Nat.mod_eq_zero_of_dvd h
  simp only [roundWidth]
  rw [hmask, if_neg (not_not.mpr heven)]

theorem chooseHires_spec (adj : Displayadjust) (h : Fine m) :
    Fine (m.chooseHires adj) ∧ ∃ modes, m.chooseHires adj = { m with modes := modes } := by
  unfold chooseHires
  split
  case isTrue hno =>
    have hnone : m.has (SM_HIRES ||| SM_LORES ||| SM_CHUNKY) = false := by simpa using hno.1
    split
    case isTrue => exact ⟨h.resolution (.inl rfl) hnone, _, rfl⟩
    case isFalse => exact ⟨h.resolution (.inr rfl) hnone, _, rfl⟩
  case isFalse => exact ⟨h, m.modes, rfl⟩

theorem chooseHires_self (h : m.has (SM_HIRES ||| SM_LORES ||| SM_CHUNKY) = true ∨
    m.dispx.toNat ≤ LORES_SCRWIDTH + adj.xoverscan.toNat) : m.chooseHires adj = m := by
  apply if_neg
  rintro ⟨hno, hlt⟩
  rcases h with h | h
  · rw [h] at hno
    exact absurd hno (by decide)
  · exact absurd hlt (Nat.not_lt.mpr h)

/-- The width asks for a Hedley screen where nothing rules it out. -/
theorem chooseHedley_eq (adj : Displayadjust) (m : Scrtype) :
    (m.has (SM_INTERLACE ||| SM_LORES ||| SM_HEDLEY ||| SM_NONHEDLEY) = false ∧ Wide adj m ∧
      m.chooseHedley adj = m.orModes SM_HEDLEY) ∨
    ((m.has (SM_INTERLACE ||| SM_LORES ||| SM_HEDLEY ||| SM_NONHEDLEY) = true ∨ ¬ Wide adj m) ∧
      m.chooseHedley adj = m) := by
  have hcond : ((!m.has (SM_INTERLACE ||| SM_LORES ||| SM_HEDLEY ||| SM_NONHEDLEY)) = true ∧
      (HEDLEY_SCRWIDTH ≤ m.dispx.toNat ∨ m.may SF_MORERES = true ∧
        HIRES_SCRWIDTH + adj.xoverscan.toNat * 2 ≤ m.dispx.toNat) ∧
      ((!m.may SF_LESSRES) = true ∨ m.dispz.toNat ≤ 2 ∨ m.may SF_LESSPLANES = true)) ↔
      m.has (SM_INTERLACE ||| SM_LORES ||| SM_HEDLEY ||| SM_NONHEDLEY) = false ∧ Wide adj m := by
    rw [Bool.not_eq_true', Bool.not_eq_true', Wide]
  by_cases h : m.has (SM_INTERLACE ||| SM_LORES ||| SM_HEDLEY ||| SM_NONHEDLEY) = false ∧
      Wide adj m
  · exact .inl ⟨h.1, h.2, if_pos (hcond.mpr h)⟩
  · refine .inr ⟨?_, if_neg fun hc => h (hcond.mp hc)⟩
    rw [not_and_or, Bool.not_eq_false] at h
    exact h

theorem chooseHedley_spec (adj : Displayadjust) (h : Fine m) :
    Fine (m.chooseHedley adj) ∧ (∃ modes, m.chooseHedley adj = { m with modes := modes }) ∧
      (m.chooseHedley adj).has (SM_HIRES ||| SM_CHUNKY) = m.has (SM_HIRES ||| SM_CHUNKY) ∧
      ((m.chooseHedley adj).has SM_HEDLEY = false →
        (m.chooseHedley adj).has (SM_INTERLACE ||| SM_LORES ||| SM_NONHEDLEY) = true ∨
          ¬ Wide adj m) := by
  rcases chooseHedley_eq adj m with ⟨hno, hwide, heq⟩ | ⟨hor, heq⟩
  · rw [heq]
    refine ⟨h.hedley hno, ⟨_, rfl⟩, ?_, ?_⟩
    · simp [has_orModes]
    · simp [has_orModes]
  · rw [heq]
    refine ⟨h, ⟨m.modes, rfl⟩, rfl, fun hhed => ?_⟩
    refine hor.imp_left fun hhas => ?_
    simp only [has_or, hhed, Bool.or_false] at hhas ⊢
    exact hhas

theorem chooseLace_spec (pal : Bool) (adj : Displayadjust) (h : Fine m) :
    Fine (m.chooseLace pal adj) ∧ (∃ modes, m.chooseLace pal adj = { m with modes := modes }) ∧
      (m.chooseLace pal adj).has (SM_HIRES ||| SM_CHUNKY) = m.has (SM_HIRES ||| SM_CHUNKY) ∧
      (m.chooseLace pal adj).has SM_HEDLEY = m.has SM_HEDLEY ∧
      (m.has (SM_INTERLACE ||| SM_LORES ||| SM_NONHEDLEY) = true →
        (m.chooseLace pal adj).has (SM_INTERLACE ||| SM_LORES ||| SM_NONHEDLEY) = true) ∧
      (m.chooseLace pal adj).has (SM_HEDLEY ||| SM_INTERLACE ||| SM_NONLACE) = true := by
  unfold chooseLace
  split
  case isTrue hl => exact ⟨h, ⟨m.modes, rfl⟩, rfl, rfl, id, hl⟩
  case isFalse hl =>
    have hno : m.has (SM_HEDLEY ||| SM_INTERLACE ||| SM_NONLACE) = false := Bool.eq_false_iff.mpr hl
    split
    case isTrue =>
      refine ⟨h.lace (.inl rfl) hno, ⟨_, rfl⟩, ?_, ?_, ?_, ?_⟩
      · simp [has_orModes]
      · simp [has_orModes]
      · simp [has_orModes]
      · simp [has_orModes]
    case isFalse =>
      refine ⟨h.lace (.inr rfl) hno, ⟨_, rfl⟩, ?_, ?_, ?_, ?_⟩
      · simp [has_orModes]
      · simp [has_orModes]
      · simp [has_orModes]
      · simp [has_orModes]

theorem moded_spec (h : st.moded pal adj = some l) : Moded adj st l := by
  obtain ⟨r, hr, rfl⟩ := Option.map_eq_some_iff.mp h
  obtain ⟨m, hm, hr⟩ := Option.bind_eq_some_iff.mp hr
  obtain ⟨hfine, hflags, hx, hy, hz⟩ := checkModes_fine hm
  obtain ⟨hfine, modes, hhires⟩ := chooseHires_spec adj hfine
  obtain ⟨⟨x, hrx⟩, halign, hup, hdown⟩ := roundWidth_spec hr
  have hfine : Fine r := hrx ▸ hfine.resize x _
  have hrflags : r.flags = st.flags := by rw [hrx, hhires, ← hflags]
  have hry : r.dispy = st.dispy := by rw [hrx, hhires, ← hy]
  have hrz : r.dispz = st.dispz := by rw [hrx, hhires, ← hz]
  have hmay : ∀ b, (m.chooseHires adj).may b = st.may b := by
    intro b
    rw [hhires]
    exact congrArg (fun flags : Ushort => decide (flags &&& b ≠ 0)) hflags
  have hwidth : (m.chooseHires adj).dispx = st.dispx := by rw [hhires, ← hx]
  rw [hmay, hwidth] at hup hdown
  clear hrx
  obtain ⟨hfine, ⟨modes', hhed⟩, hres, hnarrow⟩ := chooseHedley_spec adj hfine
  obtain ⟨hfine, ⟨modes'', hlace⟩, hres', hsame, hkeep, hlaced⟩ := chooseLace_spec pal adj hfine
  have hdispx : ((r.chooseHedley adj).chooseLace pal adj).dispx = r.dispx := by rw [hlace, hhed]
  refine ⟨hfine, ?_, ?_, ?_, ?_, hlaced, ?_, ?_, ?_⟩
  · rw [hlace, hhed, ← hrflags]
  · rw [hlace, hhed, ← hry]
  · rw [hlace, hhed, ← hrz]
  · unfold Aligned
    rw [hres', hres, hdispx]
    exact halign
  · intro hno
    rw [hsame] at hno
    refine (hnarrow hno).imp hkeep fun hw hwide => hw ?_
    rw [hlace, hhed] at hwide
    exact hwide
  · rw [hdispx]
    exact hup
  · rw [hdispx]
    exact hdown

/-! ### The request after its sizes are checked -/

theorem minwidth_le (adj : Displayadjust) (l : Scrtype) : l.minwidth ≤ l.maxwidth adj := by
  unfold minwidth maxwidth
  split_ifs <;> omega

/-- What the size checks do to the depth. -/
def Planes (l : Scrtype) (z : Ushort) : Prop :=
  l.has SM_CHUNKY = true ∧ z = l.dispz ∧ z = 16 ∨
    l.has SM_CHUNKY = false ∧ (z = l.dispz ∧ z.toNat ≤ l.maxplanes ∨
      l.maxplanes < l.dispz.toNat ∧ l.may SF_LESSPLANES = true ∧ z.toNat = l.maxplanes)

theorem fitPlanes_spec (h : l.fitPlanes = some m) :
    m = { l with dispz := m.dispz } ∧ l.Planes m.dispz := by
  have hle := l.maxplanes_le
  unfold fitPlanes at h
  by_cases hc : l.has SM_CHUNKY = true
  · rw [if_pos hc] at h
    by_cases hz : l.dispz ≠ 16
    · rw [if_pos hz] at h
      exact absurd h.symm (Option.some_ne_none m)
    · rw [if_neg hz] at h
      obtain rfl := Option.some.inj h
      exact ⟨rfl, .inl ⟨hc, rfl, not_not.mp hz⟩⟩
  · rw [if_neg hc] at h
    have hc' := Bool.eq_false_iff.mpr hc
    by_cases hlt : l.maxplanes < l.dispz.toNat
    · rw [if_pos hlt] at h
      by_cases hless : l.may SF_LESSPLANES = true
      · rw [if_pos hless] at h
        obtain rfl := Option.some.inj h
        refine ⟨rfl, .inr ⟨hc', .inr ⟨hlt, hless, ?_⟩⟩⟩
        change (BitVec.ofNat 16 l.maxplanes).toNat = _
        rw [BitVec.toNat_ofNat, Nat.mod_eq_of_lt (by omega)]
      · rw [if_neg hless] at h
        exact absurd h.symm (Option.some_ne_none m)
    · rw [if_neg hlt] at h
      obtain rfl := Option.some.inj h
      exact ⟨rfl, .inr ⟨hc', .inl ⟨rfl, Nat.not_lt.mp hlt⟩⟩⟩

/-- What the size checks make of a request. -/
theorem sized_spec (h : (l.fitSize pal adj).bind fitPlanes = some m) :
    m = { l with dispx := m.dispx, dispy := m.dispy, dispz := m.dispz } ∧
      l.fit l.minwidth (l.maxwidth adj) l.dispx = some m.dispx ∧
      l.fit (l.minheight pal) (l.maxheight pal adj) l.dispy = some m.dispy ∧
      l.Planes m.dispz := by
  obtain ⟨s, hs, hm⟩ := Option.bind_eq_some_iff.mp h
  rw [fitSize_eq] at hs
  obtain ⟨x, hx, hs⟩ := Option.bind_eq_some_iff.mp hs
  obtain ⟨y, hy, hs⟩ := Option.bind_eq_some_iff.mp hs
  obtain rfl := Option.some.inj hs
  obtain ⟨hm, hz⟩ := fitPlanes_spec hm
  have hxm : m.dispx = x := by rw [hm]
  have hym : m.dispy = y := by rw [hm]
  refine ⟨?_, hxm ▸ hx, hym ▸ hy, hz⟩
  rw [hxm, hym]
  exact hm

theorem passes_of_sized (h : (l.fitSize pal adj).bind fitPlanes = some m) : Passes pal adj l := by
  obtain ⟨-, hx, hy, hz⟩ := sized_spec h
  refine ⟨by rw [hx]; rfl, by rw [hy]; rfl, fun hlt => ?_⟩
  rcases hz with ⟨hc, -⟩ | ⟨-, ⟨hz, hle⟩ | ⟨-, hless, -⟩⟩
  · exact .inl hc
  · rw [hz] at hle
    exact absurd hlt (Nat.not_lt.mpr hle)
  · exact .inr hless

theorem sized_of_passes (hc : l.has SM_CHUNKY = true → l.dispz = 16) (h : Passes pal adj l) :
    ∃ m, (l.fitSize pal adj).bind fitPlanes = some m := by
  obtain ⟨hx, hy, hz⟩ := h
  obtain ⟨x, hx⟩ := Option.isSome_iff_exists.mp hx
  obtain ⟨y, hy⟩ := Option.isSome_iff_exists.mp hy
  rw [fitSize_eq, hx, Option.bind_some, hy, Option.bind_some, Option.bind_some]
  unfold fitPlanes
  by_cases hch : l.has SM_CHUNKY = true
  · exact ⟨_, (if_pos hch).trans (if_neg (not_not.mpr (hc hch)))⟩
  · by_cases hlt : l.maxplanes < l.dispz.toNat
    · have hless := (hz hlt).resolve_left hch
      exact ⟨_, (if_neg hch).trans ((if_pos hlt).trans (if_pos hless))⟩
    · exact ⟨_, (if_neg hch).trans (if_neg hlt)⟩

/-! ### The second check -/

/-- What passes every check as it is. -/
structure Settled (pal : Bool) (adj : Displayadjust) (m : Scrtype) : Prop where
  fine : Fine m
  hires : m.has (SM_HIRES ||| SM_LORES ||| SM_CHUNKY) = true ∨
    m.dispx.toNat ≤ LORES_SCRWIDTH + adj.xoverscan.toNat
  aligned : Aligned m
  hedley : m.has (SM_INTERLACE ||| SM_LORES ||| SM_HEDLEY ||| SM_NONHEDLEY) = true ∨ ¬ Wide adj m
  laced : m.has (SM_HEDLEY ||| SM_INTERLACE ||| SM_NONLACE) = true
  width : m.minwidth ≤ m.dispx.toNat ∧ m.dispx.toNat ≤ m.maxwidth adj
  height : m.minheight pal ≤ m.dispy.toNat ∧ m.dispy.toNat ≤ m.maxheight pal adj
  planes : m.has SM_CHUNKY = true ∨ m.dispz.toNat ≤ m.maxplanes

theorem Settled.check (h : Settled pal adj m) : checkScrtype pal adj m = some m := by
  have hhed : m.chooseHedley adj = m := by
    rcases chooseHedley_eq adj m with ⟨hno, hwide, -⟩ | ⟨-, heq⟩
    · rcases h.hedley with hh | hh
      · exact absurd (hno.symm.trans hh) (by decide)
      · exact absurd hwide hh
    · exact heq
  have hlace : m.chooseLace pal adj = m := if_pos h.laced
  have hplanes : m.fitPlanes = some m := by
    unfold fitPlanes
    by_cases hch : m.has SM_CHUNKY = true
    · exact (if_pos hch).trans (if_neg (not_not.mpr (h.fine.chunky hch)))
    · exact (if_neg hch).trans (if_neg (Nat.not_lt.mpr (h.planes.resolve_left hch)))
  rw [checkScrtype_eq, moded, h.fine.checkModes, Option.bind_some, chooseHires_self h.hires,
    roundWidth_aligned h.aligned, Option.map_some, hhed, hlace, Option.bind_some, fitSize_eq,
    fit_self h.width.1 h.width.2, Option.bind_some, fit_self h.height.1 h.height.2,
    Option.bind_some, Option.bind_some, hplanes]

theorem has_orModes_of_has {b : Long} (h : m.has b = true) (a : Long) :
    (m.orModes a).has b = true := by
  rw [has_orModes, h, Bool.true_or]

theorem chooseHedley_has {b : Long} (h : m.has b = true) : (m.chooseHedley adj).has b = true := by
  unfold chooseHedley
  split
  · exact has_orModes_of_has h SM_HEDLEY
  · exact h

/-- A mode that is there once the Hedley mode was considered is there in the end. -/
theorem has_of_check {b : Long} (h : checkScrtype pal adj st = some m)
    (hc : st.checkModes = some st)
    (hb : ∀ r, (st.chooseHires adj).roundWidth = some r → (r.chooseHedley adj).has b = true) :
    m.has b = true := by
  rw [checkScrtype_eq, moded, hc, Option.bind_some] at h
  obtain ⟨l, hl, h⟩ := Option.bind_eq_some_iff.mp h
  obtain ⟨r, hr, rfl⟩ := Option.map_eq_some_iff.mp hl
  obtain ⟨hm, -⟩ := sized_spec h
  have hlace : ((r.chooseHedley adj).chooseLace pal adj).has b = true := by
    unfold chooseLace
    split
    · exact hb r hr
    · split
      · exact has_orModes_of_has (hb r hr) SM_INTERLACE
      · exact has_orModes_of_has (hb r hr) SM_NONLACE
  rw [hm]
  exact hlace

/-! ### What the flags allow -/

theorem fit_mem {lo hi : ℕ} {x y : Ushort} (hlo : lo < 65536) (hle : lo ≤ hi)
    (h : st.fit lo hi x = some y) : lo ≤ y.toNat ∧ y.toNat ≤ hi := by
  rcases fit_cases hlo h with ⟨rfl, h1, h2⟩ | ⟨-, -, -, hy⟩ | ⟨hy, -, -⟩
  · exact ⟨h1, h2⟩
  · omega
  · omega

theorem fit_le {lo hi : ℕ} {x y : Ushort} (hlo : lo < 65536) (h : st.fit lo hi x = some y)
    (hmore : st.may SF_MORERES = false) : y.toNat ≤ x.toNat := by
  rcases fit_cases hlo h with ⟨rfl, -, -⟩ | ⟨hlt, -, -, hy⟩ | ⟨-, hm, -⟩
  · exact Nat.le_refl _
  · omega
  · exact absurd (hm.symm.trans hmore) (by decide)

theorem le_fit {lo hi : ℕ} {x y : Ushort} (hlo : lo < 65536) (h : st.fit lo hi x = some y)
    (hless : st.may SF_LESSRES = false) : x.toNat ≤ y.toNat := by
  rcases fit_cases hlo h with ⟨rfl, -, -⟩ | ⟨-, hm, -⟩ | ⟨hy, -, hlow | ⟨-, hm, -⟩⟩
  · exact Nat.le_refl _
  · exact absurd (hm.symm.trans hless) (by decide)
  · omega
  · exact absurd (hm.symm.trans hless) (by decide)

/-- The limits are multiples too, but for the overscan. -/
theorem aligned_iff_of_fit {x : Ushort} (hl : Aligned l)
    (h : l.fit l.minwidth (l.maxwidth adj) l.dispx = some x) :
    Aligned { l with dispx := x } ↔ (l.maxwidth adj < l.dispx.toNat →
      l.has SM_CHUNKY = true ∨ l.has SM_HEDLEY = true ∨ 16 ∣ adj.xoverscan.toNat) := by
  have hle := minwidth_le adj l
  unfold Aligned at hl ⊢
  change (if l.has (SM_HIRES ||| SM_CHUNKY) = true then 32 else 16) ∣ x.toNat ↔ _
  rcases fit_cases l.minwidth_lt h with ⟨rfl, -, hhi⟩ | ⟨hlt, -, -, hx⟩ | ⟨hx, -, hlow⟩
  · exact iff_of_true hl fun hlt => absurd hhi (Nat.not_le.mpr hlt)
  · rw [hx]
    simp only [hlt, forall_true_left]
    unfold maxwidth
    rw [has_or]
    cases hc : l.has SM_CHUNKY <;> cases hhed : l.has SM_HEDLEY <;>
      cases hhi : l.has SM_HIRES <;>
      simp [LORES_SCRWIDTH, HIRES_SCRWIDTH, HEDLEY_SCRWIDTH] <;> omega
  · have hno : ¬ l.maxwidth adj < l.dispx.toNat := by omega
    refine iff_of_true ?_ fun hlt => absurd hlt hno
    rw [hx]
    unfold minwidth
    rw [has_or]
    cases hc : l.has SM_CHUNKY <;> cases hhed : l.has SM_HEDLEY <;>
      cases hhi : l.has SM_HIRES <;> simp <;> decide

theorem fine_of_sized (hmoded : Moded adj st l)
    (hsized : (l.fitSize pal adj).bind fitPlanes = some m) (hsense : m.nonsense = false) :
    Fine m := by
  obtain ⟨hm, -, -, hz⟩ := sized_spec hsized
  have hhas : ∀ b, m.has b = l.has b := fun b => by rw [hm]; rfl
  obtain ⟨htype, -, hlores, -⟩ := hmoded.fine
  refine ⟨by rw [hm]; exact htype, hsense, by rw [hhas, hhas]; exact hlores, fun hc => ?_⟩
  rcases hz with ⟨-, -, hz⟩ | ⟨hno, -⟩
  · exact hz
  · rw [hhas] at hc
    exact absurd (hc.symm.trans hno) (by decide)

/-- A request that comes out of the checks is legal if nothing went wrong before. -/
theorem legal_of_straight (hmoded : Moded adj st l)
    (hsized : (l.fitSize pal adj).bind fitPlanes = some m) (h : Straight pal adj st l) :
    LegalFor pal adj st m := by
  obtain ⟨hm, hx, hy, hz⟩ := sized_spec hsized
  have hmay : ∀ b, l.may b = st.may b := by
    intro b
    unfold may
    rw [hmoded.flags]
  have halign : Aligned m := by
    have hfit := (aligned_iff_of_fit hmoded.aligned hx).mpr h.cut
    rw [hm]
    exact hfit
  have hwidth := fit_mem l.minwidth_lt (minwidth_le adj l) hx
  have hheight := fit_mem (l.minheight_lt pal) h.tall hy
  have hxup := fit_le l.minwidth_lt hx
  have hxdown := le_fit l.minwidth_lt hx
  have hyup := fit_le (l.minheight_lt pal) hy
  have hydown := le_fit (l.minheight_lt pal) hy
  rw [hmay] at hxup hxdown hyup hydown
  rw [hmoded.dispy] at hyup hydown
  constructor
  · refine Nat.dvd_trans ?_ halign
    split <;> decide
  · intro hhires
    unfold Aligned at halign
    rw [has_or, hhires, Bool.true_or] at halign
    exact halign
  · rw [hm]
    exact hwidth
  · rw [hm]
    exact hheight
  · rw [hm]
    rcases hz with ⟨hc, -, hz⟩ | ⟨-, ⟨hz, hle⟩ | ⟨-, -, hz⟩⟩
    · exact .inl ⟨hc, hz⟩
    · exact .inr hle
    · exact .inr (Nat.le_of_eq hz)
  · rw [hm]
    exact hmoded.fine.sense
  · intro hmore
    have hup := hmoded.up hmore
    have hx' := hxup hmore
    exact ⟨by omega, hyup hmore⟩
  · intro hless
    have hround : st.dispx.toNat ≤ l.dispx.toNat := by
      by_contra hlt
      exact absurd ((h.rounded (Nat.not_le.mp hlt)).symm.trans hless) (by decide)
    have hx' := hxdown hless
    exact ⟨by omega, hydown hless⟩
  · intro _
    rw [← hmoded.dispz]
    rcases hz with ⟨-, hz, -⟩ | ⟨-, ⟨hz, -⟩ | ⟨hlt, -, hz⟩⟩
    · exact Nat.le_of_eq (congrArg BitVec.toNat hz)
    · exact Nat.le_of_eq (congrArg BitVec.toNat hz)
    · omega
  · intro hless
    rw [← hmoded.dispz]
    rcases hz with ⟨-, hz, -⟩ | ⟨-, ⟨hz, -⟩ | ⟨-, hmay', -⟩⟩
    · exact Nat.le_of_eq (congrArg BitVec.toNat hz.symm)
    · exact Nat.le_of_eq (congrArg BitVec.toNat hz.symm)
    · rw [hmay] at hmay'
      exact absurd (hmay'.symm.trans hless) (by decide)

/-- Of the least widths only that of hires is a reason for a Hedley screen, and
only without overscan. -/
theorem hires_of_wide (hhed : l.has SM_HEDLEY = false)
    (hwide : 1024 ≤ l.minwidth ∨ 640 + adj.xoverscan.toNat * 2 ≤ l.minwidth) :
    l.has SM_CHUNKY = false ∧ l.has SM_HIRES = true ∧ adj.xoverscan.toNat = 0 ∧
      l.minwidth = 640 := by
  unfold minwidth at hwide ⊢
  rw [hhed] at hwide ⊢
  cases hch : l.has SM_CHUNKY with
  | true =>
      simp only [hch, if_true] at hwide
      omega
  | false =>
      cases hhi : l.has SM_HIRES with
      | true =>
          simp only [hch, hhi, Bool.false_eq_true, if_false, if_true] at hwide
          have hwide' : 1024 ≤ 640 ∨ 640 + adj.xoverscan.toNat * 2 ≤ 640 := hwide
          exact ⟨rfl, rfl, by omega, rfl⟩
      | false =>
          simp only [hch, hhi, Bool.false_eq_true, if_false] at hwide
          have hwide' : 1024 ≤ 320 ∨ 640 + adj.xoverscan.toNat * 2 ≤ 320 := hwide
          omega

/-- A width that came out of the checks is no reason for a Hedley screen, unless
it was raised. -/
theorem narrow_of_straight (hmoded : Moded adj st l)
    (hsized : (l.fitSize pal adj).bind fitPlanes = some m) (h : Straight pal adj st l) :
    m.has (SM_INTERLACE ||| SM_LORES ||| SM_HEDLEY ||| SM_NONHEDLEY) = true ∨ ¬ Wide adj m := by
  obtain ⟨hm, hx, -, hz⟩ := sized_spec hsized
  have hhas : ∀ b, m.has b = l.has b := fun b => by rw [hm]; rfl
  have hmay : ∀ b, m.may b = l.may b := fun b => by rw [hm]; rfl
  by_contra hno
  obtain ⟨hmodes, hwide⟩ := not_or.mp hno
  obtain ⟨hwidth, hdepth⟩ := not_not.mp hwide
  have hmodes := Bool.eq_false_iff.mpr hmodes
  rw [hhas] at hmodes
  simp only [has_or, Bool.or_eq_false_iff] at hmodes
  obtain ⟨⟨⟨hlace, hlores⟩, hhed⟩, hnon⟩ := hmodes
  rw [hmay, hmay] at hdepth
  rw [hmay] at hwidth
  have hdepth' : l.may SF_LESSRES = false ∨ l.dispz.toNat ≤ 2 ∨ l.may SF_LESSPLANES = true := by
    rcases hz with ⟨-, hz, -⟩ | ⟨-, ⟨hz, -⟩ | ⟨-, hless, -⟩⟩
    · rwa [hz] at hdepth
    · rwa [hz] at hdepth
    · exact .inr (.inr hless)
  have hsmall : ¬ (1024 ≤ l.dispx.toNat ∨ l.may SF_MORERES = true ∧
      640 + adj.xoverscan.toNat * 2 ≤ l.dispx.toNat) := by
    intro hlarge
    rcases hmoded.narrow hhed with hh | hw
    · simp only [has_or, hlace, hlores, hnon] at hh
      exact absurd hh (by decide)
    · exact hw ⟨hlarge, hdepth'⟩
  have hlarge : 1024 ≤ m.dispx.toNat ∨ l.may SF_MORERES = true ∧
      640 + adj.xoverscan.toNat * 2 ≤ m.dispx.toNat := hwidth
  obtain ⟨hs, hs'⟩ := not_or.mp hsmall
  rw [not_and] at hs'
  have hle := minwidth_le adj l
  rcases fit_cases l.minwidth_lt hx with ⟨heq, -, -⟩ | ⟨hlt, -, -, heq⟩ | ⟨heq, hmore, hlow⟩
  · rw [heq] at hlarge
    exact hsmall hlarge
  · rcases hlarge with hl | ⟨hmore, hl⟩
    · omega
    · have hs'' := hs' hmore
      omega
  · rw [heq] at hlarge
    obtain ⟨hch, hhi, h0, hmin⟩ := hires_of_wide hhed (hlarge.imp_right And.right)
    have hlt : l.dispx.toNat < 640 := by
      rcases hlow with hlow | hlow
      · omega
      · exact absurd hlow.2.2 (Nat.not_lt.mpr hle)
    rcases h.raised hhi hlt h0 with hh | ⟨hless, hz2, hplanes⟩
    · simp only [has_or, hch, hhed, hlace, hnon] at hh
      exact absurd hh (by decide)
    · rcases hdepth' with hd | hd | hd
      · exact absurd (hless.symm.trans hd) (by decide)
      · omega
      · exact absurd (hplanes.symm.trans hd) (by decide)

theorem settled_of_straight (hmoded : Moded adj st l)
    (hsized : (l.fitSize pal adj).bind fitPlanes = some m) (h : Straight pal adj st l) :
    Settled pal adj m := by
  have hlegal := legal_of_straight hmoded hsized h
  obtain ⟨hm, hx, -⟩ := sized_spec hsized
  have hhas : ∀ b, m.has b = l.has b := fun b => by rw [hm]; rfl
  refine ⟨fine_of_sized hmoded hsized hlegal.modes, ?_, ?_, narrow_of_straight hmoded hsized h, ?_,
    hlegal.width, hlegal.height, ?_⟩
  · rw [hhas]
    by_cases hres : l.has (SM_HIRES ||| SM_LORES ||| SM_CHUNKY) = true
    · exact .inl hres
    · right
      have hno := Bool.eq_false_iff.mpr hres
      simp only [has_or, Bool.or_eq_false_iff] at hno
      have hmax := hlegal.width.2
      unfold maxwidth at hmax
      rw [hhas, hhas, hhas, hno.2, hno.1.1] at hmax
      cases hhed : l.has SM_HEDLEY with
      | true =>
          have hwide := (h.resolved hhed).resolve_left hres
          rw [hhed] at hmax
          exact Nat.le_trans hmax hwide
      | false =>
          rw [hhed] at hmax
          exact hmax
  · have hfit := (aligned_iff_of_fit hmoded.aligned hx).mpr h.cut
    rw [hm]
    exact hfit
  · rw [hhas]
    exact hmoded.laced
  · exact hlegal.planes.imp_left And.left

theorem rounded_of_legal (hmoded : Moded adj st l)
    (hsized : (l.fitSize pal adj).bind fitPlanes = some m) (hlegal : LegalFor pal adj st m) :
    l.dispx.toNat < st.dispx.toNat → st.may SF_LESSRES = true := by
  obtain ⟨-, hx, -⟩ := sized_spec hsized
  intro hlt
  by_contra hless
  have hless := Bool.eq_false_iff.mpr hless
  have hdown := (hlegal.lessres hless).1
  rcases hmoded.down with hd | hd | ⟨h0, hbig⟩
  · omega
  · exact absurd (hd.symm.trans hless) (by decide)
  · have hmin : l.minwidth ≤ 1024 := by
      unfold minwidth
      split_ifs <;> decide
    rcases fit_cases l.minwidth_lt hx with ⟨heq, -, -⟩ | ⟨hgt, -, -, -⟩ | ⟨heq, -, -⟩
    · rw [heq] at hdown
      omega
    · omega
    · omega

theorem cut_of_legal (hsized : (l.fitSize pal adj).bind fitPlanes = some m)
    (hlegal : LegalFor pal adj st m) :
    l.maxwidth adj < l.dispx.toNat → l.has SM_CHUNKY = true ∨ l.has SM_HEDLEY = true ∨
      16 ∣ adj.xoverscan.toNat := by
  obtain ⟨hm, hx, -⟩ := sized_spec hsized
  have hhas : ∀ b, m.has b = l.has b := fun b => by rw [hm]; rfl
  have hle := minwidth_le adj l
  intro hlt
  cases hch : l.has SM_CHUNKY with
  | true => exact .inl rfl
  | false =>
      cases hhed : l.has SM_HEDLEY with
      | true => exact .inr (.inl rfl)
      | false =>
          right
          right
          have heq : m.dispx.toNat = l.maxwidth adj := by
            rcases fit_cases l.minwidth_lt hx with ⟨-, -, hhi⟩ | ⟨-, -, -, heq⟩ | ⟨-, -, hlow⟩
            · omega
            · exact heq
            · omega
          have h16 := hlegal.width16
          have h32 := hlegal.width32
          unfold maxwidth at heq
          rw [hhas] at h32
          rw [hch, hhed] at heq
          cases hhi : l.has SM_HIRES with
          | true =>
              rw [hhi] at heq
              have heq' : m.dispx.toNat = 640 + adj.xoverscan.toNat * 2 := heq
              have h32' := h32 hhi
              omega
          | false =>
              rw [hhi] at heq
              have heq' : m.dispx.toNat = 320 + adj.xoverscan.toNat := heq
              omega

theorem resolved_of_sound (hmoded : Moded adj st l)
    (hsized : (l.fitSize pal adj).bind fitPlanes = some m) (hlegal : LegalFor pal adj st m)
    (hagain : checkScrtype pal adj m = some m) :
    l.has SM_HEDLEY = true → l.has (SM_HIRES ||| SM_LORES ||| SM_CHUNKY) = true ∨
      HEDLEY_SCRWIDTH ≤ LORES_SCRWIDTH + adj.xoverscan.toNat := by
  obtain ⟨hm, -⟩ := sized_spec hsized
  have hhas : ∀ b, m.has b = l.has b := fun b => by rw [hm]; rfl
  have hfine := fine_of_sized hmoded hsized hlegal.modes
  intro hhed
  by_contra hno
  obtain ⟨hres, hnarrow⟩ := not_or.mp hno
  have hres := Bool.eq_false_iff.mpr hres
  have hresm : m.has (SM_HIRES ||| SM_LORES ||| SM_CHUNKY) = false := (hhas _).trans hres
  simp only [has_or, Bool.or_eq_false_iff] at hres
  have hwidth : 1024 ≤ m.dispx.toNat := by
    have hmin := hlegal.width.1
    unfold minwidth at hmin
    rw [hhas, hhas, hres.2, hhed] at hmin
    exact hmin
  have hhires : m.has SM_HIRES = true := by
    refine has_of_check hagain hfine.checkModes fun r hr => chooseHedley_has ?_
    obtain ⟨⟨x, rfl⟩, -⟩ := roundWidth_spec hr
    have hbig : LORES_SCRWIDTH + adj.xoverscan.toNat < m.dispx.toNat :=
      Nat.lt_of_lt_of_le (Nat.not_le.mp hnarrow) hwidth
    have hbig' : HIRES_SCRWIDTH ≤ m.dispx.toNat := Nat.le_trans (by decide) hwidth
    have hchoose : m.chooseHires adj = m.orModes SM_HIRES :=
      (if_pos ⟨by rw [hresm]; rfl, hbig⟩).trans (if_pos (.inl hbig'))
    rw [hchoose]
    change (m.orModes SM_HIRES).has SM_HIRES = true
    rw [has_orModes]
    exact Bool.or_true _
  rw [hhas, hres.1.1] at hhires
  exact absurd hhires Bool.false_ne_true

theorem raised_of_sound (hmoded : Moded adj st l)
    (hsized : (l.fitSize pal adj).bind fitPlanes = some m) (hlegal : LegalFor pal adj st m)
    (hagain : checkScrtype pal adj m = some m) :
    l.has SM_HIRES = true → l.dispx.toNat < HIRES_SCRWIDTH → adj.xoverscan.toNat = 0 →
      l.has (SM_CHUNKY ||| SM_HEDLEY ||| SM_INTERLACE ||| SM_NONHEDLEY) = true ∨
        l.may SF_LESSRES = true ∧ 2 < l.dispz.toNat ∧ l.may SF_LESSPLANES = false := by
  obtain ⟨hm, hx, -, hz⟩ := sized_spec hsized
  have hhas : ∀ b, m.has b = l.has b := fun b => by rw [hm]; rfl
  have hmay : ∀ b, m.may b = l.may b := fun b => by rw [hm]; rfl
  have hfine := fine_of_sized hmoded hsized hlegal.modes
  have hle := minwidth_le adj l
  intro hhi hlt h0
  by_contra hno
  obtain ⟨hmodes, hdepth⟩ := not_or.mp hno
  have hmodes := Bool.eq_false_iff.mpr hmodes
  simp only [has_or, Bool.or_eq_false_iff] at hmodes
  obtain ⟨⟨⟨hch, hhed⟩, hlace⟩, hnon⟩ := hmodes
  have hlores : m.has SM_LORES = false :=
    ((nonsense_eq_false m).mp hfine.sense).2.2.2.1 ((hhas _).trans hhi)
  have hmin : l.minwidth = 640 := by
    unfold minwidth
    rw [hch, hhed, hhi]
    rfl
  have hlt' : l.dispx.toNat < 640 := hlt
  obtain ⟨heq, hmore⟩ : m.dispx.toNat = 640 ∧ l.may SF_MORERES = true := by
    rcases fit_cases l.minwidth_lt hx with ⟨-, hlo, -⟩ | ⟨hgt, -, -, -⟩ | ⟨heq, hmore, -⟩
    · omega
    · omega
    · exact ⟨heq.trans hmin, hmore⟩
  have halign : Aligned m := by
    unfold Aligned
    rw [has_or, hhas SM_HIRES, hhi, Bool.true_or, heq, if_pos rfl]
    exact Nat.dvd_mul_right 32 20
  have hmdepth : m.may SF_LESSRES = false ∨ m.dispz.toNat ≤ 2 ∨ m.may SF_LESSPLANES = true := by
    rw [hmay, hmay]
    rcases hz with ⟨hc, -⟩ | ⟨-, ⟨hz, -⟩ | ⟨-, hless, -⟩⟩
    · exact absurd (hc.symm.trans hch) (by decide)
    · rw [hz]
      by_contra hall
      simp only [not_or, Bool.not_eq_false, Bool.not_eq_true, Nat.not_le] at hall
      exact hdepth hall
    · exact .inr (.inr hless)
  have hwide : Wide adj m := by
    refine ⟨.inr ⟨(hmay _).trans hmore, ?_⟩, hmdepth⟩
    change 640 + adj.xoverscan.toNat * 2 ≤ m.dispx.toNat
    omega
  have hfree : m.has (SM_INTERLACE ||| SM_LORES ||| SM_HEDLEY ||| SM_NONHEDLEY) = false := by
    simp only [has_or, hhas SM_INTERLACE, hhas SM_HEDLEY, hhas SM_NONHEDLEY, hlores, hlace, hhed,
      hnon, Bool.or_false]
  have hhedley : m.has SM_HEDLEY = true := by
    refine has_of_check hagain hfine.checkModes fun r hr => ?_
    have hself : m.chooseHires adj = m := chooseHires_self (.inl (by
      simp only [has_or, hhas SM_HIRES, hhi, Bool.true_or]))
    rw [hself, roundWidth_aligned halign] at hr
    obtain rfl := Option.some.inj hr
    rcases chooseHedley_eq adj m with ⟨-, -, heq'⟩ | ⟨hh | hw, -⟩
    · rw [heq', has_orModes]
      exact Bool.or_true _
    · exact absurd (hh.symm.trans hfree) (by decide)
    · exact absurd hwide hw
  rw [hhas, hhed] at hhedley
  exact absurd hhedley Bool.false_ne_true

/-- A request that went wrong is not legal in the end or not left alone. -/
theorem straight_of_sound (hmoded : Moded adj st l)
    (hsized : (l.fitSize pal adj).bind fitPlanes = some m) (hlegal : LegalFor pal adj st m)
    (hagain : checkScrtype pal adj m = some m) : Straight pal adj st l where
  rounded := rounded_of_legal hmoded hsized hlegal
  cut := cut_of_legal hsized hlegal
  tall := by
    have hh := hlegal.height
    rw [(sized_spec hsized).1] at hh
    exact Nat.le_trans hh.1 hh.2
  resolved := resolved_of_sound hmoded hsized hlegal hagain
  raised := raised_of_sound hmoded hsized hlegal hagain

end
end Scrtype

/-- A request is legal and stays as it is once it was accepted, if and only if
one that the checks let pass took no branch that goes wrong. -/
theorem checkScrtype_sound_iff (pal : Bool) (adj : Displayadjust) (st : Scrtype) :
    Scrtype.Sound pal adj st ↔ ∀ l, st.moded pal adj = some l → Scrtype.Passes pal adj l →
      Scrtype.Straight pal adj st l := by
  constructor
  · intro h l hl hp
    have hmoded := Scrtype.moded_spec hl
    obtain ⟨m, hm⟩ := Scrtype.sized_of_passes hmoded.fine.chunky hp
    have hcheck : checkScrtype pal adj st = some m := by
      rw [Scrtype.checkScrtype_eq, hl]
      exact hm
    obtain ⟨hlegal, hagain⟩ := h m hcheck
    exact Scrtype.straight_of_sound hmoded hm hlegal hagain
  · intro h m hcheck
    rw [Scrtype.checkScrtype_eq] at hcheck
    obtain ⟨l, hl, hm⟩ := Option.bind_eq_some_iff.mp hcheck
    have hmoded := Scrtype.moded_spec hl
    have hs := h l hl (Scrtype.passes_of_sized hm)
    exact ⟨Scrtype.legal_of_straight hmoded hm hs, (Scrtype.settled_of_straight hmoded hm hs).check⟩

/-- Without overscan a hires screen that is raised to the least width becomes a
Hedley screen when it is checked again. -/
theorem checkScrtype_not_sound :
    ¬ ∀ pal adj st, Scrtype.Sound pal adj st := by
  intro h
  have hs := (h false ⟨0, 0, 0, 0⟩ ⟨SF_MORERES, ST_AMIGA, 320, 200, 2, SM_HIRES ||| SM_NONLACE⟩
    ⟨SF_MORERES, ST_AMIGA, 640, 200, 2, SM_HIRES ||| SM_NONLACE⟩ (by rfl)).2
  have hmodes := congrArg (Option.map Scrtype.modes) hs
  exact absurd hmodes (by decide)

end HydraAmix.Console
