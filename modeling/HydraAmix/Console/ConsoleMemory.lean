import HydraAmix.Console.CopperList
import HydraAmix.Library.Ledger
import HydraAmix.Library.Schedule

/-!
# The memory of a console

`consinit` obtains the copper lists and the planes of a console, `consclose`
gives back what it finds pointers to. A block is named by its number, and the
user that the ledger knows it for is its size in bytes.
-/
namespace HydraAmix.Console
open Word Blocks Schedule Ledger

namespace ConsoleLife

abbrev MAXBPL : ℕ := 8

structure Memory where
  ledger : Ledger ℕ
  /-- How often FreeMem was told another size than AllocMem. -/
  missized : ℕ

namespace Memory
variable (m : Memory) (size : ℕ)

def empty : Memory := ⟨Ledger.empty 0, 0⟩

/-- AllocMem when there is room; the pointer is `some m.ledger.next`. -/
def AllocMem : Memory := ⟨m.ledger.alloc size, m.missized⟩

def FreeMem (p : Option ℕ) : Memory :=
  ⟨m.ledger.free p, m.missized + if ∀ b ∈ p, m.ledger.owner b = size then 0 else 1⟩

def freeEach (ps : List (Option ℕ)) : Memory := ps.foldl (FreeMem · size) m

structure Sound (held : ℕ → ℕ → ℕ) : Prop where
  balanced : m.ledger.Balanced held
  sized : m.missized = 0

end Memory

/-- What the memory of a console depends on in its screen. -/
structure Screen where
  modes : Ushort
  width : Ushort
  height : Ushort
  depth : Ushort

/-- The entries of `bpl` from MAXBPL on are what lies behind it in the console:
`c_attr` and `c_state`, `c_argc` and `c_curarg`, and the `c_args`. -/
structure Bitmap where
  width : Ushort
  height : Ushort
  depth : Ushort
  bpl : ℕ → Option ℕ

/-- `opened` and `init` are CF_OPEN and CF_INIT. -/
structure Cons where
  opened : Bool
  init : Bool
  screen : Option Screen
  copbuf0 : Option ℕ
  bitmap : Bitmap

structure System where
  console : Cons
  mem : Memory

inductive Errno where
  | ENOCSI
  | ENOMEM
  | EAGAIN
  | EEXIST
  | EINVAL
  deriving DecidableEq

abbrev console_modes : Long := 0
abbrev console_depth : Ushort := 1

namespace Screen

/-- A screen from OpenScreen. -/
def zero : Screen := ⟨0, 0, 0, 0⟩

def has (sp : Screen) (bits : Ushort) : Bool := sp.modes &&& bits ≠ 0

/-- The type of a screen that SIOCSETTYPE gave none. -/
def typed (pal : Bool) (sp : Screen) : Screen :=
  if sp.depth = 0 then
    if console_modes &&& SM_NONLACE ≠ 0 then
      ⟨Sm_HIRES, 640, if pal then 256 else 200, console_depth⟩
    else ⟨Sm_HIRES ||| Sm_ILACE, 640, if pal then 512 else 400, console_depth⟩
  else sp

def unlaced (sp : Screen) : Screen :=
  if sp.has Sm_HEDLEY then { sp with modes := sp.modes &&& ~~~Sm_ILACE } else sp

def settype (sp : Screen) (st : Scrtype) : Screen :=
  ⟨sp.modes ||| st.screenModes, st.dispx, st.dispy, st.dispz⟩

end Screen

def COPSIZE (sp : Screen) : ℕ := if sp.has Sm_HEDLEY then HEDLEY_COPSIZE else NORMAL_COPSIZE

namespace Cons
variable (cp : Cons)

def zero : Cons := ⟨false, false, none, none, ⟨0, 0, 0, fun _ => none⟩⟩

def PLANESIZE : ℕ := cp.bitmap.height.toNat * cp.bitmap.width.toNat / 8

def copsize : ℕ := (cp.screen.map fun sp => 2 * COPSIZE sp).getD 0

def planes : List (Option ℕ) := (List.range cp.bitmap.depth.toNat).map cp.bitmap.bpl

def setScreen (sp : Screen) : Cons := { cp with screen := some sp }

def setOpened (sp : Screen) : Cons := { cp with opened := true, screen := some sp }

def setBpl (bpl : ℕ → Option ℕ) : Cons := { cp with bitmap := { cp.bitmap with bpl := bpl } }

def setCopbuf (p : Option ℕ) : Cons := { cp with copbuf0 := p }

/-- The console takes the size of its bitmap from its screen. -/
def sized (sp : Screen) : Cons :=
  { cp with screen := some sp, bitmap := ⟨sp.width, sp.height, sp.depth, cp.bitmap.bpl⟩ }

/-- `c_state`, `c_attr`, `c_argc` and `c_curarg` are cleared, and the console is
marked as initialized. -/
def ready (sp : Screen) : Cons :=
  { cp with
    init := true
    screen := some sp.unlaced
    bitmap := { cp.bitmap with
      bpl := Function.update (Function.update cp.bitmap.bpl 8 none) 9 none } }

end Cons

/-- Which of the calls for a screen and for memory succeed. -/
structure Outcomes where
  screen : Bool
  copbuf : Bool
  planes : ℕ → Bool

section allocation
variable (mem : ℕ → Bool) (size : ℕ)

/-- `while (i>0) FreeMem(bpl[--i])`. -/
def freeDown (bpl : ℕ → Option ℕ) : ℕ → Memory → Memory
  | 0, m => m
  | i + 1, m => freeDown bpl i (m.FreeMem size (bpl i))

/-- The loop over the planes from the `i`-th on, `n` of them. -/
def allocPlanes : ℕ → ℕ → (ℕ → Option ℕ) → Memory → Bool × (ℕ → Option ℕ) × Memory
  | _, 0, bpl, m => (true, bpl, m)
  | i, n + 1, bpl, m =>
      if mem i then
        allocPlanes (i + 1) n (Function.update bpl i (some m.ledger.next)) (m.AllocMem size)
      else (false, Function.update bpl i none, freeDown size bpl i m)

end allocation

namespace System

def start : System := ⟨Cons.zero, Memory.empty⟩

variable (s : System)

/-- The screen of `coopen` and `consinit`, opened if there is none. -/
def chosen (screen : Bool) : Option Screen :=
  s.console.screen.or (if screen then some Screen.zero else none)

def coopen (screen : Bool) : Option Errno × System :=
  if s.console.opened then (none, s)
  else match s.chosen screen with
    | none => (some .EAGAIN, s)
    | some sp => (none, ⟨s.console.setOpened sp, s.mem⟩)

/-- The memory of `consinit`, for the console after its bitmap was sized. -/
def obtains (cp : Cons) (sp : Screen) (o : Outcomes) (m : Memory) : Option Errno × System :=
  if o.copbuf then
    let copbuf := some m.ledger.next
    match allocPlanes o.planes cp.PLANESIZE 0 cp.bitmap.depth.toNat cp.bitmap.bpl
        (m.AllocMem (2 * COPSIZE sp)) with
    | (false, bpl, m) =>
        (some .ENOMEM, ⟨(cp.setBpl bpl).setCopbuf none, m.FreeMem (2 * COPSIZE sp) copbuf⟩)
    | (true, bpl, m) => (none, ⟨((cp.setBpl bpl).setCopbuf copbuf).ready sp, m⟩)
  else (some .ENOMEM, ⟨cp.setCopbuf none, m⟩)

def consinit (pal : Bool) (o : Outcomes) : Option Errno × System :=
  match s.chosen o.screen with
  | none => (some .ENOCSI, s)
  | some sp => obtains (s.console.sized (sp.typed pal)) (sp.typed pal) o s.mem

/-- SIOCSETTYPE; whoever sends it has opened the console, and so its screen. -/
def settype (pal hedley : Bool) (adj : Displayadjust) (st : Scrtype) : Option Errno × System :=
  match s.console.screen with
  | none => (none, s)
  | some sp =>
      if s.console.init then (some .EEXIST, s)
      else match checkScrtype pal adj (if hedley then st else st.orModes SM_NONHEDLEY) with
        | none => (some .EINVAL, s)
        | some st => (none, ⟨s.console.setScreen (sp.settype st), s.mem⟩)

def consclose : System :=
  let m := match s.console.screen, s.console.copbuf0 with
    | some sp, some b => s.mem.FreeMem (2 * COPSIZE sp) (some b)
    | _, _ => s.mem
  ⟨Cons.zero, m.freeEach s.console.PLANESIZE (s.console.planes.filter Option.isSome)⟩

inductive Event where
  | coopen (screen : Bool)
  | consinit (pal : Bool) (o : Outcomes)
  | settype (pal hedley : Bool) (adj : Displayadjust) (st : Scrtype)
  | consclose

/-- `consinit` is called only while CF_INIT is clear. -/
def run : Event → Option Errno × System
  | .coopen screen => s.coopen screen
  | .consinit pal o => if s.console.init then (none, s) else s.consinit pal o
  | .settype pal hedley adj st => s.settype pal hedley adj st
  | .consclose => (none, s.consclose)

def step (s : System) (e : Event) : System := (s.run e).2

/-- The console has a pointer to the block with which it will give it back. -/
def Owns (b : ℕ) : Prop :=
  s.console.init = true ∧ some b ∈ s.console.copbuf0 :: s.console.planes

/-- No block was given back twice or with another size than its own, and those
that were not given back are owned by the console. -/
structure Accounted : Prop where
  once : ∀ b, s.mem.ledger.freed b ≤ 1
  sized : s.mem.missized = 0
  kept : ∀ b < s.mem.ledger.next, s.mem.ledger.freed b = 1 ∨ s.Owns b

/-- What a step is to do about the memory. -/
structure Keeps (e : Event) : Prop where
  accounted : (step s e).Accounted
  /-- After a failed `consinit` the console owns no block. -/
  clean : ∀ pal o errno, e = .consinit pal o → (s.run e).1 = some errno →
    ∀ b < (step s e).mem.ledger.next, (step s e).mem.ledger.freed b = 1

/-- The steps that do not reach a defect: `consinit` does not get memory for
more planes than a bitmap has room for, and a console that is not initialized
is not closed with pointers to planes left from an attempt. -/
def Allowed : Event → Prop
  | .consinit pal o => s.console.init = true ∨ ∀ sp, s.chosen o.screen = some sp →
      (sp.typed pal).depth.toNat ≤ MAXBPL ∨ o.copbuf = false ∨
        ∃ j < (sp.typed pal).depth.toNat, o.planes j = false
  | .consclose => s.console.init = true ∨ ∀ p ∈ s.console.planes, p = none
  | _ => True

/-- What the console is to give back, by its size. -/
def held : ℕ → ℕ → ℕ :=
  if s.console.init then
    also (also (fun _ _ => 0) s.console.PLANESIZE s.console.planes) s.console.copsize
      [s.console.copbuf0]
  else fun _ _ => 0

structure Inv : Prop where
  mem : s.mem.Sound s.held
  ready : s.console.init = true → s.console.screen.isSome = true
  unready : s.console.init = false → s.console.copbuf0 = none ∧
    ∀ j b, s.console.bitmap.bpl j = some b → b < s.mem.ledger.next

end System

namespace Memory
variable {m : Memory} {held : ℕ → ℕ → ℕ} {size : ℕ} {ps : List (Option ℕ)}

theorem freeEach_ledger (m : Memory) (size : ℕ) (ps : List (Option ℕ)) :
    (m.freeEach size ps).ledger = m.ledger.freeAll ps := by
  induction ps generalizing m with
  | nil => rfl
  | cons p ps ih => exact ih (m.FreeMem size p)

theorem freeEach_missized (h : ∀ b, some b ∈ ps → m.ledger.owner b = size) :
    (m.freeEach size ps).missized = m.missized := by
  induction ps generalizing m with
  | nil => rfl
  | cons p ps ih =>
      have hrest : ∀ b, some b ∈ ps → (m.FreeMem size p).ledger.owner b = size := by
        intro b hb
        change (m.ledger.free p).owner b = size
        rw [Ledger.free_owner]
        exact h b (List.mem_cons_of_mem p hb)
      have hp : ∀ b ∈ p, m.ledger.owner b = size := by
        intro b hb
        exact h b (List.mem_cons.mpr (.inl (Option.mem_def.mp hb).symm))
      have hone : (m.FreeMem size p).missized = m.missized := by
        unfold FreeMem
        rw [if_pos hp]
        rfl
      exact (ih hrest).trans hone

theorem Sound.AllocMem (h : m.Sound held) (size : ℕ) :
    (m.AllocMem size).Sound (also held size [some m.ledger.next]) :=
  ⟨h.balanced.allocOne size, h.sized⟩

theorem Sound.freeEach (h : m.Sound (also held size ps)) : (m.freeEach size ps).Sound held := by
  constructor
  · rw [freeEach_ledger]
    exact h.balanced.release
  · rw [freeEach_missized fun b hb => (h.balanced.own_also hb).2]
    exact h.sized

theorem Sound.FreeMem {p : Option ℕ} (h : m.Sound (also held size [p])) :
    (m.FreeMem size p).Sound held :=
  Sound.freeEach h

theorem freeDown_eq (bpl : ℕ → Option ℕ) (i : ℕ) (m : Memory) :
    freeDown size bpl i m = m.freeEach size ((List.range i).map bpl).reverse := by
  induction i generalizing m with
  | zero => rfl
  | succ i ih =>
      rw [freeDown, ih, List.range_succ, List.map_append, List.reverse_append]
      rfl

end Memory

section allocation
variable {mem : ℕ → Bool} {size : ℕ} {held : ℕ → ℕ → ℕ} {m : Memory}

/-- The loop over the planes either holds all of them or gives all of them back. -/
theorem allocPlanes_sound (mem : ℕ → Bool) (i n : ℕ) (bpl : ℕ → Option ℕ)
    (h : m.Sound (also held size ((List.range i).map bpl))) :
    match allocPlanes mem size i n bpl m with
    | (true, bpl', m') => m'.Sound (also held size ((List.range (i + n)).map bpl'))
    | (false, _, m') => m'.Sound held := by
  induction n generalizing i bpl m with
  | zero => exact h
  | succ n ih =>
      rw [allocPlanes]
      split_ifs with hm
      · have hone := h.AllocMem size
        rw [also_append, ← map_range_update] at hone
        have hrest := ih (i + 1) _ hone
        rwa [Nat.succ_add_eq_add_succ] at hrest
      · rw [Memory.freeDown_eq]
        refine Memory.Sound.freeEach ⟨h.balanced.congr fun j b => ?_, h.sized⟩
        unfold also
        rw [List.count_reverse]

/-- Every pointer to a plane, also one left behind, points to a block. -/
theorem allocPlanes_left (size : ℕ) (mem : ℕ → Bool) (i n : ℕ) {bpl : ℕ → Option ℕ}
    (h : ∀ j b, bpl j = some b → b < m.ledger.next) :
    ∀ j b, (allocPlanes mem size i n bpl m).2.1 j = some b →
      b < (allocPlanes mem size i n bpl m).2.2.ledger.next := by
  induction n generalizing i bpl m with
  | zero => exact h
  | succ n ih =>
      rw [allocPlanes]
      split_ifs with hm
      · refine ih (i + 1) fun j b hj => ?_
        by_cases hji : j = i
        · rw [hji, Function.update_self] at hj
          obtain rfl := Option.some.inj hj
          exact Nat.lt_succ_self _
        · rw [Function.update_of_ne hji] at hj
          exact Nat.lt_succ_of_lt (h j b hj)
      · intro j b hj
        dsimp only at hj ⊢
        rw [Memory.freeDown_eq, Memory.freeEach_ledger, Ledger.freeAll_next]
        by_cases hji : j = i
        · rw [hji, Function.update_self] at hj
          cases hj
        · rw [Function.update_of_ne hji] at hj
          exact h j b hj

/-- The loop comes to its end if and only if there is memory for every plane. -/
theorem allocPlanes_iff (size : ℕ) (mem : ℕ → Bool) (i n : ℕ) (bpl : ℕ → Option ℕ) (m : Memory) :
    (allocPlanes mem size i n bpl m).1 = true ↔ ∀ j < n, mem (i + j) = true := by
  induction n generalizing i bpl m with
  | zero => exact iff_of_true rfl fun j hj => absurd hj (Nat.not_lt_zero j)
  | succ n ih =>
      rw [allocPlanes]
      split_ifs with hm
      · rw [ih]
        constructor
        · intro h j hj
          cases j with
          | zero => exact hm
          | succ j =>
              rw [Nat.add_succ, ← Nat.succ_add]
              exact h j (Nat.lt_of_succ_lt_succ hj)
        · intro h j hj
          rw [Nat.succ_add, ← Nat.add_succ]
          exact h (j + 1) (Nat.succ_lt_succ hj)
      · exact iff_of_false id fun h => hm (h 0 (Nat.succ_pos n))

/-- Where there is memory for every plane, the planes are the next blocks. -/
theorem allocPlanes_all (size : ℕ) (mem : ℕ → Bool) (i n : ℕ) (bpl : ℕ → Option ℕ) (m : Memory)
    (h : ∀ j < n, mem (i + j) = true) :
    (∀ j < n, (allocPlanes mem size i n bpl m).2.1 (i + j) = some (m.ledger.next + j)) ∧
      (∀ j < i, (allocPlanes mem size i n bpl m).2.1 j = bpl j) ∧
      (allocPlanes mem size i n bpl m).2.2.ledger.next = m.ledger.next + n ∧
      (allocPlanes mem size i n bpl m).2.2.ledger.freed = m.ledger.freed := by
  induction n generalizing i bpl m with
  | zero => exact ⟨fun j hj => absurd hj (Nat.not_lt_zero j), fun _ _ => rfl, rfl, rfl⟩
  | succ n ih =>
      have hm : mem i = true := h 0 (Nat.succ_pos n)
      have hrest : ∀ j < n, mem (i + 1 + j) = true := by
        intro j hj
        rw [Nat.succ_add, ← Nat.add_succ]
        exact h (j + 1) (Nat.succ_lt_succ hj)
      rw [allocPlanes, if_pos hm]
      obtain ⟨hnew, hold, hnext, hfreed⟩ :=
        ih (i + 1) (Function.update bpl i (some m.ledger.next)) (m.AllocMem size) hrest
      refine ⟨fun j hj => ?_, fun j hj => ?_, ?_, hfreed⟩
      · cases j with
        | zero => exact (hold i (Nat.lt_succ_self i)).trans (Function.update_self ..)
        | succ j =>
            have hj' := hnew j (Nat.lt_of_succ_lt_succ hj)
            rw [Nat.succ_add, ← Nat.add_succ] at hj'
            rw [hj']
            change some (m.ledger.next + 1 + j) = _
            rw [Nat.succ_add, Nat.add_succ]
      · rw [hold j (Nat.lt_succ_of_lt hj), Function.update_of_ne (Nat.ne_of_lt hj)]
      · rw [hnext]
        exact Nat.succ_add_eq_add_succ m.ledger.next n

end allocation

theorem Screen.COPSIZE_unlaced (sp : Screen) : COPSIZE sp.unlaced = COPSIZE sp := by
  unfold Screen.unlaced
  split_ifs with hh
  · have hmask : ~~~Sm_ILACE &&& Sm_HEDLEY = Sm_HEDLEY := by decide
    unfold COPSIZE Screen.has
    rw [BitVec.and_assoc, hmask]
  · rfl

namespace System
variable {s : System}

/-! ### What one step does -/

theorem chosen_of_screen {sp : Screen} (h : s.console.screen = some sp) (screen : Bool) :
    s.chosen screen = some sp := by
  rw [chosen, h]
  rfl

/-- While the console is not initialized, nothing is to be given back. -/
theorem held_of_not_init (hi : s.console.init = false) : s.held = fun _ _ => 0 := by
  rw [held, hi]
  exact if_neg Bool.false_ne_true

theorem held_of_init (hi : s.console.init = true) :
    s.held = also (also (fun _ _ => 0) s.console.PLANESIZE s.console.planes) s.console.copsize
      [s.console.copbuf0] := by
  rw [held, if_pos hi]

/-- A console that is not initialized, after a step that leaves its pointers. -/
theorem Inv.of_not_init {cp : Cons} {m : Memory} (hm : m.Sound fun _ _ => 0)
    (hi : cp.init = false) (hc : cp.copbuf0 = none)
    (hp : ∀ j b, cp.bitmap.bpl j = some b → b < m.ledger.next) : Inv ⟨cp, m⟩ := by
  refine ⟨?_, fun h => absurd (hi.symm.trans h) Bool.false_ne_true, fun _ => ⟨hc, hp⟩⟩
  rw [held_of_not_init hi]
  exact hm

theorem Inv.sound (h : Inv s) (hi : s.console.init = false) : s.mem.Sound fun _ _ => 0 := by
  have hm := h.mem
  rwa [held_of_not_init hi] at hm

theorem start_inv : Inv start :=
  Inv.of_not_init ⟨Ledger.balanced_empty 0, rfl⟩ rfl rfl fun _ _ h => by cases h

theorem Inv.coopen (h : Inv s) (screen : Bool) : Inv (s.coopen screen).2 := by
  unfold System.coopen
  split_ifs with ho
  · exact h
  · cases hsp : s.chosen screen with
    | none => exact h
    | some sp =>
        cases hi : s.console.init with
        | false => exact Inv.of_not_init (h.sound hi) hi (h.unready hi).1 (h.unready hi).2
        | true =>
            obtain ⟨sp', hsp'⟩ := Option.isSome_iff_exists.mp (h.ready hi)
            obtain rfl := Option.some.inj ((chosen_of_screen hsp' screen).symm.trans hsp)
            have heq : held ⟨s.console.setOpened sp', s.mem⟩ = s.held := by
              rw [held_of_init hi, held_of_init (s := ⟨s.console.setOpened sp', s.mem⟩) hi,
                Cons.copsize, Cons.copsize, hsp']
              rfl
            refine ⟨?_, fun _ => rfl, fun hi' => absurd (hi.symm.trans hi') (by decide)⟩
            change s.mem.Sound (held ⟨s.console.setOpened sp', s.mem⟩)
            rw [heq]
            exact h.mem

theorem Inv.settype (h : Inv s) (pal hedley : Bool) (adj : Displayadjust) (st : Scrtype) :
    Inv (s.settype pal hedley adj st).2 := by
  unfold System.settype
  cases s.console.screen with
  | none => exact h
  | some sp =>
      cases hi : s.console.init with
      | true => exact h
      | false =>
          cases checkScrtype pal adj (if hedley then st else st.orModes SM_NONHEDLEY) with
          | none => exact h
          | some st => exact Inv.of_not_init (h.sound hi) hi (h.unready hi).1 (h.unready hi).2

/-- `consclose` gives back what the console holds. -/
theorem consclose_mem (h : Inv s)
    (ha : s.console.init = true ∨ ∀ p ∈ s.console.planes, p = none) :
    s.consclose.mem.Sound fun _ _ => 0 := by
  cases hi : s.console.init with
  | false =>
      have hplanes : s.console.planes.filter Option.isSome = [] := by
        rw [List.filter_eq_nil_iff]
        intro p hp
        rw [ha.resolve_left (by rw [hi]; decide) p hp]
        decide
      unfold System.consclose
      rw [(h.unready hi).1, hplanes]
      split
      · next hc => cases hc
      · exact h.sound hi
  | true =>
      obtain ⟨sp, hsp⟩ := Option.isSome_iff_exists.mp (h.ready hi)
      have hm := h.mem
      rw [held_of_init hi, Cons.copsize, hsp] at hm
      unfold System.consclose
      rw [hsp]
      refine Memory.Sound.freeEach ?_
      rw [also_filter]
      cases hc : s.console.copbuf0 with
      | none =>
          rw [hc, also_none] at hm
          exact hm
      | some b =>
          rw [hc] at hm
          exact hm.FreeMem

theorem Inv.consclose (h : Inv s)
    (ha : s.console.init = true ∨ ∀ p ∈ s.console.planes, p = none) : Inv s.consclose :=
  Inv.of_not_init (consclose_mem h ha) rfl rfl fun _ _ h => by cases h

/-- As long as the bitmap has room, clearing the fields behind it leaves the planes. -/
theorem planes_ready {cp : Cons} (h : cp.bitmap.depth.toNat ≤ MAXBPL) (sp : Screen)
    (bpl : ℕ → Option ℕ) (p : Option ℕ) : (((cp.setBpl bpl).setCopbuf p).ready sp).planes =
      (List.range cp.bitmap.depth.toNat).map bpl := by
  refine List.map_congr_left fun j hj => ?_
  have hlt : j < cp.bitmap.depth.toNat := List.mem_range.mp hj
  change cp.bitmap.depth.toNat ≤ 8 at h
  change Function.update (Function.update bpl 8 none) 9 none j = bpl j
  rw [Function.update_of_ne (by omega), Function.update_of_ne (by omega)]

/-- What an attempt at the memory comes to, as long as the bitmap has room. -/
structure Obtained (r : Option Errno × System) : Prop where
  inv : Inv r.2
  failed : r.1 ≠ none → r.2.console.init = false

theorem obtains_obtained {cp : Cons} {sp : Screen} {o : Outcomes} {m : Memory}
    (hm : m.Sound fun _ _ => 0) (hi : cp.init = false)
    (hp : ∀ j b, cp.bitmap.bpl j = some b → b < m.ledger.next)
    (hok : cp.bitmap.depth.toNat ≤ MAXBPL ∨ o.copbuf = false ∨
      ∃ j < cp.bitmap.depth.toNat, o.planes j = false) : Obtained (obtains cp sp o m) := by
  unfold obtains
  split_ifs with hc
  · have hone := hm.AllocMem (2 * COPSIZE sp)
    have hstart : (m.AllocMem (2 * COPSIZE sp)).Sound
        (also (also (fun _ _ => 0) (2 * COPSIZE sp) [some m.ledger.next]) cp.PLANESIZE
          ((List.range 0).map cp.bitmap.bpl)) := by
      rw [List.range_zero, List.map_nil, also_nil]
      exact hone
    have hplanes := allocPlanes_sound o.planes 0 cp.bitmap.depth.toNat cp.bitmap.bpl hstart
    have hleft := allocPlanes_left cp.PLANESIZE o.planes 0 cp.bitmap.depth.toNat
      (m := m.AllocMem (2 * COPSIZE sp)) fun j b hj => Nat.lt_succ_of_lt (hp j b hj)
    have hiff := allocPlanes_iff cp.PLANESIZE o.planes 0 cp.bitmap.depth.toNat
      cp.bitmap.bpl (m.AllocMem (2 * COPSIZE sp))
    revert hplanes hleft hiff
    generalize allocPlanes o.planes cp.PLANESIZE 0 cp.bitmap.depth.toNat cp.bitmap.bpl
      (m.AllocMem (2 * COPSIZE sp)) = r
    obtain ⟨ok, bpl, m'⟩ := r
    intro hplanes hleft hiff
    cases ok with
    | false =>
        refine ⟨Inv.of_not_init (Memory.Sound.FreeMem hplanes) hi rfl fun j b hj => ?_, fun _ => hi⟩
        have hlt := hleft j b hj
        change b < (m'.ledger.free _).next
        rwa [Ledger.free_next]
    | true =>
        have hall := hiff.mp rfl
        have hroom : cp.bitmap.depth.toNat ≤ MAXBPL := by
          rcases hok with hle | hf | ⟨j, hj, hf⟩
          · exact hle
          · exact absurd (hc.symm.trans hf) (by decide)
          · rw [← Nat.zero_add j, hall j hj] at hf
            exact absurd hf (by decide)
        refine ⟨⟨?_, fun _ => rfl,
          fun h => absurd (show true = false from h) (by decide)⟩, fun h => absurd rfl h⟩
        rw [held_of_init rfl]
        have hcop : Cons.copsize (((cp.setBpl bpl).setCopbuf (some m.ledger.next)).ready sp) =
            2 * COPSIZE sp := congrArg (2 * ·) sp.COPSIZE_unlaced
        change m'.Sound (also (also _ cp.PLANESIZE (((cp.setBpl bpl).setCopbuf
          (some m.ledger.next)).ready sp).planes) _ [some m.ledger.next])
        rw [planes_ready hroom, hcop, also_comm]
        rwa [Nat.zero_add] at hplanes
  · exact ⟨Inv.of_not_init hm hi rfl hp, fun _ => hi⟩

/-- With more planes than `bpl` has room for, the console loses the ninth of them. -/
theorem obtains_lost {cp : Cons} {sp : Screen} {o : Outcomes} {m : Memory}
    (hm : m.Sound fun _ _ => 0) (hc : o.copbuf = true)
    (hall : ∀ j < cp.bitmap.depth.toNat, o.planes (0 + j) = true)
    (hd : MAXBPL < cp.bitmap.depth.toNat) : ¬ (obtains cp sp o m).2.Accounted := by
  have hok := (allocPlanes_iff cp.PLANESIZE o.planes 0 cp.bitmap.depth.toNat
    cp.bitmap.bpl (m.AllocMem (2 * COPSIZE sp))).mpr hall
  have hnew := allocPlanes_all cp.PLANESIZE o.planes 0 cp.bitmap.depth.toNat
    cp.bitmap.bpl (m.AllocMem (2 * COPSIZE sp)) hall
  unfold obtains
  rw [if_pos hc]
  revert hok hnew
  generalize allocPlanes o.planes cp.PLANESIZE 0 cp.bitmap.depth.toNat cp.bitmap.bpl
    (m.AllocMem (2 * COPSIZE sp)) = r
  obtain ⟨ok, bpl, m'⟩ := r
  rintro rfl ⟨hbpl, -, hnext, hfreed⟩ hacc
  change 8 < cp.bitmap.depth.toNat at hd
  change m'.ledger.next = m.ledger.next + 1 + cp.bitmap.depth.toNat at hnext
  have hlt : m.ledger.next + 9 < m'.ledger.next := by omega
  rcases hacc.kept _ hlt with hf | ⟨-, hown⟩
  · change m'.ledger.freed (m.ledger.next + 9) = 1 at hf
    rw [hfreed] at hf
    exact absurd ((hm.balanced.fresh _ (by omega)).symm.trans hf) (by decide)
  · rcases List.mem_cons.mp hown with hcop | hplane
    · have hnum : m.ledger.next + 9 = m.ledger.next := Option.some.inj hcop
      omega
    · obtain ⟨j, hj, hval⟩ := List.mem_map.mp hplane
      have hj : j < cp.bitmap.depth.toNat := List.mem_range.mp hj
      change Function.update (Function.update bpl 8 none) 9 none j = some _ at hval
      have hj9 : j ≠ 9 := by
        rintro rfl
        rw [Function.update_self] at hval
        cases hval
      rw [Function.update_of_ne hj9] at hval
      have hj8 : j ≠ 8 := by
        rintro rfl
        rw [Function.update_self] at hval
        cases hval
      have hblock := hbpl j hj
      rw [Nat.zero_add] at hblock
      rw [Function.update_of_ne hj8] at hval
      have hnum : m.ledger.next + 1 + j = m.ledger.next + 9 :=
        Option.some.inj (hblock.symm.trans hval)
      omega

theorem consinit_obtained (h : Inv s) (hi : s.console.init = false) (pal : Bool) (o : Outcomes)
    (ha : ∀ sp, s.chosen o.screen = some sp → (sp.typed pal).depth.toNat ≤ MAXBPL ∨
      o.copbuf = false ∨ ∃ j < (sp.typed pal).depth.toNat, o.planes j = false) :
    Obtained (s.consinit pal o) := by
  unfold System.consinit
  cases hsp : s.chosen o.screen with
  | none => exact ⟨h, fun _ => hi⟩
  | some sp => exact obtains_obtained (h.sound hi) hi (h.unready hi).2 (ha sp hsp)

theorem Inv.step (h : Inv s) {e : Event} (ha : s.Allowed e) : Inv (System.step s e) := by
  cases e with
  | coopen screen => exact h.coopen screen
  | consinit pal o =>
      unfold System.step run
      cases hi : s.console.init with
      | true => exact h
      | false => exact (consinit_obtained h hi pal o (ha.resolve_left (by rw [hi]; decide))).inv
  | settype pal hedley adj st => exact h.settype pal hedley adj st
  | consclose => exact h.consclose ha

theorem Inv.accounted (h : Inv s) : s.Accounted where
  once := h.mem.balanced.freed_le_one
  sized := h.mem.sized
  kept b hb := by
    have honce := h.mem.balanced.once b hb
    cases hi : s.console.init with
    | false =>
        rw [held_of_not_init hi] at honce
        exact .inl honce
    | true =>
        by_cases hown : some b ∈ s.console.copbuf0 :: s.console.planes
        · exact .inr ⟨hi, hown⟩
        · left
          rw [List.mem_cons, not_or] at hown
          obtain ⟨hcop, hplanes⟩ := hown
          have hone : [s.console.copbuf0].count (some b) = 0 :=
            List.count_eq_zero.mpr fun hc => hcop (List.mem_singleton.mp hc)
          rw [held_of_init hi, also, also, hone, List.count_eq_zero.mpr hplanes] at honce
          simpa using honce

/-- A console that is not initialized owns no block. -/
theorem Accounted.clean (h : s.Accounted) (hi : s.console.init = false) {b : ℕ}
    (hb : b < s.mem.ledger.next) : s.mem.ledger.freed b = 1 :=
  (h.kept b hb).resolve_right fun hown => absurd (hi.symm.trans hown.1) (by decide)

/-- A console that is not initialized and has a pointer to a plane frees it again. -/
theorem consclose_twice (h : Inv s) (hi : s.console.init = false) {b : ℕ}
    (hb : some b ∈ s.console.planes) : ¬ s.consclose.Accounted := by
  intro hacc
  obtain ⟨j, -, hj⟩ := List.mem_map.mp hb
  have hfreed : s.mem.ledger.freed b = 1 := h.accounted.clean hi ((h.unready hi).2 j b hj)
  have honce := hacc.once b
  unfold System.consclose at honce
  rw [(h.unready hi).1] at honce
  have hmem : (s.mem.freeEach s.console.PLANESIZE
      (s.console.planes.filter Option.isSome)).ledger.freed b ≤ 1 := by
    revert honce
    cases s.console.screen <;> exact id
  have hcount : 0 < (s.console.planes.filter Option.isSome).count (some b) :=
    List.count_pos_iff.mpr (List.mem_filter.mpr ⟨hb, rfl⟩)
  rw [Memory.freeEach_ledger, Ledger.freeAll_freed, hfreed] at hmem
  omega

theorem keeps_iff (h : Inv s) (e : Event) : s.Keeps e ↔ s.Allowed e := by
  constructor
  · intro hk
    have hacc := hk.accounted
    cases e with
    | coopen screen => trivial
    | settype pal hedley adj st => trivial
    | consclose =>
        cases hi : s.console.init with
        | true => exact .inl hi
        | false =>
            refine .inr fun p hp => ?_
            cases p with
            | none => rfl
            | some b => exact absurd hacc (consclose_twice h hi hp)
    | consinit pal o =>
        cases hi : s.console.init with
        | true => exact .inl hi
        | false =>
            refine .inr fun sp hsp => ?_
            by_contra hbad
            rw [not_or, not_or, Nat.not_le] at hbad
            obtain ⟨hd, hc, hall⟩ := hbad
            have hlost : ¬ (obtains (s.console.sized (sp.typed pal)) (sp.typed pal) o
                s.mem).2.Accounted := by
              refine obtains_lost (h.sound hi) (Bool.ne_false_iff.mp hc) ?_ hd
              intro j hj
              rw [Nat.zero_add]
              exact Bool.ne_false_iff.mp fun hf => hall ⟨j, hj, hf⟩
            change (if s.console.init then (none, s) else s.consinit pal o).2.Accounted at hacc
            rw [hi, if_neg Bool.false_ne_true, System.consinit, hsp] at hacc
            exact hlost hacc
  · intro ha
    refine ⟨(h.step ha).accounted, fun pal o errno he hf b hb => ?_⟩
    subst he
    refine (h.step ha).accounted.clean ?_ hb
    unfold System.step
    unfold run at hf ⊢
    cases hi : s.console.init with
    | true =>
        rw [hi] at hf
        cases hf
    | false =>
        rw [hi] at hf
        refine (consinit_obtained h hi pal o (ha.resolve_left (by rw [hi]; decide))).failed ?_
        exact ne_of_eq_of_ne hf (Option.some_ne_none errno)

/-- Exactly the runs whose steps are all allowed give every block back once and
with its size, and leave nothing to a console after a failed `consinit`. -/
theorem console_memory_freed_once (es : List Event) :
    Every System.step Keeps start es ↔ Every System.step Allowed start es :=
  every_iff Inv (fun _ _ h ha => h.step ha) (fun _ e h => keeps_iff h e) start_inv es

/-- The second plane of two cannot be had, and the console is closed. -/
def halfway : List Event :=
  [.coopen true,
    .settype true false ⟨0, 0, 0, 0⟩ ⟨0, ST_AMIGA, 640, 256, 2, SM_HIRES⟩,
    .consinit true ⟨true, true, fun j => j == 0⟩, .consclose]

theorem console_memory_freed_once_fails :
    ¬ Every System.step Keeps start halfway ∧
      (final System.step start halfway).mem.ledger.freed 1 = 2 := by
  have htwice : (final System.step start halfway).mem.ledger.freed 1 = 2 := by decide
  refine ⟨fun h => ?_, htwice⟩
  have hlast := h.2.2.2.1.accounted.once 1
  change (final System.step start halfway).mem.ledger.freed 1 ≤ 1 at hlast
  rw [htwice] at hlast
  exact absurd hlast (by decide)

end System
end ConsoleLife
end HydraAmix.Console
