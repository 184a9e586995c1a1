import HydraAmix.Console.BitmapMap
import HydraAmix.Library.Ledger
import HydraAmix.Library.Schedule

/-!
# The life of a screen device

`scropen` may sleep in AllocMem, the ioctls may sleep while they copy their
argument in, and `scrclose` may sleep in CloseScreen. A process is in the
middle of a call there, and the others go on. Blocks of memory are numbered in
the order in which they are obtained, and a pointer is the number of a block.
-/
namespace HydraAmix.Console
open Word Blocks Schedule

abbrev CLONEDEV : ℕ := 0xff
abbrev NSCRDEV : ℕ := 16
abbrev MAXBPL : ℕ := 8

namespace DeviceLife

structure Bitmap where
  active : Bool
  chunky : Bool
  width : Ushort
  height : Ushort
  depth : Ushort
  bpl : ℕ → Option ℕ

/-- A device and, of its screen, what the bitmaps are compared with. -/
structure Scrdev where
  opened : Bool
  type : Ushort
  width : Ushort
  height : Ushort
  bmap : Option (Fin MAXBM)
  bitmap : Fin MAXBM → Bitmap
  copbuf0 : Option ℕ
  copbuf1 : Option ℕ
  ielist : Option ℕ

/-- What a process that sleeps in a call goes on with. -/
inductive Call where
  | idle
  | scropen (d : Fin NSCRDEV) (clone : Bool)
  | settype (d : Fin NSCRDEV)
  | allocbmap (d : Fin NSCRDEV)
  | scrclose (d : Fin NSCRDEV)

structure System where
  dev : Fin NSCRDEV → Scrdev
  call : ℕ → Call
  /-- The clone opens of a device that succeeded since it was last closed. -/
  clones : Fin NSCRDEV → ℕ
  mem : Ledger (Fin NSCRDEV)

inductive Outcome where
  | sleeps
  | ok
  | error
  deriving DecidableEq

def Bitmap.zero : Bitmap := ⟨false, false, 0, 0, 0, fun _ => none⟩

def Scrdev.zero : Scrdev := ⟨false, 0, 0, 0, none, fun _ => Bitmap.zero, none, none, none⟩

section allocation
variable (mem : ℕ → Bool) (d : Fin NSCRDEV)

/-- `while (i>0) FreeMem(bpl[--i])`. -/
def freeDown (bpl : ℕ → Option ℕ) : ℕ → Ledger (Fin NSCRDEV) → Ledger (Fin NSCRDEV)
  | 0, l => l
  | i + 1, l => freeDown bpl i (l.free (bpl i))

/-- The loop over the planes from the `i`-th on, `n` of them. -/
def allocPlanes : ℕ → ℕ → (ℕ → Option ℕ) → Ledger (Fin NSCRDEV) →
    Bool × (ℕ → Option ℕ) × Ledger (Fin NSCRDEV)
  | _, 0, bpl, l => (true, bpl, l)
  | i, n + 1, bpl, l =>
      if mem i then allocPlanes (i + 1) n (Function.update bpl i (some l.next)) (l.alloc d)
      else (false, bpl, freeDown bpl i l)

/-- `true` is the zero return. -/
def allocbmap (type : Ushort) (bp : Bitmap) (l : Ledger (Fin NSCRDEV)) :
    Bool × Bitmap × Ledger (Fin NSCRDEV) :=
  if type ≠ 1 then (false, bp, l)
  else if 8 < bp.depth.toNat then
    if mem 0 then
      (true, { bp with
        active := true, chunky := true, bpl := Function.update bp.bpl 0 (some l.next) }, l.alloc d)
    else (false, bp, l)
  else match allocPlanes mem d 0 bp.depth.toNat bp.bpl l with
    | (true, bpl, l) => (true, { bp with active := true, chunky := false, bpl := bpl }, l)
    | (false, bpl, l) => (false, { bp with bpl := bpl }, l)

end allocation

/-- The planes that `freebmap` gives back. -/
def Bitmap.planes (bp : Bitmap) : List (Option ℕ) :=
  if bp.chunky then [bp.bpl 0] else (List.range bp.depth.toNat).map bp.bpl

def Bitmap.held (bp : Bitmap) : List (Option ℕ) := if bp.active then bp.planes else []

/-- The memory that the device is to give back. -/
def Scrdev.blocks (dp : Scrdev) : List (Option ℕ) :=
  ((List.finRange MAXBM).flatMap fun i => (dp.bitmap i).held) ++
    ((if dp.copbuf0.isSome then [dp.copbuf0] else []) ++ [dp.ielist])

/-- What `scrclose` gives back after CloseScreen. -/
def Scrdev.closes (dp : Scrdev) : List (Option ℕ) :=
  ((List.finRange MAXBM).flatMap fun i =>
      if (dp.bitmap i).active ∧ dp.type = 1 then (dp.bitmap i).planes else []) ++
    ((if dp.copbuf0.isSome then [dp.copbuf0] else []) ++ [dp.ielist])

def Scrdev.setBitmap (dp : Scrdev) (i : Fin MAXBM) (bp : Bitmap) : Scrdev :=
  { dp with bitmap := Function.update dp.bitmap i bp }

def Scrdev.freeSlot (dp : Scrdev) : Option (Fin MAXBM) :=
  (List.finRange MAXBM).find? fun i => !(dp.bitmap i).active

namespace System

def start : System :=
  ⟨fun _ => Scrdev.zero, fun _ => .idle, fun _ => 0, Ledger.empty 0⟩

variable (s : System)

def setDev (d : Fin NSCRDEV) (dp : Scrdev) : System :=
  { s with dev := Function.update s.dev d dp }

def setCall (p : ℕ) (c : Call) : System := { s with call := Function.update s.call p c }

def setMem (l : Ledger (Fin NSCRDEV)) : System := { s with mem := l }

def setClones (d : Fin NSCRDEV) (n : ℕ) : System :=
  { s with clones := Function.update s.clones d n }

/-- The first minor without flags. -/
def freeMinor : Option (Fin NSCRDEV) :=
  (List.finRange NSCRDEV).find? fun d => !(s.dev d).opened

/-- `scropen` up to the point where AllocMem may sleep. -/
def scropen (p minor : ℕ) : Outcome × System :=
  if minor = CLONEDEV then
    match s.freeMinor with
    | none => (.error, s)
    | some d => (.sleeps, s.setCall p (.scropen d true))
  else if h : minor < NSCRDEV then
    if (s.dev ⟨minor, h⟩).opened then (.ok, s)
    else (.sleeps, s.setCall p (.scropen ⟨minor, h⟩ false))
  else (.error, s)

/-- The rest of `scropen`; `mem` and `screen` tell whether AllocMem and
OpenScreen succeed. -/
def scropenMem (d : Fin NSCRDEV) (clone mem screen : Bool) : Outcome × System :=
  let dp := { s.dev d with ielist := if mem then some s.mem.next else none }
  let s := s.setMem (if mem then s.mem.alloc d else s.mem)
  if screen then
    (.ok, (s.setDev d { dp with opened := true, width := 0, height := 0, bmap := none }).setClones d
      (s.clones d + if clone then 1 else 0))
  else (.error, s.setDev d dp)

/-- SIOCSETTYPE after its argument was copied in, or not. -/
def settypeCopied (d : Fin NSCRDEV) (pal hedley : Bool) (adj : Displayadjust)
    (st : Option Scrtype) (mem : Bool) : Outcome × System :=
  match st.bind fun st =>
      checkScrtype pal adj (if hedley then st else st.orModes SM_NONHEDLEY) with
  | none => (.error, s)
  | some st =>
      let dp := { s.dev d with width := st.dispx, height := st.dispy, type := st.type }
      if mem then
        (.ok, (s.setDev d { dp with
          copbuf0 := some s.mem.next, copbuf1 := some s.mem.next }).setMem (s.mem.alloc d))
      else (.error, s.setDev d { dp with copbuf0 := none })

/-- SIOCALLOCBMAP after its argument was copied in, or not. -/
def allocbmapCopied (d : Fin NSCRDEV) (bmap : Option Bmap) (mem : ℕ → Bool) :
    Outcome × System :=
  match bmap with
  | none => (.error, s)
  | some bmap =>
      if bmap.flags ≠ 0 then (.error, s)
      else match (s.dev d).freeSlot with
        | none => (.error, s)
        | some i =>
            let r := allocbmap mem d (s.dev d).type { (s.dev d).bitmap i with
              width := bmap.bmapx, height := bmap.bmapy, depth := bmap.bmapz } s.mem
            (if r.1 then .ok else .error, (s.setDev d ((s.dev d).setBitmap i r.2.1)).setMem r.2.2)

/-- SIOCSELBMAP; the screen of a device is never chunky. -/
def siocselbmap (d : Fin NSCRDEV) (arg : Long) : Outcome × System :=
  let dp := s.dev d
  if h : (arg &&& 0xff).toNat < MAXBM then
    let bp := dp.bitmap ⟨_, h⟩
    if dp.type = 0 ∨ bp.active = false ∨ bp.width ≠ dp.width ∨ bp.height ≠ dp.height ∨
        MAXBPL < bp.depth.toNat then (.error, s)
    else (.ok, s.setDev d { dp with bmap := some ⟨_, h⟩ })
  else (.error, s)

/-- `scrclose` after CloseScreen. -/
def scrcloseWaited (d : Fin NSCRDEV) : Outcome × System :=
  (.ok, ((s.setMem (s.mem.freeAll (s.dev d).closes)).setDev d Scrdev.zero).setClones d 0)

/-- A process calls the driver, or goes on with its call. -/
inductive Event where
  | scropen (p minor : ℕ)
  | scropenMem (p : ℕ) (mem screen : Bool)
  | settype (p : ℕ) (d : Fin NSCRDEV)
  | settypeCopied (p : ℕ) (pal hedley : Bool) (adj : Displayadjust) (st : Option Scrtype)
      (mem : Bool)
  | allocbmap (p : ℕ) (d : Fin NSCRDEV)
  | allocbmapCopied (p : ℕ) (bmap : Option Bmap) (mem : ℕ → Bool)
  | selbmap (p : ℕ) (d : Fin NSCRDEV) (arg : Long)
  | scrclose (p : ℕ) (d : Fin NSCRDEV)
  | scrcloseWaited (p : ℕ)

/-- A call of a process that is not in another one. -/
def begin (p : ℕ) (r : Outcome × System) : Outcome × System :=
  match s.call p with
  | .idle => r
  | _ => (.sleeps, s)

def run : Event → Outcome × System
  | .scropen p minor => s.begin p (s.scropen p minor)
  | .scropenMem p mem screen =>
      match s.call p with
      | .scropen d clone => (s.setCall p .idle).scropenMem d clone mem screen
      | _ => (.sleeps, s)
  | .settype p d =>
      s.begin p (if (s.dev d).type ≠ 0 then (.error, s) else (.sleeps, s.setCall p (.settype d)))
  | .settypeCopied p pal hedley adj st mem =>
      match s.call p with
      | .settype d => (s.setCall p .idle).settypeCopied d pal hedley adj st mem
      | _ => (.sleeps, s)
  | .allocbmap p d =>
      s.begin p (if (s.dev d).type = 0 then (.error, s) else (.sleeps, s.setCall p (.allocbmap d)))
  | .allocbmapCopied p bmap mem =>
      match s.call p with
      | .allocbmap d => (s.setCall p .idle).allocbmapCopied d bmap mem
      | _ => (.sleeps, s)
  | .selbmap p d arg => s.begin p (s.siocselbmap d arg)
  | .scrclose p d => s.begin p (.sleeps, s.setCall p (.scrclose d))
  | .scrcloseWaited p =>
      match s.call p with
      | .scrclose d => (s.setCall p .idle).scrcloseWaited d
      | _ => (.sleeps, s)

def step (s : System) (e : Event) : System := (s.run e).2

end System

/-- Two states of a device that differ at most in bitmaps not in use. -/
structure Scrdev.Same (dp dp' : Scrdev) : Prop where
  opened : dp'.opened = dp.opened
  type : dp'.type = dp.type
  size : dp'.width = dp.width ∧ dp'.height = dp.height
  bmap : dp'.bmap = dp.bmap
  active : ∀ i, (dp'.bitmap i).active = (dp.bitmap i).active
  bitmap : ∀ i, (dp.bitmap i).active = true → dp'.bitmap i = dp.bitmap i
  copbuf : dp'.copbuf0 = dp.copbuf0 ∧ dp'.copbuf1 = dp.copbuf1
  ielist : dp'.ielist = dp.ielist

structure Scrdev.Sound (dp : Scrdev) : Prop where
  typed : dp.type ≠ 0 → dp.copbuf0.isSome = true ∧ dp.copbuf1.isSome = true
  untyped : dp.type = 0 → dp.copbuf0 = none
  active : ∀ i, (dp.bitmap i).active = true → dp.type = 1
  blank : dp.opened = false → dp.type = 0 ∧ dp.ielist = none

namespace System

/-- A call that returns an error leaves every device as it was. -/
def ErrorsLeave (s : System) (e : Event) : Prop :=
  (s.run e).1 = .error → ∀ d, (s.dev d).Same ((step s e).dev d)

/-- What holds between the calls. -/
structure LifeCycle (s : System) : Prop where
  clones : ∀ d, s.clones d ≤ 1
  typed : ∀ d, (s.dev d).type ≠ 0 →
    (s.dev d).copbuf0.isSome = true ∧ (s.dev d).copbuf1.isSome = true
  freed : ∀ d, (s.dev d).opened = false → ∀ b < s.mem.next, s.mem.owner b = d →
    s.mem.freed b = 1
  once : ∀ b, s.mem.freed b ≤ 1

/-- A request of SIOCSETTYPE that can be met. -/
def Accepts (pal hedley : Bool) (adj : Displayadjust) (st : Option Scrtype) : Prop :=
  (st.bind fun st =>
    checkScrtype pal adj (if hedley then st else st.orModes SM_NONHEDLEY)).isSome = true

/-- The steps that do not reach a defect: when AllocMem wakes `scropen`, no
other open has opened the device and OpenScreen does not fail with the memory
at hand; when a request of SIOCSETTYPE is met, the device is open and without
a type, and there is memory for the copper lists. -/
def Allowed (s : System) : Event → Prop
  | .scropenMem p mem screen => ∀ d clone, s.call p = .scropen d clone →
      (s.dev d).opened = false ∧ (mem = true → screen = true)
  | .settypeCopied p pal hedley adj st mem => ∀ d, s.call p = .settype d →
      Accepts pal hedley adj st →
        (s.dev d).opened = true ∧ (s.dev d).type = 0 ∧ mem = true
  | _ => True

def held (s : System) (d : Fin NSCRDEV) (b : ℕ) : ℕ := (s.dev d).blocks.count (some b)

structure Inv (s : System) : Prop where
  dev : ∀ d, (s.dev d).Sound
  clones : ∀ d, s.clones d ≤ 1 ∧ ((s.dev d).opened = false → s.clones d = 0)
  mem : s.mem.Balanced s.held

end System

section allocation
variable {mem : ℕ → Bool} {d : Fin NSCRDEV} {held : Fin NSCRDEV → ℕ → ℕ}
  {l : Ledger (Fin NSCRDEV)}

theorem freeDown_eq (bpl : ℕ → Option ℕ) (i : ℕ) (l : Ledger (Fin NSCRDEV)) :
    freeDown bpl i l = l.freeAll ((List.range i).map bpl).reverse := by
  induction i generalizing l with
  | zero => rfl
  | succ i ih =>
      rw [freeDown, ih, List.range_succ, List.map_append, List.reverse_append]
      rfl

/-- What a user holds when it also holds some pointers. -/
def heldWith (held : Fin NSCRDEV → ℕ → ℕ) (d : Fin NSCRDEV) (ps : List (Option ℕ))
    (j : Fin NSCRDEV) (b : ℕ) : ℕ :=
  held j b + if j = d then ps.count (some b) else 0

theorem Balanced.allocOne (h : l.Balanced held) :
    (l.alloc d).Balanced (heldWith held d [some l.next]) :=
  Ledger.Balanced.allocOne h d

/-- The loop over the planes either holds all of them or gives all of them back. -/
theorem allocPlanes_balanced (mem : ℕ → Bool) (i n : ℕ) (bpl : ℕ → Option ℕ)
    (h : l.Balanced (heldWith held d ((List.range i).map bpl))) :
    match allocPlanes mem d i n bpl l with
    | (true, bpl', l') => l'.Balanced (heldWith held d ((List.range (i + n)).map bpl'))
    | (false, _, l') => l'.Balanced held := by
  induction n generalizing i bpl l with
  | zero => exact h
  | succ n ih =>
      rw [allocPlanes]
      split_ifs with hm
      · have hone := Ledger.Balanced.allocOne h d
        change (l.alloc d).Balanced (Ledger.also (Ledger.also held d _) d _) at hone
        rw [Ledger.also_append, ← Ledger.map_range_update] at hone
        have hrest := ih (i + 1) _ hone
        rwa [Nat.succ_add_eq_add_succ] at hrest
      · rw [freeDown_eq]
        refine h.freeAll d _ fun j b => ?_
        rw [List.count_reverse]
        rfl

/-- What `allocbmap` comes to. -/
structure Allocated (held : Fin NSCRDEV → ℕ → ℕ) (d : Fin NSCRDEV) (type : Ushort)
    (r : Bool × Bitmap × Ledger (Fin NSCRDEV)) : Prop where
  mem : r.2.2.Balanced (heldWith held d r.2.1.held)
  active : r.2.1.active = r.1
  type : r.1 = true → type = 1

theorem allocbmap_allocated (mem : ℕ → Bool) (type : Ushort) (bp : Bitmap) (ha : bp.active = false)
    (h : l.Balanced held) : Allocated held d type (allocbmap mem d type bp l) := by
  have hsame : ∀ bp' : Bitmap, bp'.active = false → ∀ l : Ledger (Fin NSCRDEV),
      l.Balanced held → Allocated held d type (false, bp', l) := fun bp' ha' l hl =>
    ⟨hl.congr fun j b => by simp [heldWith, Bitmap.held, ha'], ha', fun h => by cases h⟩
  have hp : l.Balanced (heldWith held d ((List.range 0).map bp.bpl)) :=
    h.congr fun j b => by simp [heldWith]
  have hplanes := allocPlanes_balanced mem 0 bp.depth.toNat bp.bpl hp
  unfold allocbmap
  split_ifs with ht hd hm
  · exact hsame bp ha l h
  · refine ⟨?_, rfl, fun _ => not_not.mp ht⟩
    have hone := Balanced.allocOne (d := d) h
    simpa [Bitmap.held, Bitmap.planes] using hone
  · exact hsame bp ha l h
  · revert hplanes
    cases allocPlanes mem d 0 bp.depth.toNat bp.bpl l with
    | mk ok r =>
      cases ok with
      | false => exact fun hplanes => hsame { bp with bpl := r.1 } ha _ hplanes
      | true =>
          intro hplanes
          refine ⟨?_, rfl, fun _ => not_not.mp ht⟩
          simpa [Bitmap.held, Bitmap.planes] using hplanes

end allocation

section device
variable {dp : Scrdev}

/-- The entry of one index in a concatenation changes from nothing. -/
theorem count_flatMap_update {α β : Type} [DecidableEq α] [BEq β] {xs : List α}
    (hnd : xs.Nodup) {i : α} (hi : i ∈ xs) (f : α → List β) (hf : f i = []) (ys : List β)
    (b : β) :
    (xs.flatMap (Function.update f i ys)).count b = (xs.flatMap f).count b + ys.count b := by
  induction xs with
  | nil => cases hi
  | cons x xs ih =>
      obtain ⟨hx, hnd⟩ := List.nodup_cons.mp hnd
      rw [List.flatMap_cons, List.flatMap_cons, List.count_append, List.count_append]
      rcases List.mem_cons.mp hi with rfl | hi
      · have hrest : xs.flatMap (Function.update f i ys) = xs.flatMap f := by
          refine List.flatMap_congr fun y hy => ?_
          exact Function.update_of_ne (ne_of_mem_of_not_mem hy hx) _ _
        rw [Function.update_self, hrest, hf, List.count_nil]
        omega
      · rw [Function.update_of_ne (ne_of_mem_of_not_mem hi hx).symm, ih hnd hi]
        omega

theorem count_blocks (dp : Scrdev) (b : ℕ) :
    dp.blocks.count (some b) =
      ((List.finRange MAXBM).flatMap fun i => (dp.bitmap i).held).count (some b) +
        ([dp.copbuf0].count (some b) + [dp.ielist].count (some b)) := by
  rw [Scrdev.blocks, List.count_append, List.count_append]
  cases dp.copbuf0 <;> rfl

theorem count_blocks_setBitmap {i : Fin MAXBM} (ha : (dp.bitmap i).active = false)
    (bp : Bitmap) (b : ℕ) :
    (dp.setBitmap i bp).blocks.count (some b) =
      dp.blocks.count (some b) + bp.held.count (some b) := by
  have hfun : (fun j => (Function.update dp.bitmap i bp j).held) =
      Function.update (fun j => (dp.bitmap j).held) i bp.held := by
    funext j
    by_cases hj : j = i
    · rw [hj, Function.update_self, Function.update_self]
    · rw [Function.update_of_ne hj, Function.update_of_ne hj]
  have hnone : (dp.bitmap i).held = [] := by simp [Bitmap.held, ha]
  have hcount := count_flatMap_update (List.nodup_finRange MAXBM) (List.mem_finRange i)
    (fun j => (dp.bitmap j).held) hnone bp.held (some b)
  rw [count_blocks, count_blocks]
  simp only [Scrdev.setBitmap, hfun, hcount]
  omega

theorem Scrdev.Sound.closes_eq (h : dp.Sound) : dp.closes = dp.blocks := by
  have hfun : ∀ i, (if (dp.bitmap i).active = true ∧ dp.type = 1 then (dp.bitmap i).planes
      else []) = (dp.bitmap i).held := by
    intro i
    by_cases ha : (dp.bitmap i).active = true
    · rw [if_pos ⟨ha, h.active i ha⟩, Bitmap.held, if_pos ha]
    · rw [if_neg fun hc => ha hc.1, Bitmap.held, if_neg ha]
  simp only [Scrdev.closes, Scrdev.blocks, hfun]

theorem Scrdev.Sound.count_closed (h : dp.Sound) (ho : dp.opened = false) (b : ℕ) :
    dp.blocks.count (some b) = 0 := by
  obtain ⟨ht, hie⟩ := h.blank ho
  have hnone : ∀ i, (dp.bitmap i).held = [] := by
    intro i
    have ha : (dp.bitmap i).active = false := by
      refine Bool.eq_false_iff.mpr fun ha => ?_
      have h1 := h.active i ha
      rw [ht] at h1
      exact absurd h1 (by decide)
    simp [Bitmap.held, ha]
  have hplanes : ((List.finRange MAXBM).flatMap fun i => (dp.bitmap i).held) = [] :=
    List.flatMap_eq_nil_iff.mpr fun i _ => hnone i
  rw [count_blocks, h.untyped ht, hie, hplanes]
  rfl

theorem zero_sound : Scrdev.zero.Sound :=
  ⟨fun h => absurd rfl h, fun _ => rfl, fun _ h => Bool.noConfusion h, fun _ => ⟨rfl, rfl⟩⟩

theorem Scrdev.Same.refl (dp : Scrdev) : dp.Same dp :=
  ⟨rfl, rfl, ⟨rfl, rfl⟩, rfl, fun _ => rfl, fun _ _ => rfl, ⟨rfl, rfl⟩, rfl⟩

end device

namespace System
variable {s : System} {d : Fin NSCRDEV}

/-- The outcome of a step and the state after it are as they should be. -/
structure Fine (s : System) (r : Outcome × System) : Prop where
  inv : Inv r.2
  error : r.1 = .error → ∀ d, (s.dev d).Same (r.2.dev d)

theorem Inv.fine (h : Inv s) (o : Outcome) (p : ℕ) (c : Call) : Fine s (o, s.setCall p c) :=
  ⟨⟨h.dev, h.clones, h.mem⟩, fun _ _ => .refl _⟩

theorem Inv.fine_same (h : Inv s) (o : Outcome) : Fine s (o, s) := ⟨h, fun _ _ => .refl _⟩

/-- A step that changes one device. -/
theorem Inv.change (h : Inv s) {dp : Scrdev} (hdp : dp.Sound) {s' : System}
    (hdev : s'.dev = Function.update s.dev d dp) {n : ℕ}
    (hclones : s'.clones = Function.update s.clones d n)
    (hn : n ≤ 1 ∧ (dp.opened = false → n = 0))
    (hmem : ∀ held, (∀ j b, held j b = if j = d then dp.blocks.count (some b) else s.held j b) →
      s'.mem.Balanced held) : Inv s' := by
  have hcase : ∀ j, j = d ∧ s'.dev j = dp ∧ s'.clones j = n ∨
      j ≠ d ∧ s'.dev j = s.dev j ∧ s'.clones j = s.clones j := by
    intro j
    rw [hdev, hclones]
    by_cases hj : j = d
    · left
      rw [hj, Function.update_self, Function.update_self]
      exact ⟨rfl, rfl, rfl⟩
    · right
      rw [Function.update_of_ne hj, Function.update_of_ne hj]
      exact ⟨hj, rfl, rfl⟩
  refine ⟨fun j => ?_, fun j => ?_, hmem s'.held fun j b => ?_⟩
  · obtain ⟨-, hd, -⟩ | ⟨-, hd, -⟩ := hcase j
    · exact hd ▸ hdp
    · exact hd ▸ h.dev j
  · obtain ⟨-, hd, hc⟩ | ⟨-, hd, hc⟩ := hcase j
    · rwa [hd, hc]
    · rw [hd, hc]
      exact h.clones j
  · unfold held
    obtain ⟨hj, hd, -⟩ | ⟨hj, hd, -⟩ := hcase j
    · rw [hd, if_pos hj]
    · rw [hd, if_neg hj]

/-- The other devices stay as they are. -/
theorem same_update {dp : Scrdev} (hsame : (s.dev d).Same dp) (j : Fin NSCRDEV) :
    (s.dev j).Same (Function.update s.dev d dp j) := by
  by_cases hj : j = d
  · rw [hj, Function.update_self]
    exact hsame
  · rw [Function.update_of_ne hj]
    exact .refl _

theorem scropen_fine (h : Inv s) (p minor : ℕ) : Fine s (s.scropen p minor) := by
  unfold scropen
  split_ifs with hc hm ho
  · split
    · exact h.fine_same _
    · exact h.fine _ p _
  · exact h.fine_same _
  · exact h.fine _ p _
  · exact h.fine_same _

/-- A block is obtained for a device. -/
theorem alloc_balanced (h : Inv s) {held : Fin NSCRDEV → ℕ → ℕ}
    (hheld : ∀ j b, held j b = heldWith s.held d [some s.mem.next] j b) :
    (s.mem.alloc d).Balanced held :=
  (Balanced.allocOne h.mem).congr hheld

theorem scropenMem_fine (h : Inv s) (clone : Bool) {mem screen : Bool}
    (ho : (s.dev d).opened = false) (hscreen : mem = true → screen = true) :
    Fine s (s.scropenMem d clone mem screen) := by
  have hd := h.dev d
  obtain ⟨ht, hie⟩ := hd.blank ho
  have hzero := hd.count_closed ho
  cases screen with
  | false =>
      -- AllocMem failed as well, and there is nothing to lose
      obtain rfl : mem = false := Bool.eq_false_iff.mpr fun hm => Bool.noConfusion (hscreen hm)
      have heq : ({ s.dev d with ielist := none } : Scrdev) = s.dev d := by
        rw [← hie]
      simp only [scropenMem, Bool.false_eq_true, if_false, heq]
      refine ⟨h.change hd rfl (Function.update_eq_self d s.clones).symm (h.clones d) ?_,
        fun _ => same_update (.refl _)⟩
      intro held hheld
      refine h.mem.congr fun j b => (hheld j b).trans ?_
      split_ifs with hj
      · rw [hj]
        rfl
      · rfl
  | true =>
      have hn : s.clones d = 0 := (h.clones d).2 ho
      have hblocks : ∀ (p : Option ℕ) b, (Scrdev.blocks { s.dev d with
          ielist := p, opened := true, width := 0, height := 0, bmap := none }).count (some b) =
          [p].count (some b) := by
        intro p b
        have h0 := hzero b
        rw [count_blocks] at h0 ⊢
        simp only at h0 ⊢
        omega
      have hheld0 : ∀ b, s.held d b = 0 := hzero
      simp only [scropenMem, if_true]
      refine ⟨h.change (d := d) ?_ rfl rfl ⟨?_, fun h => Bool.noConfusion h⟩ ?_,
        fun h => Outcome.noConfusion h⟩
      · exact ⟨hd.typed, hd.untyped, hd.active, fun h => Bool.noConfusion h⟩
      · simp only [setMem, hn]
        split_ifs <;> omega
      · intro held hheld
        simp only [hblocks] at hheld
        cases mem with
        | true =>
            refine alloc_balanced h fun j b => (hheld j b).trans ?_
            unfold heldWith
            by_cases hj : j = d
            · simp [hj, hheld0]
            · simp [hj]
        | false =>
            refine h.mem.congr fun j b => (hheld j b).trans ?_
            by_cases hj : j = d
            · simp [hj, hheld0]
            · simp [hj]

theorem settypeCopied_fine (h : Inv s) {pal hedley mem : Bool} {adj : Displayadjust}
    {st : Option Scrtype} (hok : Accepts pal hedley adj st →
      (s.dev d).opened = true ∧ (s.dev d).type = 0 ∧ mem = true) :
    Fine s (s.settypeCopied d pal hedley adj st mem) := by
  have hd := h.dev d
  unfold settypeCopied
  split
  · exact h.fine_same _
  · next st' hst =>
    obtain ⟨ho, ht, rfl⟩ := hok (by rw [Accepts, hst]; rfl)
    obtain ⟨_, -, hcheck⟩ := Option.bind_eq_some_iff.mp hst
    have hamiga := checkScrtype_type hcheck
    simp only [if_true]
    refine ⟨h.change (d := d) ?_ rfl (Function.update_eq_self d s.clones).symm ⟨(h.clones d).1,
      fun hc => absurd (ho.symm.trans hc) (by decide)⟩ ?_, fun h => Outcome.noConfusion h⟩
    · exact ⟨fun _ => ⟨rfl, rfl⟩, fun h0 => absurd (hamiga.symm.trans h0) (by decide),
        fun _ _ => hamiga, fun hc => absurd (ho.symm.trans hc) (by decide)⟩
    · intro held hheld
      refine alloc_balanced h fun j b => (hheld j b).trans ?_
      unfold heldWith
      by_cases hj : j = d
      · have hnone : [(none : Option ℕ)].count (some b) = 0 := rfl
        rw [if_pos hj, if_pos hj, hj, System.held, count_blocks, count_blocks, hd.untyped ht,
          hnone]
        dsimp only
        omega
      · rw [if_neg hj, if_neg hj]
        rfl

theorem allocbmapCopied_fine (h : Inv s) (bmap : Option Bmap) (mem : ℕ → Bool) :
    Fine s (s.allocbmapCopied d bmap mem) := by
  have hd := h.dev d
  unfold allocbmapCopied
  split
  · exact h.fine_same _
  · next bmap =>
    split_ifs with hf
    · exact h.fine_same _
    · split
      · exact h.fine_same _
      · next i hi =>
        have ha : ((s.dev d).bitmap i).active = false := by simpa using List.find?_some hi
        have hall := allocbmap_allocated (d := d) mem (s.dev d).type { (s.dev d).bitmap i with
          width := bmap.bmapx, height := bmap.bmapy, depth := bmap.bmapz } ha h.mem
        revert hall
        generalize allocbmap mem d (s.dev d).type _ s.mem = r
        intro hall
        have hactive : ∀ j, j ≠ i → ((s.dev d).setBitmap i r.2.1).bitmap j =
            (s.dev d).bitmap j := fun j hj => Function.update_of_ne hj _ _
        have hself : ((s.dev d).setBitmap i r.2.1).bitmap i = r.2.1 := Function.update_self ..
        refine ⟨h.change (d := d) ?_ rfl (Function.update_eq_self d s.clones).symm
          (h.clones d) ?_, fun herr => same_update ?_⟩
        · refine ⟨hd.typed, hd.untyped, fun j hj => ?_, hd.blank⟩
          by_cases hji : j = i
          · rw [hji, hself, hall.active] at hj
            exact hall.type hj
          · rw [hactive j hji] at hj
            exact hd.active j hj
        · intro held hheld
          refine hall.mem.congr fun j b => (hheld j b).trans ?_
          unfold heldWith
          split_ifs with hj
          · rw [count_blocks_setBitmap ha, hj, System.held]
          · rfl
        · have hr : r.1 = false := by
            refine Bool.eq_false_iff.mpr fun hr => ?_
            simp only [hr, if_true] at herr
            cases herr
          have hother : ∀ j, ((s.dev d).bitmap j).active = true →
              ((s.dev d).setBitmap i r.2.1).bitmap j = (s.dev d).bitmap j := by
            intro j hj
            refine hactive j fun hji => ?_
            rw [hji, ha] at hj
            cases hj
          refine ⟨rfl, rfl, ⟨rfl, rfl⟩, rfl, fun j => ?_, hother, ⟨rfl, rfl⟩, rfl⟩
          by_cases hji : j = i
          · rw [hji, hself, hall.active, hr, ha]
          · rw [hactive j hji]

theorem siocselbmap_fine (h : Inv s) (arg : Long) : Fine s (s.siocselbmap d arg) := by
  have hd := h.dev d
  simp only [siocselbmap]
  split_ifs
  · exact h.fine_same _
  · refine ⟨h.change (d := d) ?_ rfl (Function.update_eq_self d s.clones).symm (h.clones d) ?_,
      fun h => Outcome.noConfusion h⟩
    · exact ⟨hd.typed, hd.untyped, hd.active, hd.blank⟩
    · intro held hheld
      refine h.mem.congr fun j b => (hheld j b).trans ?_
      split_ifs with hj
      · rw [hj]
        rfl
      · rfl
  · exact h.fine_same _

theorem scrcloseWaited_fine (h : Inv s) : Fine s (s.scrcloseWaited d) := by
  have hzero := zero_sound.count_closed rfl
  refine ⟨h.change (d := d) zero_sound rfl rfl ⟨Nat.zero_le 1, fun _ => rfl⟩ ?_,
    fun h => Outcome.noConfusion h⟩
  intro held hheld
  refine h.mem.freeAll d _ fun j b => ?_
  rw [hheld, (h.dev d).closes_eq]
  by_cases hj : j = d
  · rw [if_pos hj, if_pos hj, hzero, hj, Nat.zero_add]
    rfl
  · rw [if_neg hj, if_neg hj]
    rfl

theorem begin_fine (h : Inv s) (p : ℕ) {r : Outcome × System} (hr : Fine s r) :
    Fine s (s.begin p r) := by
  unfold begin
  split
  · exact hr
  · exact h.fine_same _

theorem run_fine (h : Inv s) {e : Event} (ha : Allowed s e) : Fine s (s.run e) := by
  have hidle : ∀ p, Inv (s.setCall p .idle) := fun p => ⟨h.dev, h.clones, h.mem⟩
  cases e with
  | scropen p minor => exact begin_fine h p (scropen_fine h p minor)
  | scropenMem p mem screen =>
      simp only [run]
      split
      · next d clone hc =>
        obtain ⟨ho, hm⟩ := ha d clone hc
        have hf := scropenMem_fine (hidle p) clone ho hm
        exact ⟨hf.inv, hf.error⟩
      · exact h.fine_same _
  | settype p d =>
      refine begin_fine h p ?_
      split_ifs
      · exact h.fine_same _
      · exact h.fine _ p _
  | settypeCopied p pal hedley adj st mem =>
      simp only [run]
      split
      · next d hc =>
        have hf := settypeCopied_fine (hidle p) (ha d hc)
        exact ⟨hf.inv, hf.error⟩
      · exact h.fine_same _
  | allocbmap p d =>
      refine begin_fine h p ?_
      split_ifs
      · exact h.fine_same _
      · exact h.fine _ p _
  | allocbmapCopied p bmap mem =>
      simp only [run]
      split
      · next d hc =>
        have hf := allocbmapCopied_fine (d := d) (hidle p) bmap mem
        exact ⟨hf.inv, hf.error⟩
      · exact h.fine_same _
  | selbmap p d arg => exact begin_fine h p (siocselbmap_fine h arg)
  | scrclose p d => exact begin_fine h p (h.fine _ p _)
  | scrcloseWaited p =>
      simp only [run]
      split
      · next d hc =>
        have hf := scrcloseWaited_fine (d := d) (hidle p)
        exact ⟨hf.inv, hf.error⟩
      · exact h.fine_same _

theorem start_inv : Inv start := by
  refine ⟨fun _ => zero_sound, fun _ => ⟨Nat.zero_le 1, fun _ => rfl⟩, ?_⟩
  exact (Ledger.balanced_empty 0).congr fun _ b => zero_sound.count_closed rfl b

theorem Inv.lifeCycle (h : Inv s) : LifeCycle s where
  clones d := (h.clones d).1
  typed d := (h.dev d).typed
  freed d ho _ hb hown := h.mem.all_freed (i := d) ((h.dev d).count_closed ho) hb hown
  once := h.mem.freed_le_one

/-- In every run of steps that do not reach a defect, errors leave the devices
as they were, and the life cycle is kept at every point. -/
theorem device_lifecycle (es : List Event) (h : Every step Allowed start es) :
    Every step ErrorsLeave start es ∧ LifeCycle (final step start es) :=
  ⟨every_of_invariant Inv (fun _ _ hi ha => (run_fine hi ha).inv)
      (fun _ _ hi ha => (run_fine hi ha).error) start_inv h,
    (final_of_every Inv (fun _ _ hi ha => (run_fine hi ha).inv) start_inv h).lifeCycle⟩

/-- One process opens a device, gives it a type and a bitmap, and closes it. -/
def oneUser (d : Fin NSCRDEV) : List Event :=
  [.scropen 0 CLONEDEV, .scropenMem 0 true true, .settype 0 d,
    .settypeCopied 0 true false ⟨0, 0, 0, 0⟩ (some ⟨0, ST_AMIGA, 320, 256, 1, SM_LORES⟩) true,
    .allocbmap 0 d, .allocbmapCopied 0 (some ⟨0, 320, 256, 1⟩) fun _ => true,
    .selbmap 0 d 0, .scrclose 0 d, .scrcloseWaited 0]

theorem device_lifecycle_one :
    Every step ErrorsLeave start (oneUser 0) ∧ LifeCycle (final step start (oneUser 0)) := by
  refine device_lifecycle (oneUser 0) ⟨trivial, ?_, trivial, ?_, trivial, trivial, trivial,
    trivial, trivial, trivial⟩
  · intro d clone h
    cases h
    exact ⟨rfl, fun _ => rfl⟩
  · intro d h _
    cases h
    exact ⟨rfl, rfl, rfl⟩

/-- Two clone opens; the first one still waits for memory when the second begins. -/
def twoClones : List Event :=
  [.scropen 0 CLONEDEV, .scropen 1 CLONEDEV, .scropenMem 0 true true, .scropenMem 1 true true]

theorem device_lifecycle_fails : ¬ LifeCycle (final step start twoClones) := by
  intro h
  have h0 := h.clones 0
  have h2 : (final step start twoClones).clones 0 = 2 := rfl
  rw [h2] at h0
  exact absurd h0 (by decide)

end System
end DeviceLife
end HydraAmix.Console
