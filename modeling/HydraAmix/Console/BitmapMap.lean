import HydraAmix.Console.ScreenType
import HydraAmix.Library.Schedule

/-!
# Mapping the bitmaps of a screen device

SIOCALLOCBMAP allocates the planes of a bitmap, and `scrmmap` computes the
address of a page from a bitmap number, a plane number and an offset. Each
bitmap records the memory that was obtained for each of its planes.
-/
namespace HydraAmix.Console
open Word Schedule

abbrev MAXBM : ℕ := 8

/-- The geometry asked for. -/
structure Bmap where
  flags : Ushort
  bmapx : Ushort
  bmapy : Ushort
  bmapz : Ushort

/-- A bitmap of a screen device. The entries of `bpl` from MAXBPL on stand for
what lies behind the array. -/
structure ScrBitmap where
  active : Bool
  width : Ushort
  height : Ushort
  depth : Ushort
  bpl : ℕ → Long
  /-- The address and the size of the memory obtained for a plane. -/
  got : ℕ → Option (Long × ℕ)

namespace ScrBitmap

/-- `width * height`, and what `scrmmap` takes for the size of a plane. -/
def pixels (bp : ScrBitmap) : ℤ := int32 (bp.width.toNat * bp.height.toNat)
def planesize (bp : ScrBitmap) : ℤ := bp.pixels.tdiv 8

/-- The size of a chunky bitmap. -/
def chunkysize (bp : ScrBitmap) : ℤ := int32 (bp.pixels * ((bp.depth.toNat + 7) / 8 : ℕ))

/-- The argument that AllocMem gets for a size. -/
def nbytes (size : ℤ) : ℕ := (size % 4294967296).toNat

def setPlane (bp : ScrBitmap) (i : ℕ) (ptr : Long) (size : ℤ) : ScrBitmap :=
  { bp with
    bpl := Function.update bp.bpl i ptr
    got := Function.update bp.got i (some (ptr, nbytes size)) }

def activate (bp : ScrBitmap) : ScrBitmap := { bp with active := true }

/-- The loop over the planes from the `i`-th on, `n` of them; `mem` are the
answers of AllocMem. A failure frees the planes before. -/
def allocPlanes (mem : ℕ → Long) (size : ℤ) (bp : ScrBitmap) : ℕ → ℕ → Bool × ScrBitmap
  | _, 0 => (true, bp)
  | i, n + 1 =>
      if mem i ≠ 0 then allocPlanes mem size (bp.setPlane i (mem i) size) (i + 1) n
      else (false, { bp with got := fun _ => none })

def allocbmap (type : Ushort) (mem : ℕ → Long) (bp : ScrBitmap) : Bool × ScrBitmap :=
  if type = 1 then
    if 8 < bp.depth.toNat then
      if mem 0 = 0 then (false, bp)
      else (true, (bp.setPlane 0 (mem 0) bp.chunkysize).activate)
    else
      let r := allocPlanes mem bp.planesize bp 0 bp.depth.toNat
      (r.1, if r.1 then r.2.activate else r.2)
  else (false, bp)

/-- An address lies in the memory obtained for a plane. -/
def Inside (bp : ScrBitmap) (plane : ℕ) (addr : Long) : Prop :=
  ∃ p n, bp.got plane = some (p, n) ∧ (addr - p).toNat < n

/-- What is known of an active bitmap. -/
structure Ready (bp : ScrBitmap) : Prop where
  planar : bp.depth.toNat ≤ 8 → ∀ i < bp.depth.toNat,
    bp.got i = some (bp.bpl i, nbytes bp.planesize)
  chunky : 8 < bp.depth.toNat → bp.got 1 = none

/-- A slot that is not in use holds no memory. -/
structure Vacant (bp : ScrBitmap) : Prop where
  got : ∀ i, bp.got i = none

def Sound (bp : ScrBitmap) : Prop := if bp.active then bp.Ready else bp.Vacant

variable {mem : ℕ → Long} {size : ℤ} {bp : ScrBitmap}

theorem Sound.vacant (h : bp.Sound) (ha : bp.active = false) : bp.Vacant := by
  simpa [Sound, ha] using h

theorem Sound.ready (h : bp.Sound) (ha : bp.active = true) : bp.Ready := by
  simpa [Sound, ha] using h

@[simp] theorem activate_planesize (bp : ScrBitmap) :
    bp.activate.planesize = bp.planesize := rfl

/-- What the loop over the planes leaves alone. -/
theorem allocPlanes_frame (mem : ℕ → Long) (size : ℤ) (bp : ScrBitmap) (i n : ℕ) :
    (allocPlanes mem size bp i n).2.active = bp.active ∧
      (allocPlanes mem size bp i n).2.depth = bp.depth ∧
      (allocPlanes mem size bp i n).2.planesize = bp.planesize := by
  induction n generalizing bp i with
  | zero => exact ⟨rfl, rfl, rfl⟩
  | succ n ih =>
      simp only [allocPlanes]
      split_ifs
      · exact ih _ (i + 1)
      · exact ⟨rfl, rfl, rfl⟩

theorem allocPlanes_below (i n : ℕ) (hr : (allocPlanes mem size bp i n).1 = true)
    {j : ℕ} (hj : j < i) :
    (allocPlanes mem size bp i n).2.got j = bp.got j ∧
      (allocPlanes mem size bp i n).2.bpl j = bp.bpl j := by
  induction n generalizing bp i with
  | zero => exact ⟨rfl, rfl⟩
  | succ n ih =>
      simp only [allocPlanes] at hr ⊢
      split_ifs at hr ⊢ with hm
      obtain ⟨hg, hb⟩ := ih (i + 1) hr (by omega)
      have hne : j ≠ i := by omega
      exact ⟨by rw [hg]; simp [setPlane, hne], by rw [hb]; simp [setPlane, hne]⟩

theorem allocPlanes_got (i n : ℕ) (hr : (allocPlanes mem size bp i n).1 = true)
    {j : ℕ} (hij : i ≤ j) (hj : j < i + n) :
    (allocPlanes mem size bp i n).2.got j =
      some ((allocPlanes mem size bp i n).2.bpl j, nbytes size) := by
  induction n generalizing bp i with
  | zero => omega
  | succ n ih =>
      simp only [allocPlanes] at hr ⊢
      split_ifs at hr ⊢ with hm
      rcases Nat.eq_or_lt_of_le hij with rfl | hlt
      · -- the plane just obtained is not touched by the rest of the loop
        obtain ⟨hg, hb⟩ := allocPlanes_below (i + 1) n hr (Nat.lt_succ_self i)
        rw [hg, hb]
        simp [setPlane]
      · exact ih (i + 1) hr hlt (by omega)

/-- A failure frees what the loop had obtained. -/
theorem allocPlanes_failed (i n : ℕ) (hr : (allocPlanes mem size bp i n).1 = false) :
    (allocPlanes mem size bp i n).2.Vacant := by
  induction n generalizing bp i with
  | zero => simp [allocPlanes] at hr
  | succ n ih =>
      simp only [allocPlanes] at hr ⊢
      split_ifs at hr ⊢ with hm
      · exact ih (i + 1) hr
      · exact ⟨fun _ => rfl⟩

/-- What `allocbmap` makes of a free slot. -/
theorem allocbmap_sound {type : Ushort} (ha : bp.active = false) (hv : bp.Vacant) :
    (allocbmap type mem bp).2.Sound ∧
      ((allocbmap type mem bp).2.active = true → type = 1) := by
  have hbp : bp.Sound := by
    simpa [Sound, ha] using hv
  unfold allocbmap
  split_ifs with ht hd hm
  · exact ⟨hbp, fun _ => ht⟩
  · -- one piece of memory, recorded for plane 0
    have hready : (bp.setPlane 0 (mem 0) bp.chunkysize).activate.Ready :=
      ⟨fun h => absurd hd (Nat.not_lt.mpr h),
        fun _ => by simpa [activate, setPlane] using hv.got 1⟩
    exact ⟨hready, fun _ => ht⟩
  · refine ⟨?_, fun _ => ht⟩
    obtain ⟨hact, hdepth, hsize⟩ :=
      allocPlanes_frame mem bp.planesize bp 0 bp.depth.toNat
    cases hr : (allocPlanes mem bp.planesize bp 0 bp.depth.toNat).1 with
    | false =>
        have hvac := allocPlanes_failed 0 bp.depth.toNat hr
        simpa [Sound, hr, hact, ha] using hvac
    | true =>
        have hready : (allocPlanes mem bp.planesize bp 0 bp.depth.toNat).2.activate.Ready := by
          refine ⟨fun _ i hi => ?_, fun h => absurd (hdepth ▸ h) hd⟩
          have hi' : i < 0 + bp.depth.toNat := by simpa [activate, hdepth] using hi
          have hgot := allocPlanes_got 0 bp.depth.toNat hr (Nat.zero_le i) hi'
          rw [activate_planesize, hsize]
          exact hgot
        simp only [hr, if_true]
        exact hready
  · exact ⟨hbp, fun h => by simp [ha] at h⟩

/-- The memory of an active bitmap, where its planes are not chunky. -/
theorem Ready.inside (h : bp.Ready) (hd : bp.depth.toNat ≤ 8) {plane : ℕ}
    (hp : plane < bp.depth.toNat) {offset : Long} (ho : (offset.toNat : ℤ) < bp.planesize) :
    bp.Inside plane (bp.bpl plane + offset) := by
  refine ⟨_, _, h.planar hd plane hp, ?_⟩
  have hsize : bp.planesize < 4294967296 := by
    have hp : bp.pixels < 2147483648 := by
      unfold pixels int32
      omega
    have hle := Int.tdiv_le_of_le_mul (a := bp.pixels) (b := 268435456) (c := 8)
      (by omega) (by omega)
    unfold planesize
    split_ifs at hle <;> omega
  have hsub : bp.bpl plane + offset - bp.bpl plane = offset := by
    rw [BitVec.add_comm, BitVec.add_sub_cancel]
  rw [hsub]
  unfold nbytes
  omega

end ScrBitmap

structure MapDev where
  type : Ushort
  bitmap : Fin MAXBM → ScrBitmap

namespace MapDev

def fresh : MapDev := ⟨0, fun _ => ⟨false, 0, 0, 0, fun _ => 0, fun _ => none⟩⟩

/-- The first slot that is free. -/
def freeSlot (dp : MapDev) : Option (Fin MAXBM) :=
  (List.finRange MAXBM).find? fun i => !(dp.bitmap i).active

def setBitmap (dp : MapDev) (i : Fin MAXBM) (bp : ScrBitmap) : MapDev :=
  { dp with bitmap := Function.update dp.bitmap i bp }

/-- SIOCALLOCBMAP; an error leaves the geometry in the slot. -/
def siocallocbmap (dp : MapDev) (bmap : Bmap) (mem : ℕ → Long) : MapDev :=
  if dp.type = 0 ∨ bmap.flags ≠ 0 then dp
  else match dp.freeSlot with
    | none => dp
    | some i => dp.setBitmap i (ScrBitmap.allocbmap dp.type mem { dp.bitmap i with
        width := bmap.bmapx, height := bmap.bmapy, depth := bmap.bmapz }).2

/-- SIOCSETTYPE, as far as mapping depends on it. -/
def siocsettype (dp : MapDev) (pal : Bool) (adj : Displayadjust) (st : Scrtype) : MapDev :=
  if dp.type ≠ 0 then dp
  else match checkScrtype pal adj st with
    | none => dp
    | some st' => { dp with type := st'.type }

/-- The address that `scrmmap` maps. -/
def scrmmap (dp : MapDev) (offset : Long) : Option Long :=
  if dp.type = 0 then none
  else
    let bmnum := (offset >>> 28).toNat
    let bpnum := (offset >>> 24 &&& 0xf).toNat
    let offset := offset &&& 0xffffff
    if h : bmnum < MAXBM then
      let bp := dp.bitmap ⟨bmnum, h⟩
      if bp.active ∧ bpnum < bp.depth.toNat ∧ offset.toInt < bp.planesize then
        some (bp.bpl bpnum + offset)
      else none
    else none

/-- What happens to the device: a type is set, a bitmap is asked for, or the
device is closed and opened again. -/
inductive Event where
  | settype (pal : Bool) (adj : Displayadjust) (st : Scrtype)
  | alloc (bmap : Bmap) (mem : ℕ → Long)
  | reopen

def step (dp : MapDev) : Event → MapDev
  | .settype pal adj st => dp.siocsettype pal adj st
  | .alloc bmap mem => dp.siocallocbmap bmap mem
  | .reopen => fresh

/-- Whatever `scrmmap` maps lies in the memory of the plane it is asked for. -/
def MapsInside (dp : MapDev) : Prop :=
  ∀ offset addr, dp.scrmmap offset = some addr → ∃ h : (offset >>> 28).toNat < MAXBM,
    (dp.bitmap ⟨_, h⟩).Inside (offset >>> 24 &&& 0xf).toNat addr

def Sound (dp : MapDev) : Prop :=
  (∀ i, (dp.bitmap i).Sound) ∧ (dp.type = 0 → ∀ i, (dp.bitmap i).active = false)

variable {dp : MapDev}

theorem fresh_sound : fresh.Sound :=
  ⟨fun _ => ⟨fun _ => rfl⟩, fun _ _ => rfl⟩

theorem freeSlot_active {i : Fin MAXBM} (h : dp.freeSlot = some i) :
    (dp.bitmap i).active = false := by
  simpa using List.find?_some h

theorem siocallocbmap_sound (h : dp.Sound) (bmap : Bmap) (mem : ℕ → Long) :
    (dp.siocallocbmap bmap mem).Sound := by
  unfold siocallocbmap
  split_ifs with hc
  · exact h
  split
  · exact h
  · next i hi =>
    have ha := freeSlot_active hi
    obtain ⟨ht, -⟩ := not_or.mp hc
    have hv : ScrBitmap.Vacant { dp.bitmap i with
        width := bmap.bmapx, height := bmap.bmapy, depth := bmap.bmapz } :=
      ⟨((h.1 i).vacant ha).got⟩
    refine ⟨fun j => ?_, fun h0 => absurd h0 ht⟩
    simp only [setBitmap]
    by_cases hj : j = i
    · rw [hj, Function.update_self]
      exact (ScrBitmap.allocbmap_sound (by exact ha) hv).1
    · rw [Function.update_of_ne hj]
      exact h.1 j

theorem step_sound (dp : MapDev) (e : Event) (h : dp.Sound) : (step dp e).Sound := by
  cases e with
  | settype pal adj st =>
      simp only [step, siocsettype]
      split_ifs with ht
      · exact h
      split
      · exact h
      · exact ⟨h.1, fun _ => h.2 (not_not.mp ht)⟩
  | alloc bmap mem => exact siocallocbmap_sound h bmap mem
  | reopen => exact fresh_sound

/-- What is known when `scrmmap` gives an address. -/
theorem scrmmap_some {offset addr : Long} (h : dp.scrmmap offset = some addr) :
    ∃ hb : (offset >>> 28).toNat < MAXBM,
      (dp.bitmap ⟨_, hb⟩).active = true ∧
      (offset >>> 24 &&& 0xf).toNat < (dp.bitmap ⟨_, hb⟩).depth.toNat ∧
      (offset &&& 0xffffff).toInt < (dp.bitmap ⟨_, hb⟩).planesize ∧
      addr = (dp.bitmap ⟨_, hb⟩).bpl (offset >>> 24 &&& 0xf).toNat + (offset &&& 0xffffff) := by
  simp only [scrmmap] at h
  split_ifs at h with ht hb hc
  exact ⟨hb, hc.1, hc.2.1, hc.2.2, (Option.some.inj h).symm⟩

theorem toInt_and_mask (offset : Long) :
    (offset &&& 0xffffff).toInt = ((offset &&& 0xffffff).toNat : ℤ) := by
  have h : (offset &&& 0xffffff).toNat ≤ 0xffffff := by
    rw [BitVec.toNat_and]
    exact Nat.and_le_right
  exact BitVec.toInt_eq_toNat_of_lt (by omega)

/-- The offset of the first page of plane 1 of a bitmap. -/
def plane1 (i : Fin MAXBM) : Long := BitVec.ofNat 32 i <<< 28 ||| 0x1000000

theorem plane1_fields (i : Fin MAXBM) :
    (plane1 i >>> 28).toNat = i ∧ (plane1 i >>> 24 &&& 0xf).toNat = 1 ∧
      plane1 i &&& 0xffffff = 0 := by
  revert i
  decide

/-- A chunky bitmap has no memory for plane 1, which can be mapped. -/
theorem plane1_outside (h : dp.Sound) {i : Fin MAXBM} (ha : (dp.bitmap i).active = true)
    (hd : 8 < (dp.bitmap i).depth.toNat) (hs : 0 < (dp.bitmap i).planesize) :
    ¬ dp.MapsInside := by
  intro hm
  obtain ⟨hi, hp, ho⟩ := plane1_fields i
  have ht : dp.type ≠ 0 := fun ht => by simp [h.2 ht i] at ha
  have hmap : dp.scrmmap (plane1 i) = some ((dp.bitmap i).bpl 1 + 0) := by
    have hb : (plane1 i >>> 28).toNat < MAXBM := hi ▸ i.isLt
    have hbi : (⟨_, hb⟩ : Fin MAXBM) = i := Fin.ext hi
    simp only [scrmmap, if_neg ht, dif_pos hb, hbi, hp, ho]
    exact if_pos ⟨ha, by omega, hs⟩
  obtain ⟨hb, p, n, hgot, -⟩ := hm _ _ hmap
  have hbi : (⟨_, hb⟩ : Fin MAXBM) = i := Fin.ext hi
  rw [hbi, hp, ((h.1 i).ready ha).chunky hd] at hgot
  cases hgot

/-- Exactly the chunky bitmaps let `scrmmap` leave the memory of a bitmap. -/
theorem mapping_confined_iff (es : List Event) :
    (final step fresh es).MapsInside ↔
      ∀ i, ((final step fresh es).bitmap i).active = true →
        ((final step fresh es).bitmap i).depth.toNat ≤ 8 ∨
        ((final step fresh es).bitmap i).planesize ≤ 0 := by
  have hsound : (final step fresh es).Sound :=
    final_invariant MapDev.Sound step_sound fresh_sound es
  generalize final step fresh es = dp at hsound ⊢
  constructor
  · intro hm i ha
    by_contra hc
    obtain ⟨hd, hs⟩ := not_or.mp hc
    exact plane1_outside hsound ha (Nat.not_le.mp hd) (Int.not_le.mp hs) hm
  · intro hok offset addr hmap
    obtain ⟨hb, ha, hp, ho, rfl⟩ := scrmmap_some hmap
    refine ⟨hb, ?_⟩
    rw [toInt_and_mask] at ho
    rcases hok _ ha with hd | hs
    · exact ((hsound.1 _).ready ha).inside hd hp ho
    · omega

/-- A deep bitmap of 320 by 200 pixels, for which memory is at hand. -/
def deepRun (depth : Ushort) : List Event :=
  [.settype false ⟨0, 0, 0, 0⟩ ⟨0, ST_AMIGA, 320, 200, 4, SM_LORES ||| SM_NONLACE⟩,
    .alloc ⟨0, 320, 200, depth⟩ fun _ => 0x100000]

theorem mapping_confined_fails : ¬ (final step fresh (deepRun 16)).MapsInside := by
  intro h
  obtain ⟨hb, p, n, hgot, -⟩ := h 0x1000000 0 (by decide)
  have hnone : ((final step fresh (deepRun 16)).bitmap 0).got 1 = none := by decide
  exact absurd (hnone.symm.trans hgot) (by simp)

end MapDev
end HydraAmix.Console
