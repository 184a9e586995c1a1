import HydraAmix.Library.Schedule
import HydraAmix.Library.Tiling
import Mathlib.Data.List.Perm.Basic
import Mathlib.Data.Nat.Find
import Mathlib.Order.Interval.Set.Basic

/-!
# The chip memory allocator

Chip memory is kept in a map of clicks of 32 bytes. A request for a page
boundary asks for a page more, and gives back what lies before and behind the
block. That the map had no room is only visible as index 0, and the path for
the page boundary does not look at it: it goes on with block 0 and gives the map
a page that it never had.

The map routines `malloc` and `mfree` and the size of a page are not part of
the driver. `malloc` is a parameter; it only chooses the place.
-/
namespace HydraAmix.Console.ChipMemory
open Tiling Schedule

/-- What an unsigned long keeps of a sum. -/
def u32 (x : ℕ) : ℕ := x % 0x100000000

def sub32 (x y : ℕ) : ℕ := u32 (x + 0x100000000 - y)

def SKIPZERO : ℕ := 2048

def btoC (x : ℕ) : ℕ := u32 (x + 31) / 32

def Ctob (x : ℕ) : ℕ := u32 (x * 32)

theorem btoC_of_le {x : ℕ} (h : x + 31 < 0x100000000) : btoC x = (x + 31) / 32 := by
  unfold btoC u32
  omega

theorem Ctob_of_lt {x : ℕ} (h : x < 0x8000000) : Ctob x = 32 * x := by
  unfold Ctob u32
  omega

theorem sub32_of_le {x y : ℕ} (h : y ≤ x) (hx : x < 0x100000000) : sub32 x y = x - y := by
  unfold sub32 u32
  omega

/-- The clicks `i`, …, `i + n - 1`. -/
def clicks (i n : ℕ) : Set ℕ := Set.Ico i (i + n)

@[simp] theorem mem_clicks {i n x : ℕ} : x ∈ clicks i n ↔ i ≤ x ∧ x < i + n := Iff.rfl

/-- `mfree`. -/
def mfree (map : Set ℕ) (n i : ℕ) : Set ℕ := map ∪ clicks i n

structure Block where
  ptr : ℕ
  nbytes : ℕ
  pageb : Bool

structure Chip where
  map : Set ℕ
  live : List Block

section
variable (malloc : Set ℕ → ℕ → ℕ)

/-- `malloc` finds a place with `n` free clicks, or says 0. -/
def Finds : Prop :=
  ∀ map n, malloc map n ≠ 0 → malloc map n ∈ map ∧ clicks (malloc map n) n ⊆ map

/-- The map after `malloc`. -/
def taken (map : Set ℕ) (n : ℕ) : Set ℕ :=
  if malloc map n = 0 then map else map \ clicks (malloc map n) n

variable (PAGESIZE : ℕ)

/-- `(x + PAGEOFFSET) & PAGEMASK`. -/
def pageUp (x : ℕ) : ℕ := u32 (x + (PAGESIZE - 1)) - u32 (x + (PAGESIZE - 1)) % PAGESIZE

/-- `AllocMem` of chip memory: the pointer and the map. -/
def AllocMem (map : Set ℕ) (nbytes : ℕ) (pageb : Bool) : ℕ × Set ℕ :=
  if pageb then
    let n := btoC (u32 (nbytes + PAGESIZE))
    let p0 := Ctob (malloc map n)
    let p1 := pageUp PAGESIZE p0
    let map := taken malloc map n
    let map := mfree map (btoC (sub32 p1 p0)) (btoC p0)
    let map := mfree map (btoC (sub32 PAGESIZE (sub32 p1 p0))) (btoC (u32 (p1 + nbytes)))
    (p1, map)
  else (Ctob (malloc map (btoC nbytes)), taken malloc map (btoC nbytes))

/-- `FreeMem`; memory from 2 MB on is not chip memory. -/
def FreeMem (map : Set ℕ) (ptr nbytes : ℕ) : Set ℕ :=
  if ptr < 0x200000 then mfree map (btoC nbytes) (btoC ptr) else map

/-- `meminit`. -/
def meminit (chipmem : ℕ) : Chip where
  map := mfree ∅ (btoC (sub32 chipmem SKIPZERO)) (btoC SKIPZERO)
  live := []

/-- A request, or the block with this number given back. -/
inductive Event
  | alloc (nbytes : BitVec 32) (pageb : Bool)
  | free (k : ℕ)

/-- The caller notes a block that is not 0. -/
def step (s : Chip) : Event → Chip
  | .alloc nbytes pageb =>
    let r := AllocMem malloc PAGESIZE s.map nbytes.toNat pageb
    ⟨r.2, if r.1 = 0 then s.live else ⟨r.1, nbytes.toNat, pageb⟩ :: s.live⟩
  | .free k =>
    match s.live[k]? with
    | some b => ⟨FreeMem s.map b.ptr b.nbytes, s.live.eraseIdx k⟩
    | none => s

end

/-- The bytes of a block. -/
def Block.bytes (b : Block) : Set ℕ := Set.Ico b.ptr (b.ptr + b.nbytes)

/-- The clicks that `FreeMem` gives back for a block. -/
def Block.clicks (b : Block) : Set ℕ := ChipMemory.clicks (btoC b.ptr) (btoC b.nbytes)

/-- No two live blocks overlap, each lies in the memory `whole` that the map was
given, a block for a page boundary starts at one, and without live blocks the map
is what it was. -/
structure Sound (PAGESIZE : ℕ) (whole : Set ℕ) (s : Chip) : Prop where
  disjoint : s.live.Pairwise fun a b => Disjoint a.bytes b.bytes
  inside : ∀ b ∈ s.live, ∀ x ∈ b.bytes, x / 32 ∈ whole
  aligned : ∀ b ∈ s.live, b.pageb = true → b.ptr % PAGESIZE = 0
  restored : s.live = [] → s.map = whole

/-- If the map had no room, the request returns 0 and leaves the map as it was. -/
def FailsClean (malloc : Set ℕ → ℕ → ℕ) (PAGESIZE : ℕ) (s : Chip) : Event → Prop
  | .alloc nbytes pageb =>
    let n := if pageb then btoC (u32 (nbytes.toNat + PAGESIZE)) else btoC nbytes.toNat
    let r := AllocMem malloc PAGESIZE s.map nbytes.toNat pageb
    (malloc s.map n = 0 → r.1 = 0) ∧ (r.1 = 0 → r.2 = s.map)
  | .free _ => True

/-- The sizes can be rounded up without overflow, and a request for a page
boundary finds room. -/
def Fits (malloc : Set ℕ → ℕ → ℕ) (PAGESIZE : ℕ) (s : Chip) : Event → Prop
  | .alloc nbytes false => nbytes.toNat + 31 < 0x100000000
  | .alloc nbytes true => nbytes.toNat + PAGESIZE + 31 < 0x100000000 ∧
      malloc s.map (btoC (u32 (nbytes.toNat + PAGESIZE))) ≠ 0
  | .free _ => True

/-! ### The invariant -/

/-- The map and the live blocks make up the memory, click by click. -/
structure Inv (PAGESIZE : ℕ) (whole : Set ℕ) (s : Chip) : Prop where
  tiles : Tiles whole s.map (s.live.map Block.clicks)
  click : ∀ b ∈ s.live, b.ptr % 32 = 0 ∧ 0 < b.ptr ∧ b.ptr < 0x200000 ∧
    b.nbytes + 31 < 0x100000000
  aligned : ∀ b ∈ s.live, b.pageb = true → b.ptr % PAGESIZE = 0

theorem Block.clicks_eq {b : Block} (h : b.ptr % 32 = 0 ∧ 0 < b.ptr ∧ b.ptr < 0x200000 ∧
    b.nbytes + 31 < 0x100000000) :
    b.clicks = ChipMemory.clicks (b.ptr / 32) ((b.nbytes + 31) / 32) := by
  unfold Block.clicks
  rw [btoC_of_le (by omega), btoC_of_le h.2.2.2]
  have hdiv : (b.ptr + 31) / 32 = b.ptr / 32 := by omega
  rw [hdiv]

theorem Block.click_of_byte {b : Block} (h : b.ptr % 32 = 0 ∧ 0 < b.ptr ∧ b.ptr < 0x200000 ∧
    b.nbytes + 31 < 0x100000000) {x : ℕ} (hx : x ∈ b.bytes) : x / 32 ∈ b.clicks := by
  rw [Block.clicks_eq h, mem_clicks]
  have hx' : b.ptr ≤ x ∧ x < b.ptr + b.nbytes := hx
  omega

variable {PAGESIZE : ℕ} {whole : Set ℕ} {s : Chip} {malloc : Set ℕ → ℕ → ℕ}

theorem Inv.sound (h : Inv PAGESIZE whole s) : Sound PAGESIZE whole s where
  disjoint := by
    have hapart := List.pairwise_map.mp h.tiles.pairwise
    refine hapart.imp_of_mem fun {a b} ha hb hab => ?_
    refine Set.disjoint_left.mpr fun x hxa hxb => ?_
    exact Set.disjoint_left.mp hab (Block.click_of_byte (h.click a ha) hxa)
      (Block.click_of_byte (h.click b hb) hxb)
  inside b hb x hx :=
    h.tiles.block_subset (List.mem_map_of_mem hb) (Block.click_of_byte (h.click b hb) hx)
  aligned := h.aligned
  restored hnil := by
    have htiles := h.tiles
    rw [hnil] at htiles
    exact htiles.free_eq

theorem Inv.free (h : Inv PAGESIZE whole s) (k : ℕ) :
    Inv PAGESIZE whole (step malloc PAGESIZE s (.free k)) := by
  simp only [step]
  split
  · rename_i b hb
    obtain ⟨hk, rfl⟩ := List.getElem?_eq_some_iff.mp hb
    have hmem := List.getElem_mem hk
    refine ⟨?_, fun c hc => h.click c (List.mem_of_mem_eraseIdx hc),
      fun c hc => h.aligned c (List.mem_of_mem_eraseIdx hc)⟩
    have hperm := (List.getElem_cons_eraseIdx_perm hk).symm.map Block.clicks
    have hgive := (h.tiles.perm hperm).give
    simp only [FreeMem, if_pos (h.click _ hmem).2.2.1, mfree]
    exact hgive
  · exact h

/-- A block that is cut out of the map. -/
theorem Inv.alloc (h : Inv PAGESIZE whole s) {b : Block} {map : Set ℕ}
    (hb : b.ptr % 32 = 0 ∧ 0 < b.ptr ∧ b.ptr < 0x200000 ∧ b.nbytes + 31 < 0x100000000)
    (hpage : b.pageb = true → b.ptr % PAGESIZE = 0)
    (hsub : ChipMemory.clicks (b.ptr / 32) ((b.nbytes + 31) / 32) ⊆ s.map)
    (hmap : map = s.map \ ChipMemory.clicks (b.ptr / 32) ((b.nbytes + 31) / 32)) :
    Inv PAGESIZE whole ⟨map, b :: s.live⟩ where
  tiles := by
    rw [hmap, ← Block.clicks_eq hb]
    rw [← Block.clicks_eq hb] at hsub
    exact h.tiles.take hsub
  click c hc := by
    rcases List.mem_cons.mp hc with rfl | hc
    · exact hb
    · exact h.click c hc
  aligned c hc := by
    rcases List.mem_cons.mp hc with rfl | hc
    · exact hpage
    · exact h.aligned c hc

variable (PAGESIZE) in
/-- A plain request. -/
theorem AllocMem_plain (hf : Finds malloc) (hwhole : ∀ x ∈ s.map, 0 < x ∧ x < 0x10000)
    {nbytes : ℕ} (hn : nbytes + 31 < 0x100000000) :
    ∃ i, malloc s.map (btoC nbytes) = i ∧
      AllocMem malloc PAGESIZE s.map nbytes false = (32 * i, taken malloc s.map (btoC nbytes)) ∧
      btoC nbytes = (nbytes + 31) / 32 ∧ i < 0x10000 := by
  have hi : malloc s.map (btoC nbytes) < 0x10000 := by
    by_cases h0 : malloc s.map (btoC nbytes) = 0
    · omega
    · exact (hwhole _ (hf _ _ h0).1).2
  refine ⟨_, rfl, ?_, btoC_of_le hn, hi⟩
  simp only [AllocMem, Bool.false_eq_true, if_false]
  rw [Ctob_of_lt (by omega)]

/-- The page boundary at or above `x`. -/
theorem pageUp_spec (hp : 0 < PAGESIZE) {x : ℕ} (hx : x + PAGESIZE ≤ 0x100000000) :
    pageUp PAGESIZE x % PAGESIZE = 0 ∧ x ≤ pageUp PAGESIZE x ∧
      pageUp PAGESIZE x < x + PAGESIZE := by
  unfold pageUp u32
  rw [Nat.mod_eq_of_lt (show x + (PAGESIZE - 1) < 0x100000000 by omega)]
  have hlt := Nat.mod_lt (x + (PAGESIZE - 1)) hp
  refine ⟨?_, by omega, by omega⟩
  exact Nat.mod_eq_zero_of_dvd (Nat.dvd_sub_mod _)

/-- A request for a page boundary that finds room: the block is cut out of the
map, since what lies before and behind it was given back. -/
theorem AllocMem_pageb (hf : Finds malloc) (hwhole : ∀ x ∈ s.map, 0 < x ∧ x < 0x10000)
    (hp : 0 < PAGESIZE ∧ PAGESIZE % 32 = 0 ∧ PAGESIZE ≤ 0x10000)
    {nbytes : ℕ} (hn : nbytes + PAGESIZE + 31 < 0x100000000)
    (hroom : malloc s.map (btoC (u32 (nbytes + PAGESIZE))) ≠ 0) :
    ∃ p, AllocMem malloc PAGESIZE s.map nbytes true =
        (p, s.map \ clicks (p / 32) ((nbytes + 31) / 32)) ∧
      p % PAGESIZE = 0 ∧ p % 32 = 0 ∧ 0 < p ∧ p < 0x200000 ∧
      clicks (p / 32) ((nbytes + 31) / 32) ⊆ s.map := by
  have hn' : btoC (u32 (nbytes + PAGESIZE)) = (nbytes + PAGESIZE + 31) / 32 := by
    have hu32 : u32 (nbytes + PAGESIZE) = nbytes + PAGESIZE := Nat.mod_eq_of_lt (by omega)
    rw [hu32, btoC_of_le (by omega)]
  obtain ⟨hmem, hsub⟩ := hf _ _ hroom
  have hi := hwhole _ hmem
  rw [hn'] at hroom hsub hi
  simp only [AllocMem, if_true, hn']
  generalize hn0 : (nbytes + PAGESIZE + 31) / 32 = n at hroom hsub hi
  rw [taken, if_neg hroom]
  generalize malloc s.map n = i at hroom hsub hi
  have hlast : i + n ≤ 0x10000 := by
    have hin : i + n - 1 ∈ clicks i n := ⟨by omega, by omega⟩
    have := (hwhole _ (hsub hin)).2
    omega
  rw [Ctob_of_lt (by omega)]
  obtain ⟨hpage, hle, hlt⟩ := pageUp_spec (x := 32 * i) hp.1 (by omega)
  generalize hp1 : pageUp PAGESIZE (32 * i) = p at hpage hle hlt
  have hp32 : p % 32 = 0 := by
    have hdvd := Nat.dvd_trans (Nat.dvd_of_mod_eq_zero hp.2.1) (Nat.dvd_of_mod_eq_zero hpage)
    exact Nat.mod_eq_zero_of_dvd hdvd
  have hu32 : u32 (p + nbytes) = p + nbytes := Nat.mod_eq_of_lt (by omega)
  have hhead : p - 32 * i ≤ PAGESIZE := by omega
  rw [hu32, sub32_of_le hle (by omega), sub32_of_le hhead (by omega),
    btoC_of_le (by omega), btoC_of_le (by omega), btoC_of_le (by omega), btoC_of_le (by omega)]
  have hbefore : (p - 32 * i + 31) / 32 = p / 32 - i := by omega
  have hfirst : (32 * i + 31) / 32 = i := by omega
  have htail : (PAGESIZE - (p - 32 * i) + 31) / 32 = i + PAGESIZE / 32 - p / 32 := by omega
  have hbehind : (p + nbytes + 31) / 32 = p / 32 + (nbytes + 31) / 32 := by omega
  rw [hbefore, hfirst, htail, hbehind]
  refine ⟨p, ?_, hpage, hp32, by omega, by omega, fun x hx => hsub ?_⟩
  · refine Prod.ext rfl (Set.ext fun x => ?_)
    simp only [mfree, Set.mem_union, Set.mem_sdiff, mem_clicks]
    by_cases hx : i ≤ x ∧ x < i + n
    · have hmem : x ∈ s.map := hsub hx
      simp only [hmem, true_and, hx, not_true_eq_false, false_or]
      omega
    · have hhead : ¬ (i ≤ x ∧ x < i + (p / 32 - i)) := by omega
      have htail : ¬ (p / 32 + (nbytes + 31) / 32 ≤ x ∧
          x < p / 32 + (nbytes + 31) / 32 + (i + PAGESIZE / 32 - p / 32)) := by omega
      have hblock : ¬ (p / 32 ≤ x ∧ x < p / 32 + (nbytes + 31) / 32) := by omega
      simp only [hx, hhead, htail, hblock, not_false_eq_true, and_true, or_false]
  · rw [mem_clicks] at hx ⊢
    omega

/-! ### Runs -/

section
variable (hf : Finds malloc) (hwhole : ∀ x ∈ whole, 0 < x ∧ x < 0x10000)
  (hp : 0 < PAGESIZE ∧ PAGESIZE % 32 = 0 ∧ PAGESIZE ≤ 0x10000)
include hf hwhole hp

/-- The step: a request that fits, or a block given back, keeps the invariant. -/
theorem Inv.step (h : Inv PAGESIZE whole s) {e : Event} (hfit : Fits malloc PAGESIZE s e) :
    Inv PAGESIZE whole (step malloc PAGESIZE s e) := by
  have hmap : ∀ x ∈ s.map, 0 < x ∧ x < 0x10000 := fun x hx => hwhole x (h.tiles.free_subset hx)
  match e, hfit with
  | .free k, _ => exact h.free k
  | .alloc nbytes false, hn =>
      obtain ⟨i, hi, hr, hn', hlt⟩ := AllocMem_plain PAGESIZE hf hmap hn
      simp only [ChipMemory.step, hr]
      by_cases h0 : i = 0
      · rw [if_pos (by omega), taken, if_pos (hi.trans h0)]
        exact h
      · have hne : malloc s.map (btoC nbytes.toNat) ≠ 0 := by
          rw [hi]
          exact h0
        have hsub := (hf _ _ hne).2
        rw [if_neg (by omega), taken, if_neg hne]
        rw [hi, hn'] at hsub ⊢
        have hdiv : 32 * i / 32 = i := by omega
        refine h.alloc (b := ⟨32 * i, nbytes.toNat, false⟩) ?_ nofun ?_ ?_
        · exact ⟨by simp only; omega, by simp only; omega, by simp only; omega, hn⟩
        · simp only [hdiv]
          exact hsub
        · simp only [hdiv]
  | .alloc nbytes true, hn =>
      obtain ⟨p, hr, hpage, hp32, hpos, hlt, hsub⟩ := AllocMem_pageb hf hmap hp hn.1 hn.2
      simp only [ChipMemory.step, hr]
      rw [if_neg (by omega)]
      have hlast := hn.1
      exact h.alloc (b := ⟨p, nbytes.toNat, true⟩) ⟨hp32, hpos, hlt, by simp only; omega⟩
        (fun _ => hpage) hsub rfl

/-- A request that fits and finds no room leaves the map alone. -/
theorem Inv.failsClean (h : Inv PAGESIZE whole s) {e : Event} (hfit : Fits malloc PAGESIZE s e) :
    FailsClean malloc PAGESIZE s e := by
  have hmap : ∀ x ∈ s.map, 0 < x ∧ x < 0x10000 := fun x hx => hwhole x (h.tiles.free_subset hx)
  match e, hfit with
  | .free k, _ => trivial
  | .alloc nbytes false, hn =>
      obtain ⟨i, hi, hr, -, -⟩ := AllocMem_plain PAGESIZE hf hmap hn
      simp only [FailsClean, Bool.false_eq_true, if_false, hr, hi]
      refine ⟨fun h0 => by omega, fun h0 => ?_⟩
      rw [taken, if_pos (by omega)]
  | .alloc nbytes true, hn =>
      obtain ⟨p, hr, -, -, hpos, -⟩ := AllocMem_pageb hf hmap hp hn.1 hn.2
      simp only [FailsClean, if_true, hr]
      exact ⟨fun h0 => absurd h0 hn.2, fun h0 => absurd h0 (by omega)⟩

omit hwhole in
/-- From the map of `meminit` on, in every run of requests that fit and of blocks
given back, the blocks stay apart and inside the memory, a request that fails
changes nothing, and when no block is live the map is as it was. -/
theorem chip_memory_sound {chipmem : ℕ} (hchip : SKIPZERO ≤ chipmem ∧ chipmem ≤ 0x200000)
    {es : List Event} (hfit : Every (ChipMemory.step malloc PAGESIZE) (Fits malloc PAGESIZE)
      (meminit chipmem) es) :
    Every (ChipMemory.step malloc PAGESIZE) (fun s e => FailsClean malloc PAGESIZE s e ∧
      Sound PAGESIZE (meminit chipmem).map (ChipMemory.step malloc PAGESIZE s e))
      (meminit chipmem) es := by
  have hwhole : ∀ x ∈ (meminit chipmem).map, 0 < x ∧ x < 0x10000 := by
    intro x hx
    rw [meminit, mfree, Set.empty_union, mem_clicks, sub32_of_le hchip.1 (by omega)] at hx
    unfold SKIPZERO at hchip hx
    rw [btoC_of_le (by omega), btoC_of_le (by omega)] at hx
    omega
  have hstart : Inv PAGESIZE (meminit chipmem).map (meminit chipmem) :=
    ⟨tiles_all_free _, fun b hb => absurd hb List.not_mem_nil,
      fun b hb => absurd hb List.not_mem_nil⟩
  refine every_of_invariant (Inv PAGESIZE (meminit chipmem).map)
    (fun s e h hg => h.step hf hwhole hp hg)
    (fun s e h hg => ⟨h.failsClean hf hwhole hp hg, (h.step hf hwhole hp hg).sound⟩) hstart hfit

end

section
open Classical

/-- The first place with enough clicks. -/
noncomputable def firstFit (map : Set ℕ) (n : ℕ) : ℕ :=
  if h : ∃ i, 0 < i ∧ clicks i (max n 1) ⊆ map then Nat.find h else 0

theorem firstFit_finds : Finds firstFit := by
  intro map n hne
  unfold firstFit at hne ⊢
  by_cases h : ∃ i, 0 < i ∧ clicks i (max n 1) ⊆ map
  case neg =>
    rw [dif_neg h] at hne
    exact absurd rfl hne
  rw [dif_pos h]
  have hsub := (Nat.find_spec h).2
  generalize Nat.find h = i at hsub
  refine ⟨hsub ⟨le_rfl, by omega⟩, fun x hx => hsub ?_⟩
  rw [mem_clicks] at hx ⊢
  omega

theorem firstFit_ne_zero {map : Set ℕ} {n i : ℕ} (hi : 0 < i) (h : clicks i (max n 1) ⊆ map) :
    firstFit map n ≠ 0 := by
  have hex : ∃ i, 0 < i ∧ clicks i (max n 1) ⊆ map := ⟨i, hi, h⟩
  rw [firstFit, dif_pos hex]
  exact Nat.ne_of_gt (Nat.find_spec hex).1

end

theorem meminit_map (chipmem : ℕ) (h : SKIPZERO ≤ chipmem ∧ chipmem ≤ 0x200000) :
    (meminit chipmem).map = clicks 64 ((chipmem - 2048 + 31) / 32) := by
  rw [meminit, mfree, Set.empty_union, sub32_of_le h.1 (by omega)]
  unfold SKIPZERO at h ⊢
  rw [btoC_of_le (by omega), btoC_of_le (by omega)]

/-- Half a megabyte: 100 bytes at a page boundary, and back. -/
theorem chip_memory_sound_page :
    Every (ChipMemory.step firstFit 4096) (fun s e => FailsClean firstFit 4096 s e ∧
      Sound 4096 (meminit 0x80000).map (ChipMemory.step firstFit 4096 s e))
      (meminit 0x80000) [.alloc 100 true, .free 0] := by
  refine chip_memory_sound firstFit_finds (by decide) (by decide)
    ⟨⟨by decide, ?_⟩, trivial, trivial⟩
  rw [meminit_map _ (by decide)]
  refine firstFit_ne_zero (i := 64) (by decide) fun x hx => ?_
  have hn : btoC (u32 ((100 : BitVec 32).toNat + 4096)) = 132 := by decide
  rw [hn, mem_clicks] at hx
  rw [mem_clicks]
  omega

/-- Two kilobytes, and a request for a page: the map had no room, and has a page more. -/
theorem chip_memory_sound_fails :
    ¬ ∀ malloc PAGESIZE chipmem es, Finds malloc →
      (0 < PAGESIZE ∧ PAGESIZE % 32 = 0 ∧ PAGESIZE ≤ 0x10000) →
      (SKIPZERO ≤ chipmem ∧ chipmem ≤ 0x200000) →
      Every (ChipMemory.step malloc PAGESIZE) (fun s e => FailsClean malloc PAGESIZE s e ∧
        Sound PAGESIZE (meminit chipmem).map (ChipMemory.step malloc PAGESIZE s e))
        (meminit chipmem) es := by
  intro h
  obtain ⟨⟨hclean, -⟩, -⟩ := h firstFit 4096 4096 [.alloc 4096 true] firstFit_finds (by decide)
    (by decide)
  have hmap := meminit_map 4096 (by decide)
  have hn : btoC (u32 ((4096 : BitVec 32).toNat + 4096)) = 256 := by decide
  have hroom : firstFit (meminit 4096).map 256 = 0 := by
    rw [firstFit, dif_neg]
    rintro ⟨i, -, hsub⟩
    have hlast : i + 255 ∈ clicks i (max 256 1) := ⟨by omega, by omega⟩
    have hfirst : i ∈ clicks i (max 256 1) := ⟨le_rfl, by omega⟩
    have hlast' := hsub hlast
    have hfirst' := hsub hfirst
    rw [hmap, mem_clicks] at hlast' hfirst'
    omega
  simp only [FailsClean, AllocMem, if_true, hn, hroom] at hclean
  have hsame := hclean.2 (by decide)
  have hin : 200 ∈ (meminit 4096).map := by
    rw [← hsame]
    refine .inr (mem_clicks.mpr ?_)
    decide
  rw [hmap, mem_clicks] at hin
  omega

end HydraAmix.Console.ChipMemory
