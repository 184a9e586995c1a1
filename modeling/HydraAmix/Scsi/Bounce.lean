import HydraAmix.Library.Staging
import HydraAmix.Scsi.DataPaths
import Mathlib.Data.Nat.Notation

/-!
# The A2091 and memory

The DMA unit of the A2091 reaches the first 16 MB. A buffer above goes by way of
a block of chip memory: `startdma` gets it, `stopdma` copies from it and frees it.

Here the data path has the memory, the bytes that the targets send, and what was
allocated and freed. What a block holds when it is given is any. With a DMA unit
that reaches all of memory the same driver never takes a block, which is the other
path that is run beside the driver's own, in a pair whose transfer counts are equal.
-/
namespace HydraAmix.Scsi.Controller
open Staging

/-- The bytes of memory, and the bytes on the bus from the next one on. -/
abbrev Mem := ℕ → BitVec 8

/-- `AllocMem(size, MEMF_CHIP)` by the number of calls before it, and what the block holds
then. Chip memory lies below 16 MB; where there is none left the driver panics. -/
structure ChipMem where
  AllocMem : ℕ → ℕ → ℕ
  held : ℕ → Mem
  low : ∀ n size, size < 0x1000000 → AllocMem n size + size ≤ 0x1000000

/-- An A2091 with memory and the log of `AllocMem` and `FreeMem`, by address and size. -/
structure Bounce extends A2091 where
  mem : Mem
  wire : Mem
  allocated : List (ℕ × ℕ)
  freed : List (ℕ × ℕ)

/-- Where the last `tc` bytes of the buffer are. -/
def place (r : Sdcom) (tc : ℕ) : ℕ := u32 (r.addr + r.nbyte + 0x100000000 - tc)

namespace Bounce

def setBoard (d : Bounce) (b : A2091) : Bounce := { d with toA2091 := b }

def setMem (d : Bounce) (m : Mem) : Bounce := { d with mem := m }

/-- `cp->chipaddr = AllocMem( cp->tc, MEMF_CHIP)`. -/
def alloc (C : ChipMem) (d : Bounce) (a : ℕ) : Bounce :=
  { d with
    chipaddr := some a
    mem := put d.mem a d.tc (C.held d.allocated.length)
    allocated := d.allocated ++ [(a, d.tc)] }

/-- `FreeMem( cp->chipaddr, cp->tc)`, and the address is cleared. -/
def free (d : Bounce) (a : ℕ) : Bounce :=
  { d with chipaddr := none, freed := d.freed ++ [(a, d.tc)] }

def bcopy (d : Bounce) (src dst n : ℕ) : Bounce := d.setMem (copy d.mem src dst n)

/-- `startdma`, with a DMA unit that reaches the addresses below `reach`. -/
def startdma (C : ChipMem) (reach : ℕ) (d : Bounce) (r : Sdcom) (tc : ℕ) : Bounce :=
  let d := d.setBoard ((d.toA2091.setRegs (d.setTC tc)).setTransfer tc d.chipaddr)
  if tc = 0 then d
  else if reach ≤ r.addr then
    let a := C.AllocMem d.allocated.length tc
    let d := d.alloc C a
    let d := if r.reading then d else d.bcopy (place r tc) a tc
    d.setBoard (d.toA2091.setRegs (d.setDma a r.reading))
  else d.setBoard (d.toA2091.setRegs (d.setDma (place r tc) r.reading))

def stopdma (d : Bounce) (r : Sdcom) : Bounce :=
  if d.tc = 0 then d
  else match d.chipaddr with
    | some a => (if r.reading then d.bcopy a (place r d.tc) d.tc else d).free a
    | none => d

/-- The DMA unit stores what the target sends where its address is. -/
def move (d : Bounce) (k : ℕ) : Bounce :=
  let n := min k d.TC
  let m := if d.cntr then put d.mem d.sac n d.wire else d.mem
  let w := if d.cntr then fun i => d.wire (i + n) else d.wire
  { d with toA2091 := d.toA2091.setRegs (d.toA2091.move k), mem := m, wire := w }

/-- The driver with a DMA unit that reaches the addresses below `reach`. -/
def path (C : ChipMem) (reach : ℕ) : DataPath Bounce where
  startdma := startdma C reach
  stopdma := stopdma
  TC d := d.TC
  setTC d n := d.setBoard (d.toA2091.setRegs (d.setTC n))
  setCDB d l := d.setBoard (d.toA2091.setRegs (d.setCDB l))
  setDI d r := d.setBoard (d.toA2091.setRegs (d.setDI r))
  move := move

/-- An A2091 whose registers are 0, with memory and the bytes that the targets will send. -/
def clear (m w : Mem) : Bounce :=
  { TC := 0, CDB := [], DI := (0#3, false), sac := 0, cntr := false, tc := 0, chipaddr := none,
    mem := m, wire := w, allocated := [], freed := [] }

variable {C : ChipMem} {d : Bounce} {r : Sdcom} {reach tc : ℕ}

theorem startdma_zero (C : ChipMem) (reach : ℕ) (d : Bounce) (r : Sdcom) :
    d.startdma C reach r 0 =
      d.setBoard ((d.toA2091.setRegs (d.setTC 0)).setTransfer 0 d.chipaddr) := by
  unfold startdma
  rw [if_pos rfl]

/-- A transfer to where the DMA unit reaches touches no memory. -/
theorem startdma_near (h0 : tc ≠ 0) (hr : ¬ reach ≤ r.addr) :
    d.startdma C reach r tc =
      d.setBoard ⟨((d.setTC tc).setDma (place r tc) r.reading), tc, d.chipaddr⟩ := by
  unfold startdma
  rw [if_neg h0, if_neg hr]
  rfl

/-- A transfer to where it does not gets a block; otherwise memory is unchanged. -/
theorem startdma_far (h0 : tc ≠ 0) (hr : reach ≤ r.addr) :
    ∃ m, d.startdma C reach r tc =
      { toRegs := (d.setTC tc).setDma (C.AllocMem d.allocated.length tc) r.reading
        tc := tc
        chipaddr := some (C.AllocMem d.allocated.length tc)
        mem := m
        wire := d.wire
        allocated := d.allocated ++ [(C.AllocMem d.allocated.length tc, tc)]
        freed := d.freed } ∧ (tc < 0x1000000 → ∀ x, 0x1000000 ≤ x → m x = d.mem x) := by
  have hheld : tc < 0x1000000 → ∀ (m : Mem) w x, 0x1000000 ≤ x →
      put m (C.AllocMem d.allocated.length tc) tc w x = m x := by
    intro htc m w x hx
    have hlow := C.low d.allocated.length tc htc
    exact put_outside (by omega)
  unfold startdma
  rw [if_neg h0, if_pos hr]
  by_cases hread : r.reading = true
  · exact ⟨put d.mem (C.AllocMem d.allocated.length tc) tc (C.held d.allocated.length),
      by dsimp only; rw [if_pos hread]; rfl, fun htc x hx => hheld htc _ _ x hx⟩
  · exact ⟨copy (put d.mem (C.AllocMem d.allocated.length tc) tc (C.held d.allocated.length))
      (place r tc) (C.AllocMem d.allocated.length tc) tc, by dsimp only; rw [if_neg hread]; rfl,
      fun htc x hx => (hheld htc _ _ x hx).trans (hheld htc _ _ x hx)⟩

/-- The board that `startdma` loads is the one without memory. -/
theorem startdma_board (d : Bounce) (r : Sdcom) (tc : ℕ) :
    (d.startdma C 0x1000000 r tc).toA2091 =
      A2091.startdma (C.AllocMem d.allocated.length) d.toA2091 r tc := by
  unfold A2091.startdma
  by_cases h0 : tc = 0
  · subst h0
    rw [startdma_zero, if_pos rfl]
    rfl
  · rw [if_neg h0]
    by_cases hr : 0x1000000 ≤ r.addr
    · obtain ⟨m, hm, -⟩ := startdma_far (C := C) (d := d) h0 hr
      rw [hm, if_pos hr]
      rfl
    · rw [startdma_near h0 hr, if_neg hr]
      rfl

/-- What every start of a transfer does. -/
structure Started (d d' : Bounce) (r : Sdcom) (n : ℕ) : Prop where
  TC : d'.TC = n
  tc : d'.tc = n
  wire : d'.wire = d.wire
  freed : d'.freed = d.freed
  mem : n < 0x1000000 → ∀ x, 0x1000000 ≤ x → d'.mem x = d.mem x
  cntr : n ≠ 0 → d'.cntr = r.reading

theorem startdma_started (C : ChipMem) (reach : ℕ) (d : Bounce) (r : Sdcom) (tc : ℕ) :
    Started d (d.startdma C reach r tc) r tc := by
  by_cases h0 : tc = 0
  · subst h0
    rw [startdma_zero]
    exact ⟨rfl, rfl, rfl, rfl, fun _ _ _ => rfl, fun h => absurd rfl h⟩
  · by_cases hr : reach ≤ r.addr
    · obtain ⟨m, hm, hsame⟩ := startdma_far (C := C) (d := d) h0 hr
      rw [hm]
      exact ⟨rfl, rfl, rfl, rfl, hsame, fun _ => rfl⟩
    · rw [startdma_near h0 hr]
      exact ⟨rfl, rfl, rfl, rfl, fun _ _ _ => rfl, fun _ => rfl⟩

/-- Nothing is to come, or the DMA unit reaches the buffer. -/
theorem startdma_none (h : ¬ (tc ≠ 0 ∧ reach ≤ r.addr)) (d : Bounce) :
    (d.startdma C reach r tc).mem = d.mem ∧ (d.startdma C reach r tc).chipaddr = d.chipaddr ∧
      (d.startdma C reach r tc).allocated = d.allocated ∧
      (tc ≠ 0 → (d.startdma C reach r tc).sac = place r tc) := by
  by_cases h0 : tc = 0
  · subst h0
    rw [startdma_zero]
    exact ⟨rfl, rfl, rfl, fun h => absurd rfl h⟩
  · rw [startdma_near h0 fun hr => h ⟨h0, hr⟩]
    exact ⟨rfl, rfl, rfl, fun _ => rfl⟩

theorem startdma_some (h0 : tc ≠ 0) (hr : reach ≤ r.addr) (d : Bounce) :
    ∃ a, (d.startdma C reach r tc).chipaddr = some a ∧ (d.startdma C reach r tc).sac = a ∧
      (d.startdma C reach r tc).allocated = d.allocated ++ [(a, tc)] ∧
      (tc < 0x1000000 → a + tc ≤ 0x1000000) := by
  obtain ⟨m, hm, -⟩ := startdma_far (C := C) (d := d) h0 hr
  rw [hm]
  exact ⟨_, rfl, rfl, rfl, C.low _ _⟩

/-- `stopdma` without a block stops the DMA unit and does nothing else. -/
theorem stopdma_none (h : d.chipaddr = none) (r : Sdcom) : d.stopdma r = d := by
  unfold stopdma
  by_cases h0 : d.tc = 0
  · rw [if_pos h0]
  · rw [if_neg h0, h]

/-- With a block, all of it is copied for a reading request, and it is freed. -/
theorem stopdma_some {a : ℕ} (h0 : d.tc ≠ 0) (h : d.chipaddr = some a) (r : Sdcom) :
    d.stopdma r =
      { toRegs := d.toRegs
        tc := d.tc
        chipaddr := none
        mem := if r.reading then copy d.mem a (place r d.tc) d.tc else d.mem
        wire := d.wire
        allocated := d.allocated
        freed := d.freed ++ [(a, d.tc)] } := by
  unfold stopdma
  rw [if_neg h0, h]
  dsimp only
  by_cases hread : r.reading = true
  · simp only [if_pos hread, free, bcopy, setMem]
  · simp only [if_neg hread, free]

theorem stopdma_TC (d : Bounce) (r : Sdcom) : (d.stopdma r).TC = d.TC := by
  cases hc : d.chipaddr with
  | none => rw [stopdma_none hc]
  | some a =>
      by_cases h0 : d.tc = 0
      · rw [stopdma, if_pos h0]
      · rw [stopdma_some h0 hc]

/-- Seen without memory, this is the data path that the other results are about. -/
theorem hom_board {A : ℕ → ℕ} (hA : ∀ n, C.AllocMem n = A) :
    (path C 0x1000000).Hom (A2091.path A) Bounce.toA2091 where
  startdma d r n := by
    rw [← hA d.allocated.length]
    exact startdma_board d r n
  stopdma d r := by
    change (d.stopdma r).toA2091 = if d.tc = 0 then d.toA2091 else d.setTransfer d.tc none
    by_cases h0 : d.tc = 0
    · rw [stopdma, if_pos h0, if_pos h0]
    · rw [if_neg h0]
      cases hc : d.chipaddr with
      | none =>
          rw [stopdma_none hc, A2091.setTransfer, ← hc]
      | some a =>
          rw [stopdma_some h0 hc]
          rfl
  TC _ := rfl
  setTC _ _ := rfl
  setCDB _ _ := rfl
  setDI _ _ := rfl
  move _ _ := rfl

end Bounce

end HydraAmix.Scsi.Controller
