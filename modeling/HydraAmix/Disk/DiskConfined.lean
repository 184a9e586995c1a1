import HydraAmix.Disk.DdStrategy
import Mathlib.Tactic.Ring

/-!
# Where disk transfers stay inside their partition

`sdvalid` adds the block number and the rounded count as 32-bit longs, the
command's count is 16 bits of the count rounded down, and its block number again
a 32-bit sum. A request whose sums do not wrap, of whole blocks, fewer than
65536, stays inside; every other request that is accepted does not.
-/
namespace HydraAmix.Disk

variable (partab : Partab)

/-- The blocks of the request's command lie in its partition, and are enough for its bytes. -/
def Within (bp : Buf) : Prop :=
  let c := ioCommand partab bp
  (∀ i < c.count.toNat, (partab bp.edev).base.toNat ≤ c.block.toNat + i ∧
    c.block.toNat + i < (partab bp.edev).base.toNat + (partab bp.edev).len.toNat) ∧
  c.nbyte.toNat ≤ 512 * c.count.toNat

/-- A request is confined: it stays within its partition, or it is completed with an
error and its whole count left over, and touches nothing. -/
def Confined (bp : Buf) : Prop :=
  if sdvalid partab bp = true then Within partab bp
  else ∀ s : Disks, s.ddstrategy partab bp = s.refuse (bp.setResid bp.bcount).setError

/-- Whole blocks, fewer than 65536, and no sum that wraps. -/
def FitsPartition (bp : Buf) : Prop :=
  bp.bcount.toNat % 512 = 0 ∧ bp.bcount.toNat < 0x2000000 ∧
    (bp.bcount.toNat = 0 ∨ bp.blkno.toNat + bp.bcount.toNat / 512 < 0x100000000 ∧
      (partab bp.edev).base.toNat + bp.blkno.toNat < 0x100000000)

variable {partab}

theorem count_toNat (bp : Buf) :
    (ioCommand partab bp).count.toNat = bp.bcount.toNat / 512 % 0x10000 := by
  have hdiv : (bp.bcount / BSIZE).toNat = bp.bcount.toNat / 512 := BitVec.toNat_udiv
  change ((bp.bcount / BSIZE).setWidth 16).toNat = _
  rw [BitVec.toNat_setWidth, hdiv]

theorem block_toNat (bp : Buf) : (ioCommand partab bp).block.toNat =
    ((partab bp.edev).base.toNat + bp.blkno.toNat) % 0x100000000 := BitVec.toNat_add _ _

/-- The command has enough blocks for its bytes if they are whole blocks and not too many. -/
theorem covers_iff (bp : Buf) :
    bp.bcount.toNat ≤ 512 * (ioCommand partab bp).count.toNat ↔
      bp.bcount.toNat % 512 = 0 ∧ bp.bcount.toNat < 0x2000000 := by
  rw [count_toNat]
  omega

/-- For a partition, `sdvalid` compares a sum that may wrap. -/
theorem sdvalid_iff {bp : Buf} (hpart : sdpart bp.edev ≠ 0)
    (hfull : bp.bcount.toNat % 512 = 0 ∧ bp.bcount.toNat < 0x2000000) :
    sdvalid partab bp = true ↔
      (bp.blkno.toNat + bp.bcount.toNat / 512) % 0x100000000 ≤ (partab bp.edev).len.toNat := by
  have hround : ((bp.bcount + (BSIZE - 1)) / BSIZE).toNat = bp.bcount.toNat / 512 := by
    have hsum : (bp.bcount + (BSIZE - 1)).toNat = bp.bcount.toNat + 511 := by
      rw [BitVec.toNat_add]
      exact Nat.mod_eq_of_lt (show bp.bcount.toNat + 511 < 2 ^ 32 by omega)
    rw [BitVec.toNat_udiv, hsum]
    change (bp.bcount.toNat + 511) / 512 = _
    omega
  unfold sdvalid
  rw [Bool.or_eq_true, decide_eq_true_eq, decide_eq_true_eq, BitVec.le_def, BitVec.toNat_add,
    hround]
  exact ⟨fun h => h.resolve_left hpart, .inr⟩

/-- A request for a partition is confined if and only if it is refused or it fits. -/
theorem confined_iff {bp : Buf} (hpart : sdpart bp.edev ≠ 0) :
    Confined partab bp ↔ sdvalid partab bp = false ∨ FitsPartition partab bp := by
  unfold Confined
  by_cases hv : sdvalid partab bp = true
  · rw [if_pos hv, hv]
    simp only [Bool.true_eq_false, false_or]
    unfold Within FitsPartition
    simp only
    rw [show (ioCommand partab bp).nbyte = bp.bcount from rfl, covers_iff, and_comm, and_assoc]
    refine and_congr_right fun hwhole => and_congr_right fun hcount => ?_
    have hlen := (sdvalid_iff hpart ⟨hwhole, hcount⟩).mp hv
    rw [count_toNat, block_toNat]
    have hbase := (partab bp.edev).base.isLt
    have hblkno := bp.blkno.isLt
    have hmax := (partab bp.edev).len.isLt
    generalize (partab bp.edev).base.toNat = base at *
    generalize (partab bp.edev).len.toNat = len at *
    generalize bp.blkno.toNat = blkno at *
    have hn : bp.bcount.toNat / 512 % 0x10000 = bp.bcount.toNat / 512 := by omega
    have hzero : bp.bcount.toNat = 0 ↔ bp.bcount.toNat / 512 = 0 := by omega
    rw [hn, hzero]
    have hsmall : bp.bcount.toNat / 512 < 0x10000 := by omega
    generalize bp.bcount.toNat / 512 = n at *
    constructor
    · intro h
      by_cases h0 : n = 0
      · exact .inl h0
      · have hfirst := h 0 (by omega)
        have hlast := h (n - 1) (by omega)
        exact .inr (by omega)
    · rintro (h0 | h) i hi
      · omega
      · omega
  · rw [if_neg hv]
    rw [Bool.not_eq_true] at hv
    rw [hv]
    refine ⟨fun _ => .inl rfl, fun _ s => ?_⟩
    rw [Disks.ddstrategy, if_pos hv]

/-- The requests that a raw transfer makes are for its device. -/
theorem pageio_edev {NBPP : Long} {edev : Minor} {read : Bool} {page : ℕ} {ps : List Piece}
    {blkno resid : Long} {bp : Buf} (h : bp ∈ pageio NBPP edev read page blkno resid ps) :
    bp.edev = edev := by
  induction ps generalizing blkno resid with
  | nil => exact absurd h List.not_mem_nil
  | cons p ps ih =>
      unfold pageio at h
      simp only at h
      split_ifs at h
      all_goals first
        | exact absurd h List.not_mem_nil
        | skip
      all_goals
        rcases List.mem_cons.mp h with rfl | h
        · rfl
      all_goals first
        | exact absurd h List.not_mem_nil
        | exact ih h

theorem raw_edev {NBPP : Long} {uiophysio : Long → Long → List (Long × Long × List Piece)}
    {dev : Minor} {read : Bool} {page : ℕ} {offset resid : Long} {bp : Buf}
    (h : bp ∈ raw NBPP partab uiophysio dev read page offset resid) : bp.edev = dev := by
  unfold raw at h
  split at h
  · exact absurd h List.not_mem_nil
  · obtain ⟨r, -, hr⟩ := List.mem_flatMap.mp h
    exact pageio_edev hr

/-- Requests for a partition, handed to the driver directly or by a raw transfer, are
confined exactly if they are refused or fit. -/
theorem disk_confined_iff (partab : Partab) (dev : Minor) (hpart : sdpart dev ≠ 0) :
    (∀ bp : Buf, bp.edev = dev →
      (Confined partab bp ↔ sdvalid partab bp = false ∨ FitsPartition partab bp)) ∧
    ∀ NBPP uiophysio read page offset resid,
      ((∀ bp ∈ raw NBPP partab uiophysio dev read page offset resid, Confined partab bp) ↔
        ∀ bp ∈ raw NBPP partab uiophysio dev read page offset resid,
          sdvalid partab bp = false ∨ FitsPartition partab bp) := by
  refine ⟨fun bp hdev => confined_iff (hdev ▸ hpart),
    fun NBPP uiophysio read page offset resid => ?_⟩
  refine forall₂_congr fun bp hbp => confined_iff ?_
  rw [raw_edev hbp]
  exact hpart

/-- A partition of 100 blocks from block 1000 on. -/
def hundred : Partab := fun _ => ⟨1000#32, 100#32⟩

/-- Two blocks at its end. -/
theorem disk_confined_iff_end :
    Confined hundred ⟨0, 0x10#8, 98#32, 1024#32, true, 0, false, 0#32⟩ :=
  ((disk_confined_iff hundred 0x10#8 (by decide)).1 _ rfl).mpr
    (.inr ⟨by decide, by decide, .inr (by decide)⟩)

/-- Block -1 of the partition: one block past the sum is 0, and block 999 is read. -/
theorem disk_confined_iff_fails :
    ¬ ∀ partab : Partab, ∀ bp : Buf, sdpart bp.edev ≠ 0 → Confined partab bp := by
  intro h
  have hconf := h hundred ⟨0, 0x10#8, 0xffffffff#32, 512#32, true, 0, false, 0#32⟩ (by decide)
  rw [Confined, if_pos (by decide)] at hconf
  have hfirst := (hconf.1 0 (by decide)).1
  exact absurd hfirst (by decide)

end HydraAmix.Disk
