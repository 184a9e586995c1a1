import HydraAmix.Scsi.Bounce
import HydraAmix.Scsi.DataPaths
import Mathlib.Tactic.Set

/-!
# One transfer, by way of a block and directly

The two boards of a controller on the same transfer: one with the driver's own DMA
unit, one with a unit that reaches all of memory. The bytes that have come are in the
block of the one where they are in the buffer of the other. At the end of the transfer
the whole block is copied, also what the target did not fill.
-/
namespace HydraAmix.Scsi.Controller
open Schedule Staging

/-- The two boards of one controller, the second with the unit that reaches all memory. -/
structure Twin where
  bounce : Bounce
  direct : Bounce
  same : direct.TC = bounce.TC

namespace Twin

def twin (C : ChipMem) : DataPath Twin where
  startdma t r n := ⟨t.bounce.startdma C 0x1000000 r n, t.direct.startdma C 0x100000000 r n,
    by rw [(Bounce.startdma_started ..).TC, (Bounce.startdma_started ..).TC]⟩
  stopdma t r := ⟨t.bounce.stopdma r, t.direct.stopdma r,
    by rw [Bounce.stopdma_TC, Bounce.stopdma_TC, t.same]⟩
  TC t := t.bounce.TC
  setTC t n := ⟨t.bounce.setBoard (t.bounce.setRegs (t.bounce.setTC n)),
    t.direct.setBoard (t.direct.setRegs (t.direct.setTC n)), rfl⟩
  setCDB t l := ⟨t.bounce.setBoard (t.bounce.setRegs (t.bounce.setCDB l)),
    t.direct.setBoard (t.direct.setRegs (t.direct.setCDB l)), t.same⟩
  setDI t r := ⟨t.bounce.setBoard (t.bounce.setRegs (t.bounce.setDI r)),
    t.direct.setBoard (t.direct.setRegs (t.direct.setDI r)), t.same⟩
  move t k := ⟨t.bounce.move k, t.direct.move k, congrArg (· - k) t.same⟩

variable {C : ChipMem}

theorem hom_bounce : (twin C).Hom (Bounce.path C 0x1000000) bounce :=
  ⟨fun _ _ _ => rfl, fun _ _ => rfl, fun _ => rfl, fun _ _ => rfl, fun _ _ => rfl,
    fun _ _ => rfl, fun _ _ => rfl⟩

theorem hom_direct : (twin C).Hom (Bounce.path C 0x100000000) direct :=
  ⟨fun _ _ _ => rfl, fun _ _ => rfl, fun t => t.same.symm, fun _ _ => rfl, fun _ _ => rfl,
    fun _ _ => rfl, fun _ _ => rfl⟩

/-- The transfer of the last bytes of a request, of which `k` have been moved, when `saved` are
to come again after a disconnection. -/
structure Session (t : Twin) (r : Sdcom) (saved k : ℕ) : Prop where
  tc_le : t.bounce.tc ≤ r.nbyte % 0x1000000
  saved_le : saved ≤ t.bounce.tc
  kept : t.bounce.tc ≤ saved + k
  k_le : k ≤ t.bounce.tc
  dir : t.bounce.tc ≠ 0 → t.bounce.cntr = r.reading ∧ t.direct.cntr = r.reading
  sac : t.bounce.tc ≠ 0 → t.direct.sac = u32 (r.addr + r.nbyte - t.bounce.tc + k)
  near : t.bounce.tc ≠ 0 → t.bounce.chipaddr = none → t.bounce.sac = t.direct.sac
  block : ∀ a, t.bounce.chipaddr = some a →
    t.bounce.tc ≠ 0 ∧ 0x1000000 ≤ r.addr ∧ a + t.bounce.tc ≤ 0x1000000 ∧ t.bounce.sac = a + k ∧
      (r.reading = true →
        Filled t.bounce.mem t.direct.mem a (r.addr + r.nbyte - t.bounce.tc) k)

/-- The cells that the copy at the end of the transfer writes. -/
def Window (t : Twin) (r : Sdcom) (x : ℕ) : Prop :=
  t.bounce.chipaddr ≠ none ∧ r.reading = true ∧
    r.addr + r.nbyte - t.bounce.tc ≤ x ∧ x < r.addr + r.nbyte - t.bounce.tc + t.bounce.tc

/-- Every block was freed once, with its size, but for the one in hand. -/
def Ledger (d : Bounce) : Prop :=
  d.allocated = d.freed ++ (d.chipaddr.map fun a => (a, d.tc)).toList

/-- What does not change between the ends of transfers: the memory that buffers are in. -/
def SameMem (t t' : Twin) : Prop :=
  t'.direct.mem = t.direct.mem ∧ ∀ x, 0x1000000 ≤ x → t'.bounce.mem x = t.bounce.mem x

/-- A buffer within the address space. -/
def InSpace (r : Sdcom) : Prop := r.addr + r.nbyte ≤ 0x100000000

variable {t : Twin} {r : Sdcom} {saved k n : ℕ}

theorem place_eq (hr : InSpace r) (h0 : n ≠ 0) (hn : n ≤ r.nbyte % 0x1000000) :
    place r n = r.addr + r.nbyte - n := by
  have hmod := Nat.mod_le r.nbyte 0x1000000
  unfold InSpace at hr
  unfold place u32
  omega

/-! ### The start of a transfer -/

/-- A transfer of the last `n` bytes of a request has been started on boards without a block. -/
structure Begun (t t' : Twin) (r : Sdcom) (n : ℕ) : Prop where
  session : Session t' r n 0
  TC : t'.bounce.TC = n
  tc : t'.bounce.tc = n
  ledger : Ledger t'.bounce
  direct : t'.direct.chipaddr = none
  wire : t'.bounce.wire = t.bounce.wire
  wire' : t'.direct.wire = t.direct.wire
  mem : SameMem t t'
  chip : n ≠ 0 → 0x1000000 ≤ r.addr → t'.bounce.chipaddr ≠ none

theorem start_begun (hb : t.bounce.chipaddr = none) (hd : t.direct.chipaddr = none)
    (hl : t.bounce.allocated = t.bounce.freed) (hr : InSpace r) (hn : n ≤ r.nbyte % 0x1000000) :
    Begun t ((twin C).startdma t r n) r n := by
  set t' := (twin C).startdma t r n
  have hle : n ≤ r.nbyte := Nat.le_trans hn (Nat.mod_le _ _)
  have hsmall : n < 0x1000000 := by omega
  have hs : Bounce.Started t.bounce t'.bounce r n := Bounce.startdma_started ..
  have hs' : Bounce.Started t.direct t'.direct r n := Bounce.startdma_started ..
  have hnear : ¬ (n ≠ 0 ∧ 0x100000000 ≤ r.addr) := by
    unfold InSpace at hr
    omega
  obtain ⟨hmem', hchip', -, hsac'⟩ := Bounce.startdma_none (C := C) hnear t.direct
  have hsac : t'.bounce.tc ≠ 0 →
      t'.direct.sac = u32 (r.addr + r.nbyte - t'.bounce.tc + 0) := by
    intro h0
    rw [hs.tc] at h0 ⊢
    refine (hsac' h0).trans ((place_eq hr h0 hn).trans ?_)
    unfold InSpace at hr
    unfold u32
    omega
  have hdir : t'.bounce.tc ≠ 0 → t'.bounce.cntr = r.reading ∧ t'.direct.cntr = r.reading := by
    intro h0
    rw [hs.tc] at h0
    exact ⟨hs.cntr h0, hs'.cntr h0⟩
  have hle₁ : t'.bounce.tc ≤ r.nbyte % 0x1000000 := hs.tc.symm ▸ hn
  have hle₂ : n ≤ t'.bounce.tc := Nat.le_of_eq hs.tc.symm
  have hle₃ : t'.bounce.tc ≤ n + 0 := Nat.le_of_eq hs.tc
  have hchip : t'.direct.chipaddr = none := hchip'.trans hd
  have hsame : SameMem t t' := ⟨hmem', hs.mem hsmall⟩
  by_cases hfar : n ≠ 0 ∧ 0x1000000 ≤ r.addr
  · obtain ⟨a, ha, hsaca, halloc, hlow⟩ := Bounce.startdma_some (C := C) hfar.1 hfar.2 t.bounce
    change t'.bounce.chipaddr = some a at ha
    refine ⟨⟨hle₁, hle₂, hle₃, Nat.zero_le _, hdir, hsac, fun _ h => ?_, fun b hb' => ?_⟩, hs.TC,
      hs.tc, ?_, hchip, hs.wire, hs'.wire, hsame, fun _ _ h => ?_⟩
    · rw [ha] at h
      exact absurd h nofun
    · obtain rfl : a = b := Option.some.inj (ha.symm.trans hb')
      rw [hs.tc]
      exact ⟨hfar.1, hfar.2, hlow hsmall, hsaca, fun _ => filled_zero _ _ _ _⟩
    · rw [Ledger, ha, hs.freed, hs.tc, ← hl]
      exact halloc
    · rw [ha] at h
      exact absurd h nofun
  · obtain ⟨-, hnone, halloc, hsac₀⟩ := Bounce.startdma_none (C := C) hfar t.bounce
    have hb' : t'.bounce.chipaddr = none := hnone.trans hb
    refine ⟨⟨hle₁, hle₂, hle₃, Nat.zero_le _, hdir, hsac, fun h0 _ => ?_, fun a ha => ?_⟩, hs.TC,
      hs.tc, ?_, hchip, hs.wire, hs'.wire, hsame, fun h0 hr => absurd ⟨h0, hr⟩ hfar⟩
    · rw [hs.tc] at h0
      exact (hsac₀ h0).trans (hsac' h0).symm
    · rw [hb'] at ha
      exact absurd ha nofun
    · rw [Ledger, hb', hs.freed, ← hl]
      exact halloc.trans (List.append_nil _).symm

/-- The unit and the direction may also be loaded afterwards. -/
theorem Begun.setDI {t' : Twin} (h : Begun t t' r n) : Begun t ((twin C).setDI t' r) r n :=
  ⟨⟨h.session.tc_le, h.session.saved_le, h.session.kept, h.session.k_le, h.session.dir,
    h.session.sac, h.session.near, h.session.block⟩, h.TC, h.tc, h.ledger, h.direct, h.wire,
    h.wire', h.mem, h.chip⟩

/-! ### The transfer -/

theorem move_nothing {d : Bounce} {j : ℕ} (h : min j d.TC = 0) :
    (d.move j).mem = d.mem ∧ (d.move j).wire = d.wire := by
  unfold Bounce.move
  dsimp only
  rw [h, put_zero]
  exact ⟨ite_self _, ite_self _⟩

/-- The bytes that come go to their places in the one memory, and in the other to the
same places or to the block. -/
theorem Session.move_mem (h : Session t r saved k) (hr : InSpace r) {j : ℕ}
    (hj : k + min j t.bounce.TC ≤ t.bounce.tc) (hw : t.direct.wire = t.bounce.wire) :
    (t.direct.move j).wire = (t.bounce.move j).wire ∧
    (t.direct.move j).mem = (if r.reading then put t.direct.mem
      (r.addr + r.nbyte - t.bounce.tc + k) (min j t.bounce.TC) t.bounce.wire else t.direct.mem) ∧
    ∃ p, (t.bounce.move j).mem = (if r.reading then put t.bounce.mem p (min j t.bounce.TC)
        t.bounce.wire else t.bounce.mem) ∧
      (t.bounce.chipaddr = none → p = r.addr + r.nbyte - t.bounce.tc + k) ∧
      ∀ a, t.bounce.chipaddr = some a → p = a + k := by
  have hsame : min j t.direct.TC = min j t.bounce.TC := by rw [t.same]
  by_cases hn : min j t.bounce.TC = 0
  · obtain ⟨hm, hwire⟩ := move_nothing hn
    obtain ⟨hm', hwire'⟩ := move_nothing (hsame.trans hn)
    rw [hm, hm', hwire, hwire', hw, hn, put_zero, ite_self]
    refine ⟨rfl, rfl, t.bounce.chipaddr.elim (r.addr + r.nbyte - t.bounce.tc + k) (· + k), ?_,
      fun ha => by rw [ha]; rfl, fun a ha => by rw [ha]; rfl⟩
    rw [put_zero, ite_self]
  · have h0 : t.bounce.tc ≠ 0 := by omega
    obtain ⟨hdir, hdir'⟩ := h.dir h0
    have hsac : t.direct.sac = r.addr + r.nbyte - t.bounce.tc + k := by
      have hle := Nat.le_trans h.tc_le (Nat.mod_le _ _)
      rw [h.sac h0]
      unfold InSpace at hr
      unfold u32
      omega
    refine ⟨?_, ?_, t.bounce.sac, ?_, fun ha => (h.near h0 ha).trans hsac,
      fun a ha => (h.block a ha).2.2.2.1⟩
    · unfold Bounce.move
      dsimp only
      rw [hdir, hdir', hsame, hw]
    · unfold Bounce.move
      dsimp only
      rw [hdir', hsame, hw, hsac]
    · unfold Bounce.move
      dsimp only
      rw [hdir]

theorem Session.move (h : Session t r saved k) (hr : InSpace r) {j : ℕ}
    (hj : k + min j t.bounce.TC ≤ t.bounce.tc) (hw : t.direct.wire = t.bounce.wire) :
    Session ((twin C).move t j) r saved (k + min j t.bounce.TC) := by
  obtain ⟨-, hd, p, hb, -, hp⟩ := h.move_mem hr hj hw
  refine ⟨h.tc_le, h.saved_le, Nat.le_trans h.kept (by omega), hj, h.dir, fun h0 => ?_,
    fun h0 ha => ?_, fun a ha => ?_⟩
  · change u32 (t.direct.sac + min j t.direct.TC) =
      u32 (r.addr + r.nbyte - t.bounce.tc + (k + min j t.bounce.TC))
    rw [t.same, h.sac h0]
    unfold u32
    omega
  · change u32 (t.bounce.sac + min j t.bounce.TC) = u32 (t.direct.sac + min j t.direct.TC)
    rw [t.same, h.near h0 ha]
  · obtain ⟨h0, hfar, hlow, hsac, hfill⟩ := h.block a ha
    refine ⟨h0, hfar, hlow, ?_, fun hread => ?_⟩
    · change u32 (t.bounce.sac + min j t.bounce.TC) = a + (k + min j t.bounce.TC)
      rw [hsac]
      change a + t.bounce.tc ≤ 0x1000000 at hlow
      unfold u32
      omega
    · change Filled (t.bounce.move j).mem (t.direct.move j).mem a
        (r.addr + r.nbyte - t.bounce.tc) (k + min j t.bounce.TC)
      rw [hb, hd, if_pos hread, if_pos hread, hp a ha]
      exact (hfill hread).put _ _

/-- Outside the window of the transfer the memories go on to agree. -/
theorem Session.move_agree (h : Session t r saved k) (hr : InSpace r) {j : ℕ}
    (hj : k + min j t.bounce.TC ≤ t.bounce.tc) (hw : t.direct.wire = t.bounce.wire)
    {W : ℕ → Prop}
    (hag : Agree 0x1000000 (fun x => W x ∨ Window t r x) t.bounce.mem t.direct.mem) :
    Agree 0x1000000 (fun x => W x ∨ Window t r x) (t.bounce.move j).mem (t.direct.move j).mem := by
  obtain ⟨-, hd, p, hb, hnone, hsome⟩ := h.move_mem hr hj hw
  rw [hd, hb]
  by_cases hread : r.reading = true
  · rw [if_pos hread, if_pos hread]
    cases ha : t.bounce.chipaddr with
    | none =>
        rw [hnone ha]
        exact hag.put_both _ _ _
    | some a =>
        obtain ⟨-, -, hlow, -, -⟩ := h.block a ha
        rw [hsome a ha]
        refine (hag.put_low (by omega) _).put_exempt (fun x hx hx' => .inr ⟨?_, hread, ?_, ?_⟩) _
        · rw [ha]
          nofun
        · omega
        · omega
  · rw [if_neg hread, if_neg hread]
    exact hag

/-- What the target does not reach keeps what it held. -/
theorem Session.move_behind (h : Session t r saved k) (hr : InSpace r) {j : ℕ}
    (hj : k + min j t.bounce.TC ≤ t.bounce.tc) (hw : t.direct.wire = t.bounce.wire) {a i : ℕ}
    (ha : t.bounce.chipaddr = some a) (hi : k + min j t.bounce.TC ≤ i) :
    (t.bounce.move j).mem (a + i) = t.bounce.mem (a + i) ∧
      (t.direct.move j).mem (r.addr + r.nbyte - t.bounce.tc + i) =
        t.direct.mem (r.addr + r.nbyte - t.bounce.tc + i) := by
  obtain ⟨-, hd, p, hb, -, hsome⟩ := h.move_mem hr hj hw
  rw [hd, hb, hsome a ha]
  by_cases hread : r.reading = true
  · rw [if_pos hread, if_pos hread]
    exact ⟨put_outside (by omega), put_outside (by omega)⟩
  · rw [if_neg hread, if_neg hread]
    exact ⟨rfl, rfl⟩

/-! ### The end of a transfer -/

/-- The block is copied and freed. What it holds behind what the target sent has to be what
belongs there, but for the cells that remain exempt. -/
theorem Session.stop (h : Session t r saved k) (hr : InSpace r) {W V : ℕ → Prop}
    (hag : Agree 0x1000000 (fun x => W x ∨ Window t r x) t.bounce.mem t.direct.mem)
    (hW : ∀ x, W x → V x)
    (hrest : ∀ a, t.bounce.chipaddr = some a → r.reading = true → ∀ i, k ≤ i →
      i < t.bounce.tc → ¬ V (r.addr + r.nbyte - t.bounce.tc + i) →
      t.bounce.mem (a + i) = t.direct.mem (r.addr + r.nbyte - t.bounce.tc + i)) :
    Agree 0x1000000 V (t.bounce.stopdma r).mem t.direct.mem := by
  cases ha : t.bounce.chipaddr with
  | none =>
      rw [Bounce.stopdma_none ha]
      exact hag.mono fun x hx => hx.elim (hW x) fun hw => absurd ha hw.1
  | some a =>
      obtain ⟨h0, -, -, -, hfill⟩ := h.block a ha
      rw [Bounce.stopdma_some h0 ha]
      dsimp only
      by_cases hread : r.reading = true
      · rw [if_pos hread, place_eq hr h0 h.tc_le]
        refine Agree.copy (hag.mono fun x hx => hx.imp_right fun hw => hw.2.2) (hfill hread) hW ?_
        exact hrest a ha hread
      · rw [if_neg hread]
        exact hag.mono fun x hx => hx.elim (hW x) fun hw => absurd hw.2.1 hread

/-- A cell of the window gets what its place in the block holds. -/
theorem Session.stop_window (h : Session t r saved k) (hr : InSpace r) {a i : ℕ}
    (ha : t.bounce.chipaddr = some a) (hread : r.reading = true) (hi : i < t.bounce.tc) :
    (t.bounce.stopdma r).mem (r.addr + r.nbyte - t.bounce.tc + i) = t.bounce.mem (a + i) := by
  obtain ⟨h0, -⟩ := h.block a ha
  rw [Bounce.stopdma_some h0 ha]
  dsimp only
  rw [if_pos hread, place_eq hr h0 h.tc_le, copy, put_inside (by omega) (by omega),
    Nat.add_sub_cancel_left]

theorem stop_board (h : Session t r saved k) (hl : Ledger t.bounce) :
    (t.bounce.stopdma r).chipaddr = none ∧
      (t.bounce.stopdma r).allocated = (t.bounce.stopdma r).freed ∧
      (t.bounce.stopdma r).wire = t.bounce.wire := by
  unfold Ledger at hl
  cases ha : t.bounce.chipaddr with
  | none =>
      rw [Bounce.stopdma_none ha]
      rw [ha] at hl
      exact ⟨ha, hl.trans (List.append_nil _), rfl⟩
  | some a =>
      rw [Bounce.stopdma_some (h.block a ha).1 ha]
      rw [ha] at hl
      exact ⟨rfl, hl, rfl⟩

end Twin

end HydraAmix.Scsi.Controller
