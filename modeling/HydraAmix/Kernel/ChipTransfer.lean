import HydraAmix.Library.Word
import Mathlib.Data.Nat.Init
import Mathlib.Algebra.GroupWithZero.Nat

/-!
# Transfers of the chip memory device

`amrdwr` lets `uiomove` have the bytes from `uio_offset` on, up to the next page boundary,
and goes on behind them. `uiomove` itself advances `uio_offset` and `uio_resid` by what it
moves; it may fault before it moved everything. `uio_resid` is not negative, so the sums
with it fit an `unsigned int`, and what is moved goes through the user's buffer in order,
so the addresses that are touched say which byte got where.
-/
namespace HydraAmix.Kernel.ChipTransfer
open Word

inductive Errno where
  | ENXIO | EFAULT
  deriving DecidableEq, Repr

inductive UioRw where
  | UIO_READ | UIO_WRITE
  deriving DecidableEq, Repr

abbrev AHWBOT : ℤ := 0xa00000
abbrev AHWTOP : ℤ := 0xe00000

/-- `struct uio`, and the addresses of the bytes that were moved, in the order of the
user's buffer. -/
structure Uio where
  uio_offset : ℤ
  uio_resid : ℕ
  touched : List ℤ
  deriving DecidableEq, Repr

namespace Uio

/-- `n` bytes from the address `p` on are moved. -/
def move (p : ℤ) (n : ℕ) (u : Uio) : Uio where
  uio_offset := int32 (u.uio_offset + n)
  uio_resid := u.uio_resid - n
  touched := u.touched ++ (List.range n).map fun i : ℕ => p + i

/-- `uiomove`, with the number of bytes before a fault, if there is one. -/
def uiomove (fault : Option ℕ) (p : ℤ) (n : ℕ) (u : Uio) : Option Errno × Uio :=
  match fault with
  | some m => if m < n then (some .EFAULT, u.move p m) else (none, u.move p n)
  | none => (none, u.move p n)

/-- `uiop->uio_offset += n`. -/
def skip (n : ℕ) (u : Uio) : Uio := { u with uio_offset := int32 (u.uio_offset + n) }

end Uio

/-- `min(count, NBPC - uio_offset % NBPC)`. -/
def piece (NBPC count : ℕ) (offset : ℤ) : ℕ := min count (NBPC - offset.tmod NBPC).toNat

theorem piece_pos (NBPC : ℕ) [NeZero NBPC] {count : ℕ} (h : count ≠ 0) (offset : ℤ) :
    0 < piece NBPC count offset := by
  have hpos : (0 : ℤ) < NBPC := Int.natCast_pos.mpr (Nat.pos_of_ne_zero (NeZero.ne NBPC))
  have hlt := Int.tmod_lt_of_pos offset hpos
  unfold piece
  omega

theorem piece_le (NBPC count : ℕ) (offset : ℤ) : piece NBPC count offset ≤ count :=
  Nat.min_le_left ..

/-- The loop, from its `turn`-th turn on. -/
def loop (NBPC : ℕ) [NeZero NBPC] (faults : ℕ → Option ℕ) (turn count : ℕ) (u : Uio) :
    Option Errno × Uio :=
  if count = 0 then (none, u)
  else
    let n := piece NBPC count u.uio_offset
    match u.uiomove (faults turn) u.uio_offset n with
    | (some e, u) => (some e, u)
    | (none, u) => loop NBPC faults (turn + 1) (count - n) (u.skip n)
termination_by count
decreasing_by
  have h : count ≠ 0 := by assumption
  exact Nat.sub_lt (Nat.pos_of_ne_zero h) (piece_pos NBPC h _)

/-- The test of the offset. -/
def outside (chipmem offset : ℤ) : Bool :=
  decide (offset < 0 ∨ AHWTOP < offset ∨ (chipmem < offset ∧ offset < AHWBOT))

/-- `count`, cut off at the end of the area. -/
def clamped (chipmem offset : ℤ) (count : ℕ) : ℕ :=
  if offset ≤ chipmem then
    if chipmem < offset + count then (chipmem - offset).toNat else count
  else if AHWTOP < offset + count then (AHWTOP - offset).toNat
  else count

open Errno

/-- `amread` and `amwrite`, with the minor number of the device. -/
def amrdwr (NBPC : ℕ) [NeZero NBPC] (chipmem : ℤ) (faults : ℕ → Option ℕ) (dev : ℕ) (rw : UioRw)
    (u : Uio) : Option Errno × Uio :=
  if dev ≠ 0 then (some ENXIO, u)
  else if u.uio_resid = 0 then (none, u)
  else if outside chipmem u.uio_offset then (some ENXIO, u)
  else
    let count := clamped chipmem u.uio_offset u.uio_resid
    if rw = .UIO_WRITE ∧ count = 0 then (some ENXIO, u)
    else loop NBPC faults 0 count u

/-- An address of the chip memory or of the custom chips. -/
def Allowed (chipmem a : ℤ) : Prop := 0 ≤ a ∧ a ≤ chipmem ∨ AHWBOT ≤ a ∧ a ≤ AHWTOP

/-- The bytes from the first one on were moved, all of them in one of the two areas, and
`uio` was advanced by their number. -/
structure Exact (chipmem : ℤ) (u v : Uio) : Prop where
  consecutive : v.touched = (List.range v.touched.length).map fun i : ℕ => u.uio_offset + i
  allowed : ∀ a ∈ v.touched, Allowed chipmem a
  offset : v.uio_offset = int32 (u.uio_offset + v.touched.length)
  resid : v.uio_resid + v.touched.length = u.uio_resid

/-- No turn of the loop is finished: the call fails before it or finds nothing to do, or
`uiomove` faults in the first turn. -/
def NoTurn (NBPC : ℕ) (chipmem : ℤ) (faults : ℕ → Option ℕ) (dev : ℕ) (u : Uio) : Prop :=
  dev ≠ 0 ∨ u.uio_resid = 0 ∨ outside chipmem u.uio_offset = true ∨
    clamped chipmem u.uio_offset u.uio_resid = 0 ∨
    ∃ m ∈ faults 0, m < piece NBPC (clamped chipmem u.uio_offset u.uio_resid) u.uio_offset

/-! ### What a call does -/

section
variable {NBPC : ℕ} [NeZero NBPC] {chipmem : ℤ} {faults : ℕ → Option ℕ}

theorem length_touched_move (p : ℤ) (n : ℕ) (u : Uio) :
    (u.move p n).touched.length = u.touched.length + n := by
  unfold Uio.move
  rw [List.length_append, List.length_map, List.length_range]

theorem uiomove_fault {fault : Option ℕ} {n : ℕ} (h : ∃ m ∈ fault, m < n) (p : ℤ) (u : Uio) :
    ∃ m < n, u.uiomove fault p n = (some .EFAULT, u.move p m) := by
  obtain ⟨m, hm, hlt⟩ := h
  refine ⟨m, hlt, ?_⟩
  rw [Option.mem_def.mp hm]
  exact if_pos hlt

theorem uiomove_all {fault : Option ℕ} {n : ℕ} (h : ¬∃ m ∈ fault, m < n) (p : ℤ) (u : Uio) :
    u.uiomove fault p n = (none, u.move p n) := by
  cases fault with
  | none => rfl
  | some m => exact if_neg fun hlt => h ⟨m, rfl, hlt⟩

/-- The loop leaves `uio_offset` as far ahead of the bytes as its finished turns are long. -/
theorem loop_ahead (NBPC : ℕ) [NeZero NBPC] (faults : ℕ → Option ℕ) (turn count : ℕ) (u : Uio) :
    ∃ moved ahead : ℕ, ahead ≤ count ∧
      (loop NBPC faults turn count u).2.touched.length = u.touched.length + moved ∧
      ((loop NBPC faults turn count u).2.uio_offset - (u.uio_offset + moved + ahead)) %
        4294967296 = 0 := by
  fun_induction loop NBPC faults turn count u with
  | case1 turn u => exact ⟨0, 0, Nat.le_refl 0, rfl, by simp⟩
  | case2 turn count u h n e v heq =>
      have hfault : ∃ m ∈ faults turn, m < n := Classical.byContradiction fun hno => by
        rw [uiomove_all hno] at heq
        exact absurd (congrArg Prod.fst heq) (by simp)
      obtain ⟨m, -, hm⟩ := uiomove_fault hfault u.uio_offset u
      rw [hm] at heq
      have hv : u.move u.uio_offset m = v := congrArg Prod.snd heq
      refine ⟨m, 0, Nat.zero_le _, ?_, ?_⟩
      · rw [← hv, length_touched_move]
      · rw [← hv]
        unfold Uio.move int32
        dsimp only
        omega
  | case3 turn count u h n v heq ih =>
      have hno : ¬∃ m ∈ faults turn, m < n := by
        intro hfault
        obtain ⟨m, -, hm⟩ := uiomove_fault hfault u.uio_offset u
        rw [hm] at heq
        exact absurd (congrArg Prod.fst heq) (by simp)
      rw [uiomove_all hno] at heq
      have hv : u.move u.uio_offset n = v := congrArg Prod.snd heq
      have hle := piece_le NBPC count u.uio_offset
      obtain ⟨moved, ahead, hahead, hlength, hoffset⟩ := ih
      refine ⟨n + moved, n + ahead, by omega, ?_, ?_⟩
      · have hskip : (v.skip n).touched = v.touched := rfl
        rw [hlength, hskip, ← hv, length_touched_move, Nat.add_assoc]
      · have hskip : (v.skip n).uio_offset = int32 (int32 (u.uio_offset + n) + n) := by
          rw [← hv]
          rfl
        rw [hskip] at hoffset
        unfold int32 at hoffset
        omega

/-- `count` stays within the area of the offset. -/
theorem clamped_le {offset : ℤ} (count : ℕ) (h : outside chipmem offset = false) :
    clamped chipmem offset count ≤ count ∧
      (offset + clamped chipmem offset count ≤ chipmem ∨
        AHWBOT ≤ offset ∧ offset + clamped chipmem offset count ≤ AHWTOP) := by
  have hin := of_decide_eq_false h
  unfold clamped
  split
  · split <;> omega
  · split <;> omega

theorem exact_zero (chipmem : ℤ) {u : Uio} (h : u.touched = [])
    (hu : int32 u.uio_offset = u.uio_offset) : Exact chipmem u u where
  consecutive := by rw [h]; rfl
  allowed a ha := by rw [h] at ha; cases ha
  offset := by
    rw [h]
    exact hu.symm.trans (by simp)
  resid := by rw [h]; rfl

/-- A fault in the first turn leaves what was moved before it. -/
theorem exact_move {u : Uio} (h : u.touched = []) (hin : outside chipmem u.uio_offset = false)
    {m : ℕ} (hm : m ≤ clamped chipmem u.uio_offset u.uio_resid) :
    Exact chipmem u (u.move u.uio_offset m) := by
  obtain ⟨hle, harea⟩ := clamped_le u.uio_resid hin
  have hlow := of_decide_eq_false hin
  have htouched : (u.move u.uio_offset m).touched =
      (List.range m).map fun i : ℕ => u.uio_offset + i := by
    unfold Uio.move
    rw [h, List.nil_append]
  have hlength : (u.move u.uio_offset m).touched.length = m := by
    rw [htouched, List.length_map, List.length_range]
  refine ⟨by rw [hlength, htouched], fun a ha => ?_, by rw [hlength]; rfl, ?_⟩
  · rw [htouched] at ha
    obtain ⟨i, hi, rfl⟩ := List.mem_map.mp ha
    have := List.mem_range.mp hi
    unfold Allowed
    omega
  · rw [hlength]
    exact Nat.sub_add_cancel (Nat.le_trans hm hle)

theorem loop_fault {count : ℕ} {u : Uio} (hcount : count ≠ 0)
    (h : ∃ m ∈ faults 0, m < piece NBPC count u.uio_offset) :
    ∃ m < count, loop NBPC faults 0 count u = (some .EFAULT, u.move u.uio_offset m) := by
  obtain ⟨m, hlt, hm⟩ := uiomove_fault h u.uio_offset u
  refine ⟨m, Nat.lt_of_lt_of_le hlt (piece_le ..), ?_⟩
  rw [loop, if_neg hcount]
  dsimp only
  rw [hm]

theorem loop_turn {count : ℕ} {u : Uio} (hcount : count ≠ 0)
    (h : ¬∃ m ∈ faults 0, m < piece NBPC count u.uio_offset) :
    loop NBPC faults 0 count u =
      loop NBPC faults 1 (count - piece NBPC count u.uio_offset)
        ((u.move u.uio_offset (piece NBPC count u.uio_offset)).skip
          (piece NBPC count u.uio_offset)) := by
  have hall := uiomove_all h u.uio_offset u
  rw [loop, if_neg hcount]
  dsimp only
  rw [hall]

/-- After a turn `uio_offset` is ahead of the bytes that were moved. -/
theorem not_exact_loop (hchip : chipmem < 2147483648) {u : Uio} (htouched : u.touched = [])
    (hin : outside chipmem u.uio_offset = false)
    (hcount : clamped chipmem u.uio_offset u.uio_resid ≠ 0)
    (h : ¬∃ m ∈ faults 0,
      m < piece NBPC (clamped chipmem u.uio_offset u.uio_resid) u.uio_offset) :
    ¬Exact chipmem u (loop NBPC faults 0 (clamped chipmem u.uio_offset u.uio_resid) u).2 := by
  intro hexact
  obtain ⟨-, harea⟩ := clamped_le u.uio_resid hin
  have hlow := of_decide_eq_false hin
  generalize hc : clamped chipmem u.uio_offset u.uio_resid = count at *
  have hpos := piece_pos NBPC hcount u.uio_offset
  have hle := piece_le NBPC count u.uio_offset
  have hoff := hexact.offset
  rw [loop_turn hcount h] at hoff
  generalize hn : piece NBPC count u.uio_offset = n at *
  obtain ⟨moved, ahead, hahead, hlength, hoffset⟩ := loop_ahead NBPC faults 1
    (count - n) ((u.move u.uio_offset n).skip n)
  have hskip : ((u.move u.uio_offset n).skip n).uio_offset =
      int32 (int32 (u.uio_offset + n) + n) := rfl
  have htotal : ((u.move u.uio_offset n).skip n).touched.length = n := by
    have := length_touched_move u.uio_offset n u
    rw [htouched, List.length_nil, Nat.zero_add] at this
    exact this
  have htop : AHWTOP = 0xe00000 := rfl
  rw [hoff, hlength, htotal, hskip] at hoffset
  unfold int32 at hoffset
  omega

/-- A transfer is exact if and only if no turn of its loop is finished. -/
theorem amrdwr_exact_iff (hchip : chipmem < 2147483648) (dev : ℕ) (rw : UioRw) {u : Uio}
    (hu : int32 u.uio_offset = u.uio_offset) (htouched : u.touched = []) :
    Exact chipmem u (amrdwr NBPC chipmem faults dev rw u).2 ↔
      NoTurn NBPC chipmem faults dev u := by
  have hzero := exact_zero chipmem htouched hu
  unfold amrdwr NoTurn
  by_cases hdev : dev ≠ 0
  · rw [if_pos hdev]
    exact iff_of_true hzero (.inl hdev)
  rw [if_neg hdev]
  by_cases hresid : u.uio_resid = 0
  · rw [if_pos hresid]
    exact iff_of_true hzero (.inr (.inl hresid))
  rw [if_neg hresid]
  by_cases hout : outside chipmem u.uio_offset = true
  · rw [if_pos hout]
    exact iff_of_true hzero (.inr (.inr (.inl hout)))
  rw [if_neg hout]
  dsimp only
  by_cases hcount : clamped chipmem u.uio_offset u.uio_resid = 0
  · refine iff_of_true ?_ (.inr (.inr (.inr (.inl hcount))))
    split
    · exact hzero
    · rw [hcount, loop]
      exact hzero
  have hin : outside chipmem u.uio_offset = false := Bool.eq_false_iff.mpr hout
  rw [if_neg fun hw => hcount hw.2]
  by_cases hfault : ∃ m ∈ faults 0,
      m < piece NBPC (clamped chipmem u.uio_offset u.uio_resid) u.uio_offset
  · refine iff_of_true ?_ (.inr (.inr (.inr (.inr hfault))))
    obtain ⟨m, hlt, hm⟩ := loop_fault hcount hfault
    rw [hm]
    exact exact_move htouched hin (Nat.le_of_lt hlt)
  · refine iff_of_false (not_exact_loop hchip htouched hin hcount hfault) ?_
    rintro (h | h | h | h | h)
    · exact hdev h
    · exact hresid h
    · exact hout h
    · exact hcount h
    · exact hfault h

end

/-- A write at the start of the custom chips that faults in the first page. -/
theorem amrdwr_exact_iff_fault :
    Exact 0x80000 ⟨0xa00000, 5000, []⟩
      (amrdwr 4096 0x80000 (fun _ => some 7) 0 .UIO_WRITE ⟨0xa00000, 5000, []⟩).2 :=
  (amrdwr_exact_iff (by decide) 0 .UIO_WRITE (by decide) rfl).mpr
    (.inr (.inr (.inr (.inr ⟨7, rfl, by decide⟩))))

/-- Four bytes across a page boundary: two of them are left out. -/
theorem amrdwr_wrong :
    amrdwr 4096 0x80000 (fun _ => none) 0 .UIO_READ ⟨4094, 4, []⟩ =
        (none, ⟨4102, 0, [4094, 4095, 4098, 4099]⟩) ∧
      ¬Exact 0x80000 ⟨4094, 4, []⟩
        (amrdwr 4096 0x80000 (fun _ => none) 0 .UIO_READ ⟨4094, 4, []⟩).2 := by
  have h : amrdwr 4096 0x80000 (fun _ => none) 0 .UIO_READ ⟨4094, 4, []⟩ =
      (none, ⟨4102, 0, [4094, 4095, 4098, 4099]⟩) := by
    simp [amrdwr, loop, outside, AHWTOP, clamped, piece, Uio.uiomove, Uio.move, Uio.skip, int32,
      List.range_succ]
  refine ⟨h, fun hexact => ?_⟩
  rw [h] at hexact
  exact absurd hexact.offset (by decide)

end HydraAmix.Kernel.ChipTransfer
