import HydraAmix.Hydra.Driver
import Mathlib.Tactic.IntervalCases
import Mathlib.Data.List.GetD
import Mathlib.Algebra.Order.Group.Int

/-!
# Access to the card

`hydra_inb` and `hydra_outb` (whose delay has no effect on the state), and the
copy routines between a buffer in memory and the buffer RAM. The RAM is
accessed in longwords only; a read hands back the bytes stored in the caller's
buffer, whose declared size comes along so that each store can be checked
against it. The `run` theorems say what the copies do when the range check
passes: reading returns the addressed bytes, writing replaces exactly the
longwords that cover them.
-/
namespace HydraAmix.Hydra
open Word Program Prog

def hydraInb (b : BoardId) (reg : ℕ) : HydraM Byte := act (.inb b reg)

def hydraOutb (b : BoardId) (reg : ℕ) (val : Byte) : HydraM Unit := act (.outb b reg val)

/-- `bcopy` of `n` bytes from an index of a buffer on. -/
def peeks (buf : List Byte) (i : ℤ) : ℕ → HydraM (List Byte)
  | 0 => pure []
  | n + 1 => do
      let x ← peek buf i
      let xs ← peeks buf (i + 1) n
      return x :: xs

/-- A longword at an index of a buffer. -/
def peekLong (buf : List Byte) (i : ℤ) : HydraM Long := do
  return long (← peek buf i) (← peek buf (i + 1)) (← peek buf (i + 2)) (← peek buf (i + 3))

/-- An unsigned short at an index of a buffer. -/
def peekShort (buf : List Byte) (i : ℤ) : HydraM (BitVec 16) := do
  return short (← peek buf i) (← peek buf (i + 1))

/-- The inner loop of a write: the bytes of longword `i`, zero from `len` on. -/
def packLong (buf : List Byte) (len : ℤ) (i : ℕ) : List ℕ → Long → HydraM Long
  | [], v => pure v
  | j :: js, v => do
      if ((4 * i + j : ℕ) : ℤ) < len then
        let x ← peek buf (4 * i + j : ℕ)
        packLong buf len i js (v <<< 8 ||| x.setWidth 32)
      else packLong buf len i js (v <<< 8)

/-- The outer loop of a write: `k` longwords from the `i`-th on. -/
def writeLongs (b : BoardId) (buf : List Byte) (len offset : ℤ) : ℕ → ℕ → HydraM Unit
  | 0, _ => pure ()
  | k + 1, i => do
      let v ← packLong buf len i [0, 1, 2, 3] 0
      writel b (offset + 4 * i) v
      writeLongs b buf len offset k (i + 1)

/-- The inner loop of a read: the bytes of longword `i` that lie before `len`. -/
def unpackLong (size : ℕ) (len : ℤ) (i : ℕ) (v : Long) : List ℕ → HydraM (List Byte)
  | [] => pure []
  | j :: js => do
      if ((4 * i + (3 - j) : ℕ) : ℤ) < len then
        poke size (4 * i + (3 - j) : ℕ)
        let xs ← unpackLong size len i v js
        return byte v j :: xs
      else unpackLong size len i v js

/-- The outer loop of a read: `k` longwords from the `i`-th on. -/
def readLongs (b : BoardId) (size : ℕ) (len offset : ℤ) : ℕ → ℕ → HydraM (List Byte)
  | 0, _ => pure []
  | k + 1, i => do
      let v ← readl b (offset + 4 * i)
      let xs ← unpackLong size len i v [3, 2, 1, 0]
      let ys ← readLongs b size len offset k (i + 1)
      return xs ++ ys

/-- The loop that clears the buffer when a read is refused. -/
def clearBuf (size : ℕ) : ℕ → ℕ → HydraM (List Byte)
  | 0, _ => pure []
  | k + 1, i => do
      poke size i
      let xs ← clearBuf size k (i + 1)
      return 0 :: xs

/-- `nlongs` and `access_len` of the copy routines. -/
def nlongs (len : ℤ) : ℤ := int32 (len + 3) / 4

def accessLen (len : ℤ) : ℤ := int32 (nlongs len * 4)

/-- The check that makes the copy routines refuse a range. -/
def OutOfRam (len offset : ℤ) : Prop :=
  len < 0 ∨ offset < 0 ∨ offset < NE8390_START_PG * 256 ∨
    int32 (offset + accessLen len) > NE8390_STOP_PG * 256

instance (len offset : ℤ) : Decidable (OutOfRam len offset) := by
  unfold OutOfRam
  infer_instance

def hydraRamWriteOffset (b : BoardId) (buf : List Byte) (len offset : ℤ) : HydraM Unit :=
  if OutOfRam len offset then pure ()
  else writeLongs b buf len offset (nlongs len).toNat 0

def hydraRamReadOffset (b : BoardId) (size : ℕ) (len offset : ℤ) : HydraM (List Byte) :=
  if OutOfRam len offset then clearBuf size len.toNat 0
  else readLongs b size len offset (nlongs len).toNat 0

def hydraRamWrite (b : BoardId) (buf : List Byte) (len page : ℤ) : HydraM Unit :=
  hydraRamWriteOffset b buf len (int32 (page * 256))

def hydraRamRead (b : BoardId) (size : ℕ) (len page : ℤ) : HydraM (List Byte) :=
  hydraRamReadOffset b size len (int32 (page * 256))

/-! ### What the accesses do -/

section
variable (w : World) (b : BoardId)

@[simp] theorem hydraInb_run (reg : ℕ) :
    run exec (hydraInb b reg) w = ((w.nic b).inb reg, w) := by rfl

@[simp] theorem hydraOutb_run (reg : ℕ) (v : Byte) :
    run exec (hydraOutb b reg v) w = ((), w.setNic b ((w.nic b).outb reg v)) := by rfl

@[simp] theorem peeks_run (buf : List Byte) (i : ℤ) (n : ℕ) :
    run exec (peeks buf i n) w = ((List.range n).map fun k : ℕ => w.byteAt buf (i + k), w) := by
  induction n generalizing i with
  | zero => rfl
  | succ n ih =>
      simp [peeks, ih, List.range_succ_eq_map, Function.comp_def, add_assoc, add_comm (1 : ℤ)]

@[simp] theorem peekLong_run (buf : List Byte) (i : ℤ) :
    run exec (peekLong buf i) w =
      (long (w.byteAt buf i) (w.byteAt buf (i + 1)) (w.byteAt buf (i + 2))
        (w.byteAt buf (i + 3)), w) := by rfl

@[simp] theorem peekShort_run (buf : List Byte) (i : ℤ) :
    run exec (peekShort buf i) w = (short (w.byteAt buf i) (w.byteAt buf (i + 1)), w) := by rfl

theorem World.byteAt_of_lt {buf : List Byte} {i : ℕ} (h : i < buf.length) :
    w.byteAt buf i = buf[i] := by
  simp [byteAt, h]

theorem nlongs_of_nat {len : ℕ} (h : len ≤ 0x10000) : nlongs len = ((len + 3) / 4 : ℕ) := by
  rw [nlongs, int32_of_range (by omega) (by omega)]
  omega

theorem outOfRam_iff {len offset : ℕ} (hl : len ≤ 0x10000) (ho : offset ≤ 0x10000) :
    OutOfRam len offset ↔ 0x4000 < offset + 4 * ((len + 3) / 4) := by
  unfold OutOfRam accessLen NE8390_START_PG NE8390_STOP_PG
  rw [nlongs_of_nat hl, int32_of_range (x := _ * 4) (by omega) (by omega),
    int32_of_range (by omega) (by omega)]
  omega

/-- A range that fits passes the check. -/
theorem not_outOfRam {len offset : ℕ} (h : offset + 4 * ((len + 3) / 4) ≤ 0x4000) :
    ¬ OutOfRam len offset := by
  rw [outOfRam_iff (by omega) (by omega)]
  omega

theorem Nic.byte_readl (n : Nic) (offset : ℕ) {j : ℕ} (hj : j ≤ 3) :
    byte (n.readl offset) j = n.ram (offset + (3 - j)) := by
  interval_cases j <;> simp [Nic.readl]

theorem unpackLong_run (size len i : ℕ) (v : Long) (js : List ℕ) :
    run exec (unpackLong size len i v js) w =
      ((js.filter fun j => 4 * i + (3 - j) < len).map (byte v), w) := by
  induction js with
  | nil => rfl
  | cons j js ih =>
      by_cases h : 4 * i + (3 - j) < len
      · have hz : ((4 * i + (3 - j) : ℕ) : ℤ) < len := by omega
        rw [unpackLong, if_pos hz]
        simp [ih, h]
      · have hz : ¬ ((4 * i + (3 - j) : ℕ) : ℤ) < len := by omega
        rw [unpackLong, if_neg hz]
        simp [ih, h]

theorem readLongs_run (size len offset k i : ℕ) :
    run exec (readLongs b size len offset k i) w =
      (((List.range' (4 * i) (4 * k)).filter fun n => n < len).map
        fun n => (w.nic b).ram (offset + n), w) := by
  induction k generalizing i with
  | zero => rfl
  | succ k ih =>
      have hr : List.range' (4 * i) (4 * (k + 1)) =
          [3, 2, 1, 0].map (fun j => 4 * i + (3 - j)) ++
            List.range' (4 * (i + 1)) (4 * k) := by
        simp [List.range'_succ, Nat.mul_add]
      have hb : ((w.nic b).readl (offset + 4 * i : ℕ)) =
          (w.nic b).readl ((offset : ℤ) + 4 * i) := by push_cast; rfl
      rw [readLongs, hr]
      simp only [run_bind, run_readl, unpackLong_run, ih, run_pure, List.filter_append,
        List.map_append, List.filter_map, List.map_map]
      congr 2
      apply List.map_congr_left
      intro j hj
      have hj' : j ≤ 3 := by
        have := (List.mem_filter.mp hj).1
        simp at this
        omega
      rw [← hb, Nic.byte_readl _ _ hj']
      simp [Nat.add_assoc]

/-- The bytes of the longwords that cover a length. -/
theorem filter_longs (len : ℕ) :
    (List.range' 0 (4 * ((len + 3) / 4))).filter (fun n => n < len) = List.range len := by
  obtain ⟨r, hr⟩ : ∃ r, 4 * ((len + 3) / 4) = len + r :=
    ⟨_, (by omega : _ = len + (4 * ((len + 3) / 4) - len))⟩
  rw [hr, ← List.range_eq_range', List.range_add, List.filter_append]
  rw [List.filter_eq_self.mpr (by simp), List.filter_eq_nil_iff.mpr (by simp)]
  simp

theorem hydraRamReadOffset_run (size : ℕ) {len offset : ℕ}
    (h : offset + 4 * ((len + 3) / 4) ≤ 0x4000) :
    run exec (hydraRamReadOffset b size len offset) w = ((w.nic b).bytes offset len, w) := by
  rw [hydraRamReadOffset, if_neg (not_outOfRam h), nlongs_of_nat (by omega), Int.toNat_natCast,
    readLongs_run]
  rw [Nat.mul_zero, filter_longs]
  rfl

/-! ### Writing -/

/-- The chip with the buffer RAM from `offset` on replaced by a list. -/
def Nic.fill (n : Nic) (offset : ℕ) (xs : List Byte) : Nic :=
  { n with
    ram := fun a => if offset ≤ a ∧ a < offset + xs.length then xs.getD (a - offset) 0 else n.ram a }

theorem Nic.fill_nil (n : Nic) (offset : ℕ) : n.fill offset [] = n := by
  simp only [fill, List.length_nil, Nat.add_zero]
  congr 1
  funext a
  rw [if_neg (by omega)]

theorem Nic.fill_fill (n : Nic) (offset : ℕ) (xs ys : List Byte) :
    (n.fill offset xs).fill (offset + xs.length) ys = n.fill offset (xs ++ ys) := by
  simp only [fill, List.length_append]
  congr 1
  funext a
  by_cases hx : a < offset + xs.length
  · rw [if_neg (by omega)]
    by_cases ho : offset ≤ a
    · rw [if_pos ⟨ho, hx⟩, if_pos ⟨ho, by omega⟩, List.getD_append _ _ _ _ (by omega)]
    · rw [if_neg (by omega), if_neg (by omega)]
  · by_cases hy : a < offset + xs.length + ys.length
    · rw [if_pos ⟨by omega, hy⟩, if_pos ⟨by omega, by omega⟩,
        List.getD_append_right _ _ _ _ (by omega), Nat.sub_sub]
    · rw [if_neg (by omega), if_neg (by omega), if_neg (by omega)]

theorem Nic.writel_long (n : Nic) (offset : ℕ) (b₃ b₂ b₁ b₀ : Byte) :
    n.writel offset (long b₃ b₂ b₁ b₀) = n.fill offset [b₃, b₂, b₁, b₀] := by
  simp only [writel, fill, byte_long_zero, byte_long_one, byte_long_two, byte_long_three,
    Int.toNat_natCast, List.length_cons, List.length_nil]
  congr 1
  funext a
  simp only [Function.update_apply]
  rcases (by omega : a < offset ∨ a = offset ∨ a = offset + 1 ∨ a = offset + 2 ∨
    a = offset + 3 ∨ offset + 4 ≤ a) with h | h | h | h | h | h
  all_goals first | (subst h; simp) | (rw [if_neg (by omega), if_neg (by omega), if_neg (by omega),
    if_neg (by omega), if_neg (by omega)])

theorem Nic.bytes_fill (n : Nic) (offset : ℕ) {len : ℕ} {xs : List Byte}
    (h : len ≤ xs.length) : (n.fill offset xs).bytes offset len = xs.take len := by
  apply List.ext_getElem
  · simp [bytes, h]
  · intro i h₁ h₂
    simp only [bytes, List.length_map, List.length_range] at h₁
    simp only [bytes, fill, List.getElem_map, List.getElem_range, List.getElem_take]
    rw [if_pos (by omega), Nat.add_sub_cancel_left, List.getD_eq_getElem _ _ (by omega)]

/-- The byte written at an index: zero from `len` on. -/
def padByte (w : World) (buf : List Byte) (len n : ℕ) : Byte :=
  if n < len then w.byteAt buf n else 0

theorem packLong_step (buf : List Byte) (len i j : ℕ) (js : List ℕ) (v : Long) :
    run exec (packLong buf len i (j :: js) v) w =
      run exec (packLong buf len i js (v <<< 8 |||
        (padByte w buf len (4 * i + j)).setWidth 32)) w := by
  rw [packLong, padByte]
  by_cases h : 4 * i + j < len
  · rw [if_pos (by omega), if_pos h]
    simp
  · rw [if_neg (by omega), if_neg h]
    simp

theorem packLong_run (buf : List Byte) (len i : ℕ) :
    run exec (packLong buf len i [0, 1, 2, 3] 0) w =
      (long (padByte w buf len (4 * i)) (padByte w buf len (4 * i + 1))
        (padByte w buf len (4 * i + 2)) (padByte w buf len (4 * i + 3)), w) := by
  simp only [packLong_step, ← long_of_shifts]
  rfl

theorem writeLongs_run (buf : List Byte) (len offset k i : ℕ) :
    run exec (writeLongs b buf len offset k i) w =
      ((), w.setNic b ((w.nic b).fill (offset + 4 * i)
        ((List.range' (4 * i) (4 * k)).map (padByte w buf len)))) := by
  induction k generalizing w i with
  | zero => simp [writeLongs, Nic.fill_nil, World.setNic]
  | succ k ih =>
      have hp : ∀ (n : Nic), padByte (w.setNic b n) = padByte w := fun _ => rfl
      have hr : List.range' (4 * i) (4 * (k + 1)) =
          [4 * i, 4 * i + 1, 4 * i + 2, 4 * i + 3] ++ List.range' (4 * (i + 1)) (4 * k) := by
        simp [List.range'_succ, Nat.mul_add]
      have hw : ((offset : ℤ) + 4 * i) = ((offset + 4 * i : ℕ) : ℤ) := by push_cast; rfl
      rw [writeLongs, hr, hw]
      simp only [run_bind, packLong_run, run_writel, ih, hp,
        World.setNic_self, World.setNic_setNic, Nic.writel_long, List.map_append]
      rw [show offset + 4 * (i + 1) = offset + 4 * i + 4 by omega]
      exact congrArg (fun n => ((), w.setNic b n)) (Nic.fill_fill _ _ [_, _, _, _] _)

/-- A write that passes the check replaces the longwords covering it; the
bytes of the last longword beyond the buffer become zero. -/
theorem hydraRamWriteOffset_run {buf : List Byte} {len offset : ℕ}
    (h : offset + 4 * ((len + 3) / 4) ≤ 0x4000) :
    run exec (hydraRamWriteOffset b buf len offset) w =
      ((), w.setNic b ((w.nic b).fill offset
        ((List.range (4 * ((len + 3) / 4))).map (padByte w buf len)))) := by
  rw [hydraRamWriteOffset, if_neg (not_outOfRam h), nlongs_of_nat (by omega), Int.toNat_natCast,
    writeLongs_run, List.range_eq_range']
  simp

/-- The part of a written range that the caller's buffer covers. -/
theorem map_padByte_take {buf : List Byte} {len k : ℕ} (hk : len ≤ k) (hb : len ≤ buf.length) :
    ((List.range k).map (padByte w buf len)).take len = buf.take len := by
  apply List.ext_getElem
  · simp [hk, hb]
  · intro i h₁ h₂
    simp only [List.length_take, List.length_map, List.length_range] at h₁
    simp only [List.getElem_take, List.getElem_map, List.getElem_range, padByte]
    rw [if_pos (by omega), w.byteAt_of_lt (by omega)]

/-! ### How much is copied -/

theorem clearBuf_run (size k i : ℕ) (w : World) :
    run exec (clearBuf size k i) w = (List.replicate k 0, w) := by
  induction k generalizing i w with
  | zero => rfl
  | succ k ih =>
      rw [clearBuf, run_bind, run_bind, run_pure, ih, List.replicate_succ]
      rfl

theorem unpackLong_length (size : ℕ) (len : ℤ) (i : ℕ) (v : Long) (js : List ℕ) (w : World) :
    (run exec (unpackLong size len i v js) w).1.length =
      js.countP fun j => ((4 * i + (3 - j) : ℕ) : ℤ) < len := by
  induction js generalizing w with
  | nil => rfl
  | cons j js ih =>
      rw [unpackLong, run_ite, List.countP_cons]
      by_cases hj : ((4 * i + (3 - j) : ℕ) : ℤ) < len
      · rw [if_pos hj, if_pos (decide_eq_true hj), run_bind, run_bind, run_pure]
        exact congrArg (· + 1) (ih _)
      · rw [if_neg hj, if_neg (by simpa using hj)]
        exact ih w

/-- The bytes of a longword that lie before `len`. -/
theorem countP_before (len : ℤ) (i : ℕ) :
    ([3, 2, 1, 0].countP fun j => ((4 * i + (3 - j) : ℕ) : ℤ) < len) =
      min (4 * i + 4) len.toNat - min (4 * i) len.toNat := by
  simp only [List.countP_cons, List.countP_nil, decide_eq_true_eq]
  split_ifs <;> omega

theorem readLongs_length (size : ℕ) (len offset : ℤ) (k i : ℕ) (w : World) :
    (run exec (readLongs b size len offset k i) w).1.length =
      min (4 * (i + k)) len.toNat - min (4 * i) len.toNat := by
  induction k generalizing i w with
  | zero => exact (Nat.sub_self _).symm
  | succ k ih =>
      rw [readLongs, run_bind, run_bind, run_bind, run_pure, List.length_append,
        unpackLong_length, ih, countP_before]
      omega

/-- A read hands back as many bytes as were asked for, wherever it reads. -/
theorem hydraRamRead_length (size : ℕ) {len : ℤ} (hl : 0 ≤ len ∧ len ≤ 1024) (page : ℤ) :
    (run exec (hydraRamRead b size len page) w).1.length = len.toNat := by
  rw [hydraRamRead, hydraRamReadOffset, run_ite]
  split
  · rw [clearBuf_run, List.length_replicate]
  · rw [readLongs_length, nlongs, int32_of_range (by omega) (by omega)]
    omega

/-- Of a buffer, a write uses the first `len` bytes only. -/
theorem writeLongs_congr {buf buf' : List Byte} {len : ℕ}
    (h : ∀ (w : World) n, padByte w buf len n = padByte w buf' len n) (offset : ℤ) (k i : ℕ) :
    run exec (writeLongs b buf len offset k i) w =
      run exec (writeLongs b buf' len offset k i) w := by
  induction k generalizing w i with
  | zero => rfl
  | succ k ih =>
      simp only [writeLongs, run_bind, packLong_run, h w]
      exact ih _ _

theorem hydraRamWrite_congr {buf buf' : List Byte} {len : ℤ} (hl : 0 ≤ len) (page : ℤ)
    (h : OutOfRam len (int32 (page * 256)) ∨
      ∀ n : ℕ, n < len.toNat → ∃ x, buf[n]? = some x ∧ buf'[n]? = some x) :
    run exec (hydraRamWrite b buf len page) w = run exec (hydraRamWrite b buf' len page) w := by
  rw [hydraRamWrite, hydraRamWrite, hydraRamWriteOffset, hydraRamWriteOffset, run_ite, run_ite]
  by_cases hout : OutOfRam len (int32 (page * 256))
  · rw [if_pos hout, if_pos hout]
  · rw [if_neg hout, if_neg hout]
    obtain ⟨len, rfl⟩ := Int.eq_ofNat_of_zero_le hl
    refine writeLongs_congr w b (fun w n => ?_) _ _ _
    unfold padByte
    by_cases hn : n < len
    · obtain ⟨x, hx, hx'⟩ := h.resolve_left hout n (by simpa using hn)
      simp [World.byteAt, hn, List.getD_eq_getElem?_getD, hx, hx']
    · rw [if_neg hn, if_neg hn]

end
end HydraAmix.Hydra
