import Mathlib.Data.Int.Notation
import Mathlib.Data.Nat.Notation

/-!
# Bytes, longwords and C integers of a big-endian 32-bit machine

Bytes and longwords are bit vectors. A longword consists of four bytes, most
significant first, as the machine lays it out in memory. The value of a C
`int` is an integer; `int32` is the value that remains of a result that may
not fit, in two's complement.
-/
namespace HydraAmix.Word

abbrev Byte := BitVec 8
abbrev Long := BitVec 32

/-- What a 32-bit signed register holds after an operation with result `x`. -/
def int32 (x : ℤ) : ℤ := (x + 2147483648) % 4294967296 - 2147483648

theorem int32_of_range {x : ℤ} (hl : -2147483648 ≤ x) (hu : x < 2147483648) :
    int32 x = x := by
  unfold int32
  omega

/-- Two bytes in memory order as an unsigned short. -/
def short (b₁ b₀ : Byte) : BitVec 16 := b₁ ++ b₀

/-- Four bytes in memory order as a longword. -/
def long (b₃ b₂ b₁ b₀ : Byte) : Long := b₃ ++ b₂ ++ b₁ ++ b₀

/-- `(unsigned char)((v >> (j << 3)) & 0xff)`. -/
def byte (v : Long) (j : ℕ) : Byte := ((v >>> (j <<< 3)) &&& 0xff#32).setWidth 8

theorem getLsbD_byte (v : Long) (j : ℕ) {i : ℕ} (hi : i < 8) :
    (byte v j).getLsbD i = v.getLsbD (8 * j + i) := by
  have h : ∀ i < 8, (0xff#32).getLsbD i = true := by decide
  simp only [byte, BitVec.getLsbD_setWidth, BitVec.getLsbD_and, BitVec.getLsbD_ushiftRight,
    h i hi, hi, decide_true, Bool.true_and, Bool.and_true, Nat.shiftLeft_eq, Nat.reducePow,
    Nat.mul_comm j 8]

theorem getLsbD_long (b₃ b₂ b₁ b₀ : Byte) {i : ℕ} (hi : i < 8) :
    (long b₃ b₂ b₁ b₀).getLsbD (8 * 0 + i) = b₀.getLsbD i ∧
    (long b₃ b₂ b₁ b₀).getLsbD (8 * 1 + i) = b₁.getLsbD i ∧
    (long b₃ b₂ b₁ b₀).getLsbD (8 * 2 + i) = b₂.getLsbD i ∧
    (long b₃ b₂ b₁ b₀).getLsbD (8 * 3 + i) = b₃.getLsbD i := by
  simp only [long, BitVec.getLsbD_append]
  grind

/-- A longword is made of its bytes. -/
theorem long_byte (v : Long) : long (byte v 3) (byte v 2) (byte v 1) (byte v 0) = v := by
  refine BitVec.eq_of_getLsbD_eq fun i hi => ?_
  obtain ⟨j, k, hk, rfl⟩ : ∃ j k, k < 8 ∧ i = 8 * j + k :=
    ⟨i / 8, i % 8, Nat.mod_lt _ (by decide), (Nat.div_add_mod i 8).symm⟩
  obtain ⟨h₀, h₁, h₂, h₃⟩ := getLsbD_long (byte v 3) (byte v 2) (byte v 1) (byte v 0) hk
  have hj : j = 0 ∨ j = 1 ∨ j = 2 ∨ j = 3 := by omega
  rcases hj with rfl | rfl | rfl | rfl
  · rw [h₀, getLsbD_byte _ _ hk]
  · rw [h₁, getLsbD_byte _ _ hk]
  · rw [h₂, getLsbD_byte _ _ hk]
  · rw [h₃, getLsbD_byte _ _ hk]

section
variable (b₃ b₂ b₁ b₀ : Byte)

@[simp] theorem byte_long_zero : byte (long b₃ b₂ b₁ b₀) 0 = b₀ := by
  apply BitVec.eq_of_getLsbD_eq
  intro i hi
  rw [getLsbD_byte _ _ hi, (getLsbD_long b₃ b₂ b₁ b₀ hi).1]

@[simp] theorem byte_long_one : byte (long b₃ b₂ b₁ b₀) 1 = b₁ := by
  apply BitVec.eq_of_getLsbD_eq
  intro i hi
  rw [getLsbD_byte _ _ hi, (getLsbD_long b₃ b₂ b₁ b₀ hi).2.1]

@[simp] theorem byte_long_two : byte (long b₃ b₂ b₁ b₀) 2 = b₂ := by
  apply BitVec.eq_of_getLsbD_eq
  intro i hi
  rw [getLsbD_byte _ _ hi, (getLsbD_long b₃ b₂ b₁ b₀ hi).2.2.1]

@[simp] theorem byte_long_three : byte (long b₃ b₂ b₁ b₀) 3 = b₃ := by
  apply BitVec.eq_of_getLsbD_eq
  intro i hi
  rw [getLsbD_byte _ _ hi, (getLsbD_long b₃ b₂ b₁ b₀ hi).2.2.2]

/-- Shifting four bytes into a cleared longword, first byte first. -/
theorem long_of_shifts :
    ((((0#32 <<< 8 ||| b₃.setWidth 32) <<< 8 ||| b₂.setWidth 32) <<< 8 |||
      b₁.setWidth 32) <<< 8 ||| b₀.setWidth 32) = long b₃ b₂ b₁ b₀ := by
  apply BitVec.eq_of_getLsbD_eq
  intro i hi
  simp only [long, BitVec.getLsbD_or, BitVec.getLsbD_shiftLeft, BitVec.getLsbD_setWidth,
    BitVec.getLsbD_append, BitVec.getLsbD_zero]
  grind

end
end HydraAmix.Word
