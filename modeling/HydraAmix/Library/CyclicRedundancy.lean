import Mathlib.Data.BitVec
import Mathlib.Data.List.Basic

/-!
# Cyclic redundancy checks

The register holds the remainder of what was read, as a polynomial over the bits with
the highest power first; `poly` is the divisor without its leading power. A bit is added
to the highest place, then the register goes one place up.

A shift is linear, so a chunk of bits may be added at once and shifted out together,
and a fault goes through all later shifts without regard to what else is read.
-/
namespace HydraAmix.CyclicRedundancy

variable {w : ℕ} (poly : BitVec w)

/-- One place up; for a bit that falls out the divisor is taken away. -/
def shift (c : BitVec w) : BitVec w := if c.msb then c <<< 1 ^^^ poly else c <<< 1

/-- `n` places up. -/
def shifts : ℕ → BitVec w → BitVec w
  | 0, c => c
  | n + 1, c => shifts n (shift poly c)

/-- A bit in the highest place. -/
def top (b : Bool) : BitVec w := if b then BitVec.intMin w else 0

/-- The bit-serial check, from the register `c` on. -/
def serial (c : BitVec w) (bits : List Bool) : BitVec w :=
  bits.foldl (fun c b => shift poly (c ^^^ top b)) c

/-- A chunk of bits, from the highest place on. -/
def chunk : List Bool → BitVec w
  | [] => 0
  | b :: bits => top b ^^^ chunk bits >>> 1

/-- Words that are added to the register, with `k` shifts after each. -/
def added (k : ℕ) (c : BitVec w) (words : List (BitVec w)) : BitVec w :=
  words.foldl (fun c x => shifts poly k (c ^^^ x)) c

/-- The same where each step has a fault. -/
def faulty (k : ℕ) (c : BitVec w) (steps : List (BitVec w × BitVec w)) : BitVec w :=
  steps.foldl (fun c x => shifts poly k (c ^^^ x.1) ^^^ x.2) c

/-- What the faults are in the end. -/
def residue (k : ℕ) : List (BitVec w × BitVec w) → BitVec w
  | [] => 0
  | x :: steps => shifts poly (k * steps.length) x.2 ^^^ residue k steps

/-! ### Shifts -/

theorem shift_xor (a b : BitVec w) : shift poly (a ^^^ b) = shift poly a ^^^ shift poly b := by
  unfold shift
  rw [BitVec.msb_xor, BitVec.shiftLeft_xor_distrib]
  cases a.msb <;> cases b.msb
  · rfl
  · exact BitVec.xor_assoc ..
  · change a <<< 1 ^^^ b <<< 1 ^^^ poly = a <<< 1 ^^^ poly ^^^ b <<< 1
    rw [BitVec.xor_assoc, BitVec.xor_comm (b <<< 1), BitVec.xor_assoc]
  · change a <<< 1 ^^^ b <<< 1 = a <<< 1 ^^^ poly ^^^ (b <<< 1 ^^^ poly)
    rw [BitVec.xor_comm (b <<< 1) poly, BitVec.xor_assoc (a <<< 1), ← BitVec.xor_assoc poly,
      BitVec.xor_self, BitVec.zero_xor]

theorem shifts_xor (n : ℕ) (a b : BitVec w) :
    shifts poly n (a ^^^ b) = shifts poly n a ^^^ shifts poly n b := by
  induction n generalizing a b with
  | zero => rfl
  | succ n ih => rw [shifts, shifts, shifts, shift_xor, ih]

theorem shifts_add (m n : ℕ) (c : BitVec w) :
    shifts poly (m + n) c = shifts poly n (shifts poly m c) := by
  induction m generalizing c with
  | zero => rw [Nat.zero_add, shifts]
  | succ m ih => rw [Nat.succ_add, shifts, shifts, ih]

/-- What has nothing in the lowest place comes back from one place down. -/
theorem shift_ushiftRight {c : BitVec w} (h : c.getLsbD 0 = false) : shift poly (c >>> 1) = c := by
  have hmsb : (c >>> 1).msb = false := by
    rw [BitVec.msb_eq_getLsbD_last, BitVec.getLsbD_ushiftRight]
    exact BitVec.getLsbD_of_ge c _ (by omega)
  rw [shift, hmsb]
  apply BitVec.eq_of_getLsbD_eq
  intro i hi
  rw [if_neg Bool.false_ne_true, BitVec.getLsbD_shiftLeft, BitVec.getLsbD_ushiftRight]
  cases i with
  | zero => simp [h]
  | succ i => simp [hi, Nat.add_comm]

/-! ### Chunks -/

theorem chunk_getLsbD (bits : List Bool) {i : ℕ} (h : i + bits.length < w) :
    (chunk bits : BitVec w).getLsbD i = false := by
  induction bits generalizing i with
  | nil => exact BitVec.getLsbD_zero
  | cons b bits ih =>
      rw [List.length_cons] at h
      have htop : (top b : BitVec w).getLsbD i = false := by
        cases b with
        | false => exact BitVec.getLsbD_zero
        | true =>
            change (BitVec.intMin w).getLsbD i = false
            rw [BitVec.getLsbD_intMin]
            exact decide_eq_false (by omega)
      rw [chunk, BitVec.getLsbD_xor, BitVec.getLsbD_ushiftRight, htop, ih (by omega)]
      rfl

/-- A chunk of bits may be added at once. -/
theorem serial_chunk (c : BitVec w) {bits : List Bool} (h : bits.length ≤ w) :
    serial poly c bits = shifts poly bits.length (c ^^^ chunk bits) := by
  induction bits generalizing c with
  | nil => exact BitVec.xor_zero.symm
  | cons b bits ih =>
      have hlow : (chunk bits : BitVec w).getLsbD 0 = false :=
        chunk_getLsbD bits (by rw [Nat.zero_add]; exact h)
      have hnext := ih (shift poly (c ^^^ top b)) (Nat.le_of_succ_le h)
      rw [serial, List.foldl_cons]
      refine hnext.trans ?_
      rw [List.length_cons, shifts, chunk, ← BitVec.xor_assoc, shift_xor poly (c ^^^ top b),
        shift_ushiftRight poly hlow]

theorem serial_append (c : BitVec w) (xs ys : List Bool) :
    serial poly c (xs ++ ys) = serial poly (serial poly c xs) ys := List.foldl_append

/-! ### Faults -/

/-- What was in the register goes through all shifts on its own. -/
theorem added_xor (k : ℕ) (a e : BitVec w) (words : List (BitVec w)) :
    added poly k (a ^^^ e) words = added poly k a words ^^^ shifts poly (k * words.length) e := by
  induction words generalizing a e with
  | nil => rfl
  | cons x words ih =>
      have hstep : shifts poly k (a ^^^ e ^^^ x) = shifts poly k (a ^^^ x) ^^^ shifts poly k e := by
        rw [BitVec.xor_assoc, BitVec.xor_comm e, ← BitVec.xor_assoc, shifts_xor]
      rw [List.length_cons, Nat.mul_succ, Nat.add_comm, shifts_add]
      refine Eq.trans ?_ (ih _ _)
      rw [← hstep]
      rfl

/-- Faults do not meet what is read. -/
theorem faulty_eq (k : ℕ) (c : BitVec w) (steps : List (BitVec w × BitVec w)) :
    faulty poly k c steps = added poly k c (steps.map Prod.fst) ^^^ residue poly k steps := by
  induction steps generalizing c with
  | nil => exact BitVec.xor_zero.symm
  | cons x steps ih =>
      have hnext := added_xor poly k (shifts poly k (c ^^^ x.1)) x.2 (steps.map Prod.fst)
      rw [List.length_map] at hnext
      rw [residue, ← BitVec.xor_assoc]
      exact (ih _).trans (congrArg (· ^^^ residue poly k steps) hnext)

end HydraAmix.CyclicRedundancy
