import HydraAmix.Library.CyclicRedundancy
import HydraAmix.Library.Schedule
import HydraAmix.Library.Word

/-!
# The check byte of the clock's memory

`calcCRC` takes its bytes nibble by nibble, the high one first, with a table of what a
nibble leaves. One entry of the table is not what the polynomial of the source asks for.
What it adds to the register is carried on by all later nibbles, and could only be undone
by further reads of the same entry.
-/
namespace HydraAmix.Clock
open Word CyclicRedundancy Schedule

/-- X^8 + X^6 + X^4 + X^2 + X + 1, without X^8. -/
def polynomial : Byte := 0x57

def CRCTable : List Byte := [
  0x00, 0x57, 0xae, 0xf9,
  0x0b, 0x5c, 0xa5, 0xf2,
  0x16, 0x41, 0xb8, 0x7f,
  0x1d, 0x4a, 0xb3, 0xe4]

def divnibble (data crc : Byte) : Byte :=
  let data := (data &&& 0xF0) ^^^ crc
  let data := ((data >>> 4) &&& 0x0F) ||| ((data <<< 4) &&& 0xF0)
  (data &&& 0xF0) ^^^ CRCTable.getD (data &&& 0x0F).toNat 0

/-- `calcCRC` of the bytes at `addr`. -/
def calcCRC (bytes : List Byte) : Byte :=
  bytes.foldl (fun (crc b : Byte) => divnibble (b <<< 4) (divnibble b crc)) 0xFF

/-- The bits of the bytes, most significant first. -/
def bits (bytes : List Byte) : List Bool := bytes.flatMap fun b => (List.range 8).map b.getMsbD

/-- What `divnibble` is called with. -/
def nibbles (bytes : List Byte) : List Byte := bytes.flatMap fun b => [b, b <<< 4]

/-- `divnibble` reads `CRCTable[11]`. -/
def ReadsEleven (crc data : Byte) : Prop := ((data &&& 0xF0) ^^^ crc) >>> 4 = 11

instance (crc data : Byte) : Decidable (ReadsEleven crc data) :=
  inferInstanceAs (Decidable (_ = _))

/-- What the entry that is read has too much. -/
def excess (crc data : Byte) : Byte := if ReadsEleven crc data then 0x90 else 0

/-- The nibbles that are added to the register, with the excess of each step. -/
def steps (crc : Byte) : List Byte → List (Byte × Byte)
  | [] => []
  | d :: ds => (d &&& 0xF0, excess crc d) :: steps (divnibble d crc) ds

theorem divnibble_eq (data crc : Byte) :
    divnibble data crc = shifts polynomial 4 (crc ^^^ (data &&& 0xF0)) ^^^ excess crc data := by
  have h : ∀ x : Byte, divnibble 0 x =
      shifts polynomial 4 x ^^^ if x >>> 4 = 11 then 0x90 else 0 := by decide
  have hx : divnibble data crc = divnibble 0 ((data &&& 0xF0) ^^^ crc) := by
    have h0 : (0 : Byte) &&& 0xF0 ^^^ ((data &&& 0xF0) ^^^ crc) = (data &&& 0xF0) ^^^ crc :=
      BitVec.zero_xor
    unfold divnibble
    rw [h0]
  rw [hx, h, BitVec.xor_comm crc]
  rfl

/-- The table is right for what it says of fifteen of the sixteen nibbles. -/
theorem foldl_divnibble (crc : Byte) (ds : List Byte) :
    ds.foldl (fun crc d => divnibble d crc) crc = faulty polynomial 4 crc (steps crc ds) := by
  induction ds generalizing crc with
  | nil => rfl
  | cons d ds ih =>
      rw [List.foldl_cons, ih, steps]
      exact congrArg (faulty polynomial 4 · _) (divnibble_eq d crc)

theorem steps_fst (crc : Byte) (ds : List Byte) :
    (steps crc ds).map Prod.fst = ds.map (· &&& 0xF0) := by
  induction ds generalizing crc with
  | nil => rfl
  | cons d ds ih => exact congrArg _ (ih _)

theorem calcCRC_nibbles (crc : Byte) (bytes : List Byte) :
    bytes.foldl (fun (crc b : Byte) => divnibble (b <<< 4) (divnibble b crc)) crc =
      (nibbles bytes).foldl (fun crc d => divnibble d crc) crc := by
  induction bytes generalizing crc with
  | nil => rfl
  | cons b bytes ih => exact ih _

/-- The bits of a byte are those of its two nibbles. -/
theorem serial_byte (crc b : Byte) :
    serial polynomial crc ((List.range 8).map b.getMsbD) =
      added polynomial 4 crc [b &&& 0xF0, b <<< 4 &&& 0xF0] := by
  have hsplit : (List.range 8).map b.getMsbD =
      [b.getMsbD 0, b.getMsbD 1, b.getMsbD 2, b.getMsbD 3] ++
        [b.getMsbD 4, b.getMsbD 5, b.getMsbD 6, b.getMsbD 7] := rfl
  have hhigh : ∀ b : Byte,
      chunk [b.getMsbD 0, b.getMsbD 1, b.getMsbD 2, b.getMsbD 3] = b &&& 0xF0 := by decide
  have hlow : ∀ b : Byte,
      chunk [b.getMsbD 4, b.getMsbD 5, b.getMsbD 6, b.getMsbD 7] = b <<< 4 &&& 0xF0 := by decide
  rw [hsplit, serial_append, serial_chunk _ _ (by simp), serial_chunk _ _ (by simp), hhigh, hlow]
  rfl

theorem serial_bits (crc : Byte) (bytes : List Byte) :
    serial polynomial crc (bits bytes) =
      added polynomial 4 crc ((nibbles bytes).map (· &&& 0xF0)) := by
  induction bytes generalizing crc with
  | nil => rfl
  | cons b bytes ih =>
      rw [bits, List.flatMap_cons, serial_append, serial_byte]
      exact ih _

/-- What the code computes is the check of the bits and what is left of the excess. -/
theorem foldl_eq (crc : Byte) (bytes : List Byte) :
    bytes.foldl (fun (crc b : Byte) => divnibble (b <<< 4) (divnibble b crc)) crc =
      serial polynomial crc (bits bytes) ^^^ residue polynomial 4 (steps crc (nibbles bytes)) := by
  rw [calcCRC_nibbles, foldl_divnibble, faulty_eq, steps_fst, serial_bits]

/-- No nibble reads `CRCTable[11]`. -/
def NeverEleven (crc : Byte) (bytes : List Byte) : Prop :=
  Every (fun crc d => divnibble d crc) (fun crc d => ¬ ReadsEleven crc d) crc (nibbles bytes)

theorem xor_eq_self {x y : Byte} : x ^^^ y = x ↔ y = 0 := by
  have h : x = x ^^^ 0#8 := BitVec.xor_zero.symm
  constructor
  · intro he
    exact (BitVec.xor_right_inj x).mp (he.trans h)
  · intro hy
    rw [hy]
    exact h.symm

/-- The two nibbles of one byte cannot undo each other's excess. -/
theorem byte_eq_iff (crc b : Byte) :
    divnibble (b <<< 4) (divnibble b crc) = serial polynomial crc (bits [b]) ↔
      ¬ ReadsEleven crc b ∧ ¬ ReadsEleven (divnibble b crc) (b <<< 4) := by
  have heq := foldl_eq crc [b]
  rw [show divnibble (b <<< 4) (divnibble b crc) = _ from heq, xor_eq_self]
  change shifts polynomial 4 (excess crc b) ^^^ (excess (divnibble b crc) (b <<< 4) ^^^ 0) = 0 ↔ _
  unfold excess
  by_cases h1 : ReadsEleven crc b <;>
    by_cases h2 : ReadsEleven (divnibble b crc) (b <<< 4) <;> simp [h1, h2] <;> decide

/-- As soon as the entry is read the check is wrong. -/
theorem prefixes_iff (crc : Byte) (bytes : List Byte) :
    (∀ n, (bytes.take n).foldl (fun (crc b : Byte) => divnibble (b <<< 4) (divnibble b crc)) crc =
      serial polynomial crc (bits (bytes.take n))) ↔ NeverEleven crc bytes := by
  induction bytes generalizing crc with
  | nil =>
      refine iff_of_true (fun n => ?_) trivial
      rw [List.take_nil]
      rfl
  | cons b bytes ih =>
      have hbits (n : ℕ) : bits ((b :: bytes).take (n + 1)) = bits [b] ++ bits (bytes.take n) := by
        rw [List.take_succ_cons, bits, List.flatMap_cons, bits, List.flatMap_singleton]
        rfl
      constructor
      · intro h
        have hb := h 1
        rw [hbits, List.take_zero] at hb
        have hb : divnibble (b <<< 4) (divnibble b crc) = serial polynomial crc (bits [b]) := hb
        obtain ⟨h1, h2⟩ := (byte_eq_iff crc b).mp hb
        refine ⟨h1, h2, (ih _).mp fun n => ?_⟩
        have hn := h (n + 1)
        rwa [hbits, serial_append, ← hb] at hn
      · rintro ⟨h1, h2, h⟩ n
        cases n with
        | zero => rfl
        | succ n =>
            rw [hbits, serial_append, ← (byte_eq_iff crc b).mpr ⟨h1, h2⟩]
            exact (ih _).mpr h n

/-- `calcCRC` is the bit-serial check if and only if what the reads of `CRCTable[11]`
add comes to nothing; it is right for a sequence and all its beginnings if and only if
that entry is never read. -/
theorem calcCRC_iff (bytes : List Byte) :
    (calcCRC bytes = serial polynomial 0xFF (bits bytes) ↔
      residue polynomial 4 (steps 0xFF (nibbles bytes)) = 0) ∧
    ((∀ n, calcCRC (bytes.take n) = serial polynomial 0xFF (bits (bytes.take n))) ↔
      NeverEleven 0xFF bytes) := by
  refine ⟨?_, prefixes_iff 0xFF bytes⟩
  rw [calcCRC, foldl_eq, xor_eq_self]

/-- The first nibble of 0x40 reads the entry. -/
theorem calcCRC_wrong : ¬ ∀ bytes : List Byte,
    calcCRC bytes = serial polynomial 0xFF (bits bytes) := by
  intro h
  exact absurd (h [0x40]) (by decide)

end HydraAmix.Clock
