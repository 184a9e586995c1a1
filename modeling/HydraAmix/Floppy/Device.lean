import Mathlib.Data.Nat.Notation

/-!
# Floppy devices and formats

The fields of a minor number and the table of formats of `flop.c`. The
functions of a format that read and write a track are parameters where they
are used.
-/
namespace HydraAmix.Floppy

abbrev TRACKS : ℕ := 160
abbrev BPSEC : ℕ := 512
abbrev NSECML : ℕ := 9
abbrev NSECMH : ℕ := 18
abbrev NSECAL : ℕ := 11
abbrev NTYPES : ℕ := 4
abbrev NDRIVES : ℕ := 4

/-- `dtodrv`: the drive of a minor number. -/
def dtodrv (dev : ℕ) : ℕ := 0x7 &&& dev >>> 5

/-- `dtotype`: its format. -/
def dtotype (dev : ℕ) : Fin NTYPES := ⟨0x3 &&& dev >>> 1, Nat.lt_succ_of_le Nat.and_le_left⟩

/-- `dtype`, less the two functions. -/
structure Dtype where
  nsecs : ℕ
  nblocks : ℕ
  deriving DecidableEq, Repr

def dtypes : Fin NTYPES → Dtype
  | 0 => ⟨NSECAL, NSECAL * TRACKS⟩
  | 1 => ⟨0, 0⟩
  | 2 => ⟨NSECML, NSECML * TRACKS⟩
  | 3 => ⟨NSECMH, NSECMH * TRACKS⟩

end HydraAmix.Floppy
