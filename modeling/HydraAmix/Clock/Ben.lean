import HydraAmix.Library.Calendar
import HydraAmix.Library.Word
import Mathlib.Logic.Function.Basic

/-!
# The hardware clock

A time is broken into the fields of `struct ben`, whose digits go to sixteen registers
of four bits. The two chips have them in different places, and the Ricoh keeps four pages
of registers, of which register D selects one.

Times are not negative, as the fields are not then. The table of months is changed for a
leap year and put back in one call, so it is chosen here. When `check_clock` does not like
what was read the chip is reset and the caller fails.
-/
namespace HydraAmix.Clock
open Word

/-- `enum CLOCK_TYPE`, without NO_CLOCK, for which the device cannot be opened. -/
inductive CLOCK_TYPE where
  | RICOH | OKI
  deriving DecidableEq, Repr

structure Ben where
  hsecs : ℕ
  hmins : ℕ
  hhours : ℕ
  hdays : ℕ
  hweekday : ℕ
  hmonth : ℕ
  hyear : ℕ
  deriving DecidableEq, Repr

/-- The registers of each page, and register D. -/
structure Chip where
  clock_type : CLOCK_TYPE
  regD : BitVec 4
  page : BitVec 2 → BitVec 4 → BitVec 4

namespace Chip

variable (c : Chip)

/-- The page that is selected. -/
def mode : BitVec 2 :=
  match c.clock_type with
  | .RICOH => c.regD.setWidth 2
  | .OKI => 0

/-- A register keeps the low four bits that are written. -/
def poke (n : BitVec 4) (v : ℕ) : Chip :=
  if n = 0xD then { c with regD := BitVec.ofNat 4 v }
  else { c with page :=
    Function.update c.page c.mode (Function.update (c.page c.mode) n (BitVec.ofNat 4 v)) }

/-- VALIDBITS of a register. -/
def peek (n : BitVec 4) : ℕ := (if n = 0xD then c.regD else c.page c.mode n).toNat

def pokes (l : List (BitVec 4 × ℕ)) : Chip := l.foldl (fun c x => c.poke x.1 x.2) c

end Chip

abbrev Ricoh_TIMER_EN : ℕ := 8
abbrev Ricoh_M00 : ℕ := 0
abbrev Ricoh_M01 : ℕ := 1

/-! ### Writing and reading -/

/-- The assignments of `oki_write`. -/
def oki_fields (x : Ben) : List (BitVec 4 × ℕ) := [
  (0x0, x.hsecs % 10), (0x1, x.hsecs / 10), (0x2, x.hmins % 10), (0x3, x.hmins / 10),
  (0x4, x.hhours % 10), (0x5, x.hhours / 10), (0x6, x.hdays % 10), (0x7, x.hdays / 10),
  (0x8, x.hmonth % 10), (0x9, x.hmonth / 10), (0xA, x.hyear % 10), (0xB, x.hyear / 10),
  (0xC, x.hweekday - 1)]

def oki_write (x : Ben) (c : Chip) : Chip := c.pokes (oki_fields x)

/-- The assignments of `ricoh_write`, those to register D apart. -/
def ricoh_fields (x : Ben) : List (BitVec 4 × ℕ) := [
  (0x0, x.hsecs % 10), (0x1, x.hsecs / 10), (0x2, x.hmins % 10), (0x3, x.hmins / 10),
  (0x4, x.hhours % 10), (0x5, x.hhours / 10), (0x6, x.hweekday - 1), (0x7, x.hdays % 10),
  (0x8, x.hdays / 10), (0x9, x.hmonth % 10), (0xA, x.hmonth / 10), (0xB, x.hyear % 10),
  (0xC, x.hyear / 10)]

def ricoh_write (x : Ben) (c : Chip) : Chip :=
  ((c.poke 0xD (Ricoh_TIMER_EN ||| Ricoh_M00)).pokes (ricoh_fields x)).poke 0xD
    (Ricoh_TIMER_EN ||| Ricoh_M01)

def clock_write (x : Ben) (c : Chip) : Chip :=
  match c.clock_type with
  | .RICOH => ricoh_write x c
  | .OKI => oki_write x c

/-- `check_clock`, without the reset. -/
def check_clock (x : Ben) : Bool :=
  decide ¬(60 ≤ x.hsecs ∨ 60 ≤ x.hmins ∨ 24 ≤ x.hhours ∨ x.hdays < 1 ∨ 31 < x.hdays ∨
    x.hweekday < 1 ∨ 8 < x.hweekday ∨ x.hmonth < 1 ∨ 12 < x.hmonth)

def oki_read (c : Chip) : Ben where
  hsecs := c.peek 0x1 * 10 + c.peek 0x0
  hmins := c.peek 0x3 * 10 + c.peek 0x2
  hhours := c.peek 0x5 * 10 + c.peek 0x4
  hdays := c.peek 0x7 * 10 + c.peek 0x6
  hmonth := c.peek 0x9 * 10 + c.peek 0x8
  hyear := c.peek 0xB * 10 + c.peek 0xA
  hweekday := c.peek 0xC + 1

/-- What is read, and the chip, on which another page is selected. -/
def ricoh_read (c : Chip) : Ben × Chip :=
  let c := c.poke 0xD (Ricoh_TIMER_EN ||| Ricoh_M00)
  ({ hsecs := c.peek 0x1 * 10 + c.peek 0x0
     hmins := c.peek 0x3 * 10 + c.peek 0x2
     hhours := c.peek 0x5 * 10 + c.peek 0x4
     hdays := c.peek 0x8 * 10 + c.peek 0x7
     hmonth := c.peek 0xA * 10 + c.peek 0x9
     hyear := c.peek 0xC * 10 + c.peek 0xB
     hweekday := c.peek 0x6 + 1 }, c.poke 0xD (Ricoh_TIMER_EN ||| Ricoh_M01))

/-- `clock_read`, where `check_clock` accepts. -/
def clock_read (c : Chip) : Option (Ben × Chip) :=
  let (x, c) :=
    match c.clock_type with
    | .RICOH => ricoh_read c
    | .OKI => (oki_read c, c)
  if check_clock x then some (x, c) else none

/-! ### Times -/

def dysize (y : ℕ) : ℕ := if y % 4 ≠ 0 then 365 else 366

/-- `dmsize` in a year of so many days. -/
def dmsize (size : ℕ) : List ℕ :=
  [31, if size = 366 then 29 else 28, 31, 30, 31, 30, 31, 31, 30, 31, 30, 31]

theorem dysize_pos (y : ℕ) : 0 < dysize y := by
  unfold dysize
  split <;> decide

/-- The loop over the years: the year, and the days left in it. -/
def yearLoop (hyear day : ℕ) : ℕ × ℕ :=
  if dysize hyear ≤ day then yearLoop (hyear + 1) (day - dysize hyear) else (hyear, day)
termination_by day
decreasing_by
  have := dysize_pos hyear
  omega

/-- The loop over the months from `hmonth` on: the month, and the days left in it. -/
def monthLoop : List ℕ → ℕ → ℕ → ℕ × ℕ
  | [], hmonth, hdays => (hmonth, hdays)
  | size :: sizes, hmonth, hdays =>
      if size ≤ hdays then monthLoop sizes (hmonth + 1) (hdays - size) else (hmonth, hdays)

def time2ben (clock : ℕ) : Ben :=
  let day := clock / 86400
  let hms := clock % 86400
  let d1 := hms / 60
  let year := yearLoop 70 day
  let month := monthLoop (dmsize (dysize year.1)) 0 year.2
  { hsecs := hms % 60
    hhours := d1 / 60
    hmins := d1 % 60
    hweekday := (day + 7340036) % 7 + 1
    hyear := year.1
    hmonth := month.1 + 1
    hdays := month.2 + 1 }

/-- `while (--hmonth)` over the months before; there are none before January. -/
def monthsBefore (sizes : List ℕ) : ℕ → ℕ
  | 0 => 0
  | 1 => 0
  | n + 2 => sizes.getD n 0 * 86400 + monthsBefore sizes (n + 1)

/-- `ben2time`, of what `check_clock` accepts. The sum is a `long`. -/
def ben2time (x : Ben) : ℤ :=
  let year := if x.hyear < 70 then x.hyear + 100 else x.hyear
  let years := (List.range' 70 (year - 70)).foldl (fun t i => t + dysize i * 86400) 0
  let thetime := years + monthsBefore (dmsize (dysize year)) x.hmonth + (x.hdays - 1) * 86400 +
    x.hhours * 3600 + x.hmins * 60 + x.hsecs
  int32 thetime

/-- The fields of a civil date from 1900 on, with Sunday as the first day of the week. -/
def Ben.ofCivil (d : Calendar.Civil) : Ben where
  hsecs := d.second
  hmins := d.minute
  hhours := d.hour
  hdays := d.date.day
  hweekday :=
    match d.weekday with
    | .sunday => 1
    | .monday => 2
    | .tuesday => 3
    | .wednesday => 4
    | .thursday => 5
    | .friday => 6
    | .saturday => 7
  hmonth := d.date.month
  hyear := d.date.year - 1900

end HydraAmix.Clock
