import Mathlib.Data.Nat.Notation
import Mathlib.Logic.Function.Iterate

/-!
# The civil calendar

A day is followed by the next of its month, the last of a month by the first of the
next, and the last of a year by the first of January. The day with the number `n` is
the one that comes `n` days after the first of 1970, a Thursday. A moment is given by
the seconds since that day began; all days have 86400 of them.
-/
namespace HydraAmix.Calendar

structure Date where
  year : ℕ
  month : ℕ
  day : ℕ
  deriving DecidableEq, Repr

inductive Weekday where
  | sunday | monday | tuesday | wednesday | thursday | friday | saturday
  deriving DecidableEq, Repr

/-- A date with its weekday, and the time of the day. -/
structure Civil where
  date : Date
  weekday : Weekday
  hour : ℕ
  minute : ℕ
  second : ℕ
  deriving DecidableEq, Repr

/-- The rule of the Gregorian calendar. -/
def Leap (y : ℕ) : Prop := 4 ∣ y ∧ (100 ∣ y → 400 ∣ y)

instance (y : ℕ) : Decidable (Leap y) := inferInstanceAs (Decidable (_ ∧ _))

def monthLength (y : ℕ) : ℕ → ℕ
  | 2 => if Leap y then 29 else 28
  | 4 => 30
  | 6 => 30
  | 9 => 30
  | 11 => 30
  | _ => 31

def yearLength (y : ℕ) : ℕ := if Leap y then 366 else 365

def Date.next (d : Date) : Date :=
  if d.day < monthLength d.year d.month then ⟨d.year, d.month, d.day + 1⟩
  else if d.month < 12 then ⟨d.year, d.month + 1, 1⟩
  else ⟨d.year + 1, 1, 1⟩

def Weekday.next : Weekday → Weekday
  | .sunday => .monday
  | .monday => .tuesday
  | .tuesday => .wednesday
  | .wednesday => .thursday
  | .thursday => .friday
  | .friday => .saturday
  | .saturday => .sunday

/-- The moment `t` seconds after the beginning of 1970. -/
def civil (t : ℕ) : Civil where
  date := Date.next^[t / 86400] ⟨1970, 1, 1⟩
  weekday := Weekday.next^[t / 86400] .thursday
  hour := t % 86400 / 3600
  minute := t % 3600 / 60
  second := t % 60

/-! ### Days, months and years from their first on -/

theorem monthLength_pos (y m : ℕ) : 0 < monthLength y m := by
  unfold monthLength
  split
  · split <;> decide
  all_goals decide

theorem iterate_day {y m d k : ℕ} (h : d + k ≤ monthLength y m) :
    Date.next^[k] ⟨y, m, d⟩ = ⟨y, m, d + k⟩ := by
  induction k with
  | zero => rfl
  | succ k ih =>
      have hlt : d + k < monthLength y m := by omega
      rw [Function.iterate_succ_apply', ih (Nat.le_of_lt hlt)]
      exact if_pos hlt

/-- The day after the last of a month. -/
theorem iterate_month (y : ℕ) {m : ℕ} (h : m < 12) :
    Date.next^[monthLength y m] ⟨y, m, 1⟩ = ⟨y, m + 1, 1⟩ := by
  have hpos := monthLength_pos y m
  obtain ⟨k, hk⟩ : ∃ k, monthLength y m = k + 1 := ⟨monthLength y m - 1, by omega⟩
  have hlast : ¬ 1 + k < monthLength y m := by omega
  rw [hk, Function.iterate_succ_apply', iterate_day (by omega)]
  exact (if_neg hlast).trans (if_pos h)

theorem iterate_december (y : ℕ) : Date.next^[31] ⟨y, 12, 1⟩ = ⟨y + 1, 1, 1⟩ := by
  rw [Function.iterate_succ_apply', iterate_day (Nat.le_refl 31)]
  rfl

/-- The day after the last of a year. -/
theorem iterate_year (y : ℕ) : Date.next^[yearLength y] ⟨y, 1, 1⟩ = ⟨y + 1, 1, 1⟩ := by
  have hsum : yearLength y = 31 + (monthLength y 11 + (monthLength y 10 + (monthLength y 9 +
      (monthLength y 8 + (monthLength y 7 + (monthLength y 6 + (monthLength y 5 +
      (monthLength y 4 + (monthLength y 3 + (monthLength y 2 + monthLength y 1)))))))))) := by
    unfold yearLength monthLength
    split <;> rfl
  rw [hsum]
  simp only [Function.iterate_add_apply, iterate_month y (by decide : 1 < 12),
    iterate_month y (by decide : 2 < 12), iterate_month y (by decide : 3 < 12),
    iterate_month y (by decide : 4 < 12), iterate_month y (by decide : 5 < 12),
    iterate_month y (by decide : 6 < 12), iterate_month y (by decide : 7 < 12),
    iterate_month y (by decide : 8 < 12), iterate_month y (by decide : 9 < 12),
    iterate_month y (by decide : 10 < 12), iterate_month y (by decide : 11 < 12),
    Nat.reduceAdd, iterate_december]

/-- Weeks come back to the same weekday. -/
theorem weekday_week (w : Weekday) : Weekday.next^[7] w = w := by
  cases w <;> rfl

theorem weekday_mod (n : ℕ) (w : Weekday) : Weekday.next^[n] w = Weekday.next^[n % 7] w := by
  have h : Weekday.next^[7 * (n / 7)] w = w := by
    rw [Function.iterate_mul]
    exact Function.iterate_fixed (weekday_week w) _
  calc Weekday.next^[n] w = Weekday.next^[n % 7 + 7 * (n / 7)] w := by rw [Nat.mod_add_div]
    _ = Weekday.next^[n % 7] w := by rw [Function.iterate_add_apply, h]

end HydraAmix.Calendar
