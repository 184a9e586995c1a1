import HydraAmix.Clock.Ben
import Mathlib.Data.List.Nodup
import Mathlib.Data.Nat.ModEq

/-!
# Every time comes back from the clock

Both chips give back fields whose digits fit their registers. The loops of `time2ben` go
through the calendar a year and a month at a time, and those of `ben2time` add up the same
years and months.
-/
namespace HydraAmix.Clock
open Word Calendar

/-! ### The registers -/

namespace Chip

variable {c : Chip} {n m : BitVec 4} {v : ℕ}

theorem poke_type (c : Chip) (n : BitVec 4) (v : ℕ) : (c.poke n v).clock_type = c.clock_type := by
  unfold poke
  split <;> rfl

theorem poke_mode (hn : n ≠ 0xD) : (c.poke n v).mode = c.mode := by
  unfold poke
  rw [if_neg hn]
  rfl

theorem peek_poke (hn : n ≠ 0xD) : (c.poke n v).peek n = v % 16 := by
  unfold peek
  rw [if_neg hn, poke_mode hn]
  unfold poke
  rw [if_neg hn]
  change (Function.update c.page c.mode _ c.mode n).toNat = v % 16
  rw [Function.update_self, Function.update_self]
  rfl

theorem peek_poke_of_ne (hn : n ≠ 0xD) (h : m ≠ n) : (c.poke n v).peek m = c.peek m := by
  unfold peek
  rw [poke_mode hn]
  unfold poke
  rw [if_neg hn]
  by_cases hm : m = 0xD
  · rw [if_pos hm, if_pos hm]
  · rw [if_neg hm, if_neg hm]
    change (Function.update c.page c.mode _ c.mode m).toNat = (c.page c.mode m).toNat
    rw [Function.update_self, Function.update_of_ne h]

theorem pokes_type (l : List (BitVec 4 × ℕ)) (c : Chip) :
    (c.pokes l).clock_type = c.clock_type := by
  induction l generalizing c with
  | nil => rfl
  | cons x l ih => exact (ih _).trans (poke_type ..)

theorem pokes_mode {l : List (BitVec 4 × ℕ)} (hD : ∀ x ∈ l, x.1 ≠ 0xD) (c : Chip) :
    (c.pokes l).mode = c.mode := by
  induction l generalizing c with
  | nil => rfl
  | cons x l ih =>
      exact (ih (fun y hy => hD y (List.mem_cons_of_mem x hy)) _).trans
        (poke_mode (hD x List.mem_cons_self))

theorem peek_pokes_of_ne {l : List (BitVec 4 × ℕ)} (hD : ∀ x ∈ l, x.1 ≠ 0xD)
    (hm : ∀ x ∈ l, m ≠ x.1) (c : Chip) : (c.pokes l).peek m = c.peek m := by
  induction l generalizing c with
  | nil => rfl
  | cons x l ih =>
      exact (ih (fun y hy => hD y (List.mem_cons_of_mem x hy))
        (fun y hy => hm y (List.mem_cons_of_mem x hy)) _).trans
        (peek_poke_of_ne (hD x List.mem_cons_self) (hm x List.mem_cons_self))

/-- Registers that are written once keep what was written. -/
theorem peek_pokes {l : List (BitVec 4 × ℕ)} (hD : ∀ x ∈ l, x.1 ≠ 0xD)
    (hl : (l.map Prod.fst).Nodup) (h : l.lookup n = some v) (c : Chip) :
    (c.pokes l).peek n = v % 16 := by
  induction l generalizing c with
  | nil => exact absurd h.symm (Option.some_ne_none v)
  | cons y l ih =>
      obtain ⟨hy, hl'⟩ := List.nodup_cons.mp hl
      have hD' : ∀ z ∈ l, z.1 ≠ 0xD := fun z hz => hD z (List.mem_cons_of_mem y hz)
      change ((c.poke y.1 y.2).pokes l).peek n = v % 16
      by_cases hn : n = y.1
      · subst hn
        have hv : y.2 = v := by
          rw [List.lookup_cons, beq_self_eq_true] at h
          exact Option.some.inj h
        rw [peek_pokes_of_ne hD' fun z hz he => hy (List.mem_map.mpr ⟨z, hz, he.symm⟩),
          peek_poke (hD y List.mem_cons_self), hv]
      · have hrest : l.lookup n = some v := by
          rwa [List.lookup_cons, beq_false_of_ne hn] at h
        exact ih hD' hl' hrest _

end Chip

/-- Fields whose digits fit the registers. -/
structure Fits (x : Ben) : Prop where
  accepted : check_clock x = true
  hyear : x.hyear < 160

theorem digits {v : ℕ} (h : v < 160) : v / 10 % 16 * 10 + v % 10 % 16 = v := by omega

theorem keys_nodup {l : List (BitVec 4 × ℕ)}
    (h : l.map Prod.fst = [0x0, 0x1, 0x2, 0x3, 0x4, 0x5, 0x6, 0x7, 0x8, 0x9, 0xA, 0xB, 0xC]) :
    (l.map Prod.fst).Nodup := by
  rw [h]
  decide

theorem oki_peek (x : Ben) (c : Chip) {n : BitVec 4} {v : ℕ}
    (h : (oki_fields x).lookup n = some v) : (oki_write x c).peek n = v % 16 :=
  Chip.peek_pokes (by simp [oki_fields]) (keys_nodup (by rfl)) h c

theorem ricoh_peek (x : Ben) (c : Chip) {n : BitVec 4} {v : ℕ}
    (h : (ricoh_fields x).lookup n = some v) : (c.pokes (ricoh_fields x)).peek n = v % 16 :=
  Chip.peek_pokes (by simp [ricoh_fields]) (keys_nodup (by rfl)) h c

theorem oki_read_write {x : Ben} (h : Fits x) (c : Chip) : oki_read (oki_write x c) = x := by
  have hok := of_decide_eq_true h.accepted
  have hy := h.hyear
  have hp {n : BitVec 4} {v : ℕ} := @oki_peek x c n v
  unfold oki_read
  rw [hp (n := 0x0) rfl, hp (n := 0x1) rfl, hp (n := 0x2) rfl, hp (n := 0x3) rfl,
    hp (n := 0x4) rfl, hp (n := 0x5) rfl, hp (n := 0x6) rfl, hp (n := 0x7) rfl, hp (n := 0x8) rfl,
    hp (n := 0x9) rfl, hp (n := 0xA) rfl, hp (n := 0xB) rfl, hp (n := 0xC) rfl, digits (by omega),
    digits (by omega), digits (by omega), digits (by omega), digits (by omega), digits hy]
  have hw : (x.hweekday - 1) % 16 + 1 = x.hweekday := by omega
  rw [hw]

/-- A Ricoh's page is selected for reading as it was for writing. -/
theorem ricoh_peek_again {x : Ben} {c : Chip} (hc : c.clock_type = .RICOH) {n : BitVec 4} {v : ℕ}
    (h : (ricoh_fields x).lookup n = some v) (hn : n ≠ 0xD) :
    ((ricoh_write x c).poke 0xD (Ricoh_TIMER_EN ||| Ricoh_M00)).peek n = v % 16 := by
  have hD : ∀ y ∈ ricoh_fields x, y.1 ≠ 0xD := by simp [ricoh_fields]
  have hmode (c : Chip) (hc : c.clock_type = .RICOH) :
      (c.poke 0xD (Ricoh_TIMER_EN ||| Ricoh_M00)).mode = 0 := by
    unfold Chip.mode Chip.poke
    rw [if_pos rfl, hc]
    change (BitVec.ofNat 4 (Ricoh_TIMER_EN ||| Ricoh_M00)).setWidth 2 = 0#2
    decide
  have htype : (ricoh_write x c).clock_type = .RICOH := by
    unfold ricoh_write
    rw [Chip.poke_type, Chip.pokes_type, Chip.poke_type, hc]
  rw [← ricoh_peek x (c.poke 0xD (Ricoh_TIMER_EN ||| Ricoh_M00)) h]
  unfold Chip.peek
  rw [if_neg hn, if_neg hn, hmode _ htype, Chip.pokes_mode hD, hmode c hc]
  rfl

theorem ricoh_read_write {x : Ben} (h : Fits x) {c : Chip} (hc : c.clock_type = .RICOH) :
    (ricoh_read (ricoh_write x c)).1 = x := by
  have hok := of_decide_eq_true h.accepted
  have hy := h.hyear
  have hp {n : BitVec 4} {v : ℕ} := @ricoh_peek_again x c hc n v
  unfold ricoh_read
  dsimp only
  rw [hp (n := 0x0) rfl (by decide), hp (n := 0x1) rfl (by decide), hp (n := 0x2) rfl (by decide),
    hp (n := 0x3) rfl (by decide), hp (n := 0x4) rfl (by decide), hp (n := 0x5) rfl (by decide),
    hp (n := 0x6) rfl (by decide), hp (n := 0x7) rfl (by decide), hp (n := 0x8) rfl (by decide),
    hp (n := 0x9) rfl (by decide), hp (n := 0xA) rfl (by decide), hp (n := 0xB) rfl (by decide),
    hp (n := 0xC) rfl (by decide), digits (by omega), digits (by omega), digits (by omega),
    digits (by omega), digits (by omega), digits hy]
  have hw : (x.hweekday - 1) % 16 + 1 = x.hweekday := by omega
  rw [hw]

/-- What is written to a chip is read from it and accepted. -/
theorem clock_read_write {x : Ben} (h : Fits x) (c : Chip) :
    ∃ c', clock_read (clock_write x c) = some (x, c') := by
  unfold clock_write clock_read
  cases hc : c.clock_type with
  | RICOH =>
      have htype : (ricoh_write x c).clock_type = .RICOH := by
        unfold ricoh_write
        rw [Chip.poke_type, Chip.pokes_type, Chip.poke_type, hc]
      refine ⟨(ricoh_read (ricoh_write x c)).2, ?_⟩
      dsimp only
      rw [htype]
      dsimp only
      rw [ricoh_read_write h hc, if_pos h.accepted]
  | OKI =>
      have htype : (oki_write x c).clock_type = .OKI := (Chip.pokes_type ..).trans hc
      refine ⟨oki_write x c, ?_⟩
      dsimp only
      rw [htype]
      dsimp only
      rw [oki_read_write h c, if_pos h.accepted]

/-! ### The years -/

/-- From 1901 to 2099 every fourth year is a leap year. -/
theorem dysize_eq {y : ℕ} (hpos : 0 < y) (hlt : y < 200) : dysize y = yearLength (1900 + y) := by
  have h : Leap (1900 + y) ↔ y % 4 = 0 := by
    unfold Leap
    omega
  unfold dysize yearLength
  rw [if_congr h rfl rfl]
  by_cases hy : y % 4 = 0
  · rw [if_neg (not_not.mpr hy), if_pos hy]
  · rw [if_pos hy, if_neg hy]

theorem le_yearLoop (y day : ℕ) : y ≤ (yearLoop y day).1 := by
  fun_induction yearLoop y day with
  | case1 y day h ih => omega
  | case2 y day h => exact Nat.le_refl y

theorem yearLoop_lt (y day : ℕ) : (yearLoop y day).2 < dysize (yearLoop y day).1 := by
  fun_induction yearLoop y day with
  | case1 y day h ih => exact ih
  | case2 y day h => exact Nat.not_le.mp h

theorem yearLoop_le (y day : ℕ) : ((yearLoop y day).1 - y) * 365 ≤ day := by
  fun_induction yearLoop y day with
  | case1 y day h ih =>
      have hsize : 365 ≤ dysize y := by
        unfold dysize
        split <;> decide
      have hstep (r d s : ℕ) : 365 ≤ s → s ≤ d → (r - (y + 1)) * 365 ≤ d - s →
          (r - y) * 365 ≤ d := by omega
      exact hstep _ _ _ hsize h ih
  | case2 y day h => omega

/-- The days of the years that are passed and the days left are all days. -/
theorem yearLoop_sum (y day a : ℕ) :
    (List.range' y ((yearLoop y day).1 - y)).foldl (fun t i => t + dysize i * 86400) a +
      (yearLoop y day).2 * 86400 = a + day * 86400 := by
  fun_induction yearLoop y day generalizing a with
  | case1 y day h ih =>
      have hle := le_yearLoop (y + 1) (day - dysize y)
      obtain ⟨n, hn⟩ : ∃ n, (yearLoop (y + 1) (day - dysize y)).1 - y = n + 1 :=
        ⟨(yearLoop (y + 1) (day - dysize y)).1 - y - 1, by omega⟩
      have hn' : (yearLoop (y + 1) (day - dysize y)).1 - (y + 1) = n := by omega
      have hnext := ih (a + dysize y * 86400)
      rw [hn'] at hnext
      rw [hn, List.range'_succ, List.foldl_cons, hnext, Nat.sub_mul]
      have := Nat.mul_le_mul_right 86400 h
      omega
  | case2 y day h => rw [Nat.sub_self]; rfl

theorem yearLoop_date {y d : ℕ} (hpos : 0 < y) (hlt : (yearLoop y d).1 < 200) :
    Date.next^[d] ⟨1900 + y, 1, 1⟩ =
      Date.next^[(yearLoop y d).2] ⟨1900 + (yearLoop y d).1, 1, 1⟩ := by
  fun_induction yearLoop y d with
  | case1 y day h ih =>
      have hle := le_yearLoop (y + 1) (day - dysize y)
      rw [← ih (Nat.succ_pos y) hlt]
      have hday : day - dysize y + yearLength (1900 + y) = day := by
        rw [← dysize_eq hpos (by omega)]
        exact Nat.sub_add_cancel h
      calc Date.next^[day] ⟨1900 + y, 1, 1⟩
          = Date.next^[day - dysize y + yearLength (1900 + y)] ⟨1900 + y, 1, 1⟩ := by rw [hday]
        _ = Date.next^[day - dysize y] ⟨1900 + (y + 1), 1, 1⟩ := by
            rw [Function.iterate_add_apply, iterate_year]
            rfl
  | case2 y day h => rfl

/-! ### The months -/

theorem monthLength_le (y m : ℕ) : monthLength y m ≤ 31 := by
  unfold monthLength
  split
  · split <;> decide
  all_goals decide

theorem monthLoop_date {Y : ℕ} {sizes : List ℕ} {m d : ℕ} (hlen : m + sizes.length = 12)
    (hsizes : ∀ i < sizes.length, sizes.getD i 0 = monthLength Y (m + 1 + i))
    (hlt : d < sizes.foldr (· + ·) 0) :
    (monthLoop sizes m d).1 < 12 ∧
      (monthLoop sizes m d).2 < monthLength Y ((monthLoop sizes m d).1 + 1) ∧
      Date.next^[d] ⟨Y, m + 1, 1⟩ =
        ⟨Y, (monthLoop sizes m d).1 + 1, (monthLoop sizes m d).2 + 1⟩ := by
  induction sizes generalizing m d with
  | nil => exact absurd hlt (Nat.not_lt_zero d)
  | cons size sizes ih =>
      have hsize : size = monthLength Y (m + 1) := hsizes 0 (Nat.succ_pos _)
      rw [List.length_cons] at hlen hsizes
      rw [List.foldr_cons] at hlt
      by_cases h : size ≤ d
      · have hloop : monthLoop (size :: sizes) m d = monthLoop sizes (m + 1) (d - size) :=
          if_pos h
        have hm : m + 1 < 12 := by
          cases sizes with
          | nil => exact absurd hlt (Nat.not_lt.mpr h)
          | cons _ _ =>
              rw [List.length_cons] at hlen
              omega
        have hrest := ih (m := m + 1) (d := d - size) (by omega) (fun i hi => by
          have hnext := hsizes (i + 1) (Nat.succ_lt_succ hi)
          have hi' : m + 1 + (i + 1) = m + 1 + 1 + i := by omega
          rwa [List.getD_cons_succ, hi'] at hnext) (by omega)
        obtain ⟨h1, h2, h3⟩ := hrest
        rw [hloop]
        refine ⟨h1, h2, ?_⟩
        calc Date.next^[d] ⟨Y, m + 1, 1⟩
            = Date.next^[d - size + monthLength Y (m + 1)] ⟨Y, m + 1, 1⟩ := by
              rw [← hsize, Nat.sub_add_cancel h]
          _ = Date.next^[d - size] ⟨Y, m + 1 + 1, 1⟩ := by
              rw [Function.iterate_add_apply, iterate_month Y hm]
          _ = _ := h3
      · have hloop : monthLoop (size :: sizes) m d = (m, d) := if_neg h
        have hday : d < monthLength Y (m + 1) := by omega
        rw [hloop]
        refine ⟨by omega, hday, ?_⟩
        dsimp only
        rw [iterate_day (by omega), Nat.add_comm 1 d]

/-- The days of the months that are passed and the days left are all days. -/
theorem monthLoop_sum {full sizes : List ℕ} {m : ℕ} (hd : ℕ) (h : full.drop m = sizes) :
    monthsBefore full ((monthLoop sizes m hd).1 + 1) + (monthLoop sizes m hd).2 * 86400 =
      monthsBefore full (m + 1) + hd * 86400 := by
  induction sizes generalizing m hd with
  | nil => rfl
  | cons size sizes ih =>
      by_cases hle : size ≤ hd
      · have hloop : monthLoop (size :: sizes) m hd = monthLoop sizes (m + 1) (hd - size) :=
          if_pos hle
        have hget : full.getD m 0 = size := by
          have h0 : (full.drop m).getD 0 0 = full.getD (m + 0) 0 := by
            simp only [List.getD_eq_getElem?_getD, List.getElem?_drop]
          rw [h] at h0
          exact h0.symm
        have hdrop : full.drop (m + 1) = sizes := by
          rw [← List.tail_drop, h]
          rfl
        have hmonth : monthsBefore full (m + 1 + 1) =
            full.getD m 0 * 86400 + monthsBefore full (m + 1) := rfl
        rw [hloop, ih (hd - size) hdrop, hmonth, hget, Nat.sub_mul]
        have := Nat.mul_le_mul_right 86400 hle
        omega
      · have hloop : monthLoop (size :: sizes) m hd = (m, hd) := if_neg hle
        rw [hloop]

theorem dmsize_eq {y : ℕ} (hpos : 0 < y) (hlt : y < 200) {i : ℕ} (hi : i < 12) :
    (dmsize (dysize y)).getD i 0 = monthLength (1900 + y) (0 + 1 + i) := by
  have hfeb : monthLength (1900 + y) 2 = if dysize y = 366 then 29 else 28 := by
    rw [dysize_eq hpos hlt]
    unfold yearLength
    by_cases hl : Leap (1900 + y)
    · exact (if_pos hl).trans (by rw [if_pos hl]; rfl)
    · exact (if_neg hl).trans (by rw [if_neg hl]; rfl)
  by_cases hi1 : i = 1
  · subst hi1
    exact hfeb.symm
  · have : i = 0 ∨ i = 2 ∨ i = 3 ∨ i = 4 ∨ i = 5 ∨ i = 6 ∨ i = 7 ∨ i = 8 ∨ i = 9 ∨ i = 10 ∨
        i = 11 := by omega
    rcases this with rfl | rfl | rfl | rfl | rfl | rfl | rfl | rfl | rfl | rfl | rfl <;> rfl

theorem dmsize_total (y : ℕ) : (dmsize (dysize y)).foldr (· + ·) 0 = dysize y := by
  unfold dysize
  split <;> rfl

/-! ### Times -/

/-- A time before 2^31 is in one of the years from 1970 to 2038. -/
theorem year_bounds {t : ℕ} (h : t < 2147483648) :
    70 ≤ (yearLoop 70 (t / 86400)).1 ∧ (yearLoop 70 (t / 86400)).1 < 139 := by
  refine ⟨le_yearLoop 70 (t / 86400), ?_⟩
  have hle := yearLoop_le 70 (t / 86400)
  have hday : t / 86400 < 24856 := by omega
  generalize (yearLoop 70 (t / 86400)).1 = y at hle
  omega

/-- The month and the day of it that `time2ben` finds. -/
abbrev monthOf (t : ℕ) : ℕ × ℕ :=
  monthLoop (dmsize (dysize (yearLoop 70 (t / 86400)).1)) 0 (yearLoop 70 (t / 86400)).2

theorem time2ben_date {t : ℕ} (h : t < 2147483648) :
    (monthOf t).1 < 12 ∧ (monthOf t).2 < 31 ∧ (civil t).date =
      ⟨1900 + (yearLoop 70 (t / 86400)).1, (monthOf t).1 + 1, (monthOf t).2 + 1⟩ := by
  obtain ⟨hlow, hhigh⟩ := year_bounds h
  have hdate := yearLoop_date (y := 70) (d := t / 86400) (by decide) (by omega)
  have hrest := yearLoop_lt 70 (t / 86400)
  have hsizes {i : ℕ} := dmsize_eq (i := i) (Nat.lt_of_lt_of_le (by decide) hlow) (by omega)
  rw [← dmsize_total] at hrest
  obtain ⟨hm, hd, hmonth⟩ := monthLoop_date (by rfl) (fun i hi => hsizes hi) hrest
  exact ⟨hm, Nat.lt_of_lt_of_le hd (monthLength_le ..), hdate.trans hmonth⟩

/-- `time2ben` reads the fields of a moment off the calendar. -/
theorem time2ben_civil {t : ℕ} (h : t < 2147483648) : time2ben t = Ben.ofCivil (civil t) := by
  obtain ⟨-, -, hdate⟩ := time2ben_date h
  have hweekday : (t / 86400 + 7340036) % 7 + 1 = (Ben.ofCivil (civil t)).hweekday := by
    unfold Ben.ofCivil civil
    dsimp only
    rw [weekday_mod]
    have hmod : (t / 86400 + 7340036) % 7 = (t / 86400 % 7 + 4) % 7 := by omega
    have hlt : t / 86400 % 7 < 7 := Nat.mod_lt _ (by decide)
    rw [hmod]
    generalize t / 86400 % 7 = n at hlt
    have : n = 0 ∨ n = 1 ∨ n = 2 ∨ n = 3 ∨ n = 4 ∨ n = 5 ∨ n = 6 := by omega
    rcases this with rfl | rfl | rfl | rfl | rfl | rfl | rfl <;> rfl
  have hsecs : t % 86400 % 60 = t % 60 := by omega
  have hmins : t % 86400 / 60 % 60 = t % 3600 / 60 := by omega
  have hhours : t % 86400 / 60 / 60 = t % 86400 / 3600 := by omega
  have hyear : 1900 + (yearLoop 70 (t / 86400)).1 - 1900 = (yearLoop 70 (t / 86400)).1 :=
    Nat.add_sub_cancel_left ..
  unfold time2ben
  dsimp only
  rw [hweekday, hsecs, hmins, hhours]
  unfold Ben.ofCivil
  dsimp only
  rw [hdate, hyear]
  rfl

theorem time2ben_fits {t : ℕ} (h : t < 2147483648) : Fits (time2ben t) := by
  obtain ⟨hm, hd, -⟩ := time2ben_date h
  obtain ⟨-, hyear⟩ := year_bounds h
  refine ⟨decide_eq_true ?_, Nat.lt_trans hyear (by decide)⟩
  have hsecs : t % 86400 % 60 < 60 := Nat.mod_lt _ (by decide)
  have hmins : t % 86400 / 60 % 60 < 60 := Nat.mod_lt _ (by decide)
  have hhours : t % 86400 / 60 / 60 < 24 := by omega
  have hweekday : (t / 86400 + 7340036) % 7 < 7 := Nat.mod_lt _ (by decide)
  unfold monthOf at hm hd
  unfold time2ben
  dsimp only
  omega

/-- `ben2time` takes back what `time2ben` did. -/
theorem ben2time_time2ben {t : ℕ} (h : t < 2147483648) : ben2time (time2ben t) = t := by
  obtain ⟨hlow, -⟩ := year_bounds h
  have hyears := yearLoop_sum 70 (t / 86400) 0
  have hmonths := monthLoop_sum (yearLoop 70 (t / 86400)).2
    (List.drop_zero (l := dmsize (dysize (yearLoop 70 (t / 86400)).1)))
  unfold ben2time time2ben
  dsimp only
  rw [if_neg (Nat.not_lt.mpr hlow), Nat.add_sub_cancel]
  have hsum (years months hd rest : ℕ) :
      years + rest * 86400 = 0 + t / 86400 * 86400 → months + hd * 86400 = 0 + rest * 86400 →
      years + months + hd * 86400 + t % 86400 / 60 / 60 * 3600 + t % 86400 / 60 % 60 * 60 +
        t % 86400 % 60 = t := by omega
  rw [hsum _ _ _ _ hyears hmonths]
  exact int32_of_range (by omega) (by omega)

/-- Every time from 0 to 2^31 has its civil fields, and comes back from either chip. -/
theorem clock_round_trip (t : ℕ) (h : t < 2147483648) :
    time2ben t = Ben.ofCivil (civil t) ∧
      ∀ c : Chip, ∃ b c', clock_read (clock_write (time2ben t) c) = some (b, c') ∧
        ben2time b = t := by
  refine ⟨time2ben_civil h, fun c => ?_⟩
  obtain ⟨c', hread⟩ := clock_read_write (time2ben_fits h) c
  exact ⟨time2ben t, c', hread, ben2time_time2ben h⟩

/-- The evening of a leap day. -/
theorem clock_round_trip_leap :
    time2ben 951868799 = ⟨59, 59, 23, 29, 3, 2, 100⟩ ∧
      time2ben 951868799 = Ben.ofCivil (civil 951868799) ∧
      ∀ c : Chip, ∃ b c', clock_read (clock_write (time2ben 951868799) c) = some (b, c') ∧
        ben2time b = (951868799 : ℕ) := by
  refine ⟨?_, clock_round_trip 951868799 (by decide)⟩
  simp [time2ben, yearLoop, monthLoop, dysize, dmsize]

end HydraAmix.Clock
