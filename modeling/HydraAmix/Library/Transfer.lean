import Mathlib.Data.Int.Notation
import Mathlib.Data.Nat.Notation
import Mathlib.Tactic.Linarith
import Mathlib.Tactic.Ring
import Mathlib.Tactic.SplitIfs

/-!
# Moving ranges of cells that may overlap

`transfer` reads a whole range before it writes the first cell. A range that is
moved in sections is moved as a whole when no section is written over before it
was read: in ascending order where the destination does not lie above the
source, in descending order where it does not lie below, and in any order where
the two do not meet.

The cells may be the rows of a raster, and a window of `h` rows that starts at
row `off` and goes on at row 0 unrolls them: what is done to the rows of the
raster in one piece or in two is done to one range of the window.
-/
namespace HydraAmix.Transfer

variable {α : Type}

/-- The `n` cells from `s` on, all read first, are written from `d` on. -/
def transfer (d s n : ℤ) (m : ℤ → α) (a : ℤ) : α :=
  if d ≤ a ∧ a < d + n then m (s + (a - d)) else m a

/-- The `n` cells from `d` on are all set to `v`. -/
def fill (v : α) (d n : ℤ) (m : ℤ → α) (a : ℤ) : α :=
  if d ≤ a ∧ a < d + n then v else m a

/-- `f` is applied to each of the `n` cells from `d` on. -/
def mapRange (f : α → α) (d n : ℤ) (m : ℤ → α) (a : ℤ) : α :=
  if d ≤ a ∧ a < d + n then f (m a) else m a

/-- `k` sections of `c` cells each, the lowest first. -/
def ascend (c : ℤ) : ℕ → ℤ → ℤ → (ℤ → α) → ℤ → α
  | 0, _, _, m => m
  | k + 1, d, s, m => ascend c k (d + c) (s + c) (transfer d s c m)

/-- `k` sections of `c` cells each that end at `d` and `s`, the highest first. -/
def descend (c : ℤ) : ℕ → ℤ → ℤ → (ℤ → α) → ℤ → α
  | 0, _, _, m => m
  | k + 1, d, s, m => descend c k (d - c) (s - c) (transfer (d - c) (s - c) c m)

variable {d s a b c : ℤ} {m : ℤ → α}

theorem transfer_of_nonpos (h : a ≤ 0) : transfer d s a m = m := by
  funext p
  rw [transfer, if_neg (by omega)]

theorem transfer_self : transfer d d a m = m := by
  funext p
  unfold transfer
  split_ifs
  · congr 1
    omega
  · rfl

theorem fill_fill (v : α) (ha : 0 ≤ a) (hb : 0 ≤ b) :
    fill v (d + a) b (fill v d a m) = fill v d (a + b) m := by
  funext p
  unfold fill
  split_ifs <;> first | rfl | omega

/-- The lower section first. -/
theorem transfer_above (ha : 0 ≤ a) (hb : 0 ≤ b) (h : d ≤ s ∨ s + (a + b) ≤ d) :
    transfer (d + a) (s + a) b (transfer d s a m) = transfer d s (a + b) m := by
  funext p
  unfold transfer
  by_cases hhigh : d + a ≤ p ∧ p < d + a + b
  · rw [if_pos hhigh, if_neg (by omega), if_pos (by omega)]
    congr 1
    omega
  · rw [if_neg hhigh]
    by_cases hlow : d ≤ p ∧ p < d + a
    · rw [if_pos hlow, if_pos (by omega)]
    · rw [if_neg hlow, if_neg (by omega)]

/-- The higher section first. -/
theorem transfer_below (ha : 0 ≤ a) (hb : 0 ≤ b) (h : s ≤ d ∨ d + (a + b) ≤ s) :
    transfer d s a (transfer (d + a) (s + a) b m) = transfer d s (a + b) m := by
  funext p
  unfold transfer
  by_cases hlow : d ≤ p ∧ p < d + a
  · rw [if_pos hlow, if_neg (by omega), if_pos (by omega)]
  · rw [if_neg hlow]
    by_cases hhigh : d + a ≤ p ∧ p < d + a + b
    · rw [if_pos hhigh, if_pos (by omega)]
      congr 1
      omega
    · rw [if_neg hhigh, if_neg (by omega)]

theorem ascend_eq (hc : 0 ≤ c) {k : ℕ} (h : d ≤ s ∨ s + c * k ≤ d) :
    ascend c k d s m = transfer d s (c * k) m := by
  induction k generalizing d s m with
  | zero => exact (transfer_of_nonpos (by omega)).symm
  | succ k ih =>
      have hk : c * ((k + 1 : ℕ) : ℤ) = c + c * k := by rw [Int.natCast_succ, Int.mul_add]; omega
      have hpos : 0 ≤ c * (k : ℤ) := Int.mul_nonneg hc (Int.natCast_nonneg k)
      rw [hk] at h ⊢
      rw [ascend, ih (by omega), transfer_above hc hpos h]

theorem descend_eq (hc : 0 ≤ c) {k : ℕ} (h : s ≤ d ∨ d ≤ s - c * k) :
    descend c k d s m = transfer (d - c * k) (s - c * k) (c * k) m := by
  induction k generalizing d s m with
  | zero => exact (transfer_of_nonpos (by omega)).symm
  | succ k ih =>
      have hk : c * ((k + 1 : ℕ) : ℤ) = c * k + c := by rw [Int.natCast_succ, Int.mul_add]; omega
      have hpos : 0 ≤ c * (k : ℤ) := Int.mul_nonneg hc (Int.natCast_nonneg k)
      rw [hk] at h ⊢
      have hlow := @transfer_below _ (d - (c * k + c)) (s - (c * k + c)) (c * k) c m hpos hc
        (by omega)
      have hd : d - (c * k + c) + c * k = d - c := by omega
      have hs : s - (c * k + c) + c * k = s - c := by omega
      have hd' : d - c - c * k = d - (c * k + c) := by omega
      have hs' : s - c - c * k = s - (c * k + c) := by omega
      rw [hd, hs] at hlow
      rw [descend, ih (by omega), hd', hs', hlow]

/-! ### Rows -/

/-- The rows of width `w` that the cells form, with `z` beside them. -/
def rows (w : ℤ) (z : α) (m : ℤ → α) (r x : ℤ) : α := if 0 ≤ x ∧ x < w then m (w * r + x) else z

variable {w x r n : ℤ} {z v : α}

theorem row_le_iff (h : 0 ≤ x) (hw : x < w) : w * d ≤ w * r + x ↔ d ≤ r := by
  constructor
  · intro hle
    by_contra hlt
    have hlt' : r + 1 ≤ d := by omega
    have := Int.mul_le_mul_of_nonneg_left hlt' (show 0 ≤ w by omega)
    rw [Int.mul_add, Int.mul_one] at this
    omega
  · intro hle
    have := Int.mul_le_mul_of_nonneg_left hle (show 0 ≤ w by omega)
    omega

theorem row_lt_iff (h : 0 ≤ x) (hw : x < w) : w * r + x < w * d + w * n ↔ r < d + n := by
  rw [← Int.mul_add, ← Int.not_le, row_le_iff h hw, Int.not_le]

theorem rows_transfer : rows w z (transfer (w * d) (w * s) (w * n) m) =
    transfer d s n (rows w z m) := by
  funext r x
  unfold rows transfer
  by_cases hx : 0 ≤ x ∧ x < w
  · simp only [if_pos hx, row_le_iff hx.1 hx.2, row_lt_iff hx.1 hx.2]
    split_ifs
    · refine Eq.trans ?_ (if_pos hx).symm
      congr 1
      ring
    · exact (if_pos hx).symm
  · simp only [if_neg hx]
    split_ifs <;> exact (if_neg hx).symm

theorem rows_fill : rows w z (fill z (w * d) (w * n) m) =
    mapRange (fun _ _ => z) d n (rows w z m) := by
  funext r x
  unfold rows fill mapRange
  by_cases hx : 0 ≤ x ∧ x < w
  · simp only [if_pos hx, row_le_iff hx.1 hx.2, row_lt_iff hx.1 hx.2]
    split_ifs
    · rfl
    · exact (if_pos hx).symm
  · simp only [if_neg hx]
    split_ifs
    · rfl
    · exact (if_neg hx).symm

/-- Cells of one row, up to its end, are no other row's. -/
theorem row_mem_iff (h : 0 ≤ x) (hw : x < w) (ha : 0 ≤ a) (hab : a + n ≤ w) :
    (w * d + a ≤ w * r + x ∧ w * r + x < w * d + a + n) ↔ r = d ∧ a ≤ x ∧ x < a + n := by
  constructor
  · rintro ⟨hlo, hhi⟩
    have hle : d ≤ r := (row_le_iff h hw).mp (by omega)
    have hlt : r < d + 1 := (row_lt_iff (n := 1) h hw).mp (by omega)
    obtain rfl : r = d := by omega
    exact ⟨rfl, by omega, by omega⟩
  · rintro ⟨rfl, hlo, hhi⟩
    exact ⟨by omega, by omega⟩

theorem rows_transfer_row (ha : 0 ≤ a) (hb : 0 ≤ b) (han : a + n ≤ w) (hbn : b + n ≤ w) :
    rows w z (transfer (w * d + a) (w * d + b) n m) =
      mapRange (transfer a b n) d 1 (rows w z m) := by
  funext r x
  unfold rows transfer mapRange
  by_cases hx : 0 ≤ x ∧ x < w
  · simp only [if_pos hx, row_mem_iff hx.1 hx.2 ha han]
    by_cases hr : r = d
    · subst hr
      rw [if_pos (show r ≤ r ∧ r < r + 1 by omega)]
      by_cases hin : a ≤ x ∧ x < a + n
      · rw [if_pos ⟨rfl, hin⟩, if_pos hin, if_pos (by omega)]
        congr 1
        omega
      · rw [if_neg (fun h => hin h.2), if_neg hin, if_pos hx]
    · rw [if_neg (fun h => hr h.1), if_neg (show ¬ (d ≤ r ∧ r < d + 1) by omega), if_pos hx]
  · rw [if_neg hx]
    by_cases hr : d ≤ r ∧ r < d + 1
    · simp only [if_pos hr, if_neg hx]
      exact (if_neg (by omega)).symm
    · simp only [if_neg hr, if_neg hx]

theorem rows_fill_row (ha : 0 ≤ a) (han : a + n ≤ w) :
    rows w z (fill z (w * d + a) n m) = mapRange (fill z a n) d 1 (rows w z m) := by
  funext r x
  unfold rows fill mapRange
  by_cases hx : 0 ≤ x ∧ x < w
  · simp only [if_pos hx, row_mem_iff hx.1 hx.2 ha han]
    by_cases hr : r = d
    · subst hr
      rw [if_pos (show r ≤ r ∧ r < r + 1 by omega)]
      by_cases hin : a ≤ x ∧ x < a + n
      · rw [if_pos ⟨rfl, hin⟩, if_pos hin]
      · rw [if_neg (fun h => hin h.2), if_neg hin, if_pos hx]
    · rw [if_neg (fun h => hr h.1), if_neg (show ¬ (d ≤ r ∧ r < d + 1) by omega), if_pos hx]
  · rw [if_neg hx]
    by_cases hr : d ≤ r ∧ r < d + 1
    · simp only [if_pos hr, if_neg hx, ite_self]
    · simp only [if_neg hr, if_neg hx]

/-! ### Windows -/

theorem mapRange_of_nonpos {f : α → α} (h : n ≤ 0) : mapRange f d n m = m := by
  funext p
  rw [mapRange, if_neg (by omega)]

theorem mapRange_mapRange {f : α → α} (ha : 0 ≤ a) (hb : 0 ≤ b) :
    mapRange f (d + a) b (mapRange f d a m) = mapRange f d (a + b) m := by
  funext p
  unfold mapRange
  split_ifs <;> first | rfl | omega

/-- The window of `h` rows that starts at row `off`, and `z` beside it. -/
def unroll (h off : ℤ) (z : α) (m : ℤ → α) (y : ℤ) : α :=
  if 0 ≤ y ∧ y < h then m ((y + off) % h) else z

variable {h off u t y : ℤ}

/-- The row `p` of the raster is the row `y` of the window. -/
def At (h off y p : ℤ) : Prop := 0 ≤ p ∧ p < h ∧ (p = y + off ∨ p = y + off - h)

theorem emod_of_at (hat : At h off y a) : (y + off) % h = a := by
  obtain ⟨h0, hlt, heq | heq⟩ := hat
  · rw [← heq, Int.emod_eq_of_lt h0 hlt]
  · rw [show y + off = a + h by omega, Int.add_emod_right, Int.emod_eq_of_lt h0 hlt]

theorem at_emod (h0 : 0 ≤ off) (hlt : off < h) (hy : 0 ≤ y) (hyh : y < h) :
    At h off y ((y + off) % h) := by
  by_cases hw : y + off < h
  · have hat : At h off y (y + off) := ⟨by omega, hw, .inl rfl⟩
    rwa [emod_of_at hat]
  · have hat : At h off y (y + off - h) := ⟨by omega, by omega, .inr rfl⟩
    rwa [emod_of_at hat]

theorem unroll_of_at (hy : 0 ≤ y) (hyh : y < h) (hat : At h off y a) :
    unroll h off z m y = m a := by
  rw [unroll, if_pos ⟨hy, hyh⟩, emod_of_at hat]

/-- Rows in one piece of the raster, moved onto rows in one piece. -/
theorem unroll_transfer (h0 : 0 ≤ off) (hlt : off < h) (hvd : 0 ≤ u) (hvdn : u + n ≤ h)
    (hvs : 0 ≤ t) (hvsn : t + n ≤ h) (hd : d = u + off ∨ d = u + off - h) (hd0 : 0 ≤ d)
    (hdn : d + n ≤ h) (hs : s = t + off ∨ s = t + off - h) (hs0 : 0 ≤ s) (hsn : s + n ≤ h) :
    unroll h off z (transfer d s n m) = transfer u t n (unroll h off z m) := by
  funext y
  by_cases hy : 0 ≤ y ∧ y < h
  · have hat := at_emod h0 hlt hy.1 hy.2
    rw [unroll_of_at hy.1 hy.2 hat]
    unfold transfer
    generalize (y + off) % h = p at hat
    obtain ⟨hp0, hph, hp⟩ := hat
    by_cases hin : u ≤ y ∧ y < u + n
    · rw [if_pos hin, if_pos (by omega)]
      exact (unroll_of_at (by omega) (by omega) ⟨by omega, by omega, by omega⟩).symm
    · rw [if_neg hin, if_neg (by omega)]
      exact (unroll_of_at hy.1 hy.2 ⟨hp0, hph, hp⟩).symm
  · rw [unroll, if_neg hy, transfer, if_neg (by omega), unroll, if_neg hy]

theorem unroll_mapRange {f : α → α} (h0 : 0 ≤ off) (hlt : off < h) (hvd : 0 ≤ u)
    (hvdn : u + n ≤ h) (hd : d = u + off ∨ d = u + off - h) (hd0 : 0 ≤ d) (hdn : d + n ≤ h) :
    unroll h off z (mapRange f d n m) = mapRange f u n (unroll h off z m) := by
  funext y
  by_cases hy : 0 ≤ y ∧ y < h
  · have hat := at_emod h0 hlt hy.1 hy.2
    rw [unroll_of_at hy.1 hy.2 hat]
    unfold mapRange
    rw [unroll_of_at hy.1 hy.2 hat]
    generalize (y + off) % h = p at hat
    obtain ⟨hp0, hph, hp⟩ := hat
    by_cases hin : u ≤ y ∧ y < u + n
    · rw [if_pos hin, if_pos (by omega)]
    · rw [if_neg hin, if_neg (by omega)]
  · rw [unroll, if_neg hy, mapRange, if_neg (by omega), unroll, if_neg hy]

/-- Rows in two pieces of the raster, down to its end and from its beginning on. -/
theorem unroll_mapRange_wrapped {f : α → α} (h0 : 0 ≤ off) (hlt : off < h) (hvd : 0 ≤ u)
    (hvdn : u + n ≤ h) (hd : d = u + off) (hdh : d < h) (hdn : h < d + n) :
    unroll h off z (mapRange f 0 (n - (h - d)) (mapRange f d (h - d) m)) =
      mapRange f u n (unroll h off z m) := by
  rw [unroll_mapRange h0 hlt (u := u + (h - d)) (by omega) (by omega) (by omega) (by omega)
    (by omega), unroll_mapRange h0 hlt hvd (by omega) (.inl hd) (by omega) (by omega),
    mapRange_mapRange (by omega) (by omega)]
  congr 1
  omega

/-- A window that starts `n` rows earlier shows each row `n` rows further down. -/
theorem unroll_earlier {off' : ℤ} {f : α → α} (hf : ∀ a b, f a = f b) (h0 : 0 ≤ off) (hlt : off < h)
    (hn : 0 ≤ n) (h0' : 0 ≤ off') (hlt' : off' < h)
    (hoff : off' = off - n ∨ off' = off - n + h) :
    mapRange f 0 n (unroll h off' z m) =
      mapRange f 0 n (transfer n 0 (h - n) (unroll h off z m)) := by
  funext y
  unfold mapRange
  split_ifs with hin
  · exact hf _ _
  · by_cases hy : 0 ≤ y ∧ y < h
    · have hat := at_emod h0' hlt' hy.1 hy.2
      rw [unroll_of_at hy.1 hy.2 hat, transfer, if_pos (by omega)]
      obtain ⟨hp0, hph, hp⟩ := hat
      exact (unroll_of_at (by omega) (by omega) ⟨hp0, hph, by omega⟩).symm
    · rw [unroll, if_neg hy, transfer, if_neg (by omega), unroll, if_neg hy]

/-- A window that starts `n` rows later shows each row `n` rows further up. -/
theorem unroll_later {off' : ℤ} {f : α → α} (hf : ∀ a b, f a = f b) (h0 : 0 ≤ off) (hlt : off < h)
    (hn : 0 ≤ n) (h0' : 0 ≤ off') (hlt' : off' < h)
    (hoff : off' = off + n ∨ off' = off + n - h) :
    mapRange f (h - n) n (unroll h off' z m) =
      mapRange f (h - n) n (transfer 0 n (h - n) (unroll h off z m)) := by
  funext y
  unfold mapRange
  split_ifs with hin
  · exact hf _ _
  · by_cases hy : 0 ≤ y ∧ y < h
    · have hat := at_emod h0' hlt' hy.1 hy.2
      rw [unroll_of_at hy.1 hy.2 hat, transfer, if_pos (by omega)]
      obtain ⟨hp0, hph, hp⟩ := hat
      exact (unroll_of_at (by omega) (by omega) ⟨hp0, hph, by omega⟩).symm
    · rw [unroll, if_neg hy, transfer, if_neg (by omega), unroll, if_neg hy]

end HydraAmix.Transfer
