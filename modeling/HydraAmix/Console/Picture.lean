import HydraAmix.Console.Bitplane

/-!
# The scrolled bitplane as a picture

What the console shows is a picture of `height` lines; line `y` is the line
`(y + offset) mod height` of the bitplane. Each drawing function is compared
with the plain operation on the picture, which reads everything before it
writes.

The memory is seen as rows of `width` bits, and the picture as a window of
`height` rows that starts at row `offset`. A loop over lines does to a range of
rows, in one piece or two, what the plain operation does to a range of lines.
-/
namespace HydraAmix.Console.Bitplane
open Transfer

/-- A picture, by line and column; beside it nothing is set. -/
abbrev Picture := ℤ → ℤ → Bool

namespace ConsoleState

variable (c : ConsoleState)

/-- Line `y` is the line `(y + offset) mod height` of the bitplane. -/
def picture : Picture :=
  unroll c.height c.offset (fun _ => false) (rows c.width false c.mem)

/-- The geometry of a console: unsigned shorts, a width in whole words, an
offset inside the bitplane, and a cell that fits. -/
structure Wf : Prop where
  width : 0 ≤ c.width ∧ c.width < 0x10000 ∧ c.width % 16 = 0
  height : c.height < 0x10000
  offset : 0 ≤ c.offset ∧ c.offset < c.height
  fHeight : 0 ≤ c.fHeight ∧ c.fHeight ≤ c.height

variable {c}

/-! ### Whole lines -/

theorem u32_of_range {x : ℤ} (h : 0 ≤ x) (hlt : x < 0x100000000) : u32 x = x :=
  Int.emod_eq_of_lt h hlt

theorem i32_of_range {x : ℤ} (h : -0x80000000 ≤ x) (hlt : x < 0x80000000) : i32 x = x := by
  unfold i32
  omega

theorem u32_mul {a b : ℤ} (ha : 0 ≤ a) (ha' : a < 0x10000) (hb : 0 ≤ b) (hb' : b < 0x10000) :
    u32 (a * b) = a * b := by
  refine u32_of_range (Int.mul_nonneg ha hb) ?_
  calc a * b ≤ 0xffff * 0xffff := Int.mul_le_mul (by omega) (by omega) hb (by omega)
    _ < 0x100000000 := by decide

/-- Lines are whole bytes. -/
theorem Wf.bytes (wf : c.Wf) (a : ℤ) : 8 * (a * c.width / 8) = c.width * a := by
  obtain ⟨k, hk⟩ := Int.dvd_of_emod_eq_zero wf.width.2.2
  have : a * c.width = 16 * (a * k) := by rw [hk]; ring
  rw [Int.mul_comm c.width, this]
  omega

theorem Wf.line_bytes (wf : c.Wf) (a : ℤ) : 8 * (a * (c.width / 8)) = c.width * a := by
  have hw : c.width = 8 * (c.width / 8) := by
    have := wf.width.2.2
    omega
  calc 8 * (a * (c.width / 8)) = 8 * (c.width / 8) * a := by ring
    _ = c.width * a := by rw [← hw]

theorem Wf.line_le (wf : c.Wf) {a b : ℤ} (h : a ≤ b) : a * (c.width / 8) ≤ b * (c.width / 8) :=
  Int.mul_le_mul_of_nonneg_right h (by have := wf.width.1; omega)

theorem Wf.moveu_lines (wf : c.Wf) {d s n : ℤ} (hn : 0 ≤ n) (h : d ≤ s ∨ s + n ≤ d)
    (m : Mem) : moveu (d * (c.width / 8)) (s * (c.width / 8)) (n * (c.width / 8)) m =
      transfer (c.width * d) (c.width * s) (c.width * n) m := by
  have hn' : 0 ≤ n * (c.width / 8) := by simpa using wf.line_le hn
  rw [moveu_eq hn', wf.line_bytes, wf.line_bytes, wf.line_bytes]
  rcases h with h | h
  · exact .inl (wf.line_le h)
  · exact .inr (by rw [← Int.add_mul]; exact wf.line_le h)

theorem Wf.moved_lines (wf : c.Wf) {bpl d s n : ℤ} (hn : 0 ≤ n) (h : s ≤ d ∨ d + n ≤ s)
    (m : Mem) : moved bpl (d * (c.width / 8)) (s * (c.width / 8)) (n * (c.width / 8)) m =
      transfer (c.width * d) (c.width * s) (c.width * n) m := by
  have hn' : 0 ≤ n * (c.width / 8) := by simpa using wf.line_le hn
  rw [moved_eq hn', wf.line_bytes, wf.line_bytes, wf.line_bytes]
  rcases h with h | h
  · exact .inl (wf.line_le h)
  · exact .inr (by rw [← Int.add_mul]; exact wf.line_le h)

/-- Nothing outside the bitplane changes. -/
def Outside (c : ConsoleState) (m m' : Mem) : Prop :=
  ∀ p, p < 0 ∨ c.width * c.height ≤ p → m' p = m p

theorem Outside.trans {m m' m'' : Mem} (h : c.Outside m m') (h' : c.Outside m' m'') :
    c.Outside m m'' := fun p hp => (h' p hp).trans (h p hp)

/-- The lines of a range inside the bitplane, as bits. -/
theorem Wf.range_inside (wf : c.Wf) {d n : ℤ} (hd : 0 ≤ d) (hdn : d + n ≤ c.height) :
    0 ≤ c.width * d ∧ c.width * d + c.width * n ≤ c.width * c.height := by
  refine ⟨Int.mul_nonneg wf.width.1 hd, ?_⟩
  rw [← Int.mul_add]
  exact Int.mul_le_mul_of_nonneg_left hdn wf.width.1

theorem Wf.transfer_outside (wf : c.Wf) {d n : ℤ} (hd : 0 ≤ d) (hdn : d + n ≤ c.height) (s : ℤ)
    (m : Mem) : c.Outside m (transfer (c.width * d) s (c.width * n) m) := by
  intro p hp
  have := wf.range_inside hd hdn
  rw [transfer, if_neg (by omega)]

theorem Wf.fill_outside (wf : c.Wf) {d n : ℤ} (hd : 0 ≤ d) (hdn : d + n ≤ c.height) (v : Bool)
    (m : Mem) : c.Outside m (fill v (c.width * d) (c.width * n) m) := by
  intro p hp
  have := wf.range_inside hd hdn
  rw [fill, if_neg (by omega)]

/-- What the window shows of a memory. -/
def shown (c : ConsoleState) (m : Mem) : Picture :=
  unroll c.height c.offset (fun _ => false) (rows c.width false m)

/-- The line `p`, before it is wrapped, is the window's line `y`. -/
def Before (c : ConsoleState) (y p : ℤ) : Prop :=
  0 ≤ p ∧ (p = y + c.offset ∨ p = y + c.offset - c.height)

/-- Lines are moved up from the first on: each round does the next of them. -/
theorem Wf.copyLoop_up (wf : c.Wf) {fuel : ℕ} {vd vs n dst src : ℤ} {m : Mem} (hfuel : n < fuel)
    (hn : 0 ≤ n) (hvd : 0 ≤ vd) (hlt : vd < vs) (hvs : vs + n ≤ c.height)
    (hd : c.Before vd dst) (hs : c.Before vs src) :
    ∃ m', c.copyLoop true fuel dst src n m = some m' ∧
      c.shown m' = transfer vd vs n (c.shown m) ∧ c.Outside m m' := by
  induction fuel generalizing vd vs n dst src m with
  | zero => omega
  | succ fuel ih =>
      unfold copyLoop
      by_cases h0 : n ≤ 0
      · rw [if_pos h0]
        exact ⟨m, rfl, (transfer_of_nonpos h0).symm, fun _ _ => rfl⟩
      · rw [if_neg h0]
        have hH := wf.height
        have hoff := wf.offset
        obtain ⟨hd0, hd⟩ := hd
        obtain ⟨hs0, hs⟩ := hs
        have hd' : 0 ≤ c.wrap dst ∧ c.wrap dst < c.height ∧ (c.wrap dst = vd + c.offset ∨
            c.wrap dst = vd + c.offset - c.height) := by
          unfold wrap
          split_ifs <;> omega
        have hs' : 0 ≤ c.wrap src ∧ c.wrap src < c.height ∧ (c.wrap src = vs + c.offset ∨
            c.wrap src = vs + c.offset - c.height) := by
          unfold wrap
          split_ifs <;> omega
        generalize c.wrap dst = d at hd'
        generalize c.wrap src = s at hs'
        simp only [if_true]
        rw [u32_of_range (x := c.height - max s d) (by omega) (by omega)]
        generalize htmp : (if n < c.height - max s d then n else c.height - max s d) = tmp
        have htmp' : 0 < tmp ∧ tmp ≤ n ∧ d + tmp ≤ c.height ∧ s + tmp ≤ c.height := by
          rw [← htmp]
          split_ifs <;> omega
        rw [u32_of_range (by omega) (by omega), u32_of_range (by omega) (by omega)]
        obtain ⟨m', hm', hshown, hout⟩ := @ih (vd + tmp) (vs + tmp) (n - tmp) (d + tmp) (s + tmp)
          (moveu (d * (c.width / 8)) (s * (c.width / 8)) (tmp * (c.width / 8)) m) (by omega)
          (by omega) (by omega) (by omega) (by omega) ⟨by omega, by omega⟩ ⟨by omega, by omega⟩
        rw [wf.moveu_lines (by omega) (by omega)] at hm' hshown hout
        rw [wf.moveu_lines (by omega) (by omega)]
        refine ⟨m', hm', ?_, (wf.transfer_outside hd'.1 htmp'.2.2.1 _ m).trans hout⟩
        rw [hshown, shown, rows_transfer, unroll_transfer hoff.1 hoff.2 hvd
          (by omega) (by omega) (by omega) hd'.2.2 hd'.1 htmp'.2.2.1 hs'.2.2 hs'.1 htmp'.2.2.2,
          transfer_above (by omega) (by omega) (by omega), show tmp + (n - tmp) = n by omega]
        rfl

theorem emod_once {a h : ℤ} (h0 : 0 ≤ a) (hlt : a < h) : a % h = a := Int.emod_eq_of_lt h0 hlt

theorem emod_twice {a h : ℤ} (h0 : h ≤ a) (hlt : a < 2 * h) : a % h = a - h := by
  rw [← Int.sub_emod_right, Int.emod_eq_of_lt (by omega) (by omega)]

/-- Lines are moved down from the last on: each round does the last of those
that are left, as many as lie beyond the end of the bitplane. -/
theorem Wf.copyLoop_down (wf : c.Wf) {fuel : ℕ} {vd vs n dst src : ℤ} {m : Mem}
    (hfuel : n < fuel) (hn : 0 ≤ n) (hvs : 0 ≤ vs) (hle : vs ≤ vd) (hvd : vd + n ≤ c.height)
    (hd : c.Before vd dst) (hs : c.Before vs src) :
    ∃ m', c.copyLoop false fuel dst src n m = some m' ∧
      c.shown m' = transfer vd vs n (c.shown m) ∧ c.Outside m m' := by
  induction fuel generalizing n dst src m with
  | zero => omega
  | succ fuel ih =>
      unfold copyLoop
      by_cases h0 : n ≤ 0
      · rw [if_pos h0]
        exact ⟨m, rfl, (transfer_of_nonpos h0).symm, fun _ _ => rfl⟩
      · rw [if_neg h0]
        have hH := wf.height
        have hoff := wf.offset
        obtain ⟨hd0, hd⟩ := hd
        obtain ⟨hs0, hs⟩ := hs
        have hd' : 0 ≤ c.wrap dst ∧ c.wrap dst < c.height ∧ (c.wrap dst = vd + c.offset ∨
            c.wrap dst = vd + c.offset - c.height) := by
          unfold wrap
          split_ifs <;> omega
        have hs' : 0 ≤ c.wrap src ∧ c.wrap src < c.height ∧ (c.wrap src = vs + c.offset ∨
            c.wrap src = vs + c.offset - c.height) := by
          unfold wrap
          split_ifs <;> omega
        generalize c.wrap dst = d at hd'
        generalize c.wrap src = s at hs'
        simp only [Bool.false_eq_true, if_false]
        rw [i32_of_range (x := s + n - c.height) (by omega) (by omega),
          i32_of_range (x := d + n - c.height) (by omega) (by omega)]
        generalize htmp : (if s + n - c.height < 1 then d + n - c.height else s + n - c.height) = t
        -- the section that is moved, wherever it ends
        have round : ∀ {p q k : ℤ}, 0 < k → k ≤ n → c.Before (vd + (n - k)) p →
            c.Before (vs + (n - k)) q → p + k ≤ c.height → q + k ≤ c.height → (q ≤ p ∨ p + k ≤ q) →
            ∃ m', c.copyLoop false fuel d s (n - k)
              (moved c.bpl (p * (c.width / 8)) (q * (c.width / 8)) (k * (c.width / 8)) m) =
                some m' ∧ c.shown m' = transfer vd vs n (c.shown m) ∧ c.Outside m m' := by
          intro p q k hk hkn hp hq hpk hqk hpq
          obtain ⟨hp0, hp⟩ := hp
          obtain ⟨hq0, hq⟩ := hq
          obtain ⟨m', hm', hshown, hout⟩ := @ih (n - k) d s
            (moved c.bpl (p * (c.width / 8)) (q * (c.width / 8)) (k * (c.width / 8)) m) (by omega)
            (by omega) (by omega) ⟨hd'.1, hd'.2.2⟩ ⟨hs'.1, hs'.2.2⟩
          rw [wf.moved_lines (by omega) hpq] at hm' hshown hout
          rw [wf.moved_lines (by omega) hpq]
          refine ⟨m', hm', ?_, (wf.transfer_outside hp0 hpk _ m).trans hout⟩
          rw [hshown, shown, rows_transfer, unroll_transfer hoff.1 hoff.2
            (u := vd + (n - k)) (t := vs + (n - k)) (by omega) (by omega) (by omega) (by omega)
            hp hp0 hpk hq hq0 hqk]
          have hlow := @transfer_below _ vd vs (n - k) k (c.shown m) (by omega) (by omega)
            (.inl hle)
          rw [Int.sub_add_cancel] at hlow
          exact hlow
        split_ifs with ht
        · rw [u32_of_range (x := n - t) (by omega) (by omega)]
          rw [u32_of_range (x := d + (n - t)) (by omega) (by omega),
            u32_of_range (x := s + (n - t)) (by omega) (by omega)]
          split_ifs at htmp with hsrc
          · -- the destination ends beyond the end of the bitplane, the source does not
            rw [show d + (n - t) = c.height by omega, Int.emod_self,
              emod_once (a := s + (n - t)) (by omega) (by omega)]
            exact round ht (by omega) ⟨by omega, by omega⟩ ⟨by omega, by omega⟩ (by omega)
              (by omega) (by omega)
          · -- the source does
            rw [show s + (n - t) = c.height by omega, Int.emod_self]
            by_cases hwrap : c.height ≤ d + (n - t)
            · rw [emod_twice hwrap (by omega)]
              exact round ht (by omega) ⟨by omega, by omega⟩ ⟨by omega, by omega⟩ (by omega)
                (by omega) (by omega)
            · rw [emod_once (a := d + (n - t)) (by omega) (by omega)]
              exact round ht (by omega) ⟨by omega, by omega⟩ ⟨by omega, by omega⟩ (by omega)
                (by omega) (by omega)
        · have hlast := @round d s n (by omega) (by omega) ⟨by omega, by omega⟩ ⟨by omega, by omega⟩
            (by split_ifs at htmp <;> omega) (by split_ifs at htmp <;> omega)
            (by split_ifs at htmp <;> omega)
          rwa [Int.sub_self] at hlast

theorem Wf.before (wf : c.Wf) {y : ℤ} (hy : 0 ≤ y) (hle : y ≤ c.height) :
    u32 (y + c.offset) = y + c.offset ∧ c.Before y (y + c.offset) := by
  have hH := wf.height
  have hoff := wf.offset
  exact ⟨u32_of_range (by omega) (by omega), by omega, .inl rfl⟩

theorem Wf.copyLines_eq (wf : c.Wf) {d s n : ℤ} (hn : 0 ≤ n) (hvd : 0 ≤ d) (hvs : 0 ≤ s)
    (hvdn : d + n ≤ c.height) (hvsn : s + n ≤ c.height) :
    ∃ m', c.copyLines d s n = some (c.withMem m') ∧
      c.shown m' = transfer d s n c.picture ∧ c.Outside c.mem m' := by
  obtain ⟨hu, hd⟩ := wf.before hvd (by omega)
  obtain ⟨hu', hs⟩ := wf.before hvs (by omega)
  have hfuel : n < ((n.toNat + 1 : ℕ) : ℤ) := by omega
  have hrun : ∃ m', c.copyLoop (decide (d < s)) (n.toNat + 1) (d + c.offset) (s + c.offset) n
      c.mem = some m' ∧ c.shown m' = transfer d s n c.picture ∧ c.Outside c.mem m' := by
    by_cases hlt : d < s
    · rw [decide_eq_true hlt]
      exact wf.copyLoop_up hfuel hn hvd hlt hvsn hd hs
    · rw [decide_eq_false hlt]
      exact wf.copyLoop_down hfuel hn hvs (by omega) hvdn hd hs
  obtain ⟨m', hm', hshown⟩ := hrun
  refine ⟨m', ?_, hshown⟩
  rw [copyLines, hu, hu', hm']
  rfl

/-- A cleared line. -/
def blank : (ℤ → Bool) → ℤ → Bool := fun _ _ => false

theorem Wf.clearLines_eq (wf : c.Wf) {l n : ℤ} (hline : 0 ≤ l) (hn : 0 ≤ n)
    (hle : l + n ≤ c.height) :
    ∃ m', c.clearLines l n = c.withMem m' ∧ c.shown m' = mapRange blank l n c.picture ∧
      c.Outside c.mem m' := by
  obtain ⟨hu, hp0, hp⟩ := wf.before hline (by omega)
  have hH := wf.height
  have hw := wf.width
  have hoff := wf.offset
  have hd : 0 ≤ c.wrap (l + c.offset) ∧ c.wrap (l + c.offset) < c.height ∧
      (c.wrap (l + c.offset) = l + c.offset ∨
        c.wrap (l + c.offset) = l + c.offset - c.height) := by
    unfold wrap
    split_ifs <;> omega
  unfold clearLines
  simp only [hu]
  generalize c.wrap (l + c.offset) = d at hd
  rw [u32_mul hd.1 (by omega) hw.1 hw.2.1, u32_mul hn (by omega) hw.1 hw.2.1,
    u32_of_range (x := d + n) (by omega) (by omega)]
  split_ifs with hwrap
  · refine ⟨_, rfl, ?_⟩
    rw [u32_mul (a := n - (c.height - d)) (by omega) (by omega) hw.1 hw.2.1,
      u32_mul (a := c.height - d) (by omega) (by omega) hw.1 hw.2.1]
    have hrows : rows c.width false (zero 0 ((n - (c.height - d)) * c.width / 8)
        (zero (d * c.width / 8) ((c.height - d) * c.width / 8) c.mem)) =
        mapRange blank 0 (n - (c.height - d)) (mapRange blank d (c.height - d)
          (rows c.width false c.mem)) := by
      unfold zero
      rw [wf.bytes, wf.bytes, wf.bytes, show (8 * 0 : ℤ) = c.width * 0 by ring, rows_fill,
        rows_fill]
      rfl
    constructor
    · rw [shown, hrows, unroll_mapRange_wrapped hoff.1 hoff.2 hline hle (by omega) hd.2.1 hwrap]
      rfl
    · unfold zero
      rw [wf.bytes, wf.bytes, wf.bytes, show (8 * 0 : ℤ) = c.width * 0 by ring]
      exact (wf.fill_outside hd.1 (by omega) false c.mem).trans
        (wf.fill_outside le_rfl (by omega) false _)
  · refine ⟨_, rfl, ?_⟩
    have hrows : rows c.width false (zero (d * c.width / 8) (n * c.width / 8) c.mem) =
        mapRange blank d n (rows c.width false c.mem) := by
      unfold zero
      rw [wf.bytes, wf.bytes, rows_fill]
      rfl
    constructor
    · rw [shown, hrows, unroll_mapRange hoff.1 hoff.2 hline hle hd.2.2 hd.1 (by omega)]
      rfl
    · unfold zero
      rw [wf.bytes, wf.bytes]
      exact wf.fill_outside hd.1 (by omega) false c.mem

/-! ### Parts of lines -/

/-- The operation on the line of a bitplane is `f` on that line's pixels. -/
def ActsAs (c : ConsoleState) (op : ℤ → Mem → Mem) (f : (ℤ → Bool) → ℤ → Bool) : Prop :=
  ∀ r to' m, 8 * to' = c.width * r →
    rows c.width false (op to' m) = mapRange f r 1 (rows c.width false m)

theorem Wf.lines_eq (wf : c.Wf) {op : ℤ → Mem → Mem} {f : (ℤ → Bool) → ℤ → Bool}
    (hop : c.ActsAs op f) (ln : ℕ) {r to' : ℤ} (hto : 8 * to' = c.width * r) (m : Mem) :
    rows c.width false (c.lines op ln to' m) = mapRange f r ln (rows c.width false m) := by
  induction ln generalizing r to' m with
  | zero => exact (mapRange_of_nonpos (by omega)).symm
  | succ ln ih =>
      have hnext : 8 * (to' + c.width / 8) = c.width * (r + 1) := by
        have := wf.width.2.2
        rw [Int.mul_add, Int.mul_add, hto]
        omega
      rw [lines, ih hnext, hop r to' m hto, mapRange_mapRange (by omega) (by omega)]
      congr 1
      omega

/-- The operation on a line changes nothing but that line. -/
def Stays (c : ConsoleState) (op : ℤ → Mem → Mem) : Prop :=
  ∀ to' m p, p < 8 * to' ∨ 8 * to' + c.width ≤ p → op to' m p = m p

theorem Wf.lines_stay (wf : c.Wf) {op : ℤ → Mem → Mem} (hop : c.Stays op) (ln : ℕ) {to' p : ℤ}
    (hp : p < 8 * to' ∨ 8 * to' + c.width * ln ≤ p) (m : Mem) : c.lines op ln to' m p = m p := by
  induction ln generalizing to' m with
  | zero => rfl
  | succ ln ih =>
      have hw := wf.width
      have hmul : c.width * ((ln + 1 : ℕ) : ℤ) = c.width * ln + c.width := by
        rw [Int.natCast_succ, Int.mul_add, Int.mul_one]
      have hpos : 0 ≤ c.width * (ln : ℤ) := Int.mul_nonneg hw.1 (Int.natCast_nonneg ln)
      rw [lines, ih (by omega), hop to' m p (by omega)]

theorem Wf.lines_outside (wf : c.Wf) {op : ℤ → Mem → Mem} (hop : c.Stays op) (ln : ℕ) {r to' : ℤ}
    (hr : 0 ≤ r) (hle : r + ln ≤ c.height) (hto : 8 * to' = c.width * r) (m : Mem) :
    c.Outside m (c.lines op ln to' m) := by
  intro p hp
  have := wf.range_inside hr hle
  exact wf.lines_stay hop ln (by omega) m

/-- A text row at line `row` of the picture, which starts at line `r` of the bitplane. -/
theorem Wf.textLines_eq (wf : c.Wf) {op : ℤ → Mem → Mem} {f : (ℤ → Bool) → ℤ → Bool}
    (hop : c.ActsAs op f) (hstay : c.Stays op) {row r to' : ℤ} (hrow : 0 ≤ row)
    (hle : row + c.fHeight ≤ c.height) (hr0 : 0 ≤ r) (hr : r < c.height)
    (hat : r = row + c.offset ∨ r = row + c.offset - c.height) (hto : 8 * to' = c.width * r) :
    ∃ m', c.textLines op to' r = c.withMem m' ∧
      c.shown m' = mapRange f row c.fHeight c.picture ∧ c.Outside c.mem m' := by
  have hoff := wf.offset
  have hh := wf.fHeight
  unfold textLines
  split_ifs with hwrap
  · refine ⟨_, rfl, ?_⟩
    have habove : (((c.height - r).toNat : ℕ) : ℤ) = c.height - r := by omega
    have hbelow : ((c.fHeight.toNat - (c.height - r).toNat : ℕ) : ℤ) =
        c.fHeight - (c.height - r) := by omega
    constructor
    · rw [shown, wf.lines_eq hop _ (r := 0) (by omega), wf.lines_eq hop _ hto, habove, hbelow,
        unroll_mapRange_wrapped hoff.1 hoff.2 hrow hle (by omega) hr hwrap]
      rfl
    · exact (wf.lines_outside hstay _ hr0 (by omega) hto c.mem).trans
        (wf.lines_outside hstay _ (r := 0) le_rfl (by omega) (by omega) _)
  · refine ⟨_, rfl, ?_⟩
    constructor
    · rw [shown, wf.lines_eq hop _ hto, Int.toNat_of_nonneg hh.1,
        unroll_mapRange hoff.1 hoff.2 hrow hle hat hr0 (by omega)]
      rfl
    · exact wf.lines_outside hstay _ hr0 (by omega) hto c.mem

theorem Wf.clearBits_acts (wf : c.Wf) {col len : ℤ} (hcol : 0 ≤ col) (hlen : 0 ≤ len)
    (hle : col + len ≤ c.width) :
    c.ActsAs (fun to' => clearBits to' col len) (fill false col len) := by
  intro r to' m hto
  have hw := wf.width
  change rows c.width false (clearBits to' col len m) = _
  rw [clearBits_eq hcol hlen (by omega), hto, rows_fill_row hcol hle]

theorem insertbits_acts {col n : ℤ} (hcol : 0 ≤ col) (hn : 0 ≤ n) (hle : col + n ≤ c.width) :
    c.ActsAs (fun to' => insertbits c.bpl to' (col + n) col (c.width - col - n))
      (transfer (col + n) col (c.width - col - n)) := by
  intro r to' m hto
  change rows c.width false (insertbits c.bpl to' (col + n) col (c.width - col - n) m) = _
  rw [insertbits_eq (by omega) (by omega), hto,
    rows_transfer_row (by omega) hcol (by omega) (by omega)]

theorem deletebits_acts {col n : ℤ} (hcol : 0 ≤ col) (hn : 0 ≤ n) (hle : col + n ≤ c.width) :
    c.ActsAs (fun to' => deletebits c.bpl to' col (col + n) (c.width - col - n))
      (transfer col (col + n) (c.width - col - n)) := by
  intro r to' m hto
  change rows c.width false (deletebits c.bpl to' col (col + n) (c.width - col - n) m) = _
  rw [deletebits_eq (by omega) (by omega), hto,
    rows_transfer_row hcol (by omega) (by omega) (by omega)]

theorem insertbits_stays {col n : ℤ} (hcol : 0 ≤ col) (hn : 0 ≤ n) (hle : col + n ≤ c.width) :
    c.Stays fun to' => insertbits c.bpl to' (col + n) col (c.width - col - n) := by
  intro to' m p hp
  change insertbits c.bpl to' (col + n) col (c.width - col - n) m p = m p
  rw [insertbits_eq (by omega) (by omega), transfer, if_neg (by omega)]

theorem deletebits_stays {col n : ℤ} (hcol : 0 ≤ col) (hn : 0 ≤ n) (hle : col + n ≤ c.width) :
    c.Stays fun to' => deletebits c.bpl to' col (col + n) (c.width - col - n) := by
  intro to' m p hp
  change deletebits c.bpl to' col (col + n) (c.width - col - n) m p = m p
  rw [deletebits_eq (by omega) (by omega), transfer, if_neg (by omega)]

theorem Wf.clearBits_stays (wf : c.Wf) {col len : ℤ} (hcol : 0 ≤ col) (hlen : 0 ≤ len)
    (hle : col + len ≤ c.width) : c.Stays fun to' => clearBits to' col len := by
  intro to' m p hp
  have hw := wf.width
  change clearBits to' col len m p = m p
  rw [clearBits_eq hcol hlen (by omega), fill, if_neg (by omega)]

/-- The line of the bitplane where a line of the picture is found. -/
theorem Wf.wrap_at (wf : c.Wf) {row : ℤ} (hrow : 0 ≤ row) (hle : row ≤ c.height) :
    0 ≤ c.wrap (row + c.offset) ∧ c.wrap (row + c.offset) < c.height ∧
      (c.wrap (row + c.offset) = row + c.offset ∨
        c.wrap (row + c.offset) = row + c.offset - c.height) := by
  have hoff := wf.offset
  unfold wrap
  split_ifs <;> omega

end ConsoleState

/-! ### The plain operations -/

inductive Op
  | copyLines (dst src n : ℤ)
  | insertLines (line n : ℤ)
  | deleteLines (line n : ℤ)
  | clearLines (line n : ℤ)
  | charClear (row col len : ℤ)
  | ichars (n : ℤ)
  | dchars (n : ℤ)

namespace ConsoleState

variable (c : ConsoleState)

def run : Op → Option ConsoleState
  | .copyLines dst src n => c.copyLines dst src n
  | .insertLines line n => c.insertLines line n
  | .deleteLines line n => c.deleteLines line n
  | .clearLines line n => some (c.clearLines line n)
  | .charClear row col len => some (c.charClear row col len)
  | .ichars n => some (c.ichars n)
  | .dchars n => some (c.dchars n)

/-- What the operation is for: lines, or the pixels of the lines of a text row,
are all read and then written to their new places, and the gap is cleared. -/
def plain (P : Picture) : Op → Picture
  | .copyLines dst src n => transfer dst src n P
  | .insertLines line n =>
      mapRange blank line n (transfer (line + n) line (c.height - line - n) P)
  | .deleteLines line n =>
      mapRange blank (c.height - n) n (transfer line (line + n) (c.height - n - line) P)
  | .clearLines line n => mapRange blank line n P
  | .charClear row col len => mapRange (fill false col len) row c.fHeight P
  | .ichars n => mapRange (transfer (c.col + n) c.col (c.width - c.col - n)) c.row c.fHeight P
  | .dchars n => mapRange (transfer c.col (c.col + n) (c.width - c.col - n)) c.row c.fHeight P

def InRange : Op → Prop
  | .copyLines dst src n => 0 ≤ dst ∧ 0 ≤ src ∧ 0 ≤ n ∧ dst + n ≤ c.height ∧ src + n ≤ c.height
  | .insertLines line n | .deleteLines line n | .clearLines line n =>
      0 ≤ line ∧ 0 ≤ n ∧ line + n ≤ c.height
  | .charClear row col len => 0 ≤ row ∧ row + c.fHeight ≤ c.height ∧ 0 ≤ col ∧ 0 ≤ len ∧
      col + len ≤ c.width
  | .ichars n | .dchars n => 0 ≤ c.row ∧ c.row + c.fHeight ≤ c.height ∧ 0 ≤ c.col ∧ 0 ≤ n ∧
      c.col + n ≤ c.width

/-- The operation ends, keeps the geometry, and does to the picture what the
plain operation does. -/
def Refines (op : Op) : Prop :=
  ∃ offset m, c.run op = some ((c.withOffset offset).withMem m) ∧
    0 ≤ offset ∧ offset < c.height ∧
    ((c.withOffset offset).withMem m).picture = c.plain c.picture op

/-- The numbers of the operation stay in their machine types: an unsigned short
for the new offset, an int for the first pixel of the text row. -/
def Fits : Op → Prop
  | .deleteLines line n =>
      line ≠ 0 ∨ c.width = 0 ∨ n = c.height ∨ c.offset + n < 0x10000
  | .ichars n | .dchars n => c.col + n = c.width ∨ n = 0 ∨ c.fHeight = 0 ∨
      c.wrap (c.row + c.offset) * c.width < 0x80000000
  | _ => True

/-- The operation ends, keeps the geometry and everything outside the bitplane,
and does to the picture what the plain operation does where the numbers fit. -/
def Effect (op : Op) : Prop :=
  ∃ offset m, c.run op = some ((c.withOffset offset).withMem m) ∧
    0 ≤ offset ∧ offset < c.height ∧ c.Outside c.mem m ∧
    (c.Fits op → ((c.withOffset offset).withMem m).picture = c.plain c.picture op)

variable {c}

theorem Wf.withMem (wf : c.Wf) (m : Mem) : (c.withMem m).Wf :=
  ⟨wf.width, wf.height, wf.offset, wf.fHeight⟩

theorem Wf.withOffset (wf : c.Wf) {o : ℤ} (h0 : 0 ≤ o) (hlt : o < c.height) :
    (c.withOffset o).Wf :=
  ⟨wf.width, wf.height, ⟨h0, hlt⟩, wf.fHeight⟩

theorem Wf.copyLines_effect (wf : c.Wf) {dst src n : ℤ} (hr : c.InRange (.copyLines dst src n)) :
    c.Effect (.copyLines dst src n) := by
  obtain ⟨hdst, hsrc, hn, hdn, hsn⟩ := hr
  obtain ⟨m, hm, hshown, hout⟩ := wf.copyLines_eq hn hdst hsrc hdn hsn
  exact ⟨c.offset, m, hm, wf.offset.1, wf.offset.2, hout, fun _ => hshown⟩

theorem Wf.clearLines_effect (wf : c.Wf) {line n : ℤ} (hr : c.InRange (.clearLines line n)) :
    c.Effect (.clearLines line n) := by
  obtain ⟨m, hm, hshown, hout⟩ := wf.clearLines_eq hr.1 hr.2.1 hr.2.2
  exact ⟨c.offset, m, congrArg some hm, wf.offset.1, wf.offset.2, hout, fun _ => hshown⟩

theorem Wf.insertLines_effect (wf : c.Wf) {line n : ℤ} (hr : c.InRange (.insertLines line n)) :
    c.Effect (.insertLines line n) := by
  obtain ⟨hline, hn, hle⟩ := hr
  have hH := wf.height
  have hoff := wf.offset
  by_cases h0 : line = 0
  · subst h0
    generalize hdef : (if c.offset < n then c.offset - n + c.height else c.offset - n) = off
    have hoff' : 0 ≤ off ∧ off < c.height ∧
        (off = c.offset - n ∨ off = c.offset - n + c.height) := by
      rw [← hdef]
      split_ifs <;> omega
    have hu : u16 off = off := Int.emod_eq_of_lt hoff'.1 (by omega)
    obtain ⟨m, hm, hshown, hout⟩ :=
      (wf.withOffset hoff'.1 hoff'.2.1).clearLines_eq (l := 0) (n := n)
      le_rfl hn hle
    refine ⟨off, m, ?_, hoff'.1, hoff'.2.1, hout, fun _ => ?_⟩
    · rw [run, insertLines, if_neg (not_not.mpr rfl), hdef, hu, Option.map_some, hm]
    · refine hshown.trans ?_
      change mapRange blank 0 n (unroll c.height off _ _) = mapRange blank 0 n _
      rw [unroll_earlier (fun _ _ => rfl) hoff.1 hoff.2 hn hoff'.1 hoff'.2.1 hoff'.2.2,
        Int.zero_add,
        Int.sub_zero]
      rfl
  · obtain ⟨m₁, hm₁, hshown₁, hout₁⟩ := wf.copyLines_eq (d := line + n) (s := line)
      (n := c.height - line - n) (by omega) (by omega) hline (by omega) (by omega)
    obtain ⟨m, hm, hshown, hout⟩ := (wf.withMem m₁).clearLines_eq hline hn hle
    refine ⟨c.offset, m, ?_, hoff.1, hoff.2, hout₁.trans hout, fun _ => ?_⟩
    · rw [run, insertLines, if_pos h0, u32_of_range (x := line + n) (by omega) (by omega),
        u32_of_range (x := c.height - line - n) (by omega) (by omega), hm₁, Option.map_some, hm]
      rfl
    · refine hshown.trans ?_
      change mapRange blank line n (c.shown m₁) = _
      rw [hshown₁]
      rfl

/-- The picture of a console without columns. -/
theorem rows_zero (m : Mem) : rows 0 false m = fun _ _ => false := by
  funext r x
  exact if_neg (by omega)

theorem Wf.deleteLines_effect (wf : c.Wf) {line n : ℤ} (hr : c.InRange (.deleteLines line n)) :
    c.Effect (.deleteLines line n) := by
  obtain ⟨hline, hn, hle⟩ := hr
  have hH := wf.height
  have hoff := wf.offset
  have hu : u32 (c.height - n) = c.height - n := u32_of_range (by omega) (by omega)
  by_cases h0 : line = 0
  · subst h0
    generalize hdef : (if c.height ≤ u16 (c.offset + n) then u16 (c.offset + n) - c.height
      else u16 (c.offset + n)) = off
    have hoff' : 0 ≤ off ∧ off < c.height ∧ (c.offset + n < 0x10000 →
        off = c.offset + n ∨ off = c.offset + n - c.height) := by
      rw [← hdef]
      unfold u16
      split_ifs <;> omega
    obtain ⟨m, hm, hshown, hout⟩ := (wf.withOffset hoff'.1 hoff'.2.1).clearLines_eq
      (l := c.height - n) (n := n) (by omega) hn (by change c.height - n + n ≤ c.height; omega)
    refine ⟨off, m, ?_, hoff'.1, hoff'.2.1, hout, fun hfit => ?_⟩
    · rw [run, deleteLines, if_neg (not_not.mpr rfl)]
      simp only [hdef, Option.map_some]
      change some ((c.withOffset off).clearLines (u32 (c.height - n)) n) = _
      rw [hu, hm]
    · refine hshown.trans ?_
      change mapRange blank (c.height - n) n (unroll c.height off _ (rows c.width false c.mem)) =
        mapRange blank (c.height - n) n (transfer 0 (0 + n) (c.height - n - 0)
          (unroll c.height c.offset _ (rows c.width false c.mem)))
      rw [Int.zero_add, Int.sub_zero]
      rcases hfit with h | hw | hn' | hfit
      · exact absurd rfl h
      · rw [hw, rows_zero]
        congr 1
        funext y x
        unfold unroll transfer
        simp only [ite_self]
      · subst hn'
        funext y x
        unfold mapRange transfer unroll
        split_ifs <;> first | rfl | omega
      · exact unroll_later (fun _ _ => rfl) hoff.1 hoff.2 hn hoff'.1 hoff'.2.1 (hoff'.2.2 hfit)
  · obtain ⟨m₁, hm₁, hshown₁, hout₁⟩ := wf.copyLines_eq (d := line) (s := line + n)
      (n := c.height - n - line) (by omega) hline (by omega) (by omega) (by omega)
    obtain ⟨m, hm, hshown, hout⟩ := (wf.withMem m₁).clearLines_eq (l := c.height - n) (n := n)
      (by omega) hn (by change c.height - n + n ≤ c.height; omega)
    refine ⟨c.offset, m, ?_, hoff.1, hoff.2, hout₁.trans hout, fun _ => ?_⟩
    · rw [run, deleteLines, if_pos h0, u32_of_range (x := line + n) (by omega) (by omega),
        u32_of_range (x := c.height - n - line) (by omega) (by omega), hm₁, Option.map_some]
      change some ((c.withMem m₁).clearLines (u32 (c.height - n)) n) = _
      rw [hu, hm]
      rfl
    · refine hshown.trans ?_
      change mapRange blank (c.height - n) n (c.shown m₁) = _
      rw [hshown₁]
      rfl

/-- An operation that leaves everything as it is changes no text row. -/
theorem lines_id {op : ℤ → Mem → Mem} (hop : ∀ to' m, op to' m = m) (ln : ℕ) (to' : ℤ) (m : Mem) :
    c.lines op ln to' m = m := by
  induction ln generalizing to' m with
  | zero => rfl
  | succ ln ih => rw [lines, ih, hop]

theorem textLines_id {op : ℤ → Mem → Mem} (hop : ∀ to' m, op to' m = m) (to' row : ℤ) :
    c.textLines op to' row = c.withMem c.mem := by
  unfold textLines
  simp only [lines_id hop, ite_self]

theorem Wf.charClear_effect (wf : c.Wf) {row col len : ℤ}
    (hr : c.InRange (.charClear row col len)) : c.Effect (.charClear row col len) := by
  obtain ⟨hrow, hle, hcol, hlen, hcl⟩ := hr
  have hH := wf.height
  have hw := wf.width
  have hh := wf.fHeight
  obtain ⟨hu, -⟩ := wf.before hrow (by omega)
  obtain ⟨hr0, hr, hat⟩ := wf.wrap_at hrow (by omega)
  have hto : 8 * (u32 (c.wrap (row + c.offset) * c.width) / 8) =
      c.width * c.wrap (row + c.offset) := by
    rw [u32_mul hr0 (by omega) hw.1 hw.2.1, wf.bytes]
  obtain ⟨m, hm, hshown, hout⟩ := wf.textLines_eq (wf.clearBits_acts hcol hlen hcl)
    (wf.clearBits_stays hcol hlen hcl) hrow hle hr0 hr hat hto
  refine ⟨c.offset, m, ?_, wf.offset.1, wf.offset.2, hout, fun _ => hshown⟩
  rw [run, charClear, hu, hm]
  rfl

/-- The address of a line that an int can count the pixels up to. -/
theorem Wf.rowAddress_eq (wf : c.Wf) {r : ℤ} (hr : 0 ≤ r) (hfit : r * c.width < 0x80000000) :
    8 * c.rowAddress r = c.width * r := by
  have h0 : 0 ≤ r * c.width := Int.mul_nonneg hr wf.width.1
  rw [rowAddress, i32_of_range (by omega) hfit, Int.tdiv_eq_ediv_of_nonneg h0, wf.bytes]

/-- What `ichars` and `dchars` have in common: a text row is shifted unless it
is empty, nothing is to be shifted, or it is shifted by nothing. -/
theorem Wf.shift_effect (wf : c.Wf) {op : ℤ → Mem → Mem} {f : (ℤ → Bool) → ℤ → Bool} {n : ℤ}
    (hop : c.ActsAs op f) (hstay : c.Stays op) (hid : n = 0 → ∀ to' m, op to' m = m)
    (hfid : n = 0 → ∀ l, f l = l)
    (hrow : 0 ≤ c.row) (hle : c.row + c.fHeight ≤ c.height)
    (hfit : n = 0 ∨ c.fHeight = 0 ∨ c.wrap (c.row + c.offset) * c.width < 0x80000000) :
    ∃ m, c.textLines op (c.rowAddress (c.wrap (c.row + c.offset))) (c.wrap (c.row + c.offset)) =
      c.withMem m ∧ c.shown m = mapRange f c.row c.fHeight c.picture ∧ c.Outside c.mem m := by
  have hh := wf.fHeight
  obtain ⟨hr0, hr, hat⟩ := wf.wrap_at hrow (by omega)
  rcases hfit with hn | hz | hfit
  · refine ⟨c.mem, textLines_id (hid hn) _ _, ?_, fun _ _ => rfl⟩
    funext y
    unfold mapRange
    split_ifs
    · exact (hfid hn _).symm
    · rfl
  · refine ⟨c.mem, ?_, (mapRange_of_nonpos (by omega)).symm, fun _ _ => rfl⟩
    unfold textLines
    rw [if_neg (by omega), hz]
    rfl
  · exact wf.textLines_eq hop hstay hrow hle hr0 hr hat (wf.rowAddress_eq hr0 hfit)

theorem Wf.ichars_effect (wf : c.Wf) {n : ℤ} (hr : c.InRange (.ichars n))
    (hfit : c.Fits (.ichars n)) : c.Effect (.ichars n) := by
  obtain ⟨hrow, hle, hcol, hn, hcn⟩ := hr
  by_cases hlt : c.col + n < c.width
  · obtain ⟨m, hm, hshown, hout⟩ := wf.shift_effect (n := n) (insertbits_acts hcol hn hcn)
      (insertbits_stays hcol hn hcn)
      (fun h0 to' m => by
        rw [h0, Int.add_zero]
        exact (insertbits_eq (by omega) le_rfl).trans transfer_self)
      (fun h0 l => by rw [h0, Int.add_zero, transfer_self]) hrow hle
      (hfit.resolve_left (by omega))
    refine ⟨c.offset, m, ?_, wf.offset.1, wf.offset.2, hout, fun _ => hshown⟩
    rw [run, ichars, if_pos hlt, hm]
    rfl
  · refine ⟨c.offset, c.mem, ?_, wf.offset.1, wf.offset.2, fun _ _ => rfl, fun _ => ?_⟩
    · rw [run, ichars, if_neg hlt]
      rfl
    · funext y
      change c.picture y = mapRange _ _ _ c.picture y
      unfold mapRange
      rw [transfer_of_nonpos (by omega), ite_self]

theorem Wf.dchars_effect (wf : c.Wf) {n : ℤ} (hr : c.InRange (.dchars n))
    (hfit : c.Fits (.dchars n)) : c.Effect (.dchars n) := by
  obtain ⟨hrow, hle, hcol, hn, hcn⟩ := hr
  by_cases hlt : c.col + n < c.width
  · obtain ⟨m, hm, hshown, hout⟩ := wf.shift_effect (n := n) (deletebits_acts hcol hn hcn)
      (deletebits_stays hcol hn hcn)
      (fun h0 to' m => by
        rw [h0, Int.add_zero]
        exact (deletebits_eq (by omega) le_rfl).trans transfer_self)
      (fun h0 l => by rw [h0, Int.add_zero, transfer_self]) hrow hle
      (hfit.resolve_left (by omega))
    refine ⟨c.offset, m, ?_, wf.offset.1, wf.offset.2, hout, fun _ => hshown⟩
    rw [run, dchars, if_pos hlt, hm]
    rfl
  · refine ⟨c.offset, c.mem, ?_, wf.offset.1, wf.offset.2, fun _ _ => rfl, fun _ => ?_⟩
    · rw [run, dchars, if_neg hlt]
      rfl
    · funext y
      change c.picture y = mapRange _ _ _ c.picture y
      unfold mapRange
      rw [transfer_of_nonpos (by omega), ite_self]

/-- Only `ichars` and `dchars` have to fit to stay inside the bitplane. -/
theorem Wf.effect (wf : c.Wf) {op : Op} (hr : c.InRange op)
    (hfit : (∀ n, op ≠ .ichars n) ∧ (∀ n, op ≠ .dchars n) ∨ c.Fits op) : c.Effect op := by
  cases op with
  | copyLines dst src n => exact wf.copyLines_effect hr
  | insertLines line n => exact wf.insertLines_effect hr
  | deleteLines line n => exact wf.deleteLines_effect hr
  | clearLines line n => exact wf.clearLines_effect hr
  | charClear row col len => exact wf.charClear_effect hr
  | ichars n => exact wf.ichars_effect hr (hfit.resolve_left fun h => h.1 n rfl)
  | dchars n => exact wf.dchars_effect hr (hfit.resolve_left fun h => h.2 n rfl)

theorem Wf.refines_of_fits (wf : c.Wf) {op : Op} (hr : c.InRange op) (hfit : c.Fits op) :
    c.Refines op := by
  obtain ⟨offset, m, hrun, h0, hlt, -, hpic⟩ := wf.effect hr (.inr hfit)
  exact ⟨offset, m, hrun, h0, hlt, hpic hfit⟩

/-! ### Where a number leaves its type -/

/-- The product that an int cannot hold comes out below zero, and the lines that
are shifted lie before the bitplane; the text row's first line is not reached. -/
theorem Wf.textLines_lost (wf : c.Wf) {op : ℤ → Mem → Mem} (hop : c.Stays op) {r x : ℤ}
    (hr0 : 0 ≤ r) (hr : r < c.height) (hbig : 0x80000000 ≤ r * c.width) (hx : 0 ≤ x) :
    ∃ m, c.textLines op (c.rowAddress r) r = c.withMem m ∧
      m (c.width * r + x) = c.mem (c.width * r + x) := by
  have hw := wf.width
  have hH := wf.height
  have hh := wf.fHeight
  have hplane : c.width * c.height < 0x100000000 := by
    calc c.width * c.height ≤ 0xffff * 0xffff :=
          Int.mul_le_mul (by omega) (by omega) (by omega) (by omega)
      _ < 0x100000000 := by decide
  have hstart : 0 ≤ c.width * r := Int.mul_nonneg hw.1 hr0
  have hle {a b : ℤ} (h : a ≤ b) : c.width * a ≤ c.width * b := Int.mul_le_mul_of_nonneg_left h hw.1
  have hbelow : c.width * r < 0x100000000 := Int.lt_of_le_of_lt (hle hr.le) hplane
  have hto : 8 * c.rowAddress r = c.width * r - 0x100000000 := by
    have hi : i32 (r * c.width) = c.width * r - 0x100000000 := by
      rw [Int.mul_comm] at hbig ⊢
      unfold i32
      omega
    have hdvd : (8 : ℤ) ∣ c.width * r - 0x100000000 := by
      have := wf.bytes r
      omega
    rw [rowAddress, hi, Int.tdiv_eq_ediv_of_dvd hdvd, Int.mul_ediv_cancel' hdvd]
  unfold textLines
  split_ifs with hwrap
  · refine ⟨_, rfl, ?_⟩
    have habove : (((c.height - r).toNat : ℕ) : ℤ) = c.height - r := by omega
    have hrest : ((c.fHeight.toNat - (c.height - r).toNat : ℕ) : ℤ) =
        c.fHeight - (c.height - r) := by
      omega
    have h1 : c.width * (c.height - r) = c.width * c.height - c.width * r := Int.mul_sub ..
    have h2 : c.width * (c.fHeight - (c.height - r)) ≤ c.width * r := hle (by omega)
    rw [wf.lines_stay hop _ (by rw [hrest]; omega), wf.lines_stay hop _ (by rw [habove]; omega)]
  · refine ⟨_, rfl, ?_⟩
    have h1 : c.width * c.fHeight ≤ c.width * (c.height - r) := hle (by omega)
    have h2 : c.width * (c.height - r) = c.width * c.height - c.width * r := Int.mul_sub ..
    rw [wf.lines_stay hop _ (by rw [Int.toNat_of_nonneg hh.1]; omega)]

/-- The memory in which one bit is set. -/
def oneBit (p : ℤ) : Mem := fun a => decide (a = p)

/-- What a pixel of the picture is. -/
theorem shown_of_at (m : Mem) {y r x : ℤ} (hy : 0 ≤ y) (hyh : y < c.height)
    (hat : At c.height c.offset y r) (hx : 0 ≤ x) (hxw : x < c.width) :
    c.shown m y x = m (c.width * r + x) := by
  rw [shown, unroll_of_at hy hyh hat, rows, if_pos ⟨hx, hxw⟩]

/-- Two columns of the first line of a text row tell that it was not shifted. -/
theorem Wf.shift_lost (wf : c.Wf) {op : ℤ → Mem → Mem} (hop : c.Stays op) {a b k : ℤ}
    (hrow : 0 ≤ c.row) (hle : c.row + c.fHeight ≤ c.height) (hh : 0 < c.fHeight)
    (hbig : 0x80000000 ≤ c.wrap (c.row + c.offset) * c.width) (ha : 0 ≤ a) (hak : a < a + k)
    (han : a + k ≤ c.width) (hb : 0 ≤ b) (hbk : b + k ≤ c.width) (hab : a ≠ b) :
    ∃ m m', (c.withMem m).textLines op ((c.withMem m).rowAddress (c.wrap (c.row + c.offset)))
      (c.wrap (c.row + c.offset)) = (c.withMem m).withMem m' ∧
      c.shown m' ≠ mapRange (transfer a b k) c.row c.fHeight (c.shown m) := by
  obtain ⟨hr0, hr, hat⟩ := wf.wrap_at hrow (by omega)
  generalize c.wrap (c.row + c.offset) = r at hr0 hr hat hbig
  have hline : At c.height c.offset c.row r := ⟨hr0, hr, hat⟩
  obtain ⟨m', hm', hsame⟩ := @Wf.textLines_lost _ (wf.withMem (oneBit (c.width * r + b))) op hop r a
    hr0 hr hbig ha
  refine ⟨oneBit (c.width * r + b), m', hm', fun heq => ?_⟩
  have hpixel := congrFun (congrFun heq c.row) a
  rw [shown_of_at m' hrow (by omega) hline ha (by omega), mapRange, if_pos (by omega), transfer,
    if_pos (by omega), Int.sub_self, Int.add_zero,
    shown_of_at _ hrow (by omega) hline hb (by omega)] at hpixel
  have hleft : m' (c.width * r + a) = false :=
    hsame.trans (decide_eq_false (fun h => hab (Int.add_left_cancel h)))
  rw [hleft, oneBit, decide_eq_true rfl] at hpixel
  cases hpixel

theorem refines_unique {op : Op} {d : ConsoleState} (h : c.Refines op) (hd : c.run op = some d) :
    d.picture = c.plain c.picture op := by
  obtain ⟨offset, m, hrun, -, -, hpic⟩ := h
  rw [hd] at hrun
  rw [Option.some.inj hrun]
  exact hpic

/-- An offset that left the unsigned short points to another line. -/
theorem Wf.deleteLines_lost (wf : c.Wf) {n : ℤ} (hn : 0 ≤ n) (hle : n < c.height)
    (hw : 0 < c.width) (hbig : 0x10000 ≤ c.offset + n) :
    ¬ ∀ m, (c.withMem m).Refines (.deleteLines 0 n) := by
  intro h
  have hH := wf.height
  have hoff := wf.offset
  have hu : u16 (c.offset + n) = c.offset + n - 0x10000 := by
    unfold u16
    omega
  have hu32 : u32 (c.height - n) = c.height - n := u32_of_range (by omega) (by omega)
  generalize hdef : c.offset + n - 0x10000 = off at hu
  generalize hr : c.offset + n - c.height = r
  obtain ⟨m, hm, hshown, -⟩ := ((wf.withMem (oneBit (c.width * r))).withOffset (o := off)
    (by omega) (by change off < c.height; omega)).clearLines_eq (l := c.height - n) (n := n)
      (by omega) hn (by change c.height - n + n ≤ c.height; omega)
  have hrun : (c.withMem (oneBit (c.width * r))).run (.deleteLines 0 n) =
      some ((((c.withMem (oneBit (c.width * r))).withOffset off)).withMem m) := by
    rw [run, deleteLines, if_neg (not_not.mpr rfl)]
    change some ((((c.withMem (oneBit (c.width * r))).withOffset
      (if c.height ≤ u16 (c.offset + n) then u16 (c.offset + n) - c.height
        else u16 (c.offset + n)))).clearLines (u32 (c.height - n)) n) = _
    rw [hu, if_neg (by omega), hu32, hm]
  have hpixel := congrFun (congrFun (hshown.symm.trans (refines_unique (h _) hrun)) 0) 0
  have hleft : mapRange blank (c.height - n) n
      ((c.withMem (oneBit (c.width * r))).withOffset off).picture 0 0 = false := by
    rw [mapRange, if_neg (by omega)]
    refine (shown_of_at (c := (c.withMem (oneBit (c.width * r))).withOffset off) _ le_rfl ?_
      (r := off) ⟨?_, ?_, .inl ?_⟩ le_rfl hw).trans ?_
    · change 0 < c.height
      omega
    · omega
    · change off < c.height
      omega
    · change off = 0 + off
      omega
    · refine decide_eq_false fun heq => ?_
      change c.width * off + 0 = c.width * r at heq
      have := Int.eq_of_mul_eq_mul_left (by omega) ((Int.add_zero _).symm.trans heq)
      omega
  have hright : (c.withMem (oneBit (c.width * r))).plain
      (c.withMem (oneBit (c.width * r))).picture (.deleteLines 0 n) 0 0 = true := by
    change mapRange blank (c.height - n) n (transfer 0 (0 + n) (c.height - n - 0)
      (c.shown (oneBit (c.width * r)))) 0 0 = true
    rw [mapRange, if_neg (by omega), transfer, if_pos (by omega),
      shown_of_at (r := r) _ (by omega) (by omega) ⟨by omega, by omega, by omega⟩ le_rfl hw]
    exact decide_eq_true (Int.add_zero _)
  rw [hleft, hright] at hpixel
  cases hpixel

theorem Wf.ichars_lost (wf : c.Wf) {n : ℤ} (hr : c.InRange (.ichars n))
    (hfit : ¬ c.Fits (.ichars n)) : ¬ ∀ m, (c.withMem m).Refines (.ichars n) := by
  intro h
  obtain ⟨hrow, hle, hcol, hn, hcn⟩ := hr
  have hh := wf.fHeight
  obtain ⟨hne, hn0, hh0, hbig⟩ : c.col + n ≠ c.width ∧ n ≠ 0 ∧ c.fHeight ≠ 0 ∧
      ¬ c.wrap (c.row + c.offset) * c.width < 0x80000000 := by
    simpa only [Fits, not_or] using hfit
  obtain ⟨m, m', hm', hpic⟩ := wf.shift_lost (insertbits_stays hcol hn hcn) (a := c.col + n)
    (b := c.col) (k := c.width - c.col - n) hrow hle (by omega) (by omega) (by omega) (by omega)
    (by omega) hcol (by omega) (by omega)
  have hrun : (c.withMem m).run (.ichars n) = some ((c.withMem m).withMem m') := by
    exact congrArg some ((if_pos (show c.col + n < c.width by omega)).trans hm')
  exact hpic (refines_unique (h m) hrun)

theorem Wf.dchars_lost (wf : c.Wf) {n : ℤ} (hr : c.InRange (.dchars n))
    (hfit : ¬ c.Fits (.dchars n)) : ¬ ∀ m, (c.withMem m).Refines (.dchars n) := by
  intro h
  obtain ⟨hrow, hle, hcol, hn, hcn⟩ := hr
  have hh := wf.fHeight
  obtain ⟨hne, hn0, hh0, hbig⟩ : c.col + n ≠ c.width ∧ n ≠ 0 ∧ c.fHeight ≠ 0 ∧
      ¬ c.wrap (c.row + c.offset) * c.width < 0x80000000 := by
    simpa only [Fits, not_or] using hfit
  obtain ⟨m, m', hm', hpic⟩ := wf.shift_lost (deletebits_stays hcol hn hcn) (a := c.col)
    (b := c.col + n) (k := c.width - c.col - n) hrow hle (by omega) (by omega) hcol (by omega)
    (by omega) (by omega) (by omega) (by omega)
  have hrun : (c.withMem m).run (.dchars n) = some ((c.withMem m).withMem m') := by
    exact congrArg some ((if_pos (show c.col + n < c.width by omega)).trans hm')
  exact hpic (refines_unique (h m) hrun)

/-- The scrolled console is the plain picture, whatever it shows, for exactly the
operations whose numbers fit. -/
theorem picture_refined_iff (wf : c.Wf) {op : Op} (hr : c.InRange op) :
    (∀ m, (c.withMem m).Refines op) ↔ c.Fits op := by
  constructor
  · intro h
    by_contra hfit
    cases op with
    | deleteLines line n =>
        obtain ⟨hline, hw, hn, hbig⟩ : ¬ line ≠ 0 ∧ c.width ≠ 0 ∧ n ≠ c.height ∧
            ¬ c.offset + n < 0x10000 := by
          simpa only [Fits, not_or] using hfit
        obtain rfl := not_not.mp hline
        obtain ⟨-, hn0, hle⟩ := hr
        have hwidth := wf.width
        exact wf.deleteLines_lost hn0 (by omega) (by omega) (by omega) h
    | ichars n => exact wf.ichars_lost hr hfit h
    | dchars n => exact wf.dchars_lost hr hfit h
    | _ => exact hfit trivial
  · intro hfit m
    exact (wf.withMem m).refines_of_fits (by cases op <;> exact hr) (by cases op <;> exact hfit)

/-- A text row of a scrolled console that goes round the end of the bitplane. -/
def scrolled (height offset row col : ℤ) : ConsoleState :=
  ⟨320, height, offset, 8, row, col, 0, fun _ => true⟩

theorem scrolled_wf {height offset row col : ℤ} (hh : 8 ≤ height) (hh' : height < 0x10000)
    (h0 : 0 ≤ offset) (hlt : offset < height) : (scrolled height offset row col).Wf :=
  ⟨show 0 ≤ (320 : ℤ) ∧ (320 : ℤ) < 0x10000 ∧ (320 : ℤ) % 16 = 0 by decide, hh', ⟨h0, hlt⟩,
    show 0 ≤ (8 : ℤ) by decide, hh⟩

theorem picture_refined_row :
    (∀ m, ((scrolled 24 12 8 2).withMem m).Refines (.ichars 8)) ↔
      (scrolled 24 12 8 2).Fits (.ichars 8) :=
  picture_refined_iff (scrolled_wf (by decide) (by decide) (by decide) (by decide))
    (by unfold InRange; decide)

/-- A bitplane of 40000 lines, scrolled to line 30000, loses 39000 lines. -/
theorem picture_refined_fails :
    ¬ ∀ (c : ConsoleState) (op : Op), c.Wf → c.InRange op → c.Refines op := by
  intro h
  have wf : (scrolled 40000 30000 0 0).Wf :=
    scrolled_wf (by decide) (by decide) (by decide) (by decide)
  refine wf.deleteLines_lost (n := 39000) (by decide) (by decide) (by decide) (by decide) ?_
  exact fun m => h _ _ (wf.withMem m) ⟨le_rfl, by decide, show 0 + 39000 ≤ (40000 : ℤ) by decide⟩

end ConsoleState

end HydraAmix.Console.Bitplane
