import HydraAmix.Console.Emulator

/-!
# Where console output stays confined

The cursor is two shorts, and the sequences that move it add products of a
number and the cell size to them, or pass such products on as counts. Each step
is paired with what has to fit: the sum that is stored in a short, a count that
is not negative, and for CSI @ and P a cursor inside the bitmap. A run in which
all of this fits keeps the cursor on the screen, draws inside the bitmap, and
changes no byte outside the bitplane.
-/
namespace HydraAmix.Console.Emulator
open Bitplane Bitplane.ConsoleState Schedule Transfer

/-- A bitmap in whole words, and two fonts with the same cell, which fits. -/
structure Cells (t : Terminal) : Prop where
  width : 0 < t.width ∧ t.width < 0x10000 ∧ t.width % 16 = 0
  height : t.height < 0x10000
  fHeight : 0 < t.fHeight ∧ t.fHeight ≤ t.height ∧ t.fHeight < 0x100
  fWidth : 0 < t.fWidth ∧ t.fWidth ≤ t.width ∧ t.fWidth < 0x100
  fHeight1 : t.fHeight1 = t.fHeight
  ceMove : ∀ b c, t.ceMove b c = t.fWidth

/-- The bitmap and the fonts of `t` are those of `t₀`. -/
structure Same (t₀ t : Terminal) : Prop where
  width : t.width = t₀.width
  height : t.height = t₀.height
  fHeight : t.fHeight = t₀.fHeight
  fWidth : t.fWidth = t₀.fWidth
  fHeight1 : t.fHeight1 = t₀.fHeight1
  ceMove : t.ceMove = t₀.ceMove

/-- Since `t₀` the offset stayed inside the bitplane, every character was drawn
inside the bitmap, and nothing outside the bitplane changed. -/
structure Kept (t₀ t : Terminal) : Prop where
  same : Same t₀ t
  offset : 0 ≤ t.offset ∧ t.offset < t.height
  drawn : ∀ d ∈ t.drawn, 0 ≤ d.1 ∧ d.1 ≤ t₀.width - t₀.fWidth
  outside : ∀ p, p < 0 ∨ t₀.width * t₀.height ≤ p → t.mem p = t₀.mem p

/-- The output was confined, and the cursor is on the screen. -/
structure Confined (t₀ t : Terminal) : Prop extends Kept t₀ t where
  row : 0 ≤ t.row ∧ t.row ≤ t₀.height - t₀.fHeight ∧ t.row ≤ 0x7fff
  col : 0 ≤ t.col ∧ t.col ≤ 0x7fff

variable {t₀ t : Terminal}

theorem Same.cells (h : Same t₀ t) (hc : Cells t₀) : Cells t where
  width := by rw [h.width]; exact hc.width
  height := by rw [h.height]; exact hc.height
  fHeight := by rw [h.fHeight, h.height]; exact hc.fHeight
  fWidth := by rw [h.fWidth, h.width]; exact hc.fWidth
  fHeight1 := by rw [h.fHeight1, h.fHeight]; exact hc.fHeight1
  ceMove := by rw [h.ceMove, h.fWidth]; exact hc.ceMove

/-- Nothing but the cursor, the emulator's state or the font has changed. -/
theorem Kept.of_eq {t' : Terminal} (h : Kept t₀ t) (hs : Same t t') (ho : t'.offset = t.offset)
    (hd : t'.drawn = t.drawn) (hm : t'.mem = t.mem) : Kept t₀ t' where
  same := ⟨hs.1.trans h.same.1, hs.2.trans h.same.2, hs.3.trans h.same.3, hs.4.trans h.same.4,
    hs.5.trans h.same.5, hs.6.trans h.same.6⟩
  offset := by rw [ho, hs.height]; exact h.offset
  drawn := by rw [hd]; exact h.drawn
  outside := by rw [hm]; exact h.outside

namespace Kept

theorem wf (h : Kept t₀ t) (hc : Cells t₀) : t.Wf := by
  have hc := h.same.cells hc
  have hw := hc.width
  have hh := hc.fHeight
  exact ⟨⟨by omega, hw.2.1, hw.2.2⟩, hc.height, h.offset, ⟨by omega, hh.2.1⟩⟩

theorem setRow (h : Kept t₀ t) (r : ℤ) : Kept t₀ (t.setRow r) :=
  h.of_eq ⟨rfl, rfl, rfl, rfl, rfl, rfl⟩ rfl rfl rfl

theorem setCol (h : Kept t₀ t) (x : ℤ) : Kept t₀ (t.setCol x) :=
  h.of_eq ⟨rfl, rfl, rfl, rfl, rfl, rfl⟩ rfl rfl rfl

theorem setState (h : Kept t₀ t) (n : ℕ) : Kept t₀ (t.setState n) :=
  h.of_eq ⟨rfl, rfl, rfl, rfl, rfl, rfl⟩ rfl rfl rfl

theorem setArgs (h : Kept t₀ t) (argc curarg : ℕ) (args : ℕ → ℤ) :
    Kept t₀ (t.setArgs argc curarg args) :=
  h.of_eq ⟨rfl, rfl, rfl, rfl, rfl, rfl⟩ rfl rfl rfl

theorem setFont1 (h : Kept t₀ t) (b : Bool) : Kept t₀ (t.setFont1 b) :=
  h.of_eq ⟨rfl, rfl, rfl, rfl, rfl, rfl⟩ rfl rfl rfl

theorem draw (h : Kept t₀ t) (h0 : 0 ≤ t.col) (hcol : t.col ≤ t₀.width - t₀.fWidth) :
    Kept t₀ t.draw where
  same := ⟨h.same.1, h.same.2, h.same.3, h.same.4, h.same.5, h.same.6⟩
  offset := h.offset
  drawn d hd := by
    rcases List.mem_cons.mp hd with rfl | hd
    · exact ⟨h0, hcol⟩
    · exact h.drawn d hd
  outside := h.outside

/-- A drawing operation on ranges inside the picture leaves the cursor alone. -/
theorem run (h : Kept t₀ t) (hc : Cells t₀) {o : Op} (hr : t.InRange o)
    (hfit : (∀ n, o ≠ .ichars n) ∧ (∀ n, o ≠ .dchars n) ∨ t.Fits o) :
    ∃ c, t.run o = some c ∧ Kept t₀ (t.withCon c) ∧ c.row = t.row ∧ c.col = t.col := by
  obtain ⟨offset, m, hrun, h0, hlt, hout, -⟩ := (h.wf hc).effect hr hfit
  refine ⟨_, hrun,
    ⟨⟨h.same.1, h.same.2, h.same.3, h.same.4, h.same.5, h.same.6⟩, ⟨h0, hlt⟩, h.drawn,
    fun p hp => ?_⟩, rfl, rfl⟩
  rw [← h.same.width, ← h.same.height] at hp
  refine (hout p hp).trans (h.outside p ?_)
  rwa [← h.same.width, ← h.same.height]

theorem clearLines (h : Kept t₀ t) (hc : Cells t₀) {l n : ℤ} (hl : 0 ≤ l) (hn : 0 ≤ n)
    (hle : l + n ≤ t.height) :
    Kept t₀ (t.withCon (t.clearLines (u32 l) (u32 n))) ∧
      (t.clearLines (u32 l) (u32 n)).row = t.row ∧ (t.clearLines (u32 l) (u32 n)).col = t.col := by
  have hH := (h.wf hc).height
  rw [u32_of_range hl (by omega), u32_of_range hn (by omega)]
  obtain ⟨c, hrun, hk⟩ := h.run hc (o := .clearLines l n) ⟨hl, hn, hle⟩
    (.inl ⟨fun _ => nofun, fun _ => nofun⟩)
  cases hrun
  exact hk

theorem charClear (h : Kept t₀ t) (hc : Cells t₀) {r x n : ℤ} (hr : 0 ≤ r)
    (hle : r + t.fHeight ≤ t.height) (hx : 0 ≤ x) (hn : 0 ≤ n) (hxn : x + n ≤ t.width) :
    Kept t₀ (t.withCon (t.charClear (u32 r) (u32 x) (u32 n))) ∧
      (t.charClear (u32 r) (u32 x) (u32 n)).row = t.row ∧
      (t.charClear (u32 r) (u32 x) (u32 n)).col = t.col := by
  have wf := h.wf hc
  have hH := wf.height
  have hw := wf.width
  have hh := wf.fHeight
  rw [u32_of_range hr (by omega), u32_of_range hx (by omega), u32_of_range hn (by omega)]
  obtain ⟨c, hrun, hk⟩ := h.run hc (o := .charClear r x n) ⟨hr, hle, hx, hn, hxn⟩
    (.inl ⟨fun _ => nofun, fun _ => nofun⟩)
  cases hrun
  exact hk

/-- The picture goes up by a text line, and the cursor with it. -/
theorem scroll (h : Kept t₀ t) (hc : Cells t₀) :
    ∃ t', t.scroll t.fHeight = some t' ∧ Kept t₀ t' ∧ t'.row = i16 (t.row - t.fHeight) ∧
      t'.col = t.col := by
  have wf := h.wf hc
  have hH := wf.height
  have hh := wf.fHeight
  obtain ⟨c, hrun, hk, hrow, hcol⟩ := h.run hc (o := .deleteLines 0 t.fHeight)
    ⟨le_rfl, hh.1, by omega⟩ (.inl ⟨fun _ => nofun, fun _ => nofun⟩)
  have hrun' : t.deleteLines 0 (u32 t.fHeight) = some c := by
    rw [u32_of_range hh.1 (by omega)]
    exact hrun
  refine ⟨_, ?_, hk.setRow (i16 (c.row - t.fHeight)), ?_, hcol⟩
  · rw [Terminal.scroll, Terminal.drawing, hrun']
    rfl
  · change i16 (c.row - t.fHeight) = _
    rw [hrow]

end Kept

/-! ### Text -/

theorem i16_of_range {x : ℤ} (h : -0x8000 ≤ x) (hlt : x ≤ 0x7fff) : i16 x = x := by
  unfold i16
  omega

theorem i16_range (x : ℤ) : -0x8000 ≤ i16 x ∧ i16 x ≤ 0x7fff := by
  unfold i16
  omega

/-- What a byte of plain text has to fit: the sum that moves the cursor. -/
def FitsGround (t : Terminal) (c : BitVec 8) : Prop :=
  match c.toNat with
  | 0x07 => True
  | 0x08 => t.fWidth ≤ t.col ∨ t.row < t.fHeight ∨ t.width - t.fWidth ≤ 0x7fff
  | 0x09 => t.col + t.fWidth * (8 - t.col.tdiv t.fWidth % 8) ≤ 0x7fff
  | 0x0a | 0x0b | 0x0c => t.row + t.fHeight ≤ 0x7fff
  | 0x0d | 0x0e | 0x0f | 0x1b | 0x9b => True
  | _ => c &&& 0x60#8 ≠ 0 →
      if t.width - t.fWidth < t.col then t.row + t.fHeight ≤ 0x7fff else t.col + t.fWidth ≤ 0x7fff

theorem Kept.rowAt (h : Kept t₀ t) {r : ℤ} (h0 : 0 ≤ r) (hle : r ≤ t₀.height - t₀.fHeight)
    (hs : r ≤ 0x7fff) (hcol : 0 ≤ t.col ∧ t.col ≤ 0x7fff) : Confined t₀ (t.setRow r) :=
  ⟨h.setRow r, ⟨h0, hle, hs⟩, hcol⟩

namespace Confined

theorem rowAt (h : Confined t₀ t) {r : ℤ} (h0 : 0 ≤ r) (hle : r ≤ t₀.height - t₀.fHeight)
    (hs : r ≤ 0x7fff) : Confined t₀ (t.setRow r) := h.toKept.rowAt h0 hle hs h.col

theorem colAt (h : Confined t₀ t) {x : ℤ} (h0 : 0 ≤ x) (hs : x ≤ 0x7fff) :
    Confined t₀ (t.setCol x) := ⟨h.setCol x, h.row, ⟨h0, hs⟩⟩

theorem lineFeed (h : Confined t₀ t) (hc : Cells t₀) (hfit : t.row + t.fHeight ≤ 0x7fff) :
    ∃ t', t.lineFeed = some t' ∧ Confined t₀ t' := by
  have hs := h.same
  have hh := (hs.cells hc).fHeight
  have hrow := h.row
  unfold Terminal.lineFeed
  rw [i16_of_range (by omega) hfit]
  simp only
  split_ifs with hlast
  · obtain ⟨t', ht', hk, hrow', hcol'⟩ := (h.setRow (t.row + t.fHeight)).scroll hc
    change t'.row = i16 (t.row + t.fHeight - t.fHeight) at hrow'
    rw [Int.add_sub_cancel, i16_of_range (by omega) (by omega)] at hrow'
    exact ⟨t', ht', hk, by rw [hrow']; exact h.row, by rw [hcol']; exact h.col⟩
  · change ¬ t.height - t.fHeight < t.row + t.fHeight at hlast
    have := hs.height
    have := hs.fHeight
    exact ⟨_, rfl, h.rowAt (by omega) (by omega) hfit⟩

theorem backspace (h : Confined t₀ t) (hc : Cells t₀)
    (hfit : t.fWidth ≤ t.col ∨ t.row < t.fHeight ∨ t.width - t.fWidth ≤ 0x7fff) :
    Confined t₀ t.backspace := by
  have hs := h.same
  have hh := (hs.cells hc).fHeight
  have hw := (hs.cells hc).fWidth
  have hrow := h.row
  have hcol := h.col
  unfold Terminal.backspace
  rw [i16_of_range (x := t.col - t.fWidth) (by omega) (by omega)]
  simp only
  split_ifs with hneg hfirst
  · exact h.colAt le_rfl (by decide)
  · have hwide : t.width - t.fWidth ≤ 0x7fff := by omega
    have hrem := Int.tmod_nonneg t.fWidth (show 0 ≤ t.width - t.fWidth by omega)
    have hrem' : (t.width - t.fWidth).tmod t.fWidth ≤ t.width - t.fWidth := by
      have hquot := Int.mul_nonneg (show 0 ≤ t.fWidth by omega)
        (Int.ediv_nonneg (show 0 ≤ t.width - t.fWidth by omega) (show 0 ≤ t.fWidth by omega))
      have hdiv := Int.mul_ediv_add_emod (t.width - t.fWidth) t.fWidth
      rw [Int.tmod_eq_emod_of_nonneg (by omega)]
      omega
    rw [i16_of_range (x := t.width - t.fWidth) (by omega) hwide,
      i16_of_range (x := t.width - t.fWidth - (t.width - t.fWidth).tmod t.fWidth) (by omega)
        (by omega), i16_of_range (x := t.row - t.fHeight) (by omega) (by omega)]
    exact (h.rowAt (r := t.row - t.fHeight) (by omega) (by omega) (by omega)).colAt (by omega)
      (by omega)
  · exact h.colAt (by omega) (by omega)

theorem tab (h : Confined t₀ t) (hc : Cells t₀)
    (hfit : t.col + t.fWidth * (8 - t.col.tdiv t.fWidth % 8) ≤ 0x7fff) : Confined t₀ t.tab := by
  have hw := (h.same.cells hc).fWidth
  have hcol := h.col
  have hstep : 0 ≤ t.fWidth * (8 - t.col.tdiv t.fWidth % 8) :=
    Int.mul_nonneg (by omega) (by omega)
  unfold Terminal.tab
  rw [i16_of_range (by omega) hfit]
  exact h.colAt (by omega) hfit

/-- The place of a character, on this text line or the next. -/
theorem print (h : Confined t₀ t) (hc : Cells t₀) (c : BitVec 8)
    (hfit : if t.width - t.fWidth < t.col then t.row + t.fHeight ≤ 0x7fff
      else t.col + t.fWidth ≤ 0x7fff) :
    ∃ t', t.print c = some t' ∧ Confined t₀ t' := by
  have hs := h.same
  have hcell := hs.cells hc
  have hh := hcell.fHeight
  have hw := hcell.fWidth
  have hrow := h.row
  have hcol := h.col
  have hfp : t.fpHeight = t.fHeight := by
    unfold Terminal.fpHeight
    rw [hcell.fHeight1, ite_self]
  -- drawing and stepping to the right, once the place is settled
  have hdraw : ∀ {u : Terminal}, Kept t₀ u → 0 ≤ u.row ∧ u.row ≤ t₀.height - t₀.fHeight ∧
      u.row ≤ 0x7fff → 0 ≤ u.col → u.col ≤ t₀.width - t₀.fWidth → u.col + t.fWidth ≤ 0x7fff →
      Confined t₀ (u.draw.setCol (i16 (u.col + t.fWidth))) := by
    intro u hu hurow hu0 huw hucol
    refine ⟨(hu.draw hu0 huw).setCol _, hurow, ?_⟩
    change 0 ≤ i16 _ ∧ i16 _ ≤ 0x7fff
    rw [i16_of_range (by omega) hucol]
    omega
  unfold Terminal.print
  rw [hfp, hcell.ceMove]
  simp only
  have hwidth := hs.width
  have hfWidth := hs.fWidth
  have hheight := hs.height
  have hfHeight := hs.fHeight
  by_cases hwrap : t.width - t.fWidth < t.col
  · rw [if_pos hwrap] at hfit ⊢
    rw [i16_of_range (x := t.row + t.fHeight) (by omega) hfit]
    by_cases hlast : t.height - t.fHeight < t.row + t.fHeight
    · rw [if_pos (show ((t.setCol 0).setRow (t.row + t.fHeight)).height - t.fHeight <
        ((t.setCol 0).setRow (t.row + t.fHeight)).row from hlast)]
      obtain ⟨u, hu, hk, hurow, hucol⟩ := ((h.setCol 0).setRow (t.row + t.fHeight)).scroll hc
      change u.row = i16 (t.row + t.fHeight - t.fHeight) at hurow
      rw [i16_of_range (by omega) (by omega)] at hurow
      change u.col = 0 at hucol
      refine ⟨_, congrArg (Option.map _) hu, ?_⟩
      exact hdraw hk (by omega) (by omega) (by omega) (by omega)
    · rw [if_neg (show ¬ ((t.setCol 0).setRow (t.row + t.fHeight)).height - t.fHeight <
        ((t.setCol 0).setRow (t.row + t.fHeight)).row from hlast)]
      refine ⟨_, rfl, hdraw ((h.setCol 0).setRow _) ?_ ?_ ?_ ?_⟩
      · change 0 ≤ t.row + t.fHeight ∧ t.row + t.fHeight ≤ _ ∧ t.row + t.fHeight ≤ _
        omega
      · exact le_rfl
      · change 0 ≤ t₀.width - t₀.fWidth
        omega
      · change 0 + t.fWidth ≤ 0x7fff
        omega
  · rw [if_neg hwrap] at hfit ⊢
    rw [if_neg (by omega)]
    exact ⟨_, rfl, hdraw h.toKept hrow hcol.1 (by omega) hfit⟩

theorem ground (h : Confined t₀ t) (hc : Cells t₀) {c : BitVec 8} (hfit : FitsGround t c) :
    ∃ t', t.ground c = some t' ∧ Confined t₀ t' := by
  have h' : Confined t₀ (t.setArgs 0 0 (Function.update t.cArgs 0 0)) :=
    ⟨h.setArgs 0 0 _, h.row, h.col⟩
  unfold Terminal.ground
  unfold FitsGround at hfit
  simp only
  split
  · exact ⟨_, rfl, h'⟩
  · rename_i heq
    rw [heq] at hfit
    exact ⟨_, rfl, h'.backspace hc hfit⟩
  · rename_i heq
    rw [heq] at hfit
    exact ⟨_, rfl, h'.tab hc hfit⟩
  · rename_i heq
    rw [heq] at hfit
    exact h'.lineFeed hc hfit
  · rename_i heq
    rw [heq] at hfit
    exact h'.lineFeed hc hfit
  · rename_i heq
    rw [heq] at hfit
    exact h'.lineFeed hc hfit
  · exact ⟨_, rfl, h'.colAt le_rfl (by decide)⟩
  · exact ⟨_, rfl, h'.setFont1 true, h'.row, h'.col⟩
  · exact ⟨_, rfl, h'.setFont1 false, h'.row, h'.col⟩
  · exact ⟨_, rfl, h'.setState 1, h'.row, h'.col⟩
  · exact ⟨_, rfl, h'.setState 2, h'.row, h'.col⟩
  · split_ifs with hc60
    · refine h'.print hc c ?_
      split at hfit
      all_goals first
        | exact hfit hc60
        | (exfalso; simp_all only [not_true_eq_false, imp_false])
    · exact ⟨_, rfl, h'⟩

end Confined

/-! ### Control sequences -/

/-- The whole bitplane is zeroed, and the picture starts at its first line. -/
theorem Kept.zeroed (h : Kept t₀ t) (hc : Cells t₀) :
    Kept t₀ (t.withCon ((t.withOffset 0).withMem (zero 0 (t.width / 8 * t.height) t.mem))) where
  same := ⟨h.same.1, h.same.2, h.same.3, h.same.4, h.same.5, h.same.6⟩
  offset := by
    have := h.offset
    change 0 ≤ (0 : ℤ) ∧ 0 < t.height
    omega
  drawn := h.drawn
  outside p hp := by
    have hw := (h.same.cells hc).width
    have hplane : 8 * (t.width / 8 * t.height) = t.width * t.height := by
      rw [← Int.mul_assoc, show 8 * (t.width / 8) = t.width by omega]
    have hp' := hp
    rw [← h.same.width, ← h.same.height] at hp'
    change zero 0 (t.width / 8 * t.height) t.mem p = _
    rw [zero, hplane, fill, if_neg (by omega)]
    exact h.outside p hp

theorem Kept.doclear (h : Kept t₀ t) (hc : Cells t₀) {r x : ℤ} (hr : 0 ≤ r)
    (hle : r + t.fHeight ≤ t.height) (hx : 0 ≤ x) (n : ℤ) :
    ∃ t', t.doclear r x n = some t' ∧ Kept t₀ t' ∧ t'.row = t.row ∧ t'.col = t.col := by
  have hh := (h.same.cells hc).fHeight
  have lineEnd : ∀ {u : Terminal}, Kept t₀ u → u.row = t.row → u.col = t.col →
      ∃ t', some (if x < u.width then
          u.withCon (u.charClear (u32 r) (u32 x) (u32 (u.width - x))) else u) = some t' ∧
        Kept t₀ t' ∧ t'.row = t.row ∧ t'.col = t.col := by
    intro u hu hrow hcol
    have hfh : u.fHeight = t.fHeight := hu.same.fHeight.trans h.same.fHeight.symm
    have hht : u.height = t.height := hu.same.height.trans h.same.height.symm
    by_cases hin : x < u.width
    · obtain ⟨hk, hrow', hcol'⟩ :=
        hu.charClear hc (r := r) (x := x) (n := u.width - x) hr (by omega)
        hx (by omega) (by omega)
      rw [if_pos hin]
      exact ⟨_, rfl, hk, hrow'.trans hrow, hcol'.trans hcol⟩
    · rw [if_neg hin]
      exact ⟨u, rfl, hu, hrow, hcol⟩
  unfold Terminal.doclear
  by_cases h0 : n = 0
  · rw [if_pos h0]
    obtain ⟨hk, hrow, hcol⟩ := h.clearLines hc (l := r + t.fHeight) (n := t.height - r - t.fHeight)
      (by omega) (by omega) (by omega)
    exact lineEnd hk hrow hcol
  · by_cases h1 : n = 1
    · rw [if_neg h0, if_pos h1]
      exact lineEnd h rfl rfl
    · by_cases h2 : n = 2
      · rw [if_neg h0, if_neg h1, if_pos h2]
        exact ⟨_, rfl, h.zeroed hc, rfl, rfl⟩
      · rw [if_neg h0, if_neg h1, if_neg h2]
        exact ⟨t, rfl, h, rfl, rfl⟩

namespace Confined

/-- A drawing function that leaves the cursor alone. -/
theorem withCon (h : Confined t₀ t) {c : ConsoleState}
    (hk : Kept t₀ (t.withCon c) ∧ c.row = t.row ∧ c.col = t.col) : Confined t₀ (t.withCon c) := by
  obtain ⟨hk, hrow, hcol⟩ := hk
  refine ⟨hk, ?_, ?_⟩
  · change 0 ≤ c.row ∧ c.row ≤ _ ∧ c.row ≤ _
    rw [hrow]
    exact h.row
  · change 0 ≤ c.col ∧ c.col ≤ _
    rw [hcol]
    exact h.col

theorem doclear (h : Confined t₀ t) (hc : Cells t₀) {r x : ℤ} (hr : 0 ≤ r)
    (hle : r + t.fHeight ≤ t.height) (hx : 0 ≤ x) (n : ℤ) :
    ∃ t', t.doclear r x n = some t' ∧ Confined t₀ t' := by
  obtain ⟨t', ht', hk, hrow, hcol⟩ := h.toKept.doclear hc hr hle hx n
  exact ⟨t', ht', hk, by rw [hrow]; exact h.row, by rw [hcol]; exact h.col⟩

theorem insertRows (h : Confined t₀ t) (hc : Cells t₀) {r n : ℤ} (hr : 0 ≤ r)
    (hle : r + t.fHeight ≤ t.height) (hfit : 0 ≤ i32 (n * t.fHeight)) :
    ∃ t', t.insertRows r n = some t' ∧ Confined t₀ t' := by
  have h' : Confined t₀ (t.setCol 0) := h.colAt le_rfl (by decide)
  have wf := h.wf hc
  have hH := wf.height
  have hh := (h.same.cells hc).fHeight
  unfold Terminal.insertRows
  by_cases hall : t.height - r ≤ i32 (n * t.fHeight)
  · refine Eq.subst (motive := fun z => ∃ t', z = some t' ∧ Confined t₀ t') (if_pos hall).symm ?_
    exact h'.doclear hc hr hle le_rfl 0
  · refine Eq.subst (motive := fun z => ∃ t', z = some t' ∧ Confined t₀ t') (if_neg hall).symm ?_
    change ∃ t', Option.map _ ((t.setCol 0).drawing ((t.setCol 0).insertLines (u32 r)
      (u32 (i32 (n * t.fHeight))))) = some t' ∧ _
    generalize i32 (n * t.fHeight) = k at hfit hall
    obtain ⟨c, hrun, hk, hrow, hcol⟩ := h'.run hc (o := .insertLines r k)
      ⟨hr, hfit, show r + k ≤ t.height by omega⟩ (.inl ⟨fun _ => nofun, fun _ => nofun⟩)
    have hrun' : (t.setCol 0).insertLines (u32 r) (u32 k) = some c := by
      rw [u32_of_range hr (by omega), u32_of_range hfit (by omega)]
      exact hrun
    rw [Terminal.drawing, hrun', Option.map_some, Option.map_some]
    refine ⟨_, rfl, ?_⟩
    have hcon : Confined t₀ ((t.setCol 0).withCon c) := h'.withCon ⟨hk, hrow, hcol⟩
    generalize (t.setCol 0).withCon c = u at hcon
    have hht : u.height = t.height := hcon.same.height.trans h.same.height.symm
    have hfh : u.fHeight = t.fHeight := hcon.same.fHeight.trans h.same.fHeight.symm
    have hrem := Int.tmod_nonneg u.fHeight (show 0 ≤ u.height - r by omega)
    have hrem' := Int.tmod_lt_of_pos (u.height - r) (show 0 < u.fHeight by omega)
    simp only
    split_ifs with hclear
    · exact hcon.withCon (hcon.clearLines hc (by omega) hrem (by omega))
    · exact hcon

theorem deleteRows (h : Confined t₀ t) (hc : Cells t₀) {r n : ℤ} (hr : 0 ≤ r)
    (hle : r + t.fHeight ≤ t.height) (hfit : 0 ≤ i32 (n * t.fHeight)) :
    ∃ t', t.deleteRows r n = some t' ∧ Confined t₀ t' := by
  have hH := (h.wf hc).height
  unfold Terminal.deleteRows
  simp only
  split_ifs with hall
  · exact h.doclear hc hr hle le_rfl 0
  · generalize i32 (n * t.fHeight) = k at hfit hall
    obtain ⟨c, hrun, hk, hrow, hcol⟩ := h.run hc (o := .deleteLines r k)
      ⟨hr, hfit, by omega⟩ (.inl ⟨fun _ => nofun, fun _ => nofun⟩)
    have hrun' : t.deleteLines (u32 r) (u32 k) = some c := by
      have hh := (h.same.cells hc).fHeight
      rw [u32_of_range hr (by omega), u32_of_range hfit (by omega)]
      exact hrun
    rw [Terminal.drawing, hrun']
    exact ⟨_, rfl, h.withCon ⟨hk, hrow, hcol⟩⟩

/-- What CSI @ and P have to fit: the cursor is not beyond the bitmap, the count
not negative, and the text row is within an int of the bitplane's start. -/
def FitsChars (t : Terminal) (n : ℤ) : Prop :=
  t.col ≤ t.width ∧ 0 ≤ n ∧
    (n < t.width - t.col → n = 0 ∨ t.wrap (t.row + t.offset) * t.width < 0x80000000)

/-- The cursor's text row, from the cursor on, may be shifted. -/
theorem shift (h : Confined t₀ t) {k : ℤ} (hfit : FitsChars t k) (hk : k < t.width - t.col) :
    t.InRange (.ichars k) ∧ t.Fits (.ichars k) := by
  have hrow := h.row
  have hcol := h.col
  have hht := h.same.height
  have hfh := h.same.fHeight
  obtain ⟨hin, hk0, hbig⟩ := hfit
  refine ⟨⟨hrow.1, by omega, hcol.1, hk0, by omega⟩, ?_⟩
  rcases hbig hk with hz | hz
  · exact .inr (.inl hz)
  · exact .inr (.inr (.inr hz))

theorem insertChars (h : Confined t₀ t) (hc : Cells t₀) {n : ℤ}
    (hfit : FitsChars t (i32 (n * t.fWidth))) : Confined t₀ (t.insertChars n) := by
  have hrow := h.row
  have hcol := h.col
  have hht := h.same.height
  have hfh := h.same.fHeight
  unfold Terminal.insertChars
  simp only
  generalize i32 (n * t.fWidth) = k at hfit
  have hin := hfit.1
  have hk0 := hfit.2.1
  by_cases hall : t.width - t.col ≤ k
  · rw [if_pos hall]
    exact h.withCon (h.charClear hc hrow.1 (by omega) hcol.1 (by omega) (by omega))
  · rw [if_neg hall]
    obtain ⟨hr, hfits⟩ := h.shift hfit (by omega)
    obtain ⟨c, hrun, hk⟩ := h.run hc (o := .ichars k) hr (.inr hfits)
    cases hrun
    have hu := h.withCon hk
    have hcol' : (t.withCon (t.ichars k)).col = t.col := hk.2.2
    generalize t.withCon (t.ichars k) = u at hu hcol'
    have hwd := hu.same.width.trans h.same.width.symm
    have hht' := hu.same.height
    have hfh' := hu.same.fHeight
    have hrow' := hu.row
    exact hu.withCon (hu.charClear hc hrow'.1 (by omega) hu.col.1 hk0 (by omega))

theorem deleteChars (h : Confined t₀ t) (hc : Cells t₀) {n : ℤ}
    (hfit : FitsChars t (i32 (n * t.fWidth))) : Confined t₀ (t.deleteChars n) := by
  have hrow := h.row
  have hcol := h.col
  have hht := h.same.height
  have hfh := h.same.fHeight
  unfold Terminal.deleteChars
  simp only
  generalize i32 (n * t.fWidth) = k at hfit
  have hin := hfit.1
  have hk0 := hfit.2.1
  by_cases hall : t.width - t.col ≤ k
  · rw [if_pos hall]
    exact h.withCon (h.charClear hc hrow.1 (by omega) (by omega) (by omega) (by omega))
  · rw [if_neg hall]
    obtain ⟨hr, hfits⟩ := h.shift hfit (by omega)
    obtain ⟨c, hrun, hk⟩ := h.run hc (o := .dchars k) hr (.inr hfits)
    cases hrun
    have hu := h.withCon hk
    generalize t.withCon (t.dchars k) = u at hu
    have hwd := hu.same.width.trans h.same.width.symm
    have hht' := hu.same.height
    have hfh' := hu.same.fHeight
    have hrow' := hu.row
    exact hu.withCon (hu.charClear hc hrow'.1 (by omega) (by omega) hk0 (by omega))

/-- Upward: the difference is a short, and no line of the screen is below it. -/
theorem up (h : Confined t₀ t) {n : ℤ}
    (hfit : -0x8000 ≤ t.row - n ∧ t.row - n ≤ t.height - t.fHeight ∧ t.row - n ≤ 0x7fff) :
    Confined t₀ (t.up n) := by
  have hrow := h.row
  have hht := h.same.height
  have hfh := h.same.fHeight
  unfold Terminal.up
  rw [i32_of_range (by omega) (by omega), i16_of_range (by omega) (by omega)]
  simp only
  split_ifs with hneg
  · exact h.rowAt le_rfl (by omega) (by decide)
  · exact h.rowAt (by omega) (by omega) (by omega)

theorem down (h : Confined t₀ t) {n : ℤ} (hfit : 0 ≤ t.row + n ∧ t.row + n ≤ 0x7fff) :
    Confined t₀ (t.down n) := by
  have hrow := h.row
  have hht := h.same.height
  have hfh := h.same.fHeight
  unfold Terminal.down
  rw [i32_of_range (by omega) (by omega), i16_of_range (by omega) (by omega)]
  simp only
  split_ifs with hlast
  · rw [i16_of_range (by omega) (by omega)]
    exact h.rowAt (by omega) (by omega) (by omega)
  · exact h.rowAt (by omega) (by omega) (by omega)

theorem right (h : Confined t₀ t) {n : ℤ} (hfit : 0 ≤ t.col + n ∧ t.col + n ≤ 0x7fff) :
    Confined t₀ (t.right n) := by
  unfold Terminal.right
  rw [i32_of_range (by omega) (by omega), i16_of_range (by omega) (by omega)]
  exact h.colAt hfit.1 hfit.2

/-- To the left the column is clamped, whatever the short has become. -/
theorem left (h : Confined t₀ t) (n : ℤ) : Confined t₀ (t.left n) := by
  have hrange := i16_range (i32 (t.col - n))
  unfold Terminal.left
  simp only
  split_ifs with hneg
  · exact h.colAt le_rfl (by decide)
  · exact h.colAt (by omega) hrange.2

theorem moveTo (h : Confined t₀ t) (hc : Cells t₀) : Confined t₀ t.moveTo := by
  have hh := (h.same.cells hc).fHeight
  have hht := h.same.height
  have hfh := h.same.fHeight
  have hargs := i16_range (t.cArgs 0)
  have hargs' := i16_range (t.cArgs 1)
  have hzero : i16 (t.height - t.fHeight) = t.height - t.fHeight ∨
      0x7fff < t.height - t.fHeight := by
    by_cases hlarge : t.height - t.fHeight ≤ 0x7fff
    · exact .inl (i16_of_range (by omega) hlarge)
    · exact .inr (by omega)
  unfold Terminal.moveTo
  simp only
  generalize hr : (if 0 < t.cArgc then i16 (t.cArgs 0) else 0) = r
  generalize hx : (if 1 < t.cArgc then i16 (t.cArgs 1) else 0) = x
  have hr' : -0x8000 ≤ r ∧ r ≤ 0x7fff := by
    rw [← hr]
    split_ifs <;> omega
  have hx' : -0x8000 ≤ x ∧ x ≤ 0x7fff := by
    rw [← hx]
    split_ifs <;> omega
  have hrow : Confined t₀ (t.setRow (if t.height - t.fHeight < r then i16 (t.height - t.fHeight)
      else if r < 0 then 0 else r)) := by
    split_ifs with hlast hneg
    · exact h.rowAt (by omega) (by omega) (by omega)
    · exact h.rowAt le_rfl (by omega) (by decide)
    · exact h.rowAt (by omega) (by omega) (by omega)
  by_cases hneg : x < 0
  · rw [if_pos hneg]
    exact hrow.colAt le_rfl (by decide)
  · rw [if_neg hneg]
    exact hrow.colAt (by omega) hx'.2

end Confined

/-- What the final byte of a control sequence has to fit: the sum that moves the
cursor, as long as it is not clamped, and a count that is not negative. -/
def FitsFinal (t : Terminal) (c : BitVec 8) : Prop :=
  let n := t.argN
  let up (n : ℤ) := -0x8000 ≤ t.row - n ∧ t.row - n ≤ t.height - t.fHeight ∧ t.row - n ≤ 0x7fff
  let down (n : ℤ) := 0 ≤ t.row + n ∧ t.row + n ≤ 0x7fff
  let right (n : ℤ) := 0 ≤ t.col + n ∧ t.col + n ≤ 0x7fff
  match c.toNat with
  | 0x41 => up (i32 (n * t.fHeight))
  | 0x61 => up n
  | 0x42 => down (i32 (n * t.fHeight))
  | 0x62 => down n
  | 0x43 => right (i32 (n * t.fWidth))
  | 0x63 => right n
  | 0x44 | 0x64 | 0x48 | 0x68 | 0x4a | 0x4b => True
  | 0x54 | 0x4c | 0x53 | 0x4d => 0 ≤ i32 (n * t.fHeight)
  | 0x40 | 0x50 => Confined.FitsChars t (i32 (n * t.fWidth))
  | _ => True

/-- A text byte that ends no run. -/
def groundStep (t : Terminal) (c : BitVec 8) : Terminal := (t.ground c).getD t

/-- What a byte of the stream has to fit. -/
def Fits (t : Terminal) (c : BitVec 8) : Prop :=
  match t.cState with
  | 0 => FitsGround t c
  | 2 => if c &&& 0x40#8 ≠ 0 then FitsFinal t c
      else c.toNat = 42 → 0 < t.cArgc → t.cArgs 0 = 42 →
        Every groundStep FitsGround (t.setState 0) Terminal.signature
  | _ => True

namespace Confined

theorem final (h : Confined t₀ t) (hc : Cells t₀) {c : BitVec 8} (hfit : FitsFinal t c) :
    ∃ t', t.final c = some t' ∧ Confined t₀ t' := by
  have hrow := h.row
  have hht := h.same.height
  have hfh := h.same.fHeight
  have hh := (h.same.cells hc).fHeight
  have hline : 0 ≤ (if 1 < t.cArgc then 0 else t.row) ∧
      (if 1 < t.cArgc then 0 else t.row) + t.fHeight ≤ t.height := by
    split_ifs <;> omega
  unfold Terminal.final
  unfold FitsFinal at hfit
  simp only at hfit ⊢
  split
  case h_20 => exact ⟨_, rfl, h⟩
  all_goals
    rename_i heq
    rw [heq] at hfit
  · exact ⟨_, rfl, h.up hfit⟩
  · exact ⟨_, rfl, h.up hfit⟩
  · exact ⟨_, rfl, h.down hfit⟩
  · exact ⟨_, rfl, h.down hfit⟩
  · exact ⟨_, rfl, h.right hfit⟩
  · exact ⟨_, rfl, h.right hfit⟩
  · exact ⟨_, rfl, h.left _⟩
  · exact ⟨_, rfl, h.left _⟩
  · exact ⟨_, rfl, moveTo ⟨h.setArgs _ _ _, h.row, h.col⟩ hc⟩
  · exact ⟨_, rfl, h.moveTo hc⟩
  · exact h.doclear hc hrow.1 (by omega) h.col.1 _
  · exact h.doclear hc hrow.1 (by omega) h.col.1 _
  · exact h.insertRows hc le_rfl (by omega) hfit
  · exact h.insertRows hc hline.1 hline.2 hfit
  · exact h.deleteRows hc le_rfl (by omega) hfit
  · exact h.deleteRows hc hline.1 hline.2 hfit
  · exact ⟨_, rfl, h.insertChars hc hfit⟩
  · exact ⟨_, rfl, h.deleteChars hc hfit⟩
  · exact ⟨_, rfl, h.setFont1 _, h.row, h.col⟩

theorem grounds (h : Confined t₀ t) (hc : Cells t₀) {p : List (BitVec 8)}
    (hfit : Every groundStep FitsGround t p) :
    ∃ t', p.foldlM Terminal.ground t = some t' ∧ Confined t₀ t' := by
  induction p generalizing t with
  | nil => exact ⟨t, rfl, h⟩
  | cons c p ih =>
      obtain ⟨u, hu, hk⟩ := h.ground hc hfit.1
      have hrest := hfit.2
      rw [groundStep, hu, Option.getD_some] at hrest
      rw [List.foldlM_cons, hu]
      exact ih hk hrest

theorem collect (h : Confined t₀ t) (hc : Cells t₀) {c : BitVec 8}
    (hfit : c.toNat = 42 → 0 < t.cArgc → t.cArgs 0 = 42 →
      Every groundStep FitsGround (t.setState 0) Terminal.signature) :
    ∃ t', t.collect c = some t' ∧ Confined t₀ t' := by
  unfold Terminal.collect
  simp only
  split_ifs
  all_goals first
    | exact ⟨_, rfl, h.setArgs _ _ _, h.row, h.col⟩
    | exact ⟨_, rfl, h⟩
    | skip
  · exact grounds ⟨h.setState 0, h.row, h.col⟩ hc (hfit ‹_› (And.left ‹_›) (And.right ‹_›))
  · exact ⟨_, rfl, h.setState 0, h.row, h.col⟩

/-- The step: a byte that fits keeps the output confined. -/
theorem put1 (h : Confined t₀ t) (hc : Cells t₀) {c : BitVec 8} (hfit : Fits t c) :
    ∃ t', t.put1 c = some t' ∧ Confined t₀ t' := by
  unfold Terminal.put1
  unfold Fits at hfit
  split
  · rename_i heq
    rw [heq] at hfit
    exact h.ground hc hfit
  · unfold Terminal.escape
    split_ifs
    · exact ⟨_, rfl, h.setState 2, h.row, h.col⟩
    · exact ⟨_, rfl, h.setState 0, h.row, h.col⟩
  · rename_i heq
    rw [heq] at hfit
    simp only at hfit
    by_cases hfinal : c &&& 0x40#8 ≠ 0
    · rw [if_pos hfinal] at hfit ⊢
      obtain ⟨t', ht', hk⟩ := h.final hc hfit
      rw [ht']
      exact ⟨_, rfl, hk.setState 0, hk.row, hk.col⟩
    · rw [if_neg hfinal] at hfit ⊢
      exact h.collect hc hfit
  · exact ⟨t, rfl, h⟩

end Confined

/-! ### The stream -/

/-- A byte of the stream; a call that did not end would leave the console. -/
def step (t : Terminal) (c : BitVec 8) : Terminal := (t.put1 c).getD t

/-- The console before the stream: the cursor on the screen, nothing drawn yet. -/
structure Ready (t : Terminal) : Prop where
  offset : 0 ≤ t.offset ∧ t.offset < t.height
  row : 0 ≤ t.row ∧ t.row ≤ t.height - t.fHeight ∧ t.row ≤ 0x7fff
  col : 0 ≤ t.col ∧ t.col ≤ 0x7fff
  drawn : t.drawn = []

theorem Ready.confined (h : Ready t) : Confined t t where
  same := ⟨rfl, rfl, rfl, rfl, rfl, rfl⟩
  offset := h.offset
  drawn := by
    rw [h.drawn]
    exact fun d hd => absurd hd List.not_mem_nil
  outside _ _ := rfl
  row := h.row
  col := h.col

/-- In every stream whose bytes all fit, each byte is treated to the end and leaves
the output confined. -/
theorem output_confined {t₀ : Terminal} (hc : Cells t₀) (hr : Ready t₀) {p : List (BitVec 8)}
    (hfit : Every step Fits t₀ p) :
    Every step (fun t c => ∃ t', t.put1 c = some t' ∧ Confined t₀ t') t₀ p := by
  refine every_of_invariant (Confined t₀) (fun t c h hf => ?_) (fun t c h hf => h.put1 hc hf)
    hr.confined hfit
  obtain ⟨t', ht', hk⟩ := h.put1 hc hf
  rw [step, ht']
  exact hk

/-- A console of 25 lines of 80 cells. -/
def screen (row col : ℤ) : Terminal where
  width := 640
  height := 200
  offset := 0
  fHeight := 8
  row := row
  col := col
  bpl := 0
  mem _ := false
  fWidth := 8
  fHeight1 := 8
  ceMove _ _ := 8
  cState := 0
  cArgc := 0
  cCurarg := 0
  cArgs _ := 0
  font1 := false
  drawn := []

theorem screen_cells (row col : ℤ) : Cells (screen row col) where
  width := show 0 < (640 : ℤ) ∧ (640 : ℤ) < 0x10000 ∧ (640 : ℤ) % 16 = 0 by decide
  height := show (200 : ℤ) < 0x10000 by decide
  fHeight := show 0 < (8 : ℤ) ∧ (8 : ℤ) ≤ 200 ∧ (8 : ℤ) < 0x100 by decide
  fWidth := show 0 < (8 : ℤ) ∧ (8 : ℤ) ≤ 640 ∧ (8 : ℤ) < 0x100 by decide
  fHeight1 := rfl
  ceMove _ _ := rfl

theorem screen_ready : Ready (screen 0 0) :=
  ⟨by decide, by decide, by decide, rfl⟩

/-- The letter A, then a carriage return. -/
theorem output_confined_letter :
    Every step (fun t c => ∃ t', t.put1 c = some t' ∧ Confined (screen 0 0) t') (screen 0 0)
      [0x41#8, 0x0d#8] :=
  output_confined (screen_cells 0 0) screen_ready
    ⟨fun _ => show (0 : ℤ) + 8 ≤ 0x7fff by decide, trivial, trivial⟩

/-- The screen when a control sequence has collected the number 40000. -/
def collected : Terminal := ((screen 0 0).setState 2).setArgs 1 0 fun _ => 40000

theorem collected_ready : Ready collected :=
  ⟨screen_ready.offset, screen_ready.row, screen_ready.col, rfl⟩

/-- CSI 40000 a: the cursor goes up past the short, and comes out below the screen. -/
theorem output_confined_fails :
    ¬ ∀ t₀ p, Cells t₀ → Ready t₀ →
      Every step (fun t c => ∃ t', t.put1 c = some t' ∧ Confined t₀ t') t₀ p := by
  intro h
  have hcells : Cells collected :=
    ⟨(screen_cells 0 0).width, (screen_cells 0 0).height, (screen_cells 0 0).fHeight,
      (screen_cells 0 0).fWidth, (screen_cells 0 0).fHeight1, (screen_cells 0 0).ceMove⟩
  obtain ⟨⟨t', ht', hk⟩, -⟩ := h collected [0x61#8] hcells collected_ready
  have hput : collected.put1 0x61#8 = some ((collected.setRow 25536).setState 0) := by
    rfl
  rw [hput] at ht'
  have hrow := hk.row.2.1
  rw [← Option.some.inj ht'] at hrow
  exact absurd hrow (show ¬ (25536 : ℤ) ≤ 200 - 8 by decide)

end HydraAmix.Console.Emulator
