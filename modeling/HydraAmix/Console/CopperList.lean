import HydraAmix.Console.ScreenType
import Mathlib.Algebra.BigOperators.Group.List.Basic
import Mathlib.Tactic.ByContra

/-!
# Copper lists

`norm_field` and `hedley_field` write the copper list of one field: moves to
chip registers and waits for beam positions. What a function writes is the list
of its words; `normcop` and `f4cop` place the fields in the memory reserved for
one list.
-/
namespace HydraAmix.Console
open Word

/-! ### Modes of a screen -/

abbrev Sm_HIRES : Ushort := 0x0001
abbrev Sm_ILACE : Ushort := 0x0002
abbrev Sm_HAM : Ushort := 0x0010
abbrev Sm_HALFBRITE : Ushort := 0x0020
abbrev Sm_HEDLEY_F4 : Ushort := 0x0100
abbrev Sm_HEDLEY : Ushort := 0x0300

structure Bitmap where
  width : ℕ
  height : ℕ
  depth : ℕ
  offset : ℕ
  bpl : ℕ → ℤ

/-- What the copper list of a screen depends on. -/
structure Picture where
  modes : Ushort
  width : ℕ
  height : ℕ
  depth : ℕ
  color : ℕ → Ushort
  bmap : Bitmap

def Picture.has (sp : Picture) (bits : Ushort) : Bool := sp.modes &&& bits ≠ 0

/-- The number of hardware color registers. -/
def NHCOLREGS (sp : Picture) : ℕ :=
  if 5 < sp.depth then if sp.has Sm_HAM then 16 else 32
  else (if sp.has Sm_HEDLEY then 2 else 1) <<< sp.depth

abbrev NORMAL_COPFSIZE : ℕ := 128
abbrev NORMAL_COPSIZE : ℕ := NORMAL_COPFSIZE * 2 * 2
abbrev HEDLEY_COPFSIZE : ℕ := 128
abbrev HEDLEY_COPSIZE : ℕ := HEDLEY_COPFSIZE * 2 * 4

/-- The bytes reserved for one list. -/
def COPSIZE (sp : Picture) : ℕ := if sp.has Sm_HEDLEY then HEDLEY_COPSIZE else NORMAL_COPSIZE

/-- The mode bits that an accepted type gives to a screen. -/
def Scrtype.screenModes (st : Scrtype) : Ushort :=
  (if st.has SM_HAM then Sm_HAM else 0) ||| (if st.has SM_HALFBRITE then Sm_HALFBRITE else 0) |||
    (if st.has SM_INTERLACE then Sm_ILACE else 0) ||| (if st.has SM_HIRES then Sm_HIRES else 0) |||
    (if st.has SM_HEDLEY then Sm_HEDLEY_F4 else 0)

/-- The screen is of the type: its size, its depth, and a bitmap of its size. -/
structure Picture.OfType (sp : Picture) (st : Scrtype) : Prop where
  modes : sp.modes = if st.has SM_HEDLEY then st.screenModes &&& ~~~Sm_ILACE else st.screenModes
  width : sp.width = st.dispx.toNat
  height : sp.height = st.dispy.toNat
  depth : sp.depth = st.dispz.toNat
  bwidth : sp.bmap.width = st.dispx.toNat
  bheight : sp.bmap.height = st.dispy.toNat

/-! ### Instructions -/

def word (x : ℤ) : Ushort := BitVec.ofInt 16 x

/-- The registers, by their offsets. -/
abbrev cop1lc : Ushort := 0x080
abbrev diwstrt : Ushort := 0x08e
abbrev diwstop : Ushort := 0x090
abbrev ddfstrt : Ushort := 0x092
abbrev ddfstop : Ushort := 0x094
abbrev dmacon : Ushort := 0x096
abbrev bplcon0 : Ushort := 0x100
abbrev bplcon1 : Ushort := 0x102
abbrev bplcon2 : Ushort := 0x104
abbrev bpl1mod : Ushort := 0x108
abbrev bpl2mod : Ushort := 0x10a

def bplpt (i : ℕ) : Ushort := word (0x0e0 + 4 * i)
def color (i : ℕ) : Ushort := word (0x180 + 2 * i)

def move (reg val : Ushort) : List Ushort := [reg, val]

def movel (reg : Ushort) (val : ℤ) : List Ushort :=
  [reg, word (val / 65536), reg + 2, word val]

def wait (vpos hpos : ℕ) : List Ushort :=
  [word vpos <<< 8 ||| word (hpos / 2) ||| 1, 0xfffe]

def stop : List Ushort := wait 0xff 0x1ff

section
variable (reg val : Ushort) (x : ℤ) (v h : ℕ)

@[simp] theorem length_move : (move reg val).length = 2 := rfl
@[simp] theorem length_movel : (movel reg x).length = 4 := rfl
@[simp] theorem length_wait : (wait v h).length = 2 := rfl
@[simp] theorem length_stop : stop.length = 2 := rfl

end

/-- A wait for a line, which past line 255 takes two. -/
def waitFor (waitline : ℕ) : List Ushort :=
  if 256 ≤ waitline then wait 255 0x1c1 ++ wait (waitline - 256) 0 else wait waitline 0

/-- The loop over the planes. -/
def planes (sp : Picture) (pos : ℕ → ℤ) : List Ushort :=
  (List.range sp.depth).flatMap fun i => movel (bplpt i) (pos i)

/-- The loop over the first colors. -/
def colors (sp : Picture) (n : ℕ) : List Ushort :=
  (List.range n).flatMap fun i => move (color i) (sp.color i)

theorem length_flatMap_range {α : Type} {f : ℕ → List α} {c : ℕ} (hf : ∀ i, (f i).length = c)
    (n : ℕ) : ((List.range n).flatMap f).length = n * c := by
  simp [List.length_flatMap, hf, List.map_const', List.sum_replicate]

@[simp] theorem length_planes (sp : Picture) (pos : ℕ → ℤ) :
    (planes sp pos).length = sp.depth * 4 :=
  length_flatMap_range (fun i => length_movel (bplpt i) (pos i)) _

@[simp] theorem length_colors (sp : Picture) (n : ℕ) : (colors sp n).length = n * 2 :=
  length_flatMap_range (fun i => length_move (color i) (sp.color i)) _

theorem length_waitFor (waitline : ℕ) : (waitFor waitline).length ≤ 4 ∧
    2 ≤ (waitFor waitline).length := by
  unfold waitFor
  split
  · simp
  · simp

/-! ### A normal field -/

abbrev DMACLR_DMASPR : Ushort := 0x0020

/-- The center of the display; the offsets are signed. -/
def WHCENTER (adj : Displayadjust) : ℤ := 0x121 + adj.xoffset.toInt
def WVCENTER (pal : Bool) (adj : Displayadjust) : ℤ :=
  (if pal then 0xac else 0x90) + adj.yoffset.toInt

def normField (pal : Bool) (adj : Displayadjust) (sp : Picture) (nextcopp : Option ℤ)
    (flop offset : ℕ) : List Ushort :=
  let lines := if sp.has Sm_ILACE then sp.height / 2 else sp.height
  let wvstrt := word (WVCENTER pal adj - lines / 2)
  let wvstop := wvstrt + word lines
  let pixels := if sp.has Sm_HIRES then sp.width / 2 else sp.width
  let whstrt := word (WHCENTER adj - pixels / 2)
  let whstop := whstrt + word pixels
  let waitline := wvstrt + if sp.has Sm_ILACE
    then word ((((sp.bmap.height : ℤ) - offset - flop + 1) % 4294967296) / 2)
    else word ((sp.bmap.height : ℤ) - offset)
  let modulo := ((if sp.has Sm_ILACE then (sp.bmap.width : ℤ) * 2 - sp.width
    else (sp.bmap.width : ℤ) - sp.width).tdiv 8)
  let fetch := ((whstrt.toNat : ℤ) - if sp.has Sm_HIRES then 9 else 17).tdiv 2
  (match nextcopp with
    | some p => movel cop1lc p
    | none => []) ++
  move dmacon DMACLR_DMASPR ++
  move diwstrt (wvstrt <<< 8 ||| whstrt) ++
  move diwstop (wvstop <<< 8 ||| whstop &&& 0xff) ++
  move ddfstrt (word fetch) ++
  move ddfstop (word (fetch + sp.bmap.width / (if sp.has Sm_HIRES then 4 else 2) - 8)) ++
  colors sp (NHCOLREGS sp) ++
  move bpl2mod (word modulo) ++
  move bpl1mod (word modulo) ++
  move bplcon0 ((if sp.has Sm_HIRES then 1 <<< 15 else 0) |||
    (if sp.has Sm_HAM then 1 <<< 11 else 0) ||| (if sp.has Sm_ILACE then 1 <<< 2 else 0) |||
    word sp.depth <<< 12 ||| 1 <<< 9) ++
  move bplcon1 0 ++
  move bplcon2 0x24 ++
  wait wvstrt.toNat 0 ++
  planes sp (fun i => sp.bmap.bpl i + (offset + flop) * sp.bmap.width / 8) ++
  waitFor waitline.toNat ++
  planes sp (fun i => sp.bmap.bpl i +
    if sp.has Sm_ILACE ∧ (offset + flop) % 2 = 1 then sp.bmap.width / 8 else 0) ++
  stop

/-- A field is as long as its colors, its planes, and up to six more words make it. -/
theorem length_normField (pal : Bool) (adj : Displayadjust) (sp : Picture) (nextcopp : Option ℤ)
    (flop offset : ℕ) : ∃ k, k ≤ 6 ∧
      (normField pal adj sp nextcopp flop offset).length =
        26 + k + 2 * NHCOLREGS sp + 8 * sp.depth := by
  unfold normField
  extract_lets lines wvstrt wvstop pixels whstrt whstop waitline modulo fetch
  have hw := length_waitFor waitline.toNat
  generalize waitFor waitline.toNat = ws at hw ⊢
  cases nextcopp with
  | none =>
      refine ⟨ws.length - 2, by omega, ?_⟩
      simp only [List.length_append, length_move, length_colors, length_planes, length_wait,
        length_stop, List.length_nil]
      omega
  | some p =>
      refine ⟨ws.length + 2, by omega, ?_⟩
      simp only [List.length_append, length_move, length_colors, length_planes, length_wait,
        length_stop, length_movel]
      omega

/-! ### A field of the A2024 monitor -/

def F4_CWIDTH : ℕ := 512
def F4_CHEIGHT (pal : Bool) : ℕ := if pal then 512 else 400
def HSTART : ℕ := 0x81
def NORMST : ℕ := 0x2c
def FSTART : ℕ := 0x3c
def CONTSL (pal : Bool) : ℕ := if pal then 0x1d else 0x15
def CNWIDTH : ℕ := 640

def rgbi (r g b i : Ushort) : Ushort := r <<< 11 ||| g <<< 7 ||| b <<< 3 ||| i

/-- The end of a control region that is `pixels` wide. -/
def CR (pixels : ℕ) : ℕ := HSTART + pixels / 2

section
variable (pal : Bool) (controlbmap : ℤ) (sp : Picture)

def bmpos (x y z : ℕ) : ℤ := sp.bmap.bpl z + y * sp.bmap.width / 8 + x / 8

/-- The part of `hedley_field` up to the wait for the data area. -/
def hedleyHead (code0 code1 : Ushort) : List Ushort :=
  move bplcon1 0 ++
  move bplcon2 0x38 ++
  move dmacon DMACLR_DMASPR ++
  move diwstrt (word (CONTSL pal) <<< 8 ||| word HSTART) ++
  move diwstop (word (NORMST + F4_CHEIGHT pal / 2) <<< 8 ||| word (HSTART + CNWIDTH / 2 - 0x100)) ++
  move ddfstrt (word FSTART) ++
  move ddfstop (word (FSTART + 4 * (CNWIDTH / 16 - 2))) ++
  move bplcon0 (1 <<< 15 ||| 1 <<< 12 ||| 1 <<< 9) ++
  movel (bplpt 0) controlbmap ++
  move (color 0) 0 ++
  move (color 1) code0 ++
  wait (CONTSL pal) (CR 256) ++
  move (color 1) code1 ++
  wait (CONTSL pal) (CR 384) ++
  move (color 1) (rgbi 1 1 0 0) ++
  wait (CONTSL pal) (CR 512) ++
  move (color 1) (rgbi 1 1 0 1) ++
  wait (CONTSL pal) (CR 640) ++
  move bplcon0 (1 <<< 15 ||| 0 <<< 12 ||| 1 <<< 9) ++
  wait (CONTSL pal + 3) 0 ++
  move ddfstop (word (FSTART + 4 * (F4_CWIDTH / 16 - 2))) ++
  colors sp (1 <<< (2 * sp.depth)) ++
  move bpl2mod (word ((2 * (sp.bmap.width : ℤ) - F4_CWIDTH).tdiv 8)) ++
  move bpl1mod (word ((2 * (sp.bmap.width : ℤ) - F4_CWIDTH).tdiv 8)) ++
  wait (NORMST - 1) (HSTART + F4_CWIDTH / 2) ++
  move bplcon0 (1 <<< 15 ||| word sp.depth <<< 13 ||| 1 <<< 9)

/-- The part that loads the plane pointers; `offset` is the number of lines
before the bitmap wraps to its beginning. -/
def hedleyPlanes (xoff yoff offset : ℕ) : List Ushort :=
  let odd z := if offset = 1 then bmpos sp xoff 0 z else bmpos sp xoff yoff z + sp.bmap.width / 8
  movel (bplpt 0) (bmpos sp xoff yoff 0) ++
  movel (bplpt 1) (odd 0) ++
  if 1 < sp.depth then movel (bplpt 2) (bmpos sp xoff yoff 1) ++ movel (bplpt 3) (odd 1) else []

/-- The part for a bitmap that wraps within the field. -/
def hedleyWrap (xoff offset : ℕ) : List Ushort :=
  let waitline := NORMST + offset / 2
  let even z := bmpos sp xoff 0 z
  let odd z := bmpos sp xoff 0 z + sp.bmap.width / 8
  if offset = 0 ∨ F4_CHEIGHT pal ≤ offset then []
  else if offset % 2 = 1 then
    -- the second wait counts from the line that the first one was left at
    let waitline' := (if 1 < offset ∧ 256 ≤ waitline then waitline - 256 else waitline) + 1
    (if 1 < offset then
      waitFor waitline ++ movel (bplpt 1) (even 0) ++
        (if 1 < sp.depth then movel (bplpt 3) (even 1) else [])
    else []) ++
    waitFor waitline' ++
    movel (bplpt 0) (odd 0) ++
    (if 1 < sp.depth then movel (bplpt 2) (odd 1) else [])
  else
    waitFor waitline ++
    movel (bplpt 0) (even 0) ++
    movel (bplpt 1) (odd 0) ++
    (if 1 < sp.depth then movel (bplpt 2) (even 1) ++ movel (bplpt 3) (odd 1) else [])

def hedleyField (code0 code1 : Ushort) (xoff yoff offset : ℕ) : List Ushort :=
  hedleyHead pal controlbmap sp code0 code1 ++ hedleyPlanes sp xoff yoff offset ++
    hedleyWrap pal sp xoff offset ++ stop

end

section
variable (pal : Bool) (controlbmap : ℤ) (sp : Picture)

theorem length_hedleyHead (code0 code1 : Ushort) :
    (hedleyHead pal controlbmap sp code0 code1).length = 52 + 2 * 4 ^ sp.depth := by
  have hn : 1 <<< (2 * sp.depth) = 4 ^ sp.depth := by
    rw [Nat.one_shiftLeft, Nat.pow_mul]
  unfold hedleyHead
  simp only [List.length_append, length_move, length_colors, length_wait, length_movel, hn]
  omega

theorem length_hedleyPlanes (xoff yoff offset : ℕ) :
    (hedleyPlanes sp xoff yoff offset).length ≤ 16 := by
  unfold hedleyPlanes
  by_cases hd : 1 < sp.depth
  · simp [hd]
  · simp [hd]

theorem length_hedleyWrap (xoff offset : ℕ) : (hedleyWrap pal sp xoff offset).length ≤ 24 := by
  unfold hedleyWrap
  extract_lets waitline even odd waitline'
  have hw := (length_waitFor waitline).1
  have hw' := (length_waitFor waitline').1
  generalize waitFor waitline = ws at hw ⊢
  generalize waitFor waitline' = ws' at hw' ⊢
  have hif : ∀ (c : Prop) [Decidable c] (l : List Ushort) (n : ℕ), l.length ≤ n →
      (if c then l else []).length ≤ n := fun c _ l n hl => by
    split
    · exact hl
    · exact Nat.zero_le n
  split
  · exact Nat.zero_le _
  split
  · have h₁ := hif (1 < sp.depth) (movel (bplpt 3) (even 1)) 4 (by simp)
    have h₂ := hif (1 < sp.depth) (movel (bplpt 2) (odd 1)) 4 (by simp)
    have h₀ := hif (1 < offset) (ws ++ movel (bplpt 1) (even 0) ++
        if 1 < sp.depth then movel (bplpt 3) (even 1) else []) 12 (by
      simp only [List.length_append, length_movel]
      omega)
    simp only [List.length_append, length_movel]
    omega
  · have h₁ := hif (1 < sp.depth) (movel (bplpt 2) (even 1) ++ movel (bplpt 3) (odd 1)) 8 (by simp)
    simp only [List.length_append, length_movel]
    omega

/-- A field of one or two planes fits; one of more does not. -/
theorem length_hedleyField (code0 code1 : Ushort) (xoff yoff offset : ℕ) :
    (hedleyField pal controlbmap sp code0 code1 xoff yoff offset).length ≤ HEDLEY_COPFSIZE ↔
      sp.depth ≤ 2 := by
  have hp := length_hedleyPlanes sp xoff yoff offset
  have hw := length_hedleyWrap pal sp xoff offset
  have hh := length_hedleyHead pal controlbmap sp code0 code1
  unfold hedleyField
  simp only [List.length_append, length_stop, hh]
  constructor
  · intro h
    by_contra hd
    have hpow := Nat.pow_le_pow_right (n := 4) (by decide) (Nat.not_le.mp hd)
    simp only [HEDLEY_COPFSIZE] at h
    omega
  · intro hd
    have hpow := Nat.pow_le_pow_right (n := 4) (by decide) hd
    simp only [HEDLEY_COPFSIZE]
    omega

end

/-! ### The lists of a screen -/

abbrev F4CODE : Ushort := rgbi 0 0 0 1
abbrev C0CODE : Ushort := rgbi 0 0 0 1
abbrev C1CODE : Ushort := rgbi 1 0 0 1
abbrev C2CODE : Ushort := rgbi 0 1 0 1
abbrev C3CODE : Ushort := rgbi 1 1 0 1

/-- What is written for a field: the word of the buffer where it starts, and
its words. -/
abbrev Field := ℕ × List Ushort

section
variable (pal : Bool) (adj : Displayadjust) (controlbmap copbuf : ℤ) (sp : Picture) (offset : ℕ)

def normcop : List Field :=
  if sp.has Sm_ILACE then
    [(0, normField pal adj sp (some (copbuf + 2 * NORMAL_COPFSIZE)) 0 offset),
      (NORMAL_COPFSIZE, normField pal adj sp (some copbuf) 1 offset)]
  else [(0, normField pal adj sp none 0 offset)]

def f4cop : List Field :=
  let rest (n : ℕ) : ℕ := (((n : ℤ) - offset) % 4294967296).toNat
  [(0, hedleyField pal controlbmap sp F4CODE C0CODE 0 offset (rest (HEDLEY_SCRHEIGHT pal))),
    (2 * HEDLEY_COPFSIZE, if offset < F4_CHEIGHT pal
      then hedleyField pal controlbmap sp F4CODE C1CODE 0 (offset + F4_CHEIGHT pal)
        (rest (F4_CHEIGHT pal))
      else hedleyField pal controlbmap sp F4CODE C1CODE 0 (offset - F4_CHEIGHT pal) 0),
    (HEDLEY_COPFSIZE, hedleyField pal controlbmap sp F4CODE C2CODE F4_CWIDTH offset
      (rest (HEDLEY_SCRHEIGHT pal))),
    (3 * HEDLEY_COPFSIZE, if offset < F4_CHEIGHT pal
      then hedleyField pal controlbmap sp F4CODE C3CODE F4_CWIDTH (offset + F4_CHEIGHT pal)
        (rest (HEDLEY_SCRHEIGHT pal / 2))
      else hedleyField pal controlbmap sp F4CODE C3CODE F4_CWIDTH (offset - F4_CHEIGHT pal) 0)]

/-- The list that `conscop` and `scrcop` build. -/
def buildCop : List Field :=
  if sp.has Sm_HEDLEY then f4cop pal controlbmap sp offset else normcop pal adj copbuf sp offset

end

def copfsize (sp : Picture) : ℕ := if sp.has Sm_HEDLEY then HEDLEY_COPFSIZE else NORMAL_COPFSIZE

/-- Each field fits its part of the buffer, all of them stay inside the memory of
the list, and no field is written over another. -/
structure FieldsFit (sp : Picture) (fields : List Field) : Prop where
  size : ∀ f ∈ fields, f.2.length ≤ copfsize sp
  inside : ∀ f ∈ fields, 2 * (f.1 + f.2.length) ≤ COPSIZE sp
  apart : fields.Pairwise fun f g => f.1 + f.2.length ≤ g.1 ∨ g.1 + g.2.length ≤ f.1

/-- Fields that fit their parts fit the memory, if the parts do. -/
theorem FieldsFit.of_size {sp : Picture} {fields : List Field}
    (hs : ∀ f ∈ fields, f.2.length ≤ copfsize sp)
    (hi : ∀ f ∈ fields, 2 * (f.1 + copfsize sp) ≤ COPSIZE sp)
    (ha : fields.Pairwise fun f g => f.1 + copfsize sp ≤ g.1 ∨ g.1 + copfsize sp ≤ f.1) :
    FieldsFit sp fields where
  size := hs
  inside f hf := by
    have h₁ := hs f hf
    have h₂ := hi f hf
    omega
  apart := ha.imp_of_mem fun {f g} hf hg h => by
    have h₁ := hs f hf
    have h₂ := hs g hg
    omega

theorem FieldsFit.head {sp : Picture} {n : ℕ} {l : List Ushort} {fields : List Field}
    (h : FieldsFit sp ((n, l) :: fields)) : l.length ≤ copfsize sp :=
  h.size (n, l) List.mem_cons_self

theorem copsize_of_hedley {sp : Picture} (hh : sp.has Sm_HEDLEY = true) :
    copfsize sp = 128 ∧ COPSIZE sp = 1024 := by
  simp only [copfsize, COPSIZE, hh, if_true]
  decide

theorem copsize_of_normal {sp : Picture} (hh : sp.has Sm_HEDLEY = false) :
    copfsize sp = 128 ∧ COPSIZE sp = 512 := by
  simp only [copfsize, COPSIZE, hh, Bool.false_eq_true, if_false]
  decide

theorem Scrtype.screenModes_has (st : Scrtype) :
    (st.screenModes &&& Sm_HEDLEY ≠ 0 ↔ st.has SM_HEDLEY = true) ∧
    (st.screenModes &&& Sm_HAM ≠ 0 ↔ st.has SM_HAM = true) := by
  unfold screenModes
  generalize st.has SM_HAM = a
  generalize st.has SM_HALFBRITE = b
  generalize st.has SM_INTERLACE = c
  generalize st.has SM_HIRES = d
  generalize st.has SM_HEDLEY = e
  revert a b c d e
  decide

theorem Picture.OfType.has {sp : Picture} {st : Scrtype} (h : sp.OfType st) :
    sp.has Sm_HEDLEY = st.has SM_HEDLEY ∧ sp.has Sm_HAM = st.has SM_HAM := by
  have hkeep : ∀ m : Ushort, m &&& ~~~Sm_ILACE &&& Sm_HEDLEY = m &&& Sm_HEDLEY ∧
      m &&& ~~~Sm_ILACE &&& Sm_HAM = m &&& Sm_HAM := fun m =>
    ⟨by rw [BitVec.and_assoc]; rfl, by rw [BitVec.and_assoc]; rfl⟩
  obtain ⟨hh, hm⟩ := st.screenModes_has
  have heq : ∀ {p : Prop} [Decidable p] {b : Bool}, (p ↔ b = true) → decide p = b := fun hp =>
    Bool.eq_iff_iff.mpr (decide_eq_true_iff.trans hp)
  simp only [Picture.has, h.modes]
  constructor
  · split
    · rw [(hkeep _).1]
      exact heq hh
    · exact heq hh
  · split
    · rw [(hkeep _).2]
      exact heq hm
    · exact heq hm

/-- A normal field fits where the depth leaves room for the colors. -/
theorem normField_fits {pal : Bool} {adj : Displayadjust} {sp : Picture} {nextcopp : Option ℤ}
    {flop offset : ℕ} (hh : sp.has Sm_HEDLEY = false) (hd : sp.depth ≤ 6) :
    (normField pal adj sp nextcopp flop offset).length ≤ NORMAL_COPFSIZE ↔
      sp.depth ≤ 4 ∨ 5 < sp.depth ∧ sp.has Sm_HAM = true := by
  obtain ⟨k, hk, hlen⟩ := length_normField pal adj sp nextcopp flop offset
  rw [hlen, NHCOLREGS, hh]
  simp only [NORMAL_COPFSIZE]
  generalize sp.depth = d at hd ⊢
  cases sp.has Sm_HAM with
  | true =>
      have hall : ∀ d ≤ 6, ∀ k ≤ 6, 26 + k + 2 * (if 5 < d then 16 else 1 <<< d) + 8 * d ≤ 128 ↔
          d ≤ 4 ∨ 5 < d := by decide
      simpa using hall d hd k hk
  | false =>
      have hall : ∀ d ≤ 6, ∀ k ≤ 6, 26 + k + 2 * (if 5 < d then 32 else 1 <<< d) + 8 * d ≤ 128 ↔
          d ≤ 4 := by decide
      simpa using hall d hd k hk

theorem f4cop_fits {pal : Bool} {controlbmap : ℤ} {sp : Picture} {offset : ℕ}
    (hh : sp.has Sm_HEDLEY = true) :
    FieldsFit sp (f4cop pal controlbmap sp offset) ↔ sp.depth ≤ 2 := by
  obtain ⟨hsize, hall⟩ := copsize_of_hedley hh
  constructor
  · intro hfit
    have hlen := hfit.head
    rw [hsize] at hlen
    exact (length_hedleyField _ _ _ _ _ _ _ _).mp hlen
  · intro hd
    have hlen : ∀ c₀ c₁ x y n, (hedleyField pal controlbmap sp c₀ c₁ x y n).length ≤ 128 :=
      fun c₀ c₁ x y n => (length_hedleyField pal controlbmap sp c₀ c₁ x y n).mpr hd
    have hif : ∀ (c : Prop) [Decidable c] {l l' : List Ushort}, l.length ≤ 128 → l'.length ≤ 128 →
        (if c then l else l').length ≤ 128 := fun c _ _ _ h h' => by
      split
      · exact h
      · exact h'
    unfold f4cop
    refine .of_size ?_ ?_ ?_
    · rw [hsize]
      simp only [List.forall_mem_cons]
      exact ⟨hlen _ _ _ _ _, hif _ (hlen _ _ _ _ _) (hlen _ _ _ _ _), hlen _ _ _ _ _,
        hif _ (hlen _ _ _ _ _) (hlen _ _ _ _ _), List.forall_mem_nil _⟩
    · rw [hsize, hall]
      simp only [List.forall_mem_cons]
      exact ⟨by decide, by decide, by decide, by decide, List.forall_mem_nil _⟩
    · rw [hsize]
      simp only [List.pairwise_cons, List.forall_mem_cons]
      decide

theorem normcop_fits {pal : Bool} {adj : Displayadjust} {copbuf : ℤ} {sp : Picture} {offset : ℕ}
    (hh : sp.has Sm_HEDLEY = false) (hd : sp.depth ≤ 6) :
    FieldsFit sp (normcop pal adj copbuf sp offset) ↔
      sp.depth ≤ 4 ∨ 5 < sp.depth ∧ sp.has Sm_HAM = true := by
  obtain ⟨hsize, hall⟩ := copsize_of_normal hh
  have hlen : ∀ p n, (normField pal adj sp p n offset).length ≤ 128 ↔
      sp.depth ≤ 4 ∨ 5 < sp.depth ∧ sp.has Sm_HAM = true := fun p n => normField_fits hh hd
  unfold normcop
  split
  · constructor
    · intro hfit
      have hfirst := hfit.head
      rw [hsize, hlen] at hfirst
      exact hfirst
    · intro hdepth
      refine .of_size ?_ ?_ ?_
      · rw [hsize]
        simp only [List.forall_mem_cons]
        exact ⟨(hlen _ _).mpr hdepth, (hlen _ _).mpr hdepth, List.forall_mem_nil _⟩
      · rw [hsize, hall]
        simp only [List.forall_mem_cons]
        exact ⟨by decide, by decide, List.forall_mem_nil _⟩
      · rw [hsize]
        simp only [List.pairwise_cons, List.forall_mem_cons]
        decide
  · constructor
    · intro hfit
      have hfirst := hfit.head
      rw [hsize, hlen] at hfirst
      exact hfirst
    · intro hdepth
      refine .of_size ?_ ?_ (List.pairwise_singleton _ _)
      · rw [hsize]
        simp only [List.forall_mem_cons]
        exact ⟨(hlen _ _).mpr hdepth, List.forall_mem_nil _⟩
      · rw [hsize, hall]
        simp only [List.forall_mem_cons]
        exact ⟨by decide, List.forall_mem_nil _⟩

/-- The fields of a list fit exactly where the depth of the screen is at most
two on the A2024, and elsewhere at most four, or six with HAM. -/
theorem copper_lists_fit_iff (pal : Bool) (adj : Displayadjust) (controlbmap copbuf : ℤ)
    {st st' : Scrtype} (h : checkScrtype pal adj st = some st') (hc : st'.has SM_CHUNKY = false)
    {sp : Picture} (hsp : sp.OfType st') (offset : ℕ) :
    FieldsFit sp (buildCop pal adj controlbmap copbuf sp offset) ↔
      if st'.has SM_HEDLEY then st'.dispz.toNat ≤ 2
      else st'.dispz.toNat ≤ 4 ∨ 5 < st'.dispz.toNat ∧ st'.has SM_HAM = true := by
  obtain ⟨hhedley, hham⟩ := hsp.has
  have hdepth : sp.depth ≤ 6 := by
    rw [hsp.depth]
    exact (checkScrtype_depth h).resolve_left (Bool.eq_false_iff.mp hc)
  rw [← hhedley, ← hham, ← hsp.depth, buildCop]
  cases hh : sp.has Sm_HEDLEY with
  | true =>
      rw [if_pos rfl, if_pos rfl]
      exact f4cop_fits hh
  | false =>
      rw [if_neg Bool.false_ne_true, if_neg Bool.false_ne_true]
      exact normcop_fits hh hdepth

/-- A request for a plain screen of `depth` planes. -/
def plainScrtype (depth : Ushort) : Scrtype := ⟨0, ST_ANY, 320, 256, depth, SM_NONHEDLEY⟩

/-- The screen of that type with its bitmap. -/
def plainPicture (depth : ℕ) : Picture :=
  ⟨0, 320, 256, depth, fun _ => 0, ⟨320, 256, depth, 0, fun _ => 0⟩⟩

def plainAccepted (depth : Ushort) : Scrtype :=
  ⟨0, ST_AMIGA, 320, 256, depth, SM_NONHEDLEY ||| SM_NONLACE⟩

theorem plainPicture_ofType (depth : Ushort) :
    (plainPicture depth.toNat).OfType (plainAccepted depth) :=
  ⟨by simp [plainPicture, plainAccepted, Scrtype.has, Scrtype.screenModes], rfl, rfl, rfl, rfl, rfl⟩

theorem copper_lists_fit_iff_four :
    FieldsFit (plainPicture 4) (buildCop true ⟨0, 0, 0, 0⟩ 0 0 (plainPicture 4) 0) :=
  (copper_lists_fit_iff true ⟨0, 0, 0, 0⟩ 0 0
    (show checkScrtype _ _ (plainScrtype 4) = some (plainAccepted 4) from rfl) rfl
    (plainPicture_ofType 4) 0).mpr (by decide)

/-- The lists of a screen of five planes do not fit. -/
theorem copper_lists_fit_fails : ¬ ∀ (pal : Bool) (adj : Displayadjust) (controlbmap copbuf : ℤ)
    (st st' : Scrtype), checkScrtype pal adj st = some st' → st'.has SM_CHUNKY = false →
      ∀ sp : Picture, sp.OfType st' → ∀ offset < sp.bmap.height,
        FieldsFit sp (buildCop pal adj controlbmap copbuf sp offset) := by
  intro h
  have hfit := h true ⟨0, 0, 0, 0⟩ 0 0 (plainScrtype 5) (plainAccepted 5) (by rfl) (by rfl)
    (plainPicture 5) (plainPicture_ofType 5) 0 (by decide)
  have hh : (plainPicture 5).has Sm_HEDLEY = false := by decide
  rw [buildCop, hh, if_neg Bool.false_ne_true, normcop_fits hh (by decide)] at hfit
  exact absurd hfit (by decide)

end HydraAmix.Console
