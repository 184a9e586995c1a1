import HydraAmix.Library.Transfer
import Mathlib.Data.Int.Init
import Mathlib.Tactic.Linarith
import Mathlib.Tactic.SplitIfs

/-!
# Drawing in the console's bitplane

The console's pixels are the bits of one bitplane, `width/8` bytes a line. The
hardware starts the picture at line `offset` of the bitplane and goes on at line
0 after the last, so that scrolling by whole lines needs no copying.

Memory is the bits from the first of `bpl[0]` on, the first bit of a byte being
its most significant one: an instruction that moves a byte, a longword or a bit
field reads and writes so many bits at once. `bcopy` copies in ascending order.
Unsigned shorts and ints are integers in their range; the operators of C whose
results can leave it are followed by `u16`, `u32` or `i32`.
-/
namespace HydraAmix.Console.Bitplane
open Transfer

abbrev Mem := ℤ → Bool

/-- Conversion to unsigned short. -/
def u16 (x : ℤ) : ℤ := x % 0x10000

/-- Conversion to unsigned int. -/
def u32 (x : ℤ) : ℤ := x % 0x100000000

/-- Conversion to int. -/
def i32 (x : ℤ) : ℤ := (x + 0x80000000) % 0x100000000 - 0x80000000

/-- What the drawing functions use of the console: `bitmap`, the cursor and the
cell height `f_height` of `font[0]`. `bpl` is the address of the bitplane. -/
structure ConsoleState where
  width : ℤ
  height : ℤ
  offset : ℤ
  fHeight : ℤ
  row : ℤ
  col : ℤ
  bpl : ℤ
  mem : Mem

/-! ### Bytes and bit fields -/

/-- `moveu`: `n` bytes, in ascending order. -/
def moveu (d s n : ℤ) (m : Mem) : Mem := ascend 8 n.toNat (8 * d) (8 * s) m

def zero (d n : ℤ) (m : Mem) : Mem := fill false (8 * d) (8 * n) m

/-- `moved`: `len` bytes in descending order, by longwords where the two ranges
have the same parity. The addresses are relative to `bpl`. -/
def moved (bpl to' from' len : ℤ) (m : Mem) : Mem :=
  let fr := from' + len
  let t := to' + len
  if (bpl + fr) % 2 ≠ (bpl + t) % 2 ∨ len < 8 then descend 8 len.toNat (8 * t) (8 * fr) m
  else
    -- one byte is enough for the parity
    let odd := (bpl + fr) % 2
    let m := descend 8 odd.toNat (8 * t) (8 * fr) m
    let len := len - odd
    let m := descend 32 (len / 4).toNat (8 * (t - odd)) (8 * (fr - odd)) m
    descend 8 (len % 4).toNat (8 * (t - odd - 4 * (len / 4))) (8 * (fr - odd - 4 * (len / 4))) m

/-- The loop of `insertbits`; `to` and `from` are the ends of the fields. -/
def insertLoop : ℕ → ℤ → ℤ → ℤ → Mem → Mem
  | 0, _, _, _, m => m
  | k + 1, t, fr, len, m =>
      if len ≤ 0 then m
      else
        let bits := if len < 32 then len else 32
        insertLoop k (t - bits) (fr - bits) (len - bits) (transfer (t - bits) (fr - bits) bits m)

def insertbits (bpl line to' from' len : ℤ) (m : Mem) : Mem :=
  let t := to' + len
  let fr := from' + len
  let bits := (t + (bpl + line) * 4) % 32
  if 32 ≤ len ∧ bits ≠ 0 then
    insertLoop len.toNat (8 * line + (t - bits)) (8 * line + (fr - bits)) (len - bits)
      (transfer (8 * line + (t - bits)) (8 * line + (fr - bits)) bits m)
  else insertLoop len.toNat (8 * line + t) (8 * line + fr) len m

def deleteLoop : ℕ → ℤ → ℤ → ℤ → Mem → Mem
  | 0, _, _, _, m => m
  | k + 1, t, fr, len, m =>
      if len ≤ 0 then m
      else
        let bits := if 32 < len then 32 else len
        deleteLoop k (t + bits) (fr + bits) (len - bits) (transfer t fr bits m)

def deletebits (bpl line to' from' len : ℤ) (m : Mem) : Mem :=
  let bits := (-(to' + (bpl + line) * 4)) % 32
  if 32 < len ∧ bits ≠ 0 then
    deleteLoop len.toNat (8 * line + (to' + bits)) (8 * line + (from' + bits)) (len - bits)
      (transfer (8 * line + to') (8 * line + from') bits m)
  else deleteLoop len.toNat (8 * line + to') (8 * line + from') len m

/-- `line[k] &= mask`. -/
def andByte (k : ℤ) (mask : BitVec 8) (m : Mem) (a : ℤ) : Bool :=
  if 8 * k ≤ a ∧ a < 8 * k + 8 then m a && mask.getMsbD (a - 8 * k).toNat else m a

/-- The part of `clearBits` from a byte boundary on. -/
def clearTail (line dstbit nbits : ℤ) (m : Mem) : Mem :=
  let m := zero (line + dstbit / 8) (nbits / 8) m
  if nbits % 8 ≠ 0 then
    andByte (line + u32 (dstbit + nbits) / 8) (0xff#8 >>> (nbits % 8).toNat) m
  else m

def clearBits (line dstbit nbits : ℤ) (m : Mem) : Mem :=
  let k := dstbit % 8
  if k ≠ 0 then
    let mask := 0xff#8 <<< (8 - k).toNat
    if u32 (nbits + k) < 8 then
      andByte (line + dstbit / 8) (mask ||| 0xff#8 >>> (k + nbits).toNat) m
    else clearTail line (dstbit + (8 - k)) (nbits - (8 - k)) (andByte (line + dstbit / 8) mask m)
  else clearTail line dstbit nbits m

/-! ### What the instructions move and clear -/

variable {bpl line d s n : ℤ} {m : Mem}

theorem moveu_eq (hn : 0 ≤ n) (h : d ≤ s ∨ s + n ≤ d) :
    moveu d s n m = transfer (8 * d) (8 * s) (8 * n) m := by
  unfold moveu
  rw [ascend_eq (by omega) (by omega), Int.toNat_of_nonneg hn]

theorem moved_eq (hn : 0 ≤ n) (h : s ≤ d ∨ d + n ≤ s) :
    moved bpl d s n m = transfer (8 * d) (8 * s) (8 * n) m := by
  unfold moved
  simp only
  split_ifs with hbytes
  · rw [descend_eq (by omega) (by omega), Int.toNat_of_nonneg hn]
    congr 1 <;> omega
  · obtain ⟨-, hlong⟩ := not_or.mp hbytes
    generalize hodd : (bpl + (s + n)) % 2 = odd
    have hodd0 : 0 ≤ odd ∧ odd ≤ 1 := by omega
    generalize hq : (n - odd) / 4 = q
    generalize hr : (n - odd) % 4 = r
    have hsplit : n = 4 * q + r + odd ∧ 0 ≤ q ∧ 0 ≤ r := by omega
    obtain ⟨hsplit, hq0, hr0⟩ := hsplit
    rw [descend_eq (by omega) (by omega), descend_eq (by omega) (by omega),
      descend_eq (by omega) (by omega), Int.toNat_of_nonneg hodd0.1, Int.toNat_of_nonneg hq0,
      Int.toNat_of_nonneg hr0]
    have hlow : transfer (8 * d) (8 * s) (8 * r) (transfer (8 * d + 8 * r) (8 * s + 8 * r) (32 * q)
        (transfer (8 * d + (8 * r + 32 * q)) (8 * s + (8 * r + 32 * q)) (8 * odd) m)) =
        transfer (8 * d) (8 * s) (8 * n) m := by
      rw [transfer_below (by omega) (by omega) (by omega),
        transfer_below (by omega) (by omega) (by omega)]
      congr 1
      omega
    rw [← hlow]
    congr 1
    · omega
    · omega
    · congr 1
      · omega
      · omega
      · congr 1 <;> omega

variable {t fr len : ℤ} {k : ℕ}

theorem insertLoop_eq (hk : len ≤ k) (hlen : 0 ≤ len) (h : fr ≤ t) :
    insertLoop k t fr len m = transfer (t - len) (fr - len) len m := by
  induction k generalizing t fr len m with
  | zero => exact (transfer_of_nonpos (by omega)).symm
  | succ k ih =>
      unfold insertLoop
      simp only
      split_ifs with h0 h32
      · exact (transfer_of_nonpos h0).symm
      · rw [ih (by omega) (by omega) (by omega), transfer_of_nonpos (by omega)]
      · rw [ih (by omega) (by omega) (by omega)]
        have hlow := @transfer_below _ (t - len) (fr - len) (len - 32) 32 m (by omega) (by omega)
          (by omega)
        have ht : t - len + (len - 32) = t - 32 := by omega
        have hfr : fr - len + (len - 32) = fr - 32 := by omega
        have ht' : t - 32 - (len - 32) = t - len := by omega
        have hfr' : fr - 32 - (len - 32) = fr - len := by omega
        rw [ht, hfr, Int.sub_add_cancel] at hlow
        rw [ht', hfr', hlow]

theorem deleteLoop_eq (hk : len ≤ k) (hlen : 0 ≤ len) (h : t ≤ fr) :
    deleteLoop k t fr len m = transfer t fr len m := by
  induction k generalizing t fr len m with
  | zero => exact (transfer_of_nonpos (by omega)).symm
  | succ k ih =>
      unfold deleteLoop
      simp only
      split_ifs with h0 h32
      · exact (transfer_of_nonpos h0).symm
      · rw [ih (by omega) (by omega) (by omega), transfer_above (by omega) (by omega) (by omega)]
        congr 1
        omega
      · rw [ih (by omega) (by omega) (by omega), transfer_of_nonpos (by omega)]

theorem insertbits_eq (hlen : 0 ≤ len) (h : fr ≤ t) :
    insertbits bpl line t fr len m = transfer (8 * line + t) (8 * line + fr) len m := by
  unfold insertbits
  simp only
  split_ifs with hb
  · generalize hbits : (t + len + (bpl + line) * 4) % 32 = bits at *
    rw [insertLoop_eq (by omega) (by omega) (by omega)]
    have hlow := @transfer_below _ (8 * line + t) (8 * line + fr) (len - bits) bits m (by omega)
      (by omega) (by omega)
    rw [Int.sub_add_cancel] at hlow
    rw [← hlow]
    congr 1
    · omega
    · omega
    · congr 1 <;> omega
  · rw [insertLoop_eq (by omega) (by omega) (by omega)]
    congr 1 <;> omega

theorem deletebits_eq (hlen : 0 ≤ len) (h : t ≤ fr) :
    deletebits bpl line t fr len m = transfer (8 * line + t) (8 * line + fr) len m := by
  unfold deletebits
  simp only
  split_ifs with hb
  · generalize hbits : (-(t + (bpl + line) * 4)) % 32 = bits at *
    have habove := @transfer_above _ (8 * line + t) (8 * line + fr) bits (len - bits) m (by omega)
      (by omega) (by omega)
    rw [deleteLoop_eq (by omega) (by omega) (by omega), ← Int.add_assoc, ← Int.add_assoc, habove]
    congr 1
    omega
  · rw [deleteLoop_eq (by omega) (by omega) (by omega)]

/-- The masks of `clearBits` keep the bits before `k`, and those from `k` on. -/
theorem mask_before : ∀ k < 8, ∀ j < 8, (0xff#8 <<< (8 - k)).getMsbD j = decide (j < k) := by
  decide

theorem mask_after : ∀ k ≤ 8, ∀ j < 8, (0xff#8 >>> k).getMsbD j = decide (k ≤ j) := by
  decide

/-- A mask that keeps the bits before `i` and from `e` on clears those between. -/
theorem andByte_eq {mask : BitVec 8} {i e : ℤ}
    (h : ∀ j < 8, mask.getMsbD j = decide (j < i ∨ e ≤ j))
    (hi : 0 ≤ i) (he : e ≤ 8) (q : ℤ) : andByte q mask m = fill false (8 * q + i) (e - i) m := by
  funext p
  unfold andByte fill
  by_cases hp : 8 * q ≤ p ∧ p < 8 * q + 8
  · rw [if_pos hp, h _ (by omega)]
    by_cases hin : 8 * q + i ≤ p ∧ p < 8 * q + i + (e - i)
    · rw [if_pos hin, decide_eq_false (by omega), Bool.and_false]
    · rw [if_neg hin, decide_eq_true (by omega), Bool.and_true]
  · rw [if_neg hp, if_neg (by omega)]

theorem clearTail_eq (hd : 0 ≤ d) (hd8 : d % 8 = 0) (hn : 0 ≤ n) (hfit : d + n < 0x100000000) :
    clearTail line d n m = fill false (8 * line + d) n m := by
  have hbytes : zero (line + d / 8) (n / 8) m = fill false (8 * line + d) (8 * (n / 8)) m := by
    unfold zero
    congr 1
    omega
  unfold clearTail
  simp only [hbytes]
  split_ifs with hrest
  · rw [andByte_eq (i := 0) (e := n % 8) _ (by omega) (by omega)]
    · have hjoin := @fill_fill _ (8 * line + d) (8 * (n / 8)) (n % 8) m false (by omega) (by omega)
      have hat : 8 * (line + u32 (d + n) / 8) + 0 = 8 * line + d + 8 * (n / 8) := by
        unfold u32
        omega
      rw [hat, Int.sub_zero, hjoin]
      congr 1
      omega
    · intro j hj
      rw [mask_after _ (by omega) j hj]
      congr 1
      simp only [eq_iff_iff]
      omega
  · congr 1
    omega

theorem clearBits_eq (hd : 0 ≤ d) (hn : 0 ≤ n) (hfit : d + n + 8 < 0x100000000) :
    clearBits line d n m = fill false (8 * line + d) n m := by
  unfold clearBits
  simp only
  have hsmall : u32 (n + d % 8) = n + d % 8 := by
    unfold u32
    omega
  rw [hsmall]
  split_ifs with hk hshort
  · rw [andByte_eq (i := d % 8) (e := d % 8 + n) _ (by omega) (by omega)]
    · congr 1 <;> omega
    · intro j hj
      rw [BitVec.getMsbD_or, mask_after _ (by omega) j hj,
        show (8 - d % 8).toNat = 8 - (d % 8).toNat by omega, mask_before _ (by omega) j hj,
        ← Bool.decide_or]
      congr 1
      simp only [eq_iff_iff]
      omega
  · rw [clearTail_eq (by omega) (by omega) (by omega) (by omega),
      andByte_eq (i := d % 8) (e := 8) _ (by omega) (by omega)]
    · have hjoin := @fill_fill _ (8 * line + d) (8 - d % 8) (n - (8 - d % 8)) m false (by omega)
        (by omega)
      have hat : 8 * (line + d / 8) + d % 8 = 8 * line + d := by omega
      rw [hat, ← Int.add_assoc, hjoin]
      congr 1
      omega
    · intro j hj
      rw [show (8 - d % 8).toNat = 8 - (d % 8).toNat by omega, mask_before _ (by omega) j hj]
      congr 1
      simp only [eq_iff_iff]
      omega
  · exact clearTail_eq hd (by omega) hn (by omega)

namespace ConsoleState

variable (c : ConsoleState)

def withMem (m : Mem) : ConsoleState :=
  ⟨c.width, c.height, c.offset, c.fHeight, c.row, c.col, c.bpl, m⟩

def withOffset (offset : ℤ) : ConsoleState :=
  ⟨c.width, c.height, offset, c.fHeight, c.row, c.col, c.bpl, c.mem⟩

/-- A line number, once or not at all wrapped round. -/
def wrap (line : ℤ) : ℤ := if c.height ≤ line then line - c.height else line

/-! ### Lines -/

/-- The loop of `copyLines`, toward lower addresses or toward higher ones. -/
def copyLoop (lower : Bool) : ℕ → ℤ → ℤ → ℤ → Mem → Option Mem
  | 0, _, _, _, _ => none
  | fuel + 1, dst, src, nlines, m =>
      if nlines ≤ 0 then some m
      else
        let src := c.wrap src
        let dst := c.wrap dst
        let bytes := c.width / 8
        if lower then
          let tmp := u32 (c.height - max src dst)
          let tmp := if nlines < tmp then nlines else tmp
          copyLoop lower fuel (u32 (dst + tmp)) (u32 (src + tmp)) (nlines - tmp)
            (moveu (dst * bytes) (src * bytes) (tmp * bytes) m)
        else
          let tmp := i32 (src + nlines - c.height)
          let tmp := if tmp < 1 then i32 (dst + nlines - c.height) else tmp
          if 0 < tmp then
            let nlines := u32 (nlines - tmp)
            copyLoop lower fuel dst src nlines
              (moved c.bpl (u32 (dst + nlines) % c.height * bytes)
                (u32 (src + nlines) % c.height * bytes) (tmp * bytes) m)
          else
            copyLoop lower fuel dst src 0
              (moved c.bpl (dst * bytes) (src * bytes) (nlines * bytes) m)

/-- No call needs more rounds than there are lines to copy. -/
def copyLines (vdst vsrc nlines : ℤ) : Option ConsoleState :=
  (c.copyLoop (vdst < vsrc) (nlines.toNat + 1) (u32 (vdst + c.offset)) (u32 (vsrc + c.offset))
    nlines c.mem).map c.withMem

def clearLines (line nlines : ℤ) : ConsoleState :=
  let line := c.wrap (u32 (line + c.offset))
  let to' := u32 (line * c.width) / 8
  if c.height < u32 (line + nlines) then
    c.withMem (zero 0 (u32 ((nlines - (c.height - line)) * c.width) / 8)
      (zero to' (u32 ((c.height - line) * c.width) / 8) c.mem))
  else c.withMem (zero to' (u32 (nlines * c.width) / 8) c.mem)

def insertLines (line nlines : ℤ) : Option ConsoleState :=
  (if line ≠ 0 then c.copyLines (u32 (line + nlines)) line (u32 (c.height - line - nlines))
    else some (c.withOffset (u16 (if c.offset < nlines then c.offset - nlines + c.height
      else c.offset - nlines)))).map fun c => c.clearLines line nlines

def deleteLines (line nlines : ℤ) : Option ConsoleState :=
  (if line ≠ 0 then c.copyLines line (u32 (line + nlines)) (u32 (c.height - nlines - line))
    else
      let offset := u16 (c.offset + nlines)
      some (c.withOffset (if c.height ≤ offset then offset - c.height else offset))).map
    fun c => c.clearLines (u32 (c.height - nlines)) nlines

/-! ### The lines of a text row -/

/-- One operation for each of `ln` lines from the one at `to` on. -/
def lines (op : ℤ → Mem → Mem) : ℕ → ℤ → Mem → Mem
  | 0, _, m => m
  | ln + 1, to', m => lines op ln (to' + c.width / 8) (op to' m)

/-- The two loops over the lines of a text row: those down to the end of the
bitplane, and those from its beginning on. -/
def textLines (op : ℤ → Mem → Mem) (to' row : ℤ) : ConsoleState :=
  if c.height < row + c.fHeight then
    let above := (c.height - row).toNat
    c.withMem (c.lines op (c.fHeight.toNat - above) 0 (c.lines op above to' c.mem))
  else c.withMem (c.lines op c.fHeight.toNat to' c.mem)

def charClear (crow ccol len : ℤ) : ConsoleState :=
  let crow := c.wrap (u32 (crow + c.offset))
  c.textLines (fun to' => clearBits to' ccol len) (u32 (crow * c.width) / 8) crow

/-- The address of a line as `ichars` and `dchars` compute it, with an int. -/
def rowAddress (row : ℤ) : ℤ := (i32 (row * c.width)).tdiv 8

def ichars (npixels : ℤ) : ConsoleState :=
  if c.col + npixels < c.width then
    let row := c.wrap (c.row + c.offset)
    c.textLines (fun to' => insertbits c.bpl to' (c.col + npixels) c.col
      (c.width - c.col - npixels)) (c.rowAddress row) row
  else c

def dchars (npixels : ℤ) : ConsoleState :=
  if c.col + npixels < c.width then
    let row := c.wrap (c.row + c.offset)
    c.textLines (fun to' => deletebits c.bpl to' c.col (c.col + npixels)
      (c.width - c.col - npixels)) (c.rowAddress row) row
  else c

end ConsoleState

end HydraAmix.Console.Bitplane
