import HydraAmix.Boot.Elf2brel
import HydraAmix.Library.Placement

/-!
# The symbol table in memory

What is read of the entries of a symbol table, and what stores to one entry leave of the
rest of the file. The loops over the table work on one entry at a time, so after each turn
the entries before it are done and the others are as they were.
-/
namespace HydraAmix.Boot.Elf2brel
open Word Placement

/-- What is read of an `Elf32_Sym`. -/
structure Sym where
  st_name : Long
  st_value : Long
  st_size : Long
  st_shndx : BitVec 16
  deriving DecidableEq, Repr

def Elfdata.symAt (e : Elfdata) (a : ℕ) : Sym :=
  ⟨e.longAt a, e.longAt (a + 4), e.longAt (a + 8), e.shortAt (a + 14)⟩

/-- The room that a COMMON symbol asks for, with its alignment in `st_value`. -/
def Sym.common (s : Sym) : Option Request :=
  if s.st_shndx = SHN_COMMON then some ⟨s.st_size.toNat, s.st_value.toNat⟩ else none

theorem Sym.common_some {s : Sym} (h : s.st_shndx = SHN_COMMON) :
    s.common = some ⟨s.st_size.toNat, s.st_value.toNat⟩ := if_pos h

theorem Sym.common_none {s : Sym} (h : s.st_shndx ≠ SHN_COMMON) : s.common = none := if_neg h

/-- The address that a COMMON symbol gets above the end `l`, and the next end. -/
theorem Sym.place {s : Sym} {end_ : Long} {l : ℕ} (hend : end_.toNat = l)
    (ha : ∃ j, s.st_value.toNat = 2 ^ j)
    (h : up s.st_value.toNat l + s.st_size.toNat < 0x100000000) :
    (end_ + (s.st_value - 1)) &&& ~~~(s.st_value - 1) =
        BitVec.ofNat 32 (up s.st_value.toNat l) ∧
      (BitVec.ofNat 32 (up s.st_value.toNat l) + s.st_size).toNat =
        up s.st_value.toNat l + s.st_size.toNat := by
  obtain ⟨j, hj⟩ := ha
  subst hend
  have hup : up s.st_value.toNat end_.toNat < 0x100000000 := by omega
  constructor
  · apply BitVec.eq_of_toNat_eq
    rw [toNat_up hj hup, BitVec.toNat_ofNat, Nat.mod_eq_of_lt hup]
  · rw [BitVec.toNat_add, BitVec.toNat_ofNat, Nat.mod_eq_of_lt hup, Nat.mod_eq_of_lt h]

/-! ### Stores -/

/-- Nothing but the `n` bytes at `a` is different. -/
structure Within (e e' : Elfdata) (a n : ℕ) : Prop where
  size : e'.size = e.size
  data : ∀ x, x < a ∨ a + n ≤ x → e'.data x = e.data x

section
variable {e e' e'' : Elfdata} {a b n m : ℕ}

theorem Within.refl (e : Elfdata) (a n : ℕ) : Within e e a n := ⟨rfl, fun _ _ => rfl⟩

theorem Within.trans (h : Within e e' a n) (h' : Within e' e'' a n) : Within e e'' a n :=
  ⟨h'.size.trans h.size, fun x hx => (h'.data x hx).trans (h.data x hx)⟩

theorem Within.mono (h : Within e e' a n) (ha : b ≤ a) (hn : a + n ≤ b + m) : Within e e' b m :=
  ⟨h.size, fun x hx => h.data x (by omega)⟩

theorem Within.longAt (h : Within e e' a n) (hb : b + 4 ≤ a ∨ a + n ≤ b) :
    e'.longAt b = e.longAt b := by
  unfold Elfdata.longAt
  rw [h.data b (by omega), h.data (b + 1) (by omega), h.data (b + 2) (by omega),
    h.data (b + 3) (by omega)]

theorem Within.shortAt (h : Within e e' a n) (hb : b + 2 ≤ a ∨ a + n ≤ b) :
    e'.shortAt b = e.shortAt b := by
  unfold Elfdata.shortAt
  rw [h.data b (by omega), h.data (b + 1) (by omega)]

theorem Within.symAt (h : Within e e' a n) (hb : b + 16 ≤ a ∨ a + n ≤ b) :
    e'.symAt b = e.symAt b := by
  unfold Elfdata.symAt
  rw [h.longAt (b := b) (by omega), h.longAt (b := b + 4) (by omega),
    h.longAt (b := b + 8) (by omega), h.shortAt (b := b + 14) (by omega)]

theorem store_ok (bytes : List Byte) (h : a + bytes.length ≤ e.size) :
    ∃ e', e.store a bytes = .ok e' ∧ Within e e' a bytes.length ∧
      ∀ i (hi : i < bytes.length), e'.data (a + i) = bytes[i] := by
  refine ⟨_, if_pos h, ⟨rfl, fun x hx => ?_⟩, fun i hi => ?_⟩
  · change (if a ≤ x then (bytes[x - a]?).getD (e.data x) else e.data x) = e.data x
    split_ifs with hax
    · rw [List.getElem?_eq_none (by omega), Option.getD_none]
    · rfl
  · change (if a ≤ a + i then (bytes[a + i - a]?).getD (e.data (a + i)) else e.data (a + i)) = _
    rw [if_pos (Nat.le_add_right a i), Nat.add_sub_cancel_left, List.getElem?_eq_getElem hi,
      Option.getD_some]

theorem setLong_ok (v : Long) (h : a + 4 ≤ e.size) :
    ∃ e', e.setLong a v = .ok e' ∧ Within e e' a 4 ∧ e'.longAt a = v := by
  obtain ⟨e', he, hwithin, hdata⟩ :=
    store_ok [byte v 3, byte v 2, byte v 1, byte v 0] h
  refine ⟨e', he, hwithin, ?_⟩
  have h0 : e'.data a = byte v 3 := hdata 0 (by simp)
  have h1 : e'.data (a + 1) = byte v 2 := hdata 1 (by simp)
  have h2 : e'.data (a + 2) = byte v 1 := hdata 2 (by simp)
  have h3 : e'.data (a + 3) = byte v 0 := hdata 3 (by simp)
  rw [Elfdata.longAt, h0, h1, h2, h3, long_byte]

theorem setShort_ok (v : BitVec 16) (h : a + 2 ≤ e.size) :
    ∃ e', e.setShort a v = .ok e' ∧ Within e e' a 2 ∧ e'.shortAt a = v := by
  obtain ⟨e', he, hwithin, hdata⟩ :=
    store_ok [(v >>> 8).setWidth 8, v.setWidth 8] h
  refine ⟨e', he, hwithin, ?_⟩
  have h0 : e'.data a = (v >>> 8).setWidth 8 := hdata 0 (by simp)
  have h1 : e'.data (a + 1) = v.setWidth 8 := hdata 1 (by simp)
  rw [Elfdata.shortAt, h0, h1]
  refine BitVec.eq_of_getLsbD_eq fun i hi => ?_
  rw [Word.short, BitVec.getLsbD_append]
  by_cases hlow : i < 8
  · simp [hlow]
  · simp [hlow, show i - 8 < 8 by omega, show 8 + (i - 8) = i by omega]

/-- The stores to `st_shndx` and `st_value` of one entry. -/
theorem setSym_ok (shndx : BitVec 16) (value : Long) (h : a + 16 ≤ e.size) :
    ∃ e₁ e', e.setShort (a + 14) shndx = .ok e₁ ∧ e₁.setLong (a + 4) value = .ok e' ∧
      Within e e₁ (a + 14) 2 ∧ Within e e' a 16 ∧
      e'.symAt a = { e.symAt a with st_value := value, st_shndx := shndx } := by
  obtain ⟨e₁, he₁, hw₁, hv₁⟩ := setShort_ok (e := e) (a := a + 14) shndx (by omega)
  obtain ⟨e', he', hw', hv'⟩ := setLong_ok (e := e₁) (a := a + 4) value (by rw [hw₁.size]; omega)
  refine ⟨e₁, e', he₁, he', hw₁, (hw₁.mono (by omega) (by omega)).trans
    (hw'.mono (by omega) (by omega)), ?_⟩
  unfold Elfdata.symAt
  rw [hv', hw'.shortAt (b := a + 14) (by omega), hv₁, hw'.longAt (b := a) (by omega),
    hw₁.longAt (b := a) (by omega), hw'.longAt (b := a + 8) (by omega),
    hw₁.longAt (b := a + 8) (by omega)]

end

/-! ### Names -/

/-- Whether the string at `a` is `s` is read from the bytes up to its end. -/
theorem strcmp_congr {e e' : Elfdata} {p : ℕ} (hp : p < e.size) (h0 : e.data p = 0)
    (hsize : e'.size = e.size) {s : List Byte} (hs : ∀ c ∈ s, c ≠ 0) {a : ℕ} (ha : a ≤ p)
    (hdata : ∀ x, a ≤ x → x ≤ p → e'.data x = e.data x) :
    (∃ b, e.strcmp s a = .ok b) ∧ e'.strcmp s a = e.strcmp s a := by
  have hbyte : ∀ x, a ≤ x → x ≤ p → e.byte x = .ok (e.data x) ∧ e'.byte x = .ok (e.data x) := by
    intro x hx hxp
    refine ⟨if_pos (by omega), ?_⟩
    rw [← hdata x hx hxp]
    exact if_pos (by omega)
  induction s generalizing a with
  | nil =>
      obtain ⟨h, h'⟩ := hbyte a (Nat.le_refl a) ha
      unfold Elfdata.strcmp
      rw [h, h']
      exact ⟨⟨_, rfl⟩, rfl⟩
  | cons c s ih =>
      obtain ⟨h, h'⟩ := hbyte a (Nat.le_refl a) ha
      unfold Elfdata.strcmp
      rw [h, h']
      change (∃ b, (if e.data a = c then e.strcmp s (a + 1) else .ok false) = .ok b) ∧
        (if e.data a = c then e'.strcmp s (a + 1) else .ok false) =
          if e.data a = c then e.strcmp s (a + 1) else .ok false
      by_cases hc : e.data a = c
      · rw [if_pos hc, if_pos hc]
        have hne : a ≠ p := by
          rintro rfl
          exact hs c List.mem_cons_self (hc.symm.trans h0)
        exact ih (fun d hd => hs d (List.mem_cons_of_mem c hd)) (by omega)
          (fun x hx => hdata x (by omega)) (fun x hx => hbyte x (by omega))
      · rw [if_neg hc, if_neg hc]
        exact ⟨⟨_, rfl⟩, rfl⟩

/-! ### Loops over the table -/

/-- A loop whose turns keep an invariant ends, and with it. -/
theorem foldlM_range_ok {ε σ : Type} {f : σ → ℕ → Except ε σ} {n : ℕ} (Inv : ℕ → σ → Prop)
    (hturn : ∀ k < n, ∀ s, Inv k s → ∃ s', f s k = .ok s' ∧ Inv (k + 1) s') {s : σ}
    (hs : Inv 0 s) : ∃ s', (List.range n).foldlM f s = .ok s' ∧ Inv n s' := by
  induction n with
  | zero => exact ⟨s, rfl, hs⟩
  | succ n ih =>
      obtain ⟨t, ht, hinv⟩ := ih fun k hk => hturn k (Nat.lt_succ_of_lt hk)
      obtain ⟨u, hu, hinv'⟩ := hturn n (Nat.lt_succ_self n) t hinv
      refine ⟨u, ?_, hinv'⟩
      rw [List.range_succ, List.foldlM_append, ht]
      change (f t n >>= pure) = .ok u
      rw [hu]
      rfl

end HydraAmix.Boot.Elf2brel
