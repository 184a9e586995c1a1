import HydraAmix.Boot.SymbolTable

/-!
# COMMON symbols of a file that is relocated in memory

`allocbss` gives the COMMON symbols room behind the `.bss` section, which grows with them.
The symbol table and the section headers are in the file in memory, at offsets from
`elfdata`; `COMPLAIN` is an alert that does not return.
-/
namespace HydraAmix.Boot.Rel
open Word Placement
open Elf2brel (Elfdata Sym Within SHN_ABS SHN_COMMON SHDR SYM)

/-- The size of `Elf32_Ehdr`. -/
abbrev EHDR : ℕ := 52

inductive Halt where
  | complain
  /-- An access outside the file, and a division by zero. -/
  | fault | divide
  deriving DecidableEq, Repr

abbrev Prog := Except Halt

def ofFile {α : Type} : Elf2brel.Prog α → Prog α
  | .ok a => .ok a
  | .error _ => .error .fault

/-- `struct globals`, as far as it is read here. A section header is named by its index, and
`bhdr` may be NULL. -/
structure Globals where
  elf : Elfdata
  /-- `Shdrs` -/
  shdrs : ℕ
  bhdr : Option ℕ
  symhdr : ℕ
  end_ : Long

namespace Globals

variable (gbls : Globals)

def short (a : ℕ) : Prog (BitVec 16) := ofFile (gbls.elf.short a)

def long (a : ℕ) : Prog Long := ofFile (gbls.elf.long a)

def setShort (a : ℕ) (v : BitVec 16) : Prog Globals := do
  return { gbls with elf := ← ofFile (gbls.elf.setShort a v) }

def setLong (a : ℕ) (v : Long) : Prog Globals := do
  return { gbls with elf := ← ofFile (gbls.elf.setLong a v) }

/-- The address of a section header. -/
def header (index : ℕ) : ℕ := gbls.shdrs + SHDR * index

end Globals

/-- The value of a symbol, with the section's address or absolute. -/
def symvaddr (gbls : Globals) (sym : ℕ) : Prog Long := do
  let st_shndx ← gbls.short (sym + 14)
  let e_shnum ← gbls.short 48
  if st_shndx > 0 ∧ st_shndx < e_shnum then
    let sh_addr ← gbls.long (gbls.header st_shndx.toNat + 12)
    if sh_addr = 0 then .error .complain else return sh_addr + (← gbls.long (sym + 4))
  else if st_shndx = SHN_ABS then gbls.long (sym + 4)
  else .error .complain

/-- One turn of the loop of `allocbss`. -/
def allocSym (syms : ℕ) (gbls : Globals) (symidx : ℕ) : Prog Globals := do
  let sym := syms + SYM * symidx
  if (← gbls.short (sym + 14)) = SHN_COMMON then
    match gbls.bhdr with
    | none => .error .complain
    | some bhdr =>
      let gbls ← gbls.setShort (sym + 14) (BitVec.ofNat 16 bhdr)
      let vaddr := (← gbls.long (gbls.header bhdr + 12)) + (← gbls.long (gbls.header bhdr + 20))
      let vaddr := vaddr + ((← gbls.long (sym + 4)) - 1)
      let vaddr := vaddr &&& ~~~((← gbls.long (sym + 4)) - 1)
      let gbls ← gbls.setLong (sym + 4) (vaddr - (← gbls.long (gbls.header bhdr + 12)))
      let gbls := { gbls with end_ := vaddr + (← gbls.long (sym + 8)) }
      gbls.setLong (gbls.header bhdr + 20)
        (gbls.end_ - (← gbls.long (gbls.header bhdr + 12)))
  else return gbls

def allocbss (gbls : Globals) : Prog Globals := do
  let sh_size ← gbls.long (gbls.header gbls.symhdr + 20)
  let sh_entsize ← gbls.long (gbls.header gbls.symhdr + 36)
  if sh_entsize = 0 then .error .divide
  else
    let syms := (← gbls.long (gbls.header gbls.symhdr + 16)).toNat
    (List.range (sh_size / sh_entsize).toNat).foldlM (allocSym syms) gbls

/-! ### The table and the section -/

namespace Globals

section
variable (gbls : Globals) (bss : ℕ)

def syms : ℕ := (gbls.elf.longAt (gbls.header gbls.symhdr + 16)).toNat

def nsyms : ℕ :=
  (gbls.elf.longAt (gbls.header gbls.symhdr + 20) /
    gbls.elf.longAt (gbls.header gbls.symhdr + 36)).toNat

def symAt (k : ℕ) : Sym := gbls.elf.symAt (gbls.syms + SYM * k)

def request (k : ℕ) : Option Request := (gbls.symAt k).common

def sh_addr (index : ℕ) : Long := gbls.elf.longAt (gbls.header index + 12)

def sh_size (index : ℕ) : Long := gbls.elf.longAt (gbls.header index + 20)

/-- The end of `.bss`. -/
def bssEnd : ℕ := (gbls.sh_addr bss).toNat + (gbls.sh_size bss).toNat

/-- The end of the COMMON symbols among the first `k`. -/
def level (k : ℕ) : ℕ := Placement.level (gbls.bssEnd bss) gbls.request k

def e_shnum : ℕ := (gbls.elf.shortAt 48).toNat

/-- The section headers and the symbol table are in the file, behind the ELF header and apart
from each other. -/
structure Inside : Prop where
  headers : gbls.header gbls.e_shnum ≤ gbls.elf.size
  symhdr : gbls.symhdr < gbls.e_shnum
  bss : ∀ bss, gbls.bhdr = some bss → bss < gbls.e_shnum
  entsize : gbls.elf.longAt (gbls.header gbls.symhdr + 36) ≠ 0
  table : gbls.syms + SYM * gbls.nsyms ≤ gbls.elf.size
  ehdr : EHDR ≤ gbls.shdrs ∧ EHDR ≤ gbls.syms
  apart : gbls.header gbls.e_shnum ≤ gbls.syms ∨ gbls.syms + SYM * gbls.nsyms ≤ gbls.shdrs

/-- The alignments are powers of two, and the last end is an address. -/
structure Fits : Prop where
  align : ∀ k < gbls.nsyms, ∀ r, gbls.request k = some r → ∃ j, r.align = 2 ^ j
  small : gbls.level bss gbls.nsyms < 0x100000000

/-- The entry that `allocbss` leaves of a symbol. -/
def placed (k : ℕ) : Sym :=
  let s := gbls.symAt k
  if s.st_shndx = SHN_COMMON then
    { s with
      st_value := BitVec.ofNat 32 (up s.st_value.toNat (gbls.level bss k)) - gbls.sh_addr bss
      st_shndx := BitVec.ofNat 16 bss }
  else s

/-- After `k` turns of the loop. -/
structure Done (k : ℕ) (gbls' : Globals) : Prop where
  shdrs : gbls'.shdrs = gbls.shdrs
  bhdr : gbls'.bhdr = gbls.bhdr
  size : gbls'.elf.size = gbls.elf.size
  data : ∀ x, x < gbls.syms ∨ gbls.syms + SYM * gbls.nsyms ≤ x →
    x < gbls.header bss + 20 ∨ gbls.header bss + 24 ≤ x → gbls'.elf.data x = gbls.elf.data x
  done : ∀ j < k, gbls'.elf.symAt (gbls.syms + SYM * j) = gbls.placed bss j
  rest : ∀ j, k ≤ j → j < gbls.nsyms → gbls'.elf.symAt (gbls.syms + SYM * j) = gbls.symAt j
  level : (gbls.sh_addr bss + gbls'.elf.longAt (gbls.header bss + 20)).toNat = gbls.level bss k
  end_ : (∃ j < k, (gbls.symAt j).st_shndx = SHN_COMMON) → gbls'.end_.toNat = gbls.level bss k

end

variable {gbls : Globals} {bss : ℕ}

theorem header_lt (gbls : Globals) {i n : ℕ} (h : i < n) :
    gbls.header i + 40 ≤ gbls.header n ∧ gbls.shdrs ≤ gbls.header i := by
  unfold header SHDR
  omega

theorem Inside.bssHeader (h : gbls.Inside) (hb : gbls.bhdr = some bss) :
    gbls.header bss + 40 ≤ gbls.elf.size ∧
      (gbls.header bss + 40 ≤ gbls.syms ∨ gbls.syms + 16 * gbls.nsyms ≤ gbls.header bss) := by
  have hlt := gbls.header_lt (h.bss bss hb)
  have hsize := h.headers
  have hapart := h.apart
  unfold SYM at hapart
  omega

theorem Fits.pos (h : gbls.Fits bss) :
    ∀ k < gbls.nsyms, ∀ r, gbls.request k = some r → 0 < r.align := by
  intro k hk r hr
  obtain ⟨j, hj⟩ := h.align k hk r hr
  rw [hj]
  exact Nat.two_pow_pos j

theorem Fits.level_lt (h : gbls.Fits bss) {k : ℕ} (hk : k ≤ gbls.nsyms) :
    gbls.level bss k < 0x100000000 :=
  Nat.lt_of_le_of_lt (level_le h.pos hk (Nat.le_refl _)) h.small

theorem long_ok {a : ℕ} (h : a + 4 ≤ gbls.elf.size) :
    gbls.long a = .ok (gbls.elf.longAt a) := by
  unfold long
  rw [Elf2brel.long_ok h]
  rfl

theorem short_ok {a : ℕ} (h : a + 2 ≤ gbls.elf.size) :
    gbls.short a = .ok (gbls.elf.shortAt a) := by
  unfold short
  rw [Elf2brel.short_ok h]
  rfl

theorem bind_eq {α β : Type} {x : Prog α} {a : α} (h : x = .ok a) (f : α → Prog β) :
    x >>= f = f a := by
  rw [h]
  rfl

theorem long_eq {a : ℕ} {v : Long} (h : a + 4 ≤ gbls.elf.size) (hv : gbls.elf.longAt a = v) :
    gbls.long a = .ok v := by
  rw [long_ok h, hv]

theorem Fits.common (h : gbls.Fits bss) {k : ℕ} (hk : k < gbls.nsyms)
    (hc : (gbls.symAt k).st_shndx = SHN_COMMON) :
    (∃ j, (gbls.symAt k).st_value.toNat = 2 ^ j) ∧
      gbls.level bss (k + 1) =
        up (gbls.symAt k).st_value.toNat (gbls.level bss k) + (gbls.symAt k).st_size.toNat ∧
      gbls.level bss (k + 1) < 0x100000000 := by
  have hr : gbls.request k = some ⟨(gbls.symAt k).st_size.toNat, (gbls.symAt k).st_value.toNat⟩ :=
    Sym.common_some hc
  exact ⟨h.align k hk _ hr, level_some hr, h.level_lt (Nat.succ_le_of_lt hk)⟩

theorem setShort_ok {a : ℕ} {v : BitVec 16} {e : Elfdata} (h : gbls.elf.setShort a v = .ok e) :
    gbls.setShort a v = .ok { gbls with elf := e } := by
  unfold setShort
  rw [h]
  rfl

theorem setLong_ok {a : ℕ} {v : Long} {e : Elfdata} (h : gbls.elf.setLong a v = .ok e) :
    gbls.setLong a v = .ok { gbls with elf := e } := by
  unfold setLong
  rw [h]
  rfl

/-- A turn at a COMMON symbol. -/
theorem allocSym_common (hb : gbls.bhdr = some bss) (hin : gbls.Inside)
    (hf : gbls.Fits bss) {k : ℕ} (hk : k < gbls.nsyms)
    (hc : (gbls.symAt k).st_shndx = SHN_COMMON) {gbls' : Globals}
    (h : gbls.Done bss k gbls') :
    ∃ gbls'', allocSym gbls.syms gbls' k = .ok gbls'' ∧ gbls.Done bss (k + 1) gbls'' := by
  obtain ⟨elf, shdrs, bhdr, symhdr, end_⟩ := gbls'
  have hshdrs : shdrs = gbls.shdrs := h.shdrs
  have hbhdr : bhdr = some bss := h.bhdr.trans hb
  subst hshdrs hbhdr
  have hsize : elf.size = gbls.elf.size := h.size
  have hentry : elf.symAt (gbls.syms + 16 * k) = gbls.symAt k := h.rest k (Nat.le_refl k) hk
  have htable : gbls.syms + 16 * gbls.nsyms ≤ gbls.elf.size := hin.table
  obtain ⟨hheader, hapart⟩ := hin.bssHeader hb
  have haddr : elf.longAt (gbls.header bss + 12) = gbls.sh_addr bss := by
    have hdata : ∀ i < 4, elf.data (gbls.header bss + 12 + i) =
        gbls.elf.data (gbls.header bss + 12 + i) := fun i hi =>
      h.data _ (by unfold SYM; omega) (by omega)
    unfold Globals.sh_addr Elfdata.longAt
    rw [hdata 1 (by decide), hdata 2 (by decide), hdata 3 (by decide)]
    exact congrArg (Word.long · _ _ _) (hdata 0 (by decide))
  obtain ⟨hpow, hlevel, hsmall⟩ := hf.common hk hc
  obtain ⟨hplace, hend⟩ := Sym.place h.level hpow (hlevel ▸ hsmall)
  -- The entry is stored to, then the size of the section.
  obtain ⟨e₁, e₂, he₁, he₂, hw₁, hw₂, hs₂⟩ := Elf2brel.setSym_ok (e := elf)
    (a := gbls.syms + 16 * k) (BitVec.ofNat 16 bss)
    (BitVec.ofNat 32 (up (gbls.symAt k).st_value.toNat (gbls.level bss k)) - gbls.sh_addr bss)
    (by omega)
  obtain ⟨e₃, he₃, hw₃, hv₃⟩ := Elf2brel.setLong_ok (e := e₂) (a := gbls.header bss + 20)
    (BitVec.ofNat 32 (up (gbls.symAt k).st_value.toNat (gbls.level bss k)) +
      (gbls.symAt k).st_size - gbls.sh_addr bss) (by rw [hw₂.size]; omega)
  have hshndx : elf.shortAt (gbls.syms + 16 * k + 14) = SHN_COMMON :=
    (congrArg Sym.st_shndx hentry).trans hc
  have haddr₁ : e₁.longAt (gbls.header bss + 12) = gbls.sh_addr bss :=
    (hw₁.longAt (by omega)).trans haddr
  have hsize₁ : e₁.longAt (gbls.header bss + 20) = elf.longAt (gbls.header bss + 20) :=
    hw₁.longAt (by omega)
  have hvalue₁ : e₁.longAt (gbls.syms + 16 * k + 4) = (gbls.symAt k).st_value :=
    (hw₁.longAt (by omega)).trans (congrArg Sym.st_value hentry)
  have hstsize₂ : e₂.longAt (gbls.syms + 16 * k + 8) = (gbls.symAt k).st_size := by
    have hs : (e₂.symAt (gbls.syms + 16 * k)).st_size =
        (elf.symAt (gbls.syms + 16 * k)).st_size := by
      rw [hs₂]
    exact hs.trans (congrArg Sym.st_size hentry)
  have haddr₂ : e₂.longAt (gbls.header bss + 12) = gbls.sh_addr bss :=
    (hw₂.longAt (by omega)).trans haddr
  refine ⟨⟨e₃, gbls.shdrs, some bss, symhdr,
    BitVec.ofNat 32 (up (gbls.symAt k).st_value.toNat (gbls.level bss k)) +
      (gbls.symAt k).st_size⟩, ?_, ?_⟩
  · have hlong₁ : ∀ a v, a + 4 ≤ gbls.elf.size → e₁.longAt a = v →
        (⟨e₁, gbls.shdrs, some bss, symhdr, end_⟩ : Globals).long a = .ok v :=
      fun a v ha hv => long_eq (ha.trans_eq (hw₁.size.trans hsize).symm) hv
    have hlong₂ : ∀ a v c, a + 4 ≤ gbls.elf.size → e₂.longAt a = v →
        (⟨e₂, gbls.shdrs, some bss, symhdr, c⟩ : Globals).long a = .ok v :=
      fun a v c ha hv => long_eq (ha.trans_eq (hw₂.size.trans hsize).symm) hv
    have hentry' : (⟨elf, gbls.shdrs, some bss, symhdr, end_⟩ : Globals).short
        (gbls.syms + 16 * k + 14) = .ok SHN_COMMON :=
      (short_ok ((show _ ≤ gbls.elf.size by omega).trans_eq hsize.symm)).trans
        (congrArg Except.ok hshndx)
    unfold allocSym
    refine (bind_eq hentry' _).trans ?_
    rw [if_pos rfl]
    refine (bind_eq (setShort_ok he₁) _).trans ?_
    refine (bind_eq (hlong₁ _ _ (by omega) haddr₁) _).trans ?_
    refine (bind_eq (hlong₁ _ _ (by omega) hsize₁) _).trans ?_
    refine (bind_eq (hlong₁ _ _ (by omega) hvalue₁) _).trans ?_
    refine (bind_eq (hlong₁ _ _ (by omega) hvalue₁) _).trans ?_
    refine (bind_eq (hlong₁ _ _ (by omega) haddr₁) _).trans ?_
    rw [hplace]
    refine (bind_eq (setLong_ok he₂) _).trans ?_
    refine (bind_eq (hlong₂ _ _ _ (by omega) hstsize₂) _).trans ?_
    refine (bind_eq (hlong₂ _ _ _ (by omega) haddr₂) _).trans ?_
    exact setLong_ok he₃
  · have hframe : ∀ j < gbls.nsyms, j ≠ k → e₃.symAt (gbls.syms + 16 * j) =
        elf.symAt (gbls.syms + 16 * j) := fun j hj hjk =>
      (hw₃.symAt (by omega)).trans (hw₂.symAt (by omega))
    refine ⟨rfl, hb.symm, hw₃.size.trans (hw₂.size.trans hsize), fun x hx hx' => ?_,
      fun j hj => ?_, fun j hkj hj => ?_, ?_, fun _ => hend.trans hlevel.symm⟩
    · rw [← h.data x hx hx']
      unfold SYM at hx
      exact (hw₃.data x (by omega)).trans (hw₂.data x (by omega))
    · rcases Nat.lt_succ_iff_lt_or_eq.mp hj with hlt | rfl
      · exact (hframe j (by omega) (by omega)).trans (h.done j hlt)
      · have hplaced : gbls.placed bss j = { gbls.symAt j with
            st_value := BitVec.ofNat 32 (up (gbls.symAt j).st_value.toNat (gbls.level bss j)) -
              gbls.sh_addr bss
            st_shndx := BitVec.ofNat 16 bss } := if_pos hc
        rw [hplaced]
        refine (hw₃.symAt (b := gbls.syms + 16 * j) (by omega)).trans (hs₂.trans ?_)
        rw [hentry]
    · exact (hframe j hj (by omega)).trans (h.rest j (by omega) hj)
    · change (gbls.sh_addr bss + e₃.longAt (gbls.header bss + 20)).toNat = _
      rw [hv₃, BitVec.add_comm, BitVec.sub_add_cancel]
      exact hend.trans hlevel.symm

theorem allocSym_turn (hb : gbls.bhdr = some bss) (hin : gbls.Inside)
    (hf : gbls.Fits bss) {k : ℕ} (hk : k < gbls.nsyms) {gbls' : Globals}
    (h : gbls.Done bss k gbls') :
    ∃ gbls'', allocSym gbls.syms gbls' k = .ok gbls'' ∧ gbls.Done bss (k + 1) gbls'' := by
  by_cases hc : (gbls.symAt k).st_shndx = SHN_COMMON
  · exact allocSym_common hb hin hf hk hc h
  · have hentry := h.rest k (Nat.le_refl k) hk
    have hsize := h.size
    have hshndx : gbls'.short (gbls.syms + SYM * k + 14) = .ok (gbls.symAt k).st_shndx := by
      rw [← hentry]
      refine short_ok ?_
      have htable := hin.table
      unfold SYM at htable ⊢
      omega
    have hlevel : gbls.level bss (k + 1) = gbls.level bss k := level_none (Sym.common_none hc)
    refine ⟨gbls', ?_, h.shdrs, h.bhdr, h.size, h.data, fun j hj => ?_,
      fun j hkj hj => h.rest j (by omega) hj, h.level.trans hlevel.symm, ?_⟩
    · unfold allocSym
      refine (bind_eq hshndx _).trans ?_
      rw [if_neg hc]
      rfl
    · rcases Nat.lt_succ_iff_lt_or_eq.mp hj with hlt | rfl
      · exact h.done j hlt
      · rw [hentry]
        exact (if_neg hc).symm
    · rintro ⟨j, hj, hcj⟩
      rw [hlevel]
      rcases Nat.lt_succ_iff_lt_or_eq.mp hj with hlt | rfl
      · exact h.end_ ⟨j, hlt, hcj⟩
      · exact absurd hcj hc

theorem allocbss_eq (hin : gbls.Inside) :
    allocbss gbls = (List.range gbls.nsyms).foldlM (allocSym gbls.syms) gbls := by
  have hheader := (gbls.header_lt hin.symhdr).1.trans hin.headers
  unfold allocbss
  refine (bind_eq (long_ok (by omega)) _).trans ?_
  refine (bind_eq (long_ok (by omega)) _).trans ?_
  rw [if_neg hin.entsize]
  exact bind_eq (long_ok (by omega)) _

/-- `allocbss` leaves the entries that it has to, and the last end. -/
theorem allocbss_done (hb : gbls.bhdr = some bss) (hin : gbls.Inside) (hf : gbls.Fits bss) :
    ∃ gbls', allocbss gbls = .ok gbls' ∧ gbls.Done bss gbls.nsyms gbls' := by
  have hstart : gbls.Done bss 0 gbls := by
    refine ⟨rfl, rfl, rfl, fun _ _ _ => rfl, fun _ hj => absurd hj (Nat.not_lt_zero _),
      fun _ _ _ => rfl, ?_, fun ⟨_, hj, _⟩ => absurd hj (Nat.not_lt_zero _)⟩
    have hsmall : gbls.bssEnd bss < 0x100000000 := hf.level_lt (Nat.zero_le _)
    change (gbls.sh_addr bss + gbls.sh_size bss).toNat = gbls.bssEnd bss
    rw [BitVec.toNat_add]
    exact Nat.mod_eq_of_lt hsmall
  obtain ⟨gbls', hrun, hdone⟩ := Elf2brel.foldlM_range_ok (gbls.Done bss)
    (fun _ hk _ h => allocSym_turn hb hin hf hk h) hstart
  exact ⟨gbls', (allocbss_eq hin).trans hrun, hdone⟩

theorem short_shndx (hin : gbls.Inside) {k : ℕ} (hk : k < gbls.nsyms) :
    gbls.short (gbls.syms + SYM * k + 14) = .ok (gbls.symAt k).st_shndx := by
  refine short_ok ?_
  have htable := hin.table
  unfold SYM at htable ⊢
  omega

/-- Without `.bss` the first COMMON symbol stops the program. -/
theorem allocbss_missing (hb : gbls.bhdr = none) (hin : gbls.Inside)
    (hc : ∃ k < gbls.nsyms, (gbls.symAt k).st_shndx = SHN_COMMON) :
    allocbss gbls = .error .complain := by
  have hrun : ∀ n ≤ gbls.nsyms, (List.range n).foldlM (allocSym gbls.syms) gbls =
      if ∃ k < n, (gbls.symAt k).st_shndx = SHN_COMMON then .error .complain else .ok gbls := by
    intro n hn
    induction n with
    | zero => exact (if_neg fun ⟨k, hk, _⟩ => Nat.not_lt_zero k hk).symm
    | succ n ih =>
        rw [List.range_succ, List.foldlM_append, ih (Nat.le_of_succ_le hn)]
        by_cases hbefore : ∃ k < n, (gbls.symAt k).st_shndx = SHN_COMMON
        · obtain ⟨k, hk, hck⟩ := hbefore
          rw [if_pos ⟨k, hk, hck⟩, if_pos ⟨k, Nat.lt_succ_of_lt hk, hck⟩]
          rfl
        · rw [if_neg hbefore]
          change (allocSym gbls.syms gbls n >>= pure) = _
          have hturn : allocSym gbls.syms gbls n =
              if (gbls.symAt n).st_shndx = SHN_COMMON then .error .complain else .ok gbls := by
            unfold allocSym
            refine (bind_eq (short_shndx hin hn) _).trans ?_
            rw [hb]
            rfl
          rw [hturn]
          by_cases hcn : (gbls.symAt n).st_shndx = SHN_COMMON
          · rw [if_pos hcn, if_pos ⟨n, Nat.lt_succ_self n, hcn⟩]
            rfl
          · rw [if_neg hcn, if_neg]
            · rfl
            · rintro ⟨k, hk, hck⟩
              rcases Nat.lt_succ_iff_lt_or_eq.mp hk with hlt | rfl
              · exact hbefore ⟨k, hlt, hck⟩
              · exact hcn hck
  rw [allocbss_eq hin, hrun _ (Nat.le_refl _), if_pos hc]

/-! ### Where the symbols are -/

theorem short_same {gbls' : Globals} (hsize : gbls'.elf.size = gbls.elf.size) {a : ℕ}
    (h : gbls'.elf.shortAt a = gbls.elf.shortAt a) : gbls'.short a = gbls.short a := by
  unfold short Elfdata.short
  rw [hsize, h]

theorem long_same {gbls' : Globals} (hsize : gbls'.elf.size = gbls.elf.size) {a : ℕ}
    (h : gbls'.elf.longAt a = gbls.elf.longAt a) : gbls'.long a = gbls.long a := by
  unfold long Elfdata.long
  rw [hsize, h]

/-- The headers are as they were, but for the size of `.bss`. -/
theorem Done.sh_addr (hin : gbls.Inside) {n : ℕ} {gbls' : Globals}
    (h : gbls.Done bss n gbls') {index : ℕ} (hi : index < gbls.e_shnum) :
    gbls'.sh_addr index = gbls.sh_addr index := by
  have hlt := gbls.header_lt hi
  have hapart := hin.apart
  have hbss : gbls.header index + 16 ≤ gbls.header bss + 20 ∨
      gbls.header bss + 24 ≤ gbls.header index + 12 := by
    unfold header SHDR
    omega
  have hheader : gbls'.header index = gbls.header index := by
    unfold header
    rw [h.shdrs]
  have hdata : ∀ i < 4, gbls'.elf.data (gbls.header index + 12 + i) =
      gbls.elf.data (gbls.header index + 12 + i) := fun i hi =>
    h.data _ (by omega) (by omega)
  unfold Globals.sh_addr Elfdata.longAt
  rw [hheader, hdata 1 (by decide), hdata 2 (by decide), hdata 3 (by decide)]
  exact congrArg (Word.long · _ _ _) (hdata 0 (by decide))

theorem Done.e_shnum (hin : gbls.Inside) {n : ℕ} {gbls' : Globals}
    (h : gbls.Done bss n gbls') : gbls'.elf.shortAt 48 = gbls.elf.shortAt 48 := by
  obtain ⟨hshdrs, hsyms⟩ := hin.ehdr
  have hheader : gbls.shdrs ≤ gbls.header bss := Nat.le_add_right _ _
  unfold EHDR at hshdrs hsyms
  unfold Elfdata.shortAt
  rw [h.data 48 (by omega) (by omega), h.data (48 + 1) (by omega) (by omega)]

/-- Every symbol but the COMMON ones keeps its value. -/
theorem symvaddr_same (hin : gbls.Inside) {gbls' : Globals}
    (h : gbls.Done bss gbls.nsyms gbls') {k : ℕ} (hk : k < gbls.nsyms)
    (hc : (gbls.symAt k).st_shndx ≠ SHN_COMMON) :
    symvaddr gbls' (gbls.syms + SYM * k) = symvaddr gbls (gbls.syms + SYM * k) := by
  have hentry : gbls'.elf.symAt (gbls.syms + SYM * k) = gbls.elf.symAt (gbls.syms + SYM * k) :=
    (h.done k hk).trans (if_neg hc)
  have htable := hin.table
  have hsym : gbls.syms + SYM * k + 16 ≤ gbls.elf.size := by
    unfold SYM at htable ⊢
    omega
  have hfile : 48 + 2 ≤ gbls.elf.size := by
    have hehdr := hin.ehdr.2
    unfold EHDR at hehdr
    omega
  have hshort : gbls'.short (gbls.syms + SYM * k + 14) = gbls.short (gbls.syms + SYM * k + 14) :=
    short_same h.size (congrArg Sym.st_shndx hentry)
  have hnum : gbls'.short 48 = gbls.short 48 := short_same h.size (h.e_shnum hin)
  have hvalue : gbls'.long (gbls.syms + SYM * k + 4) = gbls.long (gbls.syms + SYM * k + 4) :=
    long_same h.size (congrArg Sym.st_value hentry)
  unfold symvaddr
  rw [hshort, hnum, hvalue, short_ok (by omega), short_ok hfile]
  change (if _ then _ else _) = (if _ then _ else _)
  generalize gbls.elf.shortAt (gbls.syms + SYM * k + 14) = shndx
  by_cases hbound : shndx > 0 ∧ shndx < gbls.elf.shortAt 48
  · have hindex : shndx.toNat < gbls.e_shnum := hbound.2
    have hheader : gbls'.header shndx.toNat = gbls.header shndx.toNat := by
      unfold header
      rw [h.shdrs]
    have haddr : gbls'.long (gbls'.header shndx.toNat + 12) =
        gbls.long (gbls.header shndx.toNat + 12) := by
      have hsame := h.sh_addr hin hindex
      unfold Globals.sh_addr at hsame
      rw [hheader] at hsame ⊢
      exact long_same h.size hsame
    rw [if_pos hbound, if_pos hbound, haddr]
  · rw [if_neg hbound, if_neg hbound]

/-- The address that a symbol has in its section. -/
def address (sym : Sym) : Long := gbls.sh_addr sym.st_shndx.toNat + sym.st_value

end Globals

end HydraAmix.Boot.Rel
