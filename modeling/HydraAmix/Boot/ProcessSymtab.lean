import HydraAmix.Boot.SymbolTable

/-!
# What ProcessSymtab makes of the symbol table

The first loop leaves each symbol with its place in the combined section, and puts the
COMMON symbols behind the end of `.bss`. The second loop changes the symbols with the
special names only.
-/
namespace HydraAmix.Boot.Elf2brel
open Word Placement

section
variable (job : Job)

def Job.symtab : ℕ := job.tableAt job.i.i_symtab

def Job.nsyms : ℕ := job.count job.i.i_symtab

def Job.symAt (k : ℕ) : Sym := job.elf.symAt (job.symtab + SYM * k)

/-- The end of `.bss` in the combined section. -/
def Job.bssEnd : ℕ :=
  job.textsize.toNat + job.rodatasize.toNat + job.datasize.toNat + job.bsssize.toNat

def Job.request (k : ℕ) : Option Request := (job.symAt k).common

/-- The end of the COMMON symbols among the first `k`. -/
def Job.level (k : ℕ) : ℕ := Placement.level job.bssEnd job.request k

/-- The entry of a symbol after the first loop. -/
def Job.bound (k : ℕ) : Sym :=
  let s := job.symAt k
  let text := BitVec.ofNat 16 job.i.i_text
  if s.st_shndx = SHN_COMMON then
    { s with st_value := BitVec.ofNat 32 (up s.st_value.toNat (job.level k)), st_shndx := text }
  else if s.st_shndx.toNat = job.i.i_text then s
  else if job.i.i_rodata ≠ 0 ∧ s.st_shndx.toNat = job.i.i_rodata then
    { s with st_value := s.st_value + job.textsize, st_shndx := text }
  else if s.st_shndx.toNat = job.i.i_data then
    { s with st_value := s.st_value + (job.textsize + job.rodatasize), st_shndx := text }
  else if s.st_shndx.toNat = job.i.i_bss then
    { s with
      st_value := s.st_value + (job.textsize + job.rodatasize + job.datasize)
      st_shndx := text }
  else s

/-- The symbol table is in the file. -/
structure Job.TableInside : Prop where
  header : job.header job.i.i_symtab + SHDR ≤ job.elf.size
  entsize : job.entsizeAt job.i.i_symtab ≠ 0
  table : job.symtab + SYM * job.nsyms ≤ job.elf.size

/-- The alignments are powers of two, and the last end is an address. -/
structure Job.Fits : Prop where
  align : ∀ k < job.nsyms, ∀ r, job.request k = some r → ∃ j, r.align = 2 ^ j
  small : job.level job.nsyms < 0x100000000

/-- After `k` turns of the first loop. -/
structure Job.Bound (k : ℕ) (r : Job × Long) : Prop where
  static : r.1 = { job with elf := r.1.elf, bsssize := r.1.bsssize }
  within : Within job.elf r.1.elf job.symtab (SYM * job.nsyms)
  done : ∀ j < k, r.1.elf.symAt (job.symtab + SYM * j) = job.bound j
  rest : ∀ j, k ≤ j → j < job.nsyms → r.1.elf.symAt (job.symtab + SYM * j) = job.symAt j
  level : r.2.toNat = job.level k
  bss : job.textsize + job.rodatasize + job.datasize + r.1.bsssize = r.2

variable {job}

theorem Job.Fits.pos (h : job.Fits) :
    ∀ k < job.nsyms, ∀ r, job.request k = some r → 0 < r.align := by
  intro k hk r hr
  obtain ⟨j, hj⟩ := h.align k hk r hr
  rw [hj]
  exact Nat.two_pow_pos j

theorem Job.Fits.level_lt (h : job.Fits) {k : ℕ} (hk : k ≤ job.nsyms) :
    job.level k < 0x100000000 :=
  Nat.lt_of_le_of_lt (level_le h.pos hk (Nat.le_refl _)) h.small

theorem toNat_bssEnd (h : job.Fits) :
    (job.textsize + job.rodatasize + job.datasize + job.bsssize).toNat = job.bssEnd := by
  have hsmall : job.bssEnd < 0x100000000 := h.level_lt (Nat.zero_le _)
  unfold Job.bssEnd at hsmall ⊢
  simp only [BitVec.toNat_add]
  omega

/-- The end of a COMMON symbol is an address. -/
theorem Job.Fits.common (h : job.Fits) {k : ℕ} (hk : k < job.nsyms)
    (hc : (job.symAt k).st_shndx = SHN_COMMON) :
    (∃ j, (job.symAt k).st_value.toNat = 2 ^ j) ∧
      job.level (k + 1) =
        up (job.symAt k).st_value.toNat (job.level k) + (job.symAt k).st_size.toNat ∧
      job.level (k + 1) < 0x100000000 := by
  have hr : job.request k = some ⟨(job.symAt k).st_size.toNat, (job.symAt k).st_value.toNat⟩ :=
    Sym.common_some hc
  exact ⟨h.align k hk _ hr, level_some hr, h.level_lt (Nat.succ_le_of_lt hk)⟩

theorem Job.level_of_ne {k : ℕ} (hc : (job.symAt k).st_shndx ≠ SHN_COMMON) :
    job.level (k + 1) = job.level k := level_none (Sym.common_none hc)

/-! ### The first loop -/

theorem setSym_run {job : Job} {sym : ℕ} (value : Long) (h : sym + 16 ≤ job.elf.size) :
    ∃ e', job.setSym sym value = .ok { job with elf := e' } ∧ Within job.elf e' sym 16 ∧
      e'.symAt sym = { job.elf.symAt sym with
        st_value := value, st_shndx := BitVec.ofNat 16 job.i.i_text } := by
  obtain ⟨e₁, e', h₁, h', -, hw, hs⟩ := setSym_ok (BitVec.ofNat 16 job.i.i_text) value h
  refine ⟨e', ?_, hw, hs⟩
  unfold Job.setSym
  rw [h₁]
  change (e₁.setLong (sym + 4) value >>= _) = _
  rw [h']
  rfl

/-- A turn that sets the entry to what it has to be, or leaves it so. -/
theorem Job.Bound.next {k : ℕ} {r : Job × Long} (h : job.Bound k r) (hk : k < job.nsyms)
    {e' : Elfdata} {bsssize end_ : Long}
    (hw : Within r.1.elf e' (job.symtab + SYM * k) 16)
    (hs : e'.symAt (job.symtab + SYM * k) = job.bound k)
    (hlevel : end_.toNat = job.level (k + 1))
    (hbss : job.textsize + job.rodatasize + job.datasize + bsssize = end_) :
    job.Bound (k + 1) ({ r.1 with elf := e', bsssize := bsssize }, end_) where
  static := by
    rw [h.static]
  within := h.within.trans (hw.mono (Nat.le_add_right _ _) (by unfold SYM; omega))
  done j hj := by
    rcases Nat.lt_succ_iff_lt_or_eq.mp hj with hlt | rfl
    · rw [← h.done j hlt]
      exact hw.symAt (by unfold SYM; omega)
    · exact hs
  rest j hkj hj := by
    rw [← h.rest j (by omega) hj]
    exact hw.symAt (by unfold SYM; omega)
  level := hlevel
  bss := hbss

theorem bindSym_turn (hf : job.Fits) (hin : job.TableInside) {k : ℕ} (hk : k < job.nsyms)
    {r : Job × Long} (h : job.Bound k r) :
    ∃ r', bindSym job.symtab r k = .ok r' ∧ job.Bound (k + 1) r' := by
  obtain ⟨job', end_⟩ := r
  have hsize : job'.elf.size = job.elf.size := h.within.size
  have hsym : job.symtab + SYM * k + 16 ≤ job'.elf.size := by
    have htable := hin.table
    unfold SYM at htable ⊢
    omega
  have hentry : job'.elf.symAt (job.symtab + SYM * k) = job.symAt k := h.rest k (Nat.le_refl k) hk
  have hstatic : job' = { job with elf := job'.elf, bsssize := job'.bsssize } := h.static
  have hi : job'.i = job.i := by rw [hstatic]
  have htext : job'.textsize = job.textsize := by rw [hstatic]
  have hrodata : job'.rodatasize = job.rodatasize := by rw [hstatic]
  have hdata : job'.datasize = job.datasize := by rw [hstatic]
  have hshndx : job'.elf.short (job.symtab + SYM * k + 14) = .ok (job.symAt k).st_shndx := by
    rw [← hentry]
    exact short_ok (by omega)
  have hvalue : job'.elf.long (job.symtab + SYM * k + 4) = .ok (job.symAt k).st_value := by
    rw [← hentry]
    exact long_ok (by omega)
  -- The entry stays, or gets a value in the combined section.
  have hkeep : (job.symAt k).st_shndx ≠ SHN_COMMON → job.bound k = job.symAt k →
      job.Bound (k + 1) (job', end_) := by
    intro hc hb
    have hnext := h.next hk (Within.refl _ _ _) (hentry.trans hb.symm)
      (h.level.trans (Job.level_of_ne hc).symm) h.bss
    exact hnext
  have hset : ∀ value, (job.symAt k).st_shndx ≠ SHN_COMMON →
      job.bound k = { job.symAt k with
        st_value := value, st_shndx := BitVec.ofNat 16 job.i.i_text } →
      ∃ r', (do return (← job'.setSym (job.symtab + SYM * k) value, end_)) = .ok r' ∧
        job.Bound (k + 1) r' := by
    intro value hc hb
    obtain ⟨e', he', hw, hs⟩ := setSym_run value hsym
    refine ⟨({ job' with elf := e' }, end_), ?_, ?_⟩
    · rw [he']
      rfl
    · refine h.next hk hw ?_ (h.level.trans (Job.level_of_ne hc).symm) h.bss
      rw [hs, hentry, hi, hb]
  unfold bindSym
  dsimp only
  rw [hshndx, hvalue]
  change ∃ r', (if (job.symAt k).st_shndx = SHN_COMMON then _ else _) = _ ∧ _
  by_cases hc : (job.symAt k).st_shndx = SHN_COMMON
  · rw [if_pos hc]
    obtain ⟨hpow, hlevel, hsmall⟩ := hf.common hk hc
    obtain ⟨hplace, hend⟩ := Sym.place h.level hpow (hlevel ▸ hsmall)
    obtain ⟨e', he', hw, hs⟩ := setSym_run
      (BitVec.ofNat 32 (up (job.symAt k).st_value.toNat (job.level k))) hsym
    have hentry' : (e'.symAt (job.symtab + SYM * k)).st_size = (job.symAt k).st_size := by
      rw [hs, hentry]
    have hstsize : e'.long (job.symtab + SYM * k + 8) = .ok (job.symAt k).st_size := by
      rw [← hentry']
      exact long_ok (by rw [hw.size]; omega)
    have hb : job.bound k = { job.symAt k with
        st_value := BitVec.ofNat 32 (up (job.symAt k).st_value.toNat (job.level k))
        st_shndx := BitVec.ofNat 16 job.i.i_text } := if_pos hc
    rw [hplace, he']
    change ∃ r', (e'.long (job.symtab + SYM * k + 8) >>= _) = _ ∧ _
    rw [hstsize]
    refine ⟨_, rfl, h.next hk hw ?_ ?_ ?_⟩
    · rw [hs, hentry, hi, hb]
    · exact hend.trans hlevel.symm
    · rw [htext, hrodata, hdata]
      grind
  · rw [if_neg hc]
    have hb : job.bound k = if (job.symAt k).st_shndx.toNat = job.i.i_text then _ else _ :=
      if_neg hc
    rw [hi, htext, hrodata, hdata]
    split_ifs at hb ⊢ with h₁ h₂ h₃ h₄
    · exact ⟨_, rfl, hkeep hc hb⟩
    · exact hset _ hc hb
    · exact hset _ hc hb
    · exact hset _ hc hb
    · exact ⟨_, rfl, hkeep hc hb⟩

/-- The first loop leaves the entries that it has to, and the last end. -/
theorem bindSyms (hf : job.Fits) (hin : job.TableInside) :
    ∃ r, (List.range job.nsyms).foldlM (bindSym job.symtab)
        (job, job.textsize + job.rodatasize + job.datasize + job.bsssize) = .ok r ∧
      job.Bound job.nsyms r :=
  foldlM_range_ok job.Bound (fun _ hk _ hr => bindSym_turn hf hin hk hr)
    ⟨rfl, Within.refl _ _ _, fun _ hj => absurd hj (Nat.not_lt_zero _), fun _ _ _ => rfl,
      toNat_bssEnd hf, rfl⟩

/-! ### The second loop -/

/-- The address of a symbol's name. -/
def Job.nameAt (job : Job) (k : ℕ) : ℕ :=
  job.tableAt job.i.i_strtab + (job.symAt k).st_name.toNat

/-- The symbol has one of the names "etext", "edata" and "end". -/
def Job.Special (job : Job) (k : ℕ) : Prop :=
  (job.symAt k).st_name ≠ 0 ∧ ∃ s ∈ [nameEtext, nameEdata, nameEnd],
    job.elf.strcmp s (job.nameAt k) = .ok true

/-- The names are strings in the file, apart from the symbol table. -/
structure Job.NamesInside (job : Job) : Prop where
  header : job.header job.i.i_strtab + SHDR ≤ job.elf.size
  apart : job.header job.i.i_strtab + SHDR ≤ job.symtab ∨
    job.symtab + SYM * job.nsyms ≤ job.header job.i.i_strtab
  names : ∀ k < job.nsyms, (job.symAt k).st_name ≠ 0 → ∃ p, job.nameAt k ≤ p ∧
    p < job.elf.size ∧ job.elf.data p = 0 ∧
    (p < job.symtab ∨ job.symtab + SYM * job.nsyms ≤ job.nameAt k)

/-- After some turns of the second loop; `r` is the job after the first. -/
structure Job.Named (job r : Job) (r' : Job) : Prop where
  static : r' = { r with elf := r'.elf }
  within : Within job.elf r'.elf job.symtab (SYM * job.nsyms)
  keep : ∀ j < job.nsyms, ¬ job.Special j → r'.elf.symAt (job.symtab + SYM * j) = job.bound j
  name : ∀ j < job.nsyms, (r'.elf.symAt (job.symtab + SYM * j)).st_name = (job.symAt j).st_name

theorem Job.bound_name (k : ℕ) : (job.bound k).st_name = (job.symAt k).st_name := by
  unfold Job.bound
  dsimp only
  split_ifs <;> rfl

/-- A special symbol may get any value. -/
theorem Job.Named.set {r r' : Job} (h : job.Named r r') (hin : job.TableInside) {k : ℕ}
    (hk : k < job.nsyms) (hspecial : job.Special k) (value : Long) :
    ∃ r'', r'.setSym (job.symtab + SYM * k) value = .ok r'' ∧ job.Named r r'' := by
  have hsize := h.within.size
  have hsym : job.symtab + SYM * k + 16 ≤ r'.elf.size := by
    have htable := hin.table
    unfold SYM at htable ⊢
    omega
  obtain ⟨e', he', hw, hs⟩ := setSym_run value hsym
  refine ⟨_, he', by rw [h.static], h.within.trans (hw.mono (Nat.le_add_right _ _)
    (by unfold SYM; omega)), fun j hj hno => ?_, fun j hj => ?_⟩
  · have hne : j ≠ k := by
      rintro rfl
      exact hno hspecial
    rw [← h.keep j hj hno]
    exact hw.symAt (by unfold SYM; omega)
  · rw [← h.name j hj]
    by_cases hjk : j = k
    · subst hjk
      rw [hs]
    · rw [hw.symAt (by unfold SYM; omega)]

theorem specialSym_turn (hin : job.TableInside) (hnames : job.NamesInside) {r r' : Job}
    (hi : r.i = job.i) (hshdr : r.shdr = job.shdr) {k : ℕ} (hk : k < job.nsyms)
    (h : job.Named r r') :
    ∃ r'', specialSym job.symtab r' k = .ok r'' ∧ job.Named r r'' := by
  have hsize := h.within.size
  have hname : r'.elf.long (job.symtab + SYM * k) = .ok (job.symAt k).st_name := by
    rw [← h.name k hk]
    refine long_ok ?_
    have htable := hin.table
    unfold SYM at htable ⊢
    omega
  have hi' : r'.i = job.i := by rw [h.static, ← hi]
  have hshdr' : r'.shdr = job.shdr := by rw [h.static, ← hshdr]
  unfold specialSym
  dsimp only
  rw [hname]
  change ∃ r'', (if (job.symAt k).st_name = 0 then _ else _) = _ ∧ _
  by_cases h0 : (job.symAt k).st_name = 0
  · rw [if_pos h0]
    exact ⟨r', rfl, h⟩
  · rw [if_neg h0, hi']
    have hheader := hnames.header
    have hstrtab : r'.offsetOf job.i.i_strtab = .ok (job.tableAt job.i.i_strtab) := by
      have hsame : r'.header job.i.i_strtab = job.header job.i.i_strtab := by
        unfold Job.header
        rw [hshdr']
      have htable : r'.tableAt job.i.i_strtab = job.tableAt job.i.i_strtab := by
        unfold Job.tableAt
        rw [hsame, h.within.longAt]
        have hapart := hnames.apart
        unfold SHDR at hapart
        omega
      rw [← htable]
      refine offsetOf_ok ?_
      unfold SHDR at hheader
      omega
    obtain ⟨p, hp, hsmall, hzero, hapart⟩ := hnames.names k hk h0
    have hcmp : ∀ s ∈ [nameEtext, nameEdata, nameEnd], ∃ b,
        job.elf.strcmp s (job.nameAt k) = .ok b ∧ r'.elf.strcmp s (job.nameAt k) = .ok b := by
      intro s hs
      have hnz : ∀ c ∈ s, c ≠ 0 := by
        revert s
        decide
      obtain ⟨⟨b, hb⟩, hsame⟩ := strcmp_congr hsmall hzero hsize hnz hp fun x hx hxp =>
        h.within.data x (by omega)
      exact ⟨b, hb, hsame.trans hb⟩
    obtain ⟨b₁, hb₁, hb₁'⟩ := hcmp nameEtext (by simp)
    obtain ⟨b₂, hb₂, hb₂'⟩ := hcmp nameEdata (by simp)
    obtain ⟨b₃, hb₃, hb₃'⟩ := hcmp nameEnd (by simp)
    rw [hstrtab]
    change ∃ r'', (r'.elf.strcmp nameEtext (job.nameAt k) >>= _) = _ ∧ _
    rw [hb₁']
    change ∃ r'', (if b₁ = true then _ else _) = _ ∧ _
    cases b₁ with
    | true => exact h.set hin hk ⟨h0, _, by simp, hb₁⟩ _
    | false =>
        rw [if_neg Bool.false_ne_true]
        change ∃ r'', (r'.elf.strcmp nameEdata (job.nameAt k) >>= _) = _ ∧ _
        rw [hb₂']
        change ∃ r'', (if b₂ = true then _ else _) = _ ∧ _
        cases b₂ with
        | true => exact h.set hin hk ⟨h0, _, by simp, hb₂⟩ _
        | false =>
            rw [if_neg Bool.false_ne_true]
            change ∃ r'', (r'.elf.strcmp nameEnd (job.nameAt k) >>= _) = _ ∧ _
            rw [hb₃']
            change ∃ r'', (if b₃ = true then _ else _) = _ ∧ _
            cases b₃ with
            | true => exact h.set hin hk ⟨h0, _, by simp, hb₃⟩ _
            | false =>
                rw [if_neg Bool.false_ne_true]
                exact ⟨r', rfl, h⟩

/-- Both loops end, with the entries that they have to leave. -/
theorem processSymtab_ok (hf : job.Fits) (hin : job.TableInside) (hnames : job.NamesInside) :
    ∃ r job', processSymtab job = .ok job' ∧ job.Bound job.nsyms r ∧ job.Named r.1 job' := by
  obtain ⟨r, hr, hbound⟩ := bindSyms hf hin
  have hi : r.1.i = job.i := by rw [hbound.static]
  have hshdr : r.1.shdr = job.shdr := by rw [hbound.static]
  have hstart : job.Named r.1 r.1 := by
    refine ⟨rfl, hbound.within, fun j hj _ => hbound.done j hj, fun j hj => ?_⟩
    rw [hbound.done j hj]
    exact Job.bound_name j
  obtain ⟨job', hjob', hnamed⟩ := foldlM_range_ok (fun _ => job.Named r.1)
    (fun k hk s hs => specialSym_turn hin hnames hi hshdr hk hs) hstart
  refine ⟨r, job', ?_, hbound, hnamed⟩
  have hheader := hin.header
  unfold processSymtab
  rw [entriesIn_ok hin.header hin.entsize]
  change (job.offsetOf job.i.i_symtab >>= _) = _
  rw [offsetOf_ok (by unfold SHDR at hheader; omega)]
  change ((List.range job.nsyms).foldlM (bindSym job.symtab)
    (job, job.textsize + job.rodatasize + job.datasize + job.bsssize) >>= _) = _
  rw [hr]
  exact hjob'

/-! ### Where the symbols are -/

/-- A place in the combined section, or what an entry says of any other place. -/
inductive Location
  | combined (offset : Long)
  | elsewhere (st_shndx : BitVec 16) (st_value : Long)
  deriving DecidableEq, Repr

/-- The place that an entry means: the four sections lie one after the other. -/
def Job.locate (job : Job) (s : Sym) : Location :=
  if s.st_shndx.toNat = job.i.i_text then .combined s.st_value
  else if job.i.i_rodata ≠ 0 ∧ s.st_shndx.toNat = job.i.i_rodata then
    .combined (s.st_value + job.textsize)
  else if s.st_shndx.toNat = job.i.i_data then
    .combined (s.st_value + (job.textsize + job.rodatasize))
  else if s.st_shndx.toNat = job.i.i_bss then
    .combined (s.st_value + (job.textsize + job.rodatasize + job.datasize))
  else .elsewhere s.st_shndx s.st_value

theorem locate_text (h : job.i.i_text < 0x10000) (s : Sym) (value : Long) :
    job.locate { s with st_value := value, st_shndx := BitVec.ofNat 16 job.i.i_text } =
      .combined value := by
  refine if_pos ?_
  change (BitVec.ofNat 16 job.i.i_text).toNat = _
  rw [BitVec.toNat_ofNat]
  exact Nat.mod_eq_of_lt h

/-- The first loop leaves every symbol but the COMMON ones in its place. -/
theorem locate_bound (h : job.i.i_text < 0x10000) {k : ℕ}
    (hc : (job.symAt k).st_shndx ≠ SHN_COMMON) :
    job.locate (job.bound k) = job.locate (job.symAt k) := by
  have hb : job.bound k = if (job.symAt k).st_shndx.toNat = job.i.i_text then _ else _ :=
    if_neg hc
  have hl : job.locate (job.symAt k) =
      if (job.symAt k).st_shndx.toNat = job.i.i_text then _ else _ := rfl
  split_ifs at hb hl with h₁ h₂ h₃ h₄
  · rw [hb]
  · rw [hb, hl, locate_text h]
  · rw [hb, hl, locate_text h]
  · rw [hb, hl, locate_text h]
  · rw [hb]

theorem locate_common (h : job.i.i_text < 0x10000) {k : ℕ}
    (hc : (job.symAt k).st_shndx = SHN_COMMON) :
    job.locate (job.bound k) =
      .combined (BitVec.ofNat 32 (up (job.symAt k).st_value.toNat (job.level k))) := by
  have hb : job.bound k = { job.symAt k with
      st_value := BitVec.ofNat 32 (up (job.symAt k).st_value.toNat (job.level k))
      st_shndx := BitVec.ofNat 16 job.i.i_text } := if_pos hc
  rw [hb, locate_text h]

/-! ### The sections that are found -/

theorem choose_ok {x : Prog Bool} {i i' : Indices} {rest : Prog Indices}
    (h : (do if ← x then return i else rest) = .ok i') : i' = i ∨ rest = .ok i' := by
  obtain ⟨b, -, h⟩ := bind_ok h
  cases b with
  | true => exact .inl (Except.ok.inj h).symm
  | false => exact .inr h

theorem nameSection_text {e : Elfdata} {shdr shstrtab index : ℕ} {i i' : Indices}
    (h : nameSection e shdr shstrtab i index = .ok i') :
    i'.i_text = index ∨ i'.i_text = i.i_text := by
  obtain ⟨sh_name, -, h⟩ := bind_ok h
  rcases choose_ok h with rfl | h
  · exact .inl rfl
  right
  rcases choose_ok h with rfl | h
  · rfl
  rcases choose_ok h with rfl | h
  · rfl
  rcases choose_ok h with rfl | h
  · rfl
  rcases choose_ok h with rfl | h
  · rfl
  rcases choose_ok h with rfl | h
  · rfl
  rcases choose_ok h with rfl | h
  · rfl
  rcases choose_ok h with rfl | h
  · rfl
  rcases choose_ok h with rfl | h
  · rfl
  rw [← Except.ok.inj h]

theorem nameSections_text {e : Elfdata} {shdr shstrtab : ℕ} {l : List ℕ} {i i' : Indices}
    (hl : ∀ index ∈ l, index < 0x10000) (hi : i.i_text < 0x10000)
    (h : l.foldlM (nameSection e shdr shstrtab) i = .ok i') : i'.i_text < 0x10000 := by
  induction l generalizing i with
  | nil =>
      obtain rfl := Except.ok.inj h
      exact hi
  | cons index l ih =>
      rw [List.foldlM_cons] at h
      obtain ⟨i₁, h₁, h⟩ := bind_ok h
      refine ih (fun x hx => hl x (List.mem_cons_of_mem index hx)) ?_ h
      rcases nameSection_text h₁ with hnew | hold
      · rw [hnew]
        exact hl index List.mem_cons_self
      · rw [hold]
        exact hi

/-- The file is not changed, and section indices have 16 bits. -/
theorem of_readElfFile {e : Elfdata} (h : readElfFile e = .ok job) :
    job.elf = e ∧ job.i.i_text < 0x10000 := by
  unfold readElfFile at h
  obtain ⟨_, -, h⟩ := bind_ok h
  obtain ⟨_, -, h⟩ := bind_ok h
  obtain ⟨_, -, h⟩ := bind_ok h
  obtain ⟨_, -, h⟩ := bind_ok h
  obtain ⟨_, -, h⟩ := bind_ok h
  obtain ⟨_, -, h⟩ := bind_ok h
  obtain ⟨_, -, h⟩ := bind_ok h
  obtain ⟨_, -, h⟩ := bind_ok h
  obtain ⟨_, -, h⟩ := bind_ok h
  obtain ⟨_, -, h⟩ := bind_ok h
  obtain ⟨e_shoff, -, h⟩ := bind_ok h
  obtain ⟨_, -, h⟩ := bind_ok h
  obtain ⟨e_shnum, -, h⟩ := bind_ok h
  obtain ⟨_, -, h⟩ := bind_ok h
  obtain ⟨e_shstrndx, -, h⟩ := bind_ok h
  obtain ⟨shstrtab, -, h⟩ := bind_ok h
  obtain ⟨i, hi, h⟩ := bind_ok h
  have htext : i.i_text < 0x10000 := by
    refine nameSections_text (fun index hindex => ?_) (show 0 < 0x10000 by decide) hi
    have hnum := e_shnum.isLt
    obtain ⟨k, hk, rfl⟩ := List.mem_range'.mp hindex
    omega
  obtain ⟨_, -, h⟩ := bind_ok h
  obtain ⟨_, -, h⟩ := bind_ok h
  obtain ⟨_, -, h⟩ := bind_ok h
  obtain ⟨_, -, h⟩ := bind_ok h
  obtain ⟨_, -, h⟩ := bind_ok h
  obtain ⟨_, -, h⟩ := bind_ok h
  obtain ⟨_, -, h⟩ := bind_ok h
  obtain ⟨_, -, h⟩ := bind_ok h
  obtain ⟨textsize, -, h⟩ := bind_ok h
  dsimp only at h
  split_ifs at h
  all_goals
    obtain ⟨rodatasize, -, h⟩ := bind_ok h
    obtain ⟨datasize, -, h⟩ := bind_ok h
    obtain ⟨bsssize, -, h⟩ := bind_ok h
    rw [← Except.ok.inj h]
    exact ⟨rfl, htext⟩

end

end HydraAmix.Boot.Elf2brel
