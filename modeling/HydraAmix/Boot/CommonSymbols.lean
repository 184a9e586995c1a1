import HydraAmix.Boot.ProcessSymtab
import HydraAmix.Boot.Rel

/-!
# COMMON symbols get room of their own

`allocbss` and `ProcessSymtab` both put the COMMON symbols behind `.bss`, one after the
other. Every other symbol stays in its place; only `ProcessSymtab` moves the symbols that
are named after the ends of the sections.
-/
namespace HydraAmix.Boot
open Word Placement
open Elf2brel (Elfdata Job Location Indices readElfFile processSymtab SHN_COMMON SYM)
open HydraAmix.Boot.Rel (Globals allocbss symvaddr)

/-- What `allocbss` makes of the symbols, with `bss` the index of the `.bss` header. -/
structure Rel.Globals.Allocated (gbls : Globals) (bss : ℕ) (gbls' : Globals) : Prop where
  placed : Placed (gbls.bssEnd bss) gbls.request gbls.nsyms
    (fun k => (gbls'.address (gbls'.elf.symAt (gbls.syms + SYM * k))).toNat) gbls'.end_.toNat
  entry : ∀ k < gbls.nsyms, (gbls.symAt k).st_shndx ≠ SHN_COMMON →
    gbls'.elf.symAt (gbls.syms + SYM * k) = gbls.symAt k
  value : ∀ k < gbls.nsyms, (gbls.symAt k).st_shndx ≠ SHN_COMMON →
    symvaddr gbls' (gbls.syms + SYM * k) = symvaddr gbls (gbls.syms + SYM * k)

/-- The final value of `end`. -/
def Elf2brel.Job.end_ (job : Job) : Long :=
  job.textsize + job.rodatasize + job.datasize + job.bsssize

/-- What `ProcessSymtab` makes of the symbols. -/
structure Elf2brel.Job.Allocated (job job' : Job) (address : ℕ → ℕ) : Prop where
  placed : Placed job.bssEnd job.request job.nsyms address job'.end_.toNat
  common : ∀ k < job.nsyms, ¬job.Special k → (job.symAt k).st_shndx = SHN_COMMON →
    job'.locate (job'.elf.symAt (job.symtab + SYM * k)) =
      .combined (BitVec.ofNat 32 (address k))
  other : ∀ k < job.nsyms, ¬job.Special k → (job.symAt k).st_shndx ≠ SHN_COMMON →
    job'.locate (job'.elf.symAt (job.symtab + SYM * k)) = job.locate (job.symAt k)

/-- The address of a COMMON symbol is the next one that is aligned. -/
theorem Rel.Globals.Done.address {gbls gbls' : Globals} {bss : ℕ} (hb : gbls.bhdr = some bss)
    (hin : gbls.Inside) (hf : gbls.Fits bss) (h : gbls.Done bss gbls.nsyms gbls') {k : ℕ}
    (hk : k < gbls.nsyms) (hc : (gbls.symAt k).st_shndx = SHN_COMMON) :
    (gbls'.address (gbls'.elf.symAt (gbls.syms + SYM * k))).toNat =
      up (gbls.symAt k).st_value.toNat (gbls.level bss k) := by
  obtain ⟨-, hlevel, hsmall⟩ := hf.common hk hc
  have hindex : bss < gbls.e_shnum := hin.bss bss hb
  have hbound : gbls.e_shnum < 0x10000 := (gbls.elf.shortAt 48).isLt
  have hplaced : gbls.placed bss k =
      { gbls.symAt k with
        st_value := BitVec.ofNat 32 (up (gbls.symAt k).st_value.toNat (gbls.level bss k)) -
          gbls.sh_addr bss
        st_shndx := BitVec.ofNat 16 bss } := if_pos hc
  rw [h.done k hk, hplaced]
  change (gbls'.sh_addr (BitVec.ofNat 16 bss).toNat +
    (BitVec.ofNat 32 _ - gbls.sh_addr bss)).toNat = _
  rw [BitVec.toNat_ofNat, Nat.mod_eq_of_lt (hindex.trans hbound), h.sh_addr hin hindex,
    BitVec.add_comm, BitVec.sub_add_cancel, BitVec.toNat_ofNat]
  exact Nat.mod_eq_of_lt (by omega)

theorem Rel.Globals.Done.allocated {gbls gbls' : Globals} {bss : ℕ} (hb : gbls.bhdr = some bss)
    (hin : gbls.Inside) (hf : gbls.Fits bss) (h : gbls.Done bss gbls.nsyms gbls') :
    gbls.Allocated bss gbls' where
  placed := by
    by_cases hc : ∃ k < gbls.nsyms, (gbls.symAt k).st_shndx = SHN_COMMON
    · rw [h.end_ hc]
      refine Placement.placed hf.pos fun k hk r hr => ?_
      by_cases hck : (gbls.symAt k).st_shndx = SHN_COMMON
      · obtain rfl := Option.some.inj ((Elf2brel.Sym.common_some hck).symm.trans hr)
        exact h.address hb hin hf hk hck
      · exact absurd (hr.symm.trans (Elf2brel.Sym.common_none hck)) (Option.some_ne_none r)
    · exact placed_of_none
        (fun k hk => Elf2brel.Sym.common_none fun hck => hc ⟨k, hk, hck⟩) _ _
  entry k hk hc := (h.done k hk).trans (if_neg hc)
  value k hk hc := Rel.Globals.symvaddr_same hin h hk hc

theorem Elf2brel.Job.Named.allocated {job job' : Job} {r : Job × Long} (hf : job.Fits)
    (htext : job.i.i_text < 0x10000) (hr : job.Bound job.nsyms r) (h : job.Named r.1 job') :
    job.Allocated job' fun k => up (job.symAt k).st_value.toNat (job.level k) := by
  have hstatic : job' = { job with elf := job'.elf, bsssize := r.1.bsssize } := by
    rw [h.static, hr.static]
  have hlocate : ∀ s, job'.locate s = job.locate s := by
    intro s
    rw [hstatic]
    rfl
  refine ⟨?_, fun k hk hno hc => ?_, fun k hk hno hc => ?_⟩
  · have hend : job'.end_.toNat = job.level job.nsyms := by
      rw [← hr.level, ← hr.bss, hstatic]
      rfl
    rw [hend]
    refine Placement.placed hf.pos fun k hk r hreq => ?_
    by_cases hck : (job.symAt k).st_shndx = SHN_COMMON
    · obtain rfl := Option.some.inj ((Sym.common_some hck).symm.trans hreq)
      rfl
    · exact absurd (hreq.symm.trans (Sym.common_none hck)) (Option.some_ne_none r)
  · rw [hlocate, h.keep k hk hno, locate_common htext hc]
  · rw [hlocate, h.keep k hk hno, locate_bound htext hc]

/-- The COMMON symbols are aligned, apart from each other, and between the end of `.bss` and
the final end, and every other symbol keeps its place. `allocbss` needs a `.bss` section for
that; the symbols named "etext", "edata" and "end" get other places by `ProcessSymtab`. -/
theorem common_placed :
    (∀ (gbls : Globals) (bss : ℕ), gbls.bhdr = some bss → gbls.Inside → gbls.Fits bss →
      ∃ gbls', allocbss gbls = .ok gbls' ∧ gbls.Allocated bss gbls') ∧
    (∀ gbls : Globals, gbls.bhdr = none → gbls.Inside →
      (∃ k < gbls.nsyms, (gbls.symAt k).st_shndx = SHN_COMMON) →
      allocbss gbls = .error .complain) ∧
    ∀ (e : Elfdata) (job : Job), readElfFile e = .ok job → job.TableInside →
      job.NamesInside → job.Fits →
      ∃ job' address, processSymtab job = .ok job' ∧ job.Allocated job' address := by
  refine ⟨?_, ?_, ?_⟩
  · intro gbls bss hb hin hf
    obtain ⟨gbls', hrun, hdone⟩ := Rel.Globals.allocbss_done hb hin hf
    exact ⟨gbls', hrun, hdone.allocated hb hin hf⟩
  · intro gbls hb hin hc
    exact Rel.Globals.allocbss_missing hb hin hc
  · intro e job hread hin hnames hf
    obtain ⟨-, htext⟩ := Elf2brel.of_readElfFile hread
    obtain ⟨r, job', hrun, hbound, hnamed⟩ := Elf2brel.processSymtab_ok hf hin hnames
    exact ⟨job', _, hrun, hnamed.allocated hf htext hbound⟩

/-! ### A file with a COMMON symbol -/

def bytesOf (v : Long) : List Byte := [byte v 3, byte v 2, byte v 1, byte v 0]

/-- A section header. -/
def shdrOf (sh_name sh_addr sh_offset sh_size sh_entsize : Long) : List Byte :=
  bytesOf sh_name ++ bytesOf 1 ++ bytesOf 0 ++ bytesOf sh_addr ++ bytesOf sh_offset ++
    bytesOf sh_size ++ bytesOf 0 ++ bytesOf 0 ++ bytesOf 1 ++ bytesOf sh_entsize

/-- The sections of `noRodata`, with a symbol "end" in `.data` and a COMMON symbol of 4 bytes
on a multiple of 8. -/
def withCommon : List Byte :=
  Elf2brel.noRodata.take 0x72 ++
  List.replicate 40 0 ++ shdrOf 6 0x1000 52 8 0 ++ shdrOf 17 0x1008 52 8 0 ++
  shdrOf 23 0x1010 52 4 0 ++ shdrOf 28 0 474 32 16 ++ shdrOf 36 0 506 5 0 ++
  shdrOf 44 0 52 56 0 ++ shdrOf 1 0 52 0 12 ++ shdrOf 12 0 52 0 12 ++
  [0, 0, 0, 1, 0, 0, 0, 4, 0, 0, 0, 0, 0x10, 0, 0, 2,
   0, 0, 0, 0, 0, 0, 0, 8, 0, 0, 0, 4, 0x10, 0, 0xFF, 0xF2] ++
  [0] ++ Elf2brel.nameEnd ++ [0]

def withCommonFile : Elfdata := ⟨withCommon.length, fun a => withCommon.getD a 0, by decide +kernel⟩

def withCommonJob : Job :=
  ⟨withCommonFile, 0x72,
    { i_text := 1, i_data := 2, i_bss := 3, i_symtab := 4, i_strtab := 5, i_shstrtab := 6,
      i_rela_text := 7, i_rela_data := 8 }, 8, 0, 8, 4⟩

theorem withCommonJob_read : readElfFile withCommonFile = .ok withCommonJob := by
  have hfields : (readElfFile withCommonFile).map (fun job =>
      (job.shdr, job.i, job.textsize, job.rodatasize, job.datasize, job.bsssize)) =
      .ok (0x72, withCommonJob.i, 8, 0, 8, 4) := by decide +kernel
  cases hread : readElfFile withCommonFile with
  | error halt =>
      rw [hread] at hfields
      cases hfields
  | ok job =>
      obtain ⟨helf, -⟩ := Elf2brel.of_readElfFile hread
      rw [hread] at hfields
      obtain ⟨elf, shdr, i, textsize, rodatasize, datasize, bsssize⟩ := job
      obtain rfl : elf = withCommonFile := helf
      simp only [Except.map, Except.ok.injEq, Prod.mk.injEq] at hfields
      obtain ⟨rfl, rfl, rfl, rfl, rfl, rfl⟩ := hfields
      rfl

theorem withCommonJob_inside : withCommonJob.nsyms = 2 ∧ withCommonJob.TableInside ∧
    withCommonJob.NamesInside ∧ withCommonJob.Fits := by
  have hnsyms : withCommonJob.nsyms = 2 := by decide +kernel
  refine ⟨hnsyms, ⟨by decide +kernel, by decide +kernel, by decide +kernel⟩,
    ⟨by decide +kernel, by decide +kernel, fun k hk h0 => ?_⟩, ⟨fun k hk r hr => ?_, ?_⟩⟩
  · rw [hnsyms] at hk
    obtain rfl | rfl : k = 0 ∨ k = 1 := by omega
    · exact ⟨510, by decide +kernel⟩
    · exact absurd (by decide +kernel) h0
  · rw [hnsyms] at hk
    obtain rfl | rfl : k = 0 ∨ k = 1 := by omega
    · exact absurd (hr.symm.trans (by decide +kernel)) (Option.some_ne_none r)
    · have hone : withCommonJob.request 1 = some ⟨4, 8⟩ := by decide +kernel
      obtain rfl := Option.some.inj (hone.symm.trans hr)
      exact ⟨3, rfl⟩
  · rw [hnsyms]
    decide +kernel

/-- The symbol "end" is at offset 12 at first, and at the final end 28 afterwards. -/
theorem end_moved :
    withCommonJob.locate (withCommonJob.symAt 0) = .combined 12 ∧
    (processSymtab withCommonJob).map
      (fun job' => job'.locate (job'.elf.symAt withCommonJob.symtab)) = .ok (.combined 28) ∧
    ¬∀ (e : Elfdata) (job job' : Job), readElfFile e = .ok job → job.TableInside →
      job.NamesInside → job.Fits → processSymtab job = .ok job' →
      ∀ k < job.nsyms, (job.symAt k).st_shndx ≠ SHN_COMMON →
        job'.locate (job'.elf.symAt (job.symtab + SYM * k)) = job.locate (job.symAt k) := by
  have hbefore : withCommonJob.locate (withCommonJob.symAt 0) = .combined 12 := by decide +kernel
  have hafter : (processSymtab withCommonJob).map
      (fun job' => job'.locate (job'.elf.symAt withCommonJob.symtab)) = .ok (.combined 28) := by
    decide +kernel
  refine ⟨hbefore, hafter, fun h => ?_⟩
  cases hrun : processSymtab withCommonJob with
  | error halt =>
      rw [hrun] at hafter
      cases hafter
  | ok job' =>
      rw [hrun] at hafter
      obtain ⟨hnsyms, htable, hnames, hfits⟩ := withCommonJob_inside
      have hsame := h _ _ _ withCommonJob_read htable hnames hfits hrun 0
        (by rw [hnsyms]; decide) (by decide +kernel)
      rw [hbefore] at hsame
      have hmoved : job'.locate (job'.elf.symAt withCommonJob.symtab) = .combined 28 :=
        Except.ok.inj hafter
      exact absurd (hmoved.symm.trans hsame) (by decide)

def withCommonGlobals : Globals := ⟨withCommonFile, 0x72, some 3, 4, 0⟩

theorem withCommonGlobals_inside : withCommonGlobals.Inside ∧ withCommonGlobals.Fits 3 := by
  obtain ⟨hnsyms, -, -, hfits⟩ := withCommonJob_inside
  refine ⟨⟨by decide +kernel, by decide +kernel, fun bss hb => ?_, by decide +kernel,
    by decide +kernel, by decide +kernel, by decide +kernel⟩, hfits.align, ?_⟩
  · obtain rfl := Option.some.inj hb
    decide +kernel
  · have hnsyms' : withCommonGlobals.nsyms = 2 := hnsyms
    rw [hnsyms']
    decide +kernel

theorem withCommonGlobals_noBss : { withCommonGlobals with bhdr := none }.Inside :=
  { withCommonGlobals_inside.1 with bss := fun bss hb => absurd hb.symm (Option.some_ne_none bss) }

theorem withCommon_placed :
    (∃ gbls', allocbss withCommonGlobals = .ok gbls' ∧ withCommonGlobals.Allocated 3 gbls') ∧
    allocbss { withCommonGlobals with bhdr := none } = .error .complain ∧
    ∃ job' address, processSymtab withCommonJob = .ok job' ∧
      withCommonJob.Allocated job' address := by
  obtain ⟨hin, hfits⟩ := withCommonGlobals_inside
  obtain ⟨-, htable, hnames, hfits'⟩ := withCommonJob_inside
  exact ⟨common_placed.1 _ 3 rfl hin hfits,
    common_placed.2.1 _ rfl withCommonGlobals_noBss ⟨1, by decide +kernel, by decide +kernel⟩,
    common_placed.2.2 _ _ withCommonJob_read htable hnames hfits'⟩

end HydraAmix.Boot
