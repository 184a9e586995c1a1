import HydraAmix.Library.Word
import Mathlib.Data.List.Range

/-!
# The compact relocation table of a kernel

`elf2brel` reads a relocatable ELF file, makes the symbols relative to the start
of one combined section, and makes one relocation table out of those of `.text`,
`.rodata` and `.data`. The file is in memory at `Elfdata`, and an address is an
offset from there; what is read beyond the file is not data of the program.
-/
namespace HydraAmix.Boot.Elf2brel
open Word

/-- The file in memory; a file is shorter than the largest `off_t`. -/
structure Elfdata where
  size : ℕ
  data : ℕ → Byte
  small : size < 0x80000000

/-- How the program ends before it has written anything. -/
inductive Halt where
  | notElf | notRelocatable | noSectionHeaderTable
  | missing (name : List Byte)
  | unboundSym (sym : ℕ)
  | badRelocationType (reltype : ℕ)
  /-- An access outside the file, and a division by zero. -/
  | fault | divide
  deriving DecidableEq, Repr

abbrev Prog := Except Halt

abbrev ET_REL : BitVec 16 := 1
abbrev SHN_ABS : BitVec 16 := 0xFFF1
abbrev SHN_COMMON : BitVec 16 := 0xFFF2
abbrev R_68K_32 : Byte := 1

/-- The sizes of `Elf32_Shdr`, `Elf32_Sym`, `Elf32_Rela` and `struct nrel`. -/
abbrev SHDR : ℕ := 40
abbrev SYM : ℕ := 16
abbrev RELA : ℕ := 12
abbrev NREL : ℕ := 8

def Elfdata.longAt (e : Elfdata) (a : ℕ) : Long :=
  Word.long (e.data a) (e.data (a + 1)) (e.data (a + 2)) (e.data (a + 3))

def Elfdata.shortAt (e : Elfdata) (a : ℕ) : BitVec 16 :=
  Word.short (e.data a) (e.data (a + 1))

def Elfdata.byte (e : Elfdata) (a : ℕ) : Prog Byte :=
  if a + 1 ≤ e.size then .ok (e.data a) else .error .fault

def Elfdata.short (e : Elfdata) (a : ℕ) : Prog (BitVec 16) :=
  if a + 2 ≤ e.size then .ok (e.shortAt a) else .error .fault

def Elfdata.long (e : Elfdata) (a : ℕ) : Prog Long :=
  if a + 4 ≤ e.size then .ok (e.longAt a) else .error .fault

/-- Bytes stored at an address of the file. -/
def Elfdata.store (e : Elfdata) (a : ℕ) (bytes : List Byte) : Prog Elfdata :=
  if a + bytes.length ≤ e.size then
    .ok { e with data := fun x => if a ≤ x then (bytes[x - a]?).getD (e.data x) else e.data x }
  else .error .fault

def Elfdata.setShort (e : Elfdata) (a : ℕ) (v : BitVec 16) : Prog Elfdata :=
  e.store a [(v >>> 8).setWidth 8, v.setWidth 8]

def Elfdata.setLong (e : Elfdata) (a : ℕ) (v : Long) : Prog Elfdata :=
  e.store a [Word.byte v 3, Word.byte v 2, Word.byte v 1, Word.byte v 0]

/-- Whether the string at `a` is `s`; what follows the first difference is not read. -/
def Elfdata.strcmp (e : Elfdata) : List Byte → ℕ → Prog Bool
  | [], a => do return (← e.byte a) = 0
  | c :: s, a => do if (← e.byte a) = c then e.strcmp s (a + 1) else return false

/-- `if (c) { fprintf (stderr, ...); exit (1); }` -/
def haltIf (c : Prop) [Decidable c] (halt : Halt) : Prog Unit :=
  if c then .error halt else .ok ()

/-! ### ReadElfFile -/

/-- `".text"` and the other names of sections. -/
def dotText : List Byte := [0x2E, 0x74, 0x65, 0x78, 0x74]
def dotRodata : List Byte := [0x2E, 0x72, 0x6F, 0x64, 0x61, 0x74, 0x61]
def dotData : List Byte := [0x2E, 0x64, 0x61, 0x74, 0x61]
def dotBss : List Byte := [0x2E, 0x62, 0x73, 0x73]
def dotSymtab : List Byte := [0x2E, 0x73, 0x79, 0x6D, 0x74, 0x61, 0x62]
def dotStrtab : List Byte := [0x2E, 0x73, 0x74, 0x72, 0x74, 0x61, 0x62]
def dotShstrtab : List Byte := [0x2E, 0x73, 0x68, 0x73, 0x74, 0x72, 0x74, 0x61, 0x62]
def dotRela : List Byte := [0x2E, 0x72, 0x65, 0x6C, 0x61]

/-- The indices of the sections, in static storage. -/
structure Indices where
  i_text : ℕ := 0
  i_rodata : ℕ := 0
  i_data : ℕ := 0
  i_bss : ℕ := 0
  i_symtab : ℕ := 0
  i_strtab : ℕ := 0
  i_shstrtab : ℕ := 0
  i_rela_text : ℕ := 0
  i_rela_data : ℕ := 0
  i_rela_rodata : ℕ := 0
  deriving DecidableEq, Repr

/-- The static variables of the program. -/
structure Job where
  elf : Elfdata
  /-- `Shdr` -/
  shdr : ℕ
  i : Indices
  textsize : Long
  rodatasize : Long
  datasize : Long
  bsssize : Long

/-- One turn of the loop over the section headers. -/
def nameSection (e : Elfdata) (shdr shstrtab : ℕ) (i : Indices) (index : ℕ) : Prog Indices := do
  let shdrname := shstrtab + (← e.long (shdr + SHDR * index)).toNat
  if ← e.strcmp dotText shdrname then return { i with i_text := index }
  else if ← e.strcmp dotRodata shdrname then return { i with i_rodata := index }
  else if ← e.strcmp dotData shdrname then return { i with i_data := index }
  else if ← e.strcmp dotBss shdrname then return { i with i_bss := index }
  else if ← e.strcmp dotSymtab shdrname then return { i with i_symtab := index }
  else if ← e.strcmp dotStrtab shdrname then return { i with i_strtab := index }
  else if ← e.strcmp (dotRela ++ dotText) shdrname then return { i with i_rela_text := index }
  else if ← e.strcmp (dotRela ++ dotRodata) shdrname then
    return { i with i_rela_rodata := index }
  else if ← e.strcmp (dotRela ++ dotData) shdrname then return { i with i_rela_data := index }
  else return i

def need (index : ℕ) (name : List Byte) : Prog Unit := haltIf (index = 0) (.missing name)

def readElfFile (e : Elfdata) : Prog Job := do
  haltIf ((← e.byte 0) ≠ 0x7F) .notElf
  haltIf ((← e.byte 1) ≠ 0x45) .notElf
  haltIf ((← e.byte 2) ≠ 0x4C) .notElf
  haltIf ((← e.byte 3) ≠ 0x46) .notElf
  haltIf ((← e.short 16) ≠ ET_REL) .notRelocatable
  let e_shoff ← e.long 32
  haltIf (e_shoff = 0) .noSectionHeaderTable
  let e_shnum ← e.short 48
  haltIf (e_shnum = 0) .noSectionHeaderTable
  let shdr := e_shoff.toNat
  let i_shstrtab := (← e.short 50).toNat
  let shstrtab := (← e.long (shdr + SHDR * i_shstrtab + 16)).toNat
  let i ← (List.range' 1 (e_shnum.toNat - 1)).foldlM (nameSection e shdr shstrtab)
    { i_shstrtab := i_shstrtab }
  need i.i_text dotText
  need i.i_data dotData
  need i.i_bss dotBss
  need i.i_symtab dotSymtab
  need i.i_strtab dotStrtab
  need i.i_shstrtab dotShstrtab
  need i.i_rela_text (dotRela ++ dotText)
  need i.i_rela_data (dotRela ++ dotData)
  let textsize ← e.long (shdr + SHDR * i.i_text + 20)
  let rodatasize ← if i.i_rodata > 0 then e.long (shdr + SHDR * i.i_rodata + 20) else pure 0
  let datasize ← e.long (shdr + SHDR * i.i_data + 20)
  let bsssize ← e.long (shdr + SHDR * i.i_bss + 20)
  return ⟨e, shdr, i, textsize, rodatasize, datasize, bsssize⟩

/-! ### ProcessSymtab -/

def Job.header (job : Job) (index : ℕ) : ℕ := job.shdr + SHDR * index

/-- `Shdr[index].sh_size / Shdr[index].sh_entsize` -/
def Job.entriesIn (job : Job) (index : ℕ) : Prog Long := do
  let sh_size ← job.elf.long (job.header index + 20)
  let sh_entsize ← job.elf.long (job.header index + 36)
  if sh_entsize = 0 then .error .divide else return sh_size / sh_entsize

/-- `Shdr[index].sh_offset` -/
def Job.offsetOf (job : Job) (index : ℕ) : Prog ℕ := do
  return (← job.elf.long (job.header index + 16)).toNat

def Job.setSym (job : Job) (sym : ℕ) (st_value : Long) : Prog Job := do
  let e ← job.elf.setShort (sym + 14) (BitVec.ofNat 16 job.i.i_text)
  let e ← e.setLong (sym + 4) st_value
  return { job with elf := e }

/-- One turn of the first loop; `end` goes with the job. -/
def bindSym (symtab : ℕ) (r : Job × Long) (symidx : ℕ) : Prog (Job × Long) := do
  let (job, end_) := r
  let sym := symtab + SYM * symidx
  let st_shndx ← job.elf.short (sym + 14)
  let st_value ← job.elf.long (sym + 4)
  if st_shndx = SHN_COMMON then
    let end_ := (end_ + (st_value - 1)) &&& ~~~(st_value - 1)
    let job ← job.setSym sym end_
    let end_ := end_ + (← job.elf.long (sym + 8))
    return ({ job with bsssize := end_ - job.textsize - job.rodatasize - job.datasize }, end_)
  else if st_shndx.toNat = job.i.i_text then return (job, end_)
  else if job.i.i_rodata ≠ 0 ∧ st_shndx.toNat = job.i.i_rodata then
    return (← job.setSym sym (st_value + job.textsize), end_)
  else if st_shndx.toNat = job.i.i_data then
    return (← job.setSym sym (st_value + (job.textsize + job.rodatasize)), end_)
  else if st_shndx.toNat = job.i.i_bss then
    return (← job.setSym sym (st_value + (job.textsize + job.rodatasize + job.datasize)), end_)
  else return (job, end_)

/-- `"etext"`, `"edata"` and `"end"` -/
def nameEtext : List Byte := [0x65, 0x74, 0x65, 0x78, 0x74]
def nameEdata : List Byte := [0x65, 0x64, 0x61, 0x74, 0x61]
def nameEnd : List Byte := [0x65, 0x6E, 0x64]

/-- One turn of the second loop. -/
def specialSym (symtab : ℕ) (job : Job) (symidx : ℕ) : Prog Job := do
  let sym := symtab + SYM * symidx
  let st_name ← job.elf.long sym
  if st_name = 0 then return job
  let symname := (← job.offsetOf job.i.i_strtab) + st_name.toNat
  if ← job.elf.strcmp nameEtext symname then job.setSym sym job.textsize
  else if ← job.elf.strcmp nameEdata symname then
    job.setSym sym (job.textsize + job.rodatasize + job.datasize)
  else if ← job.elf.strcmp nameEnd symname then
    job.setSym sym (job.textsize + job.rodatasize + job.datasize + job.bsssize)
  else return job

def processSymtab (job : Job) : Prog Job := do
  let nsyms ← job.entriesIn job.i.i_symtab
  let end_ := job.textsize + job.rodatasize + job.datasize + job.bsssize
  let symtab ← job.offsetOf job.i.i_symtab
  let (job, _) ← (List.range nsyms.toNat).foldlM (bindSym symtab) (job, end_)
  (List.range nsyms.toNat).foldlM (specialSym symtab) job

/-! ### GenRelocTable -/

/-- An entry of the new table. -/
structure Nrel where
  nr_offset : Long
  nr_value : Long
  deriving DecidableEq, Repr

def doRelEntry (job : Job) (relp : ℕ) : Prog Nrel := do
  let symtab ← job.offsetOf job.i.i_symtab
  let r_info ← job.elf.long (relp + 4)
  let sym := symtab + SYM * (r_info >>> 8).toNat
  let st_shndx ← job.elf.short (sym + 14)
  haltIf (st_shndx.toNat ≠ job.i.i_text ∧ st_shndx ≠ SHN_ABS) (.unboundSym (r_info >>> 8).toNat)
  let reltype := r_info.setWidth 8
  let nr_offset ← job.elf.long relp
  let nr_value ← job.elf.long (relp + 8)
  haltIf (reltype ≠ R_68K_32) (.badRelocationType reltype.toNat)
  let nr_value := nr_value + (← job.elf.long (sym + 4))
  return ⟨if st_shndx = SHN_ABS then nr_offset ||| 0x80000000 else nr_offset, nr_value⟩

def Nrel.shifted (r : Nrel) (shift : Long) : Nrel := { r with nr_offset := r.nr_offset + shift }

/-- The three loops over a table, which differ in what is added to the offset:
nothing, `textsize`, or `textsize + rodatasize`. -/
def entries (job : Job) (shift : Long) : ℕ → ℕ → Prog (List Nrel)
  | 0, _ => return []
  | n + 1, oreltabp => do
    let r ← doRelEntry job oreltabp
    let rs ← entries job shift n (oreltabp + RELA)
    return r.shifted shift :: rs

/-- The new table, its length and the number of bytes asked of `malloc`. -/
structure Made where
  nrelcount : Long
  room : Long
  nreltab : List Nrel
  deriving DecidableEq, Repr

/-- `nrodrel` is what the stack has there, unless there is a `.rela.rodata`. -/
def setNrodrel (job : Job) (nrodrel : Long) : Prog Long :=
  if job.i.i_rela_rodata > 0 then job.entriesIn job.i.i_rela_rodata else .ok nrodrel

/-- The second of the three loops. -/
def rodataLoop (job : Job) (nrodrel : Long) : Prog (List Nrel) :=
  if nrodrel > 0 then do
    entries job job.textsize nrodrel.toNat (← job.offsetOf job.i.i_rela_rodata)
  else return []

def genRelocTable (job : Job) (nrodrel : Long) : Prog Made := do
  let ntrel ← job.entriesIn job.i.i_rela_text
  let nrodrel ← setNrodrel job nrodrel
  let ndrel ← job.entriesIn job.i.i_rela_data
  let nrelcount := ntrel + nrodrel + ndrel
  let text ← entries job 0 ntrel.toNat (← job.offsetOf job.i.i_rela_text)
  let rodata ← rodataLoop job nrodrel
  let data ← entries job (job.textsize + job.rodatasize) ndrel.toNat
    (← job.offsetOf job.i.i_rela_data)
  return ⟨nrelcount, nrelcount * BitVec.ofNat 32 NREL, text ++ rodata ++ data⟩

/-- The program up to the new table. -/
def elf2brel (e : Elfdata) (nrodrel : Long) : Prog Made := do
  let job ← readElfFile e
  let job ← processSymtab job
  genRelocTable job nrodrel

/-! ### What the new table has to be -/

section
variable (job : Job)

/-- The fields of a section header, and the count of its table. -/
def Job.tableAt (index : ℕ) : ℕ := (job.elf.longAt (job.header index + 16)).toNat
def Job.entsizeAt (index : ℕ) : Long := job.elf.longAt (job.header index + 36)
def Job.count (index : ℕ) : ℕ :=
  (job.elf.longAt (job.header index + 20) / job.entsizeAt index).toNat

/-- The symbol of the entry at `a`, and whether it is absolute. -/
def Job.symOf (a : ℕ) : ℕ :=
  job.tableAt job.i.i_symtab + SYM * (job.elf.longAt (a + 4) >>> 8).toNat

/-- The entry at `a` is one that can be bound. -/
structure Job.Good (a : ℕ) : Prop where
  inside : a + RELA ≤ job.elf.size
  symtab : job.header job.i.i_symtab + 20 ≤ job.elf.size
  sym : job.symOf a + SYM ≤ job.elf.size
  bound : (job.elf.shortAt (job.symOf a + 14)).toNat = job.i.i_text ∨
    job.elf.shortAt (job.symOf a + 14) = SHN_ABS
  type : (job.elf.longAt (a + 4)).setWidth 8 = R_68K_32

/-- The new entry for the entry at `a`: the offset, with a flag for an absolute
symbol, and the value of the symbol with the addend. -/
def Job.newEntry (a : ℕ) : Nrel :=
  ⟨if job.elf.shortAt (job.symOf a + 14) = SHN_ABS then job.elf.longAt a ||| 0x80000000
    else job.elf.longAt a,
   job.elf.longAt (a + 8) + job.elf.longAt (job.symOf a + 4)⟩

/-- A relocation table in the file, with good entries only. -/
structure Job.TableOk (index : ℕ) : Prop where
  header : job.header index + SHDR ≤ job.elf.size
  entsize : job.entsizeAt index ≠ 0
  entries : ∀ k < job.count index, job.Good (job.tableAt index + RELA * k)

/-- `.rela.rodata` is optional. -/
def Job.HasRodata : Prop := job.i.i_rela_rodata > 0

instance : Decidable job.HasRodata := inferInstanceAs (Decidable (_ > _))

/-- No table makes the program stop. -/
structure Job.Sound : Prop where
  text : job.TableOk job.i.i_rela_text
  rodata : job.HasRodata → job.TableOk job.i.i_rela_rodata
  data : job.TableOk job.i.i_rela_data

def Job.rodataCount : ℕ := if job.HasRodata then job.count job.i.i_rela_rodata else 0

def Job.total : ℕ :=
  job.count job.i.i_rela_text + job.rodataCount + job.count job.i.i_rela_data

/-- One new entry for each entry of a table, in its order. -/
def Job.newEntries (shift : Long) (n a : ℕ) : List Nrel :=
  (List.range n).map (fun k => (job.newEntry (a + RELA * k)).shifted shift)

def Job.newTable : List Nrel :=
  job.newEntries 0 (job.count job.i.i_rela_text) (job.tableAt job.i.i_rela_text) ++
    job.newEntries job.textsize job.rodataCount (job.tableAt job.i.i_rela_rodata) ++
    job.newEntries (job.textsize + job.rodatasize) (job.count job.i.i_rela_data)
      (job.tableAt job.i.i_rela_data)

/-- The table is made of the tables that are there, with its length and the
bytes it needs; where one of them has a bad entry the program stops. -/
structure Job.Combined (out : Prog Made) : Prop where
  sound : job.Sound → ∃ made, out = .ok made ∧ made.nreltab = job.newTable ∧
    made.nrelcount.toNat = job.total ∧ made.room.toNat = NREL * job.total
  unsound : ¬job.Sound → ∃ halt, out = .error halt

end

/-! ### Reading -/

theorem bind_ok {α β : Type} {x : Prog α} {f : α → Prog β} {b : β} (h : x >>= f = .ok b) :
    ∃ a, x = .ok a ∧ f a = .ok b := by
  cases x with
  | error halt => exact absurd h (fun h' => Except.noConfusion rfl rfl (heq_of_eq h'))
  | ok a => exact ⟨a, rfl, h⟩

theorem long_ok {e : Elfdata} {a : ℕ} (h : a + 4 ≤ e.size) : e.long a = .ok (e.longAt a) :=
  if_pos h

theorem short_ok {e : Elfdata} {a : ℕ} (h : a + 2 ≤ e.size) : e.short a = .ok (e.shortAt a) :=
  if_pos h

theorem of_long {e : Elfdata} {a : ℕ} {v : Long} (h : e.long a = .ok v) :
    a + 4 ≤ e.size ∧ v = e.longAt a := by
  unfold Elfdata.long at h
  split at h
  · exact ⟨‹_›, (Except.ok.inj h).symm⟩
  · cases h

theorem of_short {e : Elfdata} {a : ℕ} {v : BitVec 16} (h : e.short a = .ok v) :
    a + 2 ≤ e.size ∧ v = e.shortAt a := by
  unfold Elfdata.short at h
  split at h
  · exact ⟨‹_›, (Except.ok.inj h).symm⟩
  · cases h

theorem haltIf_ok {c : Prop} [Decidable c] {halt : Halt} (h : ¬c) : haltIf c halt = .ok () :=
  if_neg h

theorem of_haltIf {c : Prop} [Decidable c] {halt : Halt} {u : Unit}
    (h : haltIf c halt = .ok u) : ¬c := by
  unfold haltIf at h
  split at h
  · cases h
  · assumption

section
variable {job : Job}

theorem entriesIn_ok {index : ℕ} (hh : job.header index + SHDR ≤ job.elf.size)
    (he : job.entsizeAt index ≠ 0) :
    job.entriesIn index =
      .ok (job.elf.longAt (job.header index + 20) / job.entsizeAt index) := by
  have hh' : job.header index + 40 ≤ job.elf.size := hh
  unfold Job.entriesIn
  rw [long_ok (by omega), long_ok (by omega)]
  exact if_neg he

theorem of_entriesIn {index : ℕ} {n : Long} (h : job.entriesIn index = .ok n) :
    job.header index + SHDR ≤ job.elf.size ∧ job.entsizeAt index ≠ 0 ∧
      n.toNat = job.count index := by
  obtain ⟨sh_size, hsize, h⟩ := bind_ok h
  obtain ⟨sh_entsize, hent, h⟩ := bind_ok h
  obtain ⟨-, rfl⟩ := of_long hsize
  obtain ⟨hin, rfl⟩ := of_long hent
  split at h
  · cases h
  · next hne => exact ⟨hin, hne, congrArg BitVec.toNat (Except.ok.inj h).symm⟩

theorem offsetOf_ok {index : ℕ} (hh : job.header index + 20 ≤ job.elf.size) :
    job.offsetOf index = .ok (job.tableAt index) := by
  unfold Job.offsetOf
  rw [long_ok (by omega)]
  rfl

theorem of_offsetOf {index a : ℕ} (h : job.offsetOf index = .ok a) :
    job.header index + 20 ≤ job.elf.size ∧ a = job.tableAt index := by
  obtain ⟨v, hv, h⟩ := bind_ok h
  obtain ⟨hin, rfl⟩ := of_long hv
  exact ⟨by omega, (Except.ok.inj h).symm⟩

/-! ### The entries -/

theorem doRelEntry_good {a : ℕ} (h : job.Good a) : doRelEntry job a = .ok (job.newEntry a) := by
  have hinside : a + 12 ≤ job.elf.size := h.inside
  have hsym : job.symOf a + 16 ≤ job.elf.size := h.sym
  have hbound : ¬((job.elf.shortAt (job.symOf a + 14)).toNat ≠ job.i.i_text ∧
      job.elf.shortAt (job.symOf a + 14) ≠ SHN_ABS) := by
    rintro ⟨h₁, h₂⟩
    exact h.bound.elim h₁ h₂
  unfold doRelEntry
  rw [offsetOf_ok h.symtab, long_ok (by omega : a + 4 + 4 ≤ job.elf.size)]
  change (job.elf.short (job.symOf a + 14) >>= _) = _
  rw [short_ok (by omega)]
  change (haltIf _ _ >>= _) = _
  rw [haltIf_ok hbound, long_ok (by omega : a + 4 ≤ job.elf.size),
    long_ok (by omega : a + 8 + 4 ≤ job.elf.size)]
  change (haltIf ((job.elf.longAt (a + 4)).setWidth 8 ≠ R_68K_32) _ >>= _) = _
  rw [haltIf_ok (not_not_intro h.type)]
  change (job.elf.long (job.symOf a + 4) >>= _) = _
  rw [long_ok (by omega)]
  rfl

theorem of_doRelEntry {a : ℕ} {r : Nrel} (h : doRelEntry job a = .ok r) : job.Good a := by
  obtain ⟨symtab, hsymtab, h⟩ := bind_ok h
  obtain ⟨r_info, hinfo, h⟩ := bind_ok h
  obtain ⟨hheader, rfl⟩ := of_offsetOf hsymtab
  obtain ⟨-, rfl⟩ := of_long hinfo
  obtain ⟨st_shndx, hshndx, h⟩ := bind_ok h
  obtain ⟨hsym, rfl⟩ := of_short hshndx
  obtain ⟨u, hbound, h⟩ := bind_ok h
  obtain ⟨nr_offset, -, h⟩ := bind_ok h
  obtain ⟨nr_value, hvalue, h⟩ := bind_ok h
  obtain ⟨hin, -⟩ := of_long hvalue
  obtain ⟨v, htype, -⟩ := bind_ok h
  refine ⟨hin, hheader, hsym, ?_, ?_⟩
  · rcases not_and_or.mp (of_haltIf hbound) with hb | hb
    · exact Or.inl (not_not.mp hb)
    · exact Or.inr (not_not.mp hb)
  · exact not_not.mp (of_haltIf htype)

/-- The loop over a table of good entries makes one new entry of each. -/
theorem entries_good (shift : Long) : ∀ (n a : ℕ), (∀ k < n, job.Good (a + RELA * k)) →
    entries job shift n a = .ok (job.newEntries shift n a) := by
  intro n
  induction n with
  | zero => intro a _; rfl
  | succ n ih =>
    intro a h
    have hrest : ∀ k < n, job.Good (a + RELA + RELA * k) := by
      intro k hk
      have := h (k + 1) (Nat.succ_lt_succ hk)
      rwa [Nat.mul_succ, Nat.add_comm (RELA * k), ← Nat.add_assoc] at this
    unfold entries
    have hfirst : job.Good a := h 0 (Nat.succ_pos n)
    rw [doRelEntry_good hfirst]
    change (entries job shift n (a + RELA) >>= _) = _
    rw [ih _ hrest, Job.newEntries, Job.newEntries, List.range_succ_eq_map, List.map_cons,
      List.map_map]
    change Except.ok (_ :: _) = Except.ok (_ :: _)
    congr 2
    apply List.map_congr_left
    intro k _
    simp only [Function.comp, Nat.mul_succ, Nat.add_comm (RELA * k), Nat.add_assoc]

theorem of_entries {shift : Long} : ∀ {n a : ℕ} {rs : List Nrel},
    entries job shift n a = .ok rs → ∀ k < n, job.Good (a + RELA * k) := by
  intro n
  induction n with
  | zero => intro a rs _ k hk; exact absurd hk (Nat.not_lt_zero k)
  | succ n ih =>
    intro a rs h k hk
    obtain ⟨r, hr, h⟩ := bind_ok h
    obtain ⟨rs', hrs, -⟩ := bind_ok h
    cases k with
    | zero => exact of_doRelEntry hr
    | succ k =>
      rw [Nat.mul_succ, Nat.add_comm (RELA * k), ← Nat.add_assoc]
      exact ih hrs k (Nat.lt_of_succ_lt_succ hk)

/-- The entries of a table are in the file, so they are no more than it has room for. -/
theorem Job.TableOk.count_le {index : ℕ} (h : job.TableOk index) :
    RELA * job.count index ≤ job.elf.size := by
  rcases Nat.eq_zero_or_pos (job.count index) with h0 | hpos
  · rw [h0]
    exact Nat.zero_le _
  · have hlast := (h.entries _ (Nat.sub_lt hpos Nat.one_pos)).inside
    have hlast' : job.tableAt index + 12 * (job.count index - 1) + 12 ≤ job.elf.size := hlast
    change 12 * job.count index ≤ job.elf.size
    omega

/-- The count and the room of a sound job do not wrap. -/
theorem Job.Sound.small (h : job.Sound) : NREL * job.total < 0x100000000 := by
  have htext := h.text.count_le
  have hdata := h.data.count_le
  have hrodata : RELA * job.rodataCount ≤ job.elf.size := by
    unfold Job.rodataCount
    split
    · next hr => exact (h.rodata hr).count_le
    · exact Nat.zero_le _
  have hsmall := job.elf.small
  change 12 * _ ≤ _ at htext
  change 12 * _ ≤ _ at hdata
  change 12 * _ ≤ _ at hrodata
  change 8 * (_ + _ + _) < _
  omega

/-! ### The table -/

/-- The number of entries that the program takes from `.rela.rodata`, with what
the stack has in place of the number. -/
def Job.rodataLong (job : Job) (nrodrel : Long) : Long :=
  if job.HasRodata then
    job.elf.longAt (job.header job.i.i_rela_rodata + 20) / job.entsizeAt job.i.i_rela_rodata
  else nrodrel

theorem setNrodrel_pos (h : job.HasRodata) (nrodrel : Long) :
    setNrodrel job nrodrel = job.entriesIn job.i.i_rela_rodata :=
  if_pos h

theorem setNrodrel_neg (h : ¬job.HasRodata) (nrodrel : Long) :
    setNrodrel job nrodrel = .ok nrodrel :=
  if_neg h

def Job.countLong (job : Job) (index : ℕ) : Long :=
  job.elf.longAt (job.header index + 20) / job.entsizeAt index

/-- A table comes only of a sound job, with a length that is the sum of the three
numbers. -/
theorem of_genRelocTable {nrodrel : Long} {made : Made}
    (h : genRelocTable job nrodrel = .ok made) :
    job.Sound ∧ made.nrelcount = job.countLong job.i.i_rela_text + job.rodataLong nrodrel +
      job.countLong job.i.i_rela_data := by
  obtain ⟨ntrel, htext, h⟩ := bind_ok h
  obtain ⟨n, hrodata, h⟩ := bind_ok h
  obtain ⟨ndrel, hdata, h⟩ := bind_ok h
  obtain ⟨textAt, hta, h⟩ := bind_ok h
  obtain ⟨text, htexts, h⟩ := bind_ok h
  obtain ⟨rodata, hrodatas, h⟩ := bind_ok h
  obtain ⟨dataAt, hda, h⟩ := bind_ok h
  obtain ⟨data, hdatas, h⟩ := bind_ok h
  have ht := of_entriesIn htext
  have hd := of_entriesIn hdata
  rw [(of_offsetOf hta).2] at htexts
  rw [(of_offsetOf hda).2] at hdatas
  have hgoodText := of_entries htexts
  have hgoodData := of_entries hdatas
  obtain rfl := Except.ok.inj h
  have hlong : ∀ {index : ℕ} {m : Long}, job.entriesIn index = .ok m → m = job.countLong index := by
    intro index m hm
    exact BitVec.eq_of_toNat_eq (of_entriesIn hm).2.2
  refine ⟨⟨⟨ht.1, ht.2.1, fun k hk => hgoodText k (ht.2.2 ▸ hk)⟩, ?_,
    ⟨hd.1, hd.2.1, fun k hk => hgoodData k (hd.2.2 ▸ hk)⟩⟩, ?_⟩
  · intro hhas
    rw [setNrodrel_pos hhas] at hrodata
    have hr := of_entriesIn hrodata
    refine ⟨hr.1, hr.2.1, ?_⟩
    intro k hk
    have hpos : n > 0 := by
      rw [gt_iff_lt, BitVec.lt_def]
      exact Nat.lt_of_le_of_lt (Nat.zero_le k) (hr.2.2 ▸ hk)
    unfold rodataLoop at hrodatas
    rw [if_pos hpos] at hrodatas
    obtain ⟨rodataAt, hra, hentries⟩ := bind_ok hrodatas
    obtain ⟨-, rfl⟩ := of_offsetOf hra
    exact of_entries hentries k (hr.2.2 ▸ hk)
  · change ntrel + n + ndrel = _
    rw [hlong htext, hlong hdata]
    congr 2
    unfold Job.rodataLong
    by_cases hhas : job.HasRodata
    · rw [setNrodrel_pos hhas] at hrodata
      rw [if_pos hhas]
      exact hlong hrodata
    · rw [setNrodrel_neg hhas] at hrodata
      rw [if_neg hhas]
      exact (Except.ok.inj hrodata).symm

/-- Where `.rela.rodata` is there, or the stack happens to have a 0, the table of
a sound job is the one it has to be. -/
theorem genRelocTable_sound (h : job.Sound) {nrodrel : Long}
    (hr : (job.rodataLong nrodrel).toNat = job.rodataCount) :
    ∃ made, genRelocTable job nrodrel = .ok made ∧ made.nreltab = job.newTable ∧
      made.nrelcount.toNat = job.total ∧ made.room.toNat = NREL * job.total := by
  have hsmall : 8 * job.total < 0x100000000 := h.small
  have htotal : (job.countLong job.i.i_rela_text + job.rodataLong nrodrel +
      job.countLong job.i.i_rela_data).toNat = job.total := by
    rw [BitVec.toNat_add, BitVec.toNat_add, hr]
    change ((job.count _ + job.rodataCount) % _ + job.count _) % _ = _
    rw [Nat.mod_add_mod]
    exact Nat.mod_eq_of_lt (by change job.total < _; omega)
  have hoffset : ∀ {index : ℕ}, job.TableOk index → job.header index + 20 ≤ job.elf.size :=
    fun ht => Nat.le_trans (Nat.add_le_add_left (by decide) _) ht.header
  have hset : setNrodrel job nrodrel = .ok (job.rodataLong nrodrel) := by
    unfold Job.rodataLong
    by_cases hhas : job.HasRodata
    · rw [if_pos hhas, setNrodrel_pos hhas]
      exact entriesIn_ok (h.rodata hhas).header (h.rodata hhas).entsize
    · rw [if_neg hhas, setNrodrel_neg hhas]
  have hrodata : rodataLoop job (job.rodataLong nrodrel) =
      .ok (job.newEntries job.textsize job.rodataCount (job.tableAt job.i.i_rela_rodata)) := by
    unfold rodataLoop
    rw [hr]
    by_cases hpos : job.rodataLong nrodrel > 0
    · have hhas : job.HasRodata := by
        by_contra hno
        rw [gt_iff_lt, BitVec.lt_def, hr, Job.rodataCount, if_neg hno] at hpos
        exact absurd hpos (Nat.lt_irrefl _)
      have hcount : job.rodataCount = job.count job.i.i_rela_rodata := if_pos hhas
      rw [if_pos hpos, offsetOf_ok (hoffset (h.rodata hhas))]
      exact entries_good _ _ _ (hcount ▸ (h.rodata hhas).entries)
    · have hzero : job.rodataCount = 0 := by
        rw [gt_iff_lt, BitVec.lt_def, hr] at hpos
        exact Nat.eq_zero_of_not_pos hpos
      rw [if_neg hpos, hzero]
      rfl
  refine ⟨⟨job.countLong job.i.i_rela_text + job.rodataLong nrodrel +
    job.countLong job.i.i_rela_data, (job.countLong job.i.i_rela_text +
    job.rodataLong nrodrel + job.countLong job.i.i_rela_data) * BitVec.ofNat 32 NREL,
    job.newTable⟩, ?_, rfl, htotal, ?_⟩
  · unfold genRelocTable
    rw [entriesIn_ok h.text.header h.text.entsize, hset,
      entriesIn_ok h.data.header h.data.entsize, offsetOf_ok (hoffset h.text)]
    change (entries job 0 (job.count job.i.i_rela_text) _ >>= _) = _
    rw [entries_good 0 _ _ h.text.entries]
    change (rodataLoop job (job.rodataLong nrodrel) >>= _) = _
    rw [hrodata, offsetOf_ok (hoffset h.data)]
    change (entries job _ (job.count job.i.i_rela_data) _ >>= _) = _
    rw [entries_good _ _ _ h.data.entries]
    rfl
  · change (_ * BitVec.ofNat 32 NREL).toNat = _
    rw [BitVec.toNat_mul, htotal]
    change job.total * 8 % 0x100000000 = 8 * job.total
    rw [Nat.mul_comm, Nat.mod_eq_of_lt hsmall]

/-- The new table does not depend on what the stack has exactly where there is
a `.rela.rodata`, or where a bad entry stops the program in any case. -/
theorem genRelocTable_iff (job : Job) :
    (∀ nrodrel, job.Combined (genRelocTable job nrodrel)) ↔ job.HasRodata ∨ ¬job.Sound := by
  constructor
  · intro h
    by_contra hno
    rw [not_or, not_not] at hno
    obtain ⟨hhas, hsound⟩ := hno
    obtain ⟨made₀, h₀, -, hcount₀, -⟩ := (h 0).sound hsound
    obtain ⟨made₁, h₁, -, hcount₁, -⟩ := (h 1).sound hsound
    have heq : made₀.nrelcount = made₁.nrelcount :=
      BitVec.eq_of_toNat_eq (hcount₀.trans hcount₁.symm)
    rw [(of_genRelocTable h₀).2, (of_genRelocTable h₁).2, Job.rodataLong, if_neg hhas,
      Job.rodataLong, if_neg hhas] at heq
    have h01 : (0 : Long) = 1 := by
      have := (BitVec.add_left_inj _).mp heq
      exact (BitVec.add_right_inj _).mp this
    exact absurd h01 (by decide)
  · intro h nrodrel
    constructor
    · intro hsound
      have hhas : job.HasRodata := h.resolve_right (not_not_intro hsound)
      apply genRelocTable_sound hsound
      unfold Job.rodataLong Job.rodataCount
      rw [if_pos hhas, if_pos hhas]
      rfl
    · intro hsound
      cases hout : genRelocTable job nrodrel with
      | error halt => exact ⟨halt, rfl⟩
      | ok made => exact absurd (of_genRelocTable hout).1 hsound

end

/-! ### A file without read-only data -/

/-- A section header of a section with nothing in it, `sh_offset` past the names. -/
def emptySection (sh_name sh_entsize : Byte) : List Byte :=
  [0, 0, 0, sh_name, 0, 0, 0, 1, 0, 0, 0, 0, 0, 0, 0, 0, 0, 0, 0x01, 0xE0,
   0, 0, 0, 0, 0, 0, 0, 0, 0, 0, 0, 0, 0, 0, 0, 1, 0, 0, 0, sh_entsize]

/-- The sections that have to be there, all of them empty but the one with the
names of the sections. -/
def noRodata : List Byte :=
  [0x7F, 0x45, 0x4C, 0x46, 1, 2, 1, 0, 0, 0, 0, 0, 0, 0, 0, 0, 0, 1, 0, 4, 0, 0, 0, 1,
   0, 0, 0, 0, 0, 0, 0, 0, 0, 0, 0, 0x72, 0, 0, 0, 0, 0, 52, 0, 0, 0, 0, 0, 40, 0, 9, 0, 6] ++
  [0] ++ dotRela ++ dotText ++ [0] ++ dotRela ++ dotData ++ [0] ++ dotBss ++ [0] ++ dotSymtab ++
  [0] ++ dotStrtab ++ [0] ++ dotShstrtab ++ [0, 0, 0, 0, 0, 0, 0, 0, 0] ++
  List.replicate 40 0 ++ emptySection 6 0 ++ emptySection 17 0 ++ emptySection 23 0 ++
  emptySection 28 16 ++ emptySection 36 0 ++
  [0, 0, 0, 44, 0, 0, 0, 3, 0, 0, 0, 0, 0, 0, 0, 0, 0, 0, 0, 52,
   0, 0, 0, 56, 0, 0, 0, 0, 0, 0, 0, 0, 0, 0, 0, 1, 0, 0, 0, 0] ++
  emptySection 1 12 ++ emptySection 12 12

def noRodataFile : Elfdata := ⟨noRodata.length, fun a => noRodata.getD a 0, by decide +kernel⟩

/-- With a 0 on the stack the table of the file is empty, as it has to be; with a
1 the first entry is taken from the ELF header, and its symbol is outside the file. -/
theorem noRodata_depends :
    elf2brel noRodataFile 0 = .ok ⟨0, 0, []⟩ ∧ elf2brel noRodataFile 1 = .error .fault ∧
    ¬∀ (e : Elfdata) (job job' : Job), readElfFile e = .ok job → processSymtab job = .ok job' →
      ∀ nrodrel, job'.Combined (genRelocTable job' nrodrel) := by
  have h0 : elf2brel noRodataFile 0 = .ok ⟨0, 0, []⟩ := by decide +kernel
  have h1 : elf2brel noRodataFile 1 = .error .fault := by decide +kernel
  refine ⟨h0, h1, ?_⟩
  intro h
  obtain ⟨job, hread, h0'⟩ := bind_ok h0
  obtain ⟨job', hsym, hgen0⟩ := bind_ok h0'
  have hgen1 : genRelocTable job' 1 = .error .fault := by
    have heq : elf2brel noRodataFile 1 = genRelocTable job' 1 := by
      unfold elf2brel
      rw [hread]
      change (processSymtab job >>= _) = _
      rw [hsym]
      rfl
    exact heq.symm.trans h1
  have hsound : job'.Sound := (of_genRelocTable hgen0).1
  obtain ⟨made, hmade, -⟩ := (h _ _ _ hread hsym 1).sound hsound
  rw [hgen1] at hmade
  cases hmade

end HydraAmix.Boot.Elf2brel
