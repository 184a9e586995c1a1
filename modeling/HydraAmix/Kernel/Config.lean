import HydraAmix.Library.Word
import Mathlib.Data.List.FinRange
import Mathlib.Logic.Function.Basic

/-!
# What the kernel takes over from the bootstrap

`config` runs before the memory is managed. It copies the expansion boards and
the memory regions from where the boot method left them, and then looks for the
block of memory around the end of the kernel: a pass goes over the regions and
lets each of them lower `MAINSTORE` or raise the top of the block, and passes
are made until one of them changes nothing.
-/
namespace HydraAmix.Kernel
open Word

abbrev NAUTO : ℕ := 16
abbrev ERTF_MEMLIST : Byte := 1 <<< 5

abbrev A2620 : Long := 1
abbrev EXEC0 : Long := 2
abbrev EXEC1 : Long := 3

abbrev APNARAM : Long := 0x01000000
abbrev APNMEMB : Long := 0x0202000A
abbrev APNM020 : Long := 0x02020050
abbrev APNM030 : Long := 0x02020051

/-- An expansion board as AmigaDOS describes it. -/
structure ConfigDev where
  er_Type : Byte
  er_Product : Byte
  er_Manufacturer : BitVec 16
  cd_BoardAddr : Long
  cd_BoardSize : Long
  deriving DecidableEq, Repr

/-- A region of memory, from its lower bound up to its upper bound. -/
structure MemHeader where
  mh_Lower : Long
  mh_Upper : Long
  deriving DecidableEq, Repr

/-- An expansion board as the ROM of the A2620 describes it. -/
structure Acon where
  ac_pnum : Long
  ac_base : Long
  ac_over : Long
  deriving DecidableEq, Repr

structure Bootinfo where
  autocon : Fin NAUTO → ConfigDev
  memory : Fin NAUTO → MemHeader
  bd_tvaddr : Long

/-- `struct bootinfo bootinfo = { { 0 } }` -/
def bootinfo : Bootinfo := ⟨fun _ => ⟨0, 0, 0, 0, 0⟩, fun _ => ⟨0, 0⟩, 0⟩

/-- What the monitor or the bootstrap left in memory: the table of the ROM, and
at `boot_arg1` the table of method `EXEC0` or the record of method `EXEC1`. -/
structure Left where
  av_acon : Fin NAUTO → Acon
  table : Fin NAUTO → ConfigDev
  record : Bootinfo

def slots : List (Fin NAUTO) := List.finRange NAUTO

/-- `bootinfo.memory[nmem] = m`; no path of `config` has `nmem` beyond the table. -/
def setMemory (memory : Fin NAUTO → MemHeader) (nmem : ℕ) (m : MemHeader) :
    Fin NAUTO → MemHeader :=
  fun j => if j.val = nmem then m else memory j

/-- The `ConfigDev` made of an entry of the ROM's table; `er_Type` is not set. -/
def Acon.configDev (a : Acon) (d : ConfigDev) : ConfigDev :=
  { d with cd_BoardAddr := a.ac_base, cd_BoardSize := a.ac_over
           er_Manufacturer := (a.ac_pnum >>> 16).setWidth 16
           er_Product := a.ac_pnum.setWidth 8 }

def Acon.isMemory (a : Acon) : Bool :=
  a.ac_pnum = APNARAM ∨ a.ac_pnum = APNMEMB ∨ a.ac_pnum = APNM020 ∨ a.ac_pnum = APNM030

def Acon.region (a : Acon) : MemHeader := ⟨a.ac_base, a.ac_base + a.ac_over⟩

def ConfigDev.isMemory (d : ConfigDev) : Bool := d.er_Type &&& ERTF_MEMLIST ≠ 0

def ConfigDev.region (d : ConfigDev) : MemHeader :=
  ⟨d.cd_BoardAddr, d.cd_BoardAddr + d.cd_BoardSize⟩

/-- The memory boards of method `A2620`; `nmem` is kept from turn to turn. -/
def a2620Memory (av : Fin NAUTO → Acon) (memory : Fin NAUTO → MemHeader) :
    (Fin NAUTO → MemHeader) × ℕ :=
  slots.foldl (fun (memory, nmem) i =>
    if (av i).isMemory then (setMemory memory nmem (av i).region, nmem + 1)
    else (memory, nmem)) (memory, 0)

/-- The memory boards of method `EXEC0`; `nmem` is declared in the loop. -/
def exec0Memory (autocon : Fin NAUTO → ConfigDev) (memory : Fin NAUTO → MemHeader) :
    Fin NAUTO → MemHeader :=
  slots.foldl (fun memory i =>
    let nmem := 0
    if (autocon i).isMemory then setMemory memory nmem (autocon i).region
    else memory) memory

/-- The copy of the boot information, with `kernel_load_address`; `none` is the panic. -/
def copyBoot (left : Left) (boot_arg0 : Long) (b : Bootinfo) (kernel_load_address : Long) :
    Option (Bootinfo × Long) :=
  if boot_arg0 = A2620 then
    some ({ b with autocon := fun i => (left.av_acon i).configDev (b.autocon i)
                   memory := (a2620Memory left.av_acon b.memory).1 }, 0x200000)
  else if boot_arg0 = EXEC0 then
    some ({ b with autocon := left.table, memory := exec0Memory left.table b.memory },
      kernel_load_address)
  else if boot_arg0 = EXEC1 then
    some (left.record, left.record.bd_tvaddr)
  else none

/-! ### Main memory -/

structure Store where
  MAINSTORE : Long
  VSIZOFMEM : Long
  deriving DecidableEq, Repr

/-- The region overlaps or touches the bottom and reaches below it. -/
abbrev Store.Below (s : Store) (m : MemHeader) : Prop :=
  m.mh_Lower < s.MAINSTORE ∧ m.mh_Upper ≥ s.MAINSTORE

/-- The region overlaps or touches the top and reaches above it. -/
abbrev Store.Above (s : Store) (m : MemHeader) : Prop :=
  m.mh_Lower ≤ s.MAINSTORE + s.VSIZOFMEM ∧ m.mh_Upper > s.MAINSTORE + s.VSIZOFMEM

/-- The first test of a turn; the size stays, so the top moves down as well. -/
def lower (m : MemHeader) (r : Store × ℕ) : Store × ℕ :=
  if r.1.Below m then ({ r.1 with MAINSTORE := m.mh_Lower }, r.2 + 1) else r

/-- The second test of a turn. -/
def raise (m : MemHeader) (r : Store × ℕ) : Store × ℕ :=
  if r.1.Above m then
    ({ r.1 with VSIZOFMEM := m.mh_Upper - r.1.MAINSTORE }, r.2 + 1)
  else r

/-- The `for` loop over a list of regions, with `found`. -/
def turns (ms : List MemHeader) (r : Store × ℕ) : Store × ℕ :=
  ms.foldl (fun r m => raise m (lower m r)) r

def regions (memory : Fin NAUTO → MemHeader) : List MemHeader := slots.map memory

/-- The `do` loop; `none` when the supply of passes runs out. -/
def passes (ms : List MemHeader) : ℕ → Store → Option Store
  | 0, _ => none
  | supply + 1, s =>
    let r := turns ms (s, 0)
    if r.2 = 0 then some r.1 else passes ms supply r.1

/-- `MAINSTORE` and `VSIZOFMEM` before the fallback. -/
def mainMemory (memory : Fin NAUTO → MemHeader) (supply : ℕ) (end_ : Long) : Option Store :=
  passes (regions memory) supply ⟨end_, 0⟩

/-- The fallback of `QUICK_KLUDGE`. -/
def quickKludge (end_ : Long) (s : Store) : Store :=
  if s.VSIZOFMEM = 0 ∧ end_ > 0x7000000 then
    ⟨end_ &&& 0xF7C00000, 0x08000000 - (end_ &&& 0xF7C00000)⟩
  else s

/-- `config`, as far as it decides where memory is. -/
def config (left : Left) (boot_arg0 : Long) (supply : ℕ) (end_ : Long) :
    Option (Bootinfo × Store) := do
  let (b, _) ← copyBoot left boot_arg0 bootinfo 0
  let s ← mainMemory b.memory supply end_
  return (b, quickKludge end_ s)

/-! ### The recorded boards -/

section
variable {α : Type} (region : α → MemHeader)

/-- The table that has one region for each entry of a list, in its order. -/
def recorded (entries : List α) (memory : Fin NAUTO → MemHeader) : Fin NAUTO → MemHeader :=
  fun j => ((entries[j.val]?).map region).getD (memory j)

end

/-- The memory boards of a table, in its order. -/
def ConfigDev.boards (t : Fin NAUTO → ConfigDev) : List ConfigDev :=
  (slots.map t).filter ConfigDev.isMemory

def Acon.boards (t : Fin NAUTO → Acon) : List Acon := (slots.map t).filter Acon.isMemory

theorem a2620_fold (av : Fin NAUTO → Acon) :
    ∀ (is : List (Fin NAUTO)) (memory : Fin NAUTO → MemHeader) (nmem : ℕ) (j : Fin NAUTO),
      ((is.foldl (fun (r : (Fin NAUTO → MemHeader) × ℕ) i =>
        if (av i).isMemory then (setMemory r.1 r.2 (av i).region, r.2 + 1)
        else (r.1, r.2)) (memory, nmem)).1 j) =
      if j.val < nmem then memory j
      else ((((is.map av).filter Acon.isMemory)[j.val - nmem]?).map Acon.region).getD
        (memory j) := by
  intro is
  induction is with
  | nil => intro memory nmem j; simp
  | cons i is ih =>
    intro memory nmem j
    rw [List.foldl_cons, List.map_cons, List.filter_cons]
    by_cases hi : (av i).isMemory = true
    · rw [if_pos hi, if_pos hi, ih]
      rcases Nat.lt_trichotomy j.val nmem with hj | hj | hj
      · rw [if_pos (Nat.lt_succ_of_lt hj), if_pos hj, setMemory, if_neg (Nat.ne_of_lt hj)]
      · rw [if_pos (hj ▸ Nat.lt_succ_self _), if_neg (hj ▸ Nat.lt_irrefl _), setMemory, if_pos hj,
          hj, Nat.sub_self]
        rfl
      · have hs : j.val - nmem = (j.val - (nmem + 1)) + 1 := by omega
        rw [if_neg (by omega), if_neg (by omega), hs, List.getElem?_cons_succ, setMemory,
          if_neg (by omega)]
    · rw [if_neg hi, if_neg hi, ih]

/-- The memory boards of method `A2620` are recorded each in its own slot. -/
theorem a2620Memory_recorded (av : Fin NAUTO → Acon) (memory : Fin NAUTO → MemHeader) :
    (a2620Memory av memory).1 = recorded Acon.region (Acon.boards av) memory := by
  funext j
  exact (a2620_fold av slots memory 0 j).trans (if_neg (Nat.not_lt_zero _))

/-- A turn of the loop of method `EXEC0` writes the first slot or nothing. -/
theorem exec0_fold (t : Fin NAUTO → ConfigDev) :
    ∀ (is : List (Fin NAUTO)) (memory : Fin NAUTO → MemHeader) (j : Fin NAUTO),
      (is.foldl (fun memory i =>
        if (t i).isMemory then setMemory memory 0 (t i).region else memory) memory) j =
      if j.val = 0 then
        ((((is.map t).filter ConfigDev.isMemory).getLast?).map ConfigDev.region).getD (memory j)
      else memory j := by
  intro is
  induction is with
  | nil => intro memory j; simp
  | cons i is ih =>
    intro memory j
    rw [List.foldl_cons, List.map_cons, List.filter_cons]
    by_cases hi : (t i).isMemory = true
    · rw [if_pos hi, if_pos hi, ih, List.getLast?_cons]
      by_cases hj : j.val = 0
      · rw [if_pos hj, if_pos hj, setMemory, if_pos hj]
        cases ((is.map t).filter ConfigDev.isMemory).getLast? <;> rfl
      · rw [if_neg hj, if_neg hj, setMemory, if_neg hj]
    · rw [if_neg hi, if_neg hi, ih]

theorem exec0Memory_apply (t : Fin NAUTO → ConfigDev) (memory : Fin NAUTO → MemHeader)
    (j : Fin NAUTO) :
    exec0Memory t memory j =
      if j.val = 0 then
        (((ConfigDev.boards t).getLast?).map ConfigDev.region).getD (memory j)
      else memory j :=
  exec0_fold t slots memory j

theorem ConfigDev.boards_length (t : Fin NAUTO → ConfigDev) :
    (ConfigDev.boards t).length ≤ NAUTO := by
  have h := List.length_filter_le ConfigDev.isMemory (slots.map t)
  rw [List.length_map] at h
  exact h.trans (Nat.le_of_eq (List.length_finRange))

theorem ConfigDev.region_zero {d : ConfigDev} :
    d.region = ⟨0, 0⟩ ↔ d.cd_BoardAddr = 0 ∧ d.cd_BoardSize = 0 := by
  rw [ConfigDev.region, MemHeader.mk.injEq]
  constructor
  · rintro ⟨ha, hs⟩
    rw [ha] at hs
    exact ⟨ha, (BitVec.zero_add _).symm.trans hs⟩
  · rintro ⟨ha, hs⟩
    rw [ha, hs]
    exact ⟨rfl, rfl⟩

/-- Method `EXEC0` records every memory board of a table in the slot of its
place among them only if there is at most one, or if none of them has an address
or a size. -/
theorem exec0_records_iff (left : Left) :
    (∃ b load, copyBoot left EXEC0 bootinfo 0 = some (b, load) ∧ b.autocon = left.table ∧
      ∀ (j : Fin NAUTO) (d : ConfigDev), (ConfigDev.boards left.table)[j.val]? = some d →
        b.memory j = d.region) ↔
    (ConfigDev.boards left.table).length ≤ 1 ∨
      ∀ d ∈ ConfigDev.boards left.table, d.cd_BoardAddr = 0 ∧ d.cd_BoardSize = 0 := by
  have hcopy : copyBoot left EXEC0 bootinfo 0 =
      some (⟨left.table, exec0Memory left.table bootinfo.memory, 0⟩, 0) := by
    unfold copyBoot
    rw [if_neg (by decide), if_pos rfl]
    rfl
  rw [hcopy]
  have hlen := ConfigDev.boards_length left.table
  generalize hds : ConfigDev.boards left.table = ds at hlen ⊢
  -- what the tables of the two sides say of a slot
  have hmem : ∀ j : Fin NAUTO, exec0Memory left.table bootinfo.memory j =
      if j.val = 0 then ((ds.getLast?).map ConfigDev.region).getD ⟨0, 0⟩ else ⟨0, 0⟩ := by
    intro j
    rw [exec0Memory_apply, hds]
    rfl
  constructor
  · rintro ⟨b, load, h, -, hrec⟩
    obtain ⟨rfl, -⟩ := Prod.mk.inj (Option.some.inj h)
    change ∀ (j : Fin NAUTO) (d : ConfigDev), ds[j.val]? = some d →
      exec0Memory left.table bootinfo.memory j = d.region at hrec
    by_cases hone : ds.length ≤ 1
    · exact Or.inl hone
    apply Or.inr
    -- the last board is in a slot that the loop never writes, and so has nothing
    have hlast : ∀ j, 0 < j → (hj : j < ds.length) → ds[j].region = ⟨0, 0⟩ := by
      intro j hpos hj
      rw [← hrec ⟨j, hj.trans_le hlen⟩ ds[j] (List.getElem?_eq_getElem hj), hmem,
        if_neg (Nat.ne_of_gt hpos)]
    have hpos : 0 < ds.length := by omega
    have hfirst : ds[0].region = ⟨0, 0⟩ := by
      have h0 := hrec ⟨0, by decide⟩ ds[0] (List.getElem?_eq_getElem hpos)
      rw [← h0, hmem, if_pos rfl, List.getLast?_eq_getElem?,
        List.getElem?_eq_getElem (by omega), Option.map_some, Option.getD_some]
      exact hlast _ (by omega) (by omega)
    intro d hd
    obtain ⟨j, hj, rfl⟩ := List.getElem_of_mem hd
    rw [← ConfigDev.region_zero]
    rcases Nat.eq_zero_or_pos j with rfl | hpos
    · exact hfirst
    · exact hlast j hpos hj
  · intro h
    refine ⟨_, _, rfl, rfl, fun j d hd => ?_⟩
    obtain ⟨hj, hjd⟩ := List.getElem?_eq_some_iff.mp hd
    change exec0Memory left.table bootinfo.memory j = d.region
    rw [hmem]
    rcases h with hone | hzero
    · rw [if_pos (by omega), List.getLast?_eq_getElem?, ← hjd,
        show ds.length - 1 = j.val by omega, List.getElem?_eq_getElem hj]
      rfl
    · rw [ConfigDev.region_zero.mpr (hzero d (hjd ▸ List.getElem_mem hj))]
      split
      · cases hl : ds.getLast? with
        | none => rfl
        | some e =>
          exact ConfigDev.region_zero.mpr (hzero e (List.mem_of_getLast? hl))
      · rfl

/-- Two memory boards of four megabytes, at two addresses. -/
def twoBoards : Left :=
  ⟨fun _ => ⟨0, 0, 0⟩,
   fun i => if i.val = 0 then ⟨0xE0, 81, 514, 0x200000, 0x400000⟩
     else if i.val = 1 then ⟨0xE0, 10, 514, 0x600000, 0x400000⟩ else ⟨0xC0, 1, 514, 0, 0⟩,
   bootinfo⟩

/-- Of two memory boards the second takes the slot of the first. -/
theorem exec0_loses_a_board :
    (copyBoot twoBoards EXEC0 bootinfo 0).map (fun r => (r.1.memory 0, r.1.memory 1)) =
      some (⟨0x600000, 0xA00000⟩, ⟨0, 0⟩) ∧
    ¬ ∃ b load, copyBoot twoBoards EXEC0 bootinfo 0 = some (b, load) ∧
      b.autocon = twoBoards.table ∧
      ∀ (j : Fin NAUTO) (d : ConfigDev),
        (ConfigDev.boards twoBoards.table)[j.val]? = some d → b.memory j = d.region := by
  refine ⟨by decide, ?_⟩
  rintro ⟨b, load, h, -, hrec⟩
  have hm : b.memory 0 = ⟨0x600000, 0xA00000⟩ := by
    rw [← congrArg (fun r => r.1.memory 0) (Option.some.inj h)]
    decide
  have h0 := hrec 0 ⟨0xE0, 81, 514, 0x200000, 0x400000⟩ (by decide)
  rw [hm] at h0
  exact absurd h0 (by decide)


/-! ### The block around the end of the kernel -/

/-- Some region has the byte at address `a`. -/
def Covered (ms : List MemHeader) (a : ℕ) : Prop :=
  ∃ m ∈ ms, m.mh_Lower.toNat ≤ a ∧ a < m.mh_Upper.toNat

/-- What every turn keeps: the block does not wrap, it starts at or below the
end of the kernel, and memory has every byte of it and every byte from its start
to the end of the kernel. -/
structure Store.Kept (ms : List MemHeader) (e : ℕ) (s : Store) : Prop where
  top : s.MAINSTORE.toNat + s.VSIZOFMEM.toNat < 0x100000000
  bottom : s.MAINSTORE.toNat ≤ e
  below : ∀ a, s.MAINSTORE.toNat ≤ a → a ≤ e → Covered ms a
  inside : ∀ a, s.MAINSTORE.toNat ≤ a → a < s.MAINSTORE.toNat + s.VSIZOFMEM.toNat →
    Covered ms a

/-- The pair of the start and the room above the size goes down. -/
def Store.measure (s : Store) : ℕ :=
  s.MAINSTORE.toNat * 0x100000000 + (0xFFFFFFFF - s.VSIZOFMEM.toNat)

theorem Store.toNat_top {s : Store} (h : s.MAINSTORE.toNat + s.VSIZOFMEM.toNat < 0x100000000) :
    (s.MAINSTORE + s.VSIZOFMEM).toNat = s.MAINSTORE.toNat + s.VSIZOFMEM.toNat := by
  rw [BitVec.toNat_add]
  exact Nat.mod_eq_of_lt h

section
variable {ms : List MemHeader} {e : ℕ} {m : MemHeader} {s : Store}

theorem Store.Kept.lower (hk : s.Kept ms e) (hm : m ∈ ms) (hb : s.Below m) :
    ({ s with MAINSTORE := m.mh_Lower } : Store).Kept ms e := by
  obtain ⟨hl, hu⟩ := hb
  rw [BitVec.lt_def] at hl
  rw [ge_iff_le, BitVec.le_def] at hu
  obtain ⟨top, bottom, below, inside⟩ := hk
  have hcov : ∀ a, m.mh_Lower.toNat ≤ a → a < s.MAINSTORE.toNat → Covered ms a :=
    fun a h₁ h₂ => ⟨m, hm, h₁, by omega⟩
  refine ⟨by simp only; omega, by simp only; omega, ?_, ?_⟩
  · intro a h₁ h₂
    by_cases ha : a < s.MAINSTORE.toNat
    · exact hcov a h₁ ha
    · exact below a (Nat.le_of_not_lt ha) h₂
  · intro a h₁ h₂
    by_cases ha : a < s.MAINSTORE.toNat
    · exact hcov a h₁ ha
    · exact inside a (Nat.le_of_not_lt ha) (by simp only at h₂; omega)

/-- The size that a raise leaves reaches the upper bound of the region. -/
theorem Store.Kept.toNat_raised (hk : s.Kept ms e) (ha : s.Above m) :
    s.MAINSTORE.toNat + (m.mh_Upper - s.MAINSTORE).toNat = m.mh_Upper.toNat ∧
      s.VSIZOFMEM.toNat < (m.mh_Upper - s.MAINSTORE).toNat := by
  obtain ⟨-, hu⟩ := ha
  rw [gt_iff_lt, BitVec.lt_def, Store.toNat_top hk.top] at hu
  have hsub : (m.mh_Upper - s.MAINSTORE).toNat =
      m.mh_Upper.toNat - s.MAINSTORE.toNat :=
    BitVec.toNat_sub_of_le (BitVec.le_def.mpr (by omega))
  omega

theorem Store.Kept.raise (hk : s.Kept ms e) (hm : m ∈ ms) (ha : s.Above m) :
    ({ s with VSIZOFMEM := m.mh_Upper - s.MAINSTORE } : Store).Kept ms e := by
  obtain ⟨hreach, -⟩ := hk.toNat_raised ha
  have hl := ha.1
  rw [BitVec.le_def, Store.toNat_top hk.top] at hl
  refine ⟨?_, hk.bottom, hk.below, ?_⟩
  · simp only
    rw [hreach]
    exact m.mh_Upper.isLt
  · intro a h₁ h₂
    simp only at h₁ h₂
    by_cases hin : a < s.MAINSTORE.toNat + s.VSIZOFMEM.toNat
    · exact hk.inside a h₁ hin
    · exact ⟨m, hm, by omega, by omega⟩

/-- What a turn does: nothing, when the region reaches neither below nor above
the block, and else it takes the measure down. -/
def Turned (s : Store) (n : ℕ) (r : Store × ℕ) : Prop :=
  n < r.2 ∧ r.1.measure < s.measure

theorem lower_cases (hk : s.Kept ms e) (hm : m ∈ ms) (n : ℕ) :
    (¬s.Below m ∧ lower m (s, n) = (s, n)) ∨
      ((lower m (s, n)).1.Kept ms e ∧ Turned s n (lower m (s, n))) := by
  unfold Kernel.lower
  by_cases hb : s.Below m
  · rw [if_pos hb]
    refine Or.inr ⟨hk.lower hm hb, Nat.lt_succ_self n, ?_⟩
    have hl := BitVec.lt_def.mp hb.1
    simp only [Store.measure]
    omega
  · rw [if_neg hb]
    exact Or.inl ⟨hb, rfl⟩

theorem raise_cases (hk : s.Kept ms e) (hm : m ∈ ms) (n : ℕ) :
    (¬s.Above m ∧ raise m (s, n) = (s, n)) ∨
      ((raise m (s, n)).1.Kept ms e ∧ Turned s n (raise m (s, n))) := by
  unfold Kernel.raise
  by_cases ha : s.Above m
  · rw [if_pos ha]
    refine Or.inr ⟨hk.raise hm ha, Nat.lt_succ_self n, ?_⟩
    have hup := (hk.toNat_raised ha).2
    have hlt := (m.mh_Upper - s.MAINSTORE).isLt
    simp only [Store.measure]
    omega
  · rw [if_neg ha]
    exact Or.inl ⟨ha, rfl⟩

theorem Turned.trans {s' : Store} {n n' : ℕ} {r : Store × ℕ} (h : Turned s n (s', n'))
    (h' : Turned s' n' r) : Turned s n r :=
  ⟨h.1.trans h'.1, h'.2.trans h.2⟩

theorem turn_cases (hk : s.Kept ms e) (hm : m ∈ ms) (n : ℕ) :
    (¬s.Below m ∧ ¬s.Above m ∧ raise m (lower m (s, n)) = (s, n)) ∨
      ((raise m (lower m (s, n))).1.Kept ms e ∧
        Turned s n (raise m (lower m (s, n)))) := by
  rcases lower_cases hk hm n with ⟨hb, h⟩ | ⟨hk', h⟩
  · rw [h]
    rcases raise_cases hk hm n with ⟨ha, h'⟩ | h'
    · exact Or.inl ⟨hb, ha, h'⟩
    · exact Or.inr h'
  · rcases raise_cases hk' hm (lower m (s, n)).2 with ⟨-, h'⟩ | ⟨hk'', h'⟩
    · rw [Prod.mk.eta] at h'
      rw [h']
      exact Or.inr ⟨hk', h⟩
    · exact Or.inr ⟨hk'', h.trans h'⟩

/-- The loop over the regions: nothing changes, and then no region reaches
below or above the block, or the measure goes down. -/
theorem turns_cases : ∀ {ns : List MemHeader} {s : Store} (_ : s.Kept ms e) (_ : ns ⊆ ms) (n : ℕ),
    ((∀ m ∈ ns, ¬s.Below m ∧ ¬s.Above m) ∧ turns ns (s, n) = (s, n)) ∨
      ((turns ns (s, n)).1.Kept ms e ∧ Turned s n (turns ns (s, n))) := by
  intro ns
  induction ns with
  | nil =>
    intro s _ _ n
    exact Or.inl ⟨fun m hm => absurd hm List.not_mem_nil, rfl⟩
  | cons m ns ih =>
    intro s hk hsub n
    have hm : m ∈ ms := hsub List.mem_cons_self
    have hns : ns ⊆ ms := fun x hx => hsub (List.mem_cons_of_mem _ hx)
    rw [turns, List.foldl_cons]
    rcases turn_cases hk hm n with ⟨hb, ha, h⟩ | ⟨hk', h⟩
    · rw [h]
      rcases ih hk hns n with ⟨hall, h'⟩ | h'
      · exact Or.inl ⟨List.forall_mem_cons.mpr ⟨⟨hb, ha⟩, hall⟩, h'⟩
      · exact Or.inr h'
    · rcases ih hk' hns (raise m (lower m (s, n))).2 with ⟨-, h'⟩ | ⟨hk'', h'⟩
      · rw [turns, Prod.mk.eta] at h'
        rw [h']
        exact Or.inr ⟨hk', h⟩
      · exact Or.inr ⟨hk'', h.trans h'⟩

/-- The passes come to an end, and at the end no region reaches below or above
the block. -/
theorem passes_end : ∀ {s : Store} (_ : s.Kept ms e),
    ∃ (s' : Store) (need : ℕ), (∀ supply, need ≤ supply → passes ms supply s = some s') ∧
      s'.Kept ms e ∧ ∀ m ∈ ms, ¬s'.Below m ∧ ¬s'.Above m := by
  intro s
  -- by induction on the measure
  induction hn : s.measure using Nat.strong_induction_on generalizing s with
  | _ n ih =>
    intro hk
    rcases turns_cases hk (List.Subset.refl ms) 0 with ⟨hall, h⟩ | ⟨hk', hfound, hless⟩
    · refine ⟨s, 1, ?_, hk, hall⟩
      intro supply hs
      obtain ⟨supply, rfl⟩ := Nat.exists_eq_add_of_le' hs
      simp only [passes, h, if_pos]
    · obtain ⟨s', need, hend, hk'', hall⟩ := ih _ (hn ▸ hless) rfl hk'
      refine ⟨s', need + 1, ?_, hk'', hall⟩
      intro supply hs
      obtain ⟨supply, rfl⟩ := Nat.exists_eq_add_of_le' (Nat.one_le_of_lt hs)
      simp only [passes, if_neg (Nat.ne_of_gt hfound)]
      exact hend supply (by omega)

end

theorem mem_regions (memory : Fin NAUTO → MemHeader) (i : Fin NAUTO) :
    memory i ∈ regions memory :=
  List.mem_map.mpr ⟨i, List.mem_finRange i, rfl⟩

/-- From the end of the kernel inside a region the passes end with a block that
has it, and that no region reaches out of. -/
theorem mainMemory_end {memory : Fin NAUTO → MemHeader} {end_ : Long}
    (hend : ∃ i, (memory i).mh_Lower ≤ end_ ∧ end_ < (memory i).mh_Upper) :
    ∃ (s : Store) (need : ℕ),
      (∀ supply, need ≤ supply → mainMemory memory supply end_ = some s) ∧
      s.Kept (regions memory) end_.toNat ∧
      end_.toNat < s.MAINSTORE.toNat + s.VSIZOFMEM.toNat ∧
      ∀ m ∈ regions memory, ¬s.Below m ∧ ¬s.Above m := by
  have hstart : (⟨end_, 0⟩ : Store).Kept (regions memory) end_.toNat := by
    obtain ⟨i, hl, hu⟩ := hend
    rw [BitVec.le_def] at hl
    rw [BitVec.lt_def] at hu
    refine ⟨end_.isLt, Nat.le_refl _, ?_, ?_⟩
    · intro a h₁ h₂
      simp only at h₁
      exact ⟨memory i, mem_regions memory i, by omega, by omega⟩
    · intro a h₁ h₂
      change end_.toNat ≤ a at h₁
      change a < end_.toNat + 0 at h₂
      omega
  obtain ⟨s, need, hpasses, hk, hall⟩ := passes_end hstart
  refine ⟨s, need, hpasses, hk, ?_, hall⟩
  -- else the byte at the top of the block is memory, and its region reaches above
  apply Nat.lt_of_not_le
  intro hle
  obtain ⟨m, hm, hl, hu⟩ := hk.below _ (Nat.le_add_right _ _) hle
  have htop := Store.toNat_top hk.top
  apply (hall m hm).2
  exact ⟨BitVec.le_def.mpr (htop ▸ hl), BitVec.lt_def.mpr (htop ▸ hu)⟩

/-- For every table of regions and every end of the kernel inside one of them,
the search ends. Then memory has every byte of the block, the end of the kernel
is inside it, and no region that overlaps or touches it reaches below or above. -/
theorem mainMemory_maximal (memory : Fin NAUTO → MemHeader) (end_ : Long)
    (hend : ∃ i, (memory i).mh_Lower ≤ end_ ∧ end_ < (memory i).mh_Upper) :
    ∃ (s : Store) (need : ℕ),
      (∀ supply, need ≤ supply → mainMemory memory supply end_ = some s) ∧
      s.MAINSTORE.toNat + s.VSIZOFMEM.toNat < 0x100000000 ∧
      (∀ a : ℕ, s.MAINSTORE.toNat ≤ a → a < s.MAINSTORE.toNat + s.VSIZOFMEM.toNat →
        ∃ i, (memory i).mh_Lower.toNat ≤ a ∧ a < (memory i).mh_Upper.toNat) ∧
      (s.MAINSTORE.toNat ≤ end_.toNat ∧
        end_.toNat < s.MAINSTORE.toNat + s.VSIZOFMEM.toNat) ∧
      ∀ i, (memory i).mh_Lower.toNat ≤ s.MAINSTORE.toNat + s.VSIZOFMEM.toNat →
        s.MAINSTORE.toNat ≤ (memory i).mh_Upper.toNat →
        s.MAINSTORE.toNat ≤ (memory i).mh_Lower.toNat ∧
          (memory i).mh_Upper.toNat ≤ s.MAINSTORE.toNat + s.VSIZOFMEM.toNat := by
  obtain ⟨s, need, hpasses, hk, hin, hall⟩ := mainMemory_end hend
  have htop := Store.toNat_top hk.top
  refine ⟨s, need, hpasses, hk.top, ?_, ⟨hk.bottom, hin⟩, ?_⟩
  · intro a h₁ h₂
    obtain ⟨m, hm, h⟩ := hk.inside a h₁ h₂
    obtain ⟨i, -, rfl⟩ := List.mem_map.mp hm
    exact ⟨i, h⟩
  · intro i hl hu
    obtain ⟨hb, ha⟩ := hall _ (mem_regions memory i)
    constructor
    · apply Nat.le_of_not_lt
      intro hlt
      exact hb ⟨BitVec.lt_def.mpr hlt, BitVec.le_def.mpr hu⟩
    · apply Nat.le_of_not_lt
      intro hlt
      exact ha ⟨BitVec.le_def.mpr (htop ▸ hl), BitVec.lt_def.mpr (htop ▸ hlt)⟩

/-- The regions of a machine: two that touch, chip memory and one apart. -/
def fourRegions : Fin NAUTO → MemHeader := fun i =>
  if i.val = 0 then ⟨0x07800000, 0x08000000⟩
  else if i.val = 1 then ⟨0, 0x200000⟩
  else if i.val = 2 then ⟨0x07000000, 0x07800000⟩
  else if i.val = 3 then ⟨0x200000, 0x200000⟩ else ⟨0x40000000, 0x48000000⟩

theorem mainMemory_fourRegions :
    ∃ (s : Store) (need : ℕ),
      (∀ supply, need ≤ supply → mainMemory fourRegions supply 0x07020000 = some s) ∧
      s.MAINSTORE.toNat + s.VSIZOFMEM.toNat < 0x100000000 ∧
      (∀ a : ℕ, s.MAINSTORE.toNat ≤ a → a < s.MAINSTORE.toNat + s.VSIZOFMEM.toNat →
        ∃ i, (fourRegions i).mh_Lower.toNat ≤ a ∧ a < (fourRegions i).mh_Upper.toNat) ∧
      (s.MAINSTORE.toNat ≤ (0x07020000 : Long).toNat ∧
        (0x07020000 : Long).toNat < s.MAINSTORE.toNat + s.VSIZOFMEM.toNat) ∧
      ∀ i, (fourRegions i).mh_Lower.toNat ≤ s.MAINSTORE.toNat + s.VSIZOFMEM.toNat →
        s.MAINSTORE.toNat ≤ (fourRegions i).mh_Upper.toNat →
        s.MAINSTORE.toNat ≤ (fourRegions i).mh_Lower.toNat ∧
          (fourRegions i).mh_Upper.toNat ≤ s.MAINSTORE.toNat + s.VSIZOFMEM.toNat :=
  mainMemory_maximal fourRegions 0x07020000 ⟨2, by decide⟩

example : mainMemory fourRegions 4 0x07020000 = some ⟨0x07000000, 0x01000000⟩ := by
  decide +kernel

/-- Where the boot method recorded the region of the kernel, `config` takes the
block of the passes and not the fallback. -/
theorem config_found {left : Left} {boot_arg0 load end_ : Long} {b : Bootinfo}
    (hcopy : copyBoot left boot_arg0 bootinfo 0 = some (b, load))
    (hend : ∃ i, (b.memory i).mh_Lower ≤ end_ ∧ end_ < (b.memory i).mh_Upper) :
    ∃ (s : Store) (need : ℕ),
      (∀ supply, need ≤ supply → config left boot_arg0 supply end_ = some (b, s)) ∧
      s.Kept (regions b.memory) end_.toNat ∧
      end_.toNat < s.MAINSTORE.toNat + s.VSIZOFMEM.toNat := by
  obtain ⟨s, need, hpasses, hk, hin, -⟩ := mainMemory_end hend
  refine ⟨s, need, ?_, hk, hin⟩
  intro supply hs
  have hsize : ¬(s.VSIZOFMEM = 0 ∧ end_ > 0x7000000) := by
    rintro ⟨h0, -⟩
    rw [h0] at hin
    exact absurd hk.bottom (Nat.not_le_of_lt hin)
  simp only [config, hcopy, hpasses supply hs, quickKludge, if_neg hsize, Option.bind_eq_bind,
    Option.bind_some, Option.pure_def]

end HydraAmix.Kernel
