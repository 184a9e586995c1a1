import HydraAmix.Kernel.Config
import HydraAmix.Library.Records

/-!
# The tables that boot2 hands to the kernel

`main` of `boot2` allocates a cleared `struct bootinfo`, copies every board that
`FindConfigDev` returns to `bi->autocon` and on, and every header of the memory
list to `bi->memory` and on. Addresses are offsets from `bi`.
-/
namespace HydraAmix.Boot
open Word Records Kernel

/-- The size of `struct ConfigDev`. -/
abbrev CONFIGDEV : ℕ := 68
/-- The size of `struct MemHeader`. -/
abbrev MEMHEADER : ℕ := 32

abbrev ConfigDevBytes := Fin CONFIGDEV → Byte
abbrev MemHeaderBytes := Fin MEMHEADER → Byte

/-- The offsets of the fields of `struct bootinfo`. -/
abbrev autoconAt : ℕ := 0
abbrev memoryAt : ℕ := autoconAt + CONFIGDEV * NAUTO
abbrev keystatesAt : ℕ := memoryAt + MEMHEADER * NAUTO
abbrev bootdataAt : ℕ := keystatesAt + 16

/-- The places written by the two loops, and the memory they leave. -/
structure Filled where
  boards : List ℕ
  regions : List ℕ
  mem : ℕ → Byte

/-- The two loops of `main`; neither compares its pointer with the end of the array. -/
def fillTables (boards : List ConfigDevBytes) (regions : List MemHeaderBytes) (mem : ℕ → Byte) :
    Filled :=
  let acp := storeAll boards autoconAt mem
  let mhp := storeAll regions memoryAt acp.2
  ⟨acp.1, mhp.1, mhp.2⟩

/-! ### The record as the kernel reads it -/

def longAt (m : ℕ → Byte) (a : ℕ) : Long := long (m a) (m (a + 1)) (m (a + 2)) (m (a + 3))

/-- The fields that the kernel uses of the `struct ConfigDev` at `a`. -/
def configDevAt (m : ℕ → Byte) (a : ℕ) : ConfigDev where
  er_Type := m (a + 16)
  er_Product := m (a + 17)
  er_Manufacturer := short (m (a + 20)) (m (a + 21))
  cd_BoardAddr := longAt m (a + 32)
  cd_BoardSize := longAt m (a + 36)

def memHeaderAt (m : ℕ → Byte) (a : ℕ) : MemHeader where
  mh_Lower := longAt m (a + 20)
  mh_Upper := longAt m (a + 24)

/-- What method `EXEC1` copies. -/
def recordAt (m : ℕ → Byte) : Bootinfo where
  autocon j := configDevAt m (autoconAt + CONFIGDEV * j)
  memory j := memHeaderAt m (memoryAt + MEMHEADER * j)
  bd_tvaddr := longAt m (bootdataAt + 4)

/-- A record on its own, from address 0. -/
def alone {n : ℕ} (d : Fin n → Byte) : ℕ → Byte := store 0 d (fun _ => 0)

theorem configDevAt_congr {m m' : ℕ → Byte} {a a' : ℕ}
    (h : ∀ k < CONFIGDEV, m (a + k) = m' (a' + k)) : configDevAt m a = configDevAt m' a' := by
  simp only [configDevAt, longAt, Nat.add_assoc, Nat.reduceAdd, h 16 (by decide),
    h 17 (by decide), h 20 (by decide), h 21 (by decide), h 32 (by decide), h 33 (by decide),
    h 34 (by decide), h 35 (by decide), h 36 (by decide), h 37 (by decide), h 38 (by decide),
    h 39 (by decide)]

theorem memHeaderAt_congr {m m' : ℕ → Byte} {a a' : ℕ}
    (h : ∀ k < MEMHEADER, m (a + k) = m' (a' + k)) : memHeaderAt m a = memHeaderAt m' a' := by
  simp only [memHeaderAt, longAt, Nat.add_assoc, Nat.reduceAdd, h 20 (by decide),
    h 21 (by decide), h 22 (by decide), h 23 (by decide), h 24 (by decide), h 25 (by decide),
    h 26 (by decide), h 27 (by decide)]

/-- What the kernel reads of a board or a region that is there on its own. -/
def ConfigDevBytes.read (d : ConfigDevBytes) : ConfigDev := configDevAt (alone d) 0
def MemHeaderBytes.read (d : MemHeaderBytes) : MemHeader := memHeaderAt (alone d) 0

theorem alone_apply {n : ℕ} (d : Fin n → Byte) {k : ℕ} (hk : k < n) :
    alone d (0 + k) = d ⟨k, hk⟩ :=
  store_inside 0 d _ ⟨k, hk⟩

/-- The tables are what the kernel may rely on: the loops wrote only inside the
two arrays, the first boards and regions are in their slots as they were and as
`config` reads them, and every byte outside the arrays is what it was. -/
structure Handed (boards : List ConfigDevBytes) (regions : List MemHeaderBytes)
    (mem : ℕ → Byte) (t : Filled) : Prop where
  boards_inside : ∀ q ∈ t.boards, autoconAt ≤ q ∧ q + CONFIGDEV ≤ autoconAt + CONFIGDEV * NAUTO
  regions_inside : ∀ q ∈ t.regions, memoryAt ≤ q ∧ q + MEMHEADER ≤ memoryAt + MEMHEADER * NAUTO
  autocon : ∀ (j : Fin NAUTO) (d : ConfigDevBytes), boards[j.val]? = some d →
    (∀ k : Fin CONFIGDEV, t.mem (autoconAt + CONFIGDEV * j + k) = d k) ∧
      ∀ left b load b₀ load₀, left.record = recordAt t.mem →
        copyBoot left EXEC1 b₀ load₀ = some (b, load) → b.autocon j = d.read
  memory : ∀ (j : Fin NAUTO) (d : MemHeaderBytes), regions[j.val]? = some d →
    (∀ k : Fin MEMHEADER, t.mem (memoryAt + MEMHEADER * j + k) = d k) ∧
      ∀ left b load b₀ load₀, left.record = recordAt t.mem →
        copyBoot left EXEC1 b₀ load₀ = some (b, load) → b.memory j = d.read
  others : ∀ a, a < autoconAt ∨ keystatesAt ≤ a → t.mem a = mem a

/-- Method `EXEC1` takes the record as it is. -/
theorem copyBoot_exec1 {left : Left} {b₀ b : Bootinfo} {load₀ load : Long}
    (h : copyBoot left EXEC1 b₀ load₀ = some (b, load)) : b = left.record := by
  unfold copyBoot at h
  rw [if_neg (by decide), if_neg (by decide), if_pos rfl] at h
  exact (Prod.mk.inj (Option.some.inj h)).1.symm

section
variable (boards : List ConfigDevBytes) (regions : List MemHeaderBytes) (mem : ℕ → Byte)

/-- A slot of `autocon` is out of reach of the second loop. -/
theorem fillTables_autocon {j : ℕ} (hj : j < NAUTO) {d : ConfigDevBytes}
    (hd : boards[j]? = some d) (k : Fin CONFIGDEV) :
    (fillTables boards regions mem).mem (autoconAt + CONFIGDEV * j + k) = d k := by
  have hbelow : autoconAt + CONFIGDEV * j + k < memoryAt := by
    change 0 + 68 * j + k.val < 1088
    change j < 16 at hj
    have hk : k.val < 68 := k.isLt
    omega
  simp only [fillTables]
  rw [storeAll_outside _ _ (Or.inl hbelow), storeAll_inside _ _ _ hd]

theorem fillTables_memory {j : ℕ} {d : MemHeaderBytes} (hd : regions[j]? = some d)
    (k : Fin MEMHEADER) :
    (fillTables boards regions mem).mem (memoryAt + MEMHEADER * j + k) = d k := by
  simp only [fillTables]
  rw [storeAll_inside _ _ _ hd]

theorem fillTables_others (hb : boards.length ≤ NAUTO) (hr : regions.length ≤ NAUTO) {a : ℕ}
    (ha : keystatesAt ≤ a) : (fillTables boards regions mem).mem a = mem a := by
  have hboards : autoconAt + CONFIGDEV * boards.length ≤ a := by
    change 0 + 68 * boards.length ≤ a
    change boards.length ≤ 16 at hb
    change 1600 ≤ a at ha
    omega
  have hregions : memoryAt + MEMHEADER * regions.length ≤ a :=
    (Nat.add_le_add_left (Nat.mul_le_mul_left _ hr) _).trans ha
  simp only [fillTables]
  rw [storeAll_outside _ _ (Or.inr hregions), storeAll_outside _ _ (Or.inr hboards)]

/-- The loops keep to the arrays exactly for at most `NAUTO` boards and at most
`NAUTO` regions. -/
theorem handed_iff : Handed boards regions mem (fillTables boards regions mem) ↔
    boards.length ≤ NAUTO ∧ regions.length ≤ NAUTO := by
  constructor
  · intro h
    exact ⟨(storeAll_within (by decide) _ _ _ _).mp h.boards_inside,
      (storeAll_within (by decide) _ _ _ _).mp h.regions_inside⟩
  · rintro ⟨hb, hr⟩
    refine ⟨(storeAll_within (by decide) _ _ _ _).mpr hb,
      (storeAll_within (by decide) _ _ _ _).mpr hr, ?_, ?_, ?_⟩
    · intro j d hd
      have hbytes := fillTables_autocon boards regions mem j.isLt hd
      refine ⟨hbytes, ?_⟩
      intro left b load b₀ load₀ hleft h
      rw [copyBoot_exec1 h, hleft]
      apply configDevAt_congr
      intro k hk
      rw [alone_apply d hk]
      exact hbytes ⟨k, hk⟩
    · intro j d hd
      have hbytes := fillTables_memory boards regions mem hd
      refine ⟨hbytes, ?_⟩
      intro left b load b₀ load₀ hleft h
      rw [copyBoot_exec1 h, hleft]
      apply memHeaderAt_congr
      intro k hk
      rw [alone_apply d hk]
      exact hbytes ⟨k, hk⟩
    · intro a ha
      rcases ha with ha | ha
      · exact absurd ha (Nat.not_lt_zero a)
      · exact fillTables_others boards regions mem hb hr ha

end

/-- A seventeenth board is copied to `memory`, and without a memory list the
kernel takes a part of it for a region. -/
theorem seventeen_boards :
    (fillTables (List.replicate 17 fun _ => 0x40) [] (fun _ => 0)).boards.getLast? =
      some memoryAt ∧
    (recordAt (fillTables (List.replicate 17 fun _ => 0x40) [] (fun _ => 0)).mem).memory 0 =
      ⟨0x40404040, 0x40404040⟩ ∧
    ¬Handed (List.replicate 17 fun _ => 0x40) [] (fun _ => 0)
      (fillTables (List.replicate 17 fun _ => 0x40) [] (fun _ => 0)) := by
  refine ⟨by decide, by decide +kernel, ?_⟩
  intro h
  have := h.boards_inside memoryAt (by decide)
  exact absurd this (by decide)

end HydraAmix.Boot
