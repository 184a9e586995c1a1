import HydraAmix.Disk.PartitionOpen

/-!
# What a partition table can make of an open

`sdpartition` of one process on a disk that may hold anything. The blocks from 0 to 15 are
searched for the RDB, whose list of partition blocks is then followed as many blocks as the
number of the partition says. Partition 0 is the whole disk, for which no block is read.
Each read may fail; one that does not has what is on the disk.
-/
namespace HydraAmix.Disk

/-- The longs of the block buffer. -/
abbrev LONGS : ℕ := 128

/-- All fields are inside a block. -/
structure Layout.Inside (f : Layout) : Prop where
  rdb_ID : f.rdb_ID < LONGS
  rdb_SummedLongs : f.rdb_SummedLongs < LONGS
  rdb_PartitionList : f.rdb_PartitionList < LONGS
  rdb_CylBlocks : f.rdb_CylBlocks < LONGS
  pb_ID : f.pb_ID < LONGS
  pb_SummedLongs : f.pb_SummedLongs < LONGS
  pb_Next : f.pb_Next < LONGS
  lowcyl : f.pb_Environment + f.DE_LOWCYL < LONGS
  uppercyl : f.pb_Environment + f.DE_UPPERCYL < LONGS

/-- How many reads there may still be. -/
def Place.left : Place → ℕ
  | .rdb i => 16 - i + 9
  | .pb _ _ pa => 8 - pa

section
variable (f : Layout) (dev : Minor)

theorem atHead_left {sperc a : Long} {pa : ℕ} {pl : Place} (h : atHead sperc a pa = .inl pl) :
    a ≠ -1 ∧ pl = .pb sperc a pa := by
  unfold atHead at h
  split at h
  · exact absurd h nofun
  · exact ⟨by assumption, (Sum.inl.inj h).symm⟩

theorem after_left {pl pl' : Place} {block : Block} {status : IoStatus}
    (h : after f dev pl block status = .inl pl') : pl'.left < pl.left := by
  unfold after at h
  split at h
  · exact absurd h nofun
  cases pl with
  | rdb i =>
      dsimp only at h
      split at h
      · obtain ⟨-, rfl⟩ := atHead_left h
        change 8 < 16 - i + 9
        omega
      · split at h
        · rename_i hi
          rw [← Sum.inl.inj h]
          change 16 - (i + 1) + 9 < 16 - i + 9
          omega
        · exact absurd h nofun
  | pb sperc a pa =>
      dsimp only at h
      split at h
      · split at h
        · rename_i hpa
          obtain ⟨-, rfl⟩ := atHead_left h
          have hlt := (sdpart dev).isLt
          change 8 - (pa + 1) < 8 - pa
          omega
        · exact absurd h nofun
      · exact absurd h nofun

variable (disk : Long → Block) (status : ℕ → IoStatus)

/-- The reads from the `n`-th one on, for the places they are at, and the result. -/
def reading (n : ℕ) (pl : Place) : List (ℕ × Place) × Result :=
  match _h : after f dev pl (disk pl.bno) (status n) with
  | .inl pl' => ((n, pl) :: (reading (n + 1) pl').1, (reading (n + 1) pl').2)
  | .inr r => ([(n, pl)], r)
termination_by pl.left
decreasing_by all_goals exact after_left f dev _h

/-- `sdpartition`. -/
def sdpartition : List (ℕ × Place) × Result :=
  if sdpart dev = 0 then ([], .ok none) else reading f dev disk status 0 (.rdb 0)

/-- What is returned. -/
def Result.code : Result → ℕ
  | .fail error => error
  | .ok _ => 0

/-- `partab` after it. -/
def Result.store (partab : Partab) : Result → Partab
  | .ok (some v) => Function.update partab dev v
  | _ => partab

/-- The length that is summed, when the ID of the block is right. -/
def summed (pl : Place) (block : Block) : Option ℕ :=
  match pl with
  | .rdb _ => if block f.rdb_ID = 0x5244534b#32 then some (block f.rdb_SummedLongs).toNat else none
  | .pb .. => if block f.pb_ID = 0x50415254#32 then some (block f.pb_SummedLongs).toNat else none

/-- The fields that are read in any case, with the right ID, and with the right checksum. -/
def fields (pl : Place) : List ℕ × List ℕ × List ℕ :=
  match pl with
  | .rdb _ => ([f.rdb_ID], [f.rdb_SummedLongs], [f.rdb_CylBlocks, f.rdb_PartitionList])
  | .pb _ _ pa => ([f.pb_ID], [f.pb_SummedLongs], f.pb_Next ::
      if pa + 1 < (sdpart dev).toNat then []
      else [f.pb_Environment + f.DE_LOWCYL, f.pb_Environment + f.DE_UPPERCYL])

/-- The longs that are read of a block. -/
def looksAt (pl : Place) (block : Block) (status : IoStatus) : List ℕ :=
  if status.code ≠ 0 then []
  else
    (fields f dev pl).1 ++
      match summed f pl block with
      | none => []
      | some n =>
          (fields f dev pl).2.1 ++ List.range n ++
            if checksum block n then (fields f dev pl).2.2 else []

/-! ### The chain -/

def IsRdb (block : Block) : Prop :=
  block f.rdb_ID = 0x5244534b#32 ∧ checksum block (block f.rdb_SummedLongs).toNat = true

def IsPart (block : Block) : Prop :=
  block f.pb_ID = 0x50415254#32 ∧ checksum block (block f.pb_SummedLongs).toNat = true

/-- The blocks from `i` on, up to the block `j`, are read and no RDB. -/
def Searched (i j : ℕ) : Prop :=
  ∀ k, i ≤ k → k < j → (status k).code = 0 ∧ ¬IsRdb f (disk (BitVec.ofNat 32 k))

/-- The list of the block `j`. -/
def head (j : ℕ) : Long := disk (BitVec.ofNat 32 j) f.rdb_PartitionList

/-- The place at the first block of the list. -/
def listed (j : ℕ) : Place := .pb (disk (BitVec.ofNat 32 j) f.rdb_CylBlocks) (head f disk j) 0

/-- The number of the `k`-th block after the one with the number `a`. -/
def address (a : Long) : ℕ → Long
  | 0 => a
  | k + 1 => disk (address a k) f.pb_Next

/-- The `k` blocks before, read from the `n`-th read on, are good, and the list goes on. -/
def Followed (n : ℕ) (a : Long) (k : ℕ) : Prop :=
  (∀ l < k, (status (n + l)).code = 0 ∧ IsPart f (disk (address f disk a l))) ∧
    ∀ l ≤ k, address f disk a l ≠ -1

/-- The RDB is the block `i`, and its list leads to the block of the partition. -/
structure Chain (i : ℕ) : Prop where
  part : 0 < (sdpart dev).toNat
  index : i < 16
  first : ∀ k < i, ¬IsRdb f (disk (BitVec.ofNat 32 k))
  rdb : IsRdb f (disk (BitVec.ofNat 32 i))
  list : ∀ k < (sdpart dev).toNat, address f disk (head f disk i) k ≠ -1 ∧
    IsPart f (disk (address f disk (head f disk i) k))
  read : ∀ k < i + 1 + (sdpart dev).toNat, (status k).code = 0

/-- The block of the partition. -/
def entry (i : ℕ) : Block := disk (address f disk (head f disk i) ((sdpart dev).toNat - 1))

def lowcyl (i : ℕ) : ℕ := (entry f dev disk i (f.pb_Environment + f.DE_LOWCYL)).toNat

def uppercyl (i : ℕ) : ℕ := (entry f dev disk i (f.pb_Environment + f.DE_UPPERCYL)).toNat

def cylblocks (i : ℕ) : ℕ := (disk (BitVec.ofNat 32 i) f.rdb_CylBlocks).toNat

/-- The cylinders are in order, and nothing overflows. -/
structure Geometry (i : ℕ) : Prop where
  order : lowcyl f dev disk i ≤ uppercyl f dev disk i
  last : uppercyl f dev disk i + 1 < 4294967296
  base : lowcyl f dev disk i * cylblocks f disk i < 4294967296
  len : (uppercyl f dev disk i + 1 - lowcyl f dev disk i) * cylblocks f disk i < 4294967296

/-- Where the ID is right no more longs are summed than a block has. -/
structure LengthsFit : Prop where
  rdb : ∀ i < 16, Searched f disk status 0 i → (status i).code = 0 →
    ∀ n ∈ summed f (.rdb i) (disk (BitVec.ofNat 32 i)), n ≤ LONGS
  part : ∀ i < 16, Searched f disk status 0 i → (status i).code = 0 →
    IsRdb f (disk (BitVec.ofNat 32 i)) → ∀ k < (sdpart dev).toNat,
    Followed f disk status (i + 1) (head f disk i) k → (status (i + 1 + k)).code = 0 →
    ∀ n ∈ summed f (.pb 0 0 0) (disk (address f disk (head f disk i) k)), n ≤ LONGS

/-- What is asked of `sdpartition`, for what it read and its result. -/
structure Robust (partab : Partab) (run : List (ℕ × Place) × Result) : Prop where
  within : ∀ x ∈ run.1, ∀ j ∈ looksAt f dev x.2 (disk x.2.bno) (status x.1), j < LONGS
  whole : sdpart dev = 0 → run.2.code = 0 ∧ run.2.store dev partab = partab
  success : sdpart dev ≠ 0 → run.2.code = 0 → ∃ i, Chain f dev disk status i ∧
    Geometry f dev disk i ∧
    (∀ m ≠ dev, run.2.store dev partab m = partab m) ∧
    (run.2.store dev partab dev).base.toNat = lowcyl f dev disk i * cylblocks f disk i ∧
    (run.2.store dev partab dev).len.toNat =
      (uppercyl f dev disk i + 1 - lowcyl f dev disk i) * cylblocks f disk i
  failure : run.2.code ≠ 0 → run.2.store dev partab = partab

end

/-! ### The steps -/

section
variable {f : Layout} {dev : Minor} {disk : Long → Block} {status : ℕ → IoStatus}

theorem reading_inl {n : ℕ} {pl pl' : Place} (h : after f dev pl (disk pl.bno) (status n) = .inl pl') :
    reading f dev disk status n pl = ((n, pl) :: (reading f dev disk status (n + 1) pl').1,
      (reading f dev disk status (n + 1) pl').2) := by
  rw [reading]
  split
  · rename_i pl'' h'
    rw [Sum.inl.inj (h.symm.trans h')]
  · rename_i r h'
    exact absurd (h.symm.trans h') nofun

theorem reading_inr {n : ℕ} {pl : Place} {r : Result}
    (h : after f dev pl (disk pl.bno) (status n) = .inr r) :
    reading f dev disk status n pl = ([(n, pl)], r) := by
  rw [reading]
  split
  · rename_i pl'' h'
    exact absurd (h.symm.trans h') nofun
  · rename_i r' h'
    rw [Sum.inr.inj (h.symm.trans h')]

theorem after_failed {pl : Place} {block : Block} {st : IoStatus} (h : st.code ≠ 0) :
    after f dev pl block st = .inr (.fail st.code) := if_pos h

theorem after_rdb {i : ℕ} {block : Block} {st : IoStatus} (h : st.code = 0) (hb : IsRdb f block) :
    after f dev (.rdb i) block st = atHead (block f.rdb_CylBlocks) (block f.rdb_PartitionList) 0 :=
  (if_neg (not_not.mpr h)).trans (if_pos hb)

theorem after_not_rdb (dev : Minor) {i : ℕ} {block : Block} {st : IoStatus} (h : st.code = 0)
    (hb : ¬IsRdb f block) :
    after f dev (.rdb i) block st = if i + 1 < 16 then .inl (.rdb (i + 1)) else .inr (.fail ENXIO) :=
  (if_neg (not_not.mpr h)).trans (if_neg hb)

theorem after_part (dev : Minor) (sperc a : Long) (pa : ℕ) {block : Block} {st : IoStatus} (h : st.code = 0)
    (hb : IsPart f block) :
    after f dev (.pb sperc a pa) block st =
      if pa + 1 < (sdpart dev).toNat then atHead sperc (block f.pb_Next) (pa + 1)
      else .inr (.ok (some (partitionOf f sperc block))) :=
  (if_neg (not_not.mpr h)).trans (if_pos hb)

theorem after_not_part {sperc a : Long} {pa : ℕ} {block : Block} {st : IoStatus} (h : st.code = 0)
    (hb : ¬IsPart f block) : after f dev (.pb sperc a pa) block st = .inr (.fail ENXIO) :=
  (if_neg (not_not.mpr h)).trans (if_neg hb)

theorem atHead_end {sperc : Long} {pa : ℕ} : atHead sperc (-1) pa = .inr (.fail ENXIO) := if_pos rfl

theorem atHead_on {sperc a : Long} {pa : ℕ} (h : a ≠ -1) : atHead sperc a pa = .inl (.pb sperc a pa) :=
  if_neg h

/-- An open ends with an error, or with a partition. -/
theorem after_right {pl : Place} {block : Block} {st : IoStatus} {r : Result}
    (h : after f dev pl block st = .inr r) : r.code ≠ 0 ∨ ∃ v, r = .ok (some v) := by
  have hhead {sperc a : Long} {pa : ℕ} (h : atHead sperc a pa = .inr r) : r.code ≠ 0 := by
    unfold atHead at h
    split at h
    · rw [← Sum.inr.inj h]
      decide
    · exact absurd h nofun
  by_cases hst : st.code = 0
  · cases pl with
    | rdb i =>
        by_cases hb : IsRdb f block
        · rw [after_rdb hst hb] at h
          exact .inl (hhead h)
        · rw [after_not_rdb dev hst hb] at h
          split at h
          · exact absurd h nofun
          · rw [← Sum.inr.inj h]
            exact .inl (by decide)
    | pb sperc a pa =>
        by_cases hb : IsPart f block
        · rw [after_part dev sperc a pa hst hb] at h
          split at h
          · exact .inl (hhead h)
          · exact .inr ⟨_, (Sum.inr.inj h).symm⟩
        · rw [after_not_part hst hb] at h
          rw [← Sum.inr.inj h]
          exact .inl (by decide)
  · rw [after_failed hst] at h
    rw [← Sum.inr.inj h]
    exact .inl hst

theorem reading_result (n : ℕ) (pl : Place) :
    (reading f dev disk status n pl).2.code ≠ 0 ∨
      ∃ v, (reading f dev disk status n pl).2 = .ok (some v) := by
  fun_induction reading f dev disk status n pl with
  | case1 n pl pl' h ih => exact ih
  | case2 n pl r h => exact after_right h

theorem reading_fail {n : ℕ} {pl : Place} {r : Result} {v : Partition}
    (h : after f dev pl (disk pl.bno) (status n) = .inr r) (hr : r.code ≠ 0) :
    (reading f dev disk status n pl).2 ≠ .ok (some v) := by
  rw [reading_inr h]
  rintro (rfl : r = _)
  exact hr rfl

/-! ### The list of partition blocks -/

theorem address_next (a : Long) (k : ℕ) :
    address f disk (disk a f.pb_Next) k = address f disk a (k + 1) := by
  induction k with
  | zero => rfl
  | succ k ih =>
      unfold address
      rw [ih]

theorem followed_zero {n : ℕ} {a : Long} : Followed f disk status n a 0 ↔ a ≠ -1 := by
  constructor
  · intro h
    exact h.2 0 (Nat.le_refl 0)
  · intro h
    refine ⟨fun l hl => absurd hl (Nat.not_lt_zero l), fun l hl => ?_⟩
    rw [Nat.le_zero.mp hl]
    exact h

theorem followed_succ {n : ℕ} {a : Long} {k : ℕ} :
    Followed f disk status n a (k + 1) ↔ a ≠ -1 ∧ ((status n).code = 0 ∧ IsPart f (disk a)) ∧
      Followed f disk status (n + 1) (disk a f.pb_Next) k := by
  constructor
  · rintro ⟨hgood, hlist⟩
    refine ⟨hlist 0 (Nat.zero_le _), hgood 0 (Nat.succ_pos k), fun l hl => ?_, fun l hl => ?_⟩
    · have h := hgood (l + 1) (Nat.succ_lt_succ hl)
      rwa [← address_next, Nat.add_comm l, ← Nat.add_assoc] at h
    · rw [address_next]
      exact hlist (l + 1) (Nat.succ_le_succ hl)
  · rintro ⟨ha, hfirst, hgood, hlist⟩
    refine ⟨fun l hl => ?_, fun l hl => ?_⟩
    · cases l with
      | zero => exact hfirst
      | succ l =>
          have h := hgood l (Nat.lt_of_succ_lt_succ hl)
          rwa [address_next, Nat.add_assoc, Nat.add_comm 1] at h
    · cases l with
      | zero => exact ha
      | succ l =>
          rw [← address_next]
          exact hlist l (Nat.le_of_succ_le_succ hl)

/-- The partition is found if all blocks up to its own are good. -/
theorem reading_pb_ok {d n pa : ℕ} {sperc a : Long} {v : Partition} (ha : a ≠ -1)
    (hp : pa + d + 1 = (sdpart dev).toNat) :
    (reading f dev disk status n (.pb sperc a pa)).2 = .ok (some v) ↔
      Followed f disk status n a d ∧ ((status (n + d)).code = 0 ∧
        IsPart f (disk (address f disk a d))) ∧
        v = partitionOf f sperc (disk (address f disk a d)) := by
  induction d generalizing n pa a with
  | zero =>
      have hlast : ¬pa + 1 < (sdpart dev).toNat := by omega
      have hend : Followed f disk status n a 0 ↔ True := iff_true_intro (followed_zero.mpr ha)
      rw [hend, true_and]
      change _ ↔ ((status n).code = 0 ∧ IsPart f (disk a)) ∧ v = partitionOf f sperc (disk a)
      by_cases hst : (status n).code = 0
      · by_cases hb : IsPart f (disk a)
        · have hok := after_part dev sperc a pa hst hb
          rw [if_neg hlast] at hok
          rw [reading_inr hok]
          constructor
          · intro h
            exact ⟨⟨hst, hb⟩, (Option.some.inj (Result.ok.inj h)).symm⟩
          · rintro ⟨-, rfl⟩
            rfl
        · exact iff_of_false (reading_fail (after_not_part hst hb) (by decide)) fun h => hb h.1.2
      · exact iff_of_false (reading_fail (after_failed hst) hst) fun h => hst h.1.1
  | succ d ih =>
      have hmore : pa + 1 < (sdpart dev).toNat := by omega
      rw [followed_succ]
      by_cases hst : (status n).code = 0
      · by_cases hb : IsPart f (disk a)
        · have hok := after_part dev sperc a pa hst hb
          rw [if_pos hmore] at hok
          by_cases hnext : disk a f.pb_Next = -1
          · rw [hnext, atHead_end] at hok
            refine iff_of_false (reading_fail hok (by decide)) fun h => ?_
            exact h.1.2.2.2 0 (Nat.zero_le d) hnext
          · rw [atHead_on hnext] at hok
            have hn : n + 1 + d = n + (d + 1) := by omega
            rw [reading_inl hok]
            change (reading f dev disk status (n + 1) (.pb sperc (disk a f.pb_Next) (pa + 1))).2 =
              _ ↔ _
            rw [ih hnext (by omega), address_next, hn]
            constructor
            · rintro ⟨hrest, hlast⟩
              exact ⟨⟨ha, ⟨hst, hb⟩, hrest⟩, hlast⟩
            · rintro ⟨⟨-, -, hrest⟩, hlast⟩
              exact ⟨hrest, hlast⟩
        · exact iff_of_false (reading_fail (after_not_part hst hb) (by decide)) fun h => hb h.1.2.1.2
      · exact iff_of_false (reading_fail (after_failed hst) hst) fun h => hst h.1.2.1.1

/-- No block is read after one that ends the open. -/
theorem forall_reading_stop (P : ℕ → Place → Prop) {d n pa : ℕ} {sperc a : Long} {r : Result}
    (ha : a ≠ -1) (h : after f dev (.pb sperc a pa) (disk a) (status n) = .inr r)
    (hno : ¬((status n).code = 0 ∧ IsPart f (disk a) ∧ disk a f.pb_Next ≠ -1) ∨ d = 0) :
    (∀ x ∈ (reading f dev disk status n (.pb sperc a pa)).1, P x.1 x.2) ↔
      ∀ k ≤ d, Followed f disk status n a k →
        P (n + k) (.pb sperc (address f disk a k) (pa + k)) := by
  rw [reading_inr h]
  constructor
  · intro hall k hk hfollowed
    cases k with
    | zero => exact hall _ List.mem_cons_self
    | succ k =>
        obtain ⟨-, ⟨hst, hb⟩, hrest⟩ := followed_succ.mp hfollowed
        rcases hno with hno | hd
        · exact absurd ⟨hst, hb, hrest.2 0 (Nat.zero_le k)⟩ hno
        · omega
  · intro hall x hx
    rw [List.mem_singleton.mp hx]
    exact hall 0 (Nat.zero_le d) (followed_zero.mpr ha)

/-- Which partition blocks are read. -/
theorem forall_reading_pb (P : ℕ → Place → Prop) {d n pa : ℕ} {sperc a : Long} (ha : a ≠ -1)
    (hp : pa + d + 1 = (sdpart dev).toNat) :
    (∀ x ∈ (reading f dev disk status n (.pb sperc a pa)).1, P x.1 x.2) ↔
      ∀ k ≤ d, Followed f disk status n a k →
        P (n + k) (.pb sperc (address f disk a k) (pa + k)) := by
  induction d generalizing n pa a with
  | zero =>
      have hlast : ¬pa + 1 < (sdpart dev).toNat := by omega
      by_cases hst : (status n).code = 0
      · by_cases hb : IsPart f (disk a)
        · exact forall_reading_stop P ha ((after_part dev sperc a pa hst hb).trans (if_neg hlast)) (.inr rfl)
        · exact forall_reading_stop P ha (after_not_part hst hb) (.inr rfl)
      · exact forall_reading_stop P ha (after_failed hst) (.inr rfl)
  | succ d ih =>
      have hmore : pa + 1 < (sdpart dev).toNat := by omega
      by_cases hst : (status n).code = 0
      · by_cases hb : IsPart f (disk a)
        · have hok := after_part dev sperc a pa hst hb
          rw [if_pos hmore] at hok
          by_cases hnext : disk a f.pb_Next = -1
          · rw [hnext, atHead_end] at hok
            exact forall_reading_stop P ha hok (.inl fun h => h.2.2 hnext)
          · rw [atHead_on hnext] at hok
            have hn (k : ℕ) : n + 1 + k = n + (k + 1) := by omega
            have hpa (k : ℕ) : pa + 1 + k = pa + (k + 1) := by omega
            rw [reading_inl hok, List.forall_mem_cons, ih hnext (by omega)]
            constructor
            · rintro ⟨hfirst, hrest⟩ k hk hfollowed
              cases k with
              | zero => exact hfirst
              | succ k =>
                  have h := hrest k (Nat.le_of_succ_le_succ hk) (followed_succ.mp hfollowed).2.2
                  rwa [address_next, hn, hpa] at h
            · intro hall
              refine ⟨hall 0 (Nat.zero_le _) (followed_zero.mpr ha), fun k hk hfollowed => ?_⟩
              have h := hall (k + 1) (Nat.succ_le_succ hk)
                (followed_succ.mpr ⟨ha, ⟨hst, hb⟩, hfollowed⟩)
              rwa [address_next, hn, hpa]
        · exact forall_reading_stop P ha (after_not_part hst hb) (.inl fun h => hb h.2.1)
      · exact forall_reading_stop P ha (after_failed hst) (.inl fun h => hst h.1)

/-! ### The search for the RDB -/

theorem searched_succ {i j : ℕ} (h : i < j) :
    Searched f disk status i j ↔
      ((status i).code = 0 ∧ ¬IsRdb f (disk (BitVec.ofNat 32 i))) ∧
        Searched f disk status (i + 1) j := by
  constructor
  · intro hs
    exact ⟨hs i (Nat.le_refl i) h, fun k hk => hs k (Nat.le_of_succ_le hk)⟩
  · rintro ⟨hfirst, hrest⟩ k hk hlt
    rcases Nat.eq_or_lt_of_le hk with rfl | hk
    · exact hfirst
    · exact hrest k hk hlt

theorem searched_self (i : ℕ) : Searched f disk status i i := fun k hk hlt => by omega

theorem searched_first {i j : ℕ} (hij : i ≤ j) (hs : Searched f disk status i j)
    (h : (status i).code ≠ 0 ∨ IsRdb f (disk (BitVec.ofNat 32 i))) : j = i := by
  rcases Nat.eq_or_lt_of_le hij with rfl | hlt
  · rfl
  · obtain ⟨hst, hb⟩ := hs i (Nat.le_refl i) hlt
    exact (h.elim (absurd hst) (fun h => absurd h hb))

/-- The open that found the RDB in the block `j` gets to its list. -/
def Leads (f : Layout) (disk : Long → Block) (status : ℕ → IoStatus) (j : ℕ) : Prop :=
  (status j).code = 0 ∧ IsRdb f (disk (BitVec.ofNat 32 j)) ∧ head f disk j ≠ -1

theorem after_leads {j : ℕ} (h : Leads f disk status j) :
    after f dev (.rdb j) (disk (BitVec.ofNat 32 j)) (status j) = .inl (listed f disk j) :=
  (after_rdb h.1 h.2.1).trans (atHead_on h.2.2)

/-- A block that is the RDB, or cannot be read, ends the search. -/
theorem after_stop (dev : Minor) {j : ℕ} (h : (status j).code ≠ 0 ∨ IsRdb f (disk (BitVec.ofNat 32 j)))
    (hno : ¬Leads f disk status j) : ∃ r : Result, r.code ≠ 0 ∧
      after f dev (.rdb j) (disk (BitVec.ofNat 32 j)) (status j) = .inr r := by
  by_cases hst : (status j).code = 0
  · have hb := h.resolve_left (not_not.mpr hst)
    have hend : head f disk j = -1 := not_not.mp fun hhead => hno ⟨hst, hb, hhead⟩
    refine ⟨.fail ENXIO, by decide, (after_rdb hst hb).trans ?_⟩
    rw [show disk (BitVec.ofNat 32 j) f.rdb_PartitionList = -1 from hend, atHead_end]
  · exact ⟨.fail (status j).code, hst, after_failed hst⟩

theorem reading_rdb_here {i : ℕ} {v : Partition} (hi : i < 16)
    (h : (status i).code ≠ 0 ∨ IsRdb f (disk (BitVec.ofNat 32 i))) :
    (reading f dev disk status i (.rdb i)).2 = .ok (some v) ↔
      ∃ j, i ≤ j ∧ j < 16 ∧ Searched f disk status i j ∧ Leads f disk status j ∧
        (reading f dev disk status (j + 1) (listed f disk j)).2 = .ok (some v) := by
  by_cases hleads : Leads f disk status i
  · rw [reading_inl (after_leads hleads)]
    constructor
    · intro hrest
      exact ⟨i, Nat.le_refl i, hi, searched_self i, hleads, hrest⟩
    · rintro ⟨j, hij, -, hs, -, hrest⟩
      obtain rfl := searched_first hij hs h
      exact hrest
  · obtain ⟨r, hr, hafter⟩ := after_stop dev h hleads
    refine iff_of_false (reading_fail hafter hr) ?_
    rintro ⟨j, hij, -, hs, hj, -⟩
    obtain rfl := searched_first hij hs h
    exact hleads hj

/-- The search ends at the first RDB. -/
theorem reading_rdb_ok {d i : ℕ} {v : Partition} (hd : i + d + 1 = 16) :
    (reading f dev disk status i (.rdb i)).2 = .ok (some v) ↔
      ∃ j, i ≤ j ∧ j < 16 ∧ Searched f disk status i j ∧ Leads f disk status j ∧
        (reading f dev disk status (j + 1) (listed f disk j)).2 = .ok (some v) := by
  induction d generalizing i with
  | zero =>
      by_cases h : (status i).code ≠ 0 ∨ IsRdb f (disk (BitVec.ofNat 32 i))
      · exact reading_rdb_here (by omega) h
      · obtain ⟨hst, hb⟩ := not_or.mp h
        have hlast : ¬i + 1 < 16 := by omega
        have hend := (after_not_rdb dev (i := i) (not_not.mp hst) hb).trans (if_neg hlast)
        refine iff_of_false (reading_fail hend (by decide)) ?_
        rintro ⟨j, hij, hj, -, hleads, -⟩
        obtain rfl : j = i := by omega
        exact hb hleads.2.1
  | succ d ih =>
      by_cases h : (status i).code ≠ 0 ∨ IsRdb f (disk (BitVec.ofNat 32 i))
      · exact reading_rdb_here (by omega) h
      · obtain ⟨hst, hb⟩ := not_or.mp h
        have hgood := not_not.mp hst
        have hmore := (after_not_rdb dev (i := i) hgood hb).trans (if_pos (by omega))
        rw [reading_inl hmore]
        change (reading f dev disk status (i + 1) (.rdb (i + 1))).2 = _ ↔ _
        rw [ih (by omega)]
        constructor
        · rintro ⟨j, hij, hj, hs, hrest⟩
          exact ⟨j, Nat.le_of_succ_le hij, hj, (searched_succ hij).mpr ⟨⟨hgood, hb⟩, hs⟩, hrest⟩
        · rintro ⟨j, hij, hj, hs, hleads, hrest⟩
          have hlt : i < j := Nat.lt_of_le_of_ne hij fun he => hb (he ▸ hleads.2.1)
          exact ⟨j, hlt, hj, ((searched_succ hlt).mp hs).2, hleads, hrest⟩

theorem forall_reading_here (P : ℕ → Place → Prop) {i : ℕ} (hi : i < 16)
    (h : (status i).code ≠ 0 ∨ IsRdb f (disk (BitVec.ofNat 32 i))) :
    (∀ x ∈ (reading f dev disk status i (.rdb i)).1, P x.1 x.2) ↔
      ∀ j, i ≤ j → j < 16 → Searched f disk status i j → P j (.rdb j) ∧ (Leads f disk status j →
        ∀ x ∈ (reading f dev disk status (j + 1) (listed f disk j)).1, P x.1 x.2) := by
  have honly : (∀ j, i ≤ j → j < 16 → Searched f disk status i j → P j (.rdb j) ∧
      (Leads f disk status j →
        ∀ x ∈ (reading f dev disk status (j + 1) (listed f disk j)).1, P x.1 x.2)) ↔
      P i (.rdb i) ∧ (Leads f disk status i →
        ∀ x ∈ (reading f dev disk status (i + 1) (listed f disk i)).1, P x.1 x.2) := by
    constructor
    · intro hall
      exact hall i (Nat.le_refl i) hi (searched_self i)
    · intro hfirst j hij _ hs
      obtain rfl := searched_first hij hs h
      exact hfirst
  rw [honly]
  by_cases hleads : Leads f disk status i
  · rw [reading_inl (after_leads hleads), List.forall_mem_cons]
    exact and_congr_right fun _ => ⟨fun hrest _ => hrest, fun hrest => hrest hleads⟩
  · obtain ⟨r, -, hafter⟩ := after_stop dev h hleads
    rw [reading_inr hafter, List.forall_mem_singleton]
    exact ⟨fun hfirst => ⟨hfirst, fun hl => absurd hl hleads⟩, fun hfirst => hfirst.1⟩

/-- Which blocks are read. -/
theorem forall_reading_rdb (P : ℕ → Place → Prop) {d i : ℕ} (hd : i + d + 1 = 16) :
    (∀ x ∈ (reading f dev disk status i (.rdb i)).1, P x.1 x.2) ↔
      ∀ j, i ≤ j → j < 16 → Searched f disk status i j → P j (.rdb j) ∧ (Leads f disk status j →
        ∀ x ∈ (reading f dev disk status (j + 1) (listed f disk j)).1, P x.1 x.2) := by
  induction d generalizing i with
  | zero =>
      by_cases h : (status i).code ≠ 0 ∨ IsRdb f (disk (BitVec.ofNat 32 i))
      · exact forall_reading_here P (by omega) h
      · obtain ⟨hst, hb⟩ := not_or.mp h
        have hlast : ¬i + 1 < 16 := by omega
        have hend := (after_not_rdb dev (i := i) (not_not.mp hst) hb).trans (if_neg hlast)
        rw [reading_inr hend, List.forall_mem_singleton]
        constructor
        · intro hfirst j hij hj _
          obtain rfl : j = i := by omega
          exact ⟨hfirst, fun hleads => absurd hleads.2.1 hb⟩
        · intro hall
          exact (hall i (Nat.le_refl i) (by omega) (searched_self i)).1
  | succ d ih =>
      by_cases h : (status i).code ≠ 0 ∨ IsRdb f (disk (BitVec.ofNat 32 i))
      · exact forall_reading_here P (by omega) h
      · obtain ⟨hst, hb⟩ := not_or.mp h
        have hgood := not_not.mp hst
        have hmore := (after_not_rdb dev (i := i) hgood hb).trans (if_pos (by omega))
        rw [reading_inl hmore, List.forall_mem_cons, ih (by omega)]
        constructor
        · rintro ⟨hfirst, hrest⟩ j hij hj hs
          rcases Nat.eq_or_lt_of_le hij with rfl | hlt
          · exact ⟨hfirst, fun hleads => absurd hleads.2.1 hb⟩
          · exact hrest j hlt hj ((searched_succ hlt).mp hs).2
        · intro hall
          refine ⟨(hall i (Nat.le_refl i) (by omega) (searched_self i)).1, fun j hij hj hs => ?_⟩
          exact hall j (Nat.le_of_succ_le hij) hj ((searched_succ hij).mpr ⟨⟨hgood, hb⟩, hs⟩)

/-! ### The whole open -/

theorem sdpartition_ok_iff (hpart : sdpart dev ≠ 0) {v : Partition} :
    (sdpartition f dev disk status).2 = .ok (some v) ↔ ∃ i, Chain f dev disk status i ∧
      v = partitionOf f (disk (BitVec.ofNat 32 i) f.rdb_CylBlocks) (entry f dev disk i) := by
  have hpos : 0 < (sdpart dev).toNat := Nat.pos_of_ne_zero fun h => hpart (BitVec.eq_of_toNat_eq h)
  have hp : 0 + ((sdpart dev).toNat - 1) + 1 = (sdpart dev).toNat := by omega
  unfold sdpartition
  rw [if_neg hpart, reading_rdb_ok (d := 15) rfl]
  constructor
  · rintro ⟨i, -, hi, hs, hleads, hrest⟩
    obtain ⟨hfollowed, ⟨hst, hb⟩, hv⟩ := (reading_pb_ok hleads.2.2 hp).mp hrest
    refine ⟨i, ⟨hpos, hi, fun k hk => (hs k (Nat.zero_le k) hk).2, hleads.2.1, fun k hk => ?_,
      fun k hk => ?_⟩, hv⟩
    · refine ⟨hfollowed.2 k (by omega), ?_⟩
      rcases Nat.lt_or_ge k ((sdpart dev).toNat - 1) with hlt | hge
      · exact (hfollowed.1 k hlt).2
      · obtain rfl : k = (sdpart dev).toNat - 1 := by omega
        exact hb
    · rcases Nat.lt_trichotomy k i with hlt | rfl | hgt
      · exact (hs k (Nat.zero_le k) hlt).1
      · exact hleads.1
      · obtain ⟨l, rfl⟩ : ∃ l, k = i + 1 + l := ⟨k - (i + 1), by omega⟩
        rcases Nat.lt_or_ge l ((sdpart dev).toNat - 1) with hlt | hge
        · exact (hfollowed.1 l hlt).1
        · obtain rfl : l = (sdpart dev).toNat - 1 := by omega
          exact hst
  · rintro ⟨i, hchain, hv⟩
    have hhead : head f disk i ≠ -1 := (hchain.list 0 hpos).1
    refine ⟨i, Nat.zero_le i, hchain.index, fun k _ hk => ⟨hchain.read k (by omega),
      hchain.first k hk⟩, ⟨hchain.read i (by omega), hchain.rdb, hhead⟩, ?_⟩
    refine (reading_pb_ok hhead hp).mpr ⟨⟨fun l hl => ?_, fun l hl => ?_⟩, ⟨?_, ?_⟩, hv⟩
    · exact ⟨hchain.read _ (by omega), (hchain.list l (by omega)).2⟩
    · exact (hchain.list l (by omega)).1
    · exact hchain.read _ (by omega)
    · exact (hchain.list _ (by omega)).2

/-- There is one RDB at most. -/
theorem Chain.unique {i j : ℕ} (hi : Chain f dev disk status i) (hj : Chain f dev disk status j) :
    i = j := by
  rcases Nat.lt_trichotomy i j with h | h | h
  · exact absurd hi.rdb (hj.first i h)
  · exact h
  · exact absurd hj.rdb (hi.first j h)

/-- What is summed decides whether a read stays inside the block. -/
theorem looksAt_inside (hf : f.Inside) (pl : Place) (block : Block) (st : IoStatus) :
    (∀ j ∈ looksAt f dev pl block st, j < LONGS) ↔
      (st.code = 0 → ∀ n ∈ summed f pl block, n ≤ LONGS) := by
  have hfields : (∀ j ∈ (fields f dev pl).1, j < LONGS) ∧
      (∀ j ∈ (fields f dev pl).2.1, j < LONGS) ∧ ∀ j ∈ (fields f dev pl).2.2, j < LONGS := by
    cases pl with
    | rdb i =>
        refine ⟨?_, ?_, ?_⟩ <;> simp [fields, hf.rdb_ID, hf.rdb_SummedLongs, hf.rdb_CylBlocks,
          hf.rdb_PartitionList]
    | pb sperc a pa =>
        refine ⟨by simp [fields, hf.pb_ID], by simp [fields, hf.pb_SummedLongs], ?_⟩
        unfold fields
        dsimp only
        rw [List.forall_mem_cons]
        refine ⟨hf.pb_Next, ?_⟩
        split
        · exact List.forall_mem_nil _
        · simp [hf.lowcyl, hf.uppercyl]
  obtain ⟨hany, hid, hsum⟩ := hfields
  unfold looksAt
  by_cases hst : st.code = 0
  · rw [if_neg (not_not.mpr hst)]
    cases summed f pl block with
    | none =>
        rw [List.append_nil]
        exact iff_of_true hany fun _ n hn => absurd hn.symm (Option.some_ne_none n)
    | some n =>
        have hrange : (∀ j ∈ List.range n, j < LONGS) ↔ n ≤ LONGS := by
          constructor
          · intro h
            refine Nat.not_lt.mp fun hlt => ?_
            exact Nat.lt_irrefl _ (h LONGS (List.mem_range.mpr hlt))
          · intro h j hj
            exact Nat.lt_of_lt_of_le (List.mem_range.mp hj) h
        have hrest : ∀ j ∈ (if checksum block n then (fields f dev pl).2.2 else []), j < LONGS := by
          split
          · exact hsum
          · exact List.forall_mem_nil _
        rw [List.forall_mem_append, List.forall_mem_append, List.forall_mem_append, hrange]
        constructor
        · rintro ⟨-, ⟨-, hn⟩, -⟩ - m hm
          rwa [← Option.mem_some_iff.mp hm]
        · intro hn
          exact ⟨hany, ⟨hid, hn hst n rfl⟩, hrest⟩
  · rw [if_pos hst]
    exact iff_of_true (List.forall_mem_nil _) fun h => absurd h hst

theorem summed_pb (sperc a : Long) (pa : ℕ) (block : Block) :
    summed f (.pb sperc a pa) block = summed f (.pb 0 0 0) block := rfl

theorem sdpartition_inside (hf : f.Inside) (hpart : sdpart dev ≠ 0) :
    (∀ x ∈ (sdpartition f dev disk status).1,
      ∀ j ∈ looksAt f dev x.2 (disk x.2.bno) (status x.1), j < LONGS) ↔
      LengthsFit f dev disk status := by
  have hpos : 0 < (sdpart dev).toNat := Nat.pos_of_ne_zero fun h => hpart (BitVec.eq_of_toNat_eq h)
  have hp : 0 + ((sdpart dev).toNat - 1) + 1 = (sdpart dev).toNat := by omega
  let P (n : ℕ) (pl : Place) : Prop := ∀ j ∈ looksAt f dev pl (disk pl.bno) (status n), j < LONGS
  have hreads : (∀ x ∈ (reading f dev disk status 0 (.rdb 0)).1, P x.1 x.2) ↔ _ :=
    forall_reading_rdb P (d := 15) rfl
  unfold sdpartition
  rw [if_neg hpart]
  refine hreads.trans ?_
  constructor
  · intro h
    refine ⟨fun i hi hs hst => ?_, fun i hi hs hst hb k hk hfollowed hread => ?_⟩
    · exact (looksAt_inside hf (.rdb i) _ _).mp (h i (Nat.zero_le i) hi hs).1 hst
    · have hhead := hfollowed.2 0 (Nat.zero_le k)
      have hlist := (forall_reading_pb P hhead hp).mp
        ((h i (Nat.zero_le i) hi hs).2 ⟨hst, hb, hhead⟩) k (by omega) hfollowed
      have hsummed := (looksAt_inside hf _ _ _).mp hlist hread
      rwa [summed_pb] at hsummed
  · rintro ⟨hrdb, hlist⟩ i - hi hs
    refine ⟨(looksAt_inside hf _ _ _).mpr (hrdb i hi hs), fun hleads => ?_⟩
    refine (forall_reading_pb P hleads.2.2 hp).mpr fun k hk hfollowed => ?_
    refine (looksAt_inside hf _ _ _).mpr fun hread => ?_
    rw [summed_pb]
    exact hlist i hi hs hleads.1 hleads.2.1 k (by omega) hfollowed hread

theorem toNat_cylinders {lo up : Long} (h : lo.toNat ≤ up.toNat) (hup : up.toNat + 1 < 4294967296) :
    (up + 1 - lo).toNat = up.toNat + 1 - lo.toNat := by
  rw [BitVec.toNat_sub, BitVec.toNat_add]
  have hone : (1 : Long).toNat = 1 := rfl
  rw [hone]
  omega

/-- What is stored is exact when the geometry is in order. -/
theorem Geometry.exact {i : ℕ} (h : Geometry f dev disk i) :
    (partitionOf f (disk (BitVec.ofNat 32 i) f.rdb_CylBlocks) (entry f dev disk i)).base.toNat =
        lowcyl f dev disk i * cylblocks f disk i ∧
      (partitionOf f (disk (BitVec.ofNat 32 i) f.rdb_CylBlocks) (entry f dev disk i)).len.toNat =
        (uppercyl f dev disk i + 1 - lowcyl f dev disk i) * cylblocks f disk i := by
  unfold partitionOf
  dsimp only
  rw [BitVec.toNat_mul, BitVec.toNat_mul, toNat_cylinders h.order h.last]
  exact ⟨Nat.mod_eq_of_lt h.base, Nat.mod_eq_of_lt h.len⟩

theorem sdpartition_result (hpart : sdpart dev ≠ 0) :
    (sdpartition f dev disk status).2.code ≠ 0 ∨
      ∃ v, (sdpartition f dev disk status).2 = .ok (some v) := by
  unfold sdpartition
  rw [if_neg hpart]
  exact reading_result 0 (.rdb 0)

/-- An open is robust if and only if it is for the whole disk, or no length is too large and
the geometry of the partition that it finds is in order. -/
theorem sdpartition_robust_iff (hf : f.Inside) (dev : Minor) (disk : Long → Block)
    (status : ℕ → IoStatus) (partab : Partab) :
    Robust f dev disk status partab (sdpartition f dev disk status) ↔
      sdpart dev = 0 ∨ LengthsFit f dev disk status ∧
        ∀ i, Chain f dev disk status i → Geometry f dev disk i := by
  by_cases hpart : sdpart dev = 0
  · have hrun : sdpartition f dev disk status = ([], .ok none) := if_pos hpart
    rw [hrun]
    refine iff_of_true ⟨?_, fun _ => ⟨rfl, rfl⟩, fun h => absurd hpart h, fun h => absurd rfl h⟩
      (.inl hpart)
    exact List.forall_mem_nil _
  · constructor
    · intro h
      refine .inr ⟨(sdpartition_inside hf hpart).mp h.within, fun i hi => ?_⟩
      have hok := (sdpartition_ok_iff hpart).mpr ⟨i, hi, rfl⟩
      obtain ⟨j, hj, hgeometry, -⟩ := h.success hpart (by rw [hok]; rfl)
      rwa [hi.unique hj]
    · intro h
      obtain ⟨hfit, hgeometry⟩ := h.resolve_left hpart
      refine ⟨(sdpartition_inside hf hpart).mpr hfit, fun h => absurd h hpart, fun _ hcode => ?_,
        fun hcode => ?_⟩
      · obtain ⟨v, hv⟩ := (sdpartition_result hpart).resolve_left (not_not.mpr hcode)
        obtain ⟨i, hi, rfl⟩ := (sdpartition_ok_iff hpart).mp hv
        have hstore : (sdpartition f dev disk status).2.store dev partab =
            Function.update partab dev (partitionOf f (disk (BitVec.ofNat 32 i) f.rdb_CylBlocks)
              (entry f dev disk i)) := by
          rw [hv]
          rfl
        refine ⟨i, hi, hgeometry i hi, fun m hm => ?_, ?_⟩
        · rw [hstore, Function.update_of_ne hm]
        · rw [hstore, Function.update_self]
          exact (hgeometry i hi).exact
      · cases hresult : (sdpartition f dev disk status).2 with
        | fail error => rfl
        | ok v =>
            rw [hresult] at hcode
            exact absurd rfl hcode

theorem mem_reading (n : ℕ) (pl : Place) : (n, pl) ∈ (reading f dev disk status n pl).1 := by
  rw [reading]
  split
  · exact List.mem_cons_self
  · exact List.mem_cons_self

end

/-! ### A disk -/

/-- The fields of `hardblocks.h`. -/
def hardblocks : Layout where
  rdb_ID := 0
  rdb_SummedLongs := 1
  rdb_PartitionList := 7
  rdb_CylBlocks := 36
  pb_ID := 0
  pb_SummedLongs := 1
  pb_Next := 4
  pb_Environment := 32
  DE_LOWCYL := 9
  DE_UPPERCYL := 10

/-- A block with these longs, and zeros. -/
def longs (l : List (ℕ × Long)) : Block := fun j => (l.lookup j).getD 0

/-- An RDB in block 0 that says how long it is, and one partition in block 1. -/
def smallDisk (summed : Long) (bno : Long) : Block :=
  if bno = 0 then
    longs [(0, 0x5244534b), (1, summed), (2, -(0x5244534b + summed + 5)), (7, 1), (36, 4)]
  else
    longs [(0, 0x50415254), (1, 64), (2, -(0x50415254 + 64 + 10)), (4, -1), (41, 2), (42, 9)]

theorem hardblocks_inside : hardblocks.Inside := by
  constructor <;> decide

/-- The first partition is found: 32 blocks from block 8 on. -/
theorem sdpartition_robust_iff_small :
    Robust hardblocks 0x10 (smallDisk 64) (fun _ => ⟨false, 0, 0⟩) (fun _ => ⟨0, 0⟩)
      (sdpartition hardblocks 0x10 (smallDisk 64) fun _ => ⟨false, 0, 0⟩) := by
  have hrdb : IsRdb hardblocks (smallDisk 64 (BitVec.ofNat 32 0)) :=
    ⟨by decide, by decide +kernel⟩
  have hfirst {i : ℕ} (h : ∀ k < i, ¬IsRdb hardblocks (smallDisk 64 (BitVec.ofNat 32 k))) :
      i = 0 := Nat.eq_zero_of_not_pos fun hi => h 0 hi hrdb
  refine (sdpartition_robust_iff hardblocks_inside 0x10 (smallDisk 64) _ _).mpr
    (.inr ⟨⟨fun i _ hs _ n hn => ?_, fun i _ hs _ _ k hk _ _ n hn => ?_⟩, fun i hi => ?_⟩)
  · obtain rfl := hfirst fun k hk => (hs k (Nat.zero_le k) hk).2
    have hn' : some n = some 64 := hn.symm.trans (by decide)
    rw [Option.some.inj hn']
    decide
  · obtain rfl := hfirst fun k hk => (hs k (Nat.zero_le k) hk).2
    obtain rfl : k = 0 := Nat.lt_one_iff.mp hk
    have hn' : some n = some 64 := hn.symm.trans (by decide)
    rw [Option.some.inj hn']
    decide
  · obtain rfl := hfirst hi.first
    constructor <;> decide

/-- An RDB that is said to be 200 longs long is summed past the end of the block. -/
theorem sdpartition_wrong :
    ¬Robust hardblocks 0x10 (smallDisk 200) (fun _ => ⟨false, 0, 0⟩) (fun _ => ⟨0, 0⟩)
      (sdpartition hardblocks 0x10 (smallDisk 200) fun _ => ⟨false, 0, 0⟩) := by
  intro h
  have hread : ((0, .rdb 0) : ℕ × Place) ∈
      (sdpartition hardblocks 0x10 (smallDisk 200) fun _ => ⟨false, 0, 0⟩).1 := mem_reading 0 (.rdb 0)
  exact absurd (h.within _ hread 128 (by decide +kernel)) (by decide)

end HydraAmix.Disk
