import HydraAmix.Floppy.Device
import HydraAmix.Library.Word

/-!
# The bytes of a raw transfer

`fdread` and `fdwrite` cut the request off at the end of the device and leave
the rest to `fdphysio`, which moves one block a turn and takes its number from
the offset. What the device and `uiomove` do in a turn comes from outside; here
one process is in `fdphysio`. Offsets and counts are those of a C `int`, and the
bytes of the device and of the user's memory have their places in them.
-/
namespace HydraAmix.Floppy
open Word

inductive RawErrno where
  | EIO | ENOSPC | EFAULT
  deriving DecidableEq, Repr

open RawErrno

/-- `struct uio`, with the user's memory and the place in it to go on from. -/
structure RawUio where
  offset : ℤ
  resid : ℤ
  base : ℕ
  user : ℕ → Byte

structure RawState where
  uio : RawUio
  disk : ℤ → Byte

/-- In which turns the device reports an error, and `uiomove` a fault. -/
structure RawOutcome where
  fails : ℕ → Bool
  faults : ℕ → Bool

/-- `dfmt`: the minor number is that of a device for formatting. -/
def dfmt (dev : ℕ) : Bool := dev >>> 4 &&& 1 ≠ 0

def nblocks (dev : ℕ) : ℕ := (dtypes (dtotype dev)).nblocks
def nsecs (dev : ℕ) : ℕ := (dtypes (dtotype dev)).nsecs

/-- `fdsize(dev)*BPSEC` -/
def rawSize (dev : ℕ) : ℤ := nblocks dev * BPSEC

def readBlock (disk : ℤ → Byte) (bno : ℤ) : ℕ → Byte := fun i => disk (bno * BPSEC + i)

def writeBlock (disk : ℤ → Byte) (bno : ℤ) (buffer : ℕ → Byte) : ℤ → Byte := fun x =>
  if bno * BPSEC ≤ x ∧ x < bno * BPSEC + BPSEC then buffer (x - bno * BPSEC).toNat else disk x

/-- `findtrk` without reading: a format begins with a track of zeros. -/
def zeroTrack (dev : ℕ) (disk : ℤ → Byte) (bno : ℤ) : ℤ → Byte := fun x =>
  if bno * BPSEC ≤ x ∧ x < bno * BPSEC + nsecs dev * BPSEC then 0 else disk x

/-- The bytes of the device before `format` or `write` puts the block there. -/
def beforeWrite (dev : ℕ) (disk : ℤ → Byte) (bno : ℤ) : ℤ → Byte :=
  if dfmt dev ∧ bno % nsecs dev = 0 then zeroTrack dev disk bno else disk

/-- `rundevice` can serve the block; a number that is negative is large as a `ulong`. -/
def Served (dev : ℕ) (read : Bool) (bno : ℤ) : Prop :=
  ¬(read = true ∧ dfmt dev = true) ∧ 0 ≤ bno ∧ bno < nblocks dev

instance (dev : ℕ) (read : Bool) (bno : ℤ) : Decidable (Served dev read bno) :=
  inferInstanceAs (Decidable (_ ∧ _))

namespace RawUio

/-- `uio` after `uiomove` of a block, which moves all of it: `uio_resid` is a
multiple of a block and not 0. -/
def advance (u : RawUio) : RawUio :=
  { u with offset := int32 (u.offset + BPSEC), resid := int32 (u.resid - BPSEC)
           base := u.base + BPSEC }

/-- `uiomove(buffer, BPSEC, UIO_READ, uiop)` -/
def moveOut (u : RawUio) (buffer : ℕ → Byte) : RawUio :=
  { u.advance with
    user := fun i => if u.base ≤ i ∧ i < u.base + BPSEC then buffer (i - u.base) else u.user i }

/-- The block that `uiomove(buffer, BPSEC, UIO_WRITE, uiop)` takes. -/
def taken (u : RawUio) : ℕ → Byte := fun i => u.user (u.base + i)

/-- The test for the end of the device. -/
def clamp (dev : ℕ) (u : RawUio) : RawUio :=
  if int32 (u.offset + u.resid) > rawSize dev then
    { u with resid := int32 (rawSize dev - u.offset) }
  else u

end RawUio

/-- One turn of the loop of `fdphysio`. -/
def physioTurn (fails fault : Bool) (dev : ℕ) (read : Bool) (s : RawState) :
    Except RawErrno RawState :=
  let blkno := s.uio.offset.tdiv BPSEC
  if read then
    if Served dev read blkno ∧ fails = false then
      if fault then .error .EFAULT
      else .ok { s with uio := s.uio.moveOut (readBlock s.disk blkno) }
    else .error EIO
  else
    if fault then .error .EFAULT
    else if Served dev read blkno ∧ fails = false then
      .ok ⟨s.uio.advance, writeBlock (beforeWrite dev s.disk blkno) blkno s.uio.taken⟩
    else .error EIO

/-- The loop, from turn `k` on; `none` when the supply of turns runs out. -/
def physioLoop (o : RawOutcome) (dev : ℕ) (read : Bool) :
    ℕ → ℕ → RawState → Option (Except RawErrno RawState)
  | 0, _, _ => none
  | supply + 1, k, s =>
    if s.uio.resid = 0 then some (.ok s)
    else match physioTurn (o.fails k) (o.faults k) dev read s with
      | .error e => some (.error e)
      | .ok s => physioLoop o dev read supply (k + 1) s

def fdphysio (o : RawOutcome) (dev : ℕ) (read : Bool) (supply : ℕ) (s : RawState) :
    Option (Except RawErrno RawState) :=
  if s.uio.resid.tmod BPSEC ≠ 0 then some (.error EIO) else physioLoop o dev read supply 0 s

/-- `fdread` and `fdwrite`, which differ in what they return at the end of the device. -/
def fdrdwr (o : RawOutcome) (dev : ℕ) (read : Bool) (supply : ℕ) (s : RawState) :
    Option (Except RawErrno RawState) :=
  if s.uio.offset = rawSize dev then some (if read then .ok s else .error .ENOSPC)
  else fdphysio o dev read supply { s with uio := s.uio.clamp dev }

def fdread (o : RawOutcome) (dev supply : ℕ) (s : RawState) : Option (Except RawErrno RawState) :=
  fdrdwr o dev true supply s

def fdwrite (o : RawOutcome) (dev supply : ℕ) (s : RawState) : Option (Except RawErrno RawState) :=
  fdrdwr o dev false supply s

/-! ### What a transfer has to be -/

/-- The number of bytes that `uiomove` moved. -/
def movedBytes (s s' : RawState) : ℕ := s'.uio.base - s.uio.base

/-- The count went down, as the caller sees it, by the bytes that were moved, and
these are the bytes of the device from the offset on. A device for formatting
may change others. -/
structure Accurate (dev : ℕ) (read : Bool) (s s' : RawState) : Prop where
  count : s.uio.resid - s'.uio.resid = movedBytes s s'
  read_bytes : read = true → s'.disk = s.disk ∧
    (∀ i < movedBytes s s', s'.uio.user (s.uio.base + i) = s.disk (s.uio.offset + i)) ∧
    ∀ a, a < s.uio.base ∨ s.uio.base + movedBytes s s' ≤ a → s'.uio.user a = s.uio.user a
  write_bytes : read = false → s'.uio.user = s.uio.user ∧
    (∀ i < movedBytes s s', s'.disk (s.uio.offset + i) = s.uio.user (s.uio.base + i)) ∧
    (dfmt dev = false → ∀ x, x < s.uio.offset ∨ s.uio.offset + movedBytes s s' ≤ x →
      s'.disk x = s.disk x)

/-- A whole number of blocks is asked for from a place inside a block. -/
def Misplaced (dev : ℕ) (offset resid : ℤ) : Prop :=
  offset % BPSEC ≠ 0 ∧ resid % BPSEC = 0 ∧ 0 < resid ∧ -BPSEC < offset ∧
    offset + resid ≤ rawSize dev

/-- The request begins at a block of the device and goes beyond its end. -/
def CutOff (dev : ℕ) (offset resid : ℤ) : Prop :=
  offset % BPSEC = 0 ∧ 0 ≤ offset ∧ offset < rawSize dev ∧ rawSize dev < offset + resid ∧
    offset + resid < 0x80000000

/-! ### One turn -/

/-- What a turn without an error leaves. -/
def turned (dev : ℕ) (read : Bool) (s : RawState) : RawState :=
  let blkno := s.uio.offset.tdiv BPSEC
  if read then { s with uio := s.uio.moveOut (readBlock s.disk blkno) }
  else ⟨s.uio.advance, writeBlock (beforeWrite dev s.disk blkno) blkno s.uio.taken⟩

section
variable {dev : ℕ} {read : Bool} {s t : RawState}

theorem of_physioTurn {fails fault : Bool} (h : physioTurn fails fault dev read s = .ok t) :
    Served dev read (s.uio.offset.tdiv BPSEC) ∧ t = turned dev read s := by
  unfold physioTurn at h
  unfold turned
  cases read
  · simp only [Bool.false_eq_true, if_false] at h ⊢
    split at h
    · cases h
    · split at h
      · next hs => exact ⟨hs.1, (Except.ok.inj h).symm⟩
      · cases h
  · simp only [if_true] at h ⊢
    split at h
    · next hs =>
      split at h
      · cases h
      · exact ⟨hs.1, (Except.ok.inj h).symm⟩
    · cases h

theorem physioTurn_ok (h : Served dev read (s.uio.offset.tdiv BPSEC)) :
    physioTurn false false dev read s = .ok (turned dev read s) := by
  unfold physioTurn turned
  cases read
  · simp only [Bool.false_eq_true, if_false, h, and_self, if_true]
  · simp only [if_true, h, and_self, Bool.false_eq_true, if_false]

theorem turned_offset : (turned dev read s).uio.offset = int32 (s.uio.offset + 512) := by
  cases read <;> rfl

theorem turned_resid : (turned dev read s).uio.resid = int32 (s.uio.resid - 512) := by
  cases read <;> rfl

theorem turned_base : (turned dev read s).uio.base = s.uio.base + 512 := by
  cases read <;> rfl

/-- `/` of C rounds towards zero. -/
theorem tdiv_block (o : ℤ) :
    (0 ≤ o ∧ o.tdiv BPSEC = o / 512) ∨ (o < 0 ∧ o.tdiv BPSEC = -(-o / 512)) := by
  rcases Int.lt_or_le o 0 with h | h
  · refine Or.inr ⟨h, ?_⟩
    have hneg : o.tdiv 512 = -((-o).tdiv 512) := by rw [Int.neg_tdiv, Int.neg_neg]
    exact hneg.trans (congrArg _ (Int.tdiv_eq_ediv_of_nonneg (by omega)))
  · exact Or.inl ⟨h, Int.tdiv_eq_ediv_of_nonneg h⟩

theorem rawSize_eq (dev : ℕ) : rawSize dev = nblocks dev * 512 := rfl

theorem rawSize_small (dev : ℕ) : rawSize dev ≤ 1474560 := by
  have h : ∀ type : Fin NTYPES, (dtypes type).nblocks ≤ 2880 := by decide
  have := h (dtotype dev)
  rw [rawSize_eq]
  unfold nblocks
  omega

/-- A block is served exactly where the offset is not beyond the end, nor a whole
block before the start. -/
theorem served_iff : Served dev read (s.uio.offset.tdiv BPSEC) ↔
    ¬(read = true ∧ dfmt dev = true) ∧ -512 < s.uio.offset ∧
      (s.uio.offset < rawSize dev ∧ 0 < rawSize dev) := by
  rw [rawSize_eq]
  unfold Served
  rcases tdiv_block s.uio.offset with ⟨h, hd⟩ | ⟨h, hd⟩ <;> rw [hd] <;>
    constructor <;> rintro ⟨hf, h₁, h₂⟩ <;> refine ⟨hf, ?_, ?_⟩ <;> omega

end

/-! ### The loop -/

section
variable {o : RawOutcome} {dev : ℕ} {read : Bool} {s s' : RawState}

/-- What holds at the start and is kept by every turn without an error holds when
the loop has ended without one. -/
theorem physioLoop_induct {P : ℕ → RawState → Prop}
    (hstep : ∀ m t, P m t → Served dev read (t.uio.offset.tdiv BPSEC) →
      P (m + 1) (turned dev read t)) :
    ∀ {supply k m : ℕ} {s : RawState}, P m s →
      physioLoop o dev read supply k s = some (.ok s') →
      s'.uio.resid = 0 ∧ ∃ m', P m' s' := by
  intro supply
  induction supply with
  | zero => intro k m s _ h; cases h
  | succ supply ih =>
    intro k m s hp h
    unfold physioLoop at h
    split at h
    · next h0 =>
      obtain rfl := Except.ok.inj (Option.some.inj h)
      exact ⟨h0, m, hp⟩
    · split at h
      · cases h
      · next t ht =>
        obtain ⟨hs, rfl⟩ := of_physioTurn ht
        exact ih (hstep m s hp hs) h

/-- The places after `m` turns from the offset `o₀` and the count `r₀`; a turn was
at a block of the device. -/
structure Turns (dev : ℕ) (read : Bool) (s₀ : RawState) (r₀ : ℤ) (m : ℕ) (t : RawState) :
    Prop where
  offset : t.uio.offset = s₀.uio.offset + 512 * m
  base : t.uio.base = s₀.uio.base + 512 * m
  resid : (r₀ - 512 * m - t.uio.resid) % 0x100000000 = 0
  served : 0 < m → -512 < s₀.uio.offset ∧ s₀.uio.offset + 512 * (m - 1 : ℤ) < rawSize dev
  format : 0 < m → ¬(read = true ∧ dfmt dev = true)

theorem int32_mod (x : ℤ) : (x - int32 x) % 0x100000000 = 0 := by
  unfold int32
  omega

theorem Turns.step {s₀ t : RawState} {r₀ : ℤ} {m : ℕ} (h : Turns dev read s₀ r₀ m t)
    (hs : Served dev read (t.uio.offset.tdiv BPSEC)) :
    Turns dev read s₀ r₀ (m + 1) (turned dev read t) := by
  obtain ⟨hf, hlow, hhigh, -⟩ := served_iff.mp hs
  have hsmall := rawSize_small dev
  have hoff := h.offset
  have hmod := int32_mod (t.uio.resid - 512)
  refine ⟨?_, ?_, ?_, ?_, fun _ => hf⟩
  · rw [turned_offset, int32_of_range (by omega) (by omega)]
    omega
  · rw [turned_base, h.base]
    omega
  · have := h.resid
    rw [turned_resid]
    omega
  · intro _
    rcases Nat.eq_zero_or_pos m with h0 | hpos
    · subst h0
      constructor <;> omega
    · have := h.served hpos
      constructor <;> omega

/-- A supply of more turns than the device has blocks does not run out. -/
theorem physioLoop_returns {supply k : ℕ} {s : RawState}
    (h : physioLoop o dev read supply k s = none) :
    0 < supply → -512 < s.uio.offset ∧ s.uio.offset + 512 * (supply - 1 : ℤ) < rawSize dev := by
  induction supply generalizing k s with
  | zero => intro h0; exact absurd h0 (Nat.lt_irrefl 0)
  | succ supply ih =>
    intro _
    unfold physioLoop at h
    split at h
    · cases h
    · split at h
      · cases h
      · next t ht =>
        obtain ⟨hs, rfl⟩ := of_physioTurn ht
        obtain ⟨-, hlow, hhigh, -⟩ := served_iff.mp hs
        have hsmall := rawSize_small dev
        rcases Nat.eq_zero_or_pos supply with h0 | hpos
        · subst h0
          constructor <;> omega
        · have := ih h hpos
          rw [turned_offset, int32_of_range (by omega) (by omega)] at this
          constructor <;> omega

/-- Without errors from outside, the loop ends when all blocks are on the device. -/
theorem physioLoop_runs (hread : ¬(read = true ∧ dfmt dev = true)) :
    ∀ {m supply k : ℕ} {s : RawState}, m < supply → s.uio.resid = 512 * m →
      (0 < m → -512 < s.uio.offset ∧ s.uio.offset + 512 * (m - 1 : ℤ) < rawSize dev ∧
        0 < rawSize dev) →
      ∃ s', physioLoop ⟨fun _ => false, fun _ => false⟩ dev read supply k s =
        some (.ok s') := by
  intro m
  induction m with
  | zero =>
    intro supply k s hs hr _
    obtain ⟨supply, rfl⟩ := Nat.exists_eq_add_of_le' (Nat.one_le_of_lt hs)
    exact ⟨s, if_pos (by omega)⟩
  | succ m ih =>
    intro supply k s hs hr hon
    obtain ⟨supply, rfl⟩ := Nat.exists_eq_add_of_le' (Nat.one_le_of_lt hs)
    obtain ⟨hlow, hhigh, hsize⟩ := hon (Nat.succ_pos m)
    have hsmall := rawSize_small dev
    have hserved : Served dev read (s.uio.offset.tdiv BPSEC) :=
      served_iff.mpr ⟨hread, hlow, by omega, hsize⟩
    have hoff : (turned dev read s).uio.offset = s.uio.offset + 512 := by
      rw [turned_offset, int32_of_range (by omega) (by omega)]
    have hres : (turned dev read s).uio.resid = 512 * m := by
      rw [turned_resid, int32_of_range (by omega) (by omega)]
      omega
    obtain ⟨s', hs'⟩ := ih (k := k + 1) (s := turned dev read s)
      (Nat.lt_of_succ_lt_succ hs) hres (by
        intro hpos
        rw [hoff]
        refine ⟨?_, ?_, hsize⟩ <;> omega)
    refine ⟨s', ?_⟩
    unfold physioLoop
    rw [if_neg (by omega), physioTurn_ok hserved]
    exact hs'

end

/-! ### From a block on -/

/-- After `m` turns from the start of a block. -/
structure Copied (dev : ℕ) (read : Bool) (s₀ : RawState) (m : ℕ) (t : RawState) : Prop where
  read_bytes : read = true → t.disk = s₀.disk ∧
    (∀ i < 512 * m, t.uio.user (s₀.uio.base + i) = s₀.disk (s₀.uio.offset + i)) ∧
    ∀ a, a < s₀.uio.base ∨ s₀.uio.base + 512 * m ≤ a → t.uio.user a = s₀.uio.user a
  write_bytes : read = false → t.uio.user = s₀.uio.user ∧
    (∀ i < 512 * m, t.disk (s₀.uio.offset + i) = s₀.uio.user (s₀.uio.base + i)) ∧
    (dfmt dev = false → ∀ x : ℤ, x < s₀.uio.offset ∨ s₀.uio.offset + 512 * m ≤ x →
      t.disk x = s₀.disk x)

section
variable {o : RawOutcome} {dev : ℕ} {read : Bool} {s₀ t : RawState} {r₀ : ℤ} {m : ℕ}

theorem tdiv_aligned {x : ℤ} (h : x % 512 = 0) : x.tdiv BPSEC * BPSEC = x := by
  change x.tdiv BPSEC * 512 = x
  rcases tdiv_block x with ⟨h₀, hd⟩ | ⟨h₀, hd⟩ <;> rw [hd] <;> omega

/-- Before the block is written nothing below it changes. -/
theorem beforeWrite_below {disk : ℤ → Byte} {bno x : ℤ} (h : x < bno * BPSEC) :
    beforeWrite dev disk bno x = disk x := by
  unfold beforeWrite zeroTrack
  split
  · exact if_neg (by omega)
  · rfl

theorem beforeWrite_plain {disk : ℤ → Byte} {bno : ℤ} (h : dfmt dev = false) :
    beforeWrite dev disk bno = disk := by
  unfold beforeWrite
  exact if_neg (by rw [h]; simp)

theorem Copied.step (hc : Copied dev read s₀ m t) (ht : Turns dev read s₀ r₀ m t)
    (ha : s₀.uio.offset % 512 = 0) : Copied dev read s₀ (m + 1) (turned dev read t) := by
  have hoff := ht.offset
  have hbase := ht.base
  have hblk : t.uio.offset.tdiv BPSEC * BPSEC = t.uio.offset := tdiv_aligned (by omega)
  refine ⟨?_, ?_⟩
  · rintro rfl
    obtain ⟨hdisk, hbytes, hrest⟩ := hc.read_bytes rfl
    have huser : ∀ a, (turned dev true t).uio.user a =
        if t.uio.base ≤ a ∧ a < t.uio.base + 512 then
          t.disk (t.uio.offset + (a - t.uio.base : ℕ)) else t.uio.user a := by
      intro a
      change (if _ then readBlock t.disk _ _ else _) = _
      unfold readBlock
      rw [hblk]
    refine ⟨hdisk, ?_, ?_⟩
    · intro i hi
      rw [huser]
      split
      · rw [hdisk]
        congr 1
        omega
      · exact hbytes i (by omega)
    · intro a h
      rw [huser, if_neg (by omega)]
      exact hrest a (by omega)
  · rintro rfl
    obtain ⟨huser, hbytes, hrest⟩ := hc.write_bytes rfl
    have hdisk : ∀ x, (turned dev false t).disk x =
        if t.uio.offset ≤ x ∧ x < t.uio.offset + 512 then
          s₀.uio.user (t.uio.base + (x - t.uio.offset).toNat)
        else beforeWrite dev t.disk (t.uio.offset.tdiv BPSEC) x := by
      intro x
      change writeBlock _ _ _ x = _
      unfold writeBlock RawUio.taken
      rw [hblk, huser]
      rfl
    refine ⟨huser, ?_, ?_⟩
    · intro i hi
      rw [hdisk]
      split
      · congr 1
        omega
      · rw [beforeWrite_below (by rw [hblk]; omega)]
        exact hbytes i (by omega)
    · intro hf x h
      rw [hdisk, if_neg (by omega), beforeWrite_plain hf]
      exact hrest hf x (by omega)

theorem Turns.zero (s : RawState) : Turns dev read s s.uio.resid 0 s where
  offset := by simp
  base := by simp
  resid := by simp
  served h := absurd h (Nat.lt_irrefl 0)
  format h := absurd h (Nat.lt_irrefl 0)

theorem Copied.zero (s : RawState) : Copied dev read s 0 s where
  read_bytes _ := ⟨rfl, fun i hi => absurd hi (Nat.not_lt_zero i), fun _ _ => rfl⟩
  write_bytes _ := ⟨rfl, fun i hi => absurd hi (Nat.not_lt_zero i), fun _ _ _ => rfl⟩

/-- The count of a loop without errors was that of its turns. -/
theorem Turns.count (ht : Turns dev read s₀ r₀ m t) (h0 : t.uio.resid = 0)
    (hl : -0x80000000 ≤ r₀) (hu : r₀ < 0x80000000) : r₀ = 512 * m := by
  have hr := ht.resid
  have hsmall := rawSize_small dev
  rw [h0] at hr
  rcases Nat.eq_zero_or_pos m with hm | hm
  · omega
  · have := ht.served hm
    omega

/-- The loop makes some number of turns, all of them at blocks of the device. -/
theorem physioLoop_turns {supply : ℕ} {s s' : RawState}
    (h : physioLoop o dev read supply 0 s = some (.ok s')) (hl : -0x80000000 ≤ s.uio.resid)
    (hu : s.uio.resid < 0x80000000) :
    ∃ m : ℕ, Turns dev read s s.uio.resid m s' ∧ s.uio.resid = 512 * m ∧ s'.uio.resid = 0 := by
  obtain ⟨h0, m, ht⟩ := physioLoop_induct (P := Turns dev read s s.uio.resid)
    (fun m t ht hs => ht.step hs) (Turns.zero s) h
  exact ⟨m, ht, ht.count h0 hl hu, h0⟩

theorem physioLoop_copied {supply : ℕ} {s s' : RawState}
    (h : physioLoop o dev read supply 0 s = some (.ok s')) (ha : s.uio.offset % 512 = 0)
    (hl : -0x80000000 ≤ s.uio.resid) (hu : s.uio.resid < 0x80000000) :
    ∃ m : ℕ, Turns dev read s s.uio.resid m s' ∧ Copied dev read s m s' ∧
      s.uio.resid = 512 * m ∧ s'.uio.resid = 0 := by
  obtain ⟨h0, m, ht, hc⟩ := physioLoop_induct
    (P := fun m t => Turns dev read s s.uio.resid m t ∧ Copied dev read s m t)
    (fun m t ht hs => ⟨ht.1.step hs, ht.2.step ht.1 ha⟩) ⟨Turns.zero s, Copied.zero s⟩ h
  exact ⟨m, ht, hc, ht.count h0 hl hu, h0⟩

end

/-! ### From inside a block -/

/-- The byte that marks the start of the block that the first turn takes. -/
def markedDisk (offset : ℤ) : ℤ → Byte := fun x => if x = offset.tdiv BPSEC * BPSEC then 1 else 0

/-- Memory with a mark in its first byte. -/
def markedUser : ℕ → Byte := fun a => if a = 0 then 1 else 0

section
variable {o : RawOutcome} {dev : ℕ} {m : ℕ} {offset resid : ℤ}

theorem offset_ne_block (h : offset % 512 ≠ 0) : offset ≠ offset.tdiv BPSEC * BPSEC := by
  intro he
  apply h
  rw [he]
  exact Int.mul_emod_left _ _

/-- A read from inside a block delivers the mark first. -/
theorem read_mark {supply : ℕ} {s' : RawState}
    (h : physioLoop o dev true supply 0 ⟨⟨offset, resid, 0, fun _ => 0⟩, markedDisk offset⟩ =
      some (.ok s')) (hpos : resid ≠ 0) : s'.uio.user 0 = 1 := by
  obtain ⟨h0, m, -, -, hfirst, hrest⟩ := physioLoop_induct
    (P := fun m t => t.disk = markedDisk offset ∧ t.uio.base = 512 * m ∧
      (m = 0 → t.uio.offset = offset ∧ t.uio.resid = resid) ∧ (0 < m → t.uio.user 0 = 1))
    (by
      rintro m t ⟨hdisk, hbase, hfirst, hmark⟩ -
      refine ⟨hdisk, by rw [turned_base]; omega, fun h => absurd h (Nat.succ_ne_zero m), ?_⟩
      intro _
      change (if t.uio.base ≤ 0 ∧ 0 < t.uio.base + 512 then readBlock t.disk _ _ else _) = _
      rcases Nat.eq_zero_or_pos m with hm | hm
      · rw [if_pos (by omega), readBlock, hdisk, (hfirst hm).1, markedDisk, if_pos (by simp)]
      · rw [if_neg (by omega)]
        exact hmark hm)
    (m := 0) ⟨rfl, rfl, fun _ => ⟨rfl, rfl⟩, fun h => absurd h (Nat.lt_irrefl 0)⟩ h
  apply hrest
  apply Nat.pos_of_ne_zero
  intro hm
  exact hpos ((hfirst hm).2.symm.trans h0)

/-- A write from inside a block puts the mark nowhere but at the start of the block. -/
theorem write_mark {supply : ℕ} {s' : RawState}
    (h : physioLoop o dev false supply 0 ⟨⟨offset, resid, 0, markedUser⟩, fun _ => 0⟩ =
      some (.ok s')) {x : ℤ} (hx : s'.disk x = 1) : x = offset.tdiv BPSEC * BPSEC := by
  obtain ⟨-, m, -, -, -, hmark⟩ := physioLoop_induct
    (P := fun m t => t.uio.user = markedUser ∧ t.uio.base = 512 * m ∧
      (m = 0 → t.uio.offset = offset) ∧ ∀ x, t.disk x = 1 → x = offset.tdiv BPSEC * BPSEC)
    (by
      rintro m t ⟨huser, hbase, hfirst, hmark⟩ -
      refine ⟨huser, by rw [turned_base]; omega, fun h => absurd h (Nat.succ_ne_zero m), ?_⟩
      intro x hx
      change (if _ then RawUio.taken _ _ else beforeWrite dev t.disk _ x) = 1 at hx
      split at hx
      · next hin =>
        unfold RawUio.taken at hx
        rw [huser] at hx
        unfold markedUser at hx
        split at hx
        · next ha => rw [hfirst (by omega)] at hin ha; omega
        · exact absurd hx (by decide)
      · unfold beforeWrite at hx
        split at hx
        · change (if _ then 0 else t.disk x) = 1 at hx
          split at hx
          · exact absurd hx (by decide)
          · exact hmark x hx
        · exact hmark x hx)
    (m := 0) ⟨rfl, rfl, fun _ => rfl, fun x hx => absurd (hx : (0 : Byte) = 1) (by decide)⟩ h
  exact hmark x hx

end

/-! ### The exact condition -/

section
variable {o : RawOutcome} {dev : ℕ} {read : Bool} {supply : ℕ} {s s' : RawState}

theorem Accurate.refl (s : RawState) : Accurate dev read s s := by
  have hmoved : movedBytes s s = 0 := Nat.sub_self _
  refine ⟨?_, ?_, ?_⟩
  · rw [hmoved, Int.sub_self]
    rfl
  · intro _
    rw [hmoved]
    exact ⟨rfl, fun i hi => absurd hi (Nat.not_lt_zero i), fun _ _ => rfl⟩
  · intro _
    rw [hmoved]
    exact ⟨rfl, fun i hi => absurd hi (Nat.not_lt_zero i), fun _ _ _ => rfl⟩

theorem Copied.accurate {m : ℕ} (hc : Copied dev read s m s')
    (ht : Turns dev read s s.uio.resid m s') (hr : s.uio.resid = 512 * m)
    (h0 : s'.uio.resid = 0) : Accurate dev read s s' := by
  have hmoved : movedBytes s s' = 512 * m := by
    unfold movedBytes
    rw [ht.base, Nat.add_sub_cancel_left]
  refine ⟨?_, ?_, ?_⟩
  · rw [hmoved]
    omega
  · rw [hmoved]
    exact hc.read_bytes
  · rw [hmoved]
    intro h
    obtain ⟨huser, hbytes, hrest⟩ := hc.write_bytes h
    exact ⟨huser, hbytes, fun hf x hx => hrest hf x (by omega)⟩

/-- The remainder of C is 0 for the same numbers. -/
theorem tmod_block {x : ℤ} : x.tmod BPSEC = 0 ↔ x % 512 = 0 := by
  have h := Int.tmod_eq_emod (a := x) (b := 512)
  change x.tmod 512 = 0 ↔ _
  constructor
  · intro h'
    exact Int.emod_eq_zero_of_dvd (Int.dvd_of_tmod_eq_zero h')
  · intro h'
    exact Int.tmod_eq_zero_of_dvd (Int.dvd_of_emod_eq_zero h')

/-- A transfer without an error is accurate, unless it begins inside a block or
is cut off at the end of the device. -/
theorem fdrdwr_accurate (hol : -0x80000000 ≤ s.uio.offset) (hou : s.uio.offset < 0x80000000)
    (hrl : -0x80000000 ≤ s.uio.resid) (hru : s.uio.resid < 0x80000000)
    (hc : (read = true ∧ dfmt dev = true) ∨ ¬Misplaced dev s.uio.offset s.uio.resid ∧
      ¬CutOff dev s.uio.offset s.uio.resid)
    (h : fdrdwr o dev read supply s = some (.ok s')) : Accurate dev read s s' := by
  have hsmall := rawSize_small dev
  have hblocks := rawSize_eq dev
  unfold fdrdwr at h
  split at h
  · cases read
    · cases h
    · obtain rfl := Except.ok.inj (Option.some.inj h)
      exact Accurate.refl s
  next hend =>
  unfold fdphysio at h
  split at h
  · cases h
  unfold RawUio.clamp at h
  split at h
  · next hover =>
    -- cut off: the loop transfers what is left of the device
    exfalso
    have hi := int32_mod (rawSize dev - s.uio.offset)
    have hil : -0x80000000 ≤ int32 (rawSize dev - s.uio.offset) := by unfold int32; omega
    have hiu : int32 (rawSize dev - s.uio.offset) < 0x80000000 := by unfold int32; omega
    obtain ⟨m, ht, hr, -⟩ := physioLoop_turns h hil hiu
    change int32 (rawSize dev - s.uio.offset) = 512 * m at hr
    rcases Nat.eq_zero_or_pos m with hm | hm
    · apply hend
      omega
    · obtain ⟨hlow, hhigh⟩ := ht.served hm
      change -512 < s.uio.offset at hlow
      change s.uio.offset + 512 * (m - 1 : ℤ) < rawSize dev at hhigh
      obtain ⟨-, hcut⟩ := hc.resolve_left (ht.format hm)
      apply hcut
      change s.uio.offset % 512 = 0 ∧ _
      have hsum := int32_mod (s.uio.offset + s.uio.resid)
      unfold int32 at hover
      refine ⟨?_, ?_, ?_, ?_, ?_⟩ <;> omega
  · next hover =>
    obtain ⟨m, ht, hr, h0⟩ := physioLoop_turns h hrl hru
    rcases Nat.eq_zero_or_pos m with hm | hm
    · have hs : s' = s := by
        cases supply with
        | zero => cases h
        | succ supply =>
          unfold physioLoop at h
          rw [if_pos (by omega)] at h
          exact (Except.ok.inj (Option.some.inj h)).symm
      rw [hs]
      exact Accurate.refl s
    · obtain ⟨hlow, hhigh⟩ := ht.served hm
      change -512 < s.uio.offset at hlow
      change s.uio.offset + 512 * (m - 1 : ℤ) < rawSize dev at hhigh
      change s.uio.resid = 512 * m at hr
      obtain ⟨hmis, -⟩ := hc.resolve_left (ht.format hm)
      have ha : s.uio.offset % 512 = 0 := by
        apply Decidable.byContradiction
        intro hne
        apply hmis
        change s.uio.offset % 512 ≠ 0 ∧ s.uio.resid % 512 = 0 ∧ 0 < s.uio.resid ∧
          -512 < s.uio.offset ∧ _
        unfold int32 at hover
        refine ⟨hne, ?_, ?_, hlow, ?_⟩ <;> omega
      obtain ⟨m, ht, hcopied, hr, h0⟩ := physioLoop_copied h ha hrl hru
      exact hcopied.accurate ht hr h0

/-- With more turns than the device has blocks, the call returns. -/
theorem fdrdwr_returns (hs : nblocks dev + 1 < supply) :
    ∃ r, fdrdwr o dev read supply s = some r := by
  cases h : fdrdwr o dev read supply s with
  | some r => exact ⟨r, rfl⟩
  | none =>
    exfalso
    unfold fdrdwr at h
    split at h
    · cases h
    · unfold fdphysio at h
      split at h
      · cases h
      · have := physioLoop_returns h (by omega)
        have hblocks := rawSize_eq dev
        omega

/-- A whole number of blocks within the device, or up to its end, is transferred. -/
theorem fdrdwr_runs (hread : ¬(read = true ∧ dfmt dev = true))
    (hend : s.uio.offset ≠ rawSize dev) {m : ℕ} (hm : 0 < m)
    (hr : (s.uio.clamp dev).resid = 512 * m) (hlow : -512 < s.uio.offset)
    (hhigh : s.uio.offset + 512 * m ≤ rawSize dev) (hs : nblocks dev + 1 < supply) :
    ∃ s', fdrdwr ⟨fun _ => false, fun _ => false⟩ dev read supply s = some (.ok s') ∧
      physioLoop ⟨fun _ => false, fun _ => false⟩ dev read supply 0
        { s with uio := s.uio.clamp dev } = some (.ok s') := by
  have hblocks := rawSize_eq dev
  have hoff : (s.uio.clamp dev).offset = s.uio.offset := by
    unfold RawUio.clamp
    split <;> rfl
  obtain ⟨s', hs'⟩ := @physioLoop_runs dev read hread m supply 0
    { s with uio := s.uio.clamp dev } (by omega) hr (by
      intro _
      change -512 < (s.uio.clamp dev).offset ∧ (s.uio.clamp dev).offset + _ < _ ∧ _
      rw [hoff]
      refine ⟨hlow, ?_, ?_⟩ <;> omega)
  refine ⟨s', ?_, hs'⟩
  unfold fdrdwr
  rw [if_neg hend]
  unfold fdphysio
  rw [if_neg]
  · exact hs'
  · rw [ne_eq, Decidable.not_not, tmod_block, hr]
    omega

end

/-- What a device and a user's memory without faults make of a request is accurate. -/
def AccurateAlone (dev : ℕ) (read : Bool) (off res : ℤ) : Prop :=
  ∀ (user : ℕ → Byte) (disk : ℤ → Byte) (s' : RawState),
    fdrdwr ⟨fun _ => false, fun _ => false⟩ dev read (nblocks dev + 2)
      ⟨⟨off, res, 0, user⟩, disk⟩ = some (.ok s') →
    Accurate dev read ⟨⟨off, res, 0, user⟩, disk⟩ s'

section
variable {dev : ℕ} {read : Bool} {off res : ℤ}

/-- A request that begins inside a block moves the bytes of the whole block. -/
theorem Misplaced.inaccurate (hmis : Misplaced dev off res)
    (hread : ¬(read = true ∧ dfmt dev = true)) (hou : off < 0x80000000)
    (hrl : -0x80000000 ≤ res) (hru : res < 0x80000000) : ¬AccurateAlone dev read off res := by
  intro hdone
  have hsmall := rawSize_small dev
  have hblocks := rawSize_eq dev
  obtain ⟨hne, hwhole, hpos, hlow, hhigh⟩ := hmis
  change off % 512 ≠ 0 at hne
  change res % 512 = 0 at hwhole
  change -512 < off at hlow
  have hclamp : ∀ user, (⟨off, res, 0, user⟩ : RawUio).clamp dev = ⟨off, res, 0, user⟩ := by
    intro user
    unfold RawUio.clamp
    rw [int32_of_range (by simp only; omega) (by simp only; omega)]
    exact if_neg (by simp only; omega)
  have hruns : ∀ (user : ℕ → Byte) (disk : ℤ → Byte), ∃ s',
      physioLoop ⟨fun _ => false, fun _ => false⟩ dev read (nblocks dev + 2) 0
        ⟨⟨off, res, 0, user⟩, disk⟩ = some (.ok s') ∧
      Accurate dev read ⟨⟨off, res, 0, user⟩, disk⟩ s' ∧
      0 < movedBytes ⟨⟨off, res, 0, user⟩, disk⟩ s' := by
    intro user disk
    obtain ⟨s', hs', hloop⟩ := @fdrdwr_runs dev read (nblocks dev + 2)
      ⟨⟨off, res, 0, user⟩, disk⟩ hread (by simp only; omega)
      (res / 512).toNat (by omega) (by rw [hclamp]; simp only; omega) hlow
      (by simp only; omega) (by omega)
    rw [hclamp] at hloop
    refine ⟨s', hloop, hdone user disk s' hs', ?_⟩
    obtain ⟨m, ht, hr, -⟩ := physioLoop_turns hloop hrl hru
    have hbase : s'.uio.base = 0 + 512 * m := ht.base
    change res = 512 * m at hr
    change 0 < s'.uio.base - 0
    omega
  cases read with
  | true =>
    obtain ⟨s', hloop, hacc, hmoved⟩ := hruns (fun _ => 0) (markedDisk off)
    have hmark := read_mark hloop (by omega)
    have hbyte := (hacc.read_bytes rfl).2.1 0 hmoved
    rw [show (_ : ℕ) + 0 = 0 from rfl, hmark] at hbyte
    change 1 = markedDisk off (off + 0) at hbyte
    rw [Int.add_zero, markedDisk, if_neg (offset_ne_block hne)] at hbyte
    exact absurd hbyte (by decide)
  | false =>
    obtain ⟨s', hloop, hacc, hmoved⟩ := hruns markedUser (fun _ => 0)
    have hbyte := (hacc.write_bytes rfl).2.1 0 hmoved
    change s'.disk (off + 0) = 1 at hbyte
    rw [Int.add_zero] at hbyte
    exact offset_ne_block hne (write_mark hloop hbyte)

/-- One that is cut off at the end of the device counts what it does not move. -/
theorem CutOff.inaccurate (hcut : CutOff dev off res)
    (hread : ¬(read = true ∧ dfmt dev = true)) (hou : off < 0x80000000)
    (hrl : -0x80000000 ≤ res) (hru : res < 0x80000000) : ¬AccurateAlone dev read off res := by
  intro hdone
  have hsmall := rawSize_small dev
  have hblocks := rawSize_eq dev
  obtain ⟨hwhole, h0, hlt, hover, hsum⟩ := hcut
  change off % 512 = 0 at hwhole
  have hclamp : (⟨off, res, 0, fun _ => 0⟩ : RawUio).clamp dev =
      ⟨off, rawSize dev - off, 0, fun _ => 0⟩ := by
    unfold RawUio.clamp
    rw [if_pos (by simp only; rw [int32_of_range (by omega) (by omega)]; omega),
      int32_of_range (by simp only; omega) (by simp only; omega)]
  obtain ⟨s', hs', hloop⟩ := @fdrdwr_runs dev read (nblocks dev + 2)
    ⟨⟨off, res, 0, fun _ => 0⟩, fun _ => 0⟩ hread (by simp only; omega)
    ((rawSize dev - off) / 512).toNat (by omega) (by rw [hclamp]; simp only; omega)
    (by simp only; omega) (by simp only; omega) (by omega)
  rw [hclamp] at hloop
  obtain ⟨m, ht, hr, hzero⟩ := physioLoop_turns hloop (by simp only; omega)
    (by simp only; omega)
  have hbase : s'.uio.base = 0 + 512 * m := ht.base
  change rawSize dev - off = 512 * m at hr
  have hcount := (hdone _ _ s' hs').count
  change res - s'.uio.resid = (s'.uio.base - 0 : ℕ) at hcount
  omega

end

/-- Reads and writes are accurate, whatever the device and the user's memory do,
exactly for requests that do not begin inside a block and are not cut off; a
device for formatting cannot be read at all. -/
theorem fdrdwr_accurate_iff (dev : ℕ) (read : Bool) (offset resid : BitVec 32) :
    (∀ (o : RawOutcome) (base : ℕ) (user : ℕ → Byte) (disk : ℤ → Byte) (supply : ℕ),
      nblocks dev + 1 < supply →
      ∃ r, fdrdwr o dev read supply ⟨⟨offset.toInt, resid.toInt, base, user⟩, disk⟩ = some r ∧
        ∀ s', r = .ok s' →
          Accurate dev read ⟨⟨offset.toInt, resid.toInt, base, user⟩, disk⟩ s') ↔
    (read = true ∧ dfmt dev = true) ∨
      ¬Misplaced dev offset.toInt resid.toInt ∧ ¬CutOff dev offset.toInt resid.toInt := by
  have hol : -0x80000000 ≤ offset.toInt := BitVec.le_toInt offset
  have hou : offset.toInt < 0x80000000 := BitVec.toInt_lt
  have hrl : -0x80000000 ≤ resid.toInt := BitVec.le_toInt resid
  have hru : resid.toInt < 0x80000000 := BitVec.toInt_lt
  generalize offset.toInt = off at hol hou
  generalize resid.toInt = res at hrl hru
  constructor
  · intro h
    by_cases hread : read = true ∧ dfmt dev = true
    · exact Or.inl hread
    -- a request that the loop completes is accurate
    have hdone : AccurateAlone dev read off res := by
      intro user disk s' hs'
      obtain ⟨r, hr, hacc⟩ := h ⟨fun _ => false, fun _ => false⟩ 0 user disk
        (nblocks dev + 2) (by omega)
      exact hacc s' (Option.some.inj (hr.symm.trans hs'))
    refine Or.inr ⟨fun hmis => ?_, fun hcut => ?_⟩
    · exact hmis.inaccurate hread hou hrl hru hdone
    · exact hcut.inaccurate hread hou hrl hru hdone
  · intro hc o base user disk supply hs
    obtain ⟨r, hr⟩ := fdrdwr_returns hs
    refine ⟨r, hr, ?_⟩
    rintro s' rfl
    exact fdrdwr_accurate hol hou hrl hru hc hr

/-- A floppy with a mark in its first byte. -/
def marked : ℤ → Byte := fun x => if x = 0 then 1 else 0

/-- A read of a block from byte 256 on begins with byte 0 of the floppy, and a read
of two blocks from the last block on reports two blocks and moves one. -/
theorem fdread_inaccurate :
    (fdread ⟨fun _ => false, fun _ => false⟩ 4 1442 ⟨⟨256, 512, 0, fun _ => 0⟩, marked⟩).map
      (fun r => r.toOption.map fun s => (s.uio.resid, s.uio.base, s.uio.user 0)) =
      some (some (0, 512, 1)) ∧
    (fdread ⟨fun _ => false, fun _ => false⟩ 4 1442 ⟨⟨736768, 1024, 0, fun _ => 0⟩, marked⟩).map
      (fun r => r.toOption.map fun s => (s.uio.resid, s.uio.base)) = some (some (0, 512)) ∧
    ¬∀ (offset resid : BitVec 32) (o : RawOutcome) (base : ℕ) (user : ℕ → Byte)
      (disk : ℤ → Byte) (supply : ℕ), nblocks 4 + 1 < supply →
      ∃ r, fdread o 4 supply ⟨⟨offset.toInt, resid.toInt, base, user⟩, disk⟩ = some r ∧
        ∀ s', r = .ok s' →
          Accurate 4 true ⟨⟨offset.toInt, resid.toInt, base, user⟩, disk⟩ s' := by
  have hcut : (fdread ⟨fun _ => false, fun _ => false⟩ 4 1442
      ⟨⟨736768, 1024, 0, fun _ => 0⟩, marked⟩).map
      (fun r => r.toOption.map fun s => (s.uio.resid, s.uio.base)) = some (some (0, 512)) := by
    decide +kernel
  refine ⟨by decide +kernel, hcut, ?_⟩
  intro h
  obtain ⟨r, hr, hacc⟩ := h 736768 1024 ⟨fun _ => false, fun _ => false⟩ 0 (fun _ => 0) marked
    1442 (by decide)
  change fdread _ 4 1442 ⟨⟨736768, 1024, 0, fun _ => 0⟩, marked⟩ = some r at hr
  rw [hr] at hcut
  cases r with
  | error e => exact absurd hcut (by simp [Except.toOption])
  | ok s' =>
    obtain ⟨hresid, hbase⟩ := Prod.mk.inj (Option.some.inj (Option.some.inj hcut))
    have hcount := (hacc s' rfl).count
    change (1024 : ℤ) - s'.uio.resid = (s'.uio.base - 0 : ℕ) at hcount
    rw [hresid, hbase] at hcount
    exact absurd hcount (by decide)

end HydraAmix.Floppy
