import HydraAmix.Boot.DecompressSafe
import HydraAmix.Boot.ReadStuff

/-!
# The checksum of the kernel file

`makeiblk` sums the file in blocks, each from its end, and stores the folded
sum in the info block. `boot2` adds up what `readstuff` delivers, all of a plain
kernel or what the decompressor asks for, and folds the sum the same way.
-/
namespace HydraAmix.Boot
open Word

abbrev BFSIZ : ℕ := 1024
abbrev ZMAGIC : BitVec 16 := 0x1F9D

/-- The fields of `infoblock` that are compared or used to read the kernel. -/
structure Infoblock where
  ib_size : Long
  ib_fullsize : Long
  ib_chksum : Long
  deriving DecidableEq, Repr

/-- The two folds that make a sum of bytes compatible with `sum`. -/
def fold (sum : Long) : Long :=
  let temp := (sum >>> 16) + (sum &&& 0xFFFF)
  (temp >>> 16) + (temp &&& 0xFFFF)

/-- `while (nbytes-- > 0) sum += buf[nbytes]` -/
def sumBack (buf : List Byte) : ℕ → Long → Long
  | 0, sum => sum
  | nbytes + 1, sum => sumBack buf nbytes (sum + (buf.getD nbytes 0).setWidth 32)

/-- The reading loop of `chksum`. -/
def chksumLoop (file : List Byte) (sum : Long) : Long :=
  if file = [] then sum
  else
    let buf := file.take BFSIZ
    chksumLoop (file.drop BFSIZ) (sumBack buf buf.length sum)
termination_by file.length
decreasing_by
  rename_i h
  rw [List.length_drop]
  exact Nat.sub_lt (List.length_pos_of_ne_nil h) (by decide)

def chksum (file : List Byte) : Long := fold (chksumLoop file 0)

/-- What the first `read` leaves in `zmagic`, which held `junk`. -/
def zmagic (junk : BitVec 16) : List Byte → BitVec 16
  | b₁ :: b₀ :: _ => b₁ ++ b₀
  | [b₁] => b₁ ++ junk.setWidth 8
  | [] => junk

/-- The input of `decompress (readblock, countbytes, ~0L)`. -/
def fileInput (file : List Byte) : Input (List Byte) := ⟨[], 4294967295, file⟩

/-- `main` of `makeiblk`: the info block of a file. -/
def makeiblk (cramped : Bool) (fuel : ℕ) (mem : Tables) (junk : BitVec 16) (file : List Byte) :
    Except Stop Infoblock := do
  let fullsize ←
    if zmagic junk file = ZMAGIC then do
      let (out, _) ← decompress cramped readblock fuel mem (fileInput file)
      pure (BitVec.ofNat 32 out.length)
    else pure 0
  return ⟨BitVec.ofNat 32 file.length, fullsize, chksum file⟩

/-- `main` of `boot2`, from `filebase` on to the end of the file: the sum it
compares with `ib_chksum`, and the boot device. -/
def loadKernel (cramped : Bool) (fuel : ℕ) (mem : Tables) (info : Infoblock) (s : Loader) :
    Except Stop (Long × Loader) := do
  let s ←
    if info.ib_fullsize > 0 then do
      let (_, i) ← decompress cramped Loader.readstuff fuel mem ⟨[], info.ib_size.toNat, s⟩
      pure i.src
    else match s.readstuff info.ib_size.toNat with
      | none => .error .gblk
      | some (_, s) => pure s
  return (fold s.sum, s)

/-! ### Sums -/

theorem sumBack_eq (buf : List Byte) {n : ℕ} (hn : n ≤ buf.length) (sum : Long) :
    sumBack buf n sum = sum + sumbytes (buf.take n) := by
  induction n generalizing sum with
  | zero => exact (BitVec.add_zero sum).symm
  | succ n ih =>
      have hlt : n < buf.length := hn
      have hone : sumbytes [buf[n]] = buf[n].setWidth 32 := BitVec.zero_add _
      rw [sumBack, ih (Nat.le_of_lt hlt), List.getD_eq_getElem _ _ hlt,
        List.take_succ_eq_append_getElem hlt,
        sumbytes_append, hone, BitVec.add_assoc]
      congr 1
      exact BitVec.add_comm _ _

/-- The order of the blocks and within them does not matter. -/
theorem chksumLoop_eq (file : List Byte) (sum : Long) :
    chksumLoop file sum = sum + sumbytes file := by
  induction file, sum using chksumLoop.induct with
  | case1 sum =>
      rw [chksumLoop, if_pos rfl]
      exact (BitVec.add_zero sum).symm
  | case2 file sum hne buf ih =>
      rw [chksumLoop, if_neg hne, ih, sumBack_eq _ (Nat.le_refl _), List.take_length,
        BitVec.add_assoc, ← sumbytes_append, List.take_append_drop]

theorem chksum_eq (file : List Byte) : chksum file = fold (sumbytes file) := by
  rw [chksum, chksumLoop_eq]
  congr 1
  exact BitVec.zero_add _

/-! ### Reading through the decompressor -/

/-- The device can deliver `limit` bytes more; with them the sum will be `total`
and the bytes `after` are left. -/
def Delivers (total : Long) (after : List Byte) (s : Loader) (limit : ℕ) : Prop :=
  limit ≤ s.stream.length ∧ s.sum + sumbytes (s.stream.take limit) = total ∧
    s.stream.drop limit = after

theorem readstuff_feeds (total : Long) (after : List Byte) :
    Feeds Loader.readstuff Loader.stream (Delivers total after) where
  read s limit n h hn := by
    obtain ⟨hlen, hsum, hafter⟩ := h
    obtain ⟨addr, t, hrun, ht⟩ := @Loader.readstuff_moves s n (hn.trans hlen)
    have hcan : Delivers total after t (limit - n) := by
      refine ⟨?_, ?_, ?_⟩
      · rw [ht.stream, List.length_drop]
        omega
      · rw [ht.sum, ht.delivers, ht.stream, BitVec.add_assoc, ← sumbytes_append, ← List.take_add,
          Nat.add_sub_cancel' hn]
        exact hsum
      · rw [ht.stream, List.drop_drop, Nat.add_sub_cancel' hn]
        exact hafter
    refine ⟨t, by rw [hrun, ht.delivers], ht.stream, hcan, fun hnil => ?_⟩
    rw [hnil, List.length_nil] at hlen
    obtain rfl : n = 0 := by omega
    exact hcan

section
variable {file : List Byte} {offset : Long} {disk : Volume}

/-- The file on the boot volume, as seen from the start of the load. -/
theorem stream_of_prefix (h : file <+: disk.bytes.drop offset.toNat) :
    (Loader.start offset disk []).stream.take file.length = file ∧
      file.length ≤ (Loader.start offset disk []).stream.length ∧ file.length < 2 ^ 32 := by
  obtain ⟨tail, htail⟩ := h
  have hstream : (Loader.start offset disk []).stream = file ++ tail := by
    rw [Loader.stream, htail]
    exact List.append_nil _
  have hlen := congrArg List.length htail
  have hsmall := disk.small
  rw [List.length_append, List.length_drop] at hlen
  rw [hstream, List.take_left' rfl, List.length_append]
  exact ⟨rfl, Nat.le_add_right .., by omega⟩

/-- The two inputs of the decompressor have the same bytes. -/
theorem sameBytes_of_prefix (h : file <+: disk.bytes.drop offset.toNat) :
    SameBytes id Loader.stream (fun _ _ => True)
      (Delivers (sumbytes file) ((Loader.start offset disk []).stream.drop file.length))
      (fileInput file) ⟨[], file.length, Loader.start offset disk []⟩ := by
  obtain ⟨htake, hlen, hlt⟩ := stream_of_prefix h
  refine ⟨trivial, ⟨hlen, ?_, rfl⟩, ?_⟩
  · rw [htake]
    exact BitVec.zero_add _
  · simp only [Input.pending, fileInput, List.nil_append, id]
    rw [htake]
    exact List.take_of_length_le (by omega)

/-- `decompress` on the boot device reads all of the file and no more. -/
theorem decompress_reads (h : file <+: disk.bytes.drop offset.toNat) {cramped cramped' : Bool}
    (hw : WellFormed cramped readblock (fileInput file))
    (hc : firstCode cramped readblock (fileInput file) ≠ none) (mem : Tables) :
    ∃ fuel out i, decompress cramped' Loader.readstuff fuel mem
        ⟨[], file.length, Loader.start offset disk []⟩ = .ok (out, i) ∧
      i.src.sum = sumbytes file ∧
      i.src.stream = (Loader.start offset disk []).stream.drop file.length := by
  have hsame := sameBytes_of_prefix h
  have hfeeds := readstuff_feeds (sumbytes file)
    ((Loader.start offset disk []).stream.drop file.length)
  obtain ⟨hfirst, hexp⟩ := @input_same _ _ cramped cramped' _ _ _ _ _ _ readblock_feeds hfeeds _ _ hsame
  rw [hfirst] at hc
  have hw' : WellFormed cramped' Loader.readstuff
      ⟨[], file.length, Loader.start offset disk []⟩ := fun n => hexp n ▸ hw n
  obtain ⟨fuel, out, i, hrun, -, hend⟩ := decompress_ok hfeeds hsame.ready' hw' mem
  obtain ⟨⟨hle, hsum, hafter⟩, hpend⟩ := hend hc
  -- no byte is pending, so none may still be read
  have hzero : i.inputsize = 0 := by
    have hnil := (List.append_eq_nil_iff.mp hpend).2
    rcases List.take_eq_nil_iff.mp hnil with hz | hz
    · exact hz
    · rw [hz, List.length_nil] at hle
      omega
  rw [hzero] at hsum hafter
  exact ⟨fuel, out, i, hrun, (BitVec.add_zero _).symm.trans hsum, hafter⟩

end

/-- For every kernel file on the boot volume, plain or a well-formed stream,
the info block has the sum that the boot code finds, and the boot code reads
the file and no byte more; for a plain file that is so however it is read. -/
theorem chksums_agree (cramped cramped' : Bool) (mem mem' : Tables) (junk : BitVec 16)
    (file : List Byte) (offset : Long) (disk : Volume)
    (hdisk : file <+: disk.bytes.drop offset.toNat)
    (hfile : zmagic junk file = ZMAGIC → WellFormed cramped readblock (fileInput file)) :
    ∃ fuel info, makeiblk cramped fuel mem junk file = .ok info ∧
      (∃ fuel' t, loadKernel cramped' fuel' mem' info (Loader.start offset disk []) =
          .ok (info.ib_chksum, t) ∧
        t.stream = (Loader.start offset disk []).stream.drop file.length) ∧
      ∀ calls, calls.sum = file.length → ∃ t, (Loader.start offset disk []).load calls =
        some (file, t) ∧ fold t.sum = info.ib_chksum := by
  obtain ⟨htake, hlen, hlt⟩ := stream_of_prefix hdisk
  have hsize : (BitVec.ofNat 32 file.length).toNat = file.length := by
    rw [BitVec.toNat_ofNat, Nat.mod_eq_of_lt hlt]
  -- the calls of a plain kernel
  have hplain : ∀ calls, calls.sum = file.length → ∃ t, (Loader.start offset disk []).load calls =
      some (file, t) ∧ fold t.sum = chksum file := fun calls hcalls => by
    obtain ⟨t, l, hload, hsum, -⟩ := Loader.load_moves (hcalls ▸ hlen)
    rw [hcalls, htake] at hload hsum
    refine ⟨t, hload, ?_⟩
    rw [hsum, chksum_eq]
    congr 1
    exact BitVec.zero_add _
  have hone : ∃ t, (Loader.start offset disk []).readstuff file.length = some (file, t) ∧
      fold t.sum = chksum file ∧
      t.stream = (Loader.start offset disk []).stream.drop file.length := by
    obtain ⟨addr, t, hrun, ht⟩ := Loader.readstuff_moves hlen
    have haddr := ht.delivers.trans htake
    refine ⟨t, haddr ▸ hrun, ?_, ht.stream⟩
    rw [ht.sum, haddr, chksum_eq]
    congr 1
    exact BitVec.zero_add _
  have hread : ∀ fullsize : Long, ¬ fullsize > 0 → ∃ fuel' t,
      loadKernel cramped' fuel' mem' ⟨BitVec.ofNat 32 file.length, fullsize, chksum file⟩
        (Loader.start offset disk []) = .ok (chksum file, t) ∧
      t.stream = (Loader.start offset disk []).stream.drop file.length := fun fullsize hz => by
    obtain ⟨t, hrun, hsum, hstream⟩ := hone
    refine ⟨0, t, ?_, hstream⟩
    simp only [loadKernel, if_neg hz, hsize, hrun, hsum, bind, Except.bind, pure, Except.pure]
  by_cases hz : zmagic junk file = ZMAGIC
  swap
  · refine ⟨0, ⟨BitVec.ofNat 32 file.length, 0, chksum file⟩, ?_, hread 0 (by decide), hplain⟩
    simp only [makeiblk, if_neg hz, bind, Except.bind, pure, Except.pure]
  have hw := hfile hz
  obtain ⟨fuel, out, i, hrun, hnone, -⟩ := decompress_ok readblock_feeds trivial hw mem
  refine ⟨fuel, ⟨BitVec.ofNat 32 file.length, BitVec.ofNat 32 out.length, chksum file⟩, ?_, ?_,
    hplain⟩
  · simp only [makeiblk, if_pos hz, hrun, bind, Except.bind, pure, Except.pure]
  · by_cases hfull : BitVec.ofNat 32 out.length > 0
    · have hc : firstCode cramped readblock (fileInput file) ≠ none := fun hc => by
        rw [hnone hc] at hfull
        exact absurd hfull (by decide)
      obtain ⟨fuel', out', i', hrun', hsum, hstream⟩ :=
        @decompress_reads _ _ _ hdisk cramped cramped' hw hc mem'
      refine ⟨fuel', i'.src, ?_, hstream⟩
      simp only [loadKernel, if_pos hfull, hsize, hrun', hsum, chksum_eq, bind, Except.bind, pure,
        Except.pure]
    · exact hread _ hfull

/-- A compressed file with the single code 65, on a volume that begins with it. -/
def tiny : List Byte := [0x1F, 0x9D, 0x8C, 0x41, 0x00]

def tinyDisk : Volume :=
  ⟨tiny ++ List.replicate (TD_SECTOR - 5) 0,
    by rw [List.length_append, List.length_replicate]; decide,
    by rw [List.length_append, List.length_replicate]; decide⟩

theorem tiny_wellFormed : WellFormed false readblock (fileInput tiny) := by
  intro n
  have hnil : inputExpansions false readblock n (fileInput tiny) = [] := by
    cases n <;> rfl
  rw [hnil]
  exact nofun

theorem chksums_agree_tiny : ∃ fuel info,
    makeiblk false fuel ⟨id, fun _ => 0⟩ 0 tiny = .ok info ∧
      (∃ fuel' t, loadKernel true fuel' ⟨id, fun _ => 0⟩ info (Loader.start 0 tinyDisk []) =
          .ok (info.ib_chksum, t) ∧
        t.stream = (Loader.start 0 tinyDisk []).stream.drop tiny.length) ∧
      ∀ calls, calls.sum = tiny.length → ∃ t, (Loader.start 0 tinyDisk []).load calls =
        some (tiny, t) ∧ fold t.sum = info.ib_chksum :=
  chksums_agree false true _ _ 0 tiny 0 tinyDisk ⟨_, rfl⟩ fun _ => tiny_wellFormed

end HydraAmix.Boot
