import HydraAmix.Library.EndAround
import HydraAmix.Library.Records
import HydraAmix.Library.Word

/-!
# The boot image of an ELF executable

`elf2boot` copies the one loadable segment of an executable to offset 12 of a
cleared image, stores the three magic numbers and completes the end-around-carry
sum of all longwords with the longword at offset 4. Sizes are counted in 32 bits.
-/
namespace HydraAmix.Boot.Elf2boot
open Word Records

/-- The messages that end the program. -/
inductive Usermsg where
  | ELFHDR | ELFMAGIC | MPHT | PHTSEEK | BADPHT | PHTREAD | PHTLOAD
  | MALLOC (bootsize : ℕ) | TOOBIG (bootsize : ℕ)
  | BOOTSEEK | BOOTREAD
  deriving DecidableEq, Repr

abbrev ENTRY_OFFSET : ℕ := 12
abbrev BBMAGIC0 : Long := 0x444F5300
abbrev BBMAGIC2 : Long := 0x00000370
abbrev BBMAGICN : Long := 0x03010401
abbrev PT_LOAD : Long := 1

/-- The sizes of `Elf32_Ehdr` and `Elf32_Phdr`. -/
abbrev EHDR : ℕ := 52
abbrev PHDR : ℕ := 32

/-- What is on `stdin`; a file is shorter than the largest offset of `fseek`. -/
structure Stdin where
  file : List Byte
  small : file.length < 0x80000000

/-- The process: `malloc` gives at most `limit` bytes, of a half of the address space. -/
structure Process where
  limit : ℕ
  small : limit < 0x80000000

def longAt (b : ℕ → Byte) (a : ℕ) : Long := long (b a) (b (a + 1)) (b (a + 2)) (b (a + 3))

def putLong (b : ℕ → Byte) (a : ℕ) (v : Long) : ℕ → Byte :=
  store a (fun k : Fin 4 => byte v (3 - k)) b

section
variable (s : Stdin)

def Stdin.byteAt (a : ℕ) : Byte := s.file.getD a 0

/-- The fields of the ELF header and of the program header that are used. -/
def Stdin.e_phoff : Long := longAt s.byteAt 28
def Stdin.e_phentsize : BitVec 16 := short (s.byteAt 42) (s.byteAt 43)
def Stdin.p_type : Long := longAt s.byteAt s.e_phoff.toNat
def Stdin.p_offset : Long := longAt s.byteAt (s.e_phoff.toNat + 4)
def Stdin.p_filesz : Long := longAt s.byteAt (s.e_phoff.toNat + 16)
def Stdin.p_memsz : Long := longAt s.byteAt (s.e_phoff.toNat + 20)

/-- `fread (buf, n, 1, stdin)` at a position; `none` when it does not return 1. -/
def Stdin.fread (pos n : ℕ) : Option (List Byte) :=
  if n ≠ 0 ∧ pos + n ≤ s.file.length then some ((s.file.drop pos).take n) else none

end

/-- `fseek` to an offset that is negative as a `long` fails. -/
def fseekFails (offset : Long) : Prop := 0x80000000 ≤ offset.toNat

instance (offset : Long) : Decidable (fseekFails offset) := inferInstanceAs (Decidable (_ ≤ _))

/-- `if (c) usermsg (m);` for a fatal message. -/
def fatalIf (c : Prop) [Decidable c] (m : Usermsg) : Except Usermsg Unit :=
  if c then .error m else .ok ()

/-- `bootsize` from the option on, which is 0 if there was none. An `int` and its
bits have the remainder 0 for the same values. A size that is not a multiple is
replaced by a number of blocks. -/
def setBootsize (bootsize BootLength : Long) : Long :=
  let blocks := (12 + BootLength + 4 + 1023) / 1024
  if bootsize = 0 then blocks * 1024
  else if bootsize % 1024 ≠ 0 then blocks
  else bootsize

/-- The cleared blocks with the segment in them. -/
def readBootSegment (seg : List Byte) : ℕ → Byte :=
  fun a => if ENTRY_OFFSET ≤ a then (seg[a - ENTRY_OFFSET]?).getD 0 else 0

/-- The three magic numbers. -/
def putMagic (bootsize : ℕ) (b : ℕ → Byte) : ℕ → Byte :=
  putLong (putLong (putLong b 0 BBMAGIC0) 8 BBMAGIC2) (4 * (bootsize / 4 - 1)) BBMAGICN

/-- The longwords of `n` bytes, in order. -/
def longs (n : ℕ) (b : ℕ → Byte) : List Long :=
  (List.range ((n + 3) / 4)).map (fun i => longAt b (4 * i))

def checksum (n : ℕ) (b : ℕ → Byte) : Long := EndAround.sum 0 (longs n b)

def writeBoot (bootsize : ℕ) (b : ℕ → Byte) : List Byte :=
  let b := putMagic bootsize b
  let b := putLong b 4 (~~~checksum bootsize b)
  (List.range bootsize).map b

/-- The program, with what it writes. -/
def elf2boot (p : Process) (s : Stdin) (bootsize : Long) : Except Usermsg (List Byte) := do
  fatalIf (s.fread 0 EHDR = none) .ELFHDR
  fatalIf (longAt s.byteAt 0 ≠ 0x7F454C46) .ELFMAGIC
  fatalIf (s.e_phoff = 0) .MPHT
  fatalIf (fseekFails s.e_phoff) .PHTSEEK
  fatalIf (s.e_phentsize.toNat ≠ PHDR) .BADPHT
  fatalIf (s.fread s.e_phoff.toNat PHDR = none) .PHTREAD
  fatalIf (s.p_type ≠ PT_LOAD) .PHTLOAD
  let BootLength := s.p_memsz
  let bootsize := setBootsize bootsize BootLength
  fatalIf (p.limit < bootsize.toNat) (.MALLOC bootsize.toNat)
  fatalIf (12 + BootLength + 4 > bootsize) (.TOOBIG bootsize.toNat)
  fatalIf (fseekFails s.p_offset) .BOOTSEEK
  match s.fread s.p_offset.toNat BootLength.toNat with
  | none => .error .BOOTREAD
  | some seg => return writeBoot bootsize.toNat (readBootSegment seg)

/-- What the image has to be for a segment: the size in whole blocks, the magic
number, the segment, zeros up to the last magic number, and the sum of its
longwords. -/
structure Image (seg img : List Byte) : Prop where
  blocks : img.length % 1024 = 0
  magic : img.take 4 = [0x44, 0x4F, 0x53, 0x00]
  segment : (img.drop ENTRY_OFFSET).take seg.length = seg
  zero : ∀ a, ENTRY_OFFSET + seg.length ≤ a → a + 4 < img.length → img[a]? = some 0
  last : img.drop (img.length - 4) = [0x03, 0x01, 0x04, 0x01]
  sum : EndAround.sum 0 (longs img.length (fun a => img.getD a 0)) = 0xFFFFFFFF

/-! ### Longwords in memory -/

section
variable (b : ℕ → Byte) (a : ℕ) (v : Long)

theorem putLong_inside {k : ℕ} (hk : k < 4) : putLong b a v (a + k) = byte v (3 - k) :=
  store_inside a (fun k : Fin 4 => byte v (3 - k)) b ⟨k, hk⟩

theorem putLong_outside {x : ℕ} (h : x < a ∨ a + 4 ≤ x) : putLong b a v x = b x :=
  store_outside _ b h

theorem longAt_putLong : longAt (putLong b a v) a = v := by
  have h0 : putLong b a v a = byte v 3 := putLong_inside b a v (by decide : 0 < 4)
  rw [longAt, h0, putLong_inside b a v (by decide), putLong_inside b a v (by decide),
    putLong_inside b a v (by decide)]
  exact long_byte v

theorem longAt_putLong_other {x : ℕ} (h : x + 4 ≤ a ∨ a + 4 ≤ x) :
    longAt (putLong b a v) x = longAt b x := by
  rw [longAt, putLong_outside b a v (by omega), putLong_outside b a v (by omega),
    putLong_outside b a v (by omega), putLong_outside b a v (by omega)]
  rfl

end

theorem longAt_congr {b b' : ℕ → Byte} {a : ℕ} (h : ∀ k < 4, b (a + k) = b' (a + k)) :
    longAt b a = longAt b' a := by
  rw [longAt, longAt, h 1 (by decide), h 2 (by decide), h 3 (by decide)]
  exact congrArg (fun x => long x _ _ _) (h 0 (by decide))

/-! ### The image -/

/-- The longwords from the third on, apart from the first two. -/
theorem longs_split (b : ℕ → Byte) (k : ℕ) :
    longs (4 * (k + 2)) b =
      [longAt b 0] ++ longAt b 4 :: (List.range k).map (fun i => longAt b (4 * (i + 2))) := by
  have hk : (4 * (k + 2) + 3) / 4 = k + 1 + 1 := by omega
  rw [longs, hk, List.range_succ_eq_map, List.range_succ_eq_map]
  simp only [List.map_cons, List.map_map, Function.comp_def, Nat.succ_eq_add_one]
  rfl

/-- With the longword at offset 4 left 0, its complement completes the sum. -/
theorem sum_writeBoot {b : ℕ → Byte} {k : ℕ} (h4 : longAt b 4 = 0) :
    EndAround.sum 0 (longs (4 * (k + 2)) (putLong b 4 (~~~checksum (4 * (k + 2)) b))) =
      0xFFFFFFFF := by
  generalize hc : checksum (4 * (k + 2)) b = c
  rw [checksum, longs_split, h4] at hc
  have hrest : (List.range k).map (fun i => longAt (putLong b 4 (~~~c)) (4 * (i + 2))) =
      (List.range k).map (fun i => longAt b (4 * (i + 2))) := by
    apply List.map_congr_left
    intro i _
    exact longAt_putLong_other b 4 _ (Or.inr (by omega))
  rw [longs_split, longAt_putLong, longAt_putLong_other b 4 _ (Or.inl (by decide)), hrest, ← hc]
  exact EndAround.sum_complement _ _

section
variable {seg : List Byte} {n : ℕ}

theorem readBootSegment_below {a : ℕ} (h : a < 12) : readBootSegment seg a = 0 :=
  if_neg (Nat.not_le_of_lt h)

theorem readBootSegment_above {a : ℕ} (h : 12 ≤ a) :
    readBootSegment seg a = (seg[a - 12]?).getD 0 :=
  if_pos h

/-- The bytes of the image by their offsets. -/
theorem putMagic_apply (hn : n % 1024 = 0) (hfit : 12 + seg.length + 4 ≤ n) (a : ℕ) :
    putMagic n (readBootSegment seg) a =
      if a < 4 then byte BBMAGIC0 (3 - a)
      else if 8 ≤ a ∧ a < 12 then byte BBMAGIC2 (3 - (a - 8))
      else if n - 4 ≤ a ∧ a < n then byte BBMAGICN (3 - (a - (n - 4)))
      else readBootSegment seg a := by
  have hlast : 4 * (n / 4 - 1) = n - 4 := by omega
  unfold putMagic
  rw [hlast]
  by_cases h₃ : n - 4 ≤ a ∧ a < n
  · obtain ⟨k, rfl⟩ := Nat.exists_eq_add_of_le h₃.1
    rw [putLong_inside _ _ _ (by omega), if_neg (by omega), if_neg (by omega), if_pos h₃,
      Nat.add_sub_cancel_left]
  · rw [putLong_outside _ _ _ (by omega)]
    by_cases h₂ : 8 ≤ a ∧ a < 12
    · obtain ⟨k, rfl⟩ := Nat.exists_eq_add_of_le h₂.1
      rw [putLong_inside _ _ _ (by omega), if_neg (by omega), if_pos h₂, Nat.add_sub_cancel_left]
    · rw [putLong_outside _ _ _ (by omega), if_neg h₂, if_neg h₃]
      by_cases h₁ : a < 4
      · have := putLong_inside (readBootSegment seg) 0 BBMAGIC0 h₁
        rw [Nat.zero_add] at this
        rw [if_pos h₁, this]
      · rw [putLong_outside _ _ _ (by omega), if_neg h₁]

theorem image_writeBoot (hn : n % 1024 = 0) (hfit : 12 + seg.length + 4 ≤ n) :
    Image seg (writeBoot n (readBootSegment seg)) := by
  have hbyte := putMagic_apply hn hfit
  generalize hb : putMagic n (readBootSegment seg) = b at hbyte
  generalize hc : ~~~checksum n b = c
  have himg : writeBoot n (readBootSegment seg) = (List.range n).map (putLong b 4 c) := by
    simp only [writeBoot, hb, hc]
  have hlen : ((List.range n).map (putLong b 4 c)).length = n := by
    rw [List.length_map, List.length_range]
  have hget : ∀ a < n, ((List.range n).map (putLong b 4 c))[a]? = some (putLong b 4 c a) := by
    intro a ha
    rw [List.getElem?_map, List.getElem?_range ha]
    rfl
  rw [himg]
  refine ⟨?_, ?_, ?_, ?_, ?_, ?_⟩
  · rw [hlen]
    exact hn
  · rw [← List.map_take, List.take_range, Nat.min_eq_left (by omega)]
    have h : ∀ k < 4, putLong b 4 c k = byte BBMAGIC0 (3 - k) := by
      intro k hk
      rw [putLong_outside _ _ _ (Or.inl hk), hbyte, if_pos hk]
    change [_, _, _, _] = _
    rw [h 0 (by decide), h 1 (by decide), h 2 (by decide), h 3 (by decide)]
    decide
  · apply List.ext_getElem?
    intro i
    by_cases hi : i < seg.length
    · rw [List.getElem?_take_of_lt hi, List.getElem?_drop]
      change ((List.range n).map (putLong b 4 c))[12 + i]? = _
      rw [hget _ (by omega), putLong_outside _ _ _ (Or.inr (by omega)), hbyte, if_neg (by omega),
        if_neg (by omega), if_neg (by omega), readBootSegment_above (Nat.le_add_right _ _),
        Nat.add_sub_cancel_left, List.getElem?_eq_getElem hi]
      rfl
    · rw [List.getElem?_eq_none (by rw [List.length_take]; omega),
        List.getElem?_eq_none (by omega)]
  · intro a h₁ h₂
    rw [hlen] at h₂
    change 12 + seg.length ≤ a at h₁
    rw [hget a (by omega), putLong_outside _ _ _ (Or.inr (by omega)), hbyte, if_neg (by omega),
      if_neg (by omega), if_neg (by omega), readBootSegment_above (by omega),
      List.getElem?_eq_none (by omega)]
    rfl
  · rw [hlen]
    apply List.ext_getElem?
    intro i
    rw [List.getElem?_drop]
    by_cases hi : i < 4
    · rw [hget _ (by omega), putLong_outside _ _ _ (Or.inr (by omega)), hbyte, if_neg (by omega),
        if_neg (by omega), if_pos ⟨by omega, by omega⟩, Nat.add_sub_cancel_left]
      have h : ∀ i < 4, some (byte BBMAGICN (3 - i)) =
        ([0x03, 0x01, 0x04, 0x01] : List Byte)[i]? := by decide
      exact h i hi
    · rw [List.getElem?_eq_none (by rw [hlen]; omega),
        List.getElem?_eq_none (Nat.le_of_not_lt hi)]
  · rw [hlen]
    have hk : n = 4 * (n / 4 - 2 + 2) := by omega
    have hzero : longAt b 4 = 0 := by
      have h : ∀ k < 4, b (4 + k) = 0 := by
        intro k hk
        rw [hbyte, if_neg (by omega), if_neg (by omega), if_neg (by omega),
          readBootSegment_below (by omega)]
      rw [longAt, h 1 (by decide), h 2 (by decide), h 3 (by decide)]
      exact congrArg (fun x => long x 0 0 0) (h 0 (by decide))
    have hlongs : longs n (fun a => ((List.range n).map (putLong b 4 c)).getD a 0) =
        longs n (putLong b 4 c) := by
      apply List.map_congr_left
      intro i hi
      have hi' := List.mem_range.mp hi
      apply longAt_congr
      intro k hk
      rw [List.getD_eq_getElem?_getD, hget _ (by omega)]
      rfl
    rw [hlongs, ← hc, hk]
    exact sum_writeBoot hzero

end

/-! ### The program -/

theorem of_fatalIf {c : Prop} [Decidable c] {m : Usermsg} {α : Type}
    {f : Unit → Except Usermsg α} {r : α} (h : (fatalIf c m >>= f) = .ok r) :
    ¬c ∧ f () = .ok r := by
  unfold fatalIf at h
  split at h
  · cases h
  · exact ⟨‹_›, h⟩

/-- A size that has room for the segment is a whole number of blocks. -/
theorem setBootsize_blocks {bootsize BootLength : Long} (hlen : BootLength.toNat < 0x80000000)
    (hfit : ¬12 + BootLength + 4 > setBootsize bootsize BootLength) :
    12 + BootLength.toNat + 4 ≤ (setBootsize bootsize BootLength).toNat ∧
      (setBootsize bootsize BootLength).toNat % 1024 = 0 := by
  have hneed : (12 + BootLength + 4).toNat = 12 + BootLength.toNat + 4 := by
    have h12 : (12 : Long).toNat = 12 := rfl
    have h4 : (4 : Long).toNat = 4 := rfl
    rw [BitVec.toNat_add, BitVec.toNat_add, h12, h4]
    omega
  have hblocks : ((12 + BootLength + 4 + 1023) / 1024 : Long).toNat =
      (12 + BootLength.toNat + 4 + 1023) / 1024 := by
    have h1023 : (1023 : Long).toNat = 1023 := rfl
    have h1024 : (1024 : Long).toNat = 1024 := rfl
    rw [BitVec.toNat_udiv, BitVec.toNat_add, hneed, h1023, h1024]
    omega
  rw [gt_iff_lt, BitVec.lt_def, hneed, Nat.not_lt] at hfit
  refine ⟨hfit, ?_⟩
  unfold setBootsize at hfit ⊢
  simp only at hfit ⊢
  split
  · have h1024 : (1024 : Long).toNat = 1024 := rfl
    rw [BitVec.toNat_mul, hblocks, h1024]
    omega
  · next h0 =>
    rw [if_neg h0] at hfit
    split
    · next hmod =>
      -- a number of blocks is no size that has room
      rw [if_pos hmod, hblocks] at hfit
      omega
    · next hmod =>
      have := congrArg BitVec.toNat (not_not.mp hmod)
      rwa [BitVec.toNat_umod] at this

theorem of_fread {s : Stdin} {pos n : ℕ} {seg : List Byte} (h : s.fread pos n = some seg) :
    seg = (s.file.drop pos).take n ∧ seg.length = n ∧ pos + n ≤ s.file.length := by
  unfold Stdin.fread at h
  split at h
  · next hn =>
    obtain rfl := Option.some.inj h
    refine ⟨rfl, ?_, hn.2⟩
    rw [List.length_take, List.length_drop]
    omega
  · cases h

/-- Whatever the size asked for, the image that the program writes of a segment
whose size in the file is its size in memory has the segment, the magic numbers
and the sum. -/
theorem elf2boot_image (p : Process) (s : Stdin) (bootsize : Long) (img : List Byte)
    (hsize : s.p_filesz = s.p_memsz) (h : elf2boot p s bootsize = .ok img) :
    img.length = (setBootsize bootsize s.p_memsz).toNat ∧
      Image ((s.file.drop s.p_offset.toNat).take s.p_filesz.toNat) img := by
  obtain ⟨-, h⟩ := of_fatalIf h
  obtain ⟨-, h⟩ := of_fatalIf h
  obtain ⟨-, h⟩ := of_fatalIf h
  obtain ⟨-, h⟩ := of_fatalIf h
  obtain ⟨-, h⟩ := of_fatalIf h
  obtain ⟨-, h⟩ := of_fatalIf h
  obtain ⟨-, h⟩ := of_fatalIf h
  obtain ⟨-, h⟩ := of_fatalIf h
  obtain ⟨hfit, h⟩ := of_fatalIf h
  obtain ⟨-, h⟩ := of_fatalIf h
  cases hread : s.fread s.p_offset.toNat s.p_memsz.toNat with
  | none =>
    rw [hread] at h
    cases h
  | some seg =>
    rw [hread] at h
    obtain rfl := Except.ok.inj h
    obtain ⟨hseg, hlen, hin⟩ := of_fread hread
    have hsmall := s.small
    obtain ⟨hroom, hmod⟩ := setBootsize_blocks (by omega) hfit
    rw [hsize, ← hseg]
    refine ⟨?_, image_writeBoot hmod (by omega)⟩
    rw [writeBoot, List.length_map, List.length_range]

/-- A size of 0 or of whole blocks with room for the segment is accepted. -/
theorem elf2boot_accepts {p : Process} {s : Stdin} {bootsize : Long}
    (hehdr : EHDR ≤ s.file.length) (hmagic : longAt s.byteAt 0 = 0x7F454C46)
    (hphoff : s.e_phoff ≠ 0) (hent : s.e_phentsize.toNat = PHDR)
    (hphdr : s.e_phoff.toNat + PHDR ≤ s.file.length) (htype : s.p_type = PT_LOAD)
    (hpos : s.p_memsz ≠ 0) (hseg : s.p_offset.toNat + s.p_memsz.toNat ≤ s.file.length)
    (hlimit : (setBootsize bootsize s.p_memsz).toNat ≤ p.limit)
    (hfit : 12 + s.p_memsz + 4 ≤ setBootsize bootsize s.p_memsz) :
    ∃ img, elf2boot p s bootsize = .ok img := by
  have hsmall := s.small
  have hfread : ∀ {pos n : ℕ}, n ≠ 0 → pos + n ≤ s.file.length → s.fread pos n ≠ none := by
    intro pos n hn hin h
    rw [Stdin.fread, if_pos ⟨hn, hin⟩] at h
    exact Option.some_ne_none _ h
  have hok : ∀ {c : Prop} [Decidable c] {m : Usermsg}, ¬c → fatalIf c m = .ok () :=
    fun h => if_neg h
  have hseek : ∀ {x : Long}, x.toNat ≤ s.file.length → ¬fseekFails x := by
    intro x hx h
    unfold fseekFails at h
    omega
  have hread : s.fread s.p_offset.toNat s.p_memsz.toNat =
      some ((s.file.drop s.p_offset.toNat).take s.p_memsz.toNat) :=
    if_pos ⟨fun h => hpos (BitVec.eq_of_toNat_eq h), hseg⟩
  unfold elf2boot
  rw [hok (hfread (by decide) (by omega)), hok (not_not_intro hmagic), hok hphoff,
    hok (hseek (by omega)), hok (not_not_intro hent), hok (hfread (by decide) hphdr),
    hok (not_not_intro htype)]
  have hroom : ¬12 + s.p_memsz + 4 > setBootsize bootsize s.p_memsz := by
    rw [gt_iff_lt, BitVec.lt_def, Nat.not_lt]
    exact BitVec.le_def.mp hfit
  change ∃ img, (fatalIf (p.limit < (setBootsize bootsize s.p_memsz).toNat) _ >>= fun _ =>
    fatalIf (12 + s.p_memsz + 4 > setBootsize bootsize s.p_memsz) _ >>= fun _ =>
    fatalIf (fseekFails s.p_offset) _ >>= _) = _
  rw [hok (Nat.not_lt_of_le hlimit), hok hroom, hok (hseek (by omega)), hread]
  exact ⟨_, rfl⟩

/-- An executable with six bytes to load. -/
def sixBytes : Stdin where
  file := [0x7F, 0x45, 0x4C, 0x46, 1, 2, 1, 0, 0, 0, 0, 0, 0, 0, 0, 0, 0, 2, 0, 4, 0, 0, 0, 1,
    0, 0, 0, 12, 0, 0, 0, 52, 0, 0, 0, 0, 0, 0, 0, 0, 0, 52, 0, 32, 0, 1, 0, 0, 0, 0, 0, 0,
    0, 0, 0, 1, 0, 0, 0, 84, 0, 0, 0, 12, 0, 0, 0, 0, 0, 0, 0, 6, 0, 0, 0, 6, 0, 0, 0, 7,
    0, 0, 0, 4, 0x70, 0xFF, 0x60, 0xFE, 0x4E, 0x75]
  small := by decide

theorem elf2boot_sixBytes : ∃ img, elf2boot ⟨0x10000, by decide⟩ sixBytes 2048 = .ok img ∧
    img.length = 2048 ∧ Image [0x70, 0xFF, 0x60, 0xFE, 0x4E, 0x75] img := by
  obtain ⟨img, h⟩ : ∃ img, elf2boot ⟨0x10000, by decide⟩ sixBytes 2048 = .ok img := by
    apply elf2boot_accepts <;> decide
  exact ⟨img, h, elf2boot_image _ sixBytes 2048 img (by decide) h⟩

end HydraAmix.Boot.Elf2boot
