import HydraAmix.Floppy.MsdosFind

/-!
# MS-DOS tracks: reading

`get` goes from id mark to id mark through a raw read that starts anywhere on
the track and goes once around and a sector further, and takes the data after
each mark it has not seen yet. Sectors at the ends of the read may be cut off,
and some are seen twice; each is whole once.
-/
namespace HydraAmix.Floppy.Msdos
open Word BitStream

abbrev MAXITOD : ℕ := 100

/-- The loop of `makedemtab` for a byte. -/
def makedemtab (ch : Byte) : Byte :=
  (List.range 4).foldl (fun res i => if ch.getLsbD (7 - 2 * i) then res ||| 8 >>> i else res) 0

/-- The data bits of a word, by `demhtab` and `demltab`. -/
def demword (w : BitVec 16) : Byte :=
  makedemtab ((w >>> 8).setWidth 8) <<< 4 ||| makedemtab (w.setWidth 8)

section
variable (rd : ℕ → BitVec 16) (mfmlim : ℕ)

/-- `demfm`, with the new `mfmnext`. -/
def demfm (mfmnext mfmbskip dlen : ℕ) : Option (List Byte × ℕ) :=
  let bytes := (List.range dlen).map fun i => demword (skipped rd mfmbskip (mfmnext + i))
  if mfmbskip = 0 then
    if dlen > mfmlim - mfmnext then none else some (bytes, mfmnext + dlen)
  else
    if dlen ≥ mfmlim - mfmnext then none else some (bytes, mfmnext + (dlen + 1))

/-- `findidam`: the ida, and the new `mfmnext` and `mfmbskip`. Every turn moves
`mfmnext` on. -/
def findidam : ℕ → ℕ → ℕ → Option (List Byte × ℕ × ℕ)
  | 0, _, _ => none
  | fuel + 1, mfmnext, mfmbskip =>
      let found := search rd mfmlim mfmnext mfmbskip iam IAMLEN 0
      if found.1 then
        match demfm rd mfmlim found.2.1 found.2.2 10 with
        | some (ida, mfmnext) =>
            if crc ida = (0, 0) then some (ida, mfmnext, found.2.2)
            else findidam fuel mfmnext found.2.2
        | none => findidam fuel found.2.1 found.2.2
      else none

/-- `findddam`: the dda, if there is one, and the new `mfmnext` and `mfmbskip`. -/
def findddam (mfmnext mfmbskip : ℕ) : Option (List Byte) × ℕ × ℕ :=
  let found := search rd mfmlim mfmnext mfmbskip dam DAMLEN MAXITOD
  if found.1 then
    match demfm rd mfmlim found.2.1 found.2.2 518 with
    | none => (none, found.2)
    | some (dda, mfmnext) =>
        if crc dda = (0, 0) then (some dda, mfmnext, found.2.2) else (none, mfmnext, found.2.2)
  else (none, found.2)

/-- The user's buffer with the data of a dda. -/
def store (buffer : ℕ → Byte) (sec : ℕ) (dda : List Byte) (i : ℕ) : Byte :=
  if BPSEC * sec ≤ i ∧ i < BPSEC * sec + BPSEC then (dda.drop 4).getD (i - BPSEC * sec) 0
  else buffer i

/-- The loop of `get`, and the check after it. Every turn moves `mfmnext` on. -/
def getLoop (nsec track : ℕ) : ℕ → ℕ → ℕ → (ℕ → Bool) → (ℕ → Byte) → Bool × (ℕ → Byte)
  | 0, _, _, _, buffer => (false, buffer)
  | fuel + 1, mfmnext, mfmbskip, gotit, buffer =>
      match findidam rd mfmlim (mfmlim + 1) mfmnext mfmbskip with
      | none => ((List.range nsec).all gotit, buffer)
      | some (ida, mfmnext, mfmbskip) =>
          let cyl := (ida.getD 4 0).toNat
          let head := (ida.getD 5 0).toNat
          let sec := (ida.getD 6 0).toNat
          if ¬ (cyl < TRACKS / TRKPCYL ∧ head < TRKPCYL ∧ track = cyl * TRKPCYL + head ∧ 0 < sec ∧
              sec ≤ nsec) then (false, buffer)
          else if gotit (sec - 1) then getLoop nsec track fuel mfmnext mfmbskip gotit buffer
          else
            match findddam rd mfmlim mfmnext mfmbskip with
            | (none, mfmnext, mfmbskip) => getLoop nsec track fuel mfmnext mfmbskip gotit buffer
            | (some dda, mfmnext, mfmbskip) =>
                getLoop nsec track fuel mfmnext mfmbskip (Function.update gotit (sec - 1) true)
                  (store buffer (sec - 1) dda)

/-- `get` after the read, with the user's buffer. -/
def get (nsec track : ℕ) (buffer : ℕ → Byte) : Bool × (ℕ → Byte) :=
  getLoop rd mfmlim nsec track (mfmlim + 1) 0 0 (fun _ => false) buffer

end

/-! ### Decoding -/

theorem demword_mtab : ∀ ch : Byte, demword (mtab ch) = ch := by decide +kernel

/-- The last clock bit is not looked at. -/
theorem demword_clocked (w : BitVec 16) (next : Option (BitVec 16)) :
    demword (clocked w next) = demword w := by
  have hlow : ∀ ch : Byte, makedemtab (ch ||| 1) = makedemtab ch := by decide +kernel
  have hone : demword (w ||| 1) = demword w := by
    have h₁ : (w ||| 1) >>> 8 = w >>> 8 := by
      rw [BitVec.ushiftRight_or_distrib]
      exact BitVec.or_zero
    have h₂ : (w ||| 1).setWidth 8 = w.setWidth 8 ||| (1 : Byte) := BitVec.setWidth_or
    rw [demword, demword, h₁, h₂, hlow]
  rw [clocked.eq_def]
  split
  · rfl
  · split_ifs
    · exact hone
    · rfl

section
variable {d : Density} {track : ℕ} {buffer : ℕ → Byte} {sec : ℕ}

/-- The bytes of an ida and of a dda. -/
def fullIda (cyl head sec : ℕ) : List Byte :=
  ida cyl head sec ++ [(crc (ida cyl head sec)).1, (crc (ida cyl head sec)).2]

def fullDa (data : List Byte) : List Byte := da data ++ [(crc (da data)).1, (crc (da data)).2]

theorem crc_fullIda (cyl head sec : ℕ) : crc (fullIda cyl head sec) = (0, 0) := crc_append _

theorem crc_fullDa (data : List Byte) : crc (fullDa data) = (0, 0) := crc_append _

/-- A mark and what comes after its first four bytes. -/
theorem words_bytes {p : ℕ} {magic : List (BitVec 16)} {rest bytes : List Byte}
    (hmagic : ∀ k < 4, (words d track buffer)[p + k]? = magic[k]?)
    (hrest : ∀ (i : ℕ) (x : Byte), rest[i]? = some x →
      (words d track buffer)[p + 4 + i]? = some (mtab x))
    (hbytes : bytes = magic.map demword ++ rest) (hlen : magic.length = 4) (i : ℕ) (x : Byte)
    (hx : bytes[i]? = some x) :
    ∃ w, (words d track buffer)[p + i]? = some w ∧ demword w = x := by
  rw [hbytes] at hx
  rcases Nat.lt_or_ge i 4 with hlt | hge
  · rw [List.getElem?_append_left (by rw [List.length_map]; omega), List.getElem?_map,
      Option.map_eq_some_iff] at hx
    obtain ⟨w, hw, rfl⟩ := hx
    exact ⟨w, (hmagic i hlt).trans hw, rfl⟩
  · obtain ⟨j, rfl⟩ : ∃ j, i = 4 + j := ⟨i - 4, by omega⟩
    rw [getElem?_rest (by rw [List.length_map, hlen])] at hx
    refine ⟨mtab x, ?_, demword_mtab x⟩
    rw [← Nat.add_assoc]
    exact hrest j x hx

theorem words_ida (hsec : sec < d.nsec) (i : ℕ) (x : Byte)
    (hx : (fullIda (track / TRKPCYL) (track % TRKPCYL) (sec + 1))[i]? = some x) :
    ∃ w, (words d track buffer)[d.idPos sec + i]? = some w ∧ demword w = x := by
  have hrest : ∀ (i : ℕ) (x : Byte),
      (tail (ida (track / TRKPCYL) (track % TRKPCYL) (sec + 1)))[i]? = some x →
        (words d track buffer)[d.idPos sec + 4 + i]? = some (mtab x) := fun i x hx => by
    have hlt := (List.getElem?_eq_some_iff.mp hx).1
    have hb : (betweenMarks (track / TRKPCYL) (track % TRKPCYL) (sec + 1))[i]? = some x := by
      rw [betweenMarks, List.getElem?_append_left hlt, hx]
    rw [tail_length, ida] at hlt
    simp only [List.length_cons, List.length_nil] at hlt
    rw [words_between hsec (by omega), List.get_eq_getElem, (List.getElem?_eq_some_iff.mp hb).2]
  refine words_bytes (fun _ hk => words_id hsec hk) hrest ?_ idamagic_length i x hx
  have hmagic : idamagic.map demword = [0xA1, 0xA1, 0xA1, 0xFE] := by decide
  have hdrop : ∀ cyl head sec, [0xA1, 0xA1, 0xA1, 0xFE] ++ (ida cyl head sec).drop 4 =
    ida cyl head sec := fun _ _ _ => rfl
  rw [hmagic, tail, ← List.append_assoc, hdrop, fullIda]

theorem words_dda (hsec : sec < d.nsec) (i : ℕ) (x : Byte)
    (hx : (fullDa (sectorData buffer sec))[i]? = some x) :
    ∃ w, (words d track buffer)[d.daPos sec + i]? = some w ∧ demword w = x := by
  have hrest : ∀ (i : ℕ) (x : Byte), (tail (da (sectorData buffer sec)))[i]? = some x →
      (words d track buffer)[d.daPos sec + 4 + i]? = some (mtab x) := fun i x hx => by
    have hlt := (List.getElem?_eq_some_iff.mp hx).1
    have hb : (afterMarks (sectorData buffer sec))[i]? = some x := by
      rw [afterMarks, List.getElem?_append_left hlt, hx]
    rw [tail_length, da_length] at hlt
    rw [words_after hsec (by omega), List.get_eq_getElem, (List.getElem?_eq_some_iff.mp hb).2]
  refine words_bytes (fun _ hk => words_da hsec hk) hrest ?_ damagic_length i x hx
  have hmagic : damagic.map demword = [0xA1, 0xA1, 0xA1, 0xFB] := by decide
  have hdrop : ∀ data, [0xA1, 0xA1, 0xA1, 0xFB] ++ (da data).drop 4 = da data := fun _ => rfl
  rw [hmagic, tail, ← List.append_assoc, hdrop, fullDa]

end

/-! ### The read -/

/-- A track was written to the disk, and read from bit `start` on. -/
structure TrackRead (d : Density) (track : ℕ) (buffer : ℕ → Byte) (mem : ℕ → BitVec 16) (n m : ℕ)
    (c : ℕ → Bool) (start : ℕ) (rd : ℕ → BitVec 16) (mfmlim : ℕ) : Prop where
  written : Written d track buffer mem
  disk : OnDisk d (ofWords mem) n m c
  reads : Reads rd (fun j => c ((start + j) % n)) mfmlim

/-- A place in the read is an id mark, or a data mark. -/
def IdAt (d : Density) (n m start p sec : ℕ) : Prop :=
  sec < d.nsec ∧ 16 * d.trkwlen - m + (start + p) % n = 16 * d.idPos sec

def DaAt (d : Density) (n m start p sec : ℕ) : Prop :=
  sec < d.nsec ∧ 16 * d.trkwlen - m + (start + p) % n = 16 * d.daPos sec

section
variable {d : Density} {track : ℕ} {buffer : ℕ → Byte} {mem : ℕ → BitVec 16} {n m start mfmlim : ℕ}
  {c : ℕ → Bool} {rd : ℕ → BitVec 16} {p p' sec sec' f k : ℕ}

/-- Where an id mark is on the circle. -/
theorem IdAt.bounds (h : IdAt d n m start p sec) (hd : OnDisk d b n m c) :
    32 ≤ (start + p) % n ∧ (start + p) % n + 16 * 642 ≤ m := by
  obtain ⟨hsec, hp⟩ := h
  have hused := hd.used
  have hslack := d.slack
  have hT := d.trkwlen_eq
  simp only [Density.idPos, Density.secPos, Density.iaPos, IAWORDS, SECWORDS] at hp hslack
  omega

theorem TrackRead.bit (h : TrackRead d track buffer mem n m c start rd mfmlim)
    (hp : IdAt d n m start p sec) {i : ℕ} (hi : i < 16 * 642) :
    c ((start + (p + i)) % n) = ofWords mem (16 * d.idPos sec + i) := by
  have hb := hp.bounds h.disk
  rw [← Nat.add_assoc, h.disk.bit (by omega), ← hp.2, Nat.add_assoc]

theorem TrackRead.bit_before (h : TrackRead d track buffer mem n m c start rd mfmlim)
    (hp : IdAt d n m start p sec) {i : ℕ} (hi : i ≤ 32) (hip : i ≤ p) :
    c ((start + (p - i)) % n) = ofWords mem (16 * d.idPos sec - i) := by
  have hb := hp.bounds h.disk
  have hfits := h.disk.fits
  have hmod : (start + (p - i)) % n + i = (start + p) % n := by
    have hv := Nat.mod_lt (start + (p - i)) (by omega : 0 < n)
    have hsum : start + p = start + (p - i) + i := by omega
    have heq : (start + p) % n = ((start + (p - i)) % n + i) % n := by
      rw [hsum, Nat.mod_add_mod]
    rcases Nat.lt_or_ge ((start + (p - i)) % n + i) n with hlt | hge
    · rw [heq, Nat.mod_eq_of_lt hlt]
    · have hlt : (start + (p - i)) % n + i - n < n := by omega
      rw [Nat.mod_eq_sub_mod hge, Nat.mod_eq_of_lt hlt] at heq
      omega
  have hpos : 16 * d.trkwlen - m + ((start + (p - i)) % n + 0) = 16 * d.idPos sec - i := by
    rw [← hp.2, ← hmod]
    omega
  rw [← hpos, ← h.disk.bit (by omega), Nat.add_zero]

/-- A mark found is that of a sector. -/
theorem TrackRead.idAt (h : TrackRead d track buffer mem n m c start rd mfmlim)
    (hm : Matches (fun j => c ((start + j) % n)) p iam IAMLEN) : ∃ sec, IdAt d n m start p sec := by
  have hm' : Matches (fun t => c (t % n)) (start + p) iam IAMLEN := fun i hi => by
    rw [Nat.add_assoc]
    exact hm i hi
  have hfill : ¬ ∃ i < IAMLEN, m ≤ (start + p + i) % n := fun hex => h.disk.iam _ hex hm'
  obtain ⟨sec, hsec, hid | hda⟩ :=
    h.disk.unique h.written.bits iam_isMark (Nat.le_refl 63) hm' hfill
  · exact ⟨sec, hsec, hid⟩
  · exfalso
    have hb : c ((start + p + 58) % n) = goalBit iam 58 := hm' 58 (by decide)
    have hd := h.written.bits.da sec hsec 58 (by decide)
    have hbound : (start + p) % n + 58 < m := by
      have hused := h.disk.used
      have hslack := d.slack
      have hT := d.trkwlen_eq
      simp only [Density.daPos, Density.secPos, Density.iaPos, IAWORDS, SECWORDS] at hda hslack
      omega
    rw [h.disk.bit hbound, ← Nat.add_assoc, hda, hd] at hb
    exact absurd hb (by decide)

theorem TrackRead.daAt (h : TrackRead d track buffer mem n m c start rd mfmlim)
    (hm : Matches (fun j => c ((start + j) % n)) p dam DAMLEN) : ∃ sec, DaAt d n m start p sec := by
  have hm' : Matches (fun t => c (t % n)) (start + p) dam DAMLEN := fun i hi => by
    rw [Nat.add_assoc]
    exact hm i hi
  have hfill : ¬ ∃ i < DAMLEN, m ≤ (start + p + i) % n := fun hex => h.disk.dam _ hex hm'
  obtain ⟨sec, hsec, hid | hda⟩ :=
    h.disk.unique h.written.bits dam_isMark (by decide) hm' hfill
  · exfalso
    have hb : c ((start + p + 58) % n) = goalBit dam 58 := hm' 58 (by decide)
    have hd := h.written.bits.id sec hsec 58 (by decide)
    have hbound := IdAt.bounds (b := ofWords mem) ⟨hsec, hid⟩ h.disk
    rw [h.disk.bit (by omega), ← Nat.add_assoc, hid, hd] at hb
    exact absurd hb (by decide)
  · exact ⟨sec, hsec, hda⟩

/-- Two id marks are at least a sector apart. -/
theorem IdAt.apart (h : IdAt d n m start p sec) (h' : IdAt d n m start p' sec')
    (hd : OnDisk d b n m c) (hlt : p < p') : p + 16 * SECWORDS ≤ p' := by
  have hb := h.bounds hd
  have hb' := h'.bounds hd
  obtain ⟨hsec, hp⟩ := h
  obtain ⟨hsec', hp'⟩ := h'
  have hfits := hd.fits
  have hwritten := hd.written
  have hused := hd.used
  have hslack := d.slack
  have hT := d.trkwlen_eq
  simp only [Density.idPos, Density.secPos, Density.iaPos, IAWORDS, SECWORDS] at hp hp' hslack ⊢
  by_contra hno
  obtain ⟨x, rfl⟩ : ∃ x, p' = p + x := ⟨p' - p, by omega⟩
  have hmod : (start + (p + x)) % n = ((start + p) % n + x) % n := by
    rw [← Nat.add_assoc, Nat.mod_add_mod]
  rcases Nat.lt_or_ge ((start + p) % n + x) n with hin | hwrap
  · rw [Nat.mod_eq_of_lt hin] at hmod
    omega
  · have hin : (start + p) % n + x - n < n := by omega
    rw [Nat.mod_eq_sub_mod hwrap, Nat.mod_eq_of_lt hin] at hmod
    omega

/-- The data mark soon after an id mark is that of its sector. -/
theorem IdAt.data (h : IdAt d n m start p sec) (h' : DaAt d n m start p' sec')
    (hd : OnDisk d b n m c) (hle : p ≤ p') (hnear : p' ≤ p + 16 * 115) :
    p' = p + 704 ∧ sec' = sec := by
  have hb := h.bounds hd
  obtain ⟨hsec, hp⟩ := h
  obtain ⟨hsec', hp'⟩ := h'
  have hfits := hd.fits
  simp only [Density.idPos, Density.daPos, Density.secPos, IAWORDS, SECWORDS] at hp hp'
  obtain ⟨x, rfl⟩ : ∃ x, p' = p + x := ⟨p' - p, by omega⟩
  have hmod : (start + (p + x)) % n = (start + p) % n + x := by
    rw [← Nat.add_assoc, ← Nat.mod_add_mod, Nat.mod_eq_of_lt (by omega)]
  omega

/-! ### Whole sectors -/

theorem TrackRead.idMark (h : TrackRead d track buffer mem n m c start rd mfmlim) (hk : k < 16)
    (hf : 2 ≤ f) (hp : IdAt d n m start (16 * f + k) sec) :
    MarkAt (fun j => c ((start + j) % n)) f k iam IAMLEN where
  skip := hk
  word := hf
  mark i hi := by
    exact (h.bit hp (Nat.lt_of_lt_of_le hi (by decide))).trans (h.written.bits.id sec hp.1 i hi)
  zeros i hpos hi := by
    exact (h.bit_before hp hi (by omega)).trans (h.written.bits.zeros sec hp.1 i hpos hi).1

theorem TrackRead.daMark (h : TrackRead d track buffer mem n m c start rd mfmlim) (hk : k < 16)
    (hp : IdAt d n m start (16 * f + k) sec) :
    MarkAt (fun j => c ((start + j) % n)) (f + 44) k dam DAMLEN where
  skip := hk
  word := by omega
  mark i hi := by
    have hlt : i < 59 := hi
    have hpos : 16 * (f + 44) + k + i = 16 * f + k + (704 + i) := by omega
    have hda : 16 * d.idPos sec + (704 + i) = 16 * d.daPos sec + i := by
      rw [Density.idPos, Density.daPos]
      omega
    rw [hpos, ← h.written.bits.da sec hp.1 i hi, ← hda]
    exact h.bit hp (by omega)
  zeros i hpos hi := by
    have hpos' : 16 * (f + 44) + k - i = 16 * f + k + (704 - i) := by omega
    have hda : 16 * d.idPos sec + (704 - i) = 16 * d.daPos sec - i := by
      rw [Density.idPos, Density.daPos]
      omega
    rw [hpos', ← (h.written.bits.zeros sec hp.1 i hpos hi).2, ← hda]
    exact h.bit hp (by omega)

/-- Words of the track in the read, decoded. -/
theorem TrackRead.demword (h : TrackRead d track buffer mem n m c start rd mfmlim) (hk : k < 16)
    (hp : IdAt d n m start (16 * f + k) sec) {o dlen : ℕ} (hend : o + dlen ≤ 642)
    (hlim : f + o + dlen + (if k = 0 then 0 else 1) ≤ mfmlim) {bytes : List Byte}
    (hbytes : ∀ (i : ℕ) (x : Byte), bytes[i]? = some x →
      ∃ w, (words d track buffer)[d.idPos sec + o + i]? = some w ∧ Msdos.demword w = x)
    (hlen : bytes.length = dlen) :
    ((List.range dlen).map fun i => Msdos.demword (skipped rd k (f + o + i))) = bytes := by
  refine List.ext_getElem (by rw [List.length_map, List.length_range, hlen]) fun i hi hi' => ?_
  rw [List.getElem_map, List.getElem_range]
  obtain ⟨w, hw, hx⟩ := hbytes i _ (List.getElem?_eq_getElem hi')
  have hat := h.reads.skipped hk (by split_ifs at hlim <;> omega : f + o + i < mfmlim)
    (fun hne => by rw [if_neg hne] at hlim; omega)
  have hmem : At (fun j => c ((start + j) % n)) (16 * (f + o + i) + k)
      (mem (d.idPos sec + o + i)) := fun r hr => by
    have hpos : 16 * (f + o + i) + k + r = 16 * f + k + (16 * (o + i) + r) := by omega
    have hpos' : 16 * d.idPos sec + (16 * (o + i) + r) = 16 * (d.idPos sec + o + i) + r := by omega
    rw [hpos, ← ofWords_apply mem _ hr, ← hpos']
    exact h.bit hp (by omega)
  rw [← hat.window, hmem.window, h.written _ w hw, demword_clocked, hx]

theorem iam_head : ∀ i < 16, goalBit iam i = (0x8912#16).getMsbD i := by decide

theorem dam_head : ∀ i < 16, goalBit dam i = (0x8912#16).getMsbD i := by decide

/-- `demfm`, where the read goes far enough. -/
theorem demfm_eq {dlen : ℕ} {bytes : List Byte}
    (hbytes : (List.range dlen).map (fun i => demword (skipped rd k (f + i))) = bytes)
    (hlim : f + dlen + (if k = 0 then 0 else 1) ≤ mfmlim) (hpos : 0 < dlen) :
    demfm rd mfmlim f k dlen = some (bytes, f + dlen + (if k = 0 then 0 else 1)) := by
  rw [Msdos.demfm, hbytes]
  split_ifs at hlim ⊢ with hzero hfar hfar
  · omega
  · rfl
  · omega
  · rfl

/-- `demfm` at a place of a sector gives the bytes there, if the read goes that far. -/
theorem TrackRead.demfm (h : TrackRead d track buffer mem n m c start rd mfmlim) (hk : k < 16)
    (hp : IdAt d n m start (16 * f + k) sec) {o dlen : ℕ} (hend : o + dlen ≤ 642)
    {bytes : List Byte} (hbytes : ∀ (i : ℕ) (x : Byte), bytes[i]? = some x →
      ∃ w, (words d track buffer)[d.idPos sec + o + i]? = some w ∧ Msdos.demword w = x)
    (hlen : bytes.length = dlen) (hpos : 0 < dlen) :
    Msdos.demfm rd mfmlim (f + o) k dlen =
      if f + o + dlen + (if k = 0 then 0 else 1) ≤ mfmlim then
        some (bytes, f + o + dlen + (if k = 0 then 0 else 1)) else none := by
  by_cases hlim : f + o + dlen + (if k = 0 then 0 else 1) ≤ mfmlim
  · rw [if_pos hlim]
    exact demfm_eq (h.demword hk hp hend hlim hbytes hlen) hlim hpos
  · rw [if_neg hlim, Msdos.demfm]
    split_ifs at hlim ⊢ with hzero hfar hfar
    · rfl
    · omega
    · rfl
    · omega

/-- An id mark that is to be found: its sector is whole in the read, and there
are two words before it. -/
def Ahead (d : Density) (n m start mfmlim mfmnext f k sec : ℕ) : Prop :=
  k < 16 ∧ mfmnext + 2 ≤ f ∧ f + 564 ≤ mfmlim ∧ IdAt d n m start (16 * f + k) sec

/-- `findidam` finds the first of the marks ahead, or an earlier one. -/
theorem TrackRead.findidam (h : TrackRead d track buffer mem n m c start rd mfmlim) (fuel : ℕ)
    {mfmnext mfmbskip : ℕ} (hs : mfmbskip < 16) (hle : mfmnext ≤ mfmlim)
    (hfuel : mfmlim - mfmnext < fuel) :
    (Msdos.findidam rd mfmlim fuel mfmnext mfmbskip = none ∧
      ∀ f k sec, ¬ Ahead d n m start mfmlim mfmnext f k sec) ∨
    ∃ f k sec, Msdos.findidam rd mfmlim fuel mfmnext mfmbskip =
        some (fullIda (track / TRKPCYL) (track % TRKPCYL) (sec + 1),
          f + 10 + (if k = 0 then 0 else 1), k) ∧
      k < 16 ∧ IdAt d n m start (16 * f + k) sec ∧ mfmnext < f ∧
      f + 10 + (if k = 0 then 0 else 1) ≤ mfmlim ∧
      ∀ f' k' sec', Ahead d n m start mfmlim mfmnext f' k' sec' → f ≤ f' := by
  induction fuel generalizing mfmnext mfmbskip with
  | zero => exact absurd hfuel (Nat.not_lt_zero _)
  | succ fuel ih =>
      have hsearch := @search_spec rd mfmlim iam IAMLEN 0 mfmnext mfmbskip hle hs
      have hend : searchEnd mfmlim (searchStart mfmlim mfmnext mfmbskip) 0 = mfmlim :=
        if_neg fun h => h.1 rfl
      have hstart : mfmnext ≤ searchStart mfmlim mfmnext mfmbskip ∧
          searchStart mfmlim mfmnext mfmbskip ≤ mfmnext + 1 := by
        rw [searchStart]
        split_ifs <;> omega
      rw [hend] at hsearch
      have hfirst : ∀ f' k' sec', Ahead d n m start mfmlim mfmnext f' k' sec' →
          (search rd mfmlim mfmnext mfmbskip iam IAMLEN 0).1 = true ∧
            (search rd mfmlim mfmnext mfmbskip iam IAMLEN 0).2.1 ≤ f' :=
        fun f' k' sec' hah => by
          obtain ⟨hk', hf', hlim', hid'⟩ := hah
          have hmark := h.idMark hk' (by omega) hid'
          obtain ⟨hz, hstop⟩ := hmark.stop h.reads (Nat.le_refl mfmlim) (by decide) iam_filled
            iam_head (by unfold IAMLEN; omega)
          exact hsearch.first f' k' (by omega) (by omega) hz hstop
      rw [Msdos.findidam]
      generalize search rd mfmlim mfmnext mfmbskip iam IAMLEN 0 = r at hsearch hfirst
      obtain ⟨ok, f, k⟩ := r
      cases ok with
      | false =>
          exact .inl ⟨rfl, fun f' k' sec' hah => Bool.noConfusion (hfirst f' k' sec' hah).1⟩
      | true =>
          obtain ⟨hlt, hltlim, heq⟩ := hsearch.found rfl
          have hk := hsearch.skip
          dsimp only at hlt hltlim heq hk hfirst ⊢
          obtain ⟨hroom, hmatch⟩ :=
            (h.reads.checkeq hk (Nat.le_refl _) (by decide) iam_filled).mp heq
          obtain ⟨sec, hid⟩ := h.idAt hmatch
          have hlen : (fullIda (track / TRKPCYL) (track % TRKPCYL) (sec + 1)).length = 10 := rfl
          have hdemfm := h.demfm hk hid (o := 0) (by decide) (words_ida hid.1) hlen (by decide)
          rw [Nat.add_zero] at hdemfm
          rw [if_pos rfl, hdemfm]
          by_cases hlim : f + 10 + (if k = 0 then 0 else 1) ≤ mfmlim
          · rw [if_pos hlim]
            dsimp only
            rw [if_pos (crc_fullIda _ _ _)]
            exact .inr ⟨f, k, sec, rfl, hk, hid, by omega, hlim, fun f' k' sec' hah =>
              (hfirst f' k' sec' hah).2⟩
          · -- the read ends within the id, and there are no whole sectors ahead
            rw [if_neg hlim]
            have hnone : ∀ f' k' sec', ¬ Ahead d n m start mfmlim mfmnext f' k' sec' :=
              fun f' k' sec' hah => by
                have hle' := (hfirst f' k' sec' hah).2
                have hlim' := hah.2.2.1
                split_ifs at hlim <;> omega
            rcases @ih f k hk (by omega) (by omega) with ⟨h₁, -⟩ | ⟨f₁, k₁, sec₁, h₁, h₂⟩
            · exact .inl ⟨h₁, hnone⟩
            · exact .inr ⟨f₁, k₁, sec₁, h₁, h₂.1, h₂.2.1, by omega, h₂.2.2.2.1,
                fun f' k' sec' hah => absurd hah (hnone f' k' sec')⟩

/-- After an id `findddam` finds the data of its sector, unless the read ends
before that. -/
theorem TrackRead.findddam (h : TrackRead d track buffer mem n m c start rd mfmlim) (hk : k < 16)
    (hid : IdAt d n m start (16 * f + k) sec)
    (hlim : f + 10 + (if k = 0 then 0 else 1) ≤ mfmlim) :
    ∃ nx s, s < 16 ∧ f + 10 + (if k = 0 then 0 else 1) ≤ nx ∧ nx ≤ mfmlim ∧
      ((Msdos.findddam rd mfmlim (f + 10 + (if k = 0 then 0 else 1)) k =
          (some (fullDa (sectorData buffer sec)), nx, s) ∧ nx ≤ f + 563) ∨
        (Msdos.findddam rd mfmlim (f + 10 + (if k = 0 then 0 else 1)) k = (none, nx, s) ∧
          nx ≤ f + 113 ∧ mfmlim < f + 564)) := by
  obtain ⟨next, hnext⟩ : ∃ next, next = f + 10 + (if k = 0 then 0 else 1) := ⟨_, rfl⟩
  have hnext' : f + 10 ≤ next ∧ next ≤ f + 11 := by
    rw [hnext]
    split_ifs <;> omega
  rw [← hnext] at hlim ⊢
  have hsearch := @search_spec rd mfmlim dam DAMLEN MAXITOD next k hlim hk
  obtain ⟨first, hfirst⟩ : ∃ first, first = searchStart mfmlim next k := ⟨_, rfl⟩
  obtain ⟨last, hlast⟩ : ∃ last, last = searchEnd mfmlim first MAXITOD := ⟨_, rfl⟩
  rw [← hfirst, ← hlast] at hsearch
  have hstart : next ≤ first ∧ first ≤ next + 1 ∧ first ≤ mfmlim := by
    rw [hfirst, searchStart]
    split_ifs <;> omega
  have hend : first ≤ last ∧ last ≤ mfmlim ∧ last ≤ first + 100 ∧
      (mfmlim ≤ last ∨ first + 100 ≤ last) := by
    rw [hlast, searchEnd]
    unfold MAXITOD
    split_ifs <;> omega
  have hwhole : f + 564 ≤ mfmlim → (search rd mfmlim next k dam DAMLEN MAXITOD).1 = true :=
    fun hwhole => by
      have hmark := h.daMark hk hid
      obtain ⟨hz, hstop⟩ := hmark.stop h.reads hend.2.1 (by decide) dam_filled dam_head
        (by unfold DAMLEN; omega)
      exact (hsearch.first (f + 44) k (by omega) (by omega) hz hstop).1
  rw [Msdos.findddam]
  generalize search rd mfmlim next k dam DAMLEN MAXITOD = r at hsearch hwhole
  obtain ⟨ok, g, k'⟩ := r
  cases ok with
  | false =>
      have hg := hsearch.limit rfl
      dsimp only at hg
      refine ⟨g, k', hsearch.skip, by omega, by omega, .inr ⟨rfl, by omega, ?_⟩⟩
      by_contra hge
      exact Bool.noConfusion (hwhole (Nat.le_of_not_lt hge))
  | true =>
      obtain ⟨hlt, hltlim, heq⟩ := hsearch.found rfl
      have hk' := hsearch.skip
      dsimp only at hlt hltlim heq hk' ⊢
      obtain ⟨-, hmatch⟩ := (h.reads.checkeq hk' hend.2.1 (by decide) dam_filled).mp heq
      obtain ⟨sec', hda⟩ := h.daAt hmatch
      obtain ⟨hpos, -⟩ := hid.data hda h.disk (by omega) (by omega)
      obtain rfl : g = f + 44 := by omega
      obtain rfl : k' = k := by omega
      have hlen : (fullDa (sectorData buffer sec)).length = 518 := by
        rw [fullDa, List.length_append, da_length]
        rfl
      have hdemfm := h.demfm hk hid (o := 44) (by decide) (words_dda hid.1) hlen (by decide)
      rw [if_pos rfl, hdemfm]
      by_cases hroom : f + 44 + 518 + (if k' = 0 then 0 else 1) ≤ mfmlim
      · rw [if_pos hroom]
        dsimp only
        rw [if_pos (crc_fullDa _)]
        refine ⟨_, k', hk, ?_, hroom, .inl ⟨rfl, ?_⟩⟩
        · omega
        · split_ifs <;> omega
      · rw [if_neg hroom]
        refine ⟨f + 44, k', hk, by omega, by omega, .inr ⟨rfl, by omega, ?_⟩⟩
        split_ifs at hroom <;> omega

/-! ### Storing -/

theorem store_of_eq (old : ℕ → Byte) {i : ℕ} (hi : i / BPSEC = sec) :
    store old sec (fullDa (sectorData buffer sec)) i = buffer i := by
  obtain ⟨hle, hlt⟩ : BPSEC * sec ≤ i ∧ i < BPSEC * sec + BPSEC := by
    unfold BPSEC at hi ⊢
    omega
  have hdrop : (fullDa (sectorData buffer sec)).drop 4 = sectorData buffer sec ++
      [(crc (da (sectorData buffer sec))).1, (crc (da (sectorData buffer sec))).2] := by
    have hda : ∀ data, (da data).drop 4 = data := fun _ => rfl
    rw [fullDa, List.drop_append_of_le_length (by rw [da_length]; decide), hda]
  have hlen : (sectorData buffer sec).length = BPSEC := by
    rw [sectorData, List.length_map, List.length_range]
  rw [store, if_pos ⟨hle, hlt⟩, hdrop, List.getD_eq_getElem?_getD,
    List.getElem?_append_left (by rw [hlen]; omega), sectorData, List.getElem?_map,
    List.getElem?_range (by omega), Option.map_some, Option.getD_some, Nat.add_sub_cancel' hle]

theorem store_of_ne (old : ℕ → Byte) (dda : List Byte) {i : ℕ} (hi : i / BPSEC ≠ sec) :
    store old sec dda i = old i := by
  rw [store]
  unfold BPSEC at hi ⊢
  rw [if_neg (by omega)]

/-- The sectors marked in `gotit` are right in the user's buffer. -/
def GotRight (nsec : ℕ) (gotit : ℕ → Bool) (old buffer : ℕ → Byte) : Prop :=
  ∀ sec < nsec, gotit sec = true → ∀ i, i / BPSEC = sec → old i = buffer i

theorem GotRight.store {nsec : ℕ} {gotit : ℕ → Bool} {old : ℕ → Byte}
    (h : GotRight nsec gotit old buffer) : GotRight nsec (Function.update gotit sec true)
      (store old sec (fullDa (sectorData buffer sec))) buffer := fun s hs hgot i hi => by
  by_cases heq : i / BPSEC = sec
  · exact store_of_eq old heq
  · rw [Function.update_of_ne (fun he => heq (hi.trans he))] at hgot
    rw [store_of_ne old _ heq, h s hs hgot i hi]

/-! ### Round trip -/

/-- Every sector is in the buffer or ahead. -/
def GotOrAhead (d : Density) (n m start mfmlim mfmnext : ℕ) (gotit : ℕ → Bool) : Prop :=
  ∀ sec < d.nsec, gotit sec = true ∨ ∃ f k, Ahead d n m start mfmlim mfmnext f k sec

/-- What is ahead stays ahead, but for the sector just met. -/
theorem GotOrAhead.next (hd : OnDisk d b n m c) {mfmnext nx : ℕ} {gotit gotit' : ℕ → Bool}
    (h : GotOrAhead d n m start mfmlim mfmnext gotit) (hk : k < 16)
    (hid : IdAt d n m start (16 * f + k) sec)
    (hfirst : ∀ f' k' sec', Ahead d n m start mfmlim mfmnext f' k' sec' → f ≤ f')
    (hnx : nx ≤ f + 563) (hgot : ∀ s, gotit s = true → gotit' s = true)
    (hmet : f + 564 ≤ mfmlim → gotit' sec = true) :
    GotOrAhead d n m start mfmlim nx gotit' := fun s hs => by
  rcases h s hs with hg | ⟨f', k', hah⟩
  · exact .inl (hgot s hg)
  · have hle := hfirst f' k' s hah
    obtain ⟨hk', hnext, hlim, hid'⟩ := hah
    rcases Nat.lt_trichotomy (16 * f + k) (16 * f' + k') with hlt | heq | hgt
    · have hapart := hid.apart hid' hd hlt
      unfold SECWORDS at hapart
      exact .inr ⟨f', k', hk', by omega, hlim, hid'⟩
    · obtain rfl : f = f' := by omega
      obtain rfl : k = k' := by omega
      have hsec : s = sec := by
        have h₁ := hid.2
        have h₂ := hid'.2
        simp only [Density.idPos, Density.secPos, IAWORDS, SECWORDS] at h₁ h₂
        omega
      exact .inl (hsec ▸ hmet hlim)
    · have hapart := hid'.apart hid hd hgt
      unfold SECWORDS at hapart
      omega

theorem TrackRead.getLoop (h : TrackRead d track buffer mem n m c start rd mfmlim)
    (htrack : track < TRACKS) (fuel : ℕ) {mfmnext mfmbskip : ℕ} (hs : mfmbskip < 16)
    (hle : mfmnext ≤ mfmlim) (hfuel : mfmlim - mfmnext < fuel) {gotit : ℕ → Bool} {old : ℕ → Byte}
    (hright : GotRight d.nsec gotit old buffer)
    (hahead : GotOrAhead d n m start mfmlim mfmnext gotit) :
    ∃ out, Msdos.getLoop rd mfmlim d.nsec track fuel mfmnext mfmbskip gotit old = (true, out) ∧
      ∀ i < d.nsec * BPSEC, out i = buffer i := by
  induction fuel generalizing mfmnext mfmbskip gotit old with
  | zero => exact absurd hfuel (Nat.not_lt_zero _)
  | succ fuel ih =>
      rw [Msdos.getLoop]
      rcases h.findidam (mfmlim + 1) hs hle (by omega) with
        ⟨hnone, hno⟩ | ⟨f, k, sec, hfound, hk, hid, hlt, hlim, hfirst⟩
      · -- nothing is ahead, so every sector is in the buffer
        have hall : ∀ sec < d.nsec, gotit sec = true := fun sec hsec =>
          (hahead sec hsec).resolve_right fun ⟨f, k, hah⟩ => hno f k sec hah
        rw [hnone]
        refine ⟨old, Prod.ext (List.all_eq_true.mpr fun sec hsec =>
          hall sec (List.mem_range.mp hsec)) rfl, fun i hi => ?_⟩
        have hsec : i / BPSEC < d.nsec := Nat.div_lt_of_lt_mul (Nat.mul_comm .. ▸ hi)
        exact hright _ hsec (hall _ hsec) i rfl
      · rw [hfound]
        dsimp only
        have hnsec : d.nsec ≤ 18 := by
          cases d with
          | low => decide
          | high => decide
        have hsec := hid.1
        have hT : track < 160 := htrack
        have hcyl : ((fullIda (track / TRKPCYL) (track % TRKPCYL) (sec + 1)).getD 4 0).toNat =
            track / TRKPCYL := by
          change (BitVec.ofNat 8 (track / TRKPCYL)).toNat = _
          rw [BitVec.toNat_ofNat]
          unfold TRKPCYL
          omega
        have hhead : ((fullIda (track / TRKPCYL) (track % TRKPCYL) (sec + 1)).getD 5 0).toNat =
            track % TRKPCYL := by
          change (BitVec.ofNat 8 (track % TRKPCYL)).toNat = _
          rw [BitVec.toNat_ofNat]
          unfold TRKPCYL
          omega
        have hsec' : ((fullIda (track / TRKPCYL) (track % TRKPCYL) (sec + 1)).getD 6 0).toNat =
            sec + 1 := by
          change (BitVec.ofNat 8 (sec + 1)).toNat = _
          rw [BitVec.toNat_ofNat]
          omega
        have hvalid : track / TRKPCYL < TRACKS / TRKPCYL ∧ track % TRKPCYL < TRKPCYL ∧
            track = track / TRKPCYL * TRKPCYL + track % TRKPCYL ∧ 0 < sec + 1 ∧
            sec + 1 ≤ d.nsec := by
          unfold TRKPCYL TRACKS
          omega
        rw [hcyl, hhead, hsec', if_neg (not_not_intro hvalid), Nat.add_sub_cancel]
        have hnx : f + 10 + (if k = 0 then 0 else 1) ≤ f + 563 := by split_ifs <;> omega
        by_cases hgot : gotit sec = true
        · rw [if_pos hgot]
          exact ih hk hlim (by omega) hright
            (hahead.next h.disk hk hid hfirst hnx (fun _ hg => hg) fun _ => hgot)
        · rw [if_neg hgot]
          obtain ⟨nx, s, hs', hge, hle', ⟨hda, hnx'⟩ | ⟨hda, hnx', hshort⟩⟩ :=
            h.findddam hk hid hlim
          · rw [hda]
            refine ih hs' hle' (by omega) hright.store
              (hahead.next h.disk hk hid hfirst hnx' (fun s hg => ?_) fun _ => ?_)
            · by_cases heq : s = sec
              · rw [heq, Function.update_self]
              · rw [Function.update_of_ne heq, hg]
            · exact Function.update_self ..
          · rw [hda]
            exact ih hs' hle' (by omega) hright
              (hahead.next h.disk hk hid hfirst (by omega) (fun _ hg => hg) fun _ => by omega)

/-- Every sector is whole somewhere in the read. -/
theorem OnDisk.ahead (hd : OnDisk d b n m c) (hlim : n + 16 * SECWORDS + 2 * 16 ≤ 16 * mfmlim)
    (start : ℕ) : GotOrAhead d n m start mfmlim 0 fun _ => false := fun sec hsec => by
  refine .inr ?_
  have hfits := hd.fits
  have hused := hd.used
  have hwritten := hd.written
  have hslack := d.slack
  have hT := d.trkwlen_eq
  obtain ⟨u, hu⟩ : ∃ u, u = 16 * d.idPos sec - (16 * d.trkwlen - m) := ⟨_, rfl⟩
  have hbounds : 16 * d.trkwlen - m + u = 16 * d.idPos sec ∧ u < n := by
    simp only [Density.idPos, Density.secPos, Density.iaPos, IAWORDS, SECWORDS] at hslack hu ⊢
    omega
  obtain ⟨hplace, hun⟩ := hbounds
  -- the first such place after two words
  obtain ⟨p, hp, hp', hmod⟩ : ∃ p, 32 ≤ p ∧ p < n + 32 ∧ (start + p) % n = u := by
    have hv := Nat.mod_lt (start + 32) (by omega : 0 < n)
    rcases Nat.lt_or_ge u ((start + 32) % n) with hlt | hge
    · refine ⟨32 + (u + n - (start + 32) % n), by omega, by omega, ?_⟩
      have hsum : (start + 32) % n + (u + n - (start + 32) % n) = u + n := by omega
      rw [← Nat.add_assoc, ← Nat.mod_add_mod, hsum, Nat.add_mod_right, Nat.mod_eq_of_lt hun]
    · refine ⟨32 + (u - (start + 32) % n), by omega, by omega, ?_⟩
      rw [← Nat.add_assoc, ← Nat.mod_add_mod, Nat.add_sub_cancel' hge, Nat.mod_eq_of_lt hun]
  unfold SECWORDS at hlim
  refine ⟨p / 16, p % 16, Nat.mod_lt _ (by decide), by omega, by omega, hsec, ?_⟩
  rw [Nat.div_add_mod, hmod, hplace]

end

/-- The end of what `encode` wrote, all of it or at least as much as a track
may count on, lies on a circle of `n` bits, and no address mark touches the
filler elsewhere. Read from any bit on, once around and a sector and two words
further, it gives the buffer. -/
theorem get_encode (d : Density) (track : ℕ) (htrack : track < TRACKS) (buffer : ℕ → Byte)
    (trkbuf : ℕ → BitVec 16) (n m : ℕ) (c : ℕ → Bool)
    (hdisk : OnDisk d (ofWords fun j => MfmBuf.encode d track buffer trkbuf (j + 1)) n m c)
    (start mfmlim : ℕ) (hlim : n + 16 * SECWORDS + 2 * 16 ≤ 16 * mfmlim) (rd : ℕ → BitVec 16)
    (hrd : ∀ k < mfmlim, rd k = window 16 (fun j => c (j % n)) (start + 16 * k))
    (old : ℕ → Byte) :
    ∃ out, get rd mfmlim d.nsec track old = (true, out) ∧
      ∀ i < d.nsec * BPSEC, out i = buffer i := by
  have hread : TrackRead d track buffer _ n m c start rd mfmlim :=
    ⟨encode_written d track buffer trkbuf, hdisk, fun k hk i hi => by
      rw [hrd k hk, getMsbD_window _ _ hi, Nat.add_assoc]⟩
  exact hread.getLoop htrack (mfmlim + 1) (by decide) (Nat.zero_le _) (by omega) nofun
    (hdisk.ahead hlim start)

theorem get_encode_zeros : ∃ out, get (fun k => window 16 (fun j => ofWords
      (fun j => MfmBuf.encode .low 0 (fun _ => 0) (fun _ => 0) (j + 1)) (j % 109040)) (0 + 16 * k))
      7471 9 0 (fun _ => 0) = (true, out) ∧ ∀ i < 9 * BPSEC, out i = (fun _ => 0) i :=
  get_encode .low 0 (by decide) (fun _ => 0) (fun _ => 0) 109040 109040 _
    { used := by decide
      fits := Nat.le_refl _
      written := by decide
      bits := fun k _ => by rw [show 16 * Density.low.trkwlen - 109040 + k = k from Nat.zero_add k]
      iam := fun t ⟨i, _, hi⟩ => absurd (Nat.mod_lt (t + i) (by decide)) (Nat.not_lt_of_le hi)
      dam := fun t ⟨i, _, hi⟩ => absurd (Nat.mod_lt (t + i) (by decide)) (Nat.not_lt_of_le hi) }
    0 7471 (by decide) _ (fun _ _ => rfl) fun _ => 0

end HydraAmix.Floppy.Msdos
