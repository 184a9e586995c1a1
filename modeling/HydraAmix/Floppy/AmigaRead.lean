import HydraAmix.Floppy.AmigaMarks

/-!
# Amiga tracks: reading

A raw read starts anywhere on the track and goes once around and a sector
further. `get` finds a sector, decodes the sectors up to the last one written,
finds the beginning again and decodes the rest. The read is a memory of words;
`mfmbuf` and `mfmlim` count words. What stands behind `mfmlim` is arbitrary.
-/
namespace HydraAmix.Floppy.Amiga
open Word BitStream

abbrev TRACKS : ℕ := 160

/-- The number of words of an `mfmsec`. -/
abbrev SECWORDS : ℕ := 544

/-- `struct sechdr`; the first longword is `magic`, `trk`, `sec` and `ord`. -/
structure Sechdr where
  id : Long
  label : List Long
  hdrchk : Long
  datachk : Long

namespace Sechdr

def magic (hdr : Sechdr) : Byte := byte hdr.id 3
def trk (hdr : Sechdr) : Byte := byte hdr.id 2
def sec (hdr : Sechdr) : Byte := byte hdr.id 1
def ord (hdr : Sechdr) : Byte := byte hdr.id 0

end Sechdr

section
variable (rd : ℕ → BitVec 16)

/-- A longword that begins with a word. -/
def longAt (k : ℕ) : Long := rd k ++ rd (k + 1)

/-- A longword that begins with bit `shift` of a word. -/
def shifted (shift k : ℕ) : Long :=
  longAt rd k <<< shift ||| longAt rd (k + 2) >>> (BPL - shift)

/-- `demfm`; `len` counts the longwords decoded. -/
def demfm (shift mfmbuf len : ℕ) : List Long :=
  (List.range len).map fun i =>
    (shifted rd shift (mfmbuf + 2 * i) &&& DMASK) <<< 1 |||
      shifted rd shift (mfmbuf + 2 * (len + i)) &&& DMASK

/-- `gethdr`, with the new `mfmbuf`. -/
def gethdr (mfmlim track mfmbuf shift : ℕ) : Option (Sechdr × ℕ) :=
  if mfmbuf + SECWORDS + 1 > mfmlim then none
  else if shifted rd shift mfmbuf &&& ~~~0x80000000 ≠ 0x2AAAAAAA then none
  else if shifted rd shift (mfmbuf + 2) ≠ 0x44894489 then none
  else
    let mfmbuf := mfmbuf + 4
    let hdr : Sechdr := {
      id := (demfm rd shift mfmbuf 1).headD 0
      label := demfm rd shift (mfmbuf + 4) 4
      hdrchk := (demfm rd shift (mfmbuf + 20) 1).headD 0
      datachk := (demfm rd shift (mfmbuf + 24) 1).headD 0 }
    if hdr.magic ≠ SECOK ∨ hdr.trk.toNat ≥ TRACKS ∨ hdr.sec.toNat ≥ NSEC ∨
        (hdr.ord.toNat : ℤ) - 1 ≥ NSEC then none
    else if hdr.hdrchk ≠ chksum (hdr.id :: hdr.label) then none
    else if hdr.trk.toNat ≠ track then none
    else some (hdr, mfmbuf + 28)

/-- The user's buffer with the data of a sector. -/
def store (buffer : ℕ → Long) (sec : ℕ) (data : List Long) (i : ℕ) : Long :=
  if DATALONGS * sec ≤ i ∧ i < DATALONGS * sec + data.length then
    data.getD (i - DATALONGS * sec) 0
  else buffer i

/-- The loop of `get`; `left` sectors are to come after this one. -/
def getLoop (mfmlim track left sec : ℕ) (n : Long) (hdr : Sechdr) (mfmbuf shift : ℕ)
    (buffer : ℕ → Long) : Bool × (ℕ → Long) :=
  let data := demfm rd shift mfmbuf DATALONGS
  let buffer := store buffer sec data
  if chksum data ≠ hdr.datachk then (false, buffer)
  else match left with
    | 0 => (true, buffer)
    | left + 1 =>
        let mfmbuf := mfmbuf + 4 * DATALONGS
        let sec := if sec + 1 = NSEC then 0 else sec + 1
        let n := n - 1
        let found := if n = 0 then (find rd mfmlim mfmbuf).map fun p => ((NSEC : Long), p)
          else some (n, mfmbuf, shift)
        match found with
        | none => (false, buffer)
        | some (n, mfmbuf, shift) =>
            match gethdr rd mfmlim track mfmbuf shift with
            | none => (false, buffer)
            | some (hdr, mfmbuf) =>
                if hdr.sec.toNat ≠ sec ∨ hdr.ord.setWidth 32 ≠ n then (false, buffer)
                else getLoop mfmlim track left sec n hdr mfmbuf shift buffer

/-- `get` after the read, with the user's buffer. -/
def get (mfmlim track : ℕ) (buffer : ℕ → Long) : Bool × (ℕ → Long) :=
  match find rd mfmlim 0 with
  | none => (false, buffer)
  | some (mfmbuf, shift) =>
      match gethdr rd mfmlim track mfmbuf shift with
      | none => (false, buffer)
      | some (hdr, mfmbuf) =>
          getLoop rd mfmlim track (NSEC - 1) hdr.sec.toNat (hdr.ord.setWidth 32) hdr mfmbuf shift
            buffer

end

/-! ### Decoding -/

/-- From `pos` on the memory holds these data bits, with whatever clock bits. -/
def Holds (mem : ℕ → Long) (pos : ℕ) (ds : List Long) : Prop :=
  ∀ (i : ℕ) (d : Long), ds[i]? = some d → mem (pos + i) &&& DMASK = d

section
variable {rd : ℕ → BitVec 16} {b : ℕ → Bool} {mem : ℕ → Long} {mfmlim shift k pos : ℕ}

theorem Chain.holds {ds : List Long} (h : Chain mem pos ds) (hds : ∀ d ∈ ds, d &&& DMASK = d) :
    Holds mem pos ds := fun i d hd => by
  rw [h i d hd, clockIn_and_DMASK _ (hds d (List.mem_of_getElem? hd))]

theorem Holds.left {a c : List Long} (h : Holds mem pos (a ++ c)) : Holds mem pos a :=
  fun i d hd => h i d (by
    rw [List.getElem?_append_left (List.getElem?_eq_some_iff.mp hd).1, hd])

theorem Holds.right {a c : List Long} (h : Holds mem pos (a ++ c)) {n : ℕ} (hn : a.length = n) :
    Holds mem (pos + n) c := fun i d hd => by
  have := h (a.length + i) d (by
    rw [List.getElem?_append_right (Nat.le_add_right _ _), Nat.add_sub_cancel_left, hd])
  rwa [← Nat.add_assoc, hn] at this

/-- Odd bits and even bits make the longword. -/
theorem demfm_cell (n : Long) : (n >>> 1 &&& DMASK) <<< 1 ||| n &&& DMASK = n := by
  refine BitVec.eq_of_getLsbD_eq fun i hi => ?_
  rw [BitVec.getLsbD_or, BitVec.getLsbD_shiftLeft, BitVec.getLsbD_and, BitVec.getLsbD_and,
    BitVec.getLsbD_ushiftRight, getLsbD_DMASK i hi, getLsbD_DMASK (i - 1) (by omega)]
  rcases Nat.mod_two_eq_zero_or_one i with heven | hodd
  · have hne : ((i - 1) % 2 == 0) = false ∨ i = 0 := by
      rw [beq_eq_false_iff_ne]
      omega
    rcases hne with hne | rfl
    · simp [heven, hne]
    · simp
  · have hpred : (i - 1) % 2 = 0 := by omega
    have hsucc : 1 + (i - 1) = i := by omega
    have hpos : ¬ i < 1 := by omega
    simp [hodd, hpred, hsucc, hpos, hi]

/-- The longwords of a memory are seen in the read. -/
def Seen (rd : ℕ → BitVec 16) (shift k : ℕ) (mem : ℕ → Long) (pos len : ℕ) : Prop :=
  ∀ j < len, shifted rd shift (k + 2 * j) = mem (pos + j)

theorem Reads.shifted (h : Reads rd b mfmlim) (hs : shift < 16) (hk : k + 2 < mfmlim) :
    At b (16 * k + shift) (Amiga.shifted rd shift k) := by
  have hlong : At b (16 * k) (longAt rd k) := (h k (by omega)).append (by
    have := h (k + 1) (by omega)
    rwa [Nat.mul_succ] at this)
  refine at_shifted (by omega) hlong fun i hi => ?_
  have hp : 16 * k + 32 + i = 16 * (k + 2) + i := by omega
  rw [hp, h.bit hk (by omega), longAt, BitVec.getMsbD_append, if_neg (by omega)]

theorem Seen.demfm {len o : ℕ} {block : List Long} (h : Seen rd shift k mem pos len)
    (hh : Holds mem (pos + o) (cells block)) (hlen : o + 2 * block.length ≤ len) :
    demfm rd shift (k + 2 * o) block.length = block := by
  refine List.ext_getElem (by rw [Amiga.demfm, List.length_map, List.length_range])
    fun i hi hi' => ?_
  have hx := List.getElem?_eq_getElem hi'
  generalize block[i] = x at hx ⊢
  have hodd := hh i (x >>> 1 &&& DMASK) (by
    rw [cells, List.getElem?_append_left (by rwa [List.length_map]), List.getElem?_map, hx]
    rfl)
  have heven := hh (block.length + i) (x &&& DMASK) (by
    rw [cells, List.getElem?_append_right (by rw [List.length_map]; omega), List.length_map,
      Nat.add_sub_cancel_left, List.getElem?_map, hx]
    rfl)
  simp only [Amiga.demfm, List.getElem_map, List.getElem_range]
  have hp₁ : k + 2 * o + 2 * i = k + 2 * (o + i) := by omega
  have hp₂ : k + 2 * o + 2 * (block.length + i) = k + 2 * (o + (block.length + i)) := by omega
  rw [hp₁, hp₂, h _ (by omega), h _ (by omega), ← Nat.add_assoc, ← Nat.add_assoc pos, hodd, heven,
    demfm_cell]

/-! ### Sectors in the read -/

/-- A sector of the track, from the word `k` of the read on. -/
structure SectorSeen (rd : ℕ → BitVec 16) (mfmlim shift k track : ℕ) (buffer : ℕ → Long)
    (sec : ℕ) : Prop where
  bound : sec < NSEC
  limit : k + SECWORDS + 1 ≤ mfmlim
  seen : ∃ mem pos, Seen rd shift k mem pos SECLONGS ∧
    SectorAt mem pos (sectorCells track buffer sec)

theorem SectorAt.blocks {track sec : ℕ} {buffer : ℕ → Long}
    (h : SectorAt mem pos (sectorCells track buffer sec)) :
    Holds mem (pos + 2) (cells [hdrMagic track sec]) ∧
      Holds mem (pos + 4) (cells [0, 0, 0, 0]) ∧
      Holds mem (pos + 12) (cells [chksum ([hdrMagic track sec] ++ [0, 0, 0, 0])]) ∧
      Holds mem (pos + 14) (cells [chksum (sectorData buffer sec)]) ∧
      Holds mem (pos + 16) (cells (sectorData buffer sec)) := by
  have hh := h.chain.holds sectorCells_masked
  rw [sectorCells, List.append_assoc, List.append_assoc, List.append_assoc] at hh
  have h₁ := hh.right (cells_length _)
  have h₂ := h₁.right (cells_length _)
  have h₃ := h₂.right (cells_length _)
  exact ⟨hh.left, h₁.left, h₂.left, h₃.left, h₃.right (cells_length _)⟩

theorem SectorSeen.demfm {track sec : ℕ} {buffer : ℕ → Long}
    (h : SectorSeen rd mfmlim shift k track buffer sec) :
    Amiga.demfm rd shift (k + 32) DATALONGS = sectorData buffer sec := by
  obtain ⟨mem, pos, hseen, hsec⟩ := h.seen
  have hd := hseen.demfm hsec.blocks.2.2.2.2 (by rw [sectorData_length]; decide)
  rwa [sectorData_length] at hd

/-- The header of a sector is accepted. -/
theorem SectorSeen.gethdr {track sec : ℕ} {buffer : ℕ → Long}
    (h : SectorSeen rd mfmlim shift k track buffer sec) (ht : track < TRACKS) :
    ∃ hdr, Amiga.gethdr rd mfmlim track k shift = some (hdr, k + 32) ∧ hdr.sec.toNat = sec ∧
      hdr.ord = BitVec.ofNat 8 (NSEC - sec) ∧ hdr.datachk = chksum (sectorData buffer sec) := by
  obtain ⟨mem, pos, hseen, hsec⟩ := h.seen
  obtain ⟨h₁, h₂, h₃, h₄, -⟩ := hsec.blocks
  have hS : sec < 11 := h.bound
  have hT : track < 160 := ht
  have hN : NSEC = 11 := rfl
  have hTR : TRACKS = 160 := rfl
  have hzeros : shifted rd shift k &&& ~~~0x80000000 = 0x2AAAAAAA := by
    have := hseen 0 (by decide)
    rw [Nat.mul_zero, Nat.add_zero, Nat.add_zero] at this
    rw [this, hsec.zeros, clockIn_zero]
    split_ifs
    · decide
    · decide
  have hmark : shifted rd shift (k + 2) = 0x44894489 := (hseen 1 (by decide)).trans hsec.mark
  have hid := hseen.demfm h₁ (by rw [List.length_singleton]; decide)
  have hlabel := hseen.demfm h₂ (by decide)
  have hhdrchk := hseen.demfm h₃ (by rw [List.length_singleton]; decide)
  have hdatachk := hseen.demfm h₄ (by rw [List.length_singleton]; decide)
  rw [List.length_singleton] at hid hhdrchk hdatachk
  rw [List.singleton_append] at hhdrchk
  change Amiga.demfm rd shift _ 4 = _ at hlabel
  refine ⟨⟨hdrMagic track sec, [0, 0, 0, 0], chksum [hdrMagic track sec, 0, 0, 0, 0],
    chksum (sectorData buffer sec)⟩, ?_, ?_, ?_, rfl⟩
  · have htrk : (BitVec.ofNat 8 track).toNat = track := by
      rw [BitVec.toNat_ofNat]
      omega
    have hsec' : (BitVec.ofNat 8 sec).toNat = sec := by
      rw [BitVec.toNat_ofNat]
      omega
    have hord : (BitVec.ofNat 8 (NSEC - sec)).toNat = NSEC - sec := by
      rw [BitVec.toNat_ofNat]
      omega
    rw [Amiga.gethdr, if_neg (Nat.not_lt_of_le h.limit), if_neg (not_not_intro hzeros),
      if_neg (not_not_intro hmark)]
    simp only [hid, hlabel, hhdrchk, hdatachk, List.headD_cons, Sechdr.magic, Sechdr.trk,
      Sechdr.sec, Sechdr.ord, hdrMagic, byte_long_zero, byte_long_one, byte_long_two,
      byte_long_three, htrk, hsec',
      hord]
    rw [if_neg (by rw [not_or]; exact ⟨not_not_intro rfl, by omega⟩), if_neg (not_not_intro rfl),
      if_neg (not_not_intro rfl)]
  · rw [Sechdr.sec, hdrMagic, byte_long_one, BitVec.toNat_ofNat]
    omega
  · rw [Sechdr.ord, hdrMagic, byte_long_zero]

end
/-! ### Around the track -/

/-- Where a sector begins on a circle of `n` bits. -/
def secStart (n sec : ℕ) : ℕ := n - 95760 + 8704 * sec

/-- From every place on the circle there is a next sector. -/
theorem next_sector {n c : ℕ} (hn : 95760 ≤ n) (hc : c < n) : ∃ d, ∃ sec < NSEC,
    (c + d = secStart n sec ∨ c + d = n + secStart n sec) ∧
    (∀ e < d, ∀ sec' < NSEC, c + e ≠ secStart n sec' ∧ c + e ≠ n + secStart n sec') ∧
    (sec = 0 → d + 87041 ≤ n) ∧ (0 < sec → d ≤ 8703) := by
  have hN : NSEC = 11 := rfl
  simp only [secStart]
  by_cases hle : c ≤ n - 95760 + 87040
  · obtain ⟨sec, hsec⟩ : ∃ sec, sec = (c - (n - 95760) + 8703) / 8704 := ⟨_, rfl⟩
    exact ⟨n - 95760 + 8704 * sec - c, sec, by omega, .inl (by omega), by omega, by omega, by omega⟩
  · exact ⟨n + (n - 95760) - c, 0, by omega, .inr (by omega), by omega, by omega, by omega⟩

/-- The bits of a read that starts at bit `start` of the circle. -/
def readFrom (n start : ℕ) (b : ℕ → Bool) (j : ℕ) : Bool := onTrack n b (start + j)

/-- A place in the read is the beginning of a sector. -/
structure Located (n start k s sec : ℕ) : Prop where
  shift : s < 16
  bound : sec < NSEC
  place : (start + (16 * k + s)) % n = secStart n sec

section
variable {rd : ℕ → BitVec 16} {mem buffer : ℕ → Long} {n start mfmlim track k s sec : ℕ}

/-- The bits of a sector in the read are those in the buffer. -/
theorem Located.bit (hl : Located n start k s sec) (hn : 95760 ≤ n) (hn' : n ≤ TRKBITS)
    (b : ℕ → Bool) {i : ℕ} (hi : i < 8704) :
    readFrom n start b (16 * k + s + i) = b (32 * sectorPos sec + i) := by
  have hb : sec < 11 := hl.bound
  have hT : TRKBITS = 109040 := rfl
  have hsp : sectorPos sec = 415 + 272 * sec := rfl
  have hp := hl.place
  rw [secStart] at hp
  rw [readFrom, ← Nat.add_assoc, onTrack_of_lt (by omega), hp]
  congr 1
  omega

theorem Located.seen (hl : Located n start k s sec) (hn : 95760 ≤ n) (hn' : n ≤ TRKBITS)
    (ht : TrackAt track buffer mem) (hrd : Reads rd (readFrom n start (ofWords mem)) mfmlim)
    (hlim : k + SECWORDS + 1 ≤ mfmlim) : SectorSeen rd mfmlim s k track buffer sec where
  bound := hl.bound
  limit := hlim
  seen := by
    have hS : SECWORDS = 544 := rfl
    have hL : SECLONGS = 272 := rfl
    refine ⟨mem, sectorPos sec, fun j hj => ?_, ht.sectors sec hl.bound⟩
    have hread := hrd.shifted hl.shift (by omega : k + 2 * j + 2 < mfmlim)
    have hmem :
        At (readFrom n start (ofWords mem)) (16 * (k + 2 * j) + s) (mem (sectorPos sec + j)) :=
      fun i hi => by
        have hp : 16 * (k + 2 * j) + s + i = 16 * k + s + (32 * j + i) := by omega
        rw [hp, hl.bit hn hn' _ (by omega), ← Nat.add_assoc, ← Nat.mul_add, ofWords_apply mem _ hi]
    rw [← hread.window, hmem.window]

/-- `find` finds the next sector. -/
theorem Located.find (hl : Located n start k s sec) (hn : 95760 ≤ n) (hn' : n ≤ TRKBITS)
    (ht : TrackAt track buffer mem) (hrd : Reads rd (readFrom n start (ofWords mem)) mfmlim)
    (hlim : k + SECWORDS + 1 ≤ mfmlim) {k₀ d : ℕ} (hd : 16 * k + s = 16 * k₀ + d)
    (hlt : d + 32 < n) (hfirst : ∀ e < d, ∀ sec' < NSEC,
      (start + 16 * k₀) % n + e ≠ secStart n sec' ∧
        (start + 16 * k₀) % n + e ≠ n + secStart n sec') :
    find rd mfmlim k₀ = some (k, s) := by
  have hS : SECWORDS = 544 := rfl
  have hT : TRKBITS = 109040 := rfl
  have hb := ht.bits
  have hsp : markPos sec = 32 * sectorPos sec + 32 := by
    rw [markPos, sectorPos, SECLONGS]
    omega
  have hm : MarkAt (readFrom n start (ofWords mem)) (k + 2) s := by
    refine ⟨hl.shift, Nat.le_add_left 2 k, fun i hi => ?_, fun i hpos hi => ?_⟩
    · have hp : 16 * (k + 2) + s + i = 16 * k + s + (32 + i) := by omega
      rw [hp, hl.bit hn hn' _ (by omega), ← Nat.add_assoc, ← hsp, hb.mark sec hl.bound i hi]
    · have hp : 16 * (k + 2) + s - i = 16 * k + s + (32 - i) := by omega
      have hz := hb.zeros sec hl.bound (32 - i) (by omega) (by omega)
      rw [hsp, Nat.add_sub_cancel] at hz
      rw [hp, hl.bit hn hn' _ (by omega), hz]
      congr 1
      omega
  refine hm.find hrd (by omega) (by have := hl.shift; omega) fun k' i hk₀ hk' hi hat => ?_
  -- a mark on the way would be the beginning of a sector
  have hat' : At (onTrack n (ofWords mem)) (start + (16 * k' + i)) MARK := fun j hj => by
    rw [Nat.add_assoc]
    exact hat j hj
  obtain ⟨sec', hsec', heq⟩ := hb.mark_unique hn' hn hat'
  obtain ⟨e, he⟩ : ∃ e, 16 * k' + i = 16 * k₀ + (32 + e) := ⟨16 * k' + i - 16 * k₀ - 32, by omega⟩
  have hs := hl.shift
  obtain ⟨hne, hne'⟩ := hfirst e (by omega) sec' hsec'
  have hc := Nat.mod_lt (start + 16 * k₀) (by omega : 0 < n)
  rw [he, ← Nat.add_assoc, ← Nat.mod_add_mod] at heq
  rw [markPos] at heq
  rw [secStart] at hne hne'
  by_cases hwrap : (start + 16 * k₀) % n + (32 + e) < n
  · rw [Nat.mod_eq_of_lt hwrap] at heq
    omega
  · rw [Nat.mod_eq_sub_mod (by omega), Nat.mod_eq_of_lt (by omega)] at heq
    omega

/-! ### Storing -/

theorem store_of_eq (old : ℕ → Long) {i : ℕ} (hi : i / DATALONGS = sec) :
    store old sec (sectorData buffer sec) i = buffer i := by
  obtain ⟨hle, hlt⟩ : DATALONGS * sec ≤ i ∧ i < DATALONGS * sec + DATALONGS := by
    unfold DATALONGS at hi ⊢
    omega
  rw [store, sectorData_length, if_pos ⟨hle, hlt⟩, sectorData, List.getD_eq_getElem?_getD,
    List.getElem?_map, List.getElem?_range (by omega), Option.map_some, Option.getD_some,
    Nat.add_sub_cancel' hle]

theorem store_of_ne (old : ℕ → Long) (data : List Long) {i : ℕ} (hi : i / DATALONGS ≠ sec)
    (hlen : data.length = DATALONGS) : store old sec data i = old i := by
  rw [store, hlen]
  unfold DATALONGS at hi ⊢
  rw [if_neg (by omega)]

/-- A word of the buffer is right once its sector is stored, and stays right. -/
theorem store_right {old : ℕ → Long} {left i : ℕ}
    (h : old i = buffer i ∨ ∃ t ≤ left + 1, (sec + t) % NSEC = i / DATALONGS) (hsec : sec < NSEC) :
    store old sec (sectorData buffer sec) i = buffer i ∨
      ∃ t ≤ left, ((if sec + 1 = NSEC then 0 else sec + 1) + t) % NSEC = i / DATALONGS := by
  have hN : NSEC = 11 := rfl
  by_cases hi : i / DATALONGS = sec
  · exact .inl (store_of_eq old hi)
  · rcases h with h | ⟨t, ht, heq⟩
    · exact .inl (by rw [store_of_ne old _ hi (sectorData_length buffer sec), h])
    · rcases Nat.eq_zero_or_pos t with rfl | hpos
      · rw [Nat.add_zero, Nat.mod_eq_of_lt hsec] at heq
        exact absurd heq.symm hi
      · refine .inr ⟨t - 1, by omega, ?_⟩
        rw [← heq]
        rw [hN] at hsec ⊢
        split_ifs <;> omega

/-! ### Round trip -/

/-- The sectors to come end in the read: `left` after this one, past the place
where the last sector written ends. -/
def Room (n p sec left : ℕ) : Prop :=
  p + 8704 * left + (if NSEC ≤ sec + left then n - 95744 else 0) < n

/-- The word after the last sector written. -/
theorem secStart_end (hs : s < 16) (hn : 95760 ≤ n)
    (hp : (start + (16 * k + s)) % n = n - 95760 + 8704 * sec) (hsec : sec = 10) :
    (start + 16 * (k + 544)) % n = n - 16 - s := by
  obtain ⟨x, hx⟩ : ∃ x, x + s = 8704 := ⟨8704 - s, Nat.sub_add_cancel (by omega)⟩
  have hp' : start + 16 * (k + 544) = start + (16 * k + s) + x := by omega
  have hsum : n - 95760 + 8704 * sec + x = n - 16 - s := by omega
  rw [hp', ← Nat.mod_add_mod, hp, hsum, Nat.mod_eq_of_lt (by omega)]

/-- The sector that follows, found again after the last one written. -/
theorem Located.next (hl : Located n start k s sec) (hn : 95760 ≤ n) (hn' : n ≤ TRKBITS)
    (ht : TrackAt track buffer mem) (hrd : Reads rd (readFrom n start (ofWords mem)) mfmlim)
    (hlim : n + 8736 ≤ 16 * mfmlim) {left : ℕ} (hroom : Room n (16 * k + s) sec (left + 1)) :
    ∃ k' s', Located n start k' s' (if sec + 1 = NSEC then 0 else sec + 1) ∧
      Room n (16 * k' + s') (if sec + 1 = NSEC then 0 else sec + 1) left ∧
      (if BitVec.ofNat 32 (NSEC - sec) - 1 = 0 then
        (Amiga.find rd mfmlim (k + 32 + 4 * DATALONGS)).map fun p => ((NSEC : Long), p)
      else some (BitVec.ofNat 32 (NSEC - sec) - 1, k + 32 + 4 * DATALONGS, s)) =
        some (BitVec.ofNat 32 (NSEC - if sec + 1 = NSEC then 0 else sec + 1), k', s') := by
  have hcount : ∀ sec < NSEC - 1,
      BitVec.ofNat 32 (NSEC - sec) - 1 = BitVec.ofNat 32 (NSEC - (sec + 1)) ∧
      BitVec.ofNat 32 (NSEC - (sec + 1)) ≠ 0 := by decide
  have hT : TRKBITS = 109040 := rfl
  have hN : NSEC = 11 := rfl
  have hS : SECWORDS = 544 := rfl
  obtain ⟨hs, hb, hp⟩ := hl
  rw [secStart] at hp
  rw [Room] at hroom
  rcases Nat.lt_or_ge (sec + 1) NSEC with hlt | hge
  · obtain ⟨hdec, hne⟩ := hcount sec (by omega)
    rw [if_neg (by omega : ¬ sec + 1 = NSEC), hdec, if_neg hne]
    refine ⟨k + 32 + 4 * DATALONGS, s, ⟨hs, hlt, ?_⟩, ?_, rfl⟩
    · have hp' : start + (16 * (k + 32 + 4 * DATALONGS) + s) = start + (16 * k + s) + 8704 := by
        unfold DATALONGS
        omega
      rw [hp', ← Nat.mod_add_mod, hp, secStart, Nat.mod_eq_of_lt (by omega)]
      omega
    · rw [Room]
      unfold DATALONGS
      split_ifs at hroom ⊢ <;> omega
  · have hsec : sec = 10 := by omega
    have hc := secStart_end hs hn hp hsec
    obtain ⟨d, sec', hsec', hd, hfirst, hzero, hnonzero⟩ :=
      next_sector hn (Nat.mod_lt (start + 16 * (k + 544)) (by omega : 0 < n))
    have hd' : d = n - 95760 + 16 + s ∧ sec' = 0 := by
      simp only [hc, secStart] at hd hfirst
      have hno := fun he => (hfirst (n - 95760 + 16 + s) he 0 (by decide)).2
      omega
    obtain ⟨rfl, rfl⟩ := hd'
    rw [if_pos (by omega : sec + 1 = NSEC)]
    rw [if_pos (by omega : NSEC ≤ sec + (left + 1))] at hroom
    obtain ⟨k', hk'⟩ : ∃ k', k' = (16 * (k + 544) + (n - 95760 + 16 + s)) / 16 := ⟨_, rfl⟩
    obtain ⟨s', hs'⟩ : ∃ s', s' = (16 * (k + 544) + (n - 95760 + 16 + s)) % 16 := ⟨_, rfl⟩
    have hsum : 16 * k' + s' = 16 * (k + 544) + (n - 95760 + 16 + s) := by omega
    have hl' : Located n start k' s' 0 := by
      refine ⟨by omega, by decide, ?_⟩
      have hfull : n - 16 - s + (n - 95760 + 16 + s) = n + secStart n 0 := by
        rw [secStart]
        omega
      rw [hsum, ← Nat.add_assoc, ← Nat.mod_add_mod, hc, hfull, Nat.add_mod_left, secStart,
        Nat.mod_eq_of_lt (by omega)]
    refine ⟨k', s', hl', ?_, ?_⟩
    · rw [Room]
      split_ifs <;> omega
    · have hk₀ : k + 32 + 4 * DATALONGS = k + 544 := rfl
      rw [hk₀, hl'.find hn hn' ht hrd (by omega) hsum (by omega) hfirst, hsec]
      rfl

theorem getLoop_spec (ht : TrackAt track buffer mem) (htrack : track < TRACKS) (hn : 95760 ≤ n)
    (hn' : n ≤ TRKBITS) (hrd : Reads rd (readFrom n start (ofWords mem)) mfmlim)
    (hlim : n + 8736 ≤ 16 * mfmlim) {left : ℕ} (hl : Located n start k s sec)
    (hroom : Room n (16 * k + s) sec left) {hdr : Sechdr}
    (hhdr : hdr.datachk = chksum (sectorData buffer sec)) (old : ℕ → Long) :
    ∃ out, getLoop rd mfmlim track left sec (BitVec.ofNat 32 (NSEC - sec)) hdr (k + 32) s old =
        (true, out) ∧
      ∀ i, (old i = buffer i ∨ ∃ t ≤ left, (sec + t) % NSEC = i / DATALONGS) →
        out i = buffer i := by
  have hseen : ∀ {k s sec left}, Located n start k s sec → Room n (16 * k + s) sec left →
      SectorSeen rd mfmlim s k track buffer sec := fun {k s sec left} hl hroom => by
    have hS : SECWORDS = 544 := rfl
    rw [Room] at hroom
    exact hl.seen hn hn' ht hrd (by omega)
  induction left generalizing k s sec hdr old with
  | zero =>
      refine ⟨store old sec (sectorData buffer sec), ?_, fun i hi => ?_⟩
      · rw [getLoop]
        simp only [(hseen hl hroom).demfm, hhdr, ne_eq, not_true_eq_false, if_false]
      · by_cases heq : i / DATALONGS = sec
        · exact store_of_eq old heq
        · rw [store_of_ne old _ heq (sectorData_length buffer sec)]
          rcases hi with hi | ⟨t, ht, hmod⟩
          · exact hi
          · rw [Nat.le_zero.mp ht, Nat.add_zero, Nat.mod_eq_of_lt hl.bound] at hmod
            exact absurd hmod.symm heq
  | succ left ih =>
      obtain ⟨k', s', hl', hroom', hfound⟩ := hl.next hn hn' ht hrd hlim hroom
      obtain ⟨hdr', hget, hsec', hord', hdatachk'⟩ := (hseen hl' hroom').gethdr htrack
      obtain ⟨out, hout, hright⟩ := ih hl' hroom' hdatachk'
        (store old sec (sectorData buffer sec))
      refine ⟨out, ?_, fun i hi => hright i (store_right hi hl.bound)⟩
      rw [getLoop]
      simp only [(hseen hl hroom).demfm, hhdr, ne_eq, not_true_eq_false, if_false, hfound, hget]
      have hord : hdr'.ord.setWidth 32 =
          BitVec.ofNat 32 (NSEC - if sec + 1 = NSEC then 0 else sec + 1) := by
        rw [hord', BitVec.setWidth_ofNat_of_le_of_lt (by decide)
          (Nat.lt_of_le_of_lt (Nat.sub_le _ _) (by decide))]
      rw [if_neg fun h => h.elim (fun h => h hsec') fun h => h hord]
      exact hout

end

/-- The track is written to a circle of `n` bits until its end meets its
beginning; the circle is long enough for the sectors and the last word, and the
slop is enough to fill it. Read from any bit on, once around and a sector and
two words further, it gives the buffer. -/
theorem get_fdputaml (track : ℕ) (htrack : track < TRACKS) (buffer trkbuf : ℕ → Long)
    (n : ℕ) (hn : 95760 ≤ n) (hn' : n ≤ TRKBITS) (start mfmlim : ℕ)
    (hlim : n + 16 * SECWORDS + 2 * 16 ≤ 16 * mfmlim) (rd : ℕ → BitVec 16)
    (hrd : ∀ k < mfmlim, rd k = window 16
      (onTrack n (ofWords (MfmBuf.fdputaml track buffer trkbuf))) (start + 16 * k))
    (old : ℕ → Long) :
    ∃ out, get rd mfmlim track old = (true, out) ∧ ∀ i < NSEC * DATALONGS, out i = buffer i := by
  have ht := fdputaml_trackAt track buffer trkbuf
  generalize MfmBuf.fdputaml track buffer trkbuf = mem at ht hrd
  have hreads : Reads rd (readFrom n start (ofWords mem)) mfmlim := fun k hk i hi => by
    rw [hrd k hk, getMsbD_window _ _ hi, readFrom, Nat.add_assoc]
  have hlim' : n + 8736 ≤ 16 * mfmlim := hlim
  obtain ⟨d, sec, hsec, hd, hfirst, hzero, hnonzero⟩ :=
    next_sector hn (Nat.mod_lt (start + 16 * 0) (by omega : 0 < n))
  have hsum : 16 * (d / 16) + d % 16 = 16 * 0 + d := by
    rw [Nat.div_add_mod, Nat.mul_zero, Nat.zero_add]
  have hs : sec < 11 := hsec
  have hl : Located n start (d / 16) (d % 16) sec := by
    refine ⟨Nat.mod_lt d (by decide), hsec, ?_⟩
    rw [hsum, ← Nat.add_assoc, ← Nat.mod_add_mod]
    rcases hd with hd | hd
    · rw [hd, secStart, Nat.mod_eq_of_lt (by omega)]
    · rw [hd, Nat.add_mod_left, secStart, Nat.mod_eq_of_lt (by omega)]
  have hroom : Room n (16 * (d / 16) + d % 16) sec (NSEC - 1) := by
    have hlast : NSEC - 1 = 10 := rfl
    rw [Room, hsum, hlast]
    split_ifs with hle
    · have : 0 < sec := Nat.pos_of_ne_zero fun h => by
        rw [h] at hle
        exact absurd hle (by decide)
      omega
    · omega
  have hend : d / 16 + SECWORDS + 1 ≤ mfmlim := by
    have hS : SECWORDS = 544 := rfl
    omega
  obtain ⟨hdr, hget, hhsec, hord, hdatachk⟩ := (hl.seen hn hn' ht hreads hend).gethdr htrack
  obtain ⟨out, hout, hright⟩ := getLoop_spec ht htrack hn hn' hreads hlim' hl hroom hdatachk old
  refine ⟨out, ?_, fun i hi => hright i (.inr ?_)⟩
  · have hfind := hl.find hn hn' ht hreads hend hsum (by omega) hfirst
    have hord' : hdr.ord.setWidth 32 = BitVec.ofNat 32 (NSEC - sec) := by
      rw [hord, BitVec.setWidth_ofNat_of_le_of_lt (by decide)
        (Nat.lt_of_le_of_lt (Nat.sub_le _ _) (by decide))]
    rw [get, hfind]
    simp only [hget, hhsec, hord']
    exact hout
  · have hb : i / DATALONGS < 11 := Nat.div_lt_of_lt_mul (Nat.mul_comm .. ▸ hi)
    refine ⟨(i / DATALONGS + 11 - sec) % 11, by have hN : NSEC = 11 := rfl; omega, ?_⟩
    rw [Nat.add_mod_mod, Nat.add_sub_cancel' (Nat.le_add_left_of_le (Nat.le_of_lt hs)),
      Nat.add_mod_right, Nat.mod_eq_of_lt hb]

theorem get_fdputaml_zeros : ∃ out, get (fun k => window 16
      (onTrack 95760 (ofWords (MfmBuf.fdputaml 0 (fun _ => 0) fun _ => 0))) (0 + 16 * k)) 6531 0
      (fun _ => 0) = (true, out) ∧ ∀ i < NSEC * DATALONGS, out i = (fun _ => 0) i :=
  get_fdputaml 0 (by decide) (fun _ => 0) (fun _ => 0) 95760 (by decide) (by decide) 0 6531
    (by decide) _ (fun _ _ => rfl) fun _ => 0

end HydraAmix.Floppy.Amiga
