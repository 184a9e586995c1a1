import HydraAmix.Library.CyclicRedundancy
import HydraAmix.Floppy.MsdosRead

/-!
# MS-DOS tracks: the check of a field

The table of `crc` has what eight shifts leave of a byte in the highest place, so `crc` is
the bit-serial check, and it is zero of a field with its own check behind it. What `dosec`
writes is accepted wherever it is in a raw read.
-/
namespace HydraAmix.Floppy.Msdos
open Word BitStream CyclicRedundancy

/-- x^16 + x^12 + x^5 + 1, without x^16. -/
def polynomial : BitVec 16 := 0x1021

/-- The value of `crc`. -/
def crcWord (bytes : List Byte) : BitVec 16 := short (crc bytes).1 (crc bytes).2

/-- The bits of the bytes, most significant first. -/
def serialBits (bytes : List Byte) : List Bool :=
  bytes.flatMap fun b => (List.range 8).map b.getMsbD

/-- A value in big-endian order. -/
def bigEndian (v : BitVec 16) : List Byte := [(v >>> 8).setWidth 8, v.setWidth 8]

/-! ### The bit-serial check -/

/-- The table has eight shifts of each byte; a low byte only moves up; and the bits of a byte
make it a high byte. -/
theorem byte_shifts : ∀ byte : Byte,
    short ((makecrc byte >>> 8).setWidth 8) ((makecrc byte).setWidth 8) =
        shifts polynomial 8 (short byte 0) ∧
      shifts polynomial 8 (short 0 byte) = short byte 0 ∧
      chunk ((List.range 8).map byte.getMsbD) = short byte 0 := by decide +kernel

theorem short_xor (h l h' l' : Byte) :
    short h l ^^^ short h' l' = short (h ^^^ h') (l ^^^ l') := BitVec.xor_append

/-- A byte by the table is its eight bits. -/
theorem crcStep_serial (c : Byte × Byte) (byte : Byte) :
    short (crcStep c byte).1 (crcStep c byte).2 =
      serial polynomial (short c.1 c.2) ((List.range 8).map byte.getMsbD) := by
  have hsplit : short c.1 c.2 ^^^ short byte 0 = short (c.1 ^^^ byte) 0 ^^^ short 0 c.2 := by
    rw [short_xor, short_xor]
    exact congrArg₂ short BitVec.xor_zero.symm (BitVec.xor_zero.trans BitVec.zero_xor.symm)
  have hlen : ((List.range 8).map byte.getMsbD).length = 8 := rfl
  have hserial := serial_chunk polynomial (short c.1 c.2) (hlen.trans_le (by decide : 8 ≤ 16))
  calc short (crcStep c byte).1 (crcStep c byte).2
      = short ((makecrc (c.1 ^^^ byte) >>> 8).setWidth 8) ((makecrc (c.1 ^^^ byte)).setWidth 8) ^^^
          short c.2 0 := by
        rw [short_xor]
        exact congrArg (short _) BitVec.xor_zero.symm
    _ = shifts polynomial 8 (short (c.1 ^^^ byte) 0) ^^^ shifts polynomial 8 (short 0 c.2) := by
        rw [(byte_shifts (c.1 ^^^ byte)).1, (byte_shifts c.2).2.1]
    _ = shifts polynomial 8 (short c.1 c.2 ^^^ chunk ((List.range 8).map byte.getMsbD)) := by
        rw [← shifts_xor, (byte_shifts byte).2.2, hsplit]
    _ = serial polynomial (short c.1 c.2) ((List.range 8).map byte.getMsbD) := hserial.symm

theorem foldl_crcStep (c : Byte × Byte) (bytes : List Byte) :
    short (bytes.foldl crcStep c).1 (bytes.foldl crcStep c).2 =
      serial polynomial (short c.1 c.2) (serialBits bytes) := by
  induction bytes generalizing c with
  | nil => rfl
  | cons byte bytes ih =>
      rw [List.foldl_cons, ih, crcStep_serial, ← serial_append]
      rfl

theorem crcWord_serial (bytes : List Byte) :
    crcWord bytes = serial polynomial 0xFFFF (serialBits bytes) := foldl_crcStep (0xFF, 0xFF) bytes

theorem bigEndian_short (h l : Byte) : bigEndian (short h l) = [h, l] := by
  have hhigh : (short h l >>> 8).setWidth 8 = h := by
    apply BitVec.eq_of_getLsbD_eq
    intro i hi
    rw [BitVec.getLsbD_setWidth, BitVec.getLsbD_ushiftRight, short, BitVec.getLsbD_append,
      if_neg (by omega), decide_eq_true hi, Bool.true_and, Nat.add_sub_cancel_left]
  have hlow : (short h l).setWidth 8 = l := by
    apply BitVec.eq_of_getLsbD_eq
    intro i hi
    rw [BitVec.getLsbD_setWidth, short, BitVec.getLsbD_append, if_pos hi, decide_eq_true hi,
      Bool.true_and]
  rw [bigEndian, hhigh, hlow]

theorem crcWord_append (bytes : List Byte) : crcWord (bytes ++ bigEndian (crcWord bytes)) = 0 := by
  have happend := crc_append bytes
  unfold crcWord
  rw [bigEndian_short, happend]
  rfl

/-! ### Finding a mark behind known bits -/

/-- The bits of words with the clock bits between them. -/
def clockedBit (ws : List (BitVec 16)) (t : ℕ) : Bool :=
  ofWords (fun j => clocked (ws.getD j 0) ws[j + 1]?) t

/-- No mark begins less than a word after another. -/
def Distinct (goal : List (BitVec 16)) (len : ℕ) : Prop :=
  ∀ e < 16, 0 < e → ∃ i < len - e, goalBit goal (i + e) ≠ goalBit goal i

theorem marks_distinct : Distinct iam IAMLEN ∧ Distinct dam DAMLEN := by
  unfold Distinct
  decide +kernel

/-- What stands before an id mark and a data mark, with the mark. -/
def idLead : List (BitVec 16) := List.replicate 12 (mtab 0x00) ++ idamagic

def daLead : List (BitVec 16) :=
  List.replicate 22 (mtab 0x4E) ++ (List.replicate 12 (mtab 0x00) ++ damagic)

/-- The bits before a mark begin no mark, and end with zeros. -/
structure LeadsTo (ws goal : List (BitVec 16)) (len n : ℕ) : Prop where
  mark : Matches (clockedBit ws) (16 * n) goal len
  first : ∀ t < 16 * n, ¬ Matches (clockedBit ws) t goal len
  zeros : ∀ i ≤ 32, 0 < i → clockedBit ws (16 * n - i) = (i % 2 == 1 && i != 1)

theorem leadsTo_iff {ws goal : List (BitVec 16)} {len n : ℕ} : LeadsTo ws goal len n ↔
    Matches (clockedBit ws) (16 * n) goal len ∧
    (∀ t < 16 * n, ¬ Matches (clockedBit ws) t goal len) ∧
    ∀ i ≤ 32, 0 < i → clockedBit ws (16 * n - i) = (i % 2 == 1 && i != 1) :=
  ⟨fun h => ⟨h.mark, h.first, h.zeros⟩, fun h => ⟨h.1, h.2.1, h.2.2⟩⟩

theorem leads : LeadsTo idLead iam IAMLEN 12 ∧ LeadsTo daLead dam DAMLEN 34 := by
  rw [leadsTo_iff, leadsTo_iff]
  unfold Matches
  decide +kernel

section
variable {rd : ℕ → BitVec 16} {b : ℕ → Bool} {mfmlim mfmnext mfmbskip g k len maxsrch : ℕ}
  {goal : List (BitVec 16)}

/-- A search finds the mark that no other comes before. -/
theorem search_eq (h : Reads rd b mfmlim) (hs : mfmbskip < 16) (hle : mfmnext ≤ mfmlim)
    (hm : MarkAt b g k goal len) (hlen : 16 ≤ len) (hfill : Filled goal len)
    (hhead : ∀ i < 16, goalBit goal i = (0x8912#16).getMsbD i) (hdist : Distinct goal len)
    (hstart : searchStart mfmlim mfmnext mfmbskip < g)
    (hend : len + k ≤ 16 * (searchEnd mfmlim (searchStart mfmlim mfmnext mfmbskip) maxsrch - g))
    (hfirst : ∀ p, 16 * (searchStart mfmlim mfmnext mfmbskip + 1) ≤ p → p < 16 * g + k →
      ¬ Matches b p goal len) :
    search rd mfmlim mfmnext mfmbskip goal len maxsrch = (true, g, k) := by
  have hsearch := @search_spec rd mfmlim goal len maxsrch mfmnext mfmbskip hle hs
  have hlast : searchEnd mfmlim (searchStart mfmlim mfmnext mfmbskip) maxsrch ≤ mfmlim := by
    rw [searchEnd]
    split_ifs <;> omega
  obtain ⟨hzeros, hstop⟩ := hm.stop h hlast hlen hfill hhead hend
  obtain ⟨hfound, hbefore⟩ := hsearch.first g k hstart (by omega) hzeros hstop
  obtain ⟨hafter, -, heq⟩ := hsearch.found hfound
  have hskip := hsearch.skip
  obtain ⟨-, hmatch⟩ := (h.checkeq hskip hlast (by omega) hfill).mp heq
  generalize search rd mfmlim mfmnext mfmbskip goal len maxsrch = r at *
  obtain ⟨ok, f', k'⟩ := r
  dsimp only at *
  have hk := hm.skip
  have hnot : ¬ 16 * f' + k' < 16 * g + k := fun hlt =>
    hfirst _ (by omega) hlt hmatch
  obtain rfl : f' = g := by omega
  obtain rfl | hlt : k' = k ∨ k < k' := by omega
  · rw [hfound]
  · obtain ⟨i, hi, hne⟩ := hdist (k' - k) (by omega) (by omega)
    refine absurd ?_ hne
    rw [← hm.mark _ (by omega), ← hmatch i (by omega)]
    congr 1
    omega

end

/-! ### A sector in a read -/

/-- The words of a sector up to the end of its data. -/
abbrev DATAEND : ℕ := 574

/-- The first `n` words are in a read, from bit `k` of the word `f` on. -/
def WordsAt (rd : ℕ → BitVec 16) (f k n : ℕ) (ws : List (BitVec 16)) : Prop :=
  ∀ t < 16 * n, ofWords rd (16 * f + k + t) = clockedBit ws t

theorem clockedBit_word {ws : List (BitVec 16)} {j r : ℕ} {w : BitVec 16} (hr : r < 16)
    (hw : ws[j]? = some w) : clockedBit ws (16 * j + r) = (clocked w ws[j + 1]?).getMsbD r := by
  rw [clockedBit, ofWords_apply _ _ hr, List.getD_eq_getElem?_getD, hw, Option.getD_some]

/-- The bits of words among others; the last clock bit depends on what follows. -/
theorem clockedBit_append {pre l post : List (BitVec 16)} {o : ℕ} (ho : pre.length = o) {t : ℕ}
    (ht : t + 1 < 16 * l.length) :
    clockedBit (pre ++ (l ++ post)) (16 * o + t) = clockedBit l t := by
  obtain ⟨j, r, hr, rfl⟩ : ∃ j r, r < 16 ∧ t = 16 * j + r :=
    ⟨t / 16, t % 16, Nat.mod_lt _ (by decide), (Nat.div_add_mod t 16).symm⟩
  have hj : j < l.length := by omega
  have hl : l[j]? = some l[j] := List.getElem?_eq_getElem hj
  have hword : (pre ++ (l ++ post))[o + j]? = some l[j] := by
    rw [getElem?_rest ho, List.getElem?_append_left hj, hl]
  have hpos : 16 * o + (16 * j + r) = 16 * (o + j) + r := by omega
  rw [hpos, clockedBit_word hr hword, clockedBit_word hr hl]
  rcases Nat.lt_or_ge (j + 1) l.length with hnext | hlast
  · rw [Nat.add_assoc, getElem?_rest ho, List.getElem?_append_left hnext]
  · rw [clocked_getMsbD _ _ (by omega), clocked_getMsbD _ _ (by omega)]

section
variable {rd : ℕ → BitVec 16} {f k n o mfmlim : ℕ} {pre l post : List (BitVec 16)}

theorem WordsAt.bits (h : WordsAt rd f k n (pre ++ (l ++ post))) (ho : pre.length = o)
    (hn : o + l.length ≤ n) {t : ℕ} (ht : t + 1 < 16 * l.length) :
    ofWords rd (16 * (f + o) + k + t) = clockedBit l t := by
  rw [← clockedBit_append ho ht, ← h _ (by omega)]
  congr 1
  omega

/-- Words are decoded, whatever follows them. -/
theorem WordsAt.demword (h : WordsAt rd f k n (pre ++ (l ++ post))) (ho : pre.length = o)
    (hn : o + l.length ≤ n) (hk : k < 16) (hlim : f + n + (if k = 0 then 0 else 1) ≤ mfmlim) :
    (List.range l.length).map (fun i => Msdos.demword (skipped rd k (f + o + i))) =
      l.map Msdos.demword := by
  refine List.ext_getElem (by rw [List.length_map, List.length_range, List.length_map])
    fun i hi hi' => ?_
  rw [List.length_map] at hi'
  have hreads : Reads rd (ofWords rd) mfmlim := fun j _ => at_ofWords rd j
  have hroom : f + o + i < mfmlim := by split_ifs at hlim <;> omega
  have hat := hreads.skipped hk hroom fun hne => by
    rw [if_neg hne] at hlim
    omega
  have hword : (pre ++ (l ++ post))[o + i]? = some l[i] := by
    rw [getElem?_rest ho, List.getElem?_append_left hi', List.getElem?_eq_getElem hi']
  have hmem : At (ofWords rd) (16 * (f + o + i) + k)
      (clocked l[i] (pre ++ (l ++ post))[o + i + 1]?) := fun r hr => by
    rw [← clockedBit_word hr hword, ← h _ (by omega)]
    congr 1
    omega
  rw [List.getElem_map, List.getElem_map, List.getElem_range, ← hat.window, hmem.window,
    demword_clocked]

/-- The mark behind a lead is found. -/
theorem WordsAt.markAt (h : WordsAt rd f k n (pre ++ (l ++ post))) (ho : pre.length = o)
    (hn : o + l.length ≤ n) (hk : k < 16) {goal : List (BitVec 16)} {len m : ℕ}
    (hl : LeadsTo l goal len m) (hm : 2 ≤ m) (hlen : 16 * m + len < 16 * l.length) :
    MarkAt (ofWords rd) (f + o + m) k goal len where
  skip := hk
  word := by omega
  mark i hi := by
    rw [← hl.mark i hi, ← h.bits ho hn (by omega)]
    congr 1
    omega
  zeros i hpos hi := by
    rw [← hl.zeros i hi hpos, ← h.bits ho hn (by omega)]
    congr 1
    omega

theorem WordsAt.first (h : WordsAt rd f k n (pre ++ (l ++ post))) (ho : pre.length = o)
    (hn : o + l.length ≤ n) {goal : List (BitVec 16)} {len m : ℕ} (hl : LeadsTo l goal len m)
    (hlen : 16 * m + len < 16 * l.length) {p : ℕ} (hp : 16 * (f + o) + k ≤ p)
    (hlt : p < 16 * (f + o + m) + k) : ¬ Matches (ofWords rd) p goal len := by
  intro hmatch
  refine hl.first (p - (16 * (f + o) + k)) (by omega) fun i hi => ?_
  rw [← hmatch i hi, ← h.bits ho hn (by omega)]
  congr 1
  omega

variable {cyl head sec : ℕ} {data : List Byte} {mfmnext mfmbskip : ℕ}

theorem demword_ida : (idamagic ++ (tail (ida cyl head sec)).map mtab).map demword =
    fullIda cyl head sec := by
  have hmagic : idamagic.map demword = [0xA1, 0xA1, 0xA1, 0xFE] := by decide
  have hid : demword ∘ mtab = id := funext demword_mtab
  rw [List.map_append, hmagic, List.map_map, hid, List.map_id]
  rfl

theorem demword_dda : (damagic ++ (tail (da data)).map mtab).map demword = fullDa data := by
  have hmagic : damagic.map demword = [0xA1, 0xA1, 0xA1, 0xFB] := by decide
  have hid : demword ∘ mtab = id := funext demword_mtab
  rw [List.map_append, hmagic, List.map_map, hid, List.map_id]
  rfl

/-- The mark and the bytes of an id are found from its sync on. -/
theorem findidam_sector (h : WordsAt rd f k DATAEND (sectorWords cyl head sec data)) (hk : k < 16)
    (hlim : f + DATAEND + (if k = 0 then 0 else 1) ≤ mfmlim) (hs : mfmbskip < 16)
    (hle : f ≤ mfmnext) (hge : mfmnext ≤ f + 9) {fuel : ℕ} (hfuel : 0 < fuel) :
    findidam rd mfmlim fuel mfmnext mfmbskip =
      some (fullIda cyl head sec, f + 22 + (if k = 0 then 0 else 1), k) := by
  obtain ⟨fuel, rfl⟩ : ∃ n, fuel = n + 1 := ⟨fuel - 1, by omega⟩
  unfold DATAEND at h hlim
  have hroom : f + 574 ≤ mfmlim := by omega
  have hreads : Reads rd (ofWords rd) mfmlim := fun j _ => at_ofWords rd j
  have hlead : sectorWords cyl head sec data = [] ++ (idLead ++ _) :=
    (List.append_assoc (List.replicate 12 (mtab 0x00)) idamagic _).symm
  have hfield : sectorWords cyl head sec data =
      List.replicate 12 (mtab 0x00) ++ ((idamagic ++ (tail (ida cyl head sec)).map mtab) ++ _) :=
    congrArg (List.replicate 12 (mtab 0x00) ++ ·)
      (List.append_assoc idamagic ((tail (ida cyl head sec)).map mtab) _).symm
  have hstart : mfmnext ≤ searchStart mfmlim mfmnext mfmbskip ∧
      searchStart mfmlim mfmnext mfmbskip ≤ mfmnext + 1 := by
    rw [searchStart]
    split_ifs <;> omega
  have hend : searchEnd mfmlim (searchStart mfmlim mfmnext mfmbskip) 0 = mfmlim :=
    if_neg fun h => h.1 rfl
  have hsearch : search rd mfmlim mfmnext mfmbskip iam IAMLEN 0 = (true, f + 12, k) := by
    have h' := hlead ▸ h
    have hmark := h'.markAt rfl (by decide) hk leads.1 (by decide) (by decide)
    refine search_eq hreads hs (by omega) hmark (by decide) iam_filled iam_head marks_distinct.1
      (by omega) ?_ fun p hp hlt => ?_
    · rw [hend]
      unfold IAMLEN
      omega
    · exact h'.first (o := 0) rfl (by decide) leads.1 (by decide) (by omega) hlt
  have hlen : (idamagic ++ (tail (ida cyl head sec)).map mtab).length = 10 := rfl
  have hbytes := (hfield ▸ h).demword (o := 12) rfl (by rw [hlen]; decide) hk hlim
  rw [demword_ida, hlen] at hbytes
  have hdemfm : demfm rd mfmlim (f + 12) k 10 =
      some (fullIda cyl head sec, f + 12 + 10 + (if k = 0 then 0 else 1)) :=
    demfm_eq hbytes (by omega) (by decide)
  unfold findidam
  dsimp only
  rw [hsearch, if_pos rfl, hdemfm]
  exact if_pos (crc_fullIda _ _ _)

/-- After the id the data of the sector is found. -/
theorem findddam_sector (h : WordsAt rd f k DATAEND (sectorWords cyl head sec data)) (hk : k < 16)
    (hdata : data.length = BPSEC) (hlim : f + DATAEND + (if k = 0 then 0 else 1) ≤ mfmlim) :
    findddam rd mfmlim (f + 22 + (if k = 0 then 0 else 1)) k =
      (some (fullDa data), f + DATAEND + (if k = 0 then 0 else 1), k) := by
  unfold DATAEND at h hlim ⊢
  have hreads : Reads rd (ofWords rd) mfmlim := fun j _ => at_ofWords rd j
  have hlead : sectorWords cyl head sec data = (List.replicate 12 (mtab 0x00) ++
      (idamagic ++ (tail (ida cyl head sec)).map mtab)) ++ (daLead ++
        ((tail (da data)).map mtab ++ List.replicate 80 (mtab 0x4E))) := by
    simp only [sectorWords, daLead, List.append_assoc]
  have hfield : sectorWords cyl head sec data = (List.replicate 12 (mtab 0x00) ++
      (idamagic ++ ((tail (ida cyl head sec)).map mtab ++ (List.replicate 22 (mtab 0x4E) ++
        List.replicate 12 (mtab 0x00))))) ++ ((damagic ++ (tail (da data)).map mtab) ++
          List.replicate 80 (mtab 0x4E)) := by
    simp only [sectorWords, List.append_assoc]
  obtain ⟨next, hnext⟩ : ∃ next, next = f + 22 + (if k = 0 then 0 else 1) := ⟨_, rfl⟩
  rw [← hnext]
  have hnext' : next ≤ mfmlim ∧ f + 22 ≤ next ∧ next ≤ f + 23 ∧ (k ≠ 0 → next = f + 23) ∧
      f + 574 ≤ mfmlim := by
    split_ifs at hlim hnext <;> omega
  have hstart : next ≤ searchStart mfmlim next k ∧ searchStart mfmlim next k ≤ next + 1 := by
    rw [searchStart]
    split_ifs <;> omega
  have hend : f + 122 ≤ searchEnd mfmlim (searchStart mfmlim next k) MAXITOD := by
    rw [searchEnd]
    unfold MAXITOD
    split_ifs <;> omega
  have hsearch : search rd mfmlim next k dam DAMLEN MAXITOD = (true, f + 56, k) := by
    have h' := hlead ▸ h
    have hmark := h'.markAt (o := 22) rfl (by decide) hk leads.2 (by decide) (by decide)
    refine search_eq hreads hk hnext'.1 hmark (by decide) dam_filled dam_head marks_distinct.2
      (by omega) ?_ fun p hp hlt => ?_
    · unfold DAMLEN
      omega
    · exact h'.first (o := 22) rfl (by decide) leads.2 (by decide) (by omega) hlt
  have hlen : (damagic ++ (tail (da data)).map mtab).length = 518 := by
    rw [List.length_append, List.length_map, tail_length, da, List.length_append, hdata]
    rfl
  have hbytes := (hfield ▸ h).demword (o := 56) rfl (by rw [hlen]) hk hlim
  rw [demword_dda, hlen] at hbytes
  have hdemfm : demfm rd mfmlim (f + 56) k 518 =
      some (fullDa data, f + 56 + 518 + (if k = 0 then 0 else 1)) :=
    demfm_eq hbytes (by omega) (by decide)
  unfold findddam
  dsimp only
  rw [hsearch, if_pos rfl, hdemfm]
  exact if_pos (crc_fullDa _)

end

/-- What `dosec` leaves in the buffer. -/
theorem wordsAt_dosec {s : MfmBuf} (hs : 0 < s.pos) {cyl head sec : ℕ} {data : List Byte}
    (hdata : data.length = BPSEC) {rd : ℕ → BitVec 16} {f k : ℕ}
    (hrd : ∀ i < 16 * DATAEND, ofWords rd (16 * f + k + i) =
      ofWords (s.dosec cyl head sec data).mem (16 * s.pos + i)) :
    WordsAt rd f k DATAEND (sectorWords cyl head sec data) := by
  have hlen : (sectorWords cyl head sec data).length = SECWORDS := by
    refine sectorWords_length _ _ _ ?_
    rw [da, List.length_append, hdata]
    rfl
  have hwrote := MfmBuf.puts_wrote hs (sectorWords cyl head sec data)
  rw [← MfmBuf.dosec_eq cyl head sec data hs] at hwrote
  intro t ht
  obtain ⟨j, r, hr, rfl⟩ : ∃ j r, r < 16 ∧ t = 16 * j + r :=
    ⟨t / 16, t % 16, Nat.mod_lt _ (by decide), (Nat.div_add_mod t 16).symm⟩
  have hj : j < (sectorWords cyl head sec data).length := by
    rw [hlen]
    unfold DATAEND at ht
    unfold SECWORDS
    omega
  have hword := List.getElem?_eq_getElem hj
  have hpos : 16 * s.pos + (16 * j + r) = 16 * (s.pos + j) + r := by omega
  rw [hrd _ ht, hpos, ofWords_apply _ _ hr, hwrote.words j _ hword, clockedBit_word hr hword]

/-- `crc` is the bit-serial check started at 0xFFFF, and zero of a sequence with its own check
behind it. Wherever a raw read has what `dosec` wrote, from any bit on, `findidam` called in
the zeros before the id accepts the id, and `findddam` after it the data. -/
theorem crc_serial :
    (∀ bytes, crcWord bytes = serial polynomial 0xFFFF (serialBits bytes)) ∧
    (∀ bytes, crcWord (bytes ++ bigEndian (crcWord bytes)) = 0) ∧
    ∀ (s : MfmBuf) (cyl head sec : ℕ) (data : List Byte) (rd : ℕ → BitVec 16) (mfmlim f k : ℕ),
      0 < s.pos → data.length = BPSEC → k < 16 →
      f + DATAEND + (if k = 0 then 0 else 1) ≤ mfmlim →
      (∀ i < 16 * DATAEND, ofWords rd (16 * f + k + i) =
        ofWords (s.dosec cyl head sec data).mem (16 * s.pos + i)) →
      ∀ mfmnext mfmbskip fuel : ℕ, f ≤ mfmnext → mfmnext ≤ f + 9 → mfmbskip < 16 → 0 < fuel →
        ∃ next next', findidam rd mfmlim fuel mfmnext mfmbskip =
            some (fullIda cyl head sec, next, k) ∧
          findddam rd mfmlim next k = (some (fullDa data), next', k) := by
  refine ⟨crcWord_serial, crcWord_append, ?_⟩
  intro s cyl head sec data rd mfmlim f k hs hdata hk hlim hrd mfmnext mfmbskip fuel hle hge
    hskip hfuel
  have hwords := wordsAt_dosec hs hdata hrd
  exact ⟨_, _, findidam_sector hwords hk hlim hskip hle hge hfuel,
    findddam_sector hwords hk hdata hlim⟩

/-- A sector that is read where it was written. -/
theorem crc_serial_zeros : ∃ next next',
    findidam (MfmBuf.dosec 0 0 1 (List.replicate 512 0) ⟨fun _ => 0, 1⟩).mem 656 1 1 0 =
        some (fullIda 0 0 1, next, 0) ∧
      findddam (MfmBuf.dosec 0 0 1 (List.replicate 512 0) ⟨fun _ => 0, 1⟩).mem 656 next 0 =
        (some (fullDa (List.replicate 512 0)), next', 0) :=
  crc_serial.2.2 ⟨fun _ => 0, 1⟩ 0 0 1 (List.replicate 512 0) _ 656 1 0 Nat.one_pos
    List.length_replicate (by decide) (by decide) (fun _ _ => rfl) 1 0 1 (by decide) (by decide)
    (by decide) Nat.one_pos

end HydraAmix.Floppy.Msdos
