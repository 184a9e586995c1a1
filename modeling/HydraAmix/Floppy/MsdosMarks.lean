import HydraAmix.Floppy.MsdosTrack

/-!
# MS-DOS tracks: address marks on the disk

The disk holds the end of what was written, as much of it as fits, and filler
elsewhere. In what was written a clock bit stands at every odd position, and
the clock rule is broken in the marks only; so an address mark that does not
touch the filler is the mark of a sector. Where no filler is left the end of
the last gap meets the gap before the track.
-/
namespace HydraAmix.Floppy.Msdos
open Word BitStream

/-- The arrays of `findidam` and `findddam`, and how many bits of them count. -/
def iam : List (BitVec 16) := [0x8912, 0x8912, 0x8912, 0xAAA8]
def dam : List (BitVec 16) := [0x8912, 0x8912, 0x8912, 0xAA80]
abbrev IAMLEN : ℕ := 63
abbrev DAMLEN : ℕ := 59

/-- A bit of an array. -/
def goalBit (goal : List (BitVec 16)) (i : ℕ) : Bool := ofWords (fun k => goal.getD k 0) i

/-- The first bits of an array are found at a position. -/
def Matches (b : ℕ → Bool) (t : ℕ) (goal : List (BitVec 16)) (len : ℕ) : Prop :=
  ∀ i < len, b (t + i) = goalBit goal i

/-- The clock rule is broken in the marks, in the middle of three words each. -/
def Missing (d : Density) (t : ℕ) : Prop :=
  (∃ sec < d.nsec, ∃ k < 3, t = 16 * (d.idPos sec + k) + 8 ∨ t = 16 * (d.daPos sec + k) + 8) ∨
    ∃ k < 3, t = 16 * (d.iaPos + k) + 6

/-- What was written, bit by bit. -/
structure TrackBits (d : Density) (b : ℕ → Bool) : Prop where
  clocked : ∀ t, t % 2 = 0 → t + 2 < 16 * d.trkwlen → ¬ Missing d t → Clocked b t
  id : ∀ sec < d.nsec, Matches b (16 * d.idPos sec) iam IAMLEN
  da : ∀ sec < d.nsec, Matches b (16 * d.daPos sec) dam DAMLEN
  ia : ∀ k < 3, b (16 * (d.iaPos + k) - 2) = false ∧ b (16 * (d.iaPos + k + 1) + 2) = true
  zeros : ∀ sec < d.nsec, ∀ i, 0 < i → i ≤ 32 →
    b (16 * d.idPos sec - i) = (i % 2 == 1 && i != 1) ∧
      b (16 * d.daPos sec - i) = (i % 2 == 1 && i != 1)

/-! ### The bits written -/

theorem clocked_getMsbD (w : BitVec 16) (next : Option (BitVec 16)) {i : ℕ} (hi : i < 15) :
    (clocked w next).getMsbD i = w.getMsbD i := by
  have hone : ∀ i < 15, (1#16).getMsbD i = false := by decide
  rw [clocked.eq_def]
  split
  · rfl
  · split_ifs
    · rw [BitVec.getMsbD_or]
      exact (congrArg _ (hone i hi)).trans (Bool.or_false _)
    · rfl

theorem clocked_getMsbD_last {w : BitVec 16} (hw : w.getLsbD 0 = false) (w' : BitVec 16) :
    (clocked w (some w')).getMsbD 15 = joins w w' := by
  have hmsb : ∀ x : BitVec 16, x.getMsbD 15 = x.getLsbD 0 := fun x => by
    rw [BitVec.getMsbD_eq_getLsbD]
    rfl
  rw [hmsb, clocked]
  split_ifs with h
  · rw [BitVec.getLsbD_or, hw, h]
    rfl
  · rw [hw, Bool.eq_false_iff.mpr h]

theorem WordAt.even {d : Density} {j : ℕ} {w : BitVec 16} (h : WordAt d j w) :
    w.getLsbD 0 = false := by
  have hmagic : ∀ {magic : List (BitVec 16)} {k : ℕ}, (magic.all fun w => !w.getLsbD 0) = true →
      magic[k]? = some w → w.getLsbD 0 = false := fun hall h =>
    (Bool.not_eq_true' _).mp (List.all_eq_true.mp hall w (List.mem_of_getElem? h))
  cases h with
  | byte ch h => rw [h, (MfmBuf.mtab_ends ch).1]
  | ia k hk hj h => exact hmagic (by decide) h
  | id sec k hsec hk hj h => exact hmagic (by decide) h
  | da sec k hsec hk hj h => exact hmagic (by decide) h

/-- The clock rule within a byte's word. -/
theorem mtab_clocked : ∀ ch : Byte, ∀ i < 7, ((mtab ch).getMsbD (2 * i) ||
    (mtab ch).getMsbD (2 * i + 1) || (mtab ch).getMsbD (2 * i + 2)) = true := by decide +kernel

/-- The clock rule within a mark's word, but for one place in each of the first three. -/
def KeepsClock (magic : List (BitVec 16)) (miss : ℕ) : Prop :=
  ∀ k < 4, ∀ i < 7, (k < 3 → i ≠ miss) → ((magic.getD k 0).getMsbD (2 * i) ||
    (magic.getD k 0).getMsbD (2 * i + 1) || (magic.getD k 0).getMsbD (2 * i + 2)) = true

theorem iamagic_clocked : KeepsClock iamagic 3 := by unfold KeepsClock; decide
theorem idamagic_clocked : KeepsClock idamagic 4 := by unfold KeepsClock; decide
theorem damagic_clocked : KeepsClock damagic 4 := by unfold KeepsClock; decide

theorem WordAt.clocked {d : Density} {j : ℕ} {w : BitVec 16} (h : WordAt d j w) {i : ℕ} (hi : i < 7)
    (hmiss : ¬ Missing d (16 * j + 2 * i)) :
    (w.getMsbD (2 * i) || w.getMsbD (2 * i + 1) || w.getMsbD (2 * i + 2)) = true := by
  have hget : ∀ {magic : List (BitVec 16)} {k : ℕ}, magic[k]? = some w → magic.getD k 0 = w :=
    fun h => by rw [List.getD_eq_getElem?_getD, h, Option.getD_some]
  cases h with
  | byte ch h =>
      rw [h]
      exact mtab_clocked ch i hi
  | ia k hk hj h =>
      have := iamagic_clocked k hk i hi fun hk₃ hi₃ => hmiss (.inr ⟨k, hk₃, by rw [hj, hi₃]⟩)
      rwa [hget h] at this
  | id sec k hsec hk hj h =>
      have := idamagic_clocked k hk i hi fun hk₃ hi₄ =>
        hmiss (.inl ⟨sec, hsec, k, hk₃, .inl (by rw [hj, hi₄])⟩)
      rwa [hget h] at this
  | da sec k hsec hk hj h =>
      have := damagic_clocked k hk i hi fun hk₃ hi₄ =>
        hmiss (.inl ⟨sec, hsec, k, hk₃, .inr (by rw [hj, hi₄])⟩)
      rwa [hget h] at this

section
variable {d : Density} {track : ℕ} {buffer : ℕ → Byte} {mem : ℕ → BitVec 16}

/-- The written words are in memory. -/
def Written (d : Density) (track : ℕ) (buffer : ℕ → Byte) (mem : ℕ → BitVec 16) : Prop :=
  ∀ (j : ℕ) (w : BitVec 16), (words d track buffer)[j]? = some w →
    mem j = clocked w (words d track buffer)[j + 1]?

theorem encode_written (d : Density) (track : ℕ) (buffer : ℕ → Byte) (trkbuf : ℕ → BitVec 16) :
    Written d track buffer fun j => MfmBuf.encode d track buffer trkbuf (j + 1) :=
  fun j w h => encode_words d track buffer trkbuf j w h

theorem Written.bit (h : Written d track buffer mem) {j : ℕ} {w : BitVec 16}
    (hw : (words d track buffer)[j]? = some w) {i : ℕ} (hi : i < 15) :
    ofWords mem (16 * j + i) = w.getMsbD i := by
  rw [ofWords_apply mem j (by omega), h j w hw, clocked_getMsbD w _ hi]

theorem Written.last (h : Written d track buffer mem) {j : ℕ} {w w' : BitVec 16}
    (hw : (words d track buffer)[j]? = some w) (hw' : (words d track buffer)[j + 1]? = some w') :
    ofWords mem (16 * j + 15) = joins w w' := by
  obtain ⟨x, hx, hat⟩ := @words_at d track buffer j (by
    rw [← words_length d track buffer]
    exact (List.getElem?_eq_some_iff.mp hw).1)
  obtain rfl : w = x := Option.some.inj (hw.symm.trans hx)
  rw [ofWords_apply mem j (by decide), h j w hw, hw', clocked_getMsbD_last hat.even]

theorem Written.clocked (h : Written d track buffer mem) {t : ℕ} (heven : t % 2 = 0)
    (ht : t + 2 < 16 * d.trkwlen) (hmiss : ¬ Missing d t) : Clocked (ofWords mem) t := by
  obtain ⟨j, i, hi, rfl⟩ : ∃ j i, i < 8 ∧ t = 16 * j + 2 * i :=
    ⟨t / 16, t % 16 / 2, by omega, by omega⟩
  obtain ⟨w, hw, hat⟩ := @words_at d track buffer j (by omega)
  rcases Nat.lt_or_ge i 7 with hlt | hge
  · have := hat.clocked hlt hmiss
    rw [← h.bit hw (by omega), ← h.bit hw (by omega), ← h.bit hw (by omega), Bool.or_eq_true,
      Bool.or_eq_true, or_assoc] at this
    exact this
  · -- the last clock bit of a word
    obtain rfl : i = 7 := by omega
    obtain ⟨w', hw', -⟩ := @words_at d track buffer (j + 1) (by omega)
    have h₁ := h.bit hw (by decide : 14 < 15)
    have h₂ := h.last hw hw'
    have h₃ := h.bit hw' (by decide : 0 < 15)
    have hmsb : w.getMsbD 14 = w.getLsbD 1 ∧ w'.getMsbD 0 = w'.getLsbD 15 := by
      rw [BitVec.getMsbD_eq_getLsbD, BitVec.getMsbD_eq_getLsbD]
      exact ⟨rfl, rfl⟩
    have hp : 16 * j + 2 * 7 + 2 = 16 * (j + 1) + 0 := by omega
    rw [Clocked, hp, h₃, h₁, show 16 * j + 2 * 7 + 1 = 16 * j + 15 from rfl, h₂, hmsb.1, hmsb.2,
      joins]
    cases w.getLsbD 1 <;> cases w'.getLsbD 15 <;> simp

/-- A mark in the words, as far as an array agrees with it. -/
theorem Written.mark (h : Written d track buffer mem) {p len : ℕ} {magic goal : List (BitVec 16)}
    (hmem : ∀ k < 4, (words d track buffer)[p + k]? = magic[k]?) (hlen : len ≤ 63)
    (hmagic : magic.length = 4) (hgoal : ∀ i < 63, i < len → goalBit goal i =
      if i % 16 = 15 then joins (magic.getD (i / 16) 0) (magic.getD (i / 16 + 1) 0)
      else (magic.getD (i / 16) 0).getMsbD (i % 16)) : Matches (ofWords mem) (16 * p) goal len := by
  intro i hi
  have hword : ∀ k < 4, (words d track buffer)[p + k]? = some (magic.getD k 0) := fun k hk => by
    rw [hmem k hk, List.getD_eq_getElem?_getD, List.getElem?_eq_getElem (by omega),
      Option.getD_some]
  have hp : 16 * p + i = 16 * (p + i / 16) + i % 16 := by omega
  rw [hgoal i (by omega) hi, hp]
  split_ifs with hlast
  · rw [hlast, h.last (hword _ (by omega)) (by rw [Nat.add_assoc]; exact hword _ (by omega))]
  · rw [h.bit (hword _ (by omega)) (by omega)]

theorem Written.zeros (h : Written d track buffer mem) {p : ℕ} {w : BitVec 16} (hp : 2 ≤ p)
    (h₁ : (words d track buffer)[p - 1]? = some (mtab 0x00))
    (h₂ : (words d track buffer)[p - 2]? = some (mtab 0x00))
    (hw : (words d track buffer)[p]? = some w) (htop : w.getLsbD 15 = true) {i : ℕ} (hpos : 0 < i)
    (hi : i ≤ 32) : ofWords mem (16 * p - i) = (i % 2 == 1 && i != 1) := by
  have hbits : ∀ r < 15, (mtab 0x00).getMsbD r = ((16 - r) % 2 == 1 && 16 - r != 1) ∧
      (mtab 0x00).getMsbD r = ((32 - r) % 2 == 1 && 32 - r != 1) := by decide
  rcases Nat.lt_or_ge 16 i with hlt | hge
  · rcases Nat.eq_or_lt_of_le (Nat.succ_le_of_lt hlt) with rfl | hlt
    · have hpos' : 16 * p - 17 = 16 * (p - 2) + 15 := by omega
      have hnext : p - 2 + 1 = p - 1 := by omega
      rw [hpos', h.last h₂ (hnext ▸ h₁)]
      decide
    · obtain ⟨r, hr, rfl⟩ : ∃ r, r < 15 ∧ i = 32 - r := ⟨32 - i, by omega, by omega⟩
      have hpos' : 16 * p - (32 - r) = 16 * (p - 2) + r := by omega
      rw [hpos', h.bit h₂ hr, (hbits r hr).2]
  · rcases Nat.eq_or_lt_of_le (Nat.succ_le_of_lt hpos) with rfl | hlt
    · have hpos' : 16 * p - 1 = 16 * (p - 1) + 15 := by omega
      have hnext : p - 1 + 1 = p := by omega
      rw [hpos', h.last h₁ (hnext.symm ▸ hw), joins, htop, Bool.not_true, Bool.and_false]
      rfl
    · obtain ⟨r, hr, rfl⟩ : ∃ r, r < 15 ∧ i = 16 - r := ⟨16 - i, by omega, by omega⟩
      have hpos' : 16 * p - (16 - r) = 16 * (p - 1) + r := by omega
      rw [hpos', h.bit h₁ hr, (hbits r hr).1]

theorem Written.bits (h : Written d track buffer mem) : TrackBits d (ofWords mem) where
  clocked t heven ht hmiss := h.clocked heven ht hmiss
  id sec hsec := h.mark (fun _ hk => words_id hsec hk) (Nat.le_refl 63) rfl (by decide)
  da sec hsec := h.mark (fun _ hk => words_da hsec hk) (by decide) rfl (by decide)
  ia k hk := by
    have hpos : d.iaPos = d.lead + 80 + 11 + 1 := rfl
    have hia : ∀ {k : ℕ}, k < 4 → (words d track buffer)[d.iaPos + k]? = some (iamagic.getD k 0) :=
      fun {k} hk => by
        rw [words_ia hk, List.getD_eq_getElem?_getD,
          List.getElem?_eq_getElem (by rwa [iamagic_length]), Option.getD_some]
    have hbits : ∀ k < 4, (iamagic.getD k 0).getMsbD 14 = false ∨ k = 3 := by decide
    have htwo : ∀ k < 4, (iamagic.getD k 0).getMsbD 2 = true := by decide
    refine ⟨?_, ?_⟩
    · cases k with
      | zero =>
          have hp : 16 * (d.iaPos + 0) - 2 = 16 * (d.lead + 80 + 11) + 14 := by omega
          rw [hp, h.bit (words_ia_sync (by decide)) (by decide)]
          decide
      | succ k =>
          have hp : 16 * (d.iaPos + (k + 1)) - 2 = 16 * (d.iaPos + k) + 14 := by omega
          rw [hp, h.bit (hia (by omega)) (by decide)]
          exact (hbits k (by omega)).resolve_right (by omega)
    · rw [Nat.add_assoc, h.bit (hia (by omega)) (by decide), htwo _ (by omega)]
  zeros sec hsec i hpos hi := by
    have hid : d.idPos sec = d.secPos sec + 12 := rfl
    have hda : d.daPos sec = d.idPos sec + 4 + 40 := rfl
    constructor
    · have h₁ := @words_sync d track buffer sec hsec 11 (by decide)
      have h₂ := @words_sync d track buffer sec hsec 10 (by decide)
      exact h.zeros (by omega) h₁ h₂ (words_id hsec (by decide : 0 < 4)) (by decide) hpos hi
    · have h₁ := @words_between d track buffer sec hsec 39 (by decide)
      have h₂ := @words_between d track buffer sec hsec 38 (by decide)
      exact h.zeros (by omega) h₁ h₂ (words_da hsec (by decide : 0 < 4)) (by decide) hpos hi

end
/-! ### Marks on the disk -/

theorem Density.trkwlen_eq (d : Density) : d.trkwlen = d.lead + 146 + 654 * d.nsec := by
  cases d with
  | low => rfl
  | high => rfl

/-- The gap before the track is longer than what may not fit on the disk. -/
theorem Density.slack (d : Density) : 16 * d.trkwlen + 80 ≤ 8 * d.trkused + 16 * d.iaPos := by
  cases d with
  | low => decide
  | high => decide

theorem Density.used_le (d : Density) : 96224 ≤ 8 * d.trkused := by
  cases d with
  | low => decide
  | high => decide

/-- The arrays agree in the part that breaks the clock rule. -/
structure IsMark (goal : List (BitVec 16)) (len : ℕ) : Prop where
  len : 59 ≤ len
  even : ∀ i < 3, goalBit goal (16 * i + 8) = false ∧ goalBit goal (16 * i + 9) = false ∧
    goalBit goal (16 * i + 10) = false
  odd : ∀ i < 3, goalBit goal (16 * i + 1) = false ∧ goalBit goal (16 * i + 2) = false ∧
    goalBit goal (16 * i + 3) = false
  first : goalBit goal 0 = true
  shifted : goalBit goal 9 = false ∧ goalBit goal 13 = false

theorem iam_isMark : IsMark iam IAMLEN :=
  ⟨by decide, by decide, by decide, by decide, by decide⟩

theorem dam_isMark : IsMark dam DAMLEN :=
  ⟨by decide, by decide, by decide, by decide, by decide⟩

/-- Every word of a mark begins with a set bit. -/
theorem mark_words : ∀ k < 3, goalBit iam (16 * (k + 1)) = true ∧
    goalBit dam (16 * (k + 1)) = true := by decide

section
variable {d : Density} {b : ℕ → Bool} {goal : List (BitVec 16)} {len t : ℕ}

/-- Three zeros around a clock bit are where the clock rule is broken. -/
theorem TrackBits.missing (h : TrackBits d b) (heven : t % 2 = 0) (hend : t + 2 < 16 * d.trkwlen)
    (hz : b t = false ∧ b (t + 1) = false ∧ b (t + 2) = false) : Missing d t := by
  by_contra hno
  have hc := h.clocked t heven hend hno
  rw [Clocked, hz.1, hz.2.1, hz.2.2] at hc
  simp at hc

theorem Matches.missing (hm : Matches b t goal len) (h : TrackBits d b) {i : ℕ} (hi : i + 2 < len)
    (hz : goalBit goal i = false ∧ goalBit goal (i + 1) = false ∧ goalBit goal (i + 2) = false)
    (heven : (t + i) % 2 = 0) (hend : t + i + 2 < 16 * d.trkwlen) : Missing d (t + i) := by
  refine h.missing heven hend ?_
  rw [Nat.add_assoc, Nat.add_assoc, hm i (by omega), hm (i + 1) (by omega), hm (i + 2) hi]
  exact hz

/-- A mark in what was written is that of a sector. -/
theorem Matches.unique (hm : Matches b t goal len) (h : TrackBits d b) (hg : IsMark goal len)
    (hend : t + len ≤ 16 * d.trkwlen) :
    ∃ sec < d.nsec, t = 16 * d.idPos sec ∨ t = 16 * d.daPos sec := by
  have hlen := hg.len
  rcases Nat.mod_two_eq_zero_or_one t with heven | hodd
  · have h₀ := hm.missing h (by omega) (hg.even 0 (by decide)) (by omega) (by omega)
    have h₂ := hm.missing h (by omega) (hg.even 2 (by decide)) (by omega) (by omega)
    rcases h₀ with ⟨sec, hsec, k, hk, h₀⟩ | ⟨k, hk, h₀⟩
    · refine ⟨sec, hsec, ?_⟩
      rcases h₂ with ⟨sec', hsec', k', hk', h₂⟩ | ⟨k', hk', h₂⟩
      · simp only [Density.idPos, Density.daPos, Density.secPos, IAWORDS, SECWORDS] at h₀ h₂ ⊢
        omega
      · omega
    · exfalso
      have hb := hm 0 (by omega)
      have hp : t + 0 = 16 * (d.iaPos + k) - 2 := by omega
      rw [hp, (h.ia k hk).1, hg.first] at hb
      cases hb
  · exfalso
    have h₀ := hm.missing h (by omega) (hg.odd 0 (by decide)) (by omega) (by omega)
    rcases h₀ with ⟨sec, hsec, k, hk, h₀ | h₀⟩ | ⟨k, hk, h₀⟩
    · have hb := hm 9 (by omega)
      have hp : t + 9 = 16 * d.idPos sec + 16 * (k + 1) := by omega
      rw [hp, h.id sec hsec _ (by unfold IAMLEN; omega), (mark_words k hk).1, hg.shifted.1] at hb
      cases hb
    · have hb := hm 9 (by omega)
      have hp : t + 9 = 16 * d.daPos sec + 16 * (k + 1) := by omega
      rw [hp, h.da sec hsec _ (by unfold DAMLEN; omega), (mark_words k hk).2, hg.shifted.1] at hb
      cases hb
    · have hb := hm 13 (by omega)
      have hp : t + 13 = 16 * (d.iaPos + k + 1) + 2 := by omega
      rw [hp, (h.ia k hk).2, hg.shifted.2] at hb
      cases hb

/-- The disk: a circle of `n` bits with the last `m` bits written. -/
structure OnDisk (d : Density) (b : ℕ → Bool) (n m : ℕ) (c : ℕ → Bool) : Prop where
  used : 8 * d.trkused ≤ m
  fits : m ≤ n
  written : m ≤ 16 * d.trkwlen
  bits : ∀ k < m, c k = b (16 * d.trkwlen - m + k)
  iam : ∀ t, (∃ i < IAMLEN, m ≤ (t + i) % n) → ¬ Matches (fun t => c (t % n)) t iam IAMLEN
  dam : ∀ t, (∃ i < DAMLEN, m ≤ (t + i) % n) → ¬ Matches (fun t => c (t % n)) t dam DAMLEN

variable {n m : ℕ} {c : ℕ → Bool}

theorem OnDisk.bit (h : OnDisk d b n m c) {i : ℕ} (hi : t % n + i < m) :
    c ((t + i) % n) = b (16 * d.trkwlen - m + (t % n + i)) := by
  have hfits := h.fits
  have hmod : (t + i) % n = t % n + i := by
    rw [← Nat.mod_add_mod, Nat.mod_eq_of_lt (by omega)]
  rw [hmod, h.bits _ hi]

/-- A mark on the disk that does not touch the filler is that of a sector. -/
theorem OnDisk.unique (h : OnDisk d b n m c) (hb : TrackBits d b) (hg : IsMark goal len)
    (hlen : len ≤ 63) (hm : Matches (fun t => c (t % n)) t goal len)
    (hfill : ¬ ∃ i < len, m ≤ (t + i) % n) : ∃ sec < d.nsec,
      16 * d.trkwlen - m + t % n = 16 * d.idPos sec ∨
        16 * d.trkwlen - m + t % n = 16 * d.daPos sec := by
  have hfits := h.fits
  have hused := h.used
  have hwritten := h.written
  have hlen' := hg.len
  have hslack := d.slack
  have hT := d.trkwlen_eq
  have hbig : 96224 ≤ m := Nat.le_trans d.used_le hused
  have htn := Nat.mod_lt t (by omega : 0 < n)
  rcases Nat.lt_or_ge m (t % n + len) with hwrap | hin
  · -- no filler is left, and the mark is where the end meets the beginning
    exfalso
    obtain rfl : m = n := by
      by_contra hne
      have hlt : t % n < m := by
        by_contra hge
        refine hfill ⟨0, by omega, ?_⟩
        rw [Nat.add_zero]
        omega
      refine hfill ⟨m - t % n, by omega, Nat.le_of_eq (Eq.symm ?_)⟩
      rw [← Nat.mod_add_mod, Nat.add_sub_cancel' (Nat.le_of_lt hlt), Nat.mod_eq_of_lt (by omega)]
    obtain ⟨x, hx⟩ : ∃ x, t % m + x = m := ⟨m - t % m, by omega⟩
    have hfirst : ∀ i < len, i < x → b (16 * d.trkwlen - x + i) = goalBit goal i :=
      fun i hi hix => by
        have hp : 16 * d.trkwlen - x + i = 16 * d.trkwlen - m + (t % m + i) := by omega
        rw [hp, ← h.bit (by omega), ← hm i hi]
    have hsecond : ∀ i < len, x ≤ i → b (16 * d.trkwlen - m + (i - x)) = goalBit goal i :=
      fun i hi hxi => by
        have hmod : (t + i) % m = i - x := by
          have hsum : t % m + i = m + (i - x) := by omega
          rw [← Nat.mod_add_mod, hsum, Nat.add_mod_left, Nat.mod_eq_of_lt (by omega)]
        rw [← h.bits _ (by omega), ← hm i hi]
        exact congrArg c hmod.symm
    have hend : ∀ s, 16 * d.trkwlen ≤ s + 63 → ¬ Missing d s := fun s hs hmiss => by
      simp only [Missing, Density.idPos, Density.daPos, Density.secPos, Density.iaPos, IAWORDS,
        SECWORDS] at hmiss
      omega
    have hbegin : ∀ s, s < 16 * d.trkwlen - m + 63 → ¬ Missing d s := fun s hs hmiss => by
      simp only [Missing, Density.idPos, Density.daPos, Density.secPos, Density.iaPos, IAWORDS,
        SECWORDS] at hmiss hslack
      omega
    rcases Nat.lt_or_ge x 12 with hlt | hge
    · rcases Nat.mod_two_eq_zero_or_one (16 * d.trkwlen - m + (24 - x)) with heven | hodd
      · refine hbegin _ (by omega) (hb.missing heven (by omega) ?_)
        have hz := hg.even 1 (by decide)
        have h₁ : 24 - x + 1 = 25 - x := by omega
        have h₂ : 24 - x + 2 = 26 - x := by omega
        rw [Nat.add_assoc, Nat.add_assoc, h₁, h₂, hsecond 24 (by omega) (by omega),
          hsecond 25 (by omega) (by omega), hsecond 26 (by omega) (by omega)]
        exact hz
      · have heven : (16 * d.trkwlen - m + (17 - x)) % 2 = 0 := by omega
        refine hbegin _ (by omega) (hb.missing heven (by omega) ?_)
        have hz := hg.odd 1 (by decide)
        have h₁ : 17 - x + 1 = 18 - x := by omega
        have h₂ : 17 - x + 2 = 19 - x := by omega
        rw [Nat.add_assoc, Nat.add_assoc, h₁, h₂, hsecond 17 (by omega) (by omega),
          hsecond 18 (by omega) (by omega), hsecond 19 (by omega) (by omega)]
        exact hz
    · rcases Nat.mod_two_eq_zero_or_one (16 * d.trkwlen - x + 8) with heven | hodd
      · refine hend _ (by omega) (hb.missing heven (by omega) ?_)
        rw [Nat.add_assoc, Nat.add_assoc, hfirst 8 (by omega) (by omega),
          hfirst _ (by omega) (by omega), hfirst _ (by omega) (by omega)]
        exact hg.even 0 (by decide)
      · have heven : (16 * d.trkwlen - x + 1) % 2 = 0 := by omega
        refine hend _ (by omega) (hb.missing heven (by omega) ?_)
        rw [Nat.add_assoc, Nat.add_assoc, hfirst 1 (by omega) (by omega),
          hfirst _ (by omega) (by omega), hfirst _ (by omega) (by omega)]
        exact hg.odd 0 (by decide)
  · have hm' : Matches b (16 * d.trkwlen - m + t % n) goal len := fun i hi => by
      rw [← hm i hi, Nat.add_assoc, ← h.bit (by omega)]
    exact hm'.unique hb hg (by omega)

end

end HydraAmix.Floppy.Msdos
