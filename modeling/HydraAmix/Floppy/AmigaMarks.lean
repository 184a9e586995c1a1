import HydraAmix.Floppy.AmigaFind

/-!
# Amiga tracks: sync marks on the disk

The track is written until its end meets its beginning, so the disk holds the
last bits of the buffer in a circle. In the bits of the buffer a clock bit
stands at every even position, and the clock rule is broken nowhere but in the
marks and in the last word; where the circle closes clock and data may change
places. No word of 32 bits but the marks themselves is a mark.
-/
namespace HydraAmix.Floppy.Amiga
open Word BitStream

/-- The bits of a track in the buffer, and the bit at which the mark of a
sector begins. -/
abbrev TRKBITS : ℕ := 109040

def markPos (sec : ℕ) : ℕ := 13312 + 8704 * sec

/-- What a track is, bit by bit. -/
structure TrackBits (b : ℕ → Bool) : Prop where
  slop : ∀ t < 13312, b t = (t % 2 == 0)
  zeros : ∀ sec < NSEC, ∀ i, 0 < i → i < 32 → b (markPos sec - 32 + i) = (i % 2 == 0)
  mark : ∀ sec < NSEC, At b (markPos sec) MARK
  clocked : ∀ t, t % 2 = 1 → t + 3 < TRKBITS →
    (∀ sec < NSEC, t ≠ markPos sec + 9 ∧ t ≠ markPos sec + 25) → Clocked b t
  last : ∀ i, 0 < i → i < 16 → b (TRKBITS - 16 + i) = (i % 2 == 0 && i != 14)

/-- The bits around a circle of `n` that was written to its end. -/
def onTrack (n : ℕ) (b : ℕ → Bool) (t : ℕ) : Bool := b (TRKBITS - n + t % n)

section
variable {n : ℕ} {b : ℕ → Bool}

theorem onTrack_of_lt {t i : ℕ} (h : t % n + i < n) :
    onTrack n b (t + i) = b (TRKBITS - n + t % n + i) := by
  rw [onTrack, Nat.add_mod, Nat.mod_eq_of_lt (Nat.lt_of_le_of_lt (Nat.le_add_left _ _) h),
    Nat.mod_eq_of_lt h, Nat.add_assoc]

theorem onTrack_of_wrap {t i k : ℕ} (h : t % n + i = n + k) (hk : k < n) :
    onTrack n b (t + i) = b (TRKBITS - n + k) := by
  have hmod : (t + i) % n = k := by
    rw [← Nat.mod_add_mod, h, Nat.add_mod_left, Nat.mod_eq_of_lt hk]
  rw [onTrack, hmod]

theorem Clocked.of_eq {b b' : ℕ → Bool} {t t' : ℕ} (h : Clocked b t)
    (heq : ∀ i < 3, b' (t' + i) = b (t + i)) : Clocked b' t' := by
  have h₀ := heq 0 (by decide)
  rw [Nat.add_zero, Nat.add_zero] at h₀
  rwa [Clocked, h₀, heq 1 (by decide), heq 2 (by decide)]

/-- Away from the marks the clock rule holds on the circle, too. -/
theorem TrackBits.onTrack_clocked (h : TrackBits b) {t i : ℕ} (hn : n ≤ TRKBITS)
    (hlt : t % n + i + 3 < n) (hodd : (TRKBITS - n + t % n + i) % 2 = 1)
    (hne : ∀ sec < NSEC, TRKBITS - n + t % n + i ≠ markPos sec + 9 ∧
      TRKBITS - n + t % n + i ≠ markPos sec + 25) : Clocked (onTrack n b) (t + i) := by
  refine Clocked.of_eq (h.clocked _ hodd (by omega) hne) fun j hj => ?_
  rw [Nat.add_assoc t i j, onTrack_of_lt (by omega), Nat.add_assoc _ i j]

/-- Every mark on the circle is the mark of a sector. -/
theorem TrackBits.mark_unique (h : TrackBits b) (hn : n ≤ TRKBITS) (hn' : 95760 ≤ n) {t : ℕ}
    (ht : At (onTrack n b) t MARK) : ∃ sec < NSEC, TRKBITS - n + t % n = markPos sec := by
  have hT : TRKBITS = 109040 := rfl
  have hS : NSEC = 11 := rfl
  have hlt := Nat.mod_lt t (by omega : 0 < n)
  generalize hu : TRKBITS - n + t % n = u
  have hbit : ∀ i < 32, t % n + i < n → b (u + i) = MARK.getMsbD i := fun i hi hin => by
    rw [← ht i hi, onTrack_of_lt hin, hu]
  -- the circle closes with slop
  have hwrap : ∀ i < 32, ∀ k < 3, t % n + i = n + k →
      MARK.getMsbD i = ((TRKBITS - n + k) % 2 == 0) := fun i hi k hk heq => by
    rw [← ht i hi, onTrack_of_wrap heq (by omega), h.slop _ (by omega)]
  -- a violation of the clock rule is at a mark
  have hzeros : ∀ i, i + 2 < 32 → MARK.getMsbD i = false ∧ MARK.getMsbD (i + 1) = false ∧
      MARK.getMsbD (i + 2) = false → t % n + i + 3 < n → (u + i) % 2 = 1 →
      ∃ sec < NSEC, u + i = markPos sec + 9 ∨ u + i = markPos sec + 25 :=
    fun i hi hz hin hodd => by
      by_contra hno
      refine ht.not_clocked hi hz (h.onTrack_clocked hn hin (hu ▸ hodd) fun sec hsec => ?_)
      rw [hu]
      exact ⟨fun he => hno ⟨sec, hsec, .inl he⟩, fun he => hno ⟨sec, hsec, .inr he⟩⟩
  have hlast : ∀ i < 32, ∀ j, 0 < j → j < 16 → u + i = TRKBITS - 16 + j →
      MARK.getMsbD i = (j % 2 == 0 && j != 14) := fun i hi j hj hj' heq => by
    rw [← hbit i hi (by omega), heq, h.last j hj hj']
  rcases Nat.mod_two_eq_zero_or_one u with heven | hodd
  · -- clock bits are where the mark has them
    by_cases hend : u + 12 < TRKBITS
    · obtain ⟨sec, hsec, he | he⟩ := hzeros 9 (by decide) (by decide) (by omega) (by omega)
      · exact ⟨sec, hsec, by omega⟩
      · obtain ⟨sec', hsec', he'⟩ := hzeros 25 (by decide) (by decide)
          (by simp only [markPos] at he; omega) (by omega)
        simp only [markPos] at he he'
        omega
    · exfalso
      obtain ⟨j, hj⟩ : ∃ j, u = TRKBITS - 16 + j := ⟨u - (TRKBITS - 16), by omega⟩
      by_cases hj14 : j = 14
      · have := hlast 1 (by decide) 15 (by decide) (by decide) (by omega)
        exact absurd this (by decide)
      · have := hlast 0 (by decide) j (by omega) (by omega) hj
        have hjeven : j % 2 = 0 := by omega
        simp only [hjeven, bne_iff_ne.mpr hj14] at this
        exact absurd this (by decide)
  · -- clock bits are where the mark has data bits
    exfalso
    by_cases hend : u + 5 < TRKBITS
    · obtain ⟨sec, hsec, he | he⟩ := hzeros 2 (by decide) (by decide) (by omega) (by omega)
      · have hb := hbit 10 (by decide) (by simp only [markPos] at he; omega)
        have heq : u + 10 = markPos sec + 17 := by omega
        rw [heq, h.mark sec hsec 17 (by decide)] at hb
        exact absurd hb (by decide)
      · obtain ⟨sec', hsec', he'⟩ := hzeros 18 (by decide) (by decide)
          (by simp only [markPos] at he; omega) (by omega)
        simp only [markPos] at he he'
        omega
    · -- the circle closes within the word
      have hcases : t % n = n - 5 ∨ t % n = n - 3 ∨ t % n = n - 1 := by omega
      rcases hcases with hc | hc | hc
      · have h₅ := hwrap 5 (by decide) 0 (by decide) (by omega)
        have h₇ := hwrap 7 (by decide) 2 (by decide) (by omega)
        rw [Nat.add_mod_right] at h₇
        exact absurd (h₅.trans h₇.symm) (by decide)
      · have := hlast 1 (by decide) 14 (by decide) (by decide) (by omega)
        exact absurd this (by decide)
      · have h₁ := hwrap 1 (by decide) 0 (by decide) (by omega)
        have h₃ := hwrap 3 (by decide) 2 (by decide) (by omega)
        rw [Nat.add_mod_right] at h₃
        exact absurd (h₁.trans h₃.symm) (by decide)

end

/-! ### The bits of the buffer -/

section
variable {track : ℕ} {buffer : ℕ → Long} {mem : ℕ → Long}

theorem getMsbD_eq (x : Long) {i : ℕ} (hi : i < 32) : x.getMsbD i = x.getLsbD (31 - i) := by
  rw [BitVec.getMsbD_eq_getLsbD, decide_eq_true hi, Bool.true_and]

/-- The word before another begins with a bit less. -/
theorem ofWords_pred (mem : ℕ → Long) {k : ℕ} (hk : 0 < k) :
    ofWords mem (32 * k - 1) = (mem (k - 1)).getMsbD 31 := by
  have h : 32 * k - 1 = 32 * (k - 1) + 31 := by omega
  rw [h, ofWords_apply mem (k - 1) (by decide)]

/-- An encoded longword keeps the clock rule, at its beginning with the help of
the longword before. -/
theorem clockIn_clockRule {k : ℕ} (hk : 0 < k) {n : Long} (hn : n &&& DMASK = n)
    (h : mem k = clockIn (mem (k - 1)) n) {i : ℕ} (hi : i < 32) (heven : i % 2 = 0) :
    ClockRule (ofWords mem) (32 * k + i - 1) := by
  have hmid : ofWords mem (32 * k + i) = (clockIn (mem (k - 1)) n).getLsbD (31 - i) := by
    rw [ofWords_apply mem k hi, h, getMsbD_eq _ hi]
  have hnext : ofWords mem (32 * k + i + 1) = n.getLsbD (31 - i - 1) := by
    rw [Nat.add_assoc, ofWords_apply mem k (by omega), h, getMsbD_eq _ (by omega), Nat.sub_add_eq,
      getLsbD_clockIn _ hn (by omega), if_pos (by omega)]
  rw [getLsbD_clockIn _ hn (by omega), if_neg (by omega)] at hmid
  have hp₁ : 32 * k + i - 1 + 1 = 32 * k + i := by omega
  have hp₂ : 32 * k + i - 1 + 2 = 32 * k + i + 1 := by omega
  rw [ClockRule, hp₁, hp₂, hmid, hnext]
  rcases Nat.eq_zero_or_pos i with rfl | hpos
  · have h32 : n.getLsbD (31 - 0 + 1) = false := BitVec.getLsbD_of_ge _ _ (Nat.le_refl _)
    rw [Nat.add_zero (32 * k), ofWords_pred mem hk, getMsbD_eq _ (by decide), h32]
    cases (mem (k - 1)).getLsbD 0 <;> cases n.getLsbD (31 - 0 - 1) <;> simp
  · have hprev : ofWords mem (32 * k + i - 1) = n.getLsbD (31 - i + 1) := by
      have hp : 32 * k + i - 1 = 32 * k + (i - 1) := by omega
      have hl : 31 - (i - 1) = 31 - i + 1 := by omega
      rw [hp, ofWords_apply mem k (by omega), h, getMsbD_eq _ (by omega), hl,
        getLsbD_clockIn _ hn (by omega), if_pos (by omega)]
    rw [hprev, beq_eq_false_iff_ne.mpr (by omega : 31 - i ≠ 31)]
    cases n.getLsbD (31 - i + 1) <;> cases n.getLsbD (31 - i - 1) <;> simp

theorem TrackAt.slop_all (h : TrackAt track buffer mem) {i : ℕ} (hi : i < 416) :
    mem i = 0xAAAAAAAA := by
  rcases Nat.lt_succ_iff_lt_or_eq.mp hi with hlt | rfl
  · exact h.slop i hlt
  · rw [show mem 415 = clockIn (mem 414) 0 from (h.sectors 0 (by decide)).zeros,
      h.slop 414 (by decide), clockIn_zero]
    decide

theorem TrackAt.slop_bit (h : TrackAt track buffer mem) {t : ℕ} (ht : t < 13312) :
    ofWords mem t = (t % 2 == 0) := by
  have hdecide : ∀ i < 32, (0xAAAAAAAA : Long).getMsbD i = (i % 2 == 0) := by decide
  rw [ofWords, h.slop_all (by omega), hdecide _ (Nat.mod_lt _ (by decide))]
  congr 1
  omega

/-- The two words before a mark are zeros, the first bit of all apart. -/
theorem zeros_bit (prev : Long) : ∀ i < 32, 0 < i →
    (clockIn prev 0).getMsbD i = (i % 2 == 0) := by
  intro i hi hpos
  rw [getMsbD_eq _ hi, getLsbD_clockIn prev (by decide) (by omega),
    beq_eq_false_iff_ne.mpr (by omega : 31 - i ≠ 31)]
  have hzero : ∀ j, (0 : Long).getLsbD j = false := fun j => BitVec.getLsbD_zero
  rw [hzero, hzero, hzero]
  split_ifs with hmod
  · rw [beq_eq_false_iff_ne.mpr (by omega)]
  · rw [beq_iff_eq.mpr (by omega)]
    rfl

/-- The last word of the track, on either side. -/
theorem TrackAt.last_bit (h : TrackAt track buffer mem) {i : ℕ} (hi : i < 16) :
    ofWords mem (32 * sectorPos NSEC + i) =
      if i = 0 then !(mem (sectorPos NSEC - 1)).getLsbD 0 else i % 2 == 0 && i != 14 := by
  obtain ⟨low, hlow⟩ := h.last
  have hodd : ∀ j < 16, (0x2AA8#16).getMsbD j =
      if j = 0 then !true else j % 2 == 0 && j != 14 := by decide
  have heven : ∀ j < 16, (0xAAA8#16).getMsbD j =
      if j = 0 then !false else j % 2 == 0 && j != 14 := by decide
  rw [ofWords_apply mem _ (by omega), hlow, BitVec.getMsbD_append, if_neg (Nat.not_le_of_lt hi)]
  simp only [one_eq, and_twoPow_ne_zero _ (by decide : 0 < 32)]
  cases (mem (sectorPos NSEC - 1)).getLsbD 0 with
  | true => rw [if_pos rfl, hodd i hi]
  | false => rw [if_neg nofun, heven i hi]

/-- The clock rule in a sector, the two broken places of the mark apart. -/
theorem SectorAt.clockRule {pos : ℕ} {ds : List Long} (h : SectorAt mem pos ds) (hpos : 0 < pos)
    (hds : ∀ d ∈ ds, d &&& DMASK = d) {r i : ℕ} (hr : r < 2 + ds.length) (hi : i < 32)
    (heven : i % 2 = 0) (hmark : r = 1 → i ≠ 10 ∧ i ≠ 26) :
    ClockRule (ofWords mem) (32 * (pos + r) + i - 1) := by
  rcases r with - | - | r
  · exact clockIn_clockRule hpos (by decide : (0 : Long) &&& DMASK = 0) h.zeros hi heven
  · have hrule : ∀ i < 32, i % 2 = 0 ∧ i ≠ 10 ∧ i ≠ 26 → 0 < i →
        MARK.getMsbD i = (!MARK.getMsbD (i - 1) && !MARK.getMsbD (i + 1)) := by decide
    have hbit : ∀ j < 32, ofWords mem (32 * (pos + 1) + j) = MARK.getMsbD j := fun j hj => by
      rw [ofWords_apply mem _ hj, h.mark]
    have hp₁ : 32 * (pos + (0 + 1)) + i - 1 + 1 = 32 * (pos + 1) + i := by omega
    have hp₂ : 32 * (pos + (0 + 1)) + i - 1 + 2 = 32 * (pos + 1) + (i + 1) := by omega
    rw [ClockRule, hp₁, hp₂, hbit i hi, hbit (i + 1) (by omega)]
    rcases Nat.eq_zero_or_pos i with rfl | hpos'
    · -- the mark begins with a clear clock bit and a set data bit
      have hfirst : MARK.getMsbD 0 = false ∧ MARK.getMsbD (0 + 1) = true := by decide
      rw [hfirst.1, hfirst.2, Bool.not_true, Bool.and_false]
    · have hp₀ : 32 * (pos + (0 + 1)) + i - 1 = 32 * (pos + 1) + (i - 1) := by omega
      rw [hp₀, hbit (i - 1) (by omega)]
      exact hrule i hi ⟨heven, hmark rfl⟩ hpos'
  · have hlt : r < ds.length := by omega
    have hd := List.getElem?_eq_getElem hlt
    have hc := h.chain r _ hd
    have hp : pos + 2 + r = pos + (r + 1 + 1) := by omega
    rw [hp] at hc
    exact clockIn_clockRule (by omega) (hds _ (List.getElem_mem hlt)) hc hi heven

theorem sectorCells_masked {sec : ℕ} : ∀ d ∈ sectorCells track buffer sec, d &&& DMASK = d := by
  intro d hd
  simp only [sectorCells, List.mem_append] at hd
  rcases hd with (((hd | hd) | hd) | hd) | hd <;> exact cells_masked hd

/-- The clock rule on the track, away from the marks and from the last bits. -/
theorem TrackAt.clockRule (h : TrackAt track buffer mem) {t : ℕ} (hodd : t % 2 = 1)
    (hend : t + 3 < TRKBITS)
    (hne : ∀ sec < NSEC, t ≠ markPos sec + 9 ∧ t ≠ markPos sec + 25) :
    ClockRule (ofWords mem) t := by
  have hT : TRKBITS = 109040 := rfl
  have hS : NSEC = 11 := rfl
  obtain ⟨k, i, hi, hki⟩ : ∃ k i, i < 32 ∧ t + 1 = 32 * k + i :=
    ⟨(t + 1) / 32, (t + 1) % 32, Nat.mod_lt _ (by decide), (Nat.div_add_mod _ _).symm⟩
  obtain rfl : t = 32 * k + i - 1 := by omega
  have heven : i % 2 = 0 := by omega
  by_cases hslop : k < 416
  · -- every clock bit of the slop is set
    have hclear : ∀ s < 13312, s % 2 = 1 → ofWords mem s = false := fun s hs hs' => by
      rw [h.slop_bit hs, hs']
      rfl
    have hset : (32 * k + i) % 2 = 0 := by omega
    have hnext : 32 * k + i - 1 + 2 = 32 * k + i + 1 := by omega
    rw [ClockRule, hki, hnext, hclear _ (by omega) hodd, hclear (_ + 1) (by omega) (by omega),
      h.slop_bit (by omega), hset]
    rfl
  by_cases hlast : k < sectorPos NSEC
  · obtain ⟨sec, r, hr, hk⟩ : ∃ sec r, r < 272 ∧ k = sectorPos sec + r :=
      ⟨(k - 415) / 272, (k - 415) % 272, Nat.mod_lt _ (by decide), by
        have := Nat.div_add_mod (k - 415) 272
        rw [sectorPos, SECLONGS]
        omega⟩
    have hp : sectorPos NSEC = 3407 := rfl
    have hsp : sectorPos sec = 415 + 272 * sec := rfl
    have hsec : sec < NSEC := by omega
    rw [hk]
    refine (h.sectors sec hsec).clockRule (by omega) sectorCells_masked
      (by rw [sectorCells_length]; omega) hi heven fun hr₁ => ?_
    have := hne sec hsec
    rw [markPos] at this
    omega
  · have hk : k = sectorPos NSEC := by
      have hp : sectorPos NSEC = 3407 := rfl
      omega
    subst hk
    have hp : sectorPos NSEC = 3407 := rfl
    have hlt : i < 14 := by omega
    have hbit := h.last_bit (by omega : i < 16)
    have hclear : ∀ j < 16, j % 2 = 1 → ofWords mem (32 * sectorPos NSEC + j) = false :=
      fun j hj hj' => by
        rw [h.last_bit hj, if_neg (by omega), hj']
        rfl
    have hnext : 32 * sectorPos NSEC + i - 1 + 2 = 32 * sectorPos NSEC + (i + 1) := by omega
    rw [ClockRule, hki, hbit, hnext, hclear (i + 1) (by omega) (by omega), Bool.not_false,
      Bool.and_true]
    rcases Nat.eq_zero_or_pos i with rfl | hpos
    · rw [if_pos rfl, Nat.add_zero, ofWords_pred mem (by decide), getMsbD_eq _ (by decide)]
    · have hprev : 32 * sectorPos NSEC + i - 1 = 32 * sectorPos NSEC + (i - 1) := by omega
      rw [hprev, hclear (i - 1) (by omega) (by omega), if_neg (by omega), heven,
        bne_iff_ne.mpr (by omega : i ≠ 14)]
      rfl

theorem TrackAt.bits (h : TrackAt track buffer mem) : TrackBits (ofWords mem) where
  slop _ ht := h.slop_bit ht
  zeros sec hsec i hpos hi := by
    have hp : markPos sec - 32 + i = 32 * sectorPos sec + i := by
      rw [markPos, sectorPos, SECLONGS]
      omega
    rw [hp, ofWords_apply mem _ hi, (h.sectors sec hsec).zeros, zeros_bit _ i hi hpos]
  mark sec hsec := by
    have hp : markPos sec = 32 * (sectorPos sec + 1) := by
      rw [markPos, sectorPos, SECLONGS]
      omega
    have hat := at_ofWords mem (sectorPos sec + 1)
    rwa [(h.sectors sec hsec).mark, ← hp] at hat
  clocked _ hodd hend hne := (h.clockRule hodd hend hne).clocked
  last i hpos hi := by
    have := h.last_bit hi
    rwa [if_neg (by omega)] at this

end
end HydraAmix.Floppy.Amiga
