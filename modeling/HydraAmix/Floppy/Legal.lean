import HydraAmix.Floppy.AmigaMarks
import HydraAmix.Floppy.MsdosMarks

/-!
# Encoded tracks are legal MFM

A clock bit is set exactly when the data bits next to it are clear, in the
tracks of both encoders and across all boundaries, but for one bit in each sync
word and one in the word of slop that ends an Amiga track. So set bits are never
adjacent, and two sync words in a row are found at the marks of the sectors
only.
-/
namespace HydraAmix.Floppy
open Word BitStream

/-- Legal MFM in the first `n` bits, with data bits at every second position from
`data` on. The clock bits that follow `broken` are exempt, and `marks` are where
a double sync word begins. -/
structure Legal (b : ℕ → Bool) (n data : ℕ) (broken marks : ℕ → Prop) : Prop where
  clocks : ∀ t, t % 2 = data → t + 2 < n → ¬broken t → ClockRule b t
  sparse : Sparse b n
  sync : ∀ t, t + 32 ≤ n → (At b t Amiga.MARK ↔ marks t)

/-! ### Amiga -/

namespace Amiga

/-- The clock bits missing in the sync words. -/
def SyncBit (t : ℕ) : Prop := ∃ sec < NSEC, t = markPos sec + 9 ∨ t = markPos sec + 25

section
variable {track : ℕ} {buffer : ℕ → Long} {mem : ℕ → Long}

/-- A set clock bit stands alone, wherever it is. -/
theorem TrackAt.alone (h : TrackAt track buffer mem) {t : ℕ} (hodd : t % 2 = 1)
    (hend : t + 1 < TRKBITS) (hset : ofWords mem (t + 1) = true) :
    ofWords mem t = false ∧ (t + 2 < TRKBITS → ofWords mem (t + 2) = false) := by
  have hT : TRKBITS = 109040 := rfl
  by_cases hlast : t + 3 < TRKBITS
  · by_cases hsync : SyncBit t
    · exfalso
      have hclear : MARK.getMsbD 10 = false ∧ MARK.getMsbD 26 = false := by decide
      obtain ⟨sec, hsec, rfl | rfl⟩ := hsync
      · have hbit := h.bits.mark sec hsec 10 (by decide)
        rw [Nat.add_assoc, hbit, hclear.1] at hset
        cases hset
      · have hbit := h.bits.mark sec hsec 26 (by decide)
        rw [Nat.add_assoc, hbit, hclear.2] at hset
        cases hset
    · have hrule := h.clockRule hodd hlast fun sec hsec =>
        ⟨fun he => hsync ⟨sec, hsec, .inl he⟩, fun he => hsync ⟨sec, hsec, .inr he⟩⟩
      obtain ⟨hleft, hright⟩ := hrule.alone hset
      exact ⟨hleft, fun _ => hright⟩
  · -- the last clock bit is clear
    exfalso
    obtain rfl : t = TRKBITS - 16 + 13 := by omega
    rw [Nat.add_assoc, h.bits.last 14 (by decide) (by decide)] at hset
    exact absurd hset (by decide)

theorem TrackAt.sparse (h : TrackAt track buffer mem) : Sparse (ofWords mem) TRKBITS := by
  rintro t ht ⟨h₀, h₁⟩
  rcases Nat.mod_two_eq_zero_or_one t with heven | hodd
  · rcases Nat.eq_zero_or_pos t with rfl | hpos
    · rw [h.bits.slop 1 (by decide)] at h₁
      exact absurd h₁ (by decide)
    · obtain ⟨t, rfl⟩ : ∃ s, t = s + 1 := ⟨t - 1, by omega⟩
      rw [(h.alone (by omega) (by omega) h₀).2 ht] at h₁
      cases h₁
  · rw [(h.alone hodd ht h₁).1] at h₀
    cases h₀

theorem TrackAt.sync (h : TrackAt track buffer mem) {t : ℕ} (ht : t + 32 ≤ TRKBITS) :
    At (ofWords mem) t MARK ↔ ∃ sec < NSEC, t = markPos sec := by
  constructor
  · intro hat
    have hmod : ∀ i < 32, (t + i) % TRKBITS = t + i := fun i hi => Nat.mod_eq_of_lt (by omega)
    have hon : At (onTrack TRKBITS (ofWords mem)) t MARK := by
      intro i hi
      rw [onTrack, hmod i hi, Nat.sub_self, Nat.zero_add]
      exact hat i hi
    obtain ⟨sec, hsec, heq⟩ := h.bits.mark_unique (Nat.le_refl _) (by decide) hon
    rw [Nat.mod_eq_of_lt (by omega), Nat.sub_self, Nat.zero_add] at heq
    exact ⟨sec, hsec, heq⟩
  · rintro ⟨sec, hsec, rfl⟩
    exact h.bits.mark sec hsec

end
end Amiga

/-! ### MS-DOS -/

namespace Msdos

theorem mtab_sparse : ∀ ch : Byte, ∀ i < 15,
    ((mtab ch).getMsbD i && (mtab ch).getMsbD (i + 1)) = false := by decide +kernel

theorem magic_sparse {w : BitVec 16} (hw : w ∈ iamagic ++ (idamagic ++ damagic)) {i : ℕ}
    (hi : i < 15) : (w.getMsbD i && w.getMsbD (i + 1)) = false := by
  have hall : ((iamagic ++ (idamagic ++ damagic)).all fun w => (List.range 15).all fun i =>
      !(w.getMsbD i && w.getMsbD (i + 1))) = true := by decide
  have hword := List.all_eq_true.mp hall w hw
  exact (Bool.not_eq_true' _).mp (List.all_eq_true.mp hword i (List.mem_range.mpr hi))

theorem WordAt.sparse {d : Density} {j : ℕ} {w : BitVec 16} (h : WordAt d j w) {i : ℕ}
    (hi : i < 15) : (w.getMsbD i && w.getMsbD (i + 1)) = false := by
  cases h with
  | byte ch h =>
    rw [h]
    exact mtab_sparse ch i hi
  | ia k hk hj h =>
    exact magic_sparse (List.mem_append_left _ (List.mem_of_getElem? h)) hi
  | id sec k hsec hk hj h =>
    exact magic_sparse
      (List.mem_append_right _ (List.mem_append_left _ (List.mem_of_getElem? h))) hi
  | da sec k hsec hk hj h =>
    exact magic_sparse
      (List.mem_append_right _ (List.mem_append_right _ (List.mem_of_getElem? h))) hi

section
variable {d : Density} {track : ℕ} {buffer : ℕ → Byte} {mem : ℕ → BitVec 16}

/-- The last word has no clock bit after it. -/
theorem Written.final (h : Written d track buffer mem) {j : ℕ} {w : BitVec 16}
    (hw : (words d track buffer)[j]? = some w) (hj : j + 1 = d.trkwlen) (hat : WordAt d j w) :
    ofWords mem (16 * j + 15) = false := by
  have hnone : (words d track buffer)[j + 1]? = none :=
    List.getElem?_eq_none (by rw [words_length]; omega)
  rw [ofWords_apply mem j (by decide), h j w hw, hnone, BitVec.getMsbD_eq_getLsbD]
  exact (Bool.true_and _).trans hat.even

theorem Written.sparse (h : Written d track buffer mem) :
    Sparse (ofWords mem) (16 * d.trkwlen) := by
  rintro t ht ⟨h₀, h₁⟩
  obtain ⟨j, i, hi, rfl⟩ : ∃ j i, i < 16 ∧ t = 16 * j + i :=
    ⟨t / 16, t % 16, Nat.mod_lt _ (by decide), (Nat.div_add_mod t 16).symm⟩
  obtain ⟨w, hw, hat⟩ := @words_at d track buffer j (by omega)
  have hnext : j + 1 < d.trkwlen → ∃ w', (words d track buffer)[j + 1]? = some w' ∧
      ofWords mem (16 * j + 15) = joins w w' ∧
        ofWords mem (16 * j + 15 + 1) = w'.getLsbD 15 := by
    intro hj
    obtain ⟨w', hw', -⟩ := @words_at d track buffer (j + 1) hj
    have hp : 16 * j + 15 + 1 = 16 * (j + 1) + 0 := by omega
    refine ⟨w', hw', h.last hw hw', ?_⟩
    rw [hp, h.bit hw' (by decide), BitVec.getMsbD_eq_getLsbD]
    rfl
  rw [Nat.add_assoc] at h₁
  rcases Nat.lt_trichotomy i 14 with hlt | rfl | hgt
  · -- within a word
    have hs := hat.sparse (by omega : i < 15)
    rw [h.bit hw (by omega)] at h₀ h₁
    rw [h₀, h₁] at hs
    cases hs
  · -- the last data bit of a word and its clock bit
    have hmsb : w.getMsbD 14 = w.getLsbD 1 := by
      rw [BitVec.getMsbD_eq_getLsbD]
      rfl
    rw [h.bit hw (by decide), hmsb] at h₀
    by_cases hj : j + 1 < d.trkwlen
    · obtain ⟨w', -, hclock, -⟩ := hnext hj
      rw [hclock, joins, h₀] at h₁
      cases h₁
    · rw [h.final hw (by omega) hat] at h₁
      cases h₁
  · -- the clock bit between two words
    obtain rfl : i = 15 := by omega
    obtain ⟨w', -, hclock, hfirst⟩ := hnext (by omega)
    rw [Nat.add_assoc] at hfirst
    rw [hfirst] at h₁
    rw [hclock, joins, h₁, Bool.not_true, Bool.and_false] at h₀
    cases h₀

/-- Where two sync words begin: with the first and the second word of a mark, a bit before. -/
def SyncAt (d : Density) (t : ℕ) : Prop :=
  ∃ sec < d.nsec, ∃ k < 2, t + 1 = 16 * (d.idPos sec + k) ∨ t + 1 = 16 * (d.daPos sec + k)

/-- Three zeros of the double sync word are where the clock rule is broken. -/
theorem TrackBits.sync_missing {b : ℕ → Bool} (h : TrackBits d b) {t i : ℕ}
    (ht : t + 32 ≤ 16 * d.trkwlen) (hat : At b t Amiga.MARK) (hi : i + 2 < 32)
    (hz : Amiga.MARK.getMsbD i = false ∧ Amiga.MARK.getMsbD (i + 1) = false ∧
      Amiga.MARK.getMsbD (i + 2) = false) (heven : (t + i) % 2 = 0) : Missing d (t + i) := by
  refine h.missing heven (by omega) ?_
  rw [Nat.add_assoc, Nat.add_assoc, hat i (by omega), hat (i + 1) (by omega), hat (i + 2) hi]
  exact hz

theorem TrackBits.sync {b : ℕ → Bool} (h : TrackBits d b) {t : ℕ}
    (ht : t + 32 ≤ 16 * d.trkwlen) (hat : At b t Amiga.MARK) : SyncAt d t := by
  rcases Nat.mod_two_eq_zero_or_one t with heven | hodd
  · exfalso
    have h₂ := h.sync_missing ht hat (by decide : 2 + 2 < 32) (by decide) (by omega)
    have hbit := hat 15 (by decide)
    rcases h₂ with ⟨sec, hsec, k, hk, h₂ | h₂⟩ | ⟨k, hk, h₂⟩
    · have hp : t + 15 = 16 * d.idPos sec + (16 * k + 21) := by omega
      rw [hp, h.id sec hsec _ (by unfold IAMLEN; omega)] at hbit
      have : k = 0 ∨ k = 1 ∨ k = 2 := by omega
      rcases this with rfl | rfl | rfl
      · exact absurd hbit (by decide)
      · exact absurd hbit (by decide)
      · exact absurd hbit (by decide)
    · have hp : t + 15 = 16 * d.daPos sec + (16 * k + 21) := by omega
      rw [hp, h.da sec hsec _ (by unfold DAMLEN; omega)] at hbit
      have : k = 0 ∨ k = 1 ∨ k = 2 := by omega
      rcases this with rfl | rfl | rfl
      · exact absurd hbit (by decide)
      · exact absurd hbit (by decide)
      · exact absurd hbit (by decide)
    · have hbit := hat 14 (by decide)
      have hp : t + 14 = 16 * (d.iaPos + k + 1) + 2 := by omega
      rw [hp, (h.ia k hk).2] at hbit
      exact absurd hbit (by decide)
  · have h₉ := h.sync_missing ht hat (by decide : 9 + 2 < 32) (by decide) (by omega)
    have h₂₅ := h.sync_missing ht hat (by decide : 25 + 2 < 32) (by decide) (by omega)
    rcases h₉ with ⟨sec, hsec, k, hk, h₉⟩ | ⟨k, hk, h₉⟩
    · have hk₂ : k < 2 := by
        rcases h₂₅ with ⟨sec', hsec', k', hk', h₂₅⟩ | ⟨k', hk', h₂₅⟩
        · simp only [Density.idPos, Density.daPos, Density.secPos, IAWORDS, SECWORDS] at h₉ h₂₅
          omega
        · omega
      refine ⟨sec, hsec, k, hk₂, ?_⟩
      omega
    · exfalso
      have hbit := hat 1 (by decide)
      have hp : t + 1 = 16 * (d.iaPos + k) - 2 := by omega
      rw [hp, (h.ia k hk).1] at hbit
      exact absurd hbit (by decide)

/-- The arrays hold two sync words, a bit early, twice. -/
theorem goal_sync : ∀ k < 2, ∀ i < 32, 0 < 16 * k + i →
    Amiga.MARK.getMsbD i = goalBit iam (16 * k + i - 1) ∧
      Amiga.MARK.getMsbD i = goalBit dam (16 * k + i - 1) := by decide

theorem TrackBits.sync_at {b : ℕ → Bool} (h : TrackBits d b) {t : ℕ} (hs : SyncAt d t) :
    At b t Amiga.MARK := by
  obtain ⟨sec, hsec, k, hk, ht⟩ := hs
  intro i hi
  obtain ⟨hzid, hzda⟩ := h.zeros sec hsec 1 (by decide) (by decide)
  rcases Nat.eq_zero_or_pos (16 * k + i) with hzero | hpos
  · -- the bit before the mark
    obtain ⟨rfl, rfl⟩ : k = 0 ∧ i = 0 := by omega
    rcases ht with ht | ht
    · have hp : t + 0 = 16 * d.idPos sec - 1 := by omega
      rw [hp, hzid]
      decide
    · have hp : t + 0 = 16 * d.daPos sec - 1 := by omega
      rw [hp, hzda]
      decide
  · obtain ⟨hid, hda⟩ := goal_sync k hk i hi hpos
    rcases ht with ht | ht
    · have hp : t + i = 16 * d.idPos sec + (16 * k + i - 1) := by omega
      rw [hp, h.id sec hsec _ (by unfold IAMLEN; omega), hid]
    · have hp : t + i = 16 * d.daPos sec + (16 * k + i - 1) := by omega
      rw [hp, h.da sec hsec _ (by unfold DAMLEN; omega), hda]

end
end Msdos

/-! ### Both encoders -/

end HydraAmix.Floppy
