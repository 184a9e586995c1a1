import HydraAmix.Hydra.BufferRam

/-!
# Bytes that are written to the card and read back

`hydra_ram_write_offset` packs bytes into longwords, and `hydra_ram_read_offset` takes them
apart again. Where the longwords fit the buffer, the bytes and every prefix of them come back,
and the rest of the RAM stays. Where they do not, the two calls refuse, as long as the sum
`offset + access_len` of their check fits an `int`.
-/
namespace HydraAmix.Hydra
open Word Program Prog

/-- The longwords that cover the bytes lie in the buffer of the card. -/
def FitsRam (len : ℕ) (offset : ℤ) : Prop :=
  NE8390_START_PG * 256 ≤ offset ∧ offset + 4 * ((len + 3) / 4 : ℕ) ≤ NE8390_STOP_PG * 256

/-- The check does not come to the sum, or the sum fits an `int`. -/
def SumFits (len : ℕ) (offset : ℤ) : Prop :=
  offset < 0 ∨ offset + 4 * ((len + 3) / 4 : ℕ) < 2147483648

instance (len : ℕ) (offset : ℤ) : Decidable (FitsRam len offset) := by
  unfold FitsRam
  infer_instance

instance (len : ℕ) (offset : ℤ) : Decidable (SumFits len offset) := by
  unfold SumFits
  infer_instance

/-- The world after the write of a buffer. -/
def written (b : BoardId) (buf : List Byte) (offset : ℤ) (w : World) : World :=
  (run exec (hydraRamWriteOffset b buf buf.length offset) w).2

/-- What is read after the write, and what the write has left alone. -/
structure ReadBack (b : BoardId) (buf : List Byte) (offset : ℤ) (w : World) : Prop where
  whole : ∀ size, run exec (hydraRamReadOffset b size buf.length offset) (written b buf offset w) =
    (buf, written b buf offset w)
  shorter : ∀ size (len : ℕ), len ≤ buf.length →
    run exec (hydraRamReadOffset b size len offset) (written b buf offset w) =
      (buf.take len, written b buf offset w)
  ram : ∀ a : ℕ, ¬ (offset ≤ a ∧ a < offset + 4 * ((buf.length + 3) / 4 : ℕ)) →
    ((written b buf offset w).nic b).ram a = (w.nic b).ram a
  rest : written b buf offset w =
    w.setNic b { w.nic b with ram := ((written b buf offset w).nic b).ram }

/-- The write changes nothing and the read clears its buffer. -/
structure Refused (b : BoardId) (buf : List Byte) (offset : ℤ) (w : World) : Prop where
  write : written b buf offset w = w
  read : ∀ size, run exec (hydraRamReadOffset b size buf.length offset) w =
    (List.replicate buf.length 0, w)

/-- Every buffer of a length, written at an offset from any state. -/
def RoundTrip (len : ℕ) (offset : ℤ) : Prop :=
  ∀ b buf w, buf.length = len →
    (FitsRam len offset → ReadBack b buf offset w) ∧ (¬ FitsRam len offset → Refused b buf offset w)

section
variable {len : ℕ} {offset : ℤ}

/-- The check refuses what does not fit, unless its sum overflows. -/
theorem outOfRam_int (hl : len < 2147483648) (ho : -2147483648 ≤ offset ∧ offset < 2147483648) :
    OutOfRam len offset ↔ ¬ FitsRam len offset ∧ SumFits len offset := by
  unfold OutOfRam accessLen nlongs FitsRam SumFits NE8390_START_PG NE8390_STOP_PG
  by_cases hsmall : len < 2147483645
  · rw [int32_of_range (x := (len : ℤ) + 3) (by omega) (by omega),
      int32_of_range (x := _ * 4) (by omega) (by omega)]
    unfold int32
    omega
  · -- the sum with 3 wraps, and the rounded length is the least `int`
    have hwrap : int32 ((len : ℤ) + 3) / 4 = -536870912 := by
      unfold int32
      omega
    rw [hwrap]
    unfold int32
    omega

variable (b : BoardId) {buf : List Byte} (w : World)

theorem refused (h : OutOfRam buf.length offset) : Refused b buf offset w where
  write := by rw [written, hydraRamWriteOffset, if_pos h, run_pure]
  read size := by rw [hydraRamReadOffset, if_pos h, clearBuf_run, Int.toNat_natCast]

theorem written_eq {o : ℕ} (h : o + 4 * ((buf.length + 3) / 4) ≤ 0x4000) :
    written b buf o w = w.setNic b ((w.nic b).fill o
      ((List.range (4 * ((buf.length + 3) / 4))).map (padByte w buf buf.length))) := by
  rw [written, hydraRamWriteOffset_run w b h]

theorem readBack {o : ℕ} (h : o + 4 * ((buf.length + 3) / 4) ≤ 0x4000) :
    ReadBack b buf o w := by
  have hwritten := written_eq b w h
  have hshorter : ∀ size (len : ℕ), len ≤ buf.length →
      run exec (hydraRamReadOffset b size len o) (written b buf o w) =
        (buf.take len, written b buf o w) := fun size len hlen => by
    have hroom : o + 4 * ((len + 3) / 4) ≤ 0x4000 := by omega
    rw [hydraRamReadOffset_run _ b size hroom, hwritten, World.setNic_self,
      Nic.bytes_fill _ _ (by rw [List.length_map, List.length_range]; omega)]
    -- what follows the buffer in its last longword is not read
    refine congrArg (Prod.mk · _) ?_
    calc ((List.range (4 * ((buf.length + 3) / 4))).map (padByte w buf buf.length)).take len
        = (((List.range (4 * ((buf.length + 3) / 4))).map (padByte w buf buf.length)).take
            buf.length).take len := by rw [List.take_take, Nat.min_eq_left hlen]
      _ = buf.take len := by
          rw [map_padByte_take w (by omega) (Nat.le_refl _), List.take_length]
  refine ⟨fun size => ?_, hshorter, fun a ha => ?_, ?_⟩
  · have hwhole := hshorter size buf.length (Nat.le_refl _)
    rwa [List.take_length] at hwhole
  · rw [hwritten, World.setNic_self, Nic.fill, List.length_map, List.length_range]
    dsimp only
    rw [if_neg (by omega)]
  · rw [hwritten, World.setNic_self]
    rfl

theorem roundTrip_of_sumFits (hl : len < 2147483648)
    (ho : -2147483648 ≤ offset ∧ offset < 2147483648) (h : SumFits len offset) :
    RoundTrip len offset := by
  rintro b buf w rfl
  constructor
  · rintro ⟨hstart, hstop⟩
    unfold NE8390_START_PG at hstart
    unfold NE8390_STOP_PG at hstop
    obtain ⟨o, rfl⟩ := Int.eq_ofNat_of_zero_le hstart
    exact readBack b w (by omega)
  · exact fun hfits => refused b w ((outOfRam_int hl ho).mpr ⟨hfits, h⟩)

/-- If the sum overflows, the check passes: a read takes what stands at the offset, or leaves its
buffer as it is. -/
theorem sumFits_of_roundTrip (hl : len < 2147483648)
    (ho : -2147483648 ≤ offset ∧ offset < 2147483648) (h : RoundTrip len offset) :
    SumFits len offset := by
  by_contra hsum
  have hnot : ¬ FitsRam len offset := fun hfits => hsum (.inr (by
    have hstop := hfits.2
    unfold NE8390_STOP_PG at hstop
    omega))
  have hpass : ¬ OutOfRam len offset := fun hout => hsum ((outOfRam_int hl ho).mp hout).2
  unfold SumFits at hsum
  obtain ⟨o, rfl⟩ : ∃ o : ℕ, offset = o := Int.eq_ofNat_of_zero_le (by omega)
  -- a card that holds ones where the read looks
  have hread := ((h 0 (List.replicate len 0)
    (World.off.setNic 0 { Nic.off with ram := fun _ => 1 }) List.length_replicate).2 hnot).read 0
  rw [List.length_replicate, hydraRamReadOffset, if_neg hpass, readLongs_run,
    World.setNic_self] at hread
  have hzero : (0 : Byte) ∈ List.replicate len 0 := List.mem_replicate.mpr ⟨by omega, rfl⟩
  have hones := congrArg Prod.fst hread
  dsimp only at hones
  rw [← hones] at hzero
  obtain ⟨-, -, hone⟩ := List.mem_map.mp hzero
  exact absurd hone (by decide)

end

/-- The bytes come back where they fit, and what does not fit is refused, exactly if the sum of
the check is an `int`. -/
theorem round_trip_iff {len : ℕ} {offset : ℤ} (hl : len < 2147483648)
    (ho : -2147483648 ≤ offset ∧ offset < 2147483648) :
    RoundTrip len offset ↔ SumFits len offset :=
  ⟨sumFits_of_roundTrip hl ho, roundTrip_of_sumFits hl ho⟩

/-- Five bytes at the end of the buffer. -/
theorem round_trip_last : RoundTrip 5 0x3ff8 :=
  (round_trip_iff (by decide) (by decide)).mpr (.inr (by decide))

/-- 256 bytes at 0x7fffff00: the sum is the least `int`, and the check passes. -/
theorem round_trip_overflows : ¬ RoundTrip 256 0x7fffff00 := fun h =>
  absurd (sumFits_of_roundTrip (by decide) (by decide) h) (by decide)

end HydraAmix.Hydra
