import HydraAmix.Hydra.Requests

/-!
# Where the diagnostic ioctl reaches

A test request can read or write a NIC register, copy between its data array
and the buffer RAM, and report the board. `Op.Confined` says of an operation
that it is a RAM access inside the buffer, a register access to one of the 16
slots other than the FIFO's, or an access inside the data array. The copy
routines check the range once more, so the check made by the ioctl matters
only where its sum wraps to a negative number; the read command does not check
the register at all. `InBounds` is what a request must satisfy beyond these
checks, and it is exactly what keeps the whole ioctl confined.
-/
namespace HydraAmix.Hydra
open Word Program Prog

/-- Inside the buffer RAM, on a register slot other than 6, or inside the
data array of a request. -/
def Op.Confined : (β : Type) → Op β → Prop
  | _, .inb _ reg => reg < 16 ∧ reg ≠ NE_FIFO
  | _, .outb _ reg _ => reg < 16 ∧ reg ≠ NE_FIFO
  | _, .readl _ offset => NE8390_START_PG * 256 ≤ offset ∧ offset + 4 ≤ NE8390_STOP_PG * 256
  | _, .writel _ offset _ => NE8390_START_PG * 256 ≤ offset ∧ offset + 4 ≤ NE8390_STOP_PG * 256
  | _, .prom _ _ => False
  | _, .peek _ i => 0 ≤ i ∧ i < 1024
  | _, .poke _ i => 0 ≤ i ∧ i < 1024
  | _, _ => True

section
variable (q : QId)

@[simp] theorem Op.confined_load : Op.Confined _ .load := trivial
@[simp] theorem Op.confined_wptr : Op.Confined _ (.wptr q) := trivial
@[simp] theorem Op.confined_freemsg (mp : Msg) : Op.Confined _ (.freemsg mp) := trivial
@[simp] theorem Op.confined_putnext (mp : Up) : Op.Confined _ (.putnext q mp) := trivial

end

/-- Every operation of the execution of `p` from `w` is confined. -/
abbrev Confined {α : Type} (p : HydraM α) (w : World) : Prop :=
  Along exec (fun β o _ => Op.Confined β o) p w

theorem Confined.of_all {α : Type} {p : HydraM α} (h : All Op.Confined p) (w : World) :
    Confined p w := h.along (fun _ _ _ hc => hc) w

/-- What the checks of the ioctl leave to the user: a register number of four
bits in a read, and no overflow of the end of a range of RAM. -/
def HydraTest.InBounds (t : HydraTest) : Prop :=
  (t.op = HYDRA_TEST_READ_REG → t.reg.toNat < 16) ∧
    (t.op = HYDRA_TEST_READ_RAM ∨ t.op = HYDRA_TEST_WRITE_RAM → 0 ≤ t.len.toInt →
      t.len.toInt ≤ 1024 → int32 (t.page.toInt * 256) + t.len.toInt < 2147483648)

/-- The request that a message makes the ioctl carry out: the copied-in
structure of the transparent form, or the data of an I_STR call. -/
def IocMsg.request : IocMsg → Option HydraTest
  | .iocdata _ rval priv t => if rval = 0 ∧ priv ≠ 0 then some t else none
  | .ioctl cmd (some _) _ t => if cmd = HYDRA_IOCTL_TEST then some t else none
  | .ioctl _ none _ _ => none

/-! ### The copy loops -/

section
variable (b : BoardId)

theorem packLong_confined (buf : List Byte) {len : ℤ} (hl : len ≤ 1024) (i : ℕ) (js : List ℕ)
    (v : Long) : All Op.Confined (packLong buf len i js v) := by
  induction js generalizing v with
  | nil => trivial
  | cons j js ih =>
      rw [packLong]
      by_cases h : ((4 * i + j : ℕ) : ℤ) < len
      · rw [if_pos h]
        exact .bind (.perform ⟨by omega, by omega⟩) fun x => ih _
      · rw [if_neg h]
        exact ih _

theorem writeLongs_confined (buf : List Byte) {len offset : ℤ} (hl : len ≤ 1024) (ho : 0 ≤ offset)
    {k i : ℕ} (h : offset + 4 * (i + k : ℕ) ≤ 0x4000) :
    All Op.Confined (writeLongs b buf len offset k i) := by
  induction k generalizing i with
  | zero => trivial
  | succ k ih =>
      refine .bind (packLong_confined buf hl i _ _) fun v => ?_
      have hw : Op.Confined Unit (.writel b (offset + 4 * i) v) := by
        simp only [Op.Confined, NE8390_START_PG, NE8390_STOP_PG]
        omega
      exact .bind (.perform hw) fun _ => ih (by omega)

theorem unpackLong_confined (size : ℕ) {len : ℤ} (hl : len ≤ 1024) (i : ℕ) (v : Long)
    (js : List ℕ) : All Op.Confined (unpackLong size len i v js) := by
  induction js with
  | nil => trivial
  | cons j js ih =>
      rw [unpackLong]
      by_cases h : ((4 * i + (3 - j) : ℕ) : ℤ) < len
      · rw [if_pos h]
        exact .bind (.perform ⟨by omega, by omega⟩) fun _ => .bind ih fun xs => trivial
      · rw [if_neg h]
        exact ih

theorem readLongs_confined (size : ℕ) {len offset : ℤ} (hl : len ≤ 1024) (ho : 0 ≤ offset)
    {k i : ℕ} (h : offset + 4 * (i + k : ℕ) ≤ 0x4000) :
    All Op.Confined (readLongs b size len offset k i) := by
  induction k generalizing i with
  | zero => trivial
  | succ k ih =>
      have hr : Op.Confined Long (.readl b (offset + 4 * i)) := by
        simp only [Op.Confined, NE8390_START_PG, NE8390_STOP_PG]
        omega
      refine .bind (.perform hr) fun v => .bind (unpackLong_confined size hl i v _) fun xs => ?_
      exact .bind (ih (by omega)) fun ys => trivial

theorem clearBuf_confined (size : ℕ) {k i : ℕ} (h : i + k ≤ 1024) :
    All Op.Confined (clearBuf size k i) := by
  induction k generalizing i with
  | zero => trivial
  | succ k ih =>
      refine .bind (.perform ⟨by omega, by omega⟩) fun _ => ?_
      exact .bind (ih (by omega)) fun xs => trivial

theorem pokes_confined (size : ℕ) {i : ℤ} {n : ℕ} (hi : 0 ≤ i) (h : i + n ≤ 1024) :
    All Op.Confined (pokes size i n) := by
  induction n generalizing i with
  | zero => trivial
  | succ n ih => exact .bind (.perform ⟨by omega, by omega⟩) fun _ => ih (by omega) (by omega)

end

theorem hydraTestWriteReg_confined (b : BoardId) (reg : ℕ) (val : Byte) :
    All Op.Confined (hydraTestWriteReg b reg val) := by
  unfold hydraTestWriteReg
  by_cases hr : reg > 0x0f
  · rw [if_pos hr]
    trivial
  rw [if_neg hr]
  by_cases hf : reg = NE_TBCNT1_W
  · rw [if_pos hf]
    trivial
  rw [if_neg hf]
  have hreg : All Op.Confined (hydraOutb b reg val) := .perform ⟨by omega, hf⟩
  exact .ite (.bind (.perform ⟨by decide, by decide⟩) fun _ => hreg) hreg

/-! ### The two checks of a range -/

/-- A length the ioctl lets through, in longwords. -/
theorem nlongs_of_le {len : ℤ} (h₀ : 0 ≤ len) (h₁ : len ≤ 1024) :
    ∃ k : ℕ, nlongs len = k ∧ len ≤ 4 * k ∧ 4 * k ≤ len + 3 ∧ accessLen len = 4 * k := by
  obtain ⟨n, rfl⟩ := Int.eq_ofNat_of_zero_le h₀
  refine ⟨(n + 3) / 4, nlongs_of_nat (by omega), by omega, by omega, ?_⟩
  rw [accessLen, nlongs_of_nat (by omega), int32_of_range (by omega) (by omega)]
  omega

/-- Without overflow, a range that passes the check of the copy routines lies
inside the buffer RAM. -/
theorem inRam_of_noOverflow {len offset : ℤ} (h₀ : 0 ≤ len) (h₁ : len ≤ 1024)
    (hs : int32 (offset + len) < 0x4000) (ho : -2147483648 ≤ offset)
    (hn : offset + len < 2147483648) (hr : ¬ OutOfRam len offset) :
    0 ≤ offset ∧ offset + 4 * (nlongs len).toNat ≤ 0x4000 := by
  obtain ⟨k, hk, hk₁, hk₂, ha⟩ := nlongs_of_le h₀ h₁
  rw [int32_of_range (by omega) hn] at hs
  unfold OutOfRam NE8390_START_PG NE8390_STOP_PG at hr
  rw [ha, int32_of_range (x := offset + 4 * k) (by omega) (by omega)] at hr
  rw [hk]
  omega

/-- With an overflow the check of the copy routines passes as well, and the
first longword is already outside. -/
theorem outside_of_overflow {len offset : ℤ} (h₁ : len ≤ 1024) (ho : offset < 2147483648)
    (hn : 2147483648 ≤ offset + len) :
    ¬ OutOfRam len offset ∧ 0x4000 ≤ offset ∧ ∃ k, (nlongs len).toNat = k + 1 := by
  obtain ⟨k, hk, hk₁, hk₂, ha⟩ := nlongs_of_le (by omega : 0 ≤ len) h₁
  refine ⟨?_, by omega, k - 1, by omega⟩
  unfold OutOfRam NE8390_START_PG NE8390_STOP_PG
  rw [ha]
  unfold int32
  omega

theorem int32_bounds (x : ℤ) : -2147483648 ≤ int32 x ∧ int32 x < 2147483648 := by
  unfold int32
  omega

section
variable (w : World) (b : BoardId) {t : HydraTest}

theorem readRam_confined_iff (h : RamRequest t) :
    Confined (hydraRamRead b 1024 t.len.toInt t.page.toInt) w ↔
      int32 (t.page.toInt * 256) + t.len.toInt < 2147483648 := by
  obtain ⟨h₀, h₁, hs⟩ := h
  rw [hydraRamRead, hydraRamReadOffset]
  have hb := int32_bounds (t.page.toInt * 256)
  generalize int32 (t.page.toInt * 256) = offset at hs hb ⊢
  generalize t.len.toInt = len at h₀ h₁ hs ⊢
  refine ⟨fun ha => ?_, fun hn => ?_⟩
  · by_contra hn
    obtain ⟨hr, ho, k, hk⟩ := outside_of_overflow h₁ hb.2 (by omega)
    rw [if_neg hr, hk, readLongs, Confined, along_bind, along_perform] at ha
    have hc := ha.1.2
    simp only [NE8390_STOP_PG] at hc
    omega
  · refine .of_all ?_ w
    by_cases hr : OutOfRam len offset
    · rw [if_pos hr]
      exact clearBuf_confined _ (by omega)
    · obtain ⟨ho, hk⟩ := inRam_of_noOverflow h₀ h₁ hs hb.1 hn hr
      rw [if_neg hr]
      exact readLongs_confined b _ h₁ ho (by omega)

theorem writeRam_confined_iff (h : RamRequest t) :
    Confined (hydraRamWrite b t.data.toList t.len.toInt t.page.toInt) w ↔
      int32 (t.page.toInt * 256) + t.len.toInt < 2147483648 := by
  obtain ⟨h₀, h₁, hs⟩ := h
  rw [hydraRamWrite, hydraRamWriteOffset]
  have hb := int32_bounds (t.page.toInt * 256)
  generalize int32 (t.page.toInt * 256) = offset at hs hb ⊢
  generalize t.len.toInt = len at h₀ h₁ hs ⊢
  refine ⟨fun ha => ?_, fun hn => ?_⟩
  · by_contra hn
    obtain ⟨hr, ho, k, hk⟩ := outside_of_overflow h₁ hb.2 (by omega)
    rw [if_neg hr, hk, writeLongs, Confined, along_bind, along_bind, along_perform] at ha
    have hc := ha.2.1.2
    simp only [NE8390_STOP_PG] at hc
    omega
  · refine .of_all ?_ w
    by_cases hr : OutOfRam len offset
    · rw [if_pos hr]
      trivial
    · obtain ⟨ho, hk⟩ := inRam_of_noOverflow h₀ h₁ hs hb.1 hn hr
      rw [if_neg hr]
      exact writeLongs_confined b _ h₁ ho (by omega)

/-- A range that does not overflow is no condition when the check fails. -/
theorem noOverflow_of_not_request (h : ¬ RamRequest t) (h₀ : 0 ≤ t.len.toInt)
    (h₁ : t.len.toInt ≤ 1024) : int32 (t.page.toInt * 256) + t.len.toInt < 2147483648 := by
  have hb := int32_bounds (t.page.toInt * 256)
  by_contra hn
  refine h ⟨h₀, h₁, ?_⟩
  unfold NE8390_STOP_PG
  generalize int32 (t.page.toInt * 256) = offset at hb hn ⊢
  unfold int32
  omega

/-- Carrying out a request is confined exactly if the request is in bounds. -/
theorem hydraTest_confined_iff (t : HydraTest) :
    Confined (hydraTest b t) w ↔ t.InBounds := by
  unfold hydraTest HydraTest.InBounds
  by_cases h₀ : t.op = HYDRA_TEST_READ_REG
  · rw [if_pos h₀, h₀]
    simp only [forall_const, show ¬ (HYDRA_TEST_READ_REG = HYDRA_TEST_READ_RAM ∨
      HYDRA_TEST_READ_REG = HYDRA_TEST_WRITE_RAM) by decide, false_implies, and_true]
    by_cases hf : t.reg.toNat = NE_FIFO
    · rw [if_pos hf]
      exact iff_of_true trivial (by rw [hf]; decide)
    · rw [if_neg hf]
      simp only [hydraInb, along_bind, along_perform, along_pure, and_true, Op.Confined]
      exact and_iff_left hf
  rw [if_neg h₀]
  simp only [h₀, false_implies, true_and]
  by_cases h₁ : t.op = HYDRA_TEST_WRITE_REG
  · rw [if_pos h₁, h₁]
    refine iff_of_true ?_ fun h => absurd h (by decide)
    exact .of_all (.bind (hydraTestWriteReg_confined b _ _) fun _ => all_pure t) w
  rw [if_neg h₁]
  by_cases h₂ : t.op = HYDRA_TEST_READ_RAM
  · rw [if_pos h₂]
    simp only [h₂, true_or, forall_const]
    by_cases hr : RamRequest t
    · rw [if_pos hr]
      simp only [along_bind, along_pure, and_true, readRam_confined_iff w b hr]
      exact ⟨fun h _ _ => h, fun h => h hr.1 hr.2.1⟩
    · rw [if_neg hr]
      exact iff_of_true trivial (noOverflow_of_not_request hr)
  rw [if_neg h₂]
  by_cases h₃ : t.op = HYDRA_TEST_WRITE_RAM
  · rw [if_pos h₃]
    simp only [h₃, or_true, forall_const]
    by_cases hr : RamRequest t
    · rw [if_pos hr]
      simp only [along_bind, along_pure, and_true, writeRam_confined_iff w b hr]
      exact ⟨fun h _ _ => h, fun h => h hr.1 hr.2.1⟩
    · rw [if_neg hr]
      exact iff_of_true trivial (noOverflow_of_not_request hr)
  rw [if_neg h₃]
  refine iff_of_true ?_ (by simp only [h₂, h₃, or_self, false_implies])
  -- the remaining commands touch neither the bus nor more than seven bytes
  refine .of_all ?_ w
  refine .ite trivial (.ite trivial (.ite ?_ trivial))
  refine .bind (.perform trivial) fun d => ?_
  exact .bind (pokes_confined 1024 (by omega) (by omega)) fun _ => trivial

end

/-! ### The ioctl -/

theorem iocReply_confined (q : QId) (count : Option ℕ) (arg : ℕ) (size : Struct) (data : IocData) :
    All Op.Confined (iocReply q count arg size data) := by
  refine .bind (.perform trivial) fun _ => .ite ?_ (.perform trivial)
  cases count with
  | none => exact .perform trivial
  | some _ => exact .perform trivial

section
variable {w : World} {q : QId} {s : Slot}

/-- The transparent form, with the structure copied in. -/
theorem hydraioctl_iocdata (hq : w.wptr q = some s) (cmd : ℕ) {priv : ℕ} (hp : priv ≠ 0)
    (t : HydraTest) : Confined (hydraioctl q (.iocdata cmd 0 priv t)) w ↔ t.InBounds := by
  simp [hydraioctl, hq, hp, hydraTest_confined_iff]

/-- The I_STR form. -/
theorem hydraioctl_istr (hq : w.wptr q = some s) (count arg : ℕ) (t : HydraTest) :
    Confined (hydraioctl q (.ioctl HYDRA_IOCTL_TEST (some count) arg t)) w ↔ t.InBounds := by
  have h₁ : ¬ (HYDRA_IOCTL_TEST = SIOCSIFFLAGS ∨ HYDRA_IOCTL_TEST = SIOCGIFFLAGS) := by decide
  have h₂ : HYDRA_IOCTL_TEST ≠ HYDRA_NUMBER_OF_BOARDS := by decide
  have h₃ : HYDRA_IOCTL_TEST ≠ HYDRA_GET_CONFIG := by decide
  have h₄ : HYDRA_IOCTL_TEST ≠ HYDRA_GET_STATUS := by decide
  simp only [hydraioctl, along_bind, along_perform, run_wrPtr, hq, run_load, Op.confined_wptr,
    Op.confined_load, true_and, if_neg h₁, if_neg h₂, if_neg h₃, if_neg h₄, if_true,
    hydraTest_confined_iff, Op.confined_putnext, and_true]

/-- A message that carries out no request reaches nothing. -/
theorem hydraioctl_noRequest {m : IocMsg} (hm : m.request = none) (w : World) :
    Confined (hydraioctl q m) w := by
  refine .of_all ?_ w
  unfold hydraioctl
  refine .bind (.perform trivial) fun p => ?_
  cases p with
  | none => trivial
  | some s =>
      refine .bind (.perform trivial) fun d => ?_
      cases m with
      | iocdata cmd rval priv t =>
          rw [IocMsg.request, ite_eq_right_iff] at hm
          by_cases hr : rval = 0
          · have hp : ¬ priv ≠ 0 := fun hp => absurd (hm ⟨hr, hp⟩) (Option.some_ne_none t)
            exact .ite (.perform trivial) (by rw [if_neg hp]; exact .perform trivial)
          · dsimp only
            rw [if_pos hr]
            exact .perform trivial
      | ioctl cmd count arg t =>
          have hreply := iocReply_confined q count arg
          refine .ite (.perform trivial) (.ite (hreply _ _) (.ite (hreply _ _) (.ite (hreply _ _) ?_)))
          cases count with
          | none =>
              refine .ite ?_ (.perform trivial)
              exact .bind (.perform trivial) fun _ => .ite (.perform trivial) (.perform trivial)
          | some n =>
              rw [IocMsg.request, ite_eq_right_iff] at hm
              have ht : cmd ≠ HYDRA_IOCTL_TEST := fun ht => absurd (hm ht) (Option.some_ne_none t)
              rw [if_neg ht]
              exact .perform trivial

end

/-- An ioctl stays confined exactly if the request it carries out, if any, is
in bounds. -/
theorem diagnostic_confined_iff (w : World) (q : QId) (m : IocMsg) :
    Confined (hydraioctl q m) w ↔
      (w.wptr q ≠ none → ∀ t, m.request = some t → t.InBounds) := by
  cases hq : w.wptr q with
  | none => exact iff_of_true (by simp [hydraioctl, hq]) fun h => absurd rfl h
  | some s =>
      rw [imp_iff_right (Option.some_ne_none s)]
      cases hm : m.request with
      | none => exact iff_of_true (hydraioctl_noRequest hm w) nofun
      | some t =>
          simp only [Option.some.injEq, forall_eq']
          cases m with
          | iocdata cmd rval priv t' =>
              rw [IocMsg.request] at hm
              split_ifs at hm with hc
              obtain ⟨rfl, hp⟩ := hc
              cases hm
              exact hydraioctl_iocdata hq cmd hp t
          | ioctl cmd count arg t' =>
              cases count with
              | none => exact absurd hm nofun
              | some n =>
                  rw [IocMsg.request] at hm
                  split_ifs at hm with hc
                  cases hm
                  rw [hc]
                  exact hydraioctl_istr hq n arg t

/-- Register 0x20 by way of I_STR, and a range of RAM whose end overflows by
way of the transparent form. -/
theorem diagnostic_confined_fails :
    let w : World := { World.off with wptr := fun _ => some ⟨0, 0⟩ }
    let t (op : Long) (reg : Byte) (page len : Long) : HydraTest :=
      ⟨op, reg, 0, page, 0, len, .replicate 1024 0, 0, 0, 0, 0, 0, 0, 0, 0⟩
    ¬ Confined (hydraioctl 0 (.ioctl HYDRA_IOCTL_TEST (some 0) 0
        (t HYDRA_TEST_READ_REG 0x20 0 0))) w ∧
      ¬ Confined (hydraioctl 0 (.iocdata HYDRA_IOCTL_TEST 0 1
        (t HYDRA_TEST_READ_RAM 0 0x7fffff 256))) w := by
  intro w t
  have hq : w.wptr 0 = some ⟨0, 0⟩ := rfl
  rw [hydraioctl_istr hq, hydraioctl_iocdata hq _ one_ne_zero]
  exact ⟨fun h => absurd (h.1 rfl) (by decide),
    fun h => absurd (h.2 (.inl rfl) (by decide) (by decide)) (by decide)⟩

end HydraAmix.Hydra
