import HydraAmix.Library.Word
import Mathlib.Data.Nat.Init

/-!
# Writing the memory of a debugged system

`rkwrite` sends a request for every four bytes, with the rest of the length for a count, and
`Handle_KDB_Packet` copies as many bytes as the count says from the data of the packet on;
what stands behind the data there is taken as it comes. The debugged system executes a
request once at most, as it knows it by its id, and answers only what it has executed.

Addresses have 32 bits. A user copy that faults has taken some bytes before.
-/
namespace HydraAmix.Kdb.Write
open Word

abbrev EFAULT : ℕ := 14
abbrev ENOMEM : ℕ := 12
abbrev ETIMEDOUT : ℕ := 145

abbrev Memory := Long → Byte

/-- `kdb_rdwr_t`, with the bytes of the packet from `data` on. -/
structure Rdwr where
  seek : Long
  count : ℕ
  data : ℕ → Byte

/-- `sizeof(request.kdb_rdwr.data)` -/
abbrev DATA : ℕ := 4

theorem left_lt {resid : ℕ} (h : ¬resid = 0) : resid - min DATA resid < resid := by
  have hdata : DATA = 4 := rfl
  omega

/-- `KDB_WRITE` in `Handle_KDB_Packet`. -/
def Rdwr.write (r : Rdwr) (mem : Memory) : Memory := fun a =>
  if (a - r.seek).toNat < r.count then r.data (a - r.seek).toNat else mem a

/-- What becomes of a request: `send_kdb_packet` has no memory for it, or it never arrives, or
it is executed and the answer never arrives, or both do. -/
inductive Outcome where
  | nomem | lost | unanswered | answered
  deriving DecidableEq

/-- What lies outside: the user's bytes, what is behind the data in the packet of each turn,
after how many bytes the user copy of a turn faults, and what becomes of its request. -/
structure Outside where
  user : ℕ → Byte
  junk : ℕ → ℕ → Byte
  faults : ℕ → Option ℕ
  outcomes : ℕ → Outcome

/-- What is returned, the bytes that were taken from the user and those of answered requests,
and the memory after each execution. -/
structure Result where
  error : ℕ
  taken : ℕ
  held : ℕ
  memories : List Memory

/-- The fault of the user copy in a turn with so many bytes left. -/
def Outside.fault (x : Outside) (j resid : ℕ) : Option ℕ :=
  (x.faults j).filter fun m => decide (m < min DATA resid)

/-- The request of the turn `j`, after `t` bytes. -/
def Outside.request (x : Outside) (offset : Long) (j t resid : ℕ) : Rdwr where
  seek := offset + BitVec.ofNat 32 t
  count := resid
  data i := if i < min DATA resid then x.user (t + i) else x.junk j i

/-- `rkwrite`, from the turn `j` on, after `t` bytes. -/
def rkwrite (x : Outside) (offset : Long) (j t resid : ℕ) (mem : Memory) : Result :=
  if resid = 0 then ⟨0, t, t, []⟩
  else
    let n := min DATA resid
    match x.fault j resid with
    | some m => ⟨EFAULT, t + m, t, []⟩
    | none =>
        let after := (x.request offset j t resid).write mem
        match x.outcomes j with
        | .nomem => ⟨ENOMEM, t + n, t, []⟩
        | .lost => ⟨ETIMEDOUT, t + n, t, []⟩
        | .unanswered => ⟨ETIMEDOUT, t + n, t, [after]⟩
        | .answered =>
            let r := rkwrite x offset (j + 1) (t + n) (resid - n) after
            { r with memories := after :: r.memories }
termination_by resid
decreasing_by exact left_lt (by assumption)

/-- The memory in the end. -/
def Result.memory (r : Result) (mem : Memory) : Memory := r.memories.getLast?.getD mem

/-- Outside of what was taken nothing is ever changed, and answered requests are kept. -/
structure Exact (x : Outside) (offset : Long) (mem : Memory) (r : Result) : Prop where
  within : ∀ m ∈ r.memories, ∀ a, r.taken ≤ (a - offset).toNat → m a = mem a
  memory : ∀ a, r.taken ≤ (a - offset).toNat → r.memory mem a = mem a
  held : ∀ i < r.held, r.memory mem (offset + BitVec.ofNat 32 i) = x.user i

/-- The turns whose requests are executed, each with the bytes taken before it, and how many
bytes are taken in all. -/
def executed (x : Outside) (j t resid : ℕ) : List (ℕ × ℕ) × ℕ :=
  if resid = 0 then ([], t)
  else
    let n := min DATA resid
    match x.fault j resid with
    | some m => ([], t + m)
    | none =>
        match x.outcomes j with
        | .nomem => ([], t + n)
        | .lost => ([], t + n)
        | .unanswered => ([(j, t)], t + n)
        | .answered =>
            ((j, t) :: (executed x (j + 1) (t + n) (resid - n)).1,
              (executed x (j + 1) (t + n) (resid - n)).2)
termination_by resid
decreasing_by all_goals exact left_lt (by assumption)

/-- In the packets that are executed, what belongs to bytes that are never taken is what the
memory holds. -/
def Harmless (x : Outside) (offset : Long) (length : ℕ) (mem : Memory) : Prop :=
  ∀ e ∈ (executed x 0 0 length).1, ∀ p, (executed x 0 0 length).2 ≤ p → p < length →
    x.junk e.1 (p - e.2) = mem (offset + BitVec.ofNat 32 p)

/-! ### One request -/

section
variable {x : Outside} {offset : Long} {mem : Memory}

theorem toNat_place (offset : Long) {p : ℕ} (hp : p < 4294967296) :
    (offset + BitVec.ofNat 32 p - offset).toNat = p := by
  have h := offset.isLt
  simp only [BitVec.toNat_sub, BitVec.toNat_add, BitVec.toNat_ofNat, Nat.reducePow] at h ⊢
  omega

/-- An address is the place so many bytes behind the offset. -/
theorem eq_place (offset a : Long) : a = offset + BitVec.ofNat 32 (a - offset).toNat := by
  rw [BitVec.ofNat_toNat, BitVec.setWidth_eq]
  bv_omega

/-- What a request leaves in the place `p`. -/
theorem write_place (x : Outside) (offset : Long) (mem : Memory) {j t resid p : ℕ}
    (hsum : t + resid ≤ 4294967296) (hp : p < 4294967296) :
    (x.request offset j t resid).write mem (offset + BitVec.ofNat 32 p) =
      if t ≤ p ∧ p < t + resid then
        if p < t + min DATA resid then x.user p else x.junk j (p - t)
      else mem (offset + BitVec.ofNat 32 p) := by
  have hdist : (offset + BitVec.ofNat 32 p - (offset + BitVec.ofNat 32 t)).toNat =
      (4294967296 - t % 4294967296 + p) % 4294967296 := by
    have h := offset.isLt
    simp only [BitVec.toNat_sub, BitVec.toNat_add, BitVec.toNat_ofNat, Nat.reducePow] at h ⊢
    omega
  unfold Rdwr.write Outside.request
  dsimp only
  rw [hdist]
  by_cases hin : t ≤ p ∧ p < t + resid
  · have hpos : (4294967296 - t % 4294967296 + p) % 4294967296 = p - t := by omega
    have hlt : p - t < resid := by omega
    rw [if_pos hin, hpos, if_pos hlt]
    by_cases hdata : p < t + min DATA resid
    · have hlt' : p - t < min DATA resid := by omega
      rw [if_pos hdata, if_pos hlt', Nat.add_sub_cancel' hin.1]
    · have hge : ¬p - t < min DATA resid := by omega
      rw [if_neg hdata, if_neg hge]
  · have hout : ¬(4294967296 - t % 4294967296 + p) % 4294967296 < resid := by omega
    rw [if_neg hin, if_neg hout]

/-- A request changes nothing behind what is taken if its packet has there what the memory
holds. -/
theorem write_within {mem₀ : Memory} {j t resid k : ℕ} (hsum : t + resid ≤ 4294967296)
    (hk : t + min DATA resid ≤ k)
    (hmem : ∀ a, k ≤ (a - offset).toNat → mem a = mem₀ a) :
    (∀ a, k ≤ (a - offset).toNat → (x.request offset j t resid).write mem a = mem₀ a) ↔
      ∀ p, k ≤ p → p < t + resid → x.junk j (p - t) = mem₀ (offset + BitVec.ofNat 32 p) := by
  constructor
  · intro h p hp hlt
    have hplace := toNat_place offset (p := p) (by omega)
    have hwrite := h (offset + BitVec.ofNat 32 p) (by rw [hplace]; exact hp)
    rwa [write_place x offset mem hsum (by omega), if_pos ⟨by omega, hlt⟩, if_neg (by omega)]
      at hwrite
  · intro h a ha
    have hplace := eq_place offset a
    have hlt : (a - offset).toNat < 4294967296 := (a - offset).isLt
    generalize (a - offset).toNat = p at *
    subst hplace
    rw [write_place x offset mem hsum hlt]
    split
    · rename_i hin
      rw [if_neg (by omega)]
      exact h p ha hin.2
    · exact hmem _ (by rw [toNat_place offset hlt]; exact ha)

/-! ### The whole call -/

theorem rkwrite_taken (x : Outside) (offset : Long) (j t resid : ℕ) (mem : Memory) :
    (rkwrite x offset j t resid mem).taken = (executed x j t resid).2 := by
  fun_induction rkwrite x offset j t resid mem with
  | case1 j t mem =>
      rw [executed]
      rfl
  | case2 j t resid mem h m hfault =>
      rw [executed, if_neg h, hfault]
  | case3 j t resid mem h n hfault hout =>
      rw [executed, if_neg h, hfault, hout]
  | case4 j t resid mem h n hfault hout =>
      rw [executed, if_neg h, hfault, hout]
  | case5 j t resid mem h n hfault after hout =>
      rw [executed, if_neg h, hfault, hout]
  | case6 j t resid mem h n hfault after hout r ih =>
      rw [executed, if_neg h, hfault, hout]
      exact ih

/-- The loop goes on after an answer. -/
theorem rkwrite_answered {j t resid : ℕ} (h : ¬resid = 0) (hfault : x.fault j resid = none)
    (hout : x.outcomes j = .answered) :
    rkwrite x offset j t resid mem =
      { rkwrite x offset (j + 1) (t + min DATA resid) (resid - min DATA resid)
          ((x.request offset j t resid).write mem) with
        memories := (x.request offset j t resid).write mem ::
          (rkwrite x offset (j + 1) (t + min DATA resid) (resid - min DATA resid)
            ((x.request offset j t resid).write mem)).memories } := by
  rw [rkwrite, if_neg h, hfault, hout]

theorem executed_bounds (x : Outside) (j t resid : ℕ) :
    t ≤ (executed x j t resid).2 ∧ (executed x j t resid).2 ≤ t + resid := by
  fun_induction executed x j t resid with
  | case1 j t => exact ⟨Nat.le_refl t, Nat.le_refl t⟩
  | case2 j t resid h m hfault =>
      have hm : m < min DATA resid := by
        have := (Option.filter_eq_some_iff.mp hfault).2
        exact of_decide_eq_true this
      dsimp only
      omega
  | case3 j t resid h n hfault hout => dsimp only; omega
  | case4 j t resid h n hfault hout => dsimp only; omega
  | case5 j t resid h n hfault hout => dsimp only; omega
  | case6 j t resid h n hfault hout ih => dsimp only; omega

/-- What is taken is left alone from the start on, and what is not taken stays as it was, if
the packets have there what the memory holds. -/
theorem rkwrite_within {mem₀ : Memory} {j t resid : ℕ} (hsum : t + resid ≤ 4294967296)
    (hmem : ∀ a, (executed x j t resid).2 ≤ (a - offset).toNat → mem a = mem₀ a) :
    (∀ m ∈ (rkwrite x offset j t resid mem).memories, ∀ a,
        (executed x j t resid).2 ≤ (a - offset).toNat → m a = mem₀ a) ↔
      ∀ e ∈ (executed x j t resid).1, ∀ p, (executed x j t resid).2 ≤ p → p < t + resid →
        x.junk e.1 (p - e.2) = mem₀ (offset + BitVec.ofNat 32 p) := by
  fun_induction rkwrite x offset j t resid mem with
  | case1 j t mem =>
      rw [executed]
      exact iff_of_true (List.forall_mem_nil _) (List.forall_mem_nil _)
  | case2 j t resid mem h m hfault =>
      rw [executed, if_neg h, hfault]
      exact iff_of_true (List.forall_mem_nil _) (List.forall_mem_nil _)
  | case3 j t resid mem h n hfault hout =>
      rw [executed, if_neg h, hfault, hout]
      exact iff_of_true (List.forall_mem_nil _) (List.forall_mem_nil _)
  | case4 j t resid mem h n hfault hout =>
      rw [executed, if_neg h, hfault, hout]
      exact iff_of_true (List.forall_mem_nil _) (List.forall_mem_nil _)
  | case5 j t resid mem h n hfault after hout =>
      have hex : executed x j t resid = ([(j, t)], t + n) := by
        rw [executed, if_neg h, hfault, hout]
      rw [hex] at hmem ⊢
      dsimp only at hmem ⊢
      rw [List.forall_mem_singleton, List.forall_mem_singleton]
      exact write_within hsum (Nat.le_refl _) hmem
  | case6 j t resid mem h n hfault after hout r ih =>
      have hex : executed x j t resid = ((j, t) :: (executed x (j + 1) (t + n) (resid - n)).1,
          (executed x (j + 1) (t + n) (resid - n)).2) := by
        rw [executed, if_neg h, hfault, hout]
      have hsum' : t + n + (resid - n) = t + resid := by omega
      have hle := (executed_bounds x (j + 1) (t + n) (resid - n)).1
      rw [hex] at hmem ⊢
      dsimp only at hmem ⊢
      rw [List.forall_mem_cons, List.forall_mem_cons, write_within hsum hle hmem]
      refine and_congr_right fun hhead => ?_
      have hrest := ih (by omega) ((write_within hsum hle hmem).mpr hhead)
      rwa [hsum'] at hrest

theorem memory_cons (r : Result) (after : Memory) :
    Result.memory { r with memories := after :: r.memories } mem = r.memory after := by
  unfold Result.memory
  dsimp only
  rw [List.getLast?_cons]
  rfl

/-- The bytes of answered requests are in the memory in the end. -/
theorem rkwrite_held {j t resid : ℕ} (hsum : t + resid ≤ 4294967296)
    (hheld : ∀ i < t, mem (offset + BitVec.ofNat 32 i) = x.user i) :
    ∀ i < (rkwrite x offset j t resid mem).held,
      (rkwrite x offset j t resid mem).memory mem (offset + BitVec.ofNat 32 i) = x.user i := by
  have hplace {j t resid : ℕ} {mem : Memory} (hsum : t + resid ≤ 4294967296)
      (hheld : ∀ i < t, mem (offset + BitVec.ofNat 32 i) = x.user i) (i : ℕ)
      (hi : i < t + min DATA resid) :
      (x.request offset j t resid).write mem (offset + BitVec.ofNat 32 i) = x.user i := by
    rw [write_place x offset mem hsum (by omega)]
    by_cases hin : t ≤ i ∧ i < t + resid
    · rw [if_pos hin, if_pos hi]
    · rw [if_neg hin]
      exact hheld i (by omega)
  fun_induction rkwrite x offset j t resid mem with
  | case1 j t mem => exact hheld
  | case2 j t resid mem h m hfault => exact hheld
  | case3 j t resid mem h n hfault hout => exact hheld
  | case4 j t resid mem h n hfault hout => exact hheld
  | case5 j t resid mem h n hfault after hout =>
      intro i hi
      exact hplace hsum hheld i (Nat.lt_add_right n hi)
  | case6 j t resid mem h n hfault after hout r ih =>
      rw [memory_cons]
      exact ih (by omega) (hplace hsum hheld)

theorem memory_mem (r : Result) (mem : Memory) : r.memory mem = mem ∨ r.memory mem ∈ r.memories := by
  unfold Result.memory
  cases h : r.memories.getLast? with
  | none => exact .inl rfl
  | some m => exact .inr (List.mem_of_getLast? h)

end

/-- A write of any length to any place is exact if and only if the packets do no harm. -/
theorem rkwrite_exact_iff (x : Outside) (offset : Long) (length : ℕ) (hlength : length < 2147483648)
    (mem : Memory) :
    Exact x offset mem (rkwrite x offset 0 0 length mem) ↔ Harmless x offset length mem := by
  have hwithin := @rkwrite_within x offset mem mem 0 0 length (by omega) fun _ _ => rfl
  rw [Nat.zero_add] at hwithin
  constructor
  · intro h
    have hexact := h.within
    rw [rkwrite_taken] at hexact
    exact hwithin.mp hexact
  · intro h
    have hexact := hwithin.mpr h
    rw [← rkwrite_taken x offset 0 0 length mem] at hexact
    refine ⟨hexact, fun a ha => ?_, ?_⟩
    · rcases memory_mem (rkwrite x offset 0 0 length mem) mem with hm | hm
      · rw [hm]
      · exact hexact _ hm a ha
    · exact rkwrite_held (by omega) fun i hi => absurd hi (Nat.not_lt_zero i)

/-- The user has the bytes 1 to 4; packets have 0xff behind their data. -/
def fourBytes (outcome : Outcome) : Outside where
  user i := BitVec.ofNat 8 (i + 1)
  junk _ _ := 0xff
  faults j := if j = 0 then none else some 0
  outcomes _ := outcome

/-- A write of four bytes whose answer never arrives. -/
theorem rkwrite_exact_iff_unanswered :
    Exact (fourBytes .unanswered) 0x1000 (fun _ => 0)
      (rkwrite (fourBytes .unanswered) 0x1000 0 0 4 fun _ => 0) := by
  refine (rkwrite_exact_iff _ 0x1000 4 (by decide) _).mpr fun e _ p hp hlt => ?_
  have htaken : (executed (fourBytes .unanswered) 0 0 4).2 = 4 := by
    rw [executed]
    rfl
  omega

/-- Of eight bytes the user has only four, and the four behind them are overwritten. -/
theorem rkwrite_wrong :
    (rkwrite (fourBytes .answered) 0x1000 0 0 8 fun _ => 0).error = EFAULT ∧
      ¬Exact (fourBytes .answered) 0x1000 (fun _ => 0)
        (rkwrite (fourBytes .answered) 0x1000 0 0 8 fun _ => 0) := by
  have hsecond (mem : Memory) : rkwrite (fourBytes .answered) 0x1000 (0 + 1) (0 + min DATA 8)
      (8 - min DATA 8) mem = ⟨EFAULT, 4, 4, []⟩ := by
    rw [rkwrite]
    rfl
  have hrun : rkwrite (fourBytes .answered) 0x1000 0 0 8 (fun _ => 0) = ⟨EFAULT, 4, 4,
      [((fourBytes .answered).request 0x1000 0 0 8).write fun _ => 0]⟩ := by
    rw [rkwrite_answered (by decide) rfl rfl, hsecond]
  refine ⟨by rw [hrun], fun h => ?_⟩
  rw [hrun] at h
  exact absurd (h.memory 0x1004 (by decide)) (by decide)

end HydraAmix.Kdb.Write
