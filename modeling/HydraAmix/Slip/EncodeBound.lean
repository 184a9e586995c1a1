import HydraAmix.Slip.RoundTrip

/-!
# How much `slipxmit` writes

A request of `n` bytes makes `n` characters, one more for every byte that has
to be escaped, and the end. The block asked for is meant for two characters a
byte: a request of `SLIP_MAX` bytes that are all escaped leaves the end no
place in it, and longer requests are sent like any other.
-/
namespace HydraAmix.Slip
open Word Library

/-- Everything was written, and into the first `size` bytes of the block. -/
def Mblk.Within (b : Mblk) (size : ℕ) : Prop := b.bytes.length ≤ size ∧ b.overrun = false

/-- What the size asked for allows: up to `SLIP_MAX` bytes fit into it, and
more are refused. -/
def Slipdev.XmitBounded (slip : Slipdev) (canput : Bool) (room : Option ℕ)
    (dlpimp : List (List Byte)) : Prop :=
  (dlpimp.flatten.length ≤ SLIP_MAX →
    ∀ outmp ∈ (slip.slipxmit canput room dlpimp).2, outmp.Within (2 * SLIP_MAX)) ∧
  (SLIP_MAX < dlpimp.flatten.length → (slip.slipxmit canput room dlpimp).2 = none)

section
variable {slip : Slipdev} {b : Mblk} {size : ℕ}

namespace Mblk

theorem putc_overrun (h : b.overrun = true) (ch : Byte) : (b.putc ch).overrun = true := by
  unfold putc
  split
  · exact h
  · rfl

theorem foldl_putc_overrun (cs : List Byte) (h : b.overrun = true) :
    (cs.foldl putc b).overrun = true := by
  induction cs generalizing b with
  | nil => exact h
  | cons c cs ih => exact ih (putc_overrun h c)

/-- One character too many is noticed. -/
theorem foldl_putc_past (cs : List Byte) (hb : b.bytes.length ≤ b.lim)
    (h : b.lim < b.bytes.length + cs.length) : (cs.foldl putc b).overrun = true := by
  induction cs generalizing b with
  | nil => exact absurd h (by rw [List.length_nil]; omega)
  | cons c cs ih =>
      rw [List.length_cons] at h
      rw [List.foldl_cons]
      by_cases hroom : b.bytes.length < b.lim
      · have hput : b.putc c = { b with bytes := b.bytes ++ [c] } := if_pos hroom
        rw [hput]
        apply ih
        · rw [List.length_append, List.length_singleton]
          exact hroom
        · rw [List.length_append, List.length_singleton]
          dsimp only
          omega
      · apply foldl_putc_overrun
        exact congrArg Mblk.overrun (if_neg hroom)

theorem foldl_putc_within (cs : List Byte) (hsize : size ≤ b.lim) (hb : b.Within size) :
    (cs.foldl putc b).Within size ↔ b.bytes.length + cs.length ≤ size := by
  obtain ⟨hlen, hover⟩ := hb
  by_cases h : b.bytes.length + cs.length ≤ b.lim
  · rw [foldl_putc b cs h, Within, List.length_append]
    exact and_iff_left hover
  · have hpast := foldl_putc_past cs (Nat.le_trans hlen hsize) (Nat.lt_of_not_le h)
    constructor
    · intro hw
      exact absurd (hpast.symm.trans hw.2) (by decide)
    · intro hle
      exact absurd (Nat.le_trans hle hsize) h

end Mblk

namespace Slipdev

/-- The characters of a packet: its bytes, the escapes and the end. -/
theorem slipxmit_within_iff (slip : Slipdev) (more : ℕ) (dlpimp : List (List Byte)) :
    (∀ outmp ∈ (slip.slipxmit true (some more) dlpimp).2, outmp.Within (2 * SLIP_MAX)) ↔
      dlpimp.flatten.length + dlpimp.flatten.countP chars.marked + 1 ≤ 2 * SLIP_MAX := by
  have hsent : (slip.slipxmit true (some more) dlpimp).2 =
      some ((dlpimp.flatten.flatMap chars.stuff ++ [FRAME_END]).foldl Mblk.putc
        ⟨[], 2 * SLIP_MAX + more, false⟩) := by
    rw [slipxmit, if_neg (by decide), List.foldl_append, ← Mblk.foldl_putEscaped]
    rfl
  rw [hsent]
  simp only [Option.mem_def, Option.some.injEq, forall_eq']
  rw [Mblk.foldl_putc_within _ (Nat.le_add_right _ more) ⟨Nat.zero_le _, rfl⟩,
    List.length_append, Stuffing.length_flatMap_stuff, List.length_nil, Nat.zero_add,
    List.length_singleton]

theorem slipxmit_refused {canput : Bool} {room : Option ℕ} (dlpimp : List (List Byte))
    (h : canput = false ∨ room = none) : (slip.slipxmit canput room dlpimp).2 = none := by
  unfold slipxmit
  split
  · rfl
  · rcases h with h | rfl
    · contradiction
    · rfl

end Slipdev

/-- A request is within the size asked for unless it gets a block and has more
than `SLIP_MAX` bytes, or `SLIP_MAX` bytes that are all escaped. -/
theorem slipxmit_bounded_iff (slip : Slipdev) (canput : Bool) (room : Option ℕ)
    (dlpimp : List (List Byte)) :
    slip.XmitBounded canput room dlpimp ↔
      canput = false ∨ room = none ∨ dlpimp.flatten.length < SLIP_MAX ∨
        dlpimp.flatten.length = SLIP_MAX ∧
          ∃ c ∈ dlpimp.flatten, c ≠ FRAME_ESCAPE ∧ c ≠ FRAME_END := by
  by_cases hno : canput = false ∨ room = none
  · have hnone := slip.slipxmit_refused dlpimp hno
    constructor
    · intro _
      rcases hno with h | h
      · exact .inl h
      · exact .inr (.inl h)
    · intro _
      constructor
      · intro _ outmp hout
        rw [hnone] at hout
        exact absurd hout (Option.not_mem_none outmp)
      · intro _
        exact hnone
  · obtain ⟨hcan, hroom⟩ := not_or.mp hno
    obtain rfl : canput = true := eq_true_of_ne_false hcan
    obtain ⟨more, rfl⟩ := Option.ne_none_iff_exists'.mp hroom
    have hsent : (slip.slipxmit true (some more) dlpimp).2 ≠ none := Option.some_ne_none _
    have hle : dlpimp.flatten.countP chars.marked ≤ dlpimp.flatten.length := List.countP_le_length
    have hlt := Stuffing.countP_marked_lt (c := chars) dlpimp.flatten
    rw [Slipdev.XmitBounded, slip.slipxmit_within_iff]
    constructor
    · rintro ⟨hfits, hlong⟩
      right
      right
      have hmax : dlpimp.flatten.length ≤ SLIP_MAX :=
        Nat.le_of_not_lt fun h => hsent (hlong h)
      rcases Nat.lt_or_eq_of_le hmax with h | h
      · exact .inl h
      · have hcount := hfits hmax
        exact .inr ⟨h, hlt.mp (by omega)⟩
    · rintro (h | h | h | ⟨h, hplain⟩)
      · exact absurd h (by decide)
      · exact absurd h (Option.some_ne_none more)
      · constructor
        · intro _
          omega
        · intro hlong
          omega
      · have hcount := hlt.mpr hplain
        constructor
        · intro _
          omega
        · intro hlong
          omega

/-- `SLIP_MAX` ends in one block write one character more than was asked for. -/
theorem slipxmit_past_block :
    ¬ Slipdev.XmitBounded ⟨0, 0, 0, 0, none, false⟩ true (some 0)
      [List.replicate SLIP_MAX FRAME_END] := by
  rintro ⟨hfits, -⟩
  have h := hfits (Nat.le_of_eq (by rw [List.flatten_singleton, List.length_replicate]))
  rw [Slipdev.slipxmit_within_iff, List.flatten_singleton, List.length_replicate,
    List.countP_replicate] at h
  exact absurd h (by decide)

end
end HydraAmix.Slip
