import Mathlib.Data.BitVec
import Mathlib.Logic.Function.Basic

/-!
# Copying a range of memory onto another, a cell at a time

`forward` moves cells in ascending order, `backward` in descending order from
the ends of the ranges. The ranges may overlap: ascending order is right where
the destination lies at or below the source, descending order where it lies at
or above. Addresses are machine words; only the two ranges have to fit below
the end of the address space.
-/
namespace HydraAmix.Copy

variable {w : ℕ} {α : Type}

/-- `n` cells from `s` on to `d` on, in ascending order. -/
def forward (s d : BitVec w) : ℕ → (BitVec w → α) → BitVec w → α
  | 0, m => m
  | n + 1, m => forward (s + 1) (d + 1) n (Function.update m d (m s))

/-- `n` cells from `s` on to `d` on, in descending order. -/
def backward (s d : BitVec w) : ℕ → (BitVec w → α) → BitVec w → α
  | 0, m => m
  | n + 1, m =>
      backward s d n (Function.update m (d + BitVec.ofNat w n) (m (s + BitVec.ofNat w n)))

/-- The address lies in the `n` cells from `d` on. -/
def Within (d : BitVec w) (n : ℕ) (a : BitVec w) : Prop := d.toNat ≤ a.toNat ∧ a.toNat < d.toNat + n

instance (d : BitVec w) (n : ℕ) (a : BitVec w) : Decidable (Within d n a) :=
  inferInstanceAs (Decidable (_ ∧ _))

theorem toNat_one (h : 1 < 2 ^ w) : (1 : BitVec w).toNat = 1 := Nat.mod_eq_of_lt h

theorem toNat_succ {d : BitVec w} (h : d.toNat + 1 < 2 ^ w) : (d + 1).toNat = d.toNat + 1 := by
  rw [BitVec.toNat_add, toNat_one (by omega), Nat.mod_eq_of_lt h]

theorem toNat_add_ofNat {d : BitVec w} {i : ℕ} (h : d.toNat + i < 2 ^ w) :
    (d + BitVec.ofNat w i).toNat = d.toNat + i := by
  rw [BitVec.toNat_add, BitVec.toNat_ofNat, Nat.mod_eq_of_lt (show i < 2 ^ w by omega),
    Nat.mod_eq_of_lt h]

/-- The source cell of a destination cell. -/
theorem toNat_add_sub {s d a : BitVec w} (hd : d.toNat ≤ a.toNat)
    (hs : s.toNat + (a.toNat - d.toNat) < 2 ^ w) :
    (s + (a - d)).toNat = s.toNat + (a.toNat - d.toNat) := by
  rw [BitVec.toNat_add, BitVec.toNat_sub_of_le hd, Nat.mod_eq_of_lt hs]

theorem forward_apply {s d : BitVec w} {n : ℕ} (m : BitVec w → α) (hs : s.toNat + n ≤ 2 ^ w)
    (hle : d.toNat ≤ s.toNat) (a : BitVec w) :
    forward s d n m a = if Within d n a then m (s + (a - d)) else m a := by
  induction n generalizing s d m with
  | zero => rw [forward, if_neg fun h => by have := h.1; have := h.2; omega]
  | succ n ih =>
      rw [forward]
      by_cases h : a = d
      · subst h
        have hfirst : forward (s + 1) (a + 1) n (Function.update m a (m s)) a = m s := by
          cases n with
          | zero => rw [forward, Function.update_self]
          | succ n =>
              have hs' := toNat_succ (d := s) (by omega)
              have hd' := toNat_succ (d := a) (by omega)
              rw [ih _ (by omega) (by omega), if_neg fun hw => by have := hw.1; omega,
                Function.update_self]
        rw [hfirst, if_pos ⟨le_rfl, by omega⟩, BitVec.sub_self, BitVec.add_zero]
      · have hne : a.toNat ≠ d.toNat := fun he => h (BitVec.eq_of_toNat_eq he)
        cases n with
        | zero =>
            rw [forward, Function.update_of_ne h,
              if_neg fun hw => by have := hw.1; have := hw.2; omega]
        | succ n =>
            have hs' := toNat_succ (d := s) (by omega)
            have hd' := toNat_succ (d := d) (by omega)
            have hiff : Within (d + 1) (n + 1) a ↔ Within d (n + 2) a := by
              unfold Within
              omega
            have hadd : s + 1 + (a - (d + 1)) = s + (a - d) := by
              rw [← BitVec.sub_sub, BitVec.add_assoc, BitVec.add_comm 1, BitVec.sub_add_cancel]
            rw [ih _ (by omega) (by omega), if_congr hiff rfl rfl, hadd, Function.update_of_ne h]
            by_cases hw : Within d (n + 2) a
            · obtain ⟨hlo, hhi⟩ := hw
              have hsrc := toNat_add_sub (s := s) hlo (by omega)
              rw [if_pos ⟨hlo, hhi⟩, if_pos ⟨hlo, hhi⟩, Function.update_of_ne]
              intro he
              rw [he] at hsrc
              omega
            · rw [if_neg hw, if_neg hw]

theorem backward_apply {s d : BitVec w} {n : ℕ} (m : BitVec w → α) (hd : d.toNat + n ≤ 2 ^ w)
    (hle : s.toNat ≤ d.toNat) (a : BitVec w) :
    backward s d n m a = if Within d n a then m (s + (a - d)) else m a := by
  induction n generalizing m with
  | zero => rw [backward, if_neg fun h => by have := h.1; have := h.2; omega]
  | succ n ih =>
      have hlast := toNat_add_ofNat (d := d) (i := n) (by omega)
      rw [backward, ih _ (by omega)]
      by_cases h : a = d + BitVec.ofNat w n
      · subst h
        rw [if_neg fun hw => by have := hw.2; omega, Function.update_self,
          if_pos ⟨by omega, by omega⟩, BitVec.add_comm d, BitVec.add_sub_cancel]
      · have hne : a.toNat ≠ d.toNat + n := fun he => h (BitVec.eq_of_toNat_eq (he.trans hlast.symm))
        have hiff : Within d n a ↔ Within d (n + 1) a := by
          unfold Within
          omega
        rw [if_congr hiff rfl rfl, Function.update_of_ne h]
        by_cases hw : Within d (n + 1) a
        · obtain ⟨hlo, hhi⟩ := hw
          have hsrc := toNat_add_sub (s := s) hlo (by omega)
          rw [if_pos ⟨hlo, hhi⟩, if_pos ⟨hlo, hhi⟩, Function.update_of_ne]
          intro he
          rw [he] at hsrc
          omega
        · rw [if_neg hw, if_neg hw]

end HydraAmix.Copy
