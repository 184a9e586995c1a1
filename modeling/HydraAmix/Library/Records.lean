import Mathlib.Data.Nat.Notation

/-!
# Records of one size, stored one after the other

`storeAll` copies the records of a list to consecutive places, and returns the
places with the memory. Nothing says where it stops but the list.
-/
namespace HydraAmix.Records

variable {α : Type} {n : ℕ}

/-- A record of `n` cells stored at a place. -/
def store (at_ : ℕ) (d : Fin n → α) (m : ℕ → α) : ℕ → α :=
  fun a => if h : at_ ≤ a ∧ a < at_ + n then d ⟨a - at_, by omega⟩ else m a

/-- `*p++ = d` for each record of a list. -/
def storeAll : List (Fin n → α) → ℕ → (ℕ → α) → List ℕ × (ℕ → α)
  | [], _, m => ([], m)
  | d :: ds, p, m =>
    let r := storeAll ds (p + n) (store p d m)
    (p :: r.1, r.2)

theorem store_inside (p : ℕ) (d : Fin n → α) (m : ℕ → α) (k : Fin n) :
    store p d m (p + k) = d k := by
  have h : p ≤ p + k.val ∧ p + k.val < p + n := by omega
  rw [store, dif_pos h]
  congr 1
  apply Fin.ext
  exact Nat.add_sub_cancel_left p k.val

theorem store_outside {p a : ℕ} (d : Fin n → α) (m : ℕ → α) (h : a < p ∨ p + n ≤ a) :
    store p d m a = m a :=
  dif_neg (by omega)

/-- The places are as many as the records, `n` cells apart. -/
theorem storeAll_places (ds : List (Fin n → α)) (p : ℕ) (m : ℕ → α) :
    (storeAll ds p m).1 = (List.range ds.length).map (fun j => p + n * j) := by
  induction ds generalizing p m with
  | nil => rfl
  | cons d ds ih =>
    change p :: (storeAll ds (p + n) (store p d m)).1 = _
    rw [ih, List.length_cons, List.range_succ_eq_map, List.map_cons, List.map_map]
    congr 1
    apply List.map_congr_left
    intro j _
    simp only [Function.comp, Nat.mul_succ]
    omega

theorem storeAll_outside (ds : List (Fin n → α)) {p a : ℕ} (m : ℕ → α)
    (h : a < p ∨ p + n * ds.length ≤ a) : (storeAll ds p m).2 a = m a := by
  induction ds generalizing p m with
  | nil => rfl
  | cons d ds ih =>
    rw [List.length_cons, Nat.mul_succ] at h
    rw [storeAll, ih _ (by omega), store_outside _ _ (by omega)]

theorem storeAll_inside (ds : List (Fin n → α)) (p : ℕ) (m : ℕ → α) {j : ℕ} {d : Fin n → α}
    (hj : ds[j]? = some d) (k : Fin n) : (storeAll ds p m).2 (p + n * j + k) = d k := by
  induction ds generalizing p m j with
  | nil => exact absurd hj (Option.some_ne_none d).symm
  | cons e ds ih =>
    cases j with
    | zero =>
      obtain rfl := Option.some.inj hj
      rw [storeAll, storeAll_outside _ _ (Or.inl (by omega)), Nat.mul_zero, Nat.add_zero,
        store_inside]
    | succ j =>
      rw [storeAll, Nat.mul_succ, Nat.add_comm (n * j) n, ← Nat.add_assoc]
      exact ih _ _ hj

/-- All places are inside an array of `c` records only if the records are at
most `c`. -/
theorem storeAll_within (hn : 0 < n) (ds : List (Fin n → α)) (p c : ℕ) (m : ℕ → α) :
    (∀ q ∈ (storeAll ds p m).1, p ≤ q ∧ q + n ≤ p + n * c) ↔ ds.length ≤ c := by
  rw [storeAll_places]
  constructor
  · intro h
    rcases Nat.eq_zero_or_pos ds.length with h0 | hpos
    · rw [h0]
      exact Nat.zero_le c
    · have hlast := h (p + n * (ds.length - 1))
        (List.mem_map.mpr ⟨_, List.mem_range.mpr (Nat.sub_lt hpos Nat.one_pos), rfl⟩)
      have hle : n * (ds.length - 1 + 1) ≤ n * c := by
        rw [Nat.mul_succ]
        omega
      rw [Nat.sub_add_cancel hpos] at hle
      exact Nat.le_of_mul_le_mul_left hle hn
  · intro h q hq
    obtain ⟨j, hj, rfl⟩ := List.mem_map.mp hq
    have hle : n * (j + 1) ≤ n * c :=
      Nat.mul_le_mul_left n (Nat.le_trans (Nat.succ_le_of_lt (List.mem_range.mp hj)) h)
    rw [Nat.mul_succ] at hle
    omega

end HydraAmix.Records
