import Mathlib.Algebra.BigOperators.Group.Finset.Piecewise
import Mathlib.Algebra.BigOperators.Group.Finset.Basic
import Mathlib.Data.Fintype.Card

/-!
# Objects with a reference count

Objects are numbered in the order in which they are installed. Each carries a
count of `w` bits, and a finite number of slots may refer to it. An object is
freed when its count falls to zero. The store is sound for the contents of the
slots if every object is either freed, once, and referred to by no slot, or its
count is the number of the slots that refer to it; one object, which was just
installed, may be on its way to its first slot.
-/
namespace HydraAmix.RefCount
open Finset

variable {ι ω : Type} [Fintype ι]

/-- The number of slots that refer to an object. -/
def refs (slot : ι → Option ℕ) (n : ℕ) : ℕ := (univ.filter fun i => slot i = some n).card

structure Store (ω : Type) where
  next : ℕ
  head : ℕ → ω
  count : ℕ → ℕ
  freed : ℕ → ℕ

namespace Store

def empty (h : ω) : Store ω := ⟨0, fun _ => h, fun _ => 0, fun _ => 0⟩

/-- The object `c.next` is installed, with the count `k` in it. -/
def install (c : Store ω) (h : ω) (k : ℕ) : Store ω :=
  { c with
    next := c.next + 1
    head := Function.update c.head c.next h
    count := Function.update c.count c.next k }

def take (w : ℕ) (c : Store ω) (n : ℕ) : Store ω :=
  { c with count := Function.update c.count n ((c.count n + 1) % 2 ^ w) }

def drop (w : ℕ) (c : Store ω) (n : ℕ) : Store ω :=
  let k := (c.count n + 2 ^ w - 1) % 2 ^ w
  { c with
    count := Function.update c.count n k
    freed := if k = 0 then Function.update c.freed n (c.freed n + 1) else c.freed }

end Store

structure Sound (c : Store ω) (slot : ι → Option ℕ) (p : Option ℕ) : Prop where
  live : ∀ n < c.next, c.freed n = 0 →
    c.count n = refs slot n ∧ (0 < refs slot n ∨ p = some n)
  dead : ∀ n < c.next, c.freed n ≠ 0 → c.freed n = 1 ∧ refs slot n = 0
  beyond : ∀ n, c.next ≤ n → c.freed n = 0 ∧ refs slot n = 0
  pending : ∀ n, p = some n → n < c.next ∧ c.freed n = 0 ∧ refs slot n = 0

/-- Every object that was installed either is alive, with the number of its
references as its count, or was freed once and has none. -/
def Counted (c : Store ω) (slot : ι → Option ℕ) : Prop :=
  ∀ n, if n < c.next ∧ c.freed n = 0 then 0 < refs slot n ∧ c.count n = refs slot n
    else refs slot n = 0 ∧ c.freed n = if n < c.next then 1 else 0

variable {slot : ι → Option ℕ} {c : Store ω} {p : Option ℕ}

theorem Sound.counted (h : Sound c slot none) : Counted c slot := by
  intro n
  by_cases hn : n < c.next
  · by_cases hf : c.freed n = 0
    · rw [if_pos ⟨hn, hf⟩]
      obtain ⟨hc, hr | hr⟩ := h.live n hn hf
      · exact ⟨hr, hc⟩
      · cases hr
    · rw [if_neg fun hc => hf hc.2, if_pos hn]
      exact ⟨(h.dead n hn hf).2, (h.dead n hn hf).1⟩
  · rw [if_neg fun hc => hn hc.1, if_neg hn]
    exact ⟨(h.beyond n (Nat.le_of_not_lt hn)).2, (h.beyond n (Nat.le_of_not_lt hn)).1⟩

theorem refs_le (slot : ι → Option ℕ) (n : ℕ) : refs slot n ≤ Fintype.card ι :=
  card_le_univ _

theorem refs_pos (i : ι) {n : ℕ} (h : slot i = some n) : 0 < refs slot n :=
  card_pos.mpr ⟨i, mem_filter.mpr ⟨mem_univ i, h⟩⟩

theorem refs_none (n : ℕ) : refs (fun _ : ι => none) n = 0 := by
  simp [refs]

theorem sound_empty (h : ω) : Sound (Store.empty h) (fun _ : ι => none) none :=
  ⟨fun _ hn => absurd hn (Nat.not_lt_zero _), fun _ hn => absurd hn (Nat.not_lt_zero _),
    fun n _ => ⟨rfl, refs_none n⟩, nofun⟩

/-- What a slot refers to is alive. -/
theorem Sound.alive (h : Sound c slot p) (i : ι) {n : ℕ} (hi : slot i = some n) :
    n < c.next ∧ c.freed n = 0 := by
  have hpos := refs_pos i hi
  have hn : n < c.next := by
    by_contra hn
    rw [(h.beyond n (Nat.le_of_not_lt hn)).2] at hpos
    exact absurd hpos (Nat.lt_irrefl 0)
  refine ⟨hn, ?_⟩
  by_contra hf
  rw [(h.dead n hn hf).2] at hpos
  exact absurd hpos (Nat.lt_irrefl 0)

theorem Sound.install (h : Sound c slot none) (hd : ω) :
    Sound (c.install hd 0) slot (some c.next) := by
  have hnew := h.beyond c.next (Nat.le_refl _)
  refine ⟨fun n hn hf => ?_, fun n hn hf => ?_, fun n hn => h.beyond n (Nat.le_of_succ_le hn),
    fun n hn => ?_⟩
  · simp only [Store.install] at hn hf ⊢
    by_cases he : n = c.next
    · rw [he, Function.update_self]
      exact ⟨hnew.2.symm, .inr rfl⟩
    · rw [Function.update_of_ne he]
      obtain ⟨hc, hr | hr⟩ := h.live n (by omega) hf
      · exact ⟨hc, .inl hr⟩
      · cases hr
  · simp only [Store.install] at hn hf ⊢
    by_cases he : n = c.next
    · rw [he] at hf
      exact absurd hnew.1 hf
    · exact h.dead n (by omega) hf
  · cases hn
    exact ⟨Nat.lt_succ_self _, hnew⟩

variable [DecidableEq ι]

theorem refs_update (slot : ι → Option ℕ) (i : ι) (r : Option ℕ) (n : ℕ) :
    refs (Function.update slot i r) n + (if slot i = some n then 1 else 0) =
      refs slot n + if r = some n then 1 else 0 := by
  have hfun : (fun j => if Function.update slot i r j = some n then 1 else 0) =
      Function.update (fun j => if slot j = some n then 1 else 0) i
        (if r = some n then 1 else 0) := by
    funext j
    by_cases hj : j = i
    · rw [hj, Function.update_self, Function.update_self]
    · rw [Function.update_of_ne hj, Function.update_of_ne hj]
  unfold refs
  rw [card_filter, card_filter, hfun, sum_update_of_mem (mem_univ i),
    sum_eq_add_sum_sdiff_singleton_of_mem (mem_univ i) fun j => if slot j = some n then 1 else 0]
  omega

/-- A slot gives up its reference. -/
theorem Sound.drop {w : ℕ} (hw : Fintype.card ι < 2 ^ w) (h : Sound c slot p) {i : ι} {n : ℕ}
    (hi : slot i = some n) : Sound (c.drop w n) (Function.update slot i none) p := by
  obtain ⟨hn, hf⟩ := h.alive i hi
  have hpos := refs_pos i hi
  have hle := refs_le slot n
  have hcount := (h.live n hn hf).1
  have hself : refs (Function.update slot i none) n + 1 = refs slot n := by
    have := refs_update slot i none n
    rwa [if_pos hi, if_neg nofun, Nat.add_zero] at this
  have hother : ∀ m, m ≠ n → refs (Function.update slot i none) m = refs slot m := by
    intro m hm
    have := refs_update slot i none m
    rwa [if_neg (fun he => hm (Option.some.inj (he.symm.trans hi))), if_neg nofun, Nat.add_zero,
      Nat.add_zero] at this
  have hk : (c.count n + 2 ^ w - 1) % 2 ^ w = refs slot n - 1 := by
    rw [hcount, show refs slot n + 2 ^ w - 1 = refs slot n - 1 + 2 ^ w by omega,
      Nat.add_mod_right, Nat.mod_eq_of_lt (by omega)]
  have hfreed : ∀ m, m ≠ n → (c.drop w n).freed m = c.freed m := by
    intro m hm
    simp only [Store.drop]
    split_ifs
    · exact Function.update_of_ne hm _ _
    · rfl
  have hfn : (c.drop w n).freed n = if refs slot n = 1 then 1 else 0 := by
    simp only [Store.drop, hk]
    split_ifs with h0 h1 h1
    · rw [Function.update_self, hf]
    · omega
    · omega
    · exact hf
  refine ⟨fun m hm hfm => ?_, fun m hm hfm => ?_, fun m hm => ?_, fun m hm => ?_⟩
  · by_cases he : m = n
    · subst he
      rw [hfn] at hfm
      split_ifs at hfm with h1
      refine ⟨?_, .inl (by omega)⟩
      simp only [Store.drop, Function.update_self, hk]
      omega
    · rw [hfreed m he] at hfm
      rw [hother m he]
      simp only [Store.drop, Function.update_of_ne he]
      exact h.live m hm hfm
  · by_cases he : m = n
    · subst he
      have h1 : refs slot m = 1 := by
        by_contra h1
        rw [hfn, if_neg h1] at hfm
        exact hfm rfl
      rw [hfn, if_pos h1]
      exact ⟨rfl, by omega⟩
    · rw [hfreed m he] at hfm ⊢
      rw [hother m he]
      exact h.dead m hm hfm
  · have he : m ≠ n := fun he => absurd (he ▸ hm) (Nat.not_le.mpr hn)
    rw [hfreed m he, hother m he]
    exact h.beyond m hm
  · have he : m ≠ n := fun he => by
      have := (h.pending m hm).2.2
      rw [he] at this
      omega
    rw [hfreed m he, hother m he]
    exact h.pending m hm

/-- An empty slot takes a reference to the object that was just installed, or
to one that another slot refers to. -/
theorem Sound.take {w : ℕ} (hw : Fintype.card ι < 2 ^ w) (h : Sound c slot p) {i : ι} {n : ℕ}
    (hi : slot i = none) (hp : p = some n ∨ p = none ∧ 0 < refs slot n) :
    Sound (c.take w n) (Function.update slot i (some n)) none := by
  have hlive : n < c.next ∧ c.freed n = 0 := by
    obtain hp | ⟨-, hr⟩ := hp
    · exact ⟨(h.pending n hp).1, (h.pending n hp).2.1⟩
    · obtain ⟨j, hj⟩ := card_pos.mp hr
      exact h.alive j (mem_filter.mp hj).2
  have hself : refs (Function.update slot i (some n)) n = refs slot n + 1 := by
    have := refs_update slot i (some n) n
    rwa [hi, if_neg nofun, if_pos rfl, Nat.add_zero] at this
  have hother : ∀ m, m ≠ n → refs (Function.update slot i (some n)) m = refs slot m := by
    intro m hm
    have := refs_update slot i (some n) m
    rwa [hi, if_neg nofun, if_neg (fun he => hm (Option.some.inj he).symm), Nat.add_zero,
      Nat.add_zero] at this
  have hle := refs_le (Function.update slot i (some n)) n
  have hnotp : ∀ m, m ≠ n → p ≠ some m := by
    intro m hm he
    obtain hp | ⟨hp, -⟩ := hp
    · exact hm (Option.some.inj (he.symm.trans hp))
    · rw [hp] at he
      cases he
  refine ⟨fun m hm hfm => ?_, fun m hm hfm => ?_, fun m hm => ?_, nofun⟩
  · by_cases he : m = n
    · rw [he, hself]
      refine ⟨?_, .inl (Nat.succ_pos _)⟩
      simp only [Store.take, Function.update_self]
      rw [(h.live n hlive.1 hlive.2).1, Nat.mod_eq_of_lt (by omega)]
    · rw [hother m he]
      simp only [Store.take, Function.update_of_ne he]
      obtain ⟨hc, hr | hr⟩ := h.live m hm hfm
      · exact ⟨hc, .inl hr⟩
      · exact absurd hr (hnotp m he)
  · have he : m ≠ n := fun he => hfm (he ▸ hlive.2)
    rw [hother m he]
    exact h.dead m hm hfm
  · have he : m ≠ n := fun he => absurd (he ▸ hm) (Nat.not_le.mpr hlive.1)
    rw [hother m he]
    exact h.beyond m hm

end HydraAmix.RefCount
