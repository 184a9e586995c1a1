import HydraAmix.Library.Copy
import HydraAmix.Library.Word

/-!
# Moving the kernel to its place

`copyit` is the last code of the boot process: it moves the sections of the
kernel from the buffer they were loaded into to their addresses and jumps to
the entry point. Its own code, its stack and the `copyinfo` are in chip memory,
which the boot code presumes to be safe from being overwritten; the memory here
is the rest. `cmp.l %a0,%a1` compares as `%a0 - %a1`, so the carry is clear and
the copy goes down exactly when the buffer of `.text` is not below its address.

The two loops test for the end with `bcc` after `sub.l`: the subtraction
borrows only once `%d0` is zero already, so a section of `n` bytes, if it is
not empty, has `n + 1` bytes moved.
-/
namespace HydraAmix.Boot
open Word Copy

abbrev Memory := Long → Byte

/-- The source address, the destination and the size of one section. -/
structure Part where
  buf : Long
  vaddr : Long
  size : Long
  deriving DecidableEq, Repr

/-- `struct copyinfo`, less the stack pointer. -/
structure CopyInfo where
  entry : Long
  d0 : Long
  d1 : Long
  text : Part
  rodata : Part
  data : Part
  deriving DecidableEq, Repr

/-- The machine when the kernel is entered. -/
structure Handoff where
  mem : Memory
  pc : Long
  d0 : Long
  d1 : Long

def docopydownmore (a0 a1 d0 : Long) (m : Memory) : Memory :=
  let m := Function.update m a1 (m a0)
  if d0 = 0 then m else docopydownmore (a0 + 1) (a1 + 1) (d0 - 1) m
termination_by d0.toNat
decreasing_by bv_omega

def docopydown (p : Part) (m : Memory) : Memory :=
  if p.size = 0 then m else docopydownmore p.buf p.vaddr p.size m

def docopyupmore (a0 a1 d0 : Long) (m : Memory) : Memory :=
  let a0 := a0 - 1
  let a1 := a1 - 1
  let m := Function.update m a1 (m a0)
  if d0 = 0 then m else docopyupmore a0 a1 (d0 - 1) m
termination_by d0.toNat
decreasing_by bv_omega

def docopyup (p : Part) (m : Memory) : Memory :=
  if p.size = 0 then m else docopyupmore (p.buf + p.size) (p.vaddr + p.size) p.size m

def copyit (ci : CopyInfo) (m : Memory) : Handoff :=
  let m :=
    if ci.text.vaddr ≤ ci.text.buf then
      docopydown ci.data (docopydown ci.rodata (docopydown ci.text m))
    else docopyup ci.text (docopyup ci.rodata (docopyup ci.data m))
  ⟨m, ci.entry, ci.d0, ci.d1⟩

/-! ### What one section's copy does -/

theorem docopydownmore_eq (s d k : Long) (m : Memory) :
    docopydownmore s d k m = forward s d (k.toNat + 1) m := by
  induction s, d, k, m using docopydownmore.induct with
  | case1 s d m =>
      rw [docopydownmore]
      rfl
  | case2 s d k m m' hk ih =>
      rw [docopydownmore, if_neg hk, ih]
      have hpred : (k - 1).toNat + 1 = k.toNat := by bv_omega
      rw [hpred]
      rfl

theorem docopyupmore_eq (s d k : Long) (m : Memory) :
    docopyupmore (s + k) (d + k) k m = backward (s - 1) (d - 1) (k.toNat + 1) m := by
  induction hn : k.toNat generalizing k m with
  | zero =>
      obtain rfl : k = 0 := BitVec.eq_of_toNat_eq hn
      rw [docopyupmore, if_pos rfl]
      simp [backward]
  | succ n ih =>
      have hk : k ≠ 0 := fun h => by simp [h] at hn
      have hlast : ∀ x : Long, x + k - 1 = x - 1 + BitVec.ofNat 32 (n + 1) := fun x => by
        rw [← hn, BitVec.ofNat_toNat, BitVec.setWidth_eq]
        exact add_sub_right_comm x k 1
      have hpred : ∀ x : Long, x + k - 1 = x + (k - 1) := fun x => add_sub_assoc x k 1
      rw [docopyupmore, if_neg hk, hpred s, hpred d, ih _ _ (by bv_omega), ← hpred s, ← hpred d,
        hlast s, hlast d]
      rfl

/-- The bytes a section's copy moves: one more than it has. -/
def Part.count (p : Part) : ℕ := if p.size = 0 then 0 else p.size.toNat + 1

theorem Part.count_le (p : Part) : p.count ≤ p.size.toNat + 1 := by
  unfold Part.count
  split <;> omega

/-- The address lies in the destination of the section. -/
def Part.Dest (p : Part) (a : Long) : Prop := Within p.vaddr p.size.toNat a

instance (p : Part) (a : Long) : Decidable (p.Dest a) :=
  inferInstanceAs (Decidable (Within _ _ _))

section
variable {p : Part} {m : Memory} {a : Long}

theorem docopydown_apply (hb : p.buf.toNat + p.size.toNat < 2 ^ 32)
    (hle : p.vaddr.toNat ≤ p.buf.toNat) :
    docopydown p m a = if Within p.vaddr p.count a then m (p.buf + (a - p.vaddr)) else m a := by
  rw [docopydown, Part.count]
  split_ifs with h hw hw
  · exact absurd hw fun hw => by have := hw.1; have := hw.2; omega
  · rfl
  all_goals rw [docopydownmore_eq, forward_apply _ (by omega) hle]
  · exact if_pos hw
  · exact if_neg hw

/-- Above the end of its source a copy down changes nothing. -/
theorem docopydown_above (hb : p.buf.toNat + p.size.toNat < 2 ^ 32)
    (hle : p.vaddr.toNat ≤ p.buf.toNat) (ha : p.buf.toNat + p.size.toNat ≤ a.toNat) :
    docopydown p m a = m a := by
  rw [docopydown_apply hb hle]
  split_ifs with hw
  · have hc := p.count_le
    obtain ⟨hlo, hhi⟩ := hw
    -- the one address that is moved is moved to itself
    have he : p.vaddr = p.buf := BitVec.eq_of_toNat_eq (by omega)
    rw [he, BitVec.add_comm, BitVec.sub_add_cancel]
  · rfl

theorem docopydown_below (hb : p.buf.toNat + p.size.toNat < 2 ^ 32)
    (hle : p.vaddr.toNat ≤ p.buf.toNat) (ha : a.toNat < p.vaddr.toNat) :
    docopydown p m a = m a := by
  rw [docopydown_apply hb hle, if_neg fun hw => by have := hw.1; omega]

theorem docopydown_beyond (hb : p.buf.toNat + p.size.toNat < 2 ^ 32)
    (hle : p.vaddr.toNat ≤ p.buf.toNat) (ha : p.vaddr.toNat + p.size.toNat < a.toNat) :
    docopydown p m a = m a := by
  have hc := p.count_le
  rw [docopydown_apply hb hle, if_neg fun hw => by have := hw.2; omega]

theorem docopydown_dest (hb : p.buf.toNat + p.size.toNat < 2 ^ 32)
    (hle : p.vaddr.toNat ≤ p.buf.toNat) (ha : p.Dest a) :
    docopydown p m a = m (p.buf + (a - p.vaddr)) := by
  obtain ⟨hlo, hhi⟩ := ha
  have hs : p.size ≠ 0 := fun h => by simp [h] at hhi; omega
  rw [docopydown_apply hb hle, if_pos]
  rw [Part.count, if_neg hs]
  exact ⟨hlo, by omega⟩

/-- The byte behind the destination. -/
theorem docopydown_end (hb : p.buf.toNat + p.size.toNat < 2 ^ 32)
    (hle : p.vaddr.toNat ≤ p.buf.toNat) :
    docopydown p m (p.vaddr + p.size) =
      if p.size = 0 then m (p.vaddr + p.size) else m (p.buf + p.size) := by
  by_cases h : p.size = 0
  · rw [docopydown, if_pos h, if_pos h]
  · have ha : (p.vaddr + p.size).toNat = p.vaddr.toNat + p.size.toNat := by
      rw [BitVec.toNat_add, Nat.mod_eq_of_lt (by omega)]
    rw [docopydown_apply hb hle, if_neg h, if_pos, BitVec.add_comm p.vaddr, BitVec.add_sub_cancel]
    rw [Part.count, if_neg h]
    exact ⟨by omega, by omega⟩

theorem docopyup_apply (hb : 0 < p.buf.toNat) (hle : p.buf.toNat ≤ p.vaddr.toNat)
    (hv : p.vaddr.toNat + p.size.toNat ≤ 2 ^ 32) :
    docopyup p m a =
      if Within (p.vaddr - 1) p.count a then m (p.buf + (a - p.vaddr)) else m a := by
  have hbuf : (p.buf - 1).toNat = p.buf.toNat - 1 := by bv_omega
  have hvaddr : (p.vaddr - 1).toNat = p.vaddr.toNat - 1 := by bv_omega
  have hshift : p.buf - 1 + (a - (p.vaddr - 1)) = p.buf + (a - p.vaddr) := by
    rw [← sub_add, add_comm (a - p.vaddr), ← add_assoc, sub_add_cancel]
  rw [docopyup, Part.count]
  split_ifs with h hw hw
  · exact absurd hw fun hw => by have := hw.1; have := hw.2; omega
  · rfl
  all_goals rw [docopyupmore_eq, backward_apply _ (by omega) (by omega), hshift]
  · exact if_pos hw
  · exact if_neg hw

/-- Below the start of its source a copy up changes nothing. -/
theorem docopyup_below (hb : 0 < p.buf.toNat) (hle : p.buf.toNat ≤ p.vaddr.toNat)
    (hv : p.vaddr.toNat + p.size.toNat ≤ 2 ^ 32) (ha : a.toNat < p.buf.toNat) :
    docopyup p m a = m a := by
  have hvaddr : (p.vaddr - 1).toNat = p.vaddr.toNat - 1 := by bv_omega
  rw [docopyup_apply hb hle hv]
  split_ifs with hw
  · obtain ⟨hlo, hhi⟩ := hw
    have he : p.vaddr = p.buf := BitVec.eq_of_toNat_eq (by omega)
    rw [he, BitVec.add_comm, BitVec.sub_add_cancel]
  · rfl

theorem docopyup_above (hb : 0 < p.buf.toNat) (hle : p.buf.toNat ≤ p.vaddr.toNat)
    (hv : p.vaddr.toNat + p.size.toNat ≤ 2 ^ 32) (ha : p.vaddr.toNat + p.size.toNat ≤ a.toNat) :
    docopyup p m a = m a := by
  have hvaddr : (p.vaddr - 1).toNat = p.vaddr.toNat - 1 := by bv_omega
  have hc := p.count_le
  rw [docopyup_apply hb hle hv, if_neg fun hw => by have := hw.2; omega]

theorem docopyup_before (hb : 0 < p.buf.toNat) (hle : p.buf.toNat ≤ p.vaddr.toNat)
    (hv : p.vaddr.toNat + p.size.toNat ≤ 2 ^ 32) (ha : a.toNat + 1 < p.vaddr.toNat) :
    docopyup p m a = m a := by
  have hvaddr : (p.vaddr - 1).toNat = p.vaddr.toNat - 1 := by bv_omega
  rw [docopyup_apply hb hle hv, if_neg fun hw => by have := hw.1; omega]

theorem docopyup_dest (hb : 0 < p.buf.toNat) (hle : p.buf.toNat ≤ p.vaddr.toNat)
    (hv : p.vaddr.toNat + p.size.toNat ≤ 2 ^ 32) (ha : p.Dest a) :
    docopyup p m a = m (p.buf + (a - p.vaddr)) := by
  obtain ⟨hlo, hhi⟩ := ha
  have hvaddr : (p.vaddr - 1).toNat = p.vaddr.toNat - 1 := by bv_omega
  have hs : p.size ≠ 0 := fun h => by simp [h] at hhi; omega
  rw [docopyup_apply hb hle hv, if_pos]
  rw [Part.count, if_neg hs]
  exact ⟨by omega, by omega⟩

/-- The byte before the destination. -/
theorem docopyup_start (hb : 0 < p.buf.toNat) (hle : p.buf.toNat ≤ p.vaddr.toNat)
    (hv : p.vaddr.toNat + p.size.toNat ≤ 2 ^ 32) :
    docopyup p m (p.vaddr - 1) =
      if p.size = 0 then m (p.vaddr - 1) else m (p.buf - 1) := by
  by_cases h : p.size = 0
  · rw [docopyup, if_pos h, if_pos h]
  · have hsrc : p.buf + (p.vaddr - 1 - p.vaddr) = p.buf - 1 := by
      rw [sub_right_comm, sub_self, zero_sub, ← sub_eq_add_neg]
    rw [docopyup_apply hb hle hv, if_neg h, if_pos, hsrc]
    rw [Part.count, if_neg h]
    exact ⟨le_rfl, by omega⟩

end

/-! ### The whole copy -/

/-- The destinations hold what the sources held, and nothing else changed. -/
structure CopyInfo.Moved (ci : CopyInfo) (m m' : Memory) : Prop where
  text : ∀ a, ci.text.Dest a → m' a = m (ci.text.buf + (a - ci.text.vaddr))
  rodata : ∀ a, ci.rodata.Dest a → m' a = m (ci.rodata.buf + (a - ci.rodata.vaddr))
  data : ∀ a, ci.data.Dest a → m' a = m (ci.data.buf + (a - ci.data.vaddr))
  other : ∀ a, ¬ ci.text.Dest a → ¬ ci.rodata.Dest a → ¬ ci.data.Dest a → m' a = m a

/-- Every section moves down, or stays. -/
def CopyInfo.Down (ci : CopyInfo) : Prop :=
  ci.text.vaddr ≤ ci.text.buf ∧ ci.rodata.vaddr ≤ ci.rodata.buf ∧ ci.data.vaddr ≤ ci.data.buf

def CopyInfo.Up (ci : CopyInfo) : Prop :=
  ci.text.buf < ci.text.vaddr ∧ ci.rodata.buf ≤ ci.rodata.vaddr ∧ ci.data.buf ≤ ci.data.vaddr

/-- The assumptions of `copyit`: the sources lie in order in one buffer, an
object in memory; the destinations are contiguous in the same order; all
sections move in one direction. -/
structure CopyInfo.Placed (ci : CopyInfo) : Prop where
  buffer : 0 < ci.text.buf.toNat
  text_source : ci.text.buf.toNat + ci.text.size.toNat ≤ ci.rodata.buf.toNat
  rodata_source : ci.rodata.buf.toNat + ci.rodata.size.toNat ≤ ci.data.buf.toNat
  buffer_end : ci.data.buf.toNat + ci.data.size.toNat < 2 ^ 32
  text_dest : ci.rodata.vaddr.toNat = ci.text.vaddr.toNat + ci.text.size.toNat
  rodata_dest : ci.data.vaddr.toNat = ci.rodata.vaddr.toNat + ci.rodata.size.toNat
  data_dest : ci.data.vaddr.toNat + ci.data.size.toNat ≤ 2 ^ 32
  direction : ci.Down ∨ ci.Up

/-- The last section with any bytes (`.text` if there is none). -/
def CopyInfo.last (ci : CopyInfo) : Part :=
  if ci.data.size ≠ 0 then ci.data else if ci.rodata.size ≠ 0 then ci.rodata else ci.text

def CopyInfo.first (ci : CopyInfo) : Part :=
  if ci.text.size ≠ 0 then ci.text else if ci.rodata.size ≠ 0 then ci.rodata else ci.data

/-- The one byte too many that is copied does no harm: there is no byte to copy
at all, or the byte behind the last section (going up, before the first) is in
its place already. -/
def CopyInfo.Harmless (ci : CopyInfo) (m : Memory) : Prop :=
  if ci.text.vaddr ≤ ci.text.buf then
    ci.last.size = 0 ∨ m (ci.last.buf + ci.last.size) = m (ci.last.vaddr + ci.last.size)
  else ci.first.size = 0 ∨ m (ci.first.buf - 1) = m (ci.first.vaddr - 1)

namespace CopyInfo

variable {ci : CopyInfo}

/-- The memory after the three sections were copied down. -/
def lowered (ci : CopyInfo) (m : Memory) : Memory :=
  docopydown ci.data (docopydown ci.rodata (docopydown ci.text m))

def raised (ci : CopyInfo) (m : Memory) : Memory :=
  docopyup ci.text (docopyup ci.rodata (docopyup ci.data m))

section Down

variable (hp : ci.Placed) (hd : ci.Down) (m : Memory)
include hp hd

theorem lowered_text {a : Long} (ha : ci.text.Dest a) :
    ci.lowered m a = m (ci.text.buf + (a - ci.text.vaddr)) := by
  obtain ⟨hb, ht, hr, he, htd, hrd, hdd, -⟩ := hp
  obtain ⟨ht', hr', hd'⟩ := hd
  have hhi := ha.2
  rw [lowered, docopydown_below he hd' (by omega), docopydown_below (by omega) hr' (by omega),
    docopydown_dest (by omega) ht' ha]

theorem lowered_rodata {a : Long} (ha : ci.rodata.Dest a) :
    ci.lowered m a = m (ci.rodata.buf + (a - ci.rodata.vaddr)) := by
  obtain ⟨hb, ht, hr, he, htd, hrd, hdd, -⟩ := hp
  obtain ⟨ht', hr', hd'⟩ := hd
  obtain ⟨hlo, hhi⟩ := ha
  have hsrc := toNat_add_sub (s := ci.rodata.buf) hlo (by omega)
  rw [lowered, docopydown_below he hd' (by omega), docopydown_dest (by omega) hr' ⟨hlo, hhi⟩,
    docopydown_above (by omega) ht' (by omega)]

theorem lowered_data {a : Long} (ha : ci.data.Dest a) :
    ci.lowered m a = m (ci.data.buf + (a - ci.data.vaddr)) := by
  obtain ⟨hb, ht, hr, he, htd, hrd, hdd, -⟩ := hp
  obtain ⟨ht', hr', hd'⟩ := hd
  obtain ⟨hlo, hhi⟩ := ha
  have hsrc := toNat_add_sub (s := ci.data.buf) hlo (by omega)
  rw [lowered, docopydown_dest he hd' ⟨hlo, hhi⟩, docopydown_above (by omega) hr' (by omega),
    docopydown_above (by omega) ht' (by omega)]

theorem lowered_other {a : Long} (ht : ¬ ci.text.Dest a) (hr : ¬ ci.rodata.Dest a)
    (hn : ¬ ci.data.Dest a) (ha : a.toNat ≠ ci.data.vaddr.toNat + ci.data.size.toNat) :
    ci.lowered m a = m a := by
  obtain ⟨hb, hts, hrs, he, htd, hrd, hdd, -⟩ := hp
  obtain ⟨ht', hr', hd'⟩ := hd
  unfold Part.Dest Within at ht hr hn
  by_cases hlow : a.toNat < ci.text.vaddr.toNat
  · rw [lowered, docopydown_below he hd' (by omega), docopydown_below (by omega) hr' (by omega),
      docopydown_below (by omega) ht' hlow]
  · rw [lowered, docopydown_beyond he hd' (by omega), docopydown_beyond (by omega) hr' (by omega),
      docopydown_beyond (by omega) ht' (by omega)]

theorem last_end : (ci.last.vaddr + ci.last.size).toNat =
    ci.data.vaddr.toNat + ci.data.size.toNat := by
  obtain ⟨hb, hts, hrs, he, htd, hrd, hdd, -⟩ := hp
  have hzero : ∀ p : Part, p.size = 0 → p.size.toNat = 0 := fun p h => by rw [h]; rfl
  have hd' : ci.data.vaddr.toNat ≤ ci.data.buf.toNat := hd.2.2
  unfold last
  split_ifs with h h'
  · rw [BitVec.toNat_add, Nat.mod_eq_of_lt (by omega)]
  · rw [BitVec.toNat_add, Nat.mod_eq_of_lt (by omega), hzero ci.data (not_not.mp h)]
    omega
  · rw [BitVec.toNat_add, Nat.mod_eq_of_lt (by omega), hzero ci.data (not_not.mp h)]
    have := hzero ci.rodata (not_not.mp h')
    omega

/-- Behind the last section one more byte is copied. -/
theorem lowered_end : ci.lowered m (ci.last.vaddr + ci.last.size) =
    if ci.last.size = 0 then m (ci.last.vaddr + ci.last.size)
    else m (ci.last.buf + ci.last.size) := by
  obtain ⟨hb, hts, hrs, he, htd, hrd, hdd, -⟩ := hp
  obtain ⟨ht', hr', hd'⟩ := hd
  have hempty : ∀ p : Part, ∀ m, p.size = 0 → docopydown p m = m := fun p m h => if_pos h
  have hsum : ∀ p : Part, p.buf.toNat + p.size.toNat < 2 ^ 32 →
      (p.buf + p.size).toNat = p.buf.toNat + p.size.toNat := fun p h => by
    rw [BitVec.toNat_add, Nat.mod_eq_of_lt h]
  rw [lowered]
  by_cases hd0 : ci.data.size = 0
  · by_cases hr0 : ci.rodata.size = 0
    · have hl : ci.last = ci.text := by
        rw [last, if_neg (not_not.mpr hd0), if_neg (not_not.mpr hr0)]
      rw [hl, hempty _ _ hd0, hempty _ _ hr0, docopydown_end (by omega) ht']
    · have hl : ci.last = ci.rodata := by rw [last, if_neg (not_not.mpr hd0), if_pos hr0]
      rw [hl, hempty _ _ hd0, docopydown_end (by omega) hr', if_neg hr0, if_neg hr0,
        docopydown_above (by omega) ht' (by rw [hsum _ (by omega)]; omega)]
  · have hl : ci.last = ci.data := by rw [last, if_pos hd0]
    rw [hl, docopydown_end he hd', if_neg hd0, if_neg hd0,
      docopydown_above (by omega) hr' (by rw [hsum _ he]; omega),
      docopydown_above (by omega) ht' (by rw [hsum _ he]; omega)]

/-- Going down the kernel is moved exactly if the extra byte does no harm. -/
theorem moved_lowered_iff : ci.Moved m (ci.lowered m) ↔
    ci.last.size = 0 ∨ m (ci.last.buf + ci.last.size) = m (ci.last.vaddr + ci.last.size) := by
  have hend := last_end hp hd
  have hlast := lowered_end hp hd m
  have hdests := And.intro hp.text_dest hp.rodata_dest
  constructor
  · intro h
    have ho := h.other (ci.last.vaddr + ci.last.size) (fun hw => by have := hw.2; omega)
      (fun hw => by have := hw.2; omega) (fun hw => by have := hw.2; omega)
    by_cases hz : ci.last.size = 0
    · exact .inl hz
    · rw [hlast, if_neg hz] at ho
      exact .inr ho
  · intro h
    have hkeep : ci.lowered m (ci.last.vaddr + ci.last.size) =
        m (ci.last.vaddr + ci.last.size) := by
      rw [hlast]
      split_ifs with hz
      · rfl
      · exact h.resolve_left hz
    refine ⟨fun _ => lowered_text hp hd m, fun _ => lowered_rodata hp hd m,
      fun _ => lowered_data hp hd m, fun a ht hr hn => ?_⟩
    by_cases ha : a.toNat = ci.data.vaddr.toNat + ci.data.size.toNat
    · rwa [BitVec.eq_of_toNat_eq (ha.trans hend.symm)]
    · exact lowered_other hp hd m ht hr hn ha

end Down

section Up

variable (hp : ci.Placed) (hu : ci.Up) (m : Memory)
include hp hu

theorem raised_text {a : Long} (ha : ci.text.Dest a) :
    ci.raised m a = m (ci.text.buf + (a - ci.text.vaddr)) := by
  obtain ⟨hb, ht, hr, he, htd, hrd, hdd, -⟩ := hp
  obtain ⟨ht', hr', hd'⟩ := hu
  obtain ⟨hlo, hhi⟩ := ha
  have ht' : ci.text.buf.toNat ≤ ci.text.vaddr.toNat := Nat.le_of_lt ht'
  have hsrc := toNat_add_sub (s := ci.text.buf) hlo (by omega)
  rw [raised, docopyup_dest hb ht' (by omega) ⟨hlo, hhi⟩,
    docopyup_below (by omega) hr' (by omega) (by omega),
    docopyup_below (by omega) hd' hdd (by omega)]

theorem raised_rodata {a : Long} (ha : ci.rodata.Dest a) :
    ci.raised m a = m (ci.rodata.buf + (a - ci.rodata.vaddr)) := by
  obtain ⟨hb, ht, hr, he, htd, hrd, hdd, -⟩ := hp
  obtain ⟨ht', hr', hd'⟩ := hu
  obtain ⟨hlo, hhi⟩ := ha
  have ht' : ci.text.buf.toNat ≤ ci.text.vaddr.toNat := Nat.le_of_lt ht'
  have hsrc := toNat_add_sub (s := ci.rodata.buf) hlo (by omega)
  rw [raised, docopyup_above hb ht' (by omega) (by omega),
    docopyup_dest (by omega) hr' (by omega) ⟨hlo, hhi⟩,
    docopyup_below (by omega) hd' hdd (by omega)]

theorem raised_data {a : Long} (ha : ci.data.Dest a) :
    ci.raised m a = m (ci.data.buf + (a - ci.data.vaddr)) := by
  obtain ⟨hb, ht, hr, he, htd, hrd, hdd, -⟩ := hp
  obtain ⟨ht', hr', hd'⟩ := hu
  have hlo := ha.1
  have ht' : ci.text.buf.toNat ≤ ci.text.vaddr.toNat := Nat.le_of_lt ht'
  rw [raised, docopyup_above hb ht' (by omega) (by omega),
    docopyup_above (by omega) hr' (by omega) (by omega), docopyup_dest (by omega) hd' hdd ha]

theorem raised_other {a : Long} (ht : ¬ ci.text.Dest a) (hr : ¬ ci.rodata.Dest a)
    (hn : ¬ ci.data.Dest a) (ha : a.toNat + 1 ≠ ci.text.vaddr.toNat) :
    ci.raised m a = m a := by
  obtain ⟨hb, hts, hrs, he, htd, hrd, hdd, -⟩ := hp
  obtain ⟨ht', hr', hd'⟩ := hu
  have ht' : ci.text.buf.toNat ≤ ci.text.vaddr.toNat := Nat.le_of_lt ht'
  unfold Part.Dest Within at ht hr hn
  by_cases hlow : a.toNat < ci.text.vaddr.toNat
  · rw [raised, docopyup_before hb ht' (by omega) (by omega),
      docopyup_before (by omega) hr' (by omega) (by omega),
      docopyup_before (by omega) hd' hdd (by omega)]
  · rw [raised, docopyup_above hb ht' (by omega) (by omega),
      docopyup_above (by omega) hr' (by omega) (by omega),
      docopyup_above (by omega) hd' hdd (by omega)]

theorem first_start : (ci.first.vaddr - 1).toNat + 1 = ci.text.vaddr.toNat := by
  obtain ⟨hb, hts, hrs, he, htd, hrd, hdd, -⟩ := hp
  have hzero : ∀ p : Part, p.size = 0 → p.size.toNat = 0 := fun p h => by rw [h]; rfl
  have ht' : ci.text.buf.toNat < ci.text.vaddr.toNat := hu.1
  have hpred : ∀ x : Long, 0 < x.toNat → (x - 1).toNat + 1 = x.toNat := fun x hx => by bv_omega
  unfold first
  split_ifs with h h'
  · rw [hpred _ (by omega)]
  · rw [hpred _ (by omega), htd, hzero ci.text (not_not.mp h), Nat.add_zero]
  · rw [hpred _ (by omega), hrd, htd, hzero ci.text (not_not.mp h),
      hzero ci.rodata (not_not.mp h'), Nat.add_zero]

/-- Before the first section one more byte is copied. -/
theorem raised_start : ci.raised m (ci.first.vaddr - 1) =
    if ci.first.size = 0 then m (ci.first.vaddr - 1) else m (ci.first.buf - 1) := by
  obtain ⟨hb, hts, hrs, he, htd, hrd, hdd, -⟩ := hp
  obtain ⟨ht', hr', hd'⟩ := hu
  have ht' : ci.text.buf.toNat ≤ ci.text.vaddr.toNat := Nat.le_of_lt ht'
  have hempty : ∀ p : Part, ∀ m, p.size = 0 → docopyup p m = m := fun p m h => if_pos h
  have hpred : ∀ x : Long, 0 < x.toNat → (x - 1).toNat + 1 = x.toNat := fun x hx => by bv_omega
  rw [raised]
  by_cases ht0 : ci.text.size = 0
  · by_cases hr0 : ci.rodata.size = 0
    · have hf : ci.first = ci.data := by
        rw [first, if_neg (not_not.mpr ht0), if_neg (not_not.mpr hr0)]
      rw [hf, hempty _ _ ht0, hempty _ _ hr0, docopyup_start (by omega) hd' hdd]
    · have hf : ci.first = ci.rodata := by rw [first, if_neg (not_not.mpr ht0), if_pos hr0]
      have hsrc := hpred ci.rodata.buf (by omega)
      rw [hf, hempty _ _ ht0, docopyup_start (by omega) hr' (by omega), if_neg hr0, if_neg hr0,
        docopyup_below (by omega) hd' hdd (by omega)]
  · have hf : ci.first = ci.text := by rw [first, if_pos ht0]
    have hsrc := hpred ci.text.buf hb
    rw [hf, docopyup_start hb ht' (by omega), if_neg ht0, if_neg ht0,
      docopyup_below (by omega) hr' (by omega) (by omega),
      docopyup_below (by omega) hd' hdd (by omega)]

theorem moved_raised_iff : ci.Moved m (ci.raised m) ↔
    ci.first.size = 0 ∨ m (ci.first.buf - 1) = m (ci.first.vaddr - 1) := by
  have hstart := first_start hp hu
  have hfirst := raised_start hp hu m
  have hdests := And.intro hp.text_dest hp.rodata_dest
  constructor
  · intro h
    have ho := h.other (ci.first.vaddr - 1) (fun hw => by have := hw.1; omega)
      (fun hw => by have := hw.1; omega) (fun hw => by have := hw.1; omega)
    by_cases hz : ci.first.size = 0
    · exact .inl hz
    · rw [hfirst, if_neg hz] at ho
      exact .inr ho
  · intro h
    have hkeep : ci.raised m (ci.first.vaddr - 1) = m (ci.first.vaddr - 1) := by
      rw [hfirst]
      split_ifs with hz
      · rfl
      · exact h.resolve_left hz
    refine ⟨fun _ => raised_text hp hu m, fun _ => raised_rodata hp hu m,
      fun _ => raised_data hp hu m, fun a ht hr hn => ?_⟩
    by_cases ha : a.toNat + 1 = ci.text.vaddr.toNat
    · rwa [BitVec.eq_of_toNat_eq (show a.toNat = (ci.first.vaddr - 1).toNat by omega)]
    · exact raised_other hp hu m ht hr hn ha

end Up

end CopyInfo

/-- `copyit` moves exactly the kernel if and only if the one byte too many that
its loops copy is in its place already. -/
theorem copyit_moves_iff (ci : CopyInfo) (m : Memory) (hp : ci.Placed) :
    ci.Moved m (copyit ci m).mem ↔ ci.Harmless m := by
  rw [copyit, CopyInfo.Harmless]
  by_cases h : ci.text.vaddr ≤ ci.text.buf
  · have hd : ci.Down := hp.direction.resolve_right fun hu => by
      have h' : ci.text.vaddr.toNat ≤ ci.text.buf.toNat := h
      have hu' : ci.text.buf.toNat < ci.text.vaddr.toNat := hu.1
      omega
    rw [if_pos h, if_pos h]
    exact CopyInfo.moved_lowered_iff hp hd m
  · have hu : ci.Up := hp.direction.resolve_left fun hd => h hd.1
    rw [if_neg h, if_neg h]
    exact CopyInfo.moved_raised_iff hp hu m

/-- A kernel of one byte of text and nothing else, to be moved from 0x20 to 0x10. -/
def oneByteKernel : CopyInfo :=
  ⟨0x10, 3, 0, ⟨0x20, 0x10, 1⟩, ⟨0x21, 0x11, 0⟩, ⟨0x21, 0x11, 0⟩⟩

theorem oneByteKernel_placed : oneByteKernel.Placed := by
  constructor <;> simp [oneByteKernel, CopyInfo.Down]

/-- In a memory that holds 1 in the byte behind that text and 0 elsewhere. -/
theorem copyit_moves_fails :
    ¬ ∀ (ci : CopyInfo) (m : Memory), ci.Placed → ci.Moved m (copyit ci m).mem := by
  intro h
  have hm := h oneByteKernel (fun a => if a = 0x21 then 1 else 0) oneByteKernel_placed
  have he := hm.other 0x11 (by decide) (by decide) (by decide)
  rw [copyit, if_pos (by decide)] at he
  simp [oneByteKernel, docopydown, docopydownmore] at he

theorem copyit_moves_iff_zero :
    oneByteKernel.Moved (fun _ => 0) (copyit oneByteKernel fun _ => 0).mem ↔
      oneByteKernel.Harmless fun _ => 0 :=
  copyit_moves_iff _ _ oneByteKernel_placed

end HydraAmix.Boot
