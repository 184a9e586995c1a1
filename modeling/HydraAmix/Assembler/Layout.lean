import HydraAmix.Assembler.As65
import Mathlib.Data.List.Forall2
import Mathlib.Data.List.Nodup

/-!
# The layout that the assembler puts out

A label stands for the address of its place: the base of its segment and the sizes of the
instructions before it. An instruction that becomes long moves the labels behind it by one,
and these are the ones with a greater value, as long as no segment comes to the end of the
address space. Each pass of `longcheck` that changes something leaves fewer instructions
that may still become long.
-/
namespace HydraAmix.Assembler
open Word

/-! ### Sizes -/

/-- The bytes of some instructions. -/
def size : List Instr → ℕ
  | [] => 0
  | i :: code => isize i.type + size code

/-- The bytes of an instruction, if it becomes long. -/
def Instr.longSize (i : Instr) : ℕ := if i.type = .varies then isize .long else isize i.type

def longSize : List Instr → ℕ
  | [] => 0
  | i :: code => i.longSize + longSize code

/-- The instructions that may become long. -/
def pending (code : List Instr) : ℕ := code.countP fun i => i.type = .varies

/-- Where in the output the place `j` of a segment is. -/
def Seg.offset (s : Seg) (j : ℕ) : ℕ := s.addr.toNat + size (s.code.take j)

/-- No segment comes to the end of the address space, even if all its instructions are long. -/
def Room (segs : List Seg) : Prop := ∀ s ∈ segs, s.addr.toNat + longSize s.code < 0x100000000

instance (segs : List Seg) : Decidable (Room segs) :=
  inferInstanceAs (Decidable (∀ s ∈ segs, s.addr.toNat + longSize s.code < 0x100000000))

section
variable {segment n m : ℕ} {i : Instr} {code ip before : List Instr} {base addr len : Long}
  {syms : Symbols} {r : Expanded}

@[simp] theorem size_nil : size [] = 0 := rfl

@[simp] theorem size_cons (i : Instr) (code : List Instr) :
    size (i :: code) = isize i.type + size code := rfl

@[simp] theorem size_append (code ip : List Instr) : size (code ++ ip) = size code + size ip := by
  induction code with
  | nil => exact (Nat.zero_add _).symm
  | cons i code ih => rw [List.cons_append, size_cons, size_cons, ih, Nat.add_assoc]

@[simp] theorem longSize_nil : longSize [] = 0 := rfl

@[simp] theorem longSize_cons (i : Instr) (code : List Instr) :
    longSize (i :: code) = i.longSize + longSize code := rfl

@[simp] theorem longSize_append (code ip : List Instr) :
    longSize (code ++ ip) = longSize code + longSize ip := by
  induction code with
  | nil => exact (Nat.zero_add _).symm
  | cons i code ih => rw [List.cons_append, longSize_cons, longSize_cons, ih, Nat.add_assoc]

theorem isize_le_longSize (i : Instr) : isize i.type ≤ i.longSize := by
  unfold Instr.longSize
  split
  next h => rw [h]; decide
  next => exact Nat.le_refl _

theorem size_le_longSize (code : List Instr) : size code ≤ longSize code := by
  induction code with
  | nil => exact Nat.le_refl _
  | cons i code ih =>
      rw [size_cons, longSize_cons]
      exact Nat.add_le_add (isize_le_longSize i) ih

theorem size_take_le (code : List Instr) (j : ℕ) : size (code.take j) ≤ size code := by
  have h : size (code.take j ++ code.drop j) = _ := size_append _ _
  rw [List.take_append_drop] at h
  omega

theorem longSize_expanded (h : i.type = .varies) : i.expanded.longSize = i.longSize := by
  unfold Instr.longSize
  rw [if_pos h]
  rfl

/-- The places behind an instruction. -/
theorem size_take_behind (before ip : List Instr) (i : Instr) (j : ℕ) :
    size ((before ++ i :: ip).take (before.length + (j + 1))) =
      size before + (isize i.type + size (ip.take j)) := by
  rw [List.take_length_add_append, size_append, List.take_succ_cons, size_cons]

theorem toNat_at (h : base.toNat + n < 0x100000000) :
    (base + BitVec.ofNat 32 n).toNat = base.toNat + n := by
  rw [BitVec.toNat_add, BitVec.toNat_ofNat]
  omega

theorem at_add (base : Long) (n m : ℕ) :
    base + BitVec.ofNat 32 n + BitVec.ofNat 32 m = base + BitVec.ofNat 32 (n + m) := by
  rw [BitVec.add_assoc, BitVec.ofNat_add]

/-! ### Labels -/

/-- The labels of a segment have the addresses of their places. -/
def LabelsAt (segment : ℕ) (base : Long) (code : List Instr) (syms : Symbols) : Prop :=
  ∀ k x, syms k = some x → x.seg = segment →
    x.place ≤ code.length ∧ x.value = base + BitVec.ofNat 32 (size (code.take x.place))

/-- The labels stay where they are, up to the values of those in one segment. -/
def Moved (segment : ℕ) (syms syms' : Symbols) : Prop :=
  ∀ k x', syms' k = some x' → ∃ x, syms k = some x ∧ x'.seg = x.seg ∧ (x.seg ≠ segment → x' = x)

theorem Moved.refl (segment : ℕ) (syms : Symbols) : Moved segment syms syms :=
  fun _ x h => ⟨x, h, rfl, fun _ => rfl⟩

theorem Moved.trans {syms₁ syms₂ : Symbols} (h₁ : Moved segment syms syms₁)
    (h₂ : Moved segment syms₁ syms₂) : Moved segment syms syms₂ := by
  intro k x₂ hx₂
  obtain ⟨x₁, hx₁, hs₁, hv₁⟩ := h₂ k x₂ hx₂
  obtain ⟨x, hx, hs, hv⟩ := h₁ k x₁ hx₁
  refine ⟨x, hx, hs₁.trans hs, fun hne => ?_⟩
  rw [hv₁ (hs ▸ hne), hv hne]

theorem LabelsAt.moved {syms' : Symbols} (h : LabelsAt m base code syms)
    (hm : Moved segment syms syms') (hne : m ≠ segment) : LabelsAt m base code syms' := by
  intro k x' hx' hseg
  obtain ⟨x, hx, hs, hv⟩ := hm k x' hx'
  have hxm : x.seg = m := hs ▸ hseg
  obtain rfl := hv (by rw [hxm]; exact hne)
  exact h k x' hx hseg

theorem sadjust_some {value incr : Long} {k : Symbol} {x' : Label}
    (h : sadjust segment value incr syms k = some x') :
    ∃ x, syms k = some x ∧ x'.seg = x.seg ∧ x'.place = x.place ∧
      x'.value = if x.seg = segment ∧ value < x.value then x.value + incr else x.value := by
  obtain ⟨x, hx, rfl⟩ := Option.map_eq_some_iff.mp h
  refine ⟨x, hx, ?_⟩
  split
  · exact ⟨rfl, rfl, rfl⟩
  · exact ⟨rfl, rfl, rfl⟩

theorem moved_sadjust (segment : ℕ) (value incr : Long) (syms : Symbols) :
    Moved segment syms (sadjust segment value incr syms) := by
  intro k x' h
  obtain ⟨x, hx, rfl⟩ := Option.map_eq_some_iff.mp h
  refine ⟨x, hx, ?_, fun hne => if_neg fun hc => hne hc.1⟩
  split
  · rfl
  · rfl

/-- An instruction becomes long, and the labels behind it move. -/
theorem LabelsAt.expand (h : LabelsAt segment base (before ++ i :: ip) syms)
    (hi : i.type = .varies) (hroom : base.toNat + longSize (before ++ i :: ip) < 0x100000000) :
    LabelsAt segment base (before ++ i.expanded :: ip)
      (sadjust segment (base + BitVec.ofNat 32 (size before)) 1 syms) := by
  intro k x' hx' hseg
  obtain ⟨x, hx, hs, hp, hv⟩ := sadjust_some hx'
  have hxs : x.seg = segment := hs ▸ hseg
  obtain ⟨hle, hval⟩ := h k x hx hxs
  have hbound := size_le_longSize (before ++ i :: ip)
  have htake := size_take_le (before ++ i :: ip) x.place
  have hbefore : size before ≤ size (before ++ i :: ip) := by
    rw [size_append]
    exact Nat.le_add_right _ _
  have haddr : (base + BitVec.ofNat 32 (size before)).toNat = base.toNat + size before :=
    toNat_at (by omega)
  have hvalue : x.value.toNat = base.toNat + size ((before ++ i :: ip).take x.place) := by
    rw [hval]
    exact toNat_at (by omega)
  refine ⟨?_, ?_⟩
  · rw [hp]
    simpa using hle
  rw [hv, hp]
  rcases Nat.lt_or_ge before.length x.place with hlt | hge
  · obtain ⟨j, hj⟩ := Nat.exists_eq_add_of_lt hlt
    rw [hj, Nat.add_assoc] at hvalue hval ⊢
    rw [size_take_behind] at hvalue hval ⊢
    rw [hi, show isize .varies = 2 from rfl] at hvalue hval
    have hbehind : base + BitVec.ofNat 32 (size before) < x.value := by
      rw [BitVec.lt_def, haddr, hvalue]
      omega
    rw [if_pos ⟨hxs, hbehind⟩, hval, show (1 : Long) = BitVec.ofNat 32 1 from rfl, at_add,
      show isize i.expanded.type = 3 from rfl]
    congr 2
    omega
  · rw [List.take_append_of_le_length hge] at hvalue hval ⊢
    have hless := size_take_le before x.place
    rw [if_neg fun hc => ?_]
    · exact hval
    · have hlt := BitVec.lt_def.mp hc.2
      omega

/-! ### `cexpand` -/

/-- An instruction as it was, or made long. -/
def Instr.Kept (i i' : Instr) : Prop := i' = i ∨ i.type = .varies ∧ i' = i.expanded

/-- What `cexpand` does with one instruction. -/
theorem cexpand_cons (h : cexpand segment (i :: ip) addr syms len = some r) :
    (∃ q, i.type = .varies ∧ cexpand segment ip (addr + BitVec.ofNat 32 (isize .long))
      (sadjust segment addr 1 syms) (len + 1) = some q ∧ r = q.cons i.expanded true) ∨
    ∃ q, cexpand segment ip (addr + BitVec.ofNat 32 (isize i.type)) syms len = some q ∧
      r = q.cons i false := by
  obtain ⟨long, hlong, hb⟩ := Option.bind_eq_some_iff.mp h
  split at hb
  next htrue =>
    obtain ⟨q, hq, rfl⟩ := Option.map_eq_some_iff.mp hb
    refine .inl ⟨q, ?_, hq, rfl⟩
    unfold expands at hlong
    split at hlong
    next hv => exact hv
    next =>
      rw [← Option.some.inj hlong] at htrue
      exact absurd htrue Bool.false_ne_true
  next =>
    obtain ⟨q, hq, rfl⟩ := Option.map_eq_some_iff.mp hb
    exact .inr ⟨q, hq, rfl⟩

theorem cexpand_moved (h : cexpand segment ip addr syms len = some r) :
    Moved segment syms r.symbols := by
  induction ip generalizing addr syms len r with
  | nil =>
      obtain rfl := Option.some.inj h
      exact Moved.refl _ _
  | cons i ip ih =>
      obtain ⟨q, -, hq, rfl⟩ | ⟨q, hq, rfl⟩ := cexpand_cons h
      · have hrest := ih hq
        exact (moved_sadjust _ _ _ _).trans hrest
      · have hrest := ih hq
        exact hrest

theorem cexpand_kept (h : cexpand segment ip addr syms len = some r) :
    List.Forall₂ Instr.Kept ip r.code := by
  induction ip generalizing addr syms len r with
  | nil =>
      obtain rfl := Option.some.inj h
      exact .nil
  | cons i ip ih =>
      obtain ⟨q, hi, hq, rfl⟩ | ⟨q, hq, rfl⟩ := cexpand_cons h
      · exact .cons (.inr ⟨hi, rfl⟩) (ih hq)
      · exact .cons (.inl rfl) (ih hq)

theorem cexpand_labels (h : cexpand segment ip (base + BitVec.ofNat 32 (size before)) syms len =
    some r) (hroom : base.toNat + longSize (before ++ ip) < 0x100000000)
    (hl : LabelsAt segment base (before ++ ip) syms) :
    LabelsAt segment base (before ++ r.code) r.symbols := by
  induction ip generalizing before syms len r with
  | nil =>
      obtain rfl := Option.some.inj h
      exact hl
  | cons i ip ih =>
      obtain ⟨q, hi, hq, rfl⟩ | ⟨q, hq, rfl⟩ := cexpand_cons h
      · have hmoved := hl.expand hi hroom
        rw [at_add] at hq
        rw [show before ++ i.expanded :: ip = (before ++ [i.expanded]) ++ ip by simp] at hmoved
        have hsize : size (before ++ [i.expanded]) = size before + isize .long := by
          rw [size_append]
          rfl
        rw [← hsize] at hq
        have hfree : base.toNat + longSize (before ++ [i.expanded] ++ ip) < 0x100000000 := by
          simp only [longSize_append, longSize_cons, longSize_expanded hi, longSize_nil] at hroom ⊢
          omega
        have hrest := ih hq hfree hmoved
        rw [List.append_assoc] at hrest
        exact hrest
      · rw [at_add] at hq
        rw [show before ++ i :: ip = (before ++ [i]) ++ ip by simp] at hl hroom
        have hsize : size (before ++ [i]) = size before + isize i.type := by
          rw [size_append, size_cons, size_nil, Nat.add_zero]
        rw [← hsize] at hq
        have hrest := ih hq hroom hl
        rw [List.append_assoc] at hrest
        exact hrest

/-- The length grows with the code. -/
theorem cexpand_len (h : cexpand segment ip addr syms len = some r) :
    r.len + BitVec.ofNat 32 (size ip) = len + BitVec.ofNat 32 (size r.code) := by
  induction ip generalizing addr syms len r with
  | nil =>
      obtain rfl := Option.some.inj h
      rfl
  | cons i ip ih =>
      obtain ⟨q, hi, hq, rfl⟩ | ⟨q, hq, rfl⟩ := cexpand_cons h
      · have hrest := ih hq
        change q.len + BitVec.ofNat 32 (size (i :: ip)) =
          len + BitVec.ofNat 32 (size (i.expanded :: q.code))
        rw [size_cons, size_cons, hi, show isize i.expanded.type = 1 + 2 from rfl,
          show isize .varies = 2 from rfl, Nat.add_comm 2, ← at_add, hrest,
          show (1 : Long) = BitVec.ofNat 32 1 from rfl, at_add, at_add]
        congr 2
        omega
      · have hrest := ih hq
        change q.len + BitVec.ofNat 32 (size (i :: ip)) = len + BitVec.ofNat 32 (size (i :: q.code))
        rw [size_cons, size_cons, Nat.add_comm (isize i.type), ← at_add, hrest, at_add,
          Nat.add_comm (size q.code)]

theorem pending_cons (i : Instr) (code : List Instr) :
    pending (i :: code) = pending code + if i.type = .varies then 1 else 0 := by
  unfold pending
  rw [List.countP_cons]
  simp only [decide_eq_true_eq]

/-- What changed may not become long again. -/
theorem cexpand_pending (h : cexpand segment ip addr syms len = some r) :
    pending r.code + (if r.changed then 1 else 0) ≤ pending ip := by
  induction ip generalizing addr syms len r with
  | nil =>
      obtain rfl := Option.some.inj h
      exact Nat.le_refl _
  | cons i ip ih =>
      obtain ⟨q, hi, hq, rfl⟩ | ⟨q, hq, rfl⟩ := cexpand_cons h
      · have hrest := ih hq
        change pending (i.expanded :: q.code) + 1 ≤ _
        have hlong : ¬ i.expanded.type = .varies := Kind.noConfusion
        rw [pending_cons, pending_cons, if_pos hi, if_neg hlong]
        omega
      · have hrest := ih hq
        change pending (i :: q.code) + (if q.changed then 1 else 0) ≤ _
        rw [pending_cons, pending_cons]
        omega

end
/-! ### The table and `longcheck` -/

/-- A segment as it was, with some instructions made long. -/
structure Seg.Kept (s s' : Seg) : Prop where
  number : s'.number = s.number
  addr : s'.addr = s.addr
  code : List.Forall₂ Instr.Kept s.code s'.code

/-- The lengths are right, and every label has the address of its place in its segment. -/
structure Placed (segs : List Seg) (syms : Symbols) : Prop where
  nodup : (segs.map Seg.number).Nodup
  len : ∀ s ∈ segs, s.len = BitVec.ofNat 32 (size s.code)
  home : ∀ k x, syms k = some x → ∃ s ∈ segs, s.number = x.seg
  labels : ∀ s ∈ segs, LabelsAt s.number s.addr s.code syms

/-- Where a label is. -/
def Label.home (x : Label) : ℕ × ℕ := (x.seg, x.place)

/-- The same labels at the same places. -/
def SameHomes (syms syms' : Symbols) : Prop :=
  ∀ k, (syms' k).map Label.home = (syms k).map Label.home

/-- The instructions of a table that may become long. -/
def allPending : List Seg → ℕ
  | [] => 0
  | s :: segs => pending s.code + allPending segs

section
variable {segs before : List Seg} {s u : Seg} {syms : Symbols} {r : Expanded} {p : Pass}
  {addr len : Long} {turns : ℕ}

theorem Instr.Kept.trans {i₁ i₂ i₃ : Instr} (h₁ : i₁.Kept i₂) (h₂ : i₂.Kept i₃) : i₁.Kept i₃ := by
  rcases h₁ with rfl | ⟨hv, rfl⟩
  · exact h₂
  · rcases h₂ with rfl | ⟨hlong, -⟩
    · exact .inr ⟨hv, rfl⟩
    · exact Kind.noConfusion hlong

theorem kept_codes_trans {c₁ c₂ c₃ : List Instr} (h₁ : List.Forall₂ Instr.Kept c₁ c₂)
    (h₂ : List.Forall₂ Instr.Kept c₂ c₃) : List.Forall₂ Instr.Kept c₁ c₃ := by
  induction h₁ generalizing c₃ with
  | nil => exact h₂
  | cons hi _ ih =>
      cases h₂ with
      | cons hj hrest => exact .cons (hi.trans hj) (ih hrest)

theorem Seg.Kept.trans {s₁ s₂ s₃ : Seg} (h₁ : s₁.Kept s₂) (h₂ : s₂.Kept s₃) : s₁.Kept s₃ :=
  ⟨h₂.number.trans h₁.number, h₂.addr.trans h₁.addr, kept_codes_trans h₁.code h₂.code⟩

theorem Seg.Kept.refl (s : Seg) : s.Kept s := by
  refine ⟨rfl, rfl, ?_⟩
  induction s.code with
  | nil => exact .nil
  | cons i code ih => exact .cons (.inl rfl) ih

theorem kept_trans {l₁ l₂ l₃ : List Seg} (h₁ : List.Forall₂ Seg.Kept l₁ l₂)
    (h₂ : List.Forall₂ Seg.Kept l₂ l₃) : List.Forall₂ Seg.Kept l₁ l₃ := by
  induction h₁ generalizing l₃ with
  | nil => exact h₂
  | cons hs _ ih =>
      cases h₂ with
      | cons hu hrest => exact .cons (hs.trans hu) (ih hrest)

theorem kept_refl (l : List Seg) : List.Forall₂ Seg.Kept l l := by
  induction l with
  | nil => exact .nil
  | cons s l ih => exact .cons (Seg.Kept.refl s) ih

theorem longSize_kept {c c' : List Instr} (h : List.Forall₂ Instr.Kept c c') :
    longSize c' = longSize c := by
  induction h with
  | nil => rfl
  | cons hi _ ih =>
      rw [longSize_cons, longSize_cons, ih]
      rcases hi with rfl | ⟨hv, rfl⟩
      · rfl
      · rw [longSize_expanded hv]

theorem Room.kept {segs' : List Seg} (h : Room segs) (hk : List.Forall₂ Seg.Kept segs segs') :
    Room segs' := by
  induction hk with
  | nil => exact h
  | @cons s s' segs segs' hs _ ih =>
      intro u hu
      rcases List.mem_cons.mp hu with rfl | hu
      · rw [hs.addr, longSize_kept hs.code]
        exact h s List.mem_cons_self
      · exact ih (fun v hv => h v (List.mem_cons_of_mem s hv)) u hu

theorem cexpand_homes {segment : ℕ} {ip : List Instr}
    (h : cexpand segment ip addr syms len = some r) : SameHomes syms r.symbols := by
  induction ip generalizing addr syms len r with
  | nil =>
      obtain rfl := Option.some.inj h
      exact fun _ => rfl
  | cons i ip ih =>
      obtain ⟨q, -, hq, rfl⟩ | ⟨q, hq, rfl⟩ := cexpand_cons h
      · have hrest := ih hq
        refine fun k => (hrest k).trans ?_
        unfold sadjust
        rw [Option.map_map]
        congr 1
        funext x
        dsimp only [Function.comp_apply]
        split
        · rfl
        · rfl
      · have hrest := ih hq
        exact hrest

/-- One segment is gone through. -/
theorem Placed.expand (h : Placed (before ++ s :: segs) syms) (hroom : Room (before ++ s :: segs))
    (hr : cexpand s.number s.code s.addr syms s.len = some r) :
    Placed (before ++ { s with code := r.code, len := r.len } :: segs) r.symbols := by
  have hmem : s ∈ before ++ s :: segs := List.mem_append_right _ List.mem_cons_self
  have hmoved := cexpand_moved hr
  have hother : ∀ u ∈ before ++ segs, u ∈ before ++ s :: segs ∧ u.number ≠ s.number := by
    intro u hu
    refine ⟨?_, fun he => ?_⟩
    · rcases List.mem_append.mp hu with hu | hu
      · exact List.mem_append_left _ hu
      · exact List.mem_append_right _ (List.mem_cons_of_mem _ hu)
    · have hnodup := h.nodup
      rw [List.map_append, List.map_cons, List.nodup_middle, ← List.map_append] at hnodup
      exact (List.nodup_cons.mp hnodup).1 (he ▸ List.mem_map_of_mem hu)
  have hcases : ∀ u ∈ before ++ { s with code := r.code, len := r.len } :: segs,
      u = { s with code := r.code, len := r.len } ∨ u ∈ before ++ segs := by
    intro u hu
    rcases List.mem_append.mp hu with hu | hu
    · exact .inr (List.mem_append_left _ hu)
    · rcases List.mem_cons.mp hu with hu | hu
      · exact .inl hu
      · exact .inr (List.mem_append_right _ hu)
  refine ⟨?_, fun u hu => ?_, fun k x' hx' => ?_, fun u hu => ?_⟩
  · have hnodup := h.nodup
    rw [List.map_append, List.map_cons] at hnodup ⊢
    exact hnodup
  · rcases hcases u hu with rfl | hu
    · have hlen := cexpand_len hr
      rw [h.len s hmem, BitVec.add_comm (BitVec.ofNat 32 (size s.code))] at hlen
      exact (BitVec.add_left_inj _).mp hlen
    · exact h.len u (hother u hu).1
  · obtain ⟨x, hx, hseg, -⟩ := hmoved k x' hx'
    obtain ⟨u, hu, hnum⟩ := h.home k x hx
    rw [hseg]
    rcases List.mem_append.mp hu with hu | hu
    · exact ⟨u, List.mem_append_left _ hu, hnum⟩
    · rcases List.mem_cons.mp hu with rfl | hu
      · exact ⟨_, List.mem_append_right _ List.mem_cons_self, hnum⟩
      · exact ⟨u, List.mem_append_right _ (List.mem_cons_of_mem _ hu), hnum⟩
  · rcases hcases u hu with rfl | hu
    · have hstart : s.addr + BitVec.ofNat 32 (size []) = s.addr := BitVec.add_zero _
      rw [← hstart] at hr
      exact cexpand_labels hr (hroom s hmem) (h.labels s hmem)
    · obtain ⟨hold, hne⟩ := hother u hu
      exact (h.labels u hold).moved hmoved hne

/-- What the inner loop of `longcheck` does with the first segment. -/
theorem pass_cons (h : pass (s :: segs) syms = some p) :
    ∃ r q, cexpand s.number s.code s.addr syms s.len = some r ∧ pass segs r.symbols = some q ∧
      p = q.cons { s with code := r.code, len := r.len } r.changed := by
  obtain ⟨r, hr, hm⟩ := Option.bind_eq_some_iff.mp h
  obtain ⟨q, hq, rfl⟩ := Option.map_eq_some_iff.mp hm
  exact ⟨r, q, hr, hq, rfl⟩

theorem expand_kept (hr : cexpand s.number s.code s.addr syms s.len = some r) :
    s.Kept { s with code := r.code, len := r.len } := ⟨rfl, rfl, cexpand_kept hr⟩

theorem pass_kept (h : pass segs syms = some p) : List.Forall₂ Seg.Kept segs p.segs := by
  induction segs generalizing syms p with
  | nil =>
      obtain rfl := Option.some.inj h
      exact .nil
  | cons s segs ih =>
      obtain ⟨r, q, hr, hq, rfl⟩ := pass_cons h
      exact .cons (expand_kept hr) (ih hq)

theorem pass_homes (h : pass segs syms = some p) : SameHomes syms p.symbols := by
  induction segs generalizing syms p with
  | nil =>
      obtain rfl := Option.some.inj h
      exact fun _ => rfl
  | cons s segs ih =>
      obtain ⟨r, q, hr, hq, rfl⟩ := pass_cons h
      have hrest := ih hq
      exact fun k => (hrest k).trans (cexpand_homes hr k)

theorem pass_placed (h : pass segs syms = some p) (hp : Placed (before ++ segs) syms)
    (hroom : Room (before ++ segs)) : Placed (before ++ p.segs) p.symbols := by
  induction segs generalizing before syms p with
  | nil =>
      obtain rfl := Option.some.inj h
      exact hp
  | cons s segs ih =>
      obtain ⟨r, q, hr, hq, rfl⟩ := pass_cons h
      have hnext := hp.expand hroom hr
      have hfree : Room (before ++ { s with code := r.code, len := r.len } :: segs) :=
        hroom.kept (List.rel_append (kept_refl before)
          (.cons (expand_kept hr) (kept_refl segs)))
      rw [List.append_cons] at hnext hfree
      have hrest := ih hq hnext hfree
      rw [List.append_assoc] at hrest
      exact hrest

/-- A pass that changes something leaves less to change. -/
theorem pass_pending (h : pass segs syms = some p) :
    allPending p.segs + (if p.changed then 1 else 0) ≤ allPending segs := by
  induction segs generalizing syms p with
  | nil =>
      obtain rfl := Option.some.inj h
      exact Nat.le_refl _
  | cons s segs ih =>
      obtain ⟨r, q, hr, hq, rfl⟩ := pass_cons h
      have hrest := ih hq
      have hone := cexpand_pending hr
      change pending r.code + allPending q.segs + (if (r.changed || q.changed) then 1 else 0) ≤
        pending s.code + allPending segs
      cases hc : r.changed with
      | true =>
          rw [hc] at hone
          simp only [Bool.true_or, if_true] at hone ⊢
          omega
      | false =>
          simp only [Bool.false_or]
          omega

/-- `longcheck` comes to an end. -/
theorem longcheck_ends (h : allPending segs < turns) : longcheck turns segs syms ≠ none := by
  induction turns generalizing segs syms with
  | zero => exact absurd h (Nat.not_lt_zero _)
  | succ turns ih =>
      unfold longcheck
      split
      next => exact Option.some_ne_none _
      next p hp =>
        split
        next hc =>
          have hless := pass_pending hp
          rw [hc, if_pos rfl] at hless
          exact ih (by omega)
        next => exact Option.some_ne_none _

/-- What `longcheck` keeps. -/
theorem longcheck_placed {segs' : List Seg} {syms' : Symbols}
    (h : longcheck turns segs syms = some (some (segs', syms'))) (hp : Placed segs syms)
    (hroom : Room segs) :
    Placed segs' syms' ∧ List.Forall₂ Seg.Kept segs segs' ∧ SameHomes syms syms' := by
  induction turns generalizing segs syms with
  | zero => exact absurd h.symm (Option.some_ne_none _)
  | succ turns ih =>
      unfold longcheck at h
      split at h
      next => exact absurd (Option.some.inj h).symm (Option.some_ne_none _)
      next p hpass =>
        have hnext : Placed ([] ++ p.segs) p.symbols := pass_placed hpass hp hroom
        have hkept := pass_kept hpass
        have hhomes := pass_homes hpass
        split at h
        next =>
          obtain ⟨hplaced, hk, hh⟩ := ih h hnext (hroom.kept hkept)
          exact ⟨hplaced, kept_trans hkept hk, fun k => (hh k).trans (hhomes k)⟩
        next =>
          obtain ⟨rfl, rfl⟩ := Prod.mk.inj (Option.some.inj (Option.some.inj h))
          exact ⟨hnext, hkept, hhomes⟩

end

/-! ### The parser's table -/

/-- The segments are numbered, and everything is in its place. -/
structure Table.Sound (t : Table) : Prop where
  order : t.segs.map Seg.number = List.range t.segs.length
  placed : Placed t.segs t.symbols

section
variable {t t' : Table} {k : Symbol} {l : Line} {p : List Item}

theorem LabelsAt.append {segment : ℕ} {base : Long} {code : List Instr} {syms : Symbols}
    (h : LabelsAt segment base code syms) (ip : List Instr) :
    LabelsAt segment base (code ++ ip) syms := by
  intro k x hx hseg
  obtain ⟨hle, hv⟩ := h k x hx hseg
  refine ⟨?_, ?_⟩
  · rw [List.length_append]
    exact Nat.le_add_right_of_le hle
  · rw [List.take_append_of_le_length hle]
    exact hv

theorem Table.segment_mem (t : Table) : t.segment ∈ t.segs :=
  List.mem_append_right _ (List.mem_singleton.mpr rfl)

namespace Table.Sound

theorem newinstr (h : t.Sound) (i : Instr) : (t.newinstr i).Sound := by
  have hcases : ∀ u ∈ (t.newinstr i).segs, u = (t.newinstr i).segment ∨ u ∈ t.segs := by
    intro u hu
    rcases List.mem_append.mp hu with hu | hu
    · exact .inr (List.mem_append_left _ hu)
    · exact .inl (List.mem_singleton.mp hu)
  have hnumbers : (t.newinstr i).segs.map Seg.number = t.segs.map Seg.number := by
    unfold Table.segs
    rw [List.map_append, List.map_append]
    rfl
  refine ⟨?_, ?_, fun u hu => ?_, fun k x hx => ?_, fun u hu => ?_⟩
  · rw [hnumbers, h.order]
    unfold Table.segs
    rw [List.length_append, List.length_append]
    rfl
  · rw [hnumbers]
    exact h.placed.nodup
  · rcases hcases u hu with rfl | hu
    · change t.segment.len + BitVec.ofNat 32 (isize i.type) =
        BitVec.ofNat 32 (size (t.segment.code ++ [i]))
      rw [h.placed.len _ t.segment_mem, size_append, size_cons, size_nil, Nat.add_zero,
        BitVec.ofNat_add]
    · exact h.placed.len u hu
  · obtain ⟨u, hu, hn⟩ := h.placed.home k x hx
    rcases List.mem_append.mp hu with hu | hu
    · exact ⟨u, List.mem_append_left _ hu, hn⟩
    · obtain rfl := List.mem_singleton.mp hu
      exact ⟨_, (t.newinstr i).segment_mem, hn⟩
  · rcases hcases u hu with rfl | hu
    · exact (h.placed.labels _ t.segment_mem).append [i]
    · exact h.placed.labels u hu

theorem define (h : t.Sound) (k : Symbol) : (t.define k).Sound := by
  refine ⟨h.order, h.placed.nodup, h.placed.len, fun j x hx => ?_, fun u hu j x hx hseg => ?_⟩
  · by_cases hj : j = k
    · subst hj
      have hnew : (t.define j).symbols j = _ := Function.update_self ..
      obtain rfl := Option.some.inj (hnew.symm.trans hx)
      exact ⟨t.segment, t.segment_mem, rfl⟩
    · have hold : (t.define k).symbols j = t.symbols j := Function.update_of_ne hj ..
      exact h.placed.home j x (hold ▸ hx)
  · by_cases hj : j = k
    · subst hj
      have hnew : (t.define j).symbols j = _ := Function.update_self ..
      obtain rfl := Option.some.inj (hnew.symm.trans hx)
      obtain rfl := List.inj_on_of_nodup_map h.placed.nodup t.segment_mem hu hseg
      refine ⟨Nat.le_refl _, ?_⟩
      dsimp only
      rw [List.take_length, h.placed.len _ hu]
    · have hold : (t.define k).symbols j = t.symbols j := Function.update_of_ne hj ..
      exact h.placed.labels u hu j x (hold ▸ hx) hseg

theorem segcreate (h : t.Sound) (hs : t.segcreate p = some t') : t'.Sound := by
  unfold Table.segcreate at hs
  split_ifs at hs
  obtain ⟨a, -, rfl⟩ := Option.map_eq_some_iff.mp hs
  have hlen : t.segs.length = t.segtab.length + 1 := by
    unfold Table.segs
    rw [List.length_append, List.length_singleton]
  have horder : ((t.segs ++ [⟨t.segtab.length + 1, a, 0, []⟩] : List Seg)).map Seg.number =
      List.range (t.segs.length + 1) := by
    rw [List.map_append, h.order, List.range_succ, hlen]
    rfl
  refine ⟨?_, ?_, fun u hu => ?_, fun k x hx => ?_, fun u hu k x hx hseg => ?_⟩
  · refine horder.trans ?_
    change _ = List.range (t.segs ++ [_]).length
    rw [List.length_append, List.length_singleton]
  · change (List.map Seg.number (t.segs ++ [_])).Nodup
    rw [horder]
    exact List.nodup_range
  · rcases List.mem_append.mp hu with hu | hu
    · exact h.placed.len u hu
    · obtain rfl := List.mem_singleton.mp hu
      rfl
  · obtain ⟨u, hu, hn⟩ := h.placed.home k x hx
    exact ⟨u, List.mem_append_left _ hu, hn⟩
  · rcases List.mem_append.mp hu with hu | hu
    · exact h.placed.labels u hu k x hx hseg
    · -- the number of the new segment was not used
      obtain rfl := List.mem_singleton.mp hu
      obtain ⟨v, hv, hn⟩ := h.placed.home k x hx
      have hrange := List.mem_map_of_mem (f := Seg.number) hv
      rw [h.order, List.mem_range, hn, hseg, hlen] at hrange
      exact absurd hrange (Nat.lt_irrefl _)

theorem iterate (h : t.Sound) (i : Instr) (n : ℕ) : ((Table.newinstr i)^[n] t).Sound := by
  induction n generalizing t with
  | zero => exact h
  | succ n ih => exact ih (h.newinstr i)

theorem cblock (h : t.Sound) (hs : t.cblock p = some t') : t'.Sound := by
  unfold Table.cblock at hs
  split_ifs at hs
  obtain ⟨i, -, rfl⟩ := Option.map_eq_some_iff.mp hs
  exact h.iterate _ _

theorem line (h : t.Sound) (hs : t.line l = some t') : t'.Sound := by
  have hgen : ∀ {e : List Term} {f : List Item → Instr},
      (t.expression e).map (fun p => t.newinstr (f p)) = some t' → t'.Sound := fun he => by
    obtain ⟨p, -, rfl⟩ := Option.map_eq_some_iff.mp he
    exact h.newinstr _
  cases l with
  | segcreate e =>
      obtain ⟨p, -, hp⟩ := Option.bind_eq_some_iff.mp hs
      exact h.segcreate hp
  | sdefine s =>
      change t.sdefine s = some t' at hs
      unfold Table.sdefine at hs
      split_ifs at hs
      exact Option.some.inj hs ▸ h.define _
  | ldefine l =>
      change t.ldefine l = some t' at hs
      unfold Table.ldefine at hs
      split_ifs at hs
      have hd := h.define (.localLabel l (t.locals l))
      obtain rfl := Option.some.inj hs
      exact ⟨hd.order, hd.placed⟩
  | cgen1 opcode => exact Option.some.inj hs ▸ h.newinstr _
  | cgen2 opcode e => exact hgen hs
  | cgen2r opcode e => exact hgen hs
  | cgen3 opcode e => exact hgen hs
  | cgenx opcode opcode2 e => exact hgen hs
  | cdata1 e => exact hgen hs
  | cdata2 e => exact hgen hs
  | cblock e =>
      obtain ⟨p, -, hp⟩ := Option.bind_eq_some_iff.mp hs
      exact h.cblock hp

theorem parse {ls : List Line} (h : t.Sound) (hs : Table.parse ls t = some t') : t'.Sound := by
  induction ls generalizing t with
  | nil => exact Option.some.inj hs ▸ h
  | cons l ls ih =>
      obtain ⟨u, hu, hp⟩ := Option.bind_eq_some_iff.mp hs
      exact ih (h.line hu) hp

end Table.Sound

theorem Table.start_sound : Table.start.Sound := by
  refine ⟨rfl, List.nodup_singleton _, fun s hs => ?_, fun k x hx => ?_, fun s _ k x hx => ?_⟩
  · obtain rfl := List.mem_singleton.mp hs
    rfl
  · exact absurd hx.symm (Option.some_ne_none _)
  · exact absurd hx.symm (Option.some_ne_none _)

end

end HydraAmix.Assembler
