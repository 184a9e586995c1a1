import HydraAmix.Assembler.Layout

/-!
# What `link` puts out

The bytes of an instruction stand at the address of its place, since `segcheck` lets only
segments through that begin behind the end of the one before, and `link` fills up with
zeros to the base of each. Operands of one byte and branches are looked at before they are
put out. The two bytes of a long operand are not: they stand for its value exactly where
that has no more than sixteen bits.
-/
namespace HydraAmix.Assembler
open Word

/-! ### Operands -/

/-- A byte or a word stands for a number, without a sign or with one. -/
def Stands {w : ℕ} (b : BitVec w) (v : ℤ) : Prop := v = b.toNat ∨ v = b.toInt

/-- The bytes are the opcode and the value of the operand, least significant byte first. A
branch has the distance from the address behind it. -/
def Emitted (syms : Symbols) (addr : Long) (i : Instr) (bytes : List Byte) : Prop :=
  match i.type with
  | .noArg => bytes = [i.opcode]
  | .short | .varies =>
      ∃ v b, evaluate syms i.expr [] = some v ∧ Stands b v.toInt ∧ bytes = [i.opcode, b]
  | .branch =>
      ∃ (v : Long) (b : Byte), evaluate syms i.expr [] = some v ∧ b.toInt = (v - addr).toInt ∧
        bytes = [i.opcode, b]
  | .long =>
      ∃ (v : Long) (hi lo : Byte), evaluate syms i.expr [] = some v ∧ Stands (hi ++ lo) v.toInt ∧
        bytes = [i.opcode, lo, hi]
  | .data1 =>
      ∃ v b, evaluate syms i.expr [] = some v ∧ Stands b v.toInt ∧ bytes = [b]
  | .data2 =>
      ∃ (v : Long) (hi lo : Byte), evaluate syms i.expr [] = some v ∧ Stands (hi ++ lo) v.toInt ∧
        bytes = [lo, hi]

/-- The operand of an instruction that has two bytes for it has no more than sixteen bits. -/
def Instr.Fits (syms : Symbols) (i : Instr) : Prop :=
  i.type = .long ∨ i.type = .data2 →
    ∃ v, evaluate syms i.expr [] = some v ∧ -32768 ≤ v.toInt ∧ v.toInt ≤ 65535

def Fits (syms : Symbols) (segs : List Seg) : Prop := ∀ s ∈ segs, ∀ i ∈ s.code, i.Fits syms

/-- The layout of the output. `source` and `labels` are what the parser made, before any
instruction became long. -/
structure Laid (source : List Seg) (labels syms : Symbols) (segs : List Seg) (out : List Byte) :
    Prop where
  kept : ∃ l, l.Perm segs ∧ List.Forall₂ Seg.Kept source l
  homes : SameHomes labels syms
  label : ∀ k x, syms k = some x → ∃ s ∈ segs, s.number = x.seg ∧ x.place ≤ s.code.length ∧
    x.value.toNat = s.offset x.place
  operand : ∀ s ∈ segs, ∀ j i, s.code[j]? = some i → ∃ front b back,
    out = front ++ (b ++ back) ∧ front.length = s.offset j ∧
      Emitted syms (s.addr + BitVec.ofNat 32 (size (s.code.take (j + 1)))) i b
  gap : ∀ k < out.length, (∀ s ∈ segs, k < s.offset 0 ∨ s.offset s.code.length ≤ k) →
    out[k]? = some 0
  finish : ∃ s ∈ segs, out.length = s.offset s.code.length

section
variable {syms : Symbols} {addr a : Long} {i : Instr} {b bytes out : List Byte} {v : Long}
  {code : List Instr} {segs : List Seg} {s : Seg}

theorem stands_byte (hl : -128 ≤ v.toInt) (hu : v.toInt ≤ 255) : Stands (v.setWidth 8) v.toInt := by
  have hlt := v.isLt
  unfold Stands
  rw [BitVec.toInt_eq_toNat_cond] at hl hu ⊢
  rw [BitVec.toInt_eq_toNat_cond, BitVec.toNat_setWidth]
  split_ifs at hl hu ⊢
  all_goals omega

theorem toInt_byte (hl : -128 ≤ v.toInt) (hu : v.toInt ≤ 127) :
    (v.setWidth 8).toInt = v.toInt := by
  have hlt := v.isLt
  rw [BitVec.toInt_eq_toNat_cond] at hl hu ⊢
  rw [BitVec.toInt_eq_toNat_cond, BitVec.toNat_setWidth]
  split_ifs at hl hu ⊢
  all_goals omega

theorem hibyte_append (v : Long) : (hibyte v).setWidth 8 ++ v.setWidth 8 = v.setWidth 16 := by
  apply BitVec.eq_of_getLsbD_eq
  intro j hj
  rw [BitVec.getLsbD_append]
  unfold hibyte
  simp only [BitVec.getLsbD_setWidth, BitVec.getLsbD_sshiftRight]
  grind

theorem stands_word (hl : -32768 ≤ v.toInt) (hu : v.toInt ≤ 65535) :
    Stands ((hibyte v).setWidth 8 ++ v.setWidth 8) v.toInt := by
  have hlt := v.isLt
  rw [hibyte_append]
  unfold Stands
  rw [BitVec.toInt_eq_toNat_cond] at hl hu ⊢
  rw [BitVec.toInt_eq_toNat_cond, BitVec.toNat_setWidth]
  split_ifs at hl hu ⊢
  all_goals omega

theorem Stands.word {w : BitVec 16} {x : ℤ} (h : Stands w x) : -32768 ≤ x ∧ x ≤ 65535 := by
  have hlt := w.isLt
  have hle := BitVec.le_toInt w
  have hlt' := BitVec.toInt_lt (x := w)
  rcases h with rfl | rfl
  · omega
  · omega

theorem Emitted.fits (h : Emitted syms addr i b) : i.Fits syms := by
  intro hwide
  unfold Emitted at h
  rcases hwide with hi | hi
  · rw [hi] at h
    obtain ⟨v, hi, lo, hv, hs, -⟩ := h
    exact ⟨v, hv, hs.word⟩
  · rw [hi] at h
    obtain ⟨v, hi, lo, hv, hs, -⟩ := h
    exact ⟨v, hv, hs.word⟩

/-! ### `cemit` -/

theorem emit_length (h : emit syms addr i = some b) : b.length = isize i.type := by
  unfold emit at h
  cases hi : i.type with
  | noArg =>
      rw [hi] at h
      exact Option.some.inj h ▸ rfl
  | short | varies | branch | data1 =>
      rw [hi] at h
      obtain ⟨v, -, hb⟩ := Option.bind_eq_some_iff.mp h
      split_ifs at hb
      exact Option.some.inj hb ▸ rfl
  | long | data2 =>
      rw [hi] at h
      obtain ⟨v, -, rfl⟩ := Option.map_eq_some_iff.mp h
      rfl

/-- What goes out for an instruction, where a long operand fits. -/
theorem emit_emitted (h : emit syms addr i = some b) (hf : i.Fits syms) :
    Emitted syms addr i b := by
  unfold emit at h
  unfold Emitted
  cases hi : i.type with
  | noArg =>
      rw [hi] at h
      exact (Option.some.inj h).symm
  | short | varies | data1 =>
      rw [hi] at h
      obtain ⟨v, hv, hb⟩ := Option.bind_eq_some_iff.mp h
      split_ifs at hb with hbad
      obtain ⟨hl, hu⟩ := not_or.mp hbad
      exact ⟨v, _, hv, stands_byte (Int.not_lt.mp hl) (Int.not_lt.mp hu), (Option.some.inj hb).symm⟩
  | branch =>
      rw [hi] at h
      obtain ⟨v, hv, hb⟩ := Option.bind_eq_some_iff.mp h
      split_ifs at hb with hbad
      obtain ⟨hl, hu⟩ := not_or.mp hbad
      exact ⟨v, _, hv, toInt_byte (Int.not_lt.mp hl) (Int.not_lt.mp hu), (Option.some.inj hb).symm⟩
  | long =>
      rw [hi] at h
      obtain ⟨v, hv, rfl⟩ := Option.map_eq_some_iff.mp h
      obtain ⟨u, hu, hl, hg⟩ := hf (.inl hi)
      obtain rfl := Option.some.inj (hu.symm.trans hv)
      exact ⟨u, _, _, hv, stands_word hl hg, rfl⟩
  | data2 =>
      rw [hi] at h
      obtain ⟨v, hv, rfl⟩ := Option.map_eq_some_iff.mp h
      obtain ⟨u, hu, hl, hg⟩ := hf (.inr hi)
      obtain rfl := Option.some.inj (hu.symm.trans hv)
      exact ⟨u, _, _, hv, stands_word hl hg, rfl⟩

theorem cemit_length (h : cemit syms code addr = some bytes) : bytes.length = size code := by
  induction code generalizing addr bytes with
  | nil => exact Option.some.inj h ▸ rfl
  | cons i ip ih =>
      obtain ⟨b, hb, hrest⟩ := Option.bind_eq_some_iff.mp h
      obtain ⟨rest, hr, rfl⟩ := Option.map_eq_some_iff.mp hrest
      rw [List.length_append, emit_length hb, ih hr, size_cons]

/-- Every instruction goes out at its place. -/
theorem cemit_at (h : cemit syms code addr = some bytes) {j : ℕ} (hj : code[j]? = some i) :
    ∃ front b back, bytes = front ++ (b ++ back) ∧ front.length = size (code.take j) ∧
      emit syms (addr + BitVec.ofNat 32 (size (code.take (j + 1)))) i = some b := by
  induction code generalizing addr bytes j with
  | nil => exact absurd hj.symm (Option.some_ne_none _)
  | cons i' ip ih =>
      obtain ⟨b, hb, hrest⟩ := Option.bind_eq_some_iff.mp h
      obtain ⟨rest, hr, rfl⟩ := Option.map_eq_some_iff.mp hrest
      cases j with
      | zero =>
          obtain rfl := Option.some.inj hj
          refine ⟨[], b, rest, rfl, rfl, ?_⟩
          rw [List.take_succ_cons, size_cons, List.take_zero, size_nil, Nat.add_zero]
          exact hb
      | succ j =>
          obtain ⟨front, c, back, rfl, hlen, hemit⟩ := ih hr hj
          refine ⟨b ++ front, c, back, ?_, ?_, ?_⟩
          · rw [List.append_assoc]
          · rw [List.length_append, emit_length hb, hlen, List.take_succ_cons, size_cons]
          · rw [at_add] at hemit
            rw [List.take_succ_cons, size_cons]
            exact hemit

/-! ### `link` -/

theorem Seg.offset_zero (s : Seg) : s.offset 0 = s.addr.toNat := Nat.add_zero _

theorem Seg.offset_length (s : Seg) : s.offset s.code.length = s.addr.toNat + size s.code := by
  unfold Seg.offset
  rw [List.take_length]

/-- What `link` puts out from the address `a`. -/
structure Linked (syms : Symbols) (a : ℕ) (segs : List Seg) (out : List Byte) : Prop where
  segment : ∀ s ∈ segs, ∃ front bytes back, cemit syms s.code s.addr = some bytes ∧
    out = front ++ (bytes ++ back) ∧ a + front.length = s.addr.toNat
  gap : ∀ k < out.length, (∀ s ∈ segs, a + k < s.offset 0 ∨ s.offset s.code.length ≤ a + k) →
    out[k]? = some 0
  finish : segs = [] ∧ out = [] ∨ ∃ s ∈ segs, a + out.length = s.offset s.code.length

/-- A segment goes out behind the zeros before it, and the rest behind the segment. -/
theorem Linked.cons (hle : a.toNat ≤ s.addr.toNat) (hb : cemit syms s.code s.addr = some b)
    (h : Linked syms (s.addr.toNat + size s.code) segs out) :
    Linked syms a.toNat (s :: segs)
      (List.replicate (s.addr.toNat - a.toNat) 0 ++ (b ++ out)) := by
  have hlen := cemit_length hb
  refine ⟨fun u hu => ?_, fun k hk hout => ?_, .inr ?_⟩
  · rcases List.mem_cons.mp hu with rfl | hu
    · refine ⟨_, b, out, hb, rfl, ?_⟩
      rw [List.length_replicate]
      omega
    · obtain ⟨front, bytes, back, hbytes, rfl, hat⟩ := h.segment u hu
      refine ⟨List.replicate (s.addr.toNat - a.toNat) 0 ++ (b ++ front), bytes, back, hbytes,
        ?_, ?_⟩
      · simp only [List.append_assoc]
      · rw [List.length_append, List.length_append, List.length_replicate, hlen]
        omega
  · have hself := hout s List.mem_cons_self
    rw [s.offset_zero, s.offset_length] at hself
    rcases Nat.lt_or_ge k (s.addr.toNat - a.toNat) with hlt | hge
    · rw [List.getElem?_append_left (by rwa [List.length_replicate]), List.getElem?_replicate,
        if_pos hlt]
    · have hbehind : s.addr.toNat + size s.code ≤ a.toNat + k := by omega
      rw [List.length_append, List.length_append, List.length_replicate] at hk
      rw [List.getElem?_append_right (by rwa [List.length_replicate]), List.length_replicate,
        List.getElem?_append_right (by omega)]
      refine h.gap _ (by omega) fun u hu => ?_
      have hother := hout u (List.mem_cons_of_mem s hu)
      rw [hlen, show s.addr.toNat + size s.code + (k - (s.addr.toNat - a.toNat) - size s.code) =
        a.toNat + k by omega]
      exact hother
  · rw [List.length_append, List.length_append, List.length_replicate, hlen]
    rcases h.finish with ⟨rfl, rfl⟩ | ⟨u, hu, hat⟩
    · refine ⟨s, List.mem_cons_self, ?_⟩
      rw [s.offset_length, List.length_nil]
      omega
    · refine ⟨u, List.mem_cons_of_mem s hu, ?_⟩
      omega

/-- The next segment begins behind the end of this one. -/
theorem apart_cons {u : Seg} (h : apart (s :: u :: segs) = true) :
    (s.addr + s.len).toNat ≤ u.addr.toNat ∧ apart (u :: segs) = true := by
  unfold apart at h
  split at h
  next => exact absurd h Bool.false_ne_true
  next hlt => exact ⟨BitVec.le_def.mp (BitVec.not_lt.mp hlt), h⟩

theorem link_linked (h : link syms segs a = some out) (ha : apart segs = true)
    (hfirst : ∀ s ∈ segs.head?, a.toNat ≤ s.addr.toNat)
    (hend : ∀ s ∈ segs, (s.addr + s.len).toNat = s.addr.toNat + size s.code) :
    Linked syms a.toNat segs out := by
  induction segs generalizing a out with
  | nil =>
      obtain rfl := Option.some.inj h
      exact ⟨fun _ hs => absurd hs List.not_mem_nil, fun k hk => absurd hk (Nat.not_lt_zero k),
        .inl ⟨rfl, rfl⟩⟩
  | cons s segs ih =>
      obtain ⟨b, hb, hm⟩ := Option.bind_eq_some_iff.mp h
      obtain ⟨rest, hr, rfl⟩ := Option.map_eq_some_iff.mp hm
      have hle : a.toNat ≤ s.addr.toNat := hfirst s rfl
      have hbase : (if a < s.addr then s.addr else a) = s.addr := by
        split
        next => rfl
        next hn =>
          have hge : s.addr.toNat ≤ a.toNat := BitVec.le_def.mp (BitVec.not_lt.mp hn)
          exact BitVec.eq_of_toNat_eq (Nat.le_antisymm hle hge)
      rw [hbase] at hr
      have hat := hend s List.mem_cons_self
      have hnext : apart segs = true ∧ ∀ u ∈ segs.head?, (s.addr + s.len).toNat ≤ u.addr.toNat := by
        cases segs with
        | nil => exact ⟨rfl, fun u hu => absurd hu (Option.not_mem_none u)⟩
        | cons u segs =>
            obtain ⟨hu, hrest⟩ := apart_cons ha
            exact ⟨hrest, fun v hv => Option.some.inj hv ▸ hu⟩
      have hlinked := ih hr hnext.1 hnext.2 fun u hu => hend u (List.mem_cons_of_mem s hu)
      rw [hat] at hlinked
      exact hlinked.cons hle hb

/-! ### The output -/

theorem Placed.perm {l : List Seg} (h : Placed segs syms) (hp : l.Perm segs) : Placed l syms := by
  refine ⟨(hp.map Seg.number).nodup_iff.mpr h.nodup, fun s hs => h.len s (hp.subset hs),
    fun k x hx => ?_, fun s hs => h.labels s (hp.subset hs)⟩
  obtain ⟨s, hs, hn⟩ := h.home k x hx
  exact ⟨s, hp.symm.subset hs, hn⟩

theorem Room.size_lt (h : Room segs) (hs : s ∈ segs) : s.addr.toNat + size s.code < 0x100000000 :=
  Nat.lt_of_le_of_lt (Nat.add_le_add_left (size_le_longSize s.code) _) (h s hs)

theorem Placed.label (h : Placed segs syms) (hroom : Room segs) {k : Symbol} {x : Label}
    (hx : syms k = some x) : ∃ s ∈ segs, s.number = x.seg ∧ x.place ≤ s.code.length ∧
      x.value.toNat = s.offset x.place := by
  obtain ⟨s, hs, hn⟩ := h.home k x hx
  obtain ⟨hle, hv⟩ := h.labels s hs k x hx hn.symm
  have hlt := hroom.size_lt hs
  have htake := size_take_le s.code x.place
  refine ⟨s, hs, hn, hle, ?_⟩
  rw [hv]
  exact toNat_at (by omega)

theorem Linked.operand (h : Linked syms 0 segs out) (hf : Fits syms segs) (hs : s ∈ segs) {j : ℕ}
    (hj : s.code[j]? = some i) : ∃ front b back, out = front ++ (b ++ back) ∧
      front.length = s.offset j ∧
      Emitted syms (s.addr + BitVec.ofNat 32 (size (s.code.take (j + 1)))) i b := by
  obtain ⟨front, bytes, back, hbytes, rfl, hat⟩ := h.segment s hs
  obtain ⟨front', b, back', rfl, hlen, hemit⟩ := cemit_at hbytes hj
  refine ⟨front ++ front', b, back' ++ back, ?_, ?_, emit_emitted hemit ?_⟩
  · simp only [List.append_assoc]
  · unfold Seg.offset
    rw [List.length_append, hlen, ← hat, Nat.zero_add]
  · exact hf s hs i (List.mem_of_getElem? hj)

end

/-- Whatever lines the assembler reads, as long as no segment could come to the end of the
address space: `longcheck` comes to an end, and where `link` completes, the output has its
layout exactly if every operand that goes out with two bytes has no more than sixteen bits. -/
theorem assembled_layout (qsort : List Seg → List Seg) (hq : ∀ l, (qsort l).Perm l)
    (ls : List Line) (t : Table) (ht : Table.parse ls Table.start = some t) (hroom : Room t.segs) :
    (∃ turns, longcheck turns t.segs t.symbols ≠ none) ∧
      ∀ turns segs syms sorted out, longcheck turns t.segs t.symbols = some (some (segs, syms)) →
        segcheck qsort segs = some sorted → link syms sorted 0 = some out →
        (Laid t.segs t.symbols syms sorted out ↔ Fits syms sorted) := by
  refine ⟨⟨_, longcheck_ends (Nat.lt_succ_self _)⟩, fun turns segs syms sorted out hl hc ho => ?_⟩
  have hsound := Table.start_sound.parse ht
  obtain ⟨hplaced, hkept, hhomes⟩ := longcheck_placed hl hsound.placed hroom
  have hfree := hroom.kept hkept
  unfold segcheck at hc
  split_ifs at hc with hapart
  obtain rfl := Option.some.inj hc
  have hperm := hq segs
  have hplaced' := hplaced.perm hperm
  have hfree' : Room (qsort segs) := fun s hs => hfree s (hperm.subset hs)
  constructor
  · intro hlaid s hs i hi
    obtain ⟨j, hj⟩ := List.getElem?_of_mem hi
    obtain ⟨-, b, -, -, -, hemitted⟩ := hlaid.operand s hs j i hj
    exact hemitted.fits
  · intro hfits
    have hend : ∀ s ∈ qsort segs, (s.addr + s.len).toNat = s.addr.toNat + size s.code := by
      intro s hs
      rw [hplaced'.len s hs]
      exact toNat_at (hfree'.size_lt hs)
    have hlinked : Linked syms 0 (qsort segs) out :=
      link_linked ho hapart (fun _ _ => Nat.zero_le _) hend
    have hne : qsort segs ≠ [] := by
      intro hnil
      have hlen := hperm.length_eq.trans hkept.length_eq.symm
      rw [hnil] at hlen
      unfold Table.segs at hlen
      rw [List.length_append, List.length_singleton] at hlen
      exact absurd hlen (Nat.succ_ne_zero _).symm
    refine ⟨⟨segs, hperm.symm, hkept⟩, hhomes, fun k x hx => hplaced'.label hfree' hx,
      fun s hs j i hj => hlinked.operand hfits hs hj, fun k hk hout => ?_, ?_⟩
    · exact hlinked.gap k hk (by simpa using hout)
    · obtain ⟨hnil, -⟩ | ⟨s, hs, hat⟩ := hlinked.finish
      · exact absurd hnil hne
      · exact ⟨s, hs, (Nat.zero_add _).symm.trans hat⟩

/-- A load of a byte that stands behind it, in a segment at 0x10. -/
theorem assembled_layout_load : ∃ t segs syms sorted out,
    Table.parse [.segcreate [.constant 0x10], .cgenx 0xa5 0xad [.symbol ['v']], .sdefine ['v'],
      .cdata1 [.constant 7]] Table.start = some t ∧
      longcheck 2 t.segs t.symbols = some (some (segs, syms)) ∧ segcheck id segs = some sorted ∧
      link syms sorted 0 = some out ∧ (Laid t.segs t.symbols syms sorted out ↔ Fits syms sorted) :=
  ⟨_, _, _, _, _, rfl, rfl, rfl, rfl,
    (assembled_layout id (fun _ => .refl _) [.segcreate [.constant 0x10],
      .cgenx 0xa5 0xad [.symbol ['v']], .sdefine ['v'], .cdata1 [.constant 7]] _ rfl
      (by decide)).2 2 _ _ _ _ rfl rfl rfl⟩

/-- `jmp 0x12345` goes to 0x2345. -/
theorem assembled_layout_fails :
    ¬ ∀ (qsort : List Seg → List Seg), (∀ l, (qsort l).Perm l) → ∀ (ls : List Line) (t : Table),
      Table.parse ls Table.start = some t → ∀ turns segs syms sorted out,
        longcheck turns t.segs t.symbols = some (some (segs, syms)) →
        segcheck qsort segs = some sorted → link syms sorted 0 = some out →
        Laid t.segs t.symbols syms sorted out := by
  intro h
  have hlaid := h id (fun _ => .refl _) [.cgen3 0x4c [.constant 0x12345]] _ rfl
    1 _ _ _ _ rfl rfl rfl
  obtain ⟨-, b, -, -, -, hb⟩ := hlaid.operand _ List.mem_cons_self 0 _ rfl
  obtain ⟨v, hv, -, hle⟩ := hb.fits (.inl rfl)
  obtain rfl := Option.some.inj hv
  exact absurd hle (by decide)

end HydraAmix.Assembler
