import HydraAmix.Console.KeyEncode

/-!
# The shift keys of a keymap

Each of the sixteen rows of `km_shiftkeys` lists the keys of one bit of the
keyboard state, up to the first entry above 127. `fixstate` builds the state and
the set of shift keys from the rows and the keys that are down; `dokb` brings the
bits of one key's rows up to date. Both leave the bits of the listed rows as they
are to be, provided that nothing but the one key has changed.
-/
namespace HydraAmix.Console.KeyEncode

/-- `keyboardstate |= mask` for a key that is down, and the key's bit in `shiftkeys`. -/
def Keyboard.shiftKey (kb : Keyboard) (i k : ℕ) : Keyboard :=
  ⟨kb.keystates, Function.update kb.shiftkeys k true,
    if kb.keystates k then kb.keyboardstate ||| 1#32 <<< i else kb.keyboardstate, kb.clearprefix⟩

namespace Block

variable (b : Block)

/-- The loop of `fixstate` over the keys of bit `i`. -/
def fixRow (i : ℕ) : List ℕ → Keyboard → Option Keyboard
  | [], kb => some kb
  | j :: js, kb => (b.read 1 (8 + 4 * i + j)).bind fun k =>
      if 127 < k then some kb else fixRow i js (kb.shiftKey i k)

/-- `fixstate`, with the keymap that it selects. -/
def fixstate (kb : Keyboard) : Option Keyboard :=
  (List.range 16).foldlM (fun kb i => b.fixRow i [0, 1, 2, 3] kb)
    ⟨kb.keystates, fun _ => false, 0#32, kb.clearprefix⟩

/-- The keys of bit `i` at some columns, before the first entry above 127. -/
def keys (i : ℕ) (js : List ℕ) : List ℕ :=
  (js.map fun j => (b.byte (8 + 4 * i + j)).toNat).takeWhile (· ≤ 127)

/-- The keys listed for bit `i`. -/
def listed (i : ℕ) : List ℕ := b.keys i [0, 1, 2, 3]

/-- A shift bit is set exactly when one of its keys is down. -/
def Follows (kb : Keyboard) : Prop :=
  ∀ i < 16, kb.keyboardstate.getLsbD i = (b.listed i).any kb.keystates

/-- The shift keys are those of the keymap, whose rows can be read. -/
structure Table (kb : Keyboard) : Prop where
  row : ∀ i < 16, ∀ p, b.rowAny i p [0, 1, 2, 3] = some ((b.listed i).any p)
  shiftkeys : ∀ k, kb.shiftkeys k = true ↔ ∃ i < 16, k ∈ b.listed i

variable {b} {kb kb' : Keyboard} {i : ℕ}

theorem read_one {p k : ℕ} (h : b.read 1 p = some k) : k = (b.byte p).toNat := by
  unfold read at h
  split_ifs at h
  have hk := Option.some.inj h
  rw [bigEndian, bigEndian, Nat.zero_mul, Nat.zero_add, Nat.add_zero] at hk
  exact hk.symm

theorem keys_cons (i j : ℕ) (js : List ℕ) : b.keys i (j :: js) =
    if 127 < (b.byte (8 + 4 * i + j)).toNat then []
    else (b.byte (8 + 4 * i + j)).toNat :: b.keys i js := by
  unfold keys
  rw [List.map_cons, List.takeWhile_cons]
  by_cases h : 127 < (b.byte (8 + 4 * i + j)).toNat
  · rw [if_pos h, if_neg (by simpa using h)]
  · rw [if_neg h, if_pos (by simpa using h)]

theorem mask_bit {n : ℕ} (hi : i < 16) : (1#32 <<< i).getLsbD n = decide (n = i) := by
  rw [show 1#32 <<< i = BitVec.twoPow 32 i from rfl, BitVec.getLsbD_twoPow]
  have h32 : i < 32 := by omega
  simp only [h32, decide_true, Bool.true_and, eq_comm]

/-! ### Rebuilding -/

/-- What a row adds to the state and to the shift keys. -/
structure Added (b : Block) (i : ℕ) (js : List ℕ) (kb kb' : Keyboard) : Prop where
  row : ∀ p, b.rowAny i p js = some ((b.keys i js).any p)
  keystates : kb'.keystates = kb.keystates
  shiftkeys : ∀ k, kb'.shiftkeys k = true ↔ kb.shiftkeys k = true ∨ k ∈ b.keys i js
  state : ∀ n, kb'.keyboardstate.getLsbD n =
    (kb.keyboardstate.getLsbD n || decide (n = i) && (b.keys i js).any kb.keystates)

theorem fixRow_added (hi : i < 16) {js : List ℕ} (h : b.fixRow i js kb = some kb') :
    Added b i js kb kb' := by
  induction js generalizing kb with
  | nil =>
      obtain rfl := Option.some.inj h
      exact ⟨fun _ => rfl, rfl, fun k => (or_iff_left List.not_mem_nil).symm, fun n => by
        rw [keys, List.map_nil, List.takeWhile_nil, List.any_nil, Bool.and_false, Bool.or_false]⟩
  | cons j js ih =>
      obtain ⟨k, hk, h⟩ := Option.bind_eq_some_iff.mp h
      have hbyte := read_one hk
      have hcons := keys_cons (b := b) i j js
      rw [← hbyte] at hcons
      have hrow : ∀ p, b.rowAny i p (j :: js) =
          if 127 < k then some false else if p k then some true else b.rowAny i p js := by
        intro p
        rw [rowAny, hk, Option.bind_some]
      by_cases hlast : 127 < k
      · rw [if_pos hlast] at h hcons
        obtain rfl := Option.some.inj h
        refine ⟨fun p => ?_, rfl, fun x => ?_, fun n => ?_⟩
        · rw [hrow, if_pos hlast, hcons, List.any_nil]
        · rw [hcons]
          exact (or_iff_left List.not_mem_nil).symm
        · rw [hcons, List.any_nil, Bool.and_false, Bool.or_false]
      · rw [if_neg hlast] at h hcons
        obtain ⟨hr, hs, hshift, hstate⟩ := ih h
        refine ⟨fun p => ?_, hs, fun x => ?_, fun n => ?_⟩
        · rw [hrow, if_neg hlast, hcons, List.any_cons]
          cases p k with
          | true => rfl
          | false =>
              rw [if_neg Bool.false_ne_true, hr, Bool.false_or]
        · rw [hshift x, hcons, List.mem_cons]
          change Function.update kb.shiftkeys k true x = true ∨ _ ↔ _
          by_cases hx : x = k
          · subst hx
            simp
          · rw [Function.update_of_ne hx]
            simp only [hx, false_or]
        · rw [hstate n, hcons, List.any_cons]
          change ((if kb.keystates k then kb.keyboardstate ||| 1#32 <<< i else
            kb.keyboardstate).getLsbD n || (decide (n = i) && (b.keys i js).any kb.keystates)) = _
          cases kb.keystates k with
          | true =>
              rw [if_pos rfl, BitVec.getLsbD_or, mask_bit hi, Bool.true_or, Bool.and_true]
              cases kb.keyboardstate.getLsbD n <;> cases decide (n = i) <;> rfl
          | false =>
              rw [if_neg Bool.false_ne_true, Bool.false_or]

theorem fixRows {is : List ℕ} (his : ∀ i ∈ is, i < 16)
    (h : is.foldlM (fun kb i => b.fixRow i [0, 1, 2, 3] kb) kb = some kb') :
    (∀ i ∈ is, ∀ p, b.rowAny i p [0, 1, 2, 3] = some ((b.listed i).any p)) ∧
    kb'.keystates = kb.keystates ∧
    (∀ k, kb'.shiftkeys k = true ↔ kb.shiftkeys k = true ∨ ∃ i ∈ is, k ∈ b.listed i) ∧
    ∀ n, kb'.keyboardstate.getLsbD n =
      (kb.keyboardstate.getLsbD n || decide (n ∈ is) && (b.listed n).any kb.keystates) := by
  induction is generalizing kb with
  | nil =>
      obtain rfl := Option.some.inj h
      exact ⟨fun i hi => absurd hi List.not_mem_nil, rfl, fun k => by simp, fun n => by simp⟩
  | cons i is ih =>
      rw [List.foldlM_cons] at h
      obtain ⟨kb₁, h₁, h⟩ := Option.bind_eq_some_iff.mp h
      have hadd := fixRow_added (his i List.mem_cons_self) h₁
      obtain ⟨hrow, hkeys, hshift, hstate⟩ := ih (fun x hx => his x (List.mem_cons_of_mem i hx)) h
      refine ⟨fun x hx => ?_, hkeys.trans hadd.keystates, fun k => ?_, fun n => ?_⟩
      · rcases List.mem_cons.mp hx with rfl | hx
        · exact hadd.row
        · exact hrow x hx
      · rw [hshift k, hadd.shiftkeys k, or_assoc]
        simp only [List.mem_cons, exists_eq_or_imp]
        rfl
      · rw [hstate n, hadd.state n, hadd.keystates]
        by_cases hn : n = i
        · subst hn
          simp only [decide_true, Bool.true_and, List.mem_cons_self]
          change (kb.keyboardstate.getLsbD n || (b.listed n).any kb.keystates ||
            decide (n ∈ is) && (b.listed n).any kb.keystates) = _
          cases (b.listed n).any kb.keystates <;> cases decide (n ∈ is) <;> simp
        · simp only [hn, decide_false, Bool.false_and, Bool.or_false, List.mem_cons, false_or]

/-- `fixstate` leaves the shift keys of the keymap, and a state that follows them. -/
theorem fixstate_spec (h : b.fixstate kb = some kb') :
    kb'.keystates = kb.keystates ∧ b.Table kb' ∧ b.Follows kb' := by
  obtain ⟨hrow, hkeys, hshift, hstate⟩ := fixRows (fun i hi => List.mem_range.mp hi) h
  refine ⟨hkeys, ⟨fun i hi => hrow i (List.mem_range.mpr hi), fun k => ?_⟩, fun i hi => ?_⟩
  · rw [hshift k]
    simp only [List.mem_range, Bool.false_eq_true, false_or]
  · rw [hstate i, hkeys]
    simp [List.mem_range.mpr hi]

/-! ### One key -/

/-- The row of bit `i` after a transition of key `c`. -/
structure Moved (b : Block) (c : ℕ) (up : Bool) (is : List ℕ) (kb kb' : Keyboard) : Prop where
  keystates : kb'.keystates = kb.keystates
  shiftkeys : kb'.shiftkeys = kb.shiftkeys
  state : ∀ n, kb'.keyboardstate.getLsbD n =
    if n ∈ is ∧ c ∈ b.listed n then !up || (b.listed n).any kb.keystates
    else kb.keyboardstate.getLsbD n

theorem shiftBit_moved {c : ℕ} {up : Bool} (hi : i < 16)
    (hrow : ∀ p, b.rowAny i p [0, 1, 2, 3] = some ((b.listed i).any p))
    (h : b.shiftBit c up kb i = some kb') : Moved b c up [i] kb kb' := by
  unfold shiftBit at h
  rw [hrow, Option.bind_some] at h
  by_cases hc : c ∈ b.listed i
  · have hhit : (b.listed i).any (· == c) = true :=
      List.any_eq_true.mpr ⟨c, hc, beq_self_eq_true c⟩
    rw [if_pos hhit] at h
    have hbit : ∀ (x : BitVec 32) n, n ≠ i → (x ||| 1#32 <<< i).getLsbD n = x.getLsbD n ∧
        (x &&& ~~~(1#32 <<< i)).getLsbD n = x.getLsbD n := by
      intro x n hn
      rw [BitVec.getLsbD_or, BitVec.getLsbD_and, BitVec.getLsbD_not, mask_bit hi,
        decide_eq_false hn, Bool.or_false]
      refine ⟨rfl, ?_⟩
      by_cases h32 : n < 32
      · simp [h32]
      · simp [BitVec.getLsbD_of_ge x n (by omega)]
    have hown : ∀ x : BitVec 32, (x ||| 1#32 <<< i).getLsbD i = true ∧
        (x &&& ~~~(1#32 <<< i)).getLsbD i = false := by
      intro x
      rw [BitVec.getLsbD_or, BitVec.getLsbD_and, BitVec.getLsbD_not, mask_bit hi]
      simp
    cases up with
    | false =>
        rw [if_neg Bool.false_ne_true] at h
        obtain rfl := Option.some.inj h
        refine ⟨rfl, rfl, fun n => ?_⟩
        by_cases hn : n = i
        · subst hn
          rw [if_pos ⟨List.mem_singleton_self _, hc⟩]
          exact (hown _).1
        · rw [if_neg fun h => hn (List.mem_singleton.mp h.1)]
          exact (hbit _ n hn).1
    | true =>
        rw [if_pos rfl, hrow, Option.map_some] at h
        obtain rfl := Option.some.inj h
        refine ⟨rfl, rfl, fun n => ?_⟩
        change (if (b.listed i).any kb.keystates then
          kb.keyboardstate &&& ~~~(1#32 <<< i) ||| 1#32 <<< i
          else kb.keyboardstate &&& ~~~(1#32 <<< i)).getLsbD n = _
        by_cases hn : n = i
        · subst hn
          rw [if_pos (show n ∈ [n] ∧ _ from ⟨List.mem_singleton_self _, hc⟩)]
          cases (b.listed n).any kb.keystates with
          | true => exact (hown _).1
          | false => exact (hown _).2
        · rw [if_neg (show ¬ (n ∈ [i] ∧ _) from fun h => hn (List.mem_singleton.mp h.1))]
          cases (b.listed i).any kb.keystates with
          | true => exact (hbit _ n hn).1.trans (hbit _ n hn).2
          | false => exact (hbit _ n hn).2
  · have hmiss : (b.listed i).any (· == c) = false := by
      rw [List.any_eq_false]
      intro x hx
      rw [beq_iff_eq]
      rintro rfl
      exact hc hx
    rw [hmiss, if_neg Bool.false_ne_true] at h
    obtain rfl := Option.some.inj h
    refine ⟨rfl, rfl, fun n => (if_neg ?_).symm⟩
    rintro ⟨hn, hcn⟩
    exact hc (List.mem_singleton.mp hn ▸ hcn)

theorem shiftBits {c : ℕ} {up : Bool} {is : List ℕ} (his : ∀ i ∈ is, i < 16)
    (hrow : ∀ i ∈ is, ∀ p, b.rowAny i p [0, 1, 2, 3] = some ((b.listed i).any p))
    (h : is.foldlM (b.shiftBit c up) kb = some kb') : Moved b c up is kb kb' := by
  induction is generalizing kb with
  | nil =>
      obtain rfl := Option.some.inj h
      exact ⟨rfl, rfl, fun n => (if_neg fun h => List.not_mem_nil h.1).symm⟩
  | cons i is ih =>
      rw [List.foldlM_cons] at h
      obtain ⟨kb₁, h₁, h⟩ := Option.bind_eq_some_iff.mp h
      have hone := shiftBit_moved (his i List.mem_cons_self) (hrow i List.mem_cons_self) h₁
      have hrest := ih (fun x hx => his x (List.mem_cons_of_mem i hx))
        (fun x hx => hrow x (List.mem_cons_of_mem i hx)) h
      refine ⟨hrest.keystates.trans hone.keystates, hrest.shiftkeys.trans hone.shiftkeys,
        fun n => ?_⟩
      rw [hrest.state n, hone.state n, hone.keystates]
      by_cases hc : c ∈ b.listed n
      · by_cases hn : n ∈ is
        · rw [if_pos ⟨hn, hc⟩, if_pos ⟨List.mem_cons_of_mem i hn, hc⟩]
        · rw [if_neg fun h => hn h.1]
          refine if_congr ?_ rfl rfl
          rw [List.mem_singleton, List.mem_cons, or_iff_left hn]
      · rw [if_neg fun h => hc h.2, if_neg fun h => hc h.2, if_neg fun h => hc h.2]

/-- Where only key `c` may have changed, `dokb` makes the state follow the keys again; a key
that comes as pressed has to be down. -/
theorem shifted_spec {rawcode : ℕ} (ht : b.Table kb)
    (hf : ∀ i < 16, rawcode % 128 ∉ b.listed i →
      kb.keyboardstate.getLsbD i = (b.listed i).any kb.keystates)
    (hd : 128 ≤ rawcode ∨ kb.shiftkeys (rawcode % 128) = false ∨
      kb.keystates (rawcode % 128) = true)
    (h : b.shifted rawcode kb = some kb') :
    kb'.keystates = kb.keystates ∧ kb'.shiftkeys = kb.shiftkeys ∧ b.Follows kb' := by
  unfold shifted at h
  by_cases hs : kb.shiftkeys (rawcode % 128) = true
  · rw [if_pos hs] at h
    have hm := shiftBits (fun i hi => List.mem_range.mp hi)
      (fun i hi => ht.row i (List.mem_range.mp hi)) h
    refine ⟨hm.keystates, hm.shiftkeys, fun i hi => ?_⟩
    rw [hm.state i, hm.keystates]
    by_cases hc : rawcode % 128 ∈ b.listed i
    · rw [if_pos ⟨List.mem_range.mpr hi, hc⟩]
      by_cases hup : 128 ≤ rawcode
      · simp [hup]
      · have hdown := (hd.resolve_left hup).resolve_left (by rw [hs]; nofun)
        have hany : (b.listed i).any kb.keystates = true :=
          List.any_eq_true.mpr ⟨_, hc, hdown⟩
        rw [hany, Bool.or_true]
    · rw [if_neg fun h => hc h.2]
      exact hf i hi hc
  · rw [if_neg hs] at h
    obtain rfl := Option.some.inj h
    exact ⟨rfl, rfl, fun i hi => hf i hi fun hc => hs ((ht.shiftkeys _).mpr ⟨i, hi, hc⟩)⟩

/-! ### Interpreting -/

/-- The entries that a key leads to in some state. -/
inductive Entry (b : Block) : Keyent → Prop
  | top (rawcode : ℕ) (e : Keyent) : rawcode < 256 → b.keyent (72 + 4 * rawcode) = some e →
      Entry b e
  | tab (state : BitVec 32) (e e' : Keyent) : Entry b e → e.action = .tab →
      b.table state e.value = some e' → Entry b e'

/-- KA_STAT entries set only bits above 15. -/
def HighStat (b : Block) : Prop := ∀ e, b.Entry e → e.action = .stat → e.value % 0x10000 = 0

/-- All but the prefix bits and the like is as it was. -/
structure Low (kb kb' : Keyboard) : Prop where
  keystates : kb'.keystates = kb.keystates
  shiftkeys : kb'.shiftkeys = kb.shiftkeys
  state : ∀ i < 16, kb'.keyboardstate.getLsbD i = kb.keyboardstate.getLsbD i

theorem Low.trans {kb kb₁ kb' : Keyboard} (h : Low kb kb₁) (h' : Low kb₁ kb') : Low kb kb' :=
  ⟨h'.keystates.trans h.keystates, h'.shiftkeys.trans h.shiftkeys,
    fun i hi => (h'.state i hi).trans (h.state i hi)⟩

theorem Low.table (h : Low kb kb') (ht : b.Table kb) : b.Table kb' :=
  ⟨ht.row, h.shiftkeys ▸ ht.shiftkeys⟩

theorem Low.follows (h : Low kb kb') (hf : b.Follows kb) : b.Follows kb' := by
  intro i hi
  rw [h.state i hi, h.keystates]
  exact hf i hi

theorem clear_low (kb : Keyboard) (rep : Bool) : Low kb (kb.clear rep) := by
  unfold Keyboard.clear
  split_ifs
  · refine ⟨rfl, rfl, fun i hi => ?_⟩
    have hmask : ∀ i < 16, (~~~0xff0000#32).getLsbD i = true := by decide
    rw [BitVec.getLsbD_and, hmask i hi, Bool.and_true]
  · exact ⟨rfl, rfl, fun _ _ => rfl⟩

theorem stat_low {v : ℕ} (hv : v % 0x10000 = 0) (kb : Keyboard) :
    Low kb (kb.setState (kb.keyboardstate ||| BitVec.ofNat 32 v)) := by
  refine ⟨rfl, rfl, fun i hi => ?_⟩
  have hbit : v.testBit i = false := by
    have hmod := Nat.testBit_mod_two_pow v 16 i
    rw [show 2 ^ 16 = 0x10000 from rfl, hv, Nat.zero_testBit, decide_eq_true hi,
      Bool.true_and] at hmod
    exact hmod.symm
  change (kb.keyboardstate ||| BitVec.ofNat 32 v).getLsbD i = _
  rw [BitVec.getLsbD_or, BitVec.getLsbD_ofNat, hbit, Bool.and_false, Bool.or_false]

theorem encode_low_of_ne_tab (hb : b.HighStat) {rep : Bool} {fuel : ℕ} {e : Keyent} {r : Encoded}
    (he : b.Entry e) (hne : e.action ≠ .tab) (h : b.encode rep fuel kb e = some r) :
    Low kb r.kb := by
  unfold encode at h
  cases ha : e.action with
  | chr =>
      simp only [ha] at h
      obtain rfl := Option.some.inj h
      exact ⟨rfl, rfl, fun _ _ => rfl⟩
  | str w =>
      simp only [ha] at h
      obtain ⟨cs, -, rfl⟩ := Option.map_eq_some_iff.mp h
      exact ⟨rfl, rfl, fun _ _ => rfl⟩
  | stat =>
      simp only [ha] at h
      obtain rfl := Option.some.inj h
      exact (clear_low kb rep).trans (stat_low (hb e he ha) _)
  | tab => exact absurd ha hne
  | nop =>
      simp only [ha] at h
      obtain rfl := Option.some.inj h
      exact ⟨rfl, rfl, fun _ _ => rfl⟩
  | invalid =>
      simp only [ha] at h
      obtain rfl := Option.some.inj h
      exact ⟨rfl, rfl, fun _ _ => rfl⟩

/-- `encode` leaves the shift bits, where no entry sets one. -/
theorem encode_low (hb : b.HighStat) {rep : Bool} {fuel : ℕ} {e : Keyent} {r : Encoded}
    (he : b.Entry e) (h : b.encode rep fuel kb e = some r) : Low kb r.kb := by
  induction fuel generalizing kb e with
  | zero =>
      refine encode_low_of_ne_tab hb he (fun ha => ?_) h
      rw [encode_tab_zero ha] at h
      exact absurd h nofun
  | succ fuel ih =>
      by_cases ha : e.action = .tab
      · rw [encode_tab ha] at h
        obtain ⟨e', he', h⟩ := Option.bind_eq_some_iff.mp h
        exact (clear_low kb rep).trans (ih (.tab _ e e' he ha he') h)
      · exact encode_low_of_ne_tab hb he ha h

end Block

end HydraAmix.Console.KeyEncode
