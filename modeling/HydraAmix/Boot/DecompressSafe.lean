import HydraAmix.Boot.DecompressInput
import HydraAmix.Library.ParentLinks
import Mathlib.Order.Interval.Finset.Nat

/-!
# When the decompressor is safe

The codes alone, whatever they expand to, decide which entries of the tables
have been made when a code is expanded, and from which code each was made. Such
entries are the links here. A code is grounded if its chain of links ends at a
character; an input is well formed if every code that is expanded is grounded.

That no code is checked to be so is what `decompress` lacks: the first code and
the one after `CLEAR` are taken as they are, and a code beyond the next entry
is taken for the next entry. `decompress_iff` says that well-formedness is
exactly what it relies on.
-/
namespace HydraAmix.Boot
open Word ParentLinks

abbrev Links := ℕ → Option ℕ

/-- A character needs no entry. -/
abbrev IsChar (code : ℕ) : Prop := code < 256

section
variable {σ : Type} (cramped : Bool) (gblk : σ → ℕ → Option (List Byte × σ))

/-- The link of the new entry, if there is one. -/
def Codes.link (g : Codes σ) (links : Links) (oldcode : ℕ) : Links :=
  if g.free_ent < g.maxmaxcode then Function.update links g.free_ent (some oldcode) else links

/-- The codes expanded in `n` turns of the loop, each with the links there were:
the code read, or the one before it if it is not below the next entry. -/
def expansions : ℕ → Links → ℕ → Codes σ → List (Links × ℕ)
  | 0, _, _, _ => []
  | n + 1, links, oldcode, g =>
      match nextcode cramped gblk g with
      | .ok (some code, g) =>
          (links, if code ≥ g.free_ent then oldcode else code) ::
            expansions n (g.link links oldcode) code g.enter
      | _ => []

/-- Those of a whole input. -/
def inputExpansions (n : ℕ) (i : Input σ) : List (Links × ℕ) :=
  match header cramped gblk i with
  | .ok (some g, _) =>
      match getcode cramped gblk g with
      | .ok (some oldcode, g) => expansions cramped gblk n (fun _ => none) oldcode g
      | _ => []
  | _ => []

/-- Every code expanded is grounded in the entries made so far. -/
def WellFormed (i : Input σ) : Prop :=
  ∀ n, ∀ x ∈ inputExpansions cramped gblk n i, Grounded IsChar x.1 x.2

/-- `decompress` comes to an end without a fault, whatever `ALLOC` returns. -/
def Safe (i : Input σ) : Prop :=
  ∀ mem, ∃ fuel r, decompress cramped gblk fuel mem i = .ok r

end

section
variable {σ : Type} {cramped : Bool} {gblk : σ → ℕ → Option (List Byte × σ)}
  {rest : σ → List Byte} {can : σ → ℕ → Prop} {t : Tables} {links : Links} {g : Codes σ}

/-- The tables have the entries of the links, all below `2^maxbits`. -/
def Backs (t : Tables) (links : Links) (maxmaxcode : ℕ) : Prop :=
  ∀ c p, links c = some p → t.prefixof c = p ∧ c < maxmaxcode

theorem Backs.enter (h : Backs t links g.maxmaxcode) (oldcode : ℕ) (finchar : Byte) :
    Backs (t.enter g oldcode finchar) (g.link links oldcode) g.maxmaxcode := by
  unfold Tables.enter Codes.link
  split_ifs with hfree
  · intro c p hp
    by_cases hc : c = g.free_ent
    · subst hc
      rw [Function.update_self] at hp
      exact ⟨(Function.update_self ..).trans (Option.some.inj hp), hfree⟩
    · rw [Function.update_of_ne hc] at hp
      exact ⟨(Function.update_of_ne hc ..).trans (h c p hp).1, (h c p hp).2⟩
  · exact h

/-- A chain that ends is expanded if the stack has room for it. -/
theorem expand_path {maxmaxcode c n : ℕ} {l : List ℕ} (hl : Path IsChar links c l)
    (ht : Backs t links maxmaxcode) (hn : l.length < n) (stack : List Byte) :
    ∃ stack', expand t maxmaxcode n c stack = .ok stack' := by
  induction hl generalizing n stack with
  | @base c hc =>
      obtain ⟨n, rfl⟩ := Nat.exists_eq_succ_of_ne_zero (Nat.ne_of_gt (Nat.zero_lt_of_lt hn))
      rw [expand, if_neg (Nat.not_le_of_lt hc)]
      exact ⟨_, rfl⟩
  | @link c p l hc hp _ ih =>
      obtain ⟨n, rfl⟩ := Nat.exists_eq_succ_of_ne_zero (Nat.ne_of_gt (Nat.zero_lt_of_lt hn))
      obtain ⟨hpre, hlt⟩ := ht c p hp
      rw [List.length_cons] at hn
      rw [expand, if_pos (Nat.le_of_not_lt hc), if_neg (Nat.not_le_of_lt hlt), hpre]
      exact ih (Nat.lt_of_succ_lt_succ hn) _

/-- No chain is longer than there are entries, so the stack has room for it. -/
theorem Grounded.path_lt {maxmaxcode c : ℕ} (h : Grounded IsChar links c)
    (ht : Backs t links maxmaxcode) (hm : 256 < maxmaxcode) :
    ∃ l, Path IsChar links c l ∧ l.length < maxmaxcode - 1 := by
  obtain ⟨l, hl⟩ := h
  refine ⟨l, hl, ?_⟩
  have hle := hl.length_le (Finset.Ico 256 maxmaxcode) fun x hx hs => by
    obtain ⟨p, hp⟩ := Option.isSome_iff_exists.mp hs
    exact Finset.mem_Ico.mpr ⟨Nat.le_of_not_lt hx, (ht x p hp).2⟩
  rw [Nat.card_Ico] at hle
  omega

/-- The decoder is within the bounds that the number of bits sets. -/
structure Sized (g : Codes σ) : Prop where
  room : g.maxmaxcode = room g
  large : 256 < g.maxmaxcode

theorem Takes.sized {g' : Codes σ} {code : Option ℕ} (h : Takes rest can g code g')
    (hs : Sized g) : Sized g' := by
  refine ⟨?_, h.maxmaxcode ▸ hs.large⟩
  rw [h.maxmaxcode, hs.room, Boot.room, Boot.room, h.maxbits]

theorem enter_eq (g : Codes σ) : ∃ n, g.enter = { g with free_ent := n } := by
  unfold Codes.enter
  split_ifs
  · exact ⟨_, rfl⟩
  · exact ⟨g.free_ent, rfl⟩

/-- On grounded codes the loop comes to the end of the input. -/
theorem decompressLoop_ok (hf : Feeds gblk rest can) (hg : g.input.Ready can) (hb : 0 < g.n_bits)
    (hs : Sized g) (ht : Backs t links g.maxmaxcode) {oldcode : ℕ} {finchar : Byte}
    {out : List Byte}
    (hx : ∀ n, ∀ x ∈ expansions cramped gblk n links oldcode g, Grounded IsChar x.1 x.2) :
    ∃ fuel out' i, decompressLoop cramped gblk fuel finchar oldcode out t g = .ok (out ++ out', i) ∧
      i.Ready can ∧ i.pending rest = [] := by
  generalize hleft : g.left rest = m
  induction m using WellFoundedLT.induction generalizing g t links oldcode finchar out with
  | ind m ih =>
      obtain ⟨code, g₁, hrun, h₁⟩ := @Feeds.nextcode _ cramped _ _ _ hf g hg hb
      cases code with
      | none =>
          refine ⟨1, [], g₁.input, ?_, h₁.ready, h₁.eof rfl⟩
          rw [decompressLoop, hrun, List.append_nil]
      | some code =>
          have hx₁ : ∀ n, ∀ x ∈ (links, if code ≥ g₁.free_ent then oldcode else code) ::
              expansions cramped gblk n (g₁.link links oldcode) code g₁.enter,
              Grounded IsChar x.1 x.2 := fun n => by
            have := hx (n + 1)
            rwa [expansions, hrun] at this
          have hs₁ := h₁.sized hs
          have ht₁ : Backs t links g₁.maxmaxcode := h₁.maxmaxcode ▸ ht
          obtain ⟨l, hl, hlen⟩ := Grounded.path_lt (hx₁ 0 _ List.mem_cons_self) ht₁ hs₁.large
          -- what is pushed on the stack, in either case
          obtain ⟨stack, hpush⟩ : ∃ stack, (if code ≥ g₁.free_ent then
              expand t g₁.maxmaxcode (room g₁ - 1) oldcode [finchar]
              else expand t g₁.maxmaxcode (room g₁) code []) = .ok stack := by
            rw [← hs₁.room]
            by_cases hc : code ≥ g₁.free_ent
            · simp only [if_pos hc] at hl ⊢
              exact expand_path hl ht₁ hlen _
            · simp only [if_neg hc] at hl ⊢
              exact expand_path hl ht₁ (by omega) _
          obtain ⟨n, hn⟩ := enter_eq g₁
          have hx₂ := fun n x hmem => hx₁ n x (List.mem_cons_of_mem _ hmem)
          have ht₂ := ht₁.enter oldcode (stack.headD finchar)
          rw [hn] at hx₂
          have hlt : ({ g₁ with free_ent := n } : Codes σ).left rest < m := hleft ▸ h₁.less (by simp)
          obtain ⟨fuel, out', i, hloop, hi, hend⟩ := @ih _ hlt _ _ { g₁ with free_ent := n }
            h₁.ready h₁.bits ⟨hs₁.room, hs₁.large⟩ ht₂ _ (stack.headD finchar) (out ++ stack) hx₂ rfl
          refine ⟨fuel + 1, stack ++ out', i, ?_, hi, hend⟩
          rw [decompressLoop, hrun]
          simp only [hpush, hn]
          rw [← List.append_assoc]
          exact hloop

/-! ### Memory in which every other entry points to itself -/

/-- Where there is no link the entry is its own prefix. -/
def Loops (t : Tables) (links : Links) : Prop := ∀ c, 256 ≤ c → t.prefixof c = (links c).getD c

theorem Loops.enter (h : Loops t links) (g : Codes σ) (oldcode : ℕ) (finchar : Byte) :
    Loops (t.enter g oldcode finchar) (g.link links oldcode) := by
  unfold Tables.enter Codes.link
  split_ifs
  · intro c hc
    by_cases hfree : c = g.free_ent
    · subst hfree
      simp only [Function.update_self, Option.getD_some]
    · simp only [Function.update_of_ne hfree]
      exact h c hc
  · exact h

/-- In such memory only a grounded code can be expanded. -/
theorem Loops.grounded {maxmaxcode n c : ℕ} {stack stack' : List Byte} (h : Loops t links)
    (hrun : expand t maxmaxcode n c stack = .ok stack') : Grounded IsChar links c := by
  induction n generalizing c stack with
  | zero => cases hrun
  | succ n ih =>
      by_cases hc : c ≥ 256
      · rw [expand, if_pos hc] at hrun
        split_ifs at hrun
        have hg := ih hrun
        rw [h c hc] at hg
        cases hl : links c with
        | none => rwa [hl] at hg
        | some p =>
            rw [hl] at hg
            exact .link (Nat.not_lt_of_le hc) hl hg
      · exact .base (Nat.lt_of_not_le hc)

theorem Loops.expansions (h : Loops t links) {fuel : ℕ} {finchar : Byte} {oldcode : ℕ}
    {out : List Byte} {r : List Byte × Input σ}
    (hrun : decompressLoop cramped gblk fuel finchar oldcode out t g = .ok r) (n : ℕ) :
    ∀ x ∈ expansions cramped gblk n links oldcode g, Grounded IsChar x.1 x.2 := by
  induction fuel generalizing t links finchar oldcode out g n with
  | zero => cases hrun
  | succ fuel ih =>
      cases n with
      | zero => exact nofun
      | succ n =>
          rw [decompressLoop] at hrun
          rw [Boot.expansions]
          cases hnext : nextcode cramped gblk g with
          | error stop => exact nofun
          | ok next =>
              obtain ⟨_ | code, g₁⟩ := next
              · exact nofun
              · rw [hnext] at hrun
                simp only at hrun
                intro x hx
                split at hrun
                · cases hrun
                · next stack hpush =>
                    rcases List.mem_cons.mp hx with rfl | hx
                    · split_ifs at hpush with hc
                      · simp only [if_pos hc]
                        exact h.grounded hpush
                      · simp only [if_neg hc]
                        exact h.grounded hpush
                    · exact ih (h.enter g₁ oldcode _) hrun n x hx

/-! ### Whole inputs -/

/-- The header of an input, and the state of a decoder that goes on. -/
theorem Feeds.header (hf : Feeds gblk rest can) {i : Input σ} (hi : i.Ready can) :
    ∃ r i', header cramped gblk i = .ok (r, i') ∧
      ∀ g, r = some g → g.input.Ready can ∧ 0 < g.n_bits ∧ Sized g := by
  obtain ⟨i₀, h₀, hi₀, -⟩ := @Feeds.GETC _ cramped _ _ _ hf i hi
  obtain ⟨i₁, h₁, hi₁, -⟩ := @Feeds.GETC _ cramped _ _ _ hf i₀ hi₀
  obtain ⟨i₂, h₂, hi₂, -⟩ := @Feeds.GETC _ cramped _ _ _ hf i₁ hi₁
  unfold Boot.header
  simp only [h₀, h₁, h₂, bind, Except.bind]
  split_ifs
  · exact ⟨none, i₀, rfl, nofun⟩
  · exact ⟨none, i₁, rfl, nofun⟩
  · exact ⟨none, i₂, rfl, nofun⟩
  · refine ⟨some _, i₂, rfl, ?_⟩
    rintro _ ⟨rfl⟩
    refine ⟨hi₂, (by decide : 0 < INIT_BITS), rfl, ?_⟩
    rw [Codes.init, Nat.one_shiftLeft]
    calc 256 < 2 ^ MINMAXBITS := by decide
      _ ≤ _ := Nat.pow_le_pow_right (by decide) (le_max_left _ _)

/-- The first code of an input, if there is one. -/
def firstCode (cramped : Bool) (gblk : σ → ℕ → Option (List Byte × σ)) (i : Input σ) : Option ℕ :=
  match header cramped gblk i with
  | .ok (some g, _) =>
      match getcode cramped gblk g with
      | .ok (code, _) => code
      | _ => none
  | _ => none

/-- On a well-formed input the decompressor reads to the end, unless there is
no code. -/
theorem decompress_ok (hf : Feeds gblk rest can) {i : Input σ} (hi : i.Ready can)
    (hw : WellFormed cramped gblk i) (mem : Tables) : ∃ fuel out i',
    decompress cramped gblk fuel mem i = .ok (out, i') ∧
      (firstCode cramped gblk i = none → out = []) ∧
      (firstCode cramped gblk i ≠ none → i'.Ready can ∧ i'.pending rest = []) := by
  obtain ⟨r, i₁, hhead, hg⟩ := @Feeds.header _ cramped _ _ _ hf i hi
  unfold decompress firstCode
  simp only [hhead, bind, Except.bind]
  cases r with
  | none => exact ⟨0, [], i₁, rfl, fun _ => rfl, fun h => absurd rfl h⟩
  | some g =>
      obtain ⟨hready, hbits, hsized⟩ := hg g rfl
      obtain ⟨code, g₁, hcode, h₁, -⟩ := @Feeds.getcode _ cramped _ _ _ hf g hready hbits
      simp only [hcode]
      cases code with
      | none => exact ⟨0, [], g₁.input, rfl, fun _ => rfl, fun h => absurd rfl h⟩
      | some oldcode =>
          have hx : ∀ n, ∀ x ∈ expansions cramped gblk n (fun _ => none) oldcode g₁,
              Grounded IsChar x.1 x.2 := fun n => by
            have := hw n
            rw [inputExpansions, hhead] at this
            simp only [hcode] at this
            exact this
          have hback : Backs mem.init (fun _ => none) g₁.maxmaxcode := fun _ _ h => nomatch h
          obtain ⟨fuel, out, i₂, hrun, hi₂, hend⟩ := @decompressLoop_ok _ cramped _ _ _ _ _ g₁ hf
            h₁.ready h₁.bits (h₁.sized hsized) hback oldcode (BitVec.ofNat 8 oldcode)
            [BitVec.ofNat 8 oldcode] hx
          exact ⟨fuel, _, i₂, hrun, nofun, fun _ => ⟨hi₂, hend⟩⟩

/-- Safety in every memory is safety in one where the other entries loop, and
that is well-formedness. -/
theorem safe_iff (hf : Feeds gblk rest can) {i : Input σ} (hi : i.Ready can) :
    Safe cramped gblk i ↔ WellFormed cramped gblk i := by
  constructor
  · intro hsafe n
    obtain ⟨fuel, r, hrun⟩ := hsafe ⟨id, fun _ => 0⟩
    unfold inputExpansions
    unfold decompress at hrun
    cases hhead : header cramped gblk i with
    | error stop => exact nofun
    | ok head =>
        obtain ⟨_ | g, i₁⟩ := head
        · exact nofun
        · simp only
          simp only [hhead, bind, Except.bind] at hrun
          cases hcode : getcode cramped gblk g with
          | error stop => exact nofun
          | ok next =>
              obtain ⟨_ | oldcode, g₁⟩ := next
              · exact nofun
              · rw [hcode] at hrun
                have hloops : Loops (Tables.init ⟨id, fun _ => 0⟩) fun _ => none := fun c hc =>
                  if_neg (Nat.not_lt_of_le hc)
                exact hloops.expansions hrun n
  · intro hw mem
    obtain ⟨fuel, out, i', hrun, -, -⟩ := decompress_ok hf hi hw mem
    exact ⟨fuel, _, hrun⟩

end

/-! ### Two sources of the same bytes -/

section
variable {σ τ : Type} {cramped cramped' : Bool} {gblk : σ → ℕ → Option (List Byte × σ)}
  {gblk' : τ → ℕ → Option (List Byte × τ)} {rest : σ → List Byte} {rest' : τ → List Byte}
  {can : σ → ℕ → Prop} {can' : τ → ℕ → Prop}

/-- Two inputs, each ready, with the same bytes to come. -/
structure SameBytes (rest : σ → List Byte) (rest' : τ → List Byte) (can : σ → ℕ → Prop)
    (can' : τ → ℕ → Prop) (i : Input σ) (i' : Input τ) : Prop where
  ready : i.Ready can
  ready' : i'.Ready can'
  pending : i.pending rest = i'.pending rest'

/-- The decoder with another input. -/
def Codes.withInput (g : Codes σ) (i : Input τ) : Codes τ := { g with input := i }

/-- The same bytes, the same result. -/
structure SameCode (rest : σ → List Byte) (rest' : τ → List Byte) (can : σ → ℕ → Prop)
    (can' : τ → ℕ → Prop) (r : Except Stop (Option ℕ × Codes σ))
    (r' : Except Stop (Option ℕ × Codes τ)) : Prop where
  same : ∃ code g i', r = .ok (code, g) ∧ r' = .ok (code, g.withInput i') ∧
    SameBytes rest rest' can can' g.input i' ∧ 0 < g.n_bits

variable (hf : Feeds gblk rest can) (hf' : Feeds gblk' rest' can')
include hf hf'

theorem GETC_same {i : Input σ} {i' : Input τ} (h : SameBytes rest rest' can can' i i') :
    ∃ c i₁ i₁', GETC cramped gblk i = .ok (c, i₁) ∧ GETC cramped' gblk' i' = .ok (c, i₁') ∧
      SameBytes rest rest' can can' i₁ i₁' := by
  obtain ⟨i₁, hrun, hi₁, hp⟩ := @Feeds.GETC _ cramped _ _ _ hf i h.ready
  obtain ⟨i₁', hrun', hi₁', hp'⟩ := @Feeds.GETC _ cramped' _ _ _ hf' i' h.ready'
  rw [← h.pending] at hrun' hp'
  exact ⟨_, i₁, i₁', hrun, hrun', hi₁, hi₁', hp.trans hp'.symm⟩

theorem fillbuf_same {i : Input σ} {i' : Input τ} (h : SameBytes rest rest' can can' i i')
    (n size : ℕ) (buf : ℕ → Byte) : ∃ size₁ buf₁ i₁ i₁',
    fillbuf cramped gblk n size buf i = .ok (size₁, buf₁, i₁) ∧
      fillbuf cramped' gblk' n size buf i' = .ok (size₁, buf₁, i₁') ∧
      SameBytes rest rest' can can' i₁ i₁' := by
  induction n generalizing size buf i i' with
  | zero => exact ⟨size, buf, i, i', by rw [fillbuf], by rw [fillbuf], h⟩
  | succ n ih =>
      obtain ⟨c, i₁, i₁', hget, hget', h₁⟩ := @GETC_same _ _ cramped cramped' _ _ _ _ _ _ hf hf' _ _ h
      rw [fillbuf, fillbuf, hget, hget']
      cases c with
      | none => exact ⟨size, buf, i₁, i₁', rfl, rfl, h₁⟩
      | some b => exact ih h₁ _ _

theorem getcode_same {g : Codes σ} {i' : Input τ}
    (h : SameBytes rest rest' can can' g.input i') (hb : 0 < g.n_bits) :
    SameCode rest rest' can can' (getcode cramped gblk g)
      (getcode cramped' gblk' (g.withInput i')) := by
  obtain ⟨n, m, c, hw, hn⟩ := widen_eq g
  have hw' : widen (g.withInput i') =
      ({ g with n_bits := n, maxcode := m, clear_flg := c } : Codes σ).withInput i' := by
    rw [← hw]
    unfold widen Codes.withInput
    simp only
    split_ifs <;> rfl
  obtain ⟨size, buf, i₁, i₁', hrun, hrun', h₁⟩ :=
    @fillbuf_same _ _ cramped cramped' _ _ _ _ _ _ hf hf' _ _ h n 0 g.buf
  unfold getcode
  by_cases hfill : g.clear_flg ∨ g.offset ≥ g.size ∨ g.free_ent > g.maxcode
  · have hfill' : (g.withInput i').clear_flg ∨ (g.withInput i').offset ≥ (g.withInput i').size ∨
        (g.withInput i').free_ent > (g.withInput i').maxcode := hfill
    rw [if_pos hfill, if_pos hfill', hw, hw']
    simp only [Codes.withInput, hrun, hrun']
    by_cases hsize : size = 0
    · rw [if_pos hsize, if_pos hsize]
      exact ⟨none, _, i₁', rfl, rfl, h₁, hn hb⟩
    · rw [if_neg hsize, if_neg hsize]
      exact ⟨some _, _, i₁', rfl, rfl, h₁, hn hb⟩
  · have hfill' : ¬ ((g.withInput i').clear_flg ∨ (g.withInput i').offset ≥ (g.withInput i').size ∨
        (g.withInput i').free_ent > (g.withInput i').maxcode) := hfill
    rw [if_neg hfill, if_neg hfill']
    exact ⟨some _, _, i', rfl, rfl, h, hb⟩

theorem nextcode_same {g : Codes σ} {i' : Input τ}
    (h : SameBytes rest rest' can can' g.input i') (hb : 0 < g.n_bits) :
    SameCode rest rest' can can' (nextcode cramped gblk g)
      (nextcode cramped' gblk' (g.withInput i')) := by
  obtain ⟨code, g₁, i₁, hrun, hrun', h₁, hb₁⟩ :=
    (@getcode_same _ _ cramped cramped' _ _ _ _ _ _ hf hf' g i' h hb).same
  unfold nextcode
  rw [hrun, hrun']
  cases code with
  | none => exact ⟨none, g₁, i₁, rfl, rfl, h₁, hb₁⟩
  | some code =>
      by_cases hclear : code = CLEAR ∧ g₁.block_compress
      · simp only [if_pos hclear, if_pos (show code = CLEAR ∧ (g₁.withInput i₁).block_compress
          from hclear)]
        exact @getcode_same _ _ cramped cramped' _ _ _ _ _ _ hf hf'
          { g₁ with clear_flg := true, free_ent := FIRST - 1 } i₁ h₁ hb₁
      · simp only [if_neg hclear, if_neg (show ¬ (code = CLEAR ∧ (g₁.withInput i₁).block_compress)
          from hclear)]
        exact ⟨some code, g₁, i₁, rfl, rfl, h₁, hb₁⟩

theorem expansions_same {g : Codes σ} {i' : Input τ}
    (h : SameBytes rest rest' can can' g.input i') (hb : 0 < g.n_bits) (n : ℕ) (links : Links)
    (oldcode : ℕ) : expansions cramped gblk n links oldcode g =
      expansions cramped' gblk' n links oldcode (g.withInput i') := by
  induction n generalizing g i' links oldcode with
  | zero => rfl
  | succ n ih =>
      obtain ⟨code, g₁, i₁, hrun, hrun', h₁, hb₁⟩ :=
        (@nextcode_same _ _ cramped cramped' _ _ _ _ _ _ hf hf' g i' h hb).same
      rw [expansions, expansions, hrun, hrun']
      cases code with
      | none => rfl
      | some code =>
          obtain ⟨m, hm⟩ := enter_eq g₁
          have henter : (g₁.withInput i₁).enter = g₁.enter.withInput i₁ := by
            unfold Codes.enter Codes.withInput
            simp only
            split_ifs <;> rfl
          have hnext := @ih g₁.enter i₁ (by rw [hm]; exact h₁) (by rw [hm]; exact hb₁)
            (g₁.link links oldcode) code
          simp only [henter]
          rw [hnext]
          rfl

theorem header_same {i : Input σ} {i' : Input τ} (h : SameBytes rest rest' can can' i i') :
    (∃ i₁ i₁', header cramped gblk i = .ok (none, i₁) ∧
      header cramped' gblk' i' = .ok (none, i₁')) ∨
    ∃ g i₁ i₁' i₂, header cramped gblk i = .ok (some g, i₁) ∧
      header cramped' gblk' i' = .ok (some (g.withInput i₂), i₁') ∧
      SameBytes rest rest' can can' g.input i₂ ∧ 0 < g.n_bits := by
  obtain ⟨c₀, i₀, i₀', h₀, h₀', hs₀⟩ := @GETC_same _ _ cramped cramped' _ _ _ _ _ _ hf hf' _ _ h
  obtain ⟨c₁, i₁, i₁', h₁, h₁', hs₁⟩ := @GETC_same _ _ cramped cramped' _ _ _ _ _ _ hf hf' _ _ hs₀
  obtain ⟨c₂, i₂, i₂', h₂, h₂', hs₂⟩ := @GETC_same _ _ cramped cramped' _ _ _ _ _ _ hf hf' _ _ hs₁
  unfold header
  simp only [h₀, h₁, h₂, h₀', h₁', h₂', bind, Except.bind]
  split_ifs
  · exact .inl ⟨i₀, i₀', rfl, rfl⟩
  · exact .inl ⟨i₁, i₁', rfl, rfl⟩
  · exact .inl ⟨i₂, i₂', rfl, rfl⟩
  · exact .inr ⟨_, i₂, i₂', i₂', rfl, rfl, hs₂, (by decide : 0 < INIT_BITS)⟩

/-- Well-formedness and the first code depend on nothing but the bytes. -/
theorem input_same {i : Input σ} {i' : Input τ} (h : SameBytes rest rest' can can' i i') :
    firstCode cramped gblk i = firstCode cramped' gblk' i' ∧
      ∀ n, inputExpansions cramped gblk n i = inputExpansions cramped' gblk' n i' := by
  unfold firstCode inputExpansions
  rcases @header_same _ _ cramped cramped' _ _ _ _ _ _ hf hf' _ _ h with
    ⟨i₁, i₁', hrun, hrun'⟩ | ⟨g, i₁, i₁', i₂, hrun, hrun', h₂, hb⟩
  · simp only [hrun, hrun', implies_true, and_self]
  · obtain ⟨code, g₁, i₃, hcode, hcode', h₃, hb₃⟩ :=
      (@getcode_same _ _ cramped cramped' _ _ _ _ _ _ hf hf' g i₂ h₂ hb).same
    simp only [hrun, hrun', hcode, hcode', true_and]
    cases code with
    | none => exact fun _ => rfl
    | some oldcode =>
        exact fun n => @expansions_same _ _ cramped cramped' _ _ _ _ _ _ hf hf' g₁ i₃ h₃ hb₃ n _ _

end

/-! ### Reading a file -/

/-- `read` on a file of which the bytes `file` are left. -/
def readblock (file : List Byte) (nbytes : ℕ) : Option (List Byte × List Byte) :=
  some (file.take nbytes, file.drop nbytes)

theorem readblock_feeds : Feeds readblock id fun _ _ => True where
  read file _ n _ _ := ⟨file.drop n, rfl, rfl, trivial, fun _ => trivial⟩

/-- For every input and every limit, `decompress` comes to an end, with all its
indices and its stack within `2^maxbits`, exactly when each code that is
expanded is a character or an entry that the codes before it have made from a
code of which that is true again. -/
theorem decompress_iff (cramped : Bool) (file : List Byte) (inputsize : ℕ) :
    Safe cramped readblock ⟨[], inputsize, file⟩ ↔
      WellFormed cramped readblock ⟨[], inputsize, file⟩ :=
  safe_iff readblock_feeds trivial

/-- Two codes 257: the second is taken for the next entry, and the first, which
is not a character, is expanded from what the memory holds. -/
theorem decompress_fails :
    ¬ Safe false readblock ⟨[], 4294967295, [0x1F, 0x9D, 0x8C, 0x01, 0x03, 0x02]⟩ := by
  rw [safe_iff readblock_feeds trivial]
  intro hw
  have heval : (inputExpansions false readblock 1
      ⟨[], 4294967295, [0x1F, 0x9D, 0x8C, 0x01, 0x03, 0x02]⟩).map
        (fun x => (x.2, x.1 257)) = [(257, none)] := by decide +kernel
  obtain ⟨x, hx, hval⟩ := List.mem_map.mp (heval ▸ List.mem_singleton.mpr rfl)
  obtain ⟨hc, hl⟩ := Prod.mk.inj hval
  obtain ⟨l, hpath⟩ := hw 1 x hx
  rw [hc] at hpath
  cases hpath with
  | base hlt => exact absurd hlt (by decide)
  | link _ hp => rw [hl] at hp; cases hp

end HydraAmix.Boot
