import HydraAmix.Boot.Decompress
import Mathlib.Data.Prod.Lex

/-!
# What the decompressor reads

`gblk` feeds a byte sequence if it returns the next bytes of it. Then `GETC`
returns one byte after another up to the limit, `getcode` uses up input with
every code, and there is no code only when all input is used up.
-/
namespace HydraAmix.Boot
open Word

variable {σ : Type}

/-- `gblk` reads on in the bytes `rest`, as far as `can` allows. -/
structure Feeds (gblk : σ → ℕ → Option (List Byte × σ)) (rest : σ → List Byte)
    (can : σ → ℕ → Prop) : Prop where
  read : ∀ s limit n, can s limit → n ≤ limit → ∃ s', gblk s n = some ((rest s).take n, s') ∧
    rest s' = (rest s).drop n ∧ can s' (limit - n) ∧ (rest s = [] → can s' limit)

/-- The bytes that `GETC` has still to return. -/
def Input.pending (rest : σ → List Byte) (i : Input σ) : List Byte :=
  i.inbuf ++ (rest i.src).take i.inputsize

/-- What may still be read can be read. -/
def Input.Ready (can : σ → ℕ → Prop) (i : Input σ) : Prop := can i.src i.inputsize

section
variable {cramped : Bool} {gblk : σ → ℕ → Option (List Byte × σ)} {rest : σ → List Byte}
  {can : σ → ℕ → Prop}

theorem IOSIZE_pos (cramped : Bool) : 0 < IOSIZE cramped := by
  cases cramped <;> decide

/-- `GETC` returns the next byte. -/
theorem Feeds.GETC (hf : Feeds gblk rest can) {i : Input σ} (hi : i.Ready can) :
    ∃ i', GETC cramped gblk i = .ok ((i.pending rest).head?, i') ∧ i'.Ready can ∧
      i'.pending rest = (i.pending rest).tail := by
  obtain ⟨inbuf, limit, src⟩ := i
  cases inbuf with
  | cons b inbuf => exact ⟨⟨inbuf, limit, src⟩, rfl, hi, rfl⟩
  | nil =>
      simp only [Boot.GETC, fillinbuf, Input.pending, List.nil_append]
      have hpos := IOSIZE_pos cramped
      generalize hn : min limit (IOSIZE cramped) = n
      by_cases hzero : n = 0
      · obtain rfl : limit = 0 := by omega
        rw [if_pos hzero]
        exact ⟨_, rfl, hi, rfl⟩
      · obtain ⟨s', hread, hrest, hcan, heof⟩ := hf.read src limit n hi (by omega)
        rw [if_neg hzero, hread]
        have hsplit : (rest src).take limit = (rest src).take n ++ (rest s').take (limit - n) := by
          rw [hrest, ← List.take_add, Nat.add_sub_cancel' (by omega)]
        cases htake : (rest src).take n with
        | nil =>
            -- the end of the file, before the limit
            have hnil : rest src = [] := by
              rcases List.take_eq_nil_iff.mp htake with h | h
              · exact absurd h hzero
              · exact h
            rw [hnil, List.take_nil]
            refine ⟨⟨[], limit, s'⟩, rfl, heof hnil, ?_⟩
            rw [hrest, hnil, List.drop_nil, List.take_nil]
            rfl
        | cons b inbuf =>
            rw [hsplit, htake]
            exact ⟨⟨inbuf, limit - n, s'⟩, rfl, hcan, rfl⟩

/-- The loop of `getcode` takes `n` bytes, or what there is. -/
theorem Feeds.fillbuf (hf : Feeds gblk rest can) {i : Input σ} (hi : i.Ready can) (n size : ℕ)
    (buf : ℕ → Byte) : ∃ buf' i',
    fillbuf cramped gblk n size buf i = .ok (size + min n (i.pending rest).length, buf', i') ∧
      i'.Ready can ∧ i'.pending rest = (i.pending rest).drop n := by
  induction n generalizing size buf i with
  | zero => exact ⟨buf, i, by rw [Boot.fillbuf, Nat.zero_min, Nat.add_zero], hi, rfl⟩
  | succ n ih =>
      obtain ⟨i₁, hget, hi₁, hpend⟩ := @Feeds.GETC _ cramped _ _ _ hf i hi
      rw [Boot.fillbuf, hget]
      cases hp : i.pending rest with
      | nil =>
          rw [hp] at hpend
          exact ⟨buf, i₁, by rw [List.length_nil, Nat.min_zero, Nat.add_zero]; rfl, hi₁, hpend⟩
      | cons b bs =>
          rw [hp, List.tail_cons] at hpend
          obtain ⟨buf', i', hrun, hi', hpend'⟩ := ih hi₁ (size + 1) (Function.update buf size b)
          refine ⟨buf', i', ?_, hi', ?_⟩
          · have hlen : size + min (n + 1) (b :: bs).length = size + 1 + min n bs.length := by
              rw [List.length_cons]
              omega
            rw [hlen, ← hpend]
            exact hrun
          · rw [hpend', hpend, List.drop_succ_cons]

/-- How much is left: bytes of the input, then bits of the buffer. -/
def Codes.left (rest : σ → List Byte) (g : Codes σ) : ℕ ×ₗ ℕ :=
  toLex ((g.input.pending rest).length, (g.size - g.offset).toNat)

/-- What a call for a code does: there is none only at the end of the input;
otherwise less is left than before. -/
structure Takes (rest : σ → List Byte) (can : σ → ℕ → Prop) (g : Codes σ) (code : Option ℕ)
    (g' : Codes σ) : Prop where
  ready : g'.input.Ready can
  bits : 0 < g'.n_bits
  eof : code = none → g'.input.pending rest = []
  less : code ≠ none → g'.left rest < g.left rest
  maxbits : g'.maxbits = g.maxbits
  maxmaxcode : g'.maxmaxcode = g.maxmaxcode

theorem widen_eq (g : Codes σ) : ∃ n m c,
    widen g = { g with n_bits := n, maxcode := m, clear_flg := c } ∧ (0 < g.n_bits → 0 < n) := by
  by_cases hw : g.free_ent > g.maxcode <;> by_cases hc : g.clear_flg = true
  · exact ⟨9, MAXCODE 9, false, by simp only [widen, if_pos hw, if_pos hc], fun _ => by decide⟩
  · exact ⟨g.n_bits + 1, _, g.clear_flg, by simp only [widen, if_pos hw, if_neg hc]; rfl,
      fun _ => Nat.succ_pos _⟩
  · exact ⟨9, MAXCODE 9, false, by simp only [widen, if_neg hw, if_pos hc], fun _ => by decide⟩
  · exact ⟨g.n_bits, g.maxcode, g.clear_flg, by simp only [widen, if_neg hw, if_neg hc], id⟩

theorem Feeds.getcode (hf : Feeds gblk rest can) {g : Codes σ} (hg : g.input.Ready can)
    (hb : 0 < g.n_bits) :
    ∃ code g', getcode cramped gblk g = .ok (code, g') ∧ Takes rest can g code g' ∧
      g'.free_ent = g.free_ent := by
  unfold Boot.getcode
  split_ifs with hfill
  · obtain ⟨n, m, c, hw, hn⟩ := widen_eq g
    obtain ⟨buf', i', hrun, hi', hpend⟩ := @Feeds.fillbuf _ cramped _ _ _ hf _ hg n 0 g.buf
    simp only [hw, hrun, Nat.zero_add]
    have hpos := hn hb
    split_ifs with hsize
    · refine ⟨none, _, rfl, ⟨hi', hpos, fun _ => ?_, fun h => absurd rfl h, rfl, rfl⟩, rfl⟩
      have hlen : (g.input.pending rest).length = 0 := by omega
      rw [hpend, List.length_eq_zero_iff.mp hlen, List.drop_nil]
    · refine ⟨_, _, rfl, ⟨hi', hpos, nofun, fun _ => ?_, rfl, rfl⟩, rfl⟩
      refine Prod.Lex.left _ _ ?_
      rw [hpend, List.length_drop]
      omega
  · refine ⟨_, _, rfl, ⟨hg, hb, nofun, fun _ => ?_, rfl, rfl⟩, rfl⟩
    refine Prod.Lex.right _ ?_
    simp only [not_or, ge_iff_le, not_le] at hfill
    simp only
    omega

theorem Takes.trans {g g₁ g₂ : Codes σ} {c₁ c₂ : Option ℕ} (h₁ : Takes rest can g c₁ g₁)
    (hc : c₁ ≠ none) (h₂ : Takes rest can g₁ c₂ g₂) : Takes rest can g c₂ g₂ where
  ready := h₂.ready
  bits := h₂.bits
  eof := h₂.eof
  less h := (h₂.less h).trans (h₁.less hc)
  maxbits := h₂.maxbits.trans h₁.maxbits
  maxmaxcode := h₂.maxmaxcode.trans h₁.maxmaxcode

theorem Feeds.nextcode (hf : Feeds gblk rest can) {g : Codes σ} (hg : g.input.Ready can)
    (hb : 0 < g.n_bits) :
    ∃ code g', nextcode cramped gblk g = .ok (code, g') ∧ Takes rest can g code g' := by
  obtain ⟨code, g₁, hrun, h₁, -⟩ := @Feeds.getcode _ cramped _ _ _ hf g hg hb
  unfold Boot.nextcode
  rw [hrun]
  cases code with
  | none => exact ⟨none, g₁, rfl, h₁⟩
  | some code =>
      simp only
      split_ifs with hclear
      · obtain ⟨c₂, g₂, hrun₂, h₂, -⟩ := @Feeds.getcode _ cramped _ _ _ hf
          { g₁ with clear_flg := true, free_ent := FIRST - 1 } h₁.ready h₁.bits
        refine ⟨c₂, g₂, hrun₂, h₁.trans (by simp) ⟨h₂.ready, h₂.bits, h₂.eof, h₂.less, h₂.maxbits,
          h₂.maxmaxcode⟩⟩
      · exact ⟨_, g₁, rfl, h₁⟩

end
end HydraAmix.Boot
