import HydraAmix.Library.Word
import Mathlib.Data.BitVec
import Mathlib.Data.List.Infix

/-!
# The firmware of the serial card, crunched and expanded

`crunch` writes records: a negative count for zeros, a positive one for the
bytes that follow. Both counts are shorts. The zeros that it has seen are
counted in an `int`, a block of less than four goes among the other bytes, and
these are written when there are 1024 of them or a block of zeros follows.
`startcard` reads the records. A record that it would read from behind the
firmware has no meaning here.
-/
namespace HydraAmix.Serial.Ql65
open Word

abbrev BREAKEVEN : ℕ := 4

/-- `sizeof obuffer`. -/
abbrev obufferSize : ℕ := 1024

/-- The bytes of a short in memory order. -/
def putshort (s : BitVec 16) : List Byte := [(s >>> 8).setWidth 8, s.setWidth 8]

/-- The variables of `crunch`, and what it has written. -/
structure Crunch where
  nulls : Long
  obuffer : List Byte
  out : List Byte
  deriving DecidableEq, Repr

namespace Crunch

def flushc (st : Crunch) : Crunch :=
  if st.obuffer = [] then st
  else
    { st with
      out := st.out ++ (putshort (BitVec.ofNat 16 st.obuffer.length) ++ st.obuffer)
      obuffer := [] }

def stash (st : Crunch) (c : Byte) : Crunch := { st with obuffer := st.obuffer ++ [c] }

def stashc (st : Crunch) (c : Byte) : Crunch :=
  if (st.stash c).obuffer.length = obufferSize then (st.stash c).flushc else st.stash c

/-- `putshort` to the output. -/
def put (st : Crunch) (s : BitVec 16) : Crunch := { st with out := st.out ++ putshort s }

/-- `while (nulls)`. -/
def stashNulls : ℕ → Crunch → Crunch
  | 0, st => st
  | n + 1, st => stashNulls n (st.stashc 0)

def appendnulls (st : Crunch) (nulls : Long) : Crunch :=
  if BREAKEVEN ≤ nulls.toNat then st.flushc.put ((-nulls).setWidth 16)
  else stashNulls nulls.toNat st

def setNulls (st : Crunch) (nulls : Long) : Crunch := { st with nulls := nulls }

/-- One character of the input. -/
def step (st : Crunch) (c : Byte) : Crunch :=
  if c = 0 then st.setNulls (st.nulls + 1)
  else ((st.appendnulls st.nulls).setNulls 0).stashc c

/-- `case EOF`. -/
def finish (st : Crunch) : Crunch := (st.appendnulls st.nulls).flushc

def init : Crunch := ⟨0, [], []⟩

end Crunch

def crunch (input : List Byte) : List Byte := (input.foldl Crunch.step Crunch.init).finish.out

/-- The loop of `startcard`. -/
def startcard : List Byte → Option (List Byte)
  | [] => some []
  | [_] => none
  | b₁ :: b₀ :: ip =>
      let s := short b₁ b₀
      if s.msb = true then (startcard ip).map (List.replicate (-s).toNat 0 ++ ·)
      else if ip.length < s.toNat then none
      else (startcard (ip.drop s.toNat)).map (ip.take s.toNat ++ ·)
termination_by ip => ip.length
decreasing_by
  · exact Nat.lt_succ_of_lt (Nat.lt_succ_self _)
  · rw [List.length_drop]
    exact Nat.lt_succ_of_lt (Nat.lt_succ_of_le (Nat.sub_le _ _))

/-- No block of zeros is too long for a short. -/
def ShortRuns (input : List Byte) : Prop := ∀ n, List.replicate n 0 <:+: input → n ≤ 32768

section
variable {st : Crunch} {p q rest : List Byte} {c : Byte}

theorem short_putshort (s : BitVec 16) : short ((s >>> 8).setWidth 8) (s.setWidth 8) = s := by
  apply BitVec.eq_of_getLsbD_eq
  intro i hi
  simp only [short, BitVec.getLsbD_append, BitVec.getLsbD_setWidth, BitVec.getLsbD_ushiftRight]
  grind

theorem startcard_run {s : BitVec 16} (h : s.msb = true) (rest : List Byte) :
    startcard (putshort s ++ rest) = (startcard rest).map (List.replicate (-s).toNat 0 ++ ·) := by
  change startcard (_ :: _ :: rest) = _
  rw [startcard, short_putshort]
  exact if_pos h

theorem startcard_bytes {s : BitVec 16} (h : s.msb = false) (hlen : s.toNat ≤ rest.length) :
    startcard (putshort s ++ rest) =
      (startcard (rest.drop s.toNat)).map (rest.take s.toNat ++ ·) := by
  change startcard (_ :: _ :: rest) = _
  rw [startcard, short_putshort, if_neg (by rw [h]; decide), if_neg (Nat.not_lt_of_le hlen)]

theorem startcard_short {s : BitVec 16} (h : s.msb = false) (hlen : rest.length < s.toNat) :
    startcard (putshort s ++ rest) = none := by
  change startcard (_ :: _ :: rest) = _
  rw [startcard, short_putshort, if_neg (by rw [h]; decide), if_pos hlen]

/-- Whatever follows `out`, it stands for `e` and what follows. -/
def Complete (out e : List Byte) : Prop :=
  ∀ rest, startcard (out ++ rest) = (startcard rest).map (e ++ ·)

theorem Complete.append {out e out' e' : List Byte} (h : Complete out e) (h' : Complete out' e') :
    Complete (out ++ out') (e ++ e') := by
  intro rest
  rw [List.append_assoc, h, h', Option.map_map]
  congr 1
  funext r
  exact (List.append_assoc e e' r).symm

theorem complete_run {s : BitVec 16} (h : s.msb = true) :
    Complete (putshort s) (List.replicate (-s).toNat 0) := startcard_run h

theorem complete_bytes (bs : List Byte) (h : bs.length ≤ 1024) :
    Complete (putshort (BitVec.ofNat 16 bs.length) ++ bs) bs := by
  intro rest
  have hnat : (BitVec.ofNat 16 bs.length).toNat = bs.length := by
    rw [BitVec.toNat_ofNat]
    exact Nat.mod_eq_of_lt (show bs.length < 65536 by omega)
  have hmsb : (BitVec.ofNat 16 bs.length).msb = false := by
    rw [BitVec.msb_eq_false_iff_two_mul_lt, hnat]
    change 2 * bs.length < 65536
    omega
  rw [List.append_assoc, startcard_bytes hmsb (by rw [hnat, List.length_append]; omega), hnat,
    List.drop_left, List.take_left]

/-- A short of 0 is a record of nothing. -/
theorem complete_zero : Complete (putshort 0) [] := complete_bytes [] (Nat.zero_le _)

namespace Crunch

/-- Together with the bytes that wait, the output stands for `p`. -/
structure Stashed (p : List Byte) (st : Crunch) : Prop where
  room : st.obuffer.length < 1024
  bytes : ∃ e, Complete st.out e ∧ p = e ++ st.obuffer

theorem flushc_obuffer (st : Crunch) : st.flushc.obuffer = [] := by
  unfold flushc
  split
  case isTrue h => exact h
  case isFalse => rfl

theorem flushc_complete {e : List Byte} (h : st.obuffer.length ≤ 1024)
    (he : Complete st.out e) : Complete st.flushc.out (e ++ st.obuffer) := by
  unfold flushc
  split
  case isTrue h0 =>
    rw [h0, List.append_nil]
    exact he
  case isFalse => exact he.append (complete_bytes _ h)

theorem Stashed.flushed (h : Stashed p st) : Complete st.flushc.out p := by
  obtain ⟨e, he, rfl⟩ := h.bytes
  exact flushc_complete (Nat.le_of_lt h.room) he

theorem stashed_of_complete (h : st.obuffer = []) (hc : Complete st.out p) : Stashed p st where
  room := by
    rw [h]
    decide
  bytes := ⟨p, hc, by rw [h, List.append_nil]⟩

theorem Stashed.flushc (h : Stashed p st) : Stashed p st.flushc :=
  stashed_of_complete st.flushc_obuffer h.flushed

theorem Stashed.stashc (h : Stashed p st) (c : Byte) : Stashed (p ++ [c]) (st.stashc c) := by
  obtain ⟨e, he, rfl⟩ := h.bytes
  have hlen : (st.stash c).obuffer.length = st.obuffer.length + 1 := List.length_append
  have hroom := h.room
  rw [List.append_assoc]
  unfold Crunch.stashc
  split
  case isTrue =>
    apply stashed_of_complete (st.stash c).flushc_obuffer
    exact flushc_complete (by omega) he
  case isFalse hne =>
    have hne' : (st.stash c).obuffer.length ≠ 1024 := hne
    exact ⟨by omega, e, he, rfl⟩

theorem Stashed.stashNulls (h : Stashed p st) (n : ℕ) :
    Stashed (p ++ List.replicate n 0) (Crunch.stashNulls n st) := by
  induction n generalizing p st with
  | zero =>
      rw [List.replicate_zero, List.append_nil]
      exact h
  | succ n ih =>
      rw [List.replicate_succ, List.append_cons]
      exact ih (h.stashc 0)

/-- The count that is left of the zeros is written right if it fits. -/
theorem Stashed.appendnulls (h : Stashed p st) (nulls : Long)
    (hn : nulls.toNat % 65536 ≤ 32768) :
    Stashed (p ++ List.replicate (nulls.toNat % 65536) 0) (st.appendnulls nulls) := by
  have hneg : ((-nulls).setWidth 16).toNat = (65536 - nulls.toNat % 65536) % 65536 := by
    have hlt := nulls.isLt
    rw [BitVec.toNat_setWidth, BitVec.toNat_neg]
    omega
  unfold Crunch.appendnulls
  split
  case isTrue =>
    apply stashed_of_complete
    · exact st.flushc_obuffer
    · apply h.flushed.append
      by_cases h0 : nulls.toNat % 65536 = 0
      · have hs : (-nulls).setWidth 16 = 0 := BitVec.eq_of_toNat_eq (by rw [hneg, h0]; rfl)
        rw [h0, hs]
        exact complete_zero
      · have hmsb : ((-nulls).setWidth 16).msb = true := by
          rw [BitVec.msb_eq_true_iff_two_mul_ge, hneg]
          change 65536 ≤ _
          omega
        have hback : (-((-nulls).setWidth 16)).toNat = nulls.toNat % 65536 := by
          rw [BitVec.toNat_neg, hneg]
          change (65536 - (65536 - nulls.toNat % 65536) % 65536) % 65536 = _
          omega
        have hrun := complete_run hmsb
        rw [hback] at hrun
        exact hrun
  case isFalse hlt =>
    have hlt' : ¬ 4 ≤ nulls.toNat := hlt
    rw [Nat.mod_eq_of_lt (by omega)]
    exact h.stashNulls nulls.toNat

/-- The input up to a block of zeros is stashed, and the zeros are counted. -/
def Seen (q : List Byte) (st : Crunch) : Prop :=
  ∃ p k, q = p ++ List.replicate k 0 ∧ st.nulls = BitVec.ofNat 32 k ∧ Stashed p st

theorem seen_init : Seen [] init :=
  ⟨[], 0, rfl, rfl, stashed_of_complete rfl fun _ => by simp [init]⟩

/-- The zeros at the end of a prefix are a block of the input. -/
theorem count_of_shortRuns {k : ℕ} (hs : ShortRuns (p ++ List.replicate k 0 ++ rest))
    (hn : st.nulls = BitVec.ofNat 32 k) :
    k ≤ 32768 ∧ st.nulls.toNat = k := by
  have hk : k ≤ 32768 := hs k ⟨p, rest, rfl⟩
  refine ⟨hk, ?_⟩
  rw [hn, BitVec.toNat_ofNat]
  exact Nat.mod_eq_of_lt (show k < 4294967296 by omega)

theorem Seen.appended (h : Seen q st) (rest : List Byte) (hs : ShortRuns (q ++ rest)) :
    Stashed q (st.appendnulls st.nulls) := by
  obtain ⟨p, k, rfl, hn, hst⟩ := h
  obtain ⟨hk, hnat⟩ := count_of_shortRuns hs hn
  have hmod : st.nulls.toNat % 65536 = k := by omega
  have happ := hst.appendnulls st.nulls (by omega)
  rw [hmod] at happ
  exact happ

theorem Seen.step (h : Seen q st) (c : Byte) (rest : List Byte)
    (hs : ShortRuns (q ++ c :: rest)) :
    Seen (q ++ [c]) (st.step c) := by
  unfold Crunch.step
  split
  case isTrue h0 =>
    obtain ⟨p, k, rfl, hn, hst⟩ := h
    refine ⟨p, k + 1, ?_, ?_, hst.room, hst.bytes⟩
    · rw [h0, List.replicate_succ', List.append_assoc]
    · change st.nulls + 1 = _
      rw [hn, BitVec.ofNat_add]
      rfl
  case isFalse =>
    have hst := h.appended _ hs
    have hset : Stashed q ((st.appendnulls st.nulls).setNulls 0) := ⟨hst.room, hst.bytes⟩
    refine ⟨q ++ [c], 0, (List.append_nil _).symm, ?_, hset.stashc c⟩
    unfold Crunch.stashc Crunch.flushc
    split
    · split <;> rfl
    · rfl

theorem Seen.foldl (h : Seen q st) (w : List Byte) (hs : ShortRuns (q ++ w)) :
    Seen (q ++ w) (w.foldl Crunch.step st) := by
  induction w generalizing q st with
  | nil =>
      rw [List.append_nil]
      exact h
  | cons c w ih =>
      rw [List.append_cons] at hs ⊢
      apply ih (h.step c w (by rwa [List.append_assoc] at hs)) hs

/-! ### A block that is too long -/

/-- What every part of `crunch` keeps. -/
structure Keeps (I : Crunch → Prop) : Prop where
  flushc : ∀ st, I st → I st.flushc
  stashc : ∀ st c, I st → I (st.stashc c)
  put : ∀ st s, I st → st.obuffer = [] → I (st.put s)
  setNulls : ∀ st n, I st → I (st.setNulls n)

section
variable {I : Crunch → Prop}

theorem Keeps.appendnulls (hI : Keeps I) (h : I st) (nulls : Long) : I (st.appendnulls nulls) := by
  unfold Crunch.appendnulls
  split
  case isTrue => exact hI.put _ _ (hI.flushc st h) st.flushc_obuffer
  case isFalse =>
    generalize nulls.toNat = n
    induction n generalizing st with
    | zero => exact h
    | succ n ih => exact ih (hI.stashc st 0 h)

theorem Keeps.finish (hI : Keeps I) (h : I st) (w : List Byte) :
    I (w.foldl Crunch.step st).finish := by
  induction w generalizing st with
  | nil => exact hI.flushc _ (hI.appendnulls h st.nulls)
  | cons c w ih =>
      apply ih
      unfold Crunch.step
      split
      case isTrue => exact hI.setNulls st _ h
      case isFalse => exact hI.stashc _ c (hI.setNulls _ 0 (hI.appendnulls h st.nulls))

end

/-- Whatever follows, what the output stands for begins with `q`. -/
def Starts (q out : List Byte) : Prop := ∀ rest r, startcard (out ++ rest) = some r → q <+: r

theorem starts_of_complete {out e : List Byte} (h : Complete out e) (hq : q <+: e) :
    Starts q out := by
  intro rest r hr
  rw [h] at hr
  obtain ⟨r', -, rfl⟩ := Option.map_eq_some_iff.mp hr
  exact hq.trans (List.prefix_append e r')

theorem Starts.append {out : List Byte} (h : Starts q out) (more : List Byte) :
    Starts q (out ++ more) := by
  intro rest r hr
  rw [List.append_assoc] at hr
  exact h _ r hr

theorem flushc_out (st : Crunch) : ∃ more, st.flushc.out = st.out ++ more := by
  unfold Crunch.flushc
  split
  case isTrue => exact ⟨[], (List.append_nil _).symm⟩
  case isFalse => exact ⟨_, rfl⟩

theorem stashc_out (st : Crunch) (c : Byte) : ∃ more, (st.stashc c).out = st.out ++ more := by
  unfold Crunch.stashc
  split
  case isTrue => exact flushc_out (st.stash c)
  case isFalse => exact ⟨[], (List.append_nil _).symm⟩

/-- What was stashed stays at the beginning. -/
theorem keeps_starts (q : List Byte) :
    Keeps fun st => Starts q st.out ∨ ∃ p, Stashed p st ∧ q <+: p where
  flushc := by
    rintro st (h | ⟨p, hst, hq⟩)
    · obtain ⟨more, hmore⟩ := flushc_out st
      rw [hmore]
      exact .inl (h.append more)
    · exact .inr ⟨p, hst.flushc, hq⟩
  stashc := by
    rintro st c (h | ⟨p, hst, hq⟩)
    · obtain ⟨more, hmore⟩ := stashc_out st c
      rw [hmore]
      exact .inl (h.append more)
    · exact .inr ⟨_, hst.stashc c, hq.trans (List.prefix_append p [c])⟩
  put := by
    rintro st s (h | ⟨p, hst, hq⟩) h0
    · exact .inl (h.append (putshort s))
    · obtain ⟨e, he, rfl⟩ := hst.bytes
      rw [h0, List.append_nil] at hq
      exact .inl ((starts_of_complete he hq).append (putshort s))
  setNulls := by
    rintro st n (h | ⟨p, hst, hq⟩)
    · exact .inl h
    · exact .inr ⟨p, ⟨hst.room, hst.bytes⟩, hq⟩

theorem Stashed.prefix_of_finish {r : List Byte} (h : Stashed q st) (w : List Byte)
    (hr : startcard (w.foldl Crunch.step st).finish.out = some r) : q <+: r := by
  rcases (keeps_starts q).finish (.inr ⟨q, h, List.prefix_rfl⟩) w with hs | ⟨p, hst, hq⟩
  · exact hs [] r (by rwa [List.append_nil])
  · have hflushed := (keeps_starts q).flushc
    obtain ⟨e, he, rfl⟩ := hst.bytes
    have hempty : (w.foldl Crunch.step st).finish.obuffer = [] := flushc_obuffer _
    rw [hempty, List.append_nil] at hq
    exact starts_of_complete he hq [] r (by rwa [List.append_nil])

/-- Bytes that wait, or the record that they became, follow `o`. -/
theorem keeps_record (o : List Byte) :
    Keeps fun st => (st.out = o ∧ st.obuffer ≠ [] ∧ st.obuffer.length < 1024) ∨
      ∃ k more, 1 ≤ k ∧ k ≤ 1024 ∧ st.out = o ++ (putshort (BitVec.ofNat 16 k) ++ more) := by
  have hflush (st : Crunch) (hne : st.obuffer ≠ []) (hle : st.obuffer.length ≤ 1024) :
      ∃ k more, 1 ≤ k ∧ k ≤ 1024 ∧
        st.flushc.out = st.out ++ (putshort (BitVec.ofNat 16 k) ++ more) :=
    ⟨_, _, List.length_pos_iff.mpr hne, hle, congrArg Crunch.out (if_neg hne)⟩
  constructor
  · rintro st (⟨rfl, hne, hlt⟩ | ⟨k, more, h1, hk, ho⟩)
    · exact .inr (hflush st hne (Nat.le_of_lt hlt))
    · obtain ⟨more', hmore⟩ := flushc_out st
      exact .inr ⟨k, more ++ more', h1, hk, by rw [hmore, ho]; simp only [List.append_assoc]⟩
  · rintro st c (⟨rfl, hne, hlt⟩ | ⟨k, more, h1, hk, ho⟩)
    · have hlen : (st.stash c).obuffer.length = st.obuffer.length + 1 := List.length_append
      have hne' : (st.stash c).obuffer ≠ [] := List.append_ne_nil_of_right_ne_nil _ (by simp)
      unfold Crunch.stashc
      split
      case isTrue => exact .inr (hflush (st.stash c) hne' (by omega))
      case isFalse hfull =>
        have hfull' : (st.stash c).obuffer.length ≠ 1024 := hfull
        exact .inl ⟨rfl, hne', by omega⟩
    · obtain ⟨more', hmore⟩ := stashc_out st c
      exact .inr ⟨k, more ++ more', h1, hk, by rw [hmore, ho]; simp only [List.append_assoc]⟩
  · rintro st s (⟨rfl, hne, hlt⟩ | ⟨k, more, h1, hk, ho⟩) h0
    · exact absurd h0 hne
    · exact .inr ⟨k, more ++ putshort s, h1, hk, by
        change st.out ++ _ = _
        rw [ho]
        simp only [List.append_assoc]⟩
  · rintro st n h
    exact h

theorem foldl_zeros (st : Crunch) (n : ℕ) :
    (List.replicate n 0).foldl Crunch.step st = st.setNulls (st.nulls + BitVec.ofNat 32 n) := by
  induction n generalizing st with
  | zero => exact congrArg st.setNulls (BitVec.add_zero st.nulls).symm
  | succ n ih =>
      rw [List.replicate_succ, List.foldl_cons, ih]
      change st.setNulls (st.nulls + 1 + _) = _
      rw [BitVec.add_assoc, Nat.add_comm n 1, BitVec.ofNat_add]
      rfl

/-- The state after a prefix that does not end with a zero and a block of zeros. -/
theorem zeros_seen {n : ℕ} (hs : ShortRuns p) (hp : p.getLast? ≠ some 0) :
    Stashed p ((p ++ List.replicate n 0).foldl Crunch.step init) ∧
      ((p ++ List.replicate n 0).foldl Crunch.step init).nulls = BitVec.ofNat 32 n := by
  obtain ⟨p', k, hpk, hn, hst⟩ := seen_init.foldl p hs
  rw [List.nil_append] at hpk
  have hk : k = 0 := by
    by_contra hk
    obtain ⟨j, rfl⟩ := Nat.exists_eq_succ_of_ne_zero hk
    refine hp ?_
    rw [hpk, List.replicate_succ', ← List.append_assoc, List.getLast?_concat]
  subst hk
  obtain rfl : p = p' := by rw [hpk, List.replicate_zero, List.append_nil]
  rw [List.foldl_append, foldl_zeros, hn]
  exact ⟨⟨hst.room, hst.bytes⟩, BitVec.zero_add _⟩

/-- With fewer zeros stashed than there are, the round trip fails. -/
theorem ne_of_fewer {m n : ℕ} {w : List Byte} (hst : Stashed p st)
    (hm : st.nulls.toNat % 65536 = m) (hm' : m ≤ 32768) (hmn : m < n) (hw : w.head? ≠ some 0) :
    startcard (w.foldl Crunch.step st).finish.out ≠ some (p ++ List.replicate n 0 ++ w) := by
  intro hr
  have happ := hst.appendnulls st.nulls (by omega)
  rw [hm] at happ
  cases w with
  | nil =>
      have hout := happ.flushed []
      rw [List.append_nil] at hout
      rw [List.foldl_nil, finish, hout, startcard, Option.map_some, Option.some.injEq] at hr
      have hlen := congrArg List.length hr
      simp only [List.append_nil, List.length_append, List.length_replicate] at hlen
      omega
  | cons c w =>
      have hc : c ≠ 0 := fun h0 => hw (congrArg some h0)
      have hstep : Stashed (p ++ List.replicate m 0 ++ [c]) (st.step c) := by
        rw [Crunch.step, if_neg hc]
        have hset : Stashed (p ++ List.replicate m 0) ((st.appendnulls st.nulls).setNulls 0) :=
          ⟨happ.room, happ.bytes⟩
        exact hset.stashc c
      obtain ⟨r, hr'⟩ := hstep.prefix_of_finish w hr
      obtain ⟨j, rfl⟩ := Nat.exists_eq_add_of_lt hmn
      simp only [List.append_assoc, List.append_cancel_left_eq, Nat.add_assoc,
        List.replicate_add, List.replicate_one, List.cons_append, List.nil_append,
        Nat.add_comm j 1, List.cons.injEq] at hr'
      exact hc hr'.1

/-- Two bytes at least that were a count are zeros only if it was 0. -/
theorem first_of_bytes {s : BitVec 16} {k n : ℕ} {more w : List Byte} (hs : s.msb = false)
    (h2 : 2 ≤ s.toNat) (hn : 2 ≤ n)
    (h : startcard (putshort s ++ (putshort (BitVec.ofNat 16 k) ++ more)) =
      some (List.replicate n 0 ++ w)) : k % 65536 = 0 := by
  obtain ⟨i, hi⟩ := Nat.exists_eq_add_of_le' h2
  obtain ⟨j, rfl⟩ := Nat.exists_eq_add_of_le' hn
  by_cases hlen : (putshort (BitVec.ofNat 16 k) ++ more).length < s.toNat
  · rw [startcard_short hs hlen] at h
    exact absurd h.symm (Option.some_ne_none _)
  · rw [startcard_bytes hs (Nat.le_of_not_lt hlen)] at h
    obtain ⟨r, -, hr⟩ := Option.map_eq_some_iff.mp h
    rw [hi] at hr
    simp only [putshort, List.cons_append, List.nil_append, List.take_succ_cons,
      List.replicate_succ, List.cons.injEq] at hr
    have hshort := short_putshort (BitVec.ofNat 16 k)
    rw [hr.1, hr.2.1] at hshort
    have hz := congrArg BitVec.toNat hshort
    rw [BitVec.toNat_ofNat] at hz
    exact hz.symm

/-- A count that became positive takes the next record for bytes. -/
theorem ne_of_positive {n : ℕ} {w : List Byte} (hst : Stashed p st)
    (hn : 32768 < st.nulls.toNat % 65536) (hn' : st.nulls.toNat % 65536 ≠ 65535 ∨ w = [])
    (h2 : 2 ≤ n) (hw : w.head? ≠ some 0) :
    startcard (w.foldl Crunch.step st).finish.out ≠ some (p ++ List.replicate n 0 ++ w) := by
  intro hr
  have hlt := st.nulls.isLt
  have hs : ((-st.nulls).setWidth 16).toNat = 65536 - st.nulls.toNat % 65536 := by
    rw [BitVec.toNat_setWidth, BitVec.toNat_neg]
    omega
  have hmsb : ((-st.nulls).setWidth 16).msb = false := by
    rw [BitVec.msb_eq_false_iff_two_mul_lt, hs]
    change _ < 65536
    omega
  have happ : st.appendnulls st.nulls = st.flushc.put ((-st.nulls).setWidth 16) := if_pos (by
    change 4 ≤ st.nulls.toNat
    omega)
  cases w with
  | nil =>
      have hout : (st.appendnulls st.nulls).flushc.out =
          st.flushc.out ++ (putshort ((-st.nulls).setWidth 16) ++ []) := by
        rw [happ, List.append_nil]
        exact congrArg Crunch.out (if_pos st.flushc_obuffer)
      rw [List.foldl_nil, finish, hout, hst.flushed, startcard_short hmsb (by rw [hs]; simp; omega)]
        at hr
      exact absurd hr.symm (Option.some_ne_none _)
  | cons c w =>
      have hc : c ≠ 0 := fun h0 => hw (congrArg some h0)
      have hmore := hn'.resolve_right (List.cons_ne_nil c w)
      obtain ⟨k, more, h1, hk, hout⟩ :
          ∃ k more, 1 ≤ k ∧ k ≤ 1024 ∧ (w.foldl Crunch.step (st.step c)).finish.out =
            st.flushc.out ++ putshort ((-st.nulls).setWidth 16) ++
              (putshort (BitVec.ofNat 16 k) ++ more) := by
        have hwait : st.step c =
            ((st.flushc.put ((-st.nulls).setWidth 16)).setNulls 0).stash c := by
          rw [Crunch.step, if_neg hc, happ, Crunch.stashc, if_neg]
          change (st.flushc.obuffer ++ [c]).length ≠ 1024
          rw [st.flushc_obuffer]
          exact Nat.ne_of_lt (show 1 < 1024 by omega)
        have hfin : (w.foldl Crunch.step (st.step c)).finish.obuffer = [] := flushc_obuffer _
        have hbytes : (st.step c).obuffer = [c] := by
          rw [hwait]
          exact congrArg (· ++ [c]) st.flushc_obuffer
        rcases (keeps_record _).finish (.inl ⟨congrArg Crunch.out hwait, by rw [hbytes]; simp,
          by rw [hbytes]; exact show 1 < 1024 by omega⟩) w with h | h
        · exact absurd hfin h.2.1
        · exact h
      rw [List.foldl_cons, hout, List.append_assoc, hst.flushed] at hr
      obtain ⟨r, hr', hpr⟩ := Option.map_eq_some_iff.mp hr
      rw [List.append_assoc, List.append_cancel_left_eq] at hpr
      have hk0 := hr'.trans (congrArg some hpr)
      exact absurd (first_of_bytes hmsb (by omega) h2 hk0) (by omega)

end Crunch

/-- The firmware comes back if no block of zeros is longer than 32768. After a
longer one it does not, unless its length is one less than a multiple of 65536
and bytes follow. -/
theorem crunch_round_trip (input : List Byte) :
    (ShortRuns input → startcard (crunch input) = some input) ∧
    ∀ p n w, input = p ++ List.replicate n 0 ++ w → ShortRuns p → p.getLast? ≠ some 0 →
      w.head? ≠ some 0 → 32768 < n → (n % 65536 ≠ 65535 ∨ w = []) →
      startcard (crunch input) ≠ some input := by
  constructor
  · intro hs
    have hseen := Crunch.seen_init.foldl input (by rwa [List.nil_append])
    have hst := hseen.appended [] (by rwa [List.append_nil])
    have hout := hst.flushed []
    rw [List.append_nil, List.nil_append] at hout
    rw [crunch, Crunch.finish, hout, startcard, Option.map_some, List.append_nil]
  · rintro p n w rfl hs hp hw hn hmod
    obtain ⟨hst, hnulls⟩ := Crunch.zeros_seen (n := n) hs hp
    have hnat : ((p ++ List.replicate n 0).foldl Crunch.step Crunch.init).nulls.toNat % 65536 =
        n % 65536 := by
      rw [hnulls, BitVec.toNat_ofNat]
      omega
    rw [crunch, List.foldl_append]
    by_cases hsmall : n % 65536 ≤ 32768
    · exact Crunch.ne_of_fewer hst hnat hsmall (by omega) hw
    · exact Crunch.ne_of_positive hst (by omega) (hmod.imp_left (hnat.trans_ne ·)) (by omega) hw

/-- Zeros alone do not come back if they are too many. -/
theorem crunch_zeros {n : ℕ} (hlong : 32768 < n) (hshort : n < 65536) :
    startcard (crunch (List.replicate n 0)) ≠ some (List.replicate n 0) := by
  have hs : ShortRuns [] := fun k hk => by
    have hlen := hk.length_le
    rw [List.length_replicate, List.length_nil] at hlen
    omega
  obtain ⟨hst, hnulls⟩ := Crunch.zeros_seen (n := n) hs (Option.some_ne_none 0).symm
  have hnat : ((List.replicate n 0).foldl Crunch.step Crunch.init).nulls.toNat = n := by
    rw [← List.nil_append (List.replicate n 0), hnulls, BitVec.toNat_ofNat]
    omega
  have hne := Crunch.ne_of_positive (n := n) (w := []) hst (by rw [List.nil_append]; omega)
    (.inr rfl) (by omega) (Option.some_ne_none 0).symm
  rw [List.nil_append, List.append_nil] at hne
  exact hne

/-- 32769 zeros become the record of 32767 bytes. -/
theorem crunch_long_run :
    startcard (crunch (List.replicate 32769 0)) ≠ some (List.replicate 32769 0) :=
  crunch_zeros (by decide) (by decide)

end
end HydraAmix.Serial.Ql65
