import HydraAmix.Library.Ring
import HydraAmix.Library.Schedule
import HydraAmix.Library.Word

/-!
# The billboard

`bbputc` keeps what goes to the console in a ring, from which `bbread` takes it. On a full
ring it prints a text over the oldest characters, through itself. A turn of the loop of
`bbread` gives `uiomove` the characters up to the end of the buffer; `uiomove` copies no more
than the caller has room for, and characters may be written between any two that it copies.

Where `uiomove` fails what it copied before does not count. The record of what a reader has to
get grows by each character that is written, and on a full ring has the text in the place of
the oldest characters that were not read.
-/
namespace HydraAmix.Console.Bb
open Word HydraAmix.Ring Schedule

abbrev PSIZE : ℕ := 2048

def inc (i : ℕ) : ℕ := (i + 1) % PSIZE

/-- `" ...\n"`. -/
def text : List Byte := [0x20, 0x2e, 0x2e, 0x2e, 0x0a]

structure Board where
  buff : ℕ → Byte
  rind : ℕ
  wind : ℕ

/-- `buff[wind] = c` and `inc(wind)`. -/
def Board.write (b : Board) (c : Byte) : Board :=
  { b with buff := Function.update b.buff b.wind c, wind := inc b.wind }

/-- `bbputc`, when there is no panic; `none` if it calls itself deeper than `depth`. -/
def bbputc : ℕ → Board → Byte → Option Board
  | 0, _, _ => none
  | depth + 1, b, c =>
      let b := b.write c
      if b.wind = b.rind then
        let i := inc b.wind
        (text.foldlM (bbputc depth) { b with wind := i }).map fun b =>
          { b with wind := b.rind, rind := i }
      else some b

/-- A call of `uiomove` for `n` characters, with those copied so far. -/
structure Move where
  n : ℕ
  base : ℕ
  done : List Byte

/-- A process in the loop of `bbread`. -/
structure Call where
  resid : ℕ
  move : Option Move

structure Billboard where
  board : Board
  panicstr : Bool
  calls : ℕ → Option Call
  /-- What was written, and what a reader has to get. -/
  written : List Byte
  expected : List Byte
  received : List Byte
  filled : Bool

inductive Event where
  | put (c : Byte)
  | panic
  /-- A process calls `bbread`, or is woken in it. -/
  | read (r resid : ℕ)
  /-- The head of the loop. -/
  | turn (r : ℕ)
  | byte (r : ℕ)
  | fault (r : ℕ)

namespace Billboard

def init : Billboard := ⟨⟨fun _ => 0, 0, 0⟩, false, fun _ => none, [], [], [], false⟩

def setCall (s : Billboard) (r : ℕ) (c : Option Call) : Billboard :=
  { s with calls := Function.update s.calls r c }

/-- The character fills the ring up. -/
def Fills (s : Billboard) : Prop := s.panicstr = false ∧ inc s.board.wind = s.board.rind

instance (s : Billboard) : Decidable s.Fills := instDecidableAnd

def put (s : Billboard) (c : Byte) : Billboard :=
  if s.panicstr then s
  else
    { s with
      board := (bbputc 2 s.board c).getD s.board
      written := s.written ++ [c]
      expected :=
        if s.Fills then s.received ++ text ++ (s.expected ++ [c]).drop (s.received.length + 6)
        else s.expected ++ [c]
      filled := s.filled || s.Fills }

/-- The number of characters up to the end of the buffer. -/
def piece (b : Board) : ℕ := if b.rind < b.wind then b.wind - b.rind else PSIZE - b.rind

def turn (s : Billboard) (r : ℕ) : Billboard :=
  match s.calls r with
  | some ⟨resid, none⟩ =>
      s.setCall r <|
        if s.board.rind ≠ s.board.wind ∧ resid ≠ 0 then
          some ⟨resid, some ⟨piece s.board, s.board.rind, []⟩⟩
        else none
  | _ => s

/-- What follows a `uiomove` that succeeded. -/
def moved (s : Billboard) (r resid : ℕ) (m : Move) : Billboard :=
  { s with
    board := { s.board with
      rind := if PSIZE ≤ s.board.rind + m.n then 0 else s.board.rind + m.n }
    received := s.received ++ m.done }.setCall r (some ⟨resid - m.done.length, none⟩)

/-- `uiomove` copies a character; at the end it returns. -/
def byte (s : Billboard) (r : ℕ) : Billboard :=
  match s.calls r with
  | some ⟨resid, some m⟩ =>
      let m := { m with done := m.done ++ [s.board.buff (m.base + m.done.length)] }
      if m.done.length < min m.n resid then s.setCall r (some ⟨resid, some m⟩)
      else s.moved r resid m
  | _ => s

/-- `uiomove` fails, and `bbread` with it. -/
def fault (s : Billboard) (r : ℕ) : Billboard :=
  match s.calls r with
  | some ⟨_, some _⟩ => s.setCall r none
  | _ => s

def step (s : Billboard) : Event → Billboard
  | .put c => s.put c
  | .panic => { s with panicstr := true }
  | .read r resid =>
      if (s.calls r).isSome ∨ s.board.rind = s.board.wind then s
      else s.setCall r (some ⟨resid, none⟩)
  | .turn r => s.turn r
  | .byte r => s.byte r
  | .fault r => s.fault r

/-- The characters in the ring. -/
def count (b : Board) : ℕ := (b.wind + PSIZE - b.rind) % PSIZE
def waiting (b : Board) : List Byte := fetch 0 PSIZE b.buff b.rind (count b)

/-- The indexes lie in the buffer, and a reader gets what they have to get, which is what was
written as long as the ring did not fill up. -/
structure Captures (s : Billboard) : Prop where
  rind : s.board.rind < PSIZE
  wind : s.board.wind < PSIZE
  order : s.received ++ waiting s.board = s.expected
  exact : s.filled = false → s.expected = s.written

/-- A process is in `uiomove`. -/
def Moving (s : Billboard) (r : ℕ) : Prop := ∃ resid m, s.calls r = some ⟨resid, some m⟩

/-- The ring does not fill up during a `uiomove`, no two of them overlap, and none is for more
characters than the caller has room for. -/
def Undisturbed (s : Billboard) : Event → Prop
  | .put _ => s.Fills → ∀ r, ¬s.Moving r
  | .turn r => s.board.rind ≠ s.board.wind → ∀ resid ≠ 0, s.calls r = some ⟨resid, none⟩ →
      piece s.board ≤ resid ∧ ∀ r', ¬s.Moving r'
  | _ => True

/-- A `uiomove` has copied what stands in the ring. -/
structure Copying (b : Board) (resid : ℕ) (m : Move) : Prop where
  base : m.base = b.rind
  more : m.done.length < m.n
  piece : m.n ≤ count b
  top : b.rind + m.n ≤ PSIZE
  room : m.n ≤ resid
  done : m.done = fetch 0 PSIZE b.buff b.rind m.done.length

structure Inv (s : Billboard) : Prop extends s.Captures where
  one : ∀ r r', s.Moving r → s.Moving r' → r = r'
  copying : ∀ r resid m, s.calls r = some ⟨resid, some m⟩ → Copying s.board resid m

end Billboard

/-! ### Writing -/

section
variable {b : Board}

open Billboard

theorem cell_of_lt {i : ℕ} (h : i < PSIZE) : cell 0 PSIZE i = i := by
  rw [cell, Nat.mod_eq_of_lt h, Nat.zero_add]

theorem inc_lt (i : ℕ) : inc i < PSIZE := Nat.mod_lt _ (by decide)

/-- The place of the next character is the one behind those in the ring. -/
theorem cell_wind (hr : b.rind < PSIZE) (hw : b.wind < PSIZE) :
    cell 0 PSIZE (b.rind + count b) = b.wind := by
  simp only [cell, count, PSIZE] at *
  omega

theorem count_lt (b : Board) : count b < PSIZE := Nat.mod_lt _ (by decide)

/-- Writing behind the characters in the ring leaves them. -/
theorem fetch_write (hr : b.rind < PSIZE) (hw : b.wind < PSIZE) (c : Byte) {k n : ℕ}
    (hk : k + n ≤ count b) :
    fetch 0 PSIZE (b.write c).buff (b.rind + k) n = fetch 0 PSIZE b.buff (b.rind + k) n := by
  have hcount := count_lt b
  refine fetch_congr _ _ fun i hi => Function.update_of_ne (fun he => ?_) _ _
  rw [← cell_wind hr hw] at he
  have := cell_inj 0 PSIZE (by omega) (by omega) he
  omega

theorem fetch_write_all (hr : b.rind < PSIZE) (hw : b.wind < PSIZE) (c : Byte) :
    fetch 0 PSIZE (b.write c).buff b.rind (count b + 1) = waiting b ++ [c] := by
  have hold := fetch_write hr hw c (k := 0) (n := count b) (by omega)
  rw [Nat.add_zero] at hold
  rw [fetch_add, hold, fetch_succ, fetch_zero, cell_wind hr hw]
  change _ ++ [Function.update b.buff b.wind c b.wind] = _
  rw [Function.update_self]
  rfl

/-- A ring that does not fill up has one more character. -/
theorem waiting_write (hr : b.rind < PSIZE) (hw : b.wind < PSIZE) (c : Byte)
    (h : inc b.wind ≠ b.rind) :
    count (b.write c) = count b + 1 ∧ waiting (b.write c) = waiting b ++ [c] := by
  have hcount : count (b.write c) = count b + 1 := by
    change (inc b.wind + PSIZE - b.rind) % PSIZE = (b.wind + PSIZE - b.rind) % PSIZE + 1
    simp only [inc, PSIZE] at *
    omega
  refine ⟨hcount, ?_⟩
  unfold waiting
  rw [hcount]
  exact fetch_write_all hr hw c

/-- The text is printed behind the index without filling the ring up. -/
theorem foldlM_bbputc (depth : ℕ) (l : List Byte) {j : ℕ} (hr : b.rind < PSIZE) (hj : 0 < j)
    (hl : j + l.length < PSIZE) (hw : b.wind = (b.rind + j) % PSIZE) :
    l.foldlM (bbputc (depth + 1)) b = some { b with
      buff := store 0 PSIZE b.buff (b.rind + j) l
      wind := (b.rind + j + l.length) % PSIZE } := by
  induction l generalizing b j with
  | nil =>
      change some b = _
      rw [show b.rind + j + ([] : List Byte).length = b.rind + j from rfl, ← hw]
      rfl
  | cons c l ih =>
      rw [List.length_cons] at hl
      have hnext : (b.write c).wind = (b.rind + (j + 1)) % PSIZE := by
        change inc b.wind = _
        rw [hw]
        simp only [inc, PSIZE]
        omega
      have hput : bbputc (depth + 1) b c = some (b.write c) := by
        refine if_neg fun h => ?_
        rw [hnext] at h
        change _ = b.rind at h
        simp only [PSIZE] at *
        omega
      have hcell : b.wind = cell 0 PSIZE (b.rind + j) := by rw [hw, cell, Nat.zero_add]
      rw [List.foldlM_cons, hput]
      change l.foldlM (bbputc (depth + 1)) (b.write c) = _
      rw [ih (b := b.write c) hr (Nat.succ_pos j) (by omega) hnext]
      have hlen : b.rind + (j + 1) + l.length = b.rind + j + (l.length + 1) := by omega
      change some (⟨store 0 PSIZE (Function.update b.buff b.wind c) (b.rind + j + 1) l, b.rind,
        (b.rind + (j + 1) + l.length) % PSIZE⟩ : Board) =
        some ⟨store 0 PSIZE (Function.update b.buff (cell 0 PSIZE (b.rind + j)) c) (b.rind + j + 1) l,
          b.rind, (b.rind + j + (l.length + 1)) % PSIZE⟩
      rw [← hcell, hlen]

/-- A character that does not fill the ring up is written. -/
theorem bbputc_room (depth : ℕ) (c : Byte) (h : inc b.wind ≠ b.rind) :
    bbputc (depth + 1) b c = some (b.write c) := if_neg h

/-- What a full ring is left with. -/
def refilled (b : Board) (c : Byte) : Board where
  buff := store 0 PSIZE (b.write c).buff (b.rind + 1) text
  rind := inc b.rind
  wind := b.rind

theorem bbputc_full (hr : b.rind < PSIZE) (c : Byte) (h : inc b.wind = b.rind) :
    bbputc 2 b c = some (refilled b c) := by
  have hfull : (b.write c).wind = (b.write c).rind := h
  have hfold := foldlM_bbputc (b := { b.write c with wind := inc (b.write c).wind }) 0 text
    (j := 1) hr Nat.one_pos (by decide) (by rw [hfull]; rfl)
  change (if (b.write c).wind = (b.write c).rind then _ else _) = _
  rw [if_pos hfull]
  change (text.foldlM (bbputc 1) { b.write c with wind := inc (b.write c).wind }).map _ = _
  rw [hfold, hfull]
  rfl

/-- On a full ring the six oldest characters make place for the text. -/
theorem waiting_refilled (hr : b.rind < PSIZE) (hw : b.wind < PSIZE) (c : Byte)
    (h : inc b.wind = b.rind) :
    waiting (refilled b c) = text ++ (waiting b ++ [c]).drop 6 := by
  have hcount : count b = 2047 := by
    simp only [inc, count, PSIZE] at *
    omega
  have hnew : count (refilled b c) = 5 + 2042 := by
    change (b.rind + PSIZE - inc b.rind) % PSIZE = _
    simp only [inc, PSIZE] at *
    omega
  have hpos : inc b.rind % PSIZE = (b.rind + 1) % PSIZE := Nat.mod_mod _ _
  have hold : waiting b ++ [c] =
      fetch 0 PSIZE (b.write c).buff b.rind 6 ++ fetch 0 PSIZE (b.write c).buff (b.rind + 6) 2042 := by
    rw [← fetch_write_all hr hw, hcount, ← fetch_add]
  have htext : fetch 0 PSIZE (refilled b c).buff (b.rind + 1) 5 = text :=
    fetch_store_same 0 PSIZE (b.write c).buff (b.rind + 1) text (by decide)
  have hrest : fetch 0 PSIZE (refilled b c).buff (b.rind + 1 + 5) 2042 =
      fetch 0 PSIZE (b.write c).buff (b.rind + 6) 2042 := by
    refine fetch_congr _ _ fun i hi => store_apply_of_ne _ _ _ _ _ _ fun k hk he => ?_
    have hk' : k < 5 := hk
    have := cell_inj 0 PSIZE (by omega) (by simp only [PSIZE]; omega) he
    omega
  unfold waiting
  rw [hnew]
  change fetch 0 PSIZE (refilled b c).buff (inc b.rind) (5 + 2042) =
    text ++ (waiting b ++ [c]).drop 6
  rw [fetch_congr_pos 0 PSIZE _ hpos, fetch_add, htext, hrest, hold,
    List.drop_left' (fetch_length ..)]

end

namespace Billboard

variable {s : Billboard}

theorem setCall_self (s : Billboard) (r : ℕ) (t : Option Call) : (s.setCall r t).calls r = t :=
  Function.update_self ..

theorem setCall_of_ne (s : Billboard) {r r' : ℕ} (t : Option Call) (h : r' ≠ r) :
    (s.setCall r t).calls r' = s.calls r' := Function.update_of_ne h ..

theorem Captures.inv (h : s.Captures) (hidle : ∀ r, ¬s.Moving r) : s.Inv :=
  { h with
    one := fun r _ hr => absurd hr (hidle r)
    copying := fun r resid m hr => absurd ⟨resid, m, hr⟩ (hidle r) }

/-- A process is not in `uiomove`, or no more. -/
theorem Inv.setCall_idle (h : s.Inv) {r : ℕ} {t : Option Call}
    (ht : ∀ resid m, t ≠ some ⟨resid, some m⟩) : (s.setCall r t).Inv := by
  have hold {r' resid : ℕ} {m : Move} (hr : (s.setCall r t).calls r' = some ⟨resid, some m⟩) :
      s.calls r' = some ⟨resid, some m⟩ := by
    by_cases he : r' = r
    · rw [he, setCall_self] at hr
      exact absurd hr (ht resid m)
    · rwa [setCall_of_ne s t he] at hr
  refine { h.toCaptures with one := ?_, copying := fun r' resid m hr => ?_ }
  · rintro r' r'' ⟨resid', m', hr'⟩ ⟨resid'', m'', hr''⟩
    exact h.one r' r'' ⟨resid', m', hold hr'⟩ ⟨resid'', m'', hold hr''⟩
  · exact h.copying r' resid m (hold hr)

/-- A process is in `uiomove`, and no other one. -/
theorem Captures.setCall_moving (h : s.Captures) {r resid : ℕ} {m : Move}
    (hone : ∀ r', r' ≠ r → ¬s.Moving r') (hm : Copying s.board resid m) :
    (s.setCall r (some ⟨resid, some m⟩)).Inv := by
  have honly {r' resid' : ℕ} {m' : Move}
      (hr : (s.setCall r (some ⟨resid, some m⟩)).calls r' = some ⟨resid', some m'⟩) : r' = r := by
    refine Classical.byContradiction fun hne => ?_
    rw [setCall_of_ne s _ hne] at hr
    exact hone r' hne ⟨resid', m', hr⟩
  refine { h with one := ?_, copying := fun r' resid' m' hr => ?_ }
  · rintro r' r'' ⟨_, _, hr'⟩ ⟨_, _, hr''⟩
    rw [honly hr', honly hr'']
  · obtain rfl := honly hr
    rw [setCall_self] at hr
    cases hr
    exact hm

theorem Copying.write {b : Board} {resid : ℕ} {m : Move} (h : Copying b resid m)
    (hr : b.rind < PSIZE) (hw : b.wind < PSIZE) (c : Byte) (hroom : inc b.wind ≠ b.rind) :
    Copying (b.write c) resid m := by
  have hmore := h.more
  have hpiece := h.piece
  refine ⟨h.base, h.more, ?_, h.top, h.room, ?_⟩
  · rw [(waiting_write hr hw c hroom).1]
    exact Nat.le_succ_of_le hpiece
  · have hfetch := fetch_write hr hw c (k := 0) (n := m.done.length) (by omega)
    exact h.done.trans hfetch.symm

theorem Inv.put (h : s.Inv) (c : Byte) (hu : s.Fills → ∀ r, ¬s.Moving r) : (s.put c).Inv := by
  unfold Billboard.put
  split
  · exact h
  · rename_i hpanic
    have hp : s.panicstr = false := Bool.eq_false_iff.mpr hpanic
    by_cases hfull : inc s.board.wind = s.board.rind
    · have hfills : s.Fills := ⟨hp, hfull⟩
      have hboard : (bbputc 2 s.board c).getD s.board = refilled s.board c := by
        rw [bbputc_full h.rind c hfull]
        rfl
      rw [hboard, if_pos hfills, decide_eq_true hfills]
      refine Captures.inv ⟨inc_lt _, h.rind, ?_, fun hno => ?_⟩ fun r hr => hu hfills r hr
      · dsimp only
        rw [waiting_refilled h.rind h.wind c hfull, ← h.order, List.append_assoc s.received,
          List.append_assoc s.received, List.drop_length_add_append]
      · exact absurd hno (by simp)
    · have hno : ¬s.Fills := fun hf => hfull hf.2
      have hboard : (bbputc 2 s.board c).getD s.board = s.board.write c := by
        rw [bbputc_room 1 c hfull]
        rfl
      rw [hboard, if_neg hno, decide_eq_false hno, Bool.or_false]
      refine ⟨⟨h.rind, inc_lt _, ?_, fun hf => ?_⟩, h.one, fun r resid m hr => ?_⟩
      · dsimp only
        rw [(waiting_write h.rind h.wind c hfull).2, ← List.append_assoc, h.order]
      · dsimp only
        rw [h.exact hf]
      · exact (h.copying r resid m hr).write h.rind h.wind c hfull

theorem piece_le {b : Board} (hr : b.rind < PSIZE) (hw : b.wind < PSIZE) (hne : b.rind ≠ b.wind) :
    0 < piece b ∧ piece b ≤ count b ∧ b.rind + piece b ≤ PSIZE := by
  simp only [piece, count, PSIZE] at *
  split <;> omega

theorem Inv.turn (h : s.Inv) {r : ℕ} (hu : s.Undisturbed (.turn r)) : (s.turn r).Inv := by
  unfold Billboard.turn
  split
  · rename_i resid hcall
    by_cases hgo : s.board.rind ≠ s.board.wind ∧ resid ≠ 0
    · rw [if_pos hgo]
      obtain ⟨hle, hone⟩ := hu hgo.1 resid hgo.2 hcall
      obtain ⟨hpos, hpiece, htop⟩ := piece_le h.rind h.wind hgo.1
      exact h.toCaptures.setCall_moving (fun r' _ => hone r') ⟨rfl, hpos, hpiece, htop, hle, rfl⟩
    · rw [if_neg hgo]
      exact h.setCall_idle fun resid m ht => by cases ht
  · exact h

/-- The characters of a `uiomove` that ends have left the ring. -/
theorem Captures.moved (h : s.Captures) {r : ℕ} (resid : ℕ) {m : Move} (hpiece : m.n ≤ count s.board)
    (htop : s.board.rind + m.n ≤ PSIZE) (hdone : m.done = fetch 0 PSIZE s.board.buff s.board.rind m.n) :
    (s.moved r resid m).Captures := by
  have hrind : (if PSIZE ≤ s.board.rind + m.n then 0 else s.board.rind + m.n) =
      (s.board.rind + m.n) % PSIZE := by
    split
    · rw [show s.board.rind + m.n = PSIZE by omega, Nat.mod_self]
    · rw [Nat.mod_eq_of_lt (by omega)]
  have hlow := h.rind
  have hhigh := h.wind
  have hcount : (s.board.wind + PSIZE - (s.board.rind + m.n) % PSIZE) % PSIZE =
      count s.board - m.n := by
    simp only [count, PSIZE] at *
    omega
  have hsplit := fetch_add 0 PSIZE s.board.buff s.board.rind m.n (count s.board - m.n)
  rw [Nat.add_sub_cancel' hpiece] at hsplit
  refine ⟨?_, h.wind, ?_, h.exact⟩
  · change (if _ then _ else _) < PSIZE
    rw [hrind]
    exact Nat.mod_lt _ (by decide)
  · change s.received ++ m.done ++ fetch 0 PSIZE s.board.buff
      (if PSIZE ≤ s.board.rind + m.n then 0 else s.board.rind + m.n)
      ((s.board.wind + PSIZE - if PSIZE ≤ s.board.rind + m.n then 0 else s.board.rind + m.n) %
        PSIZE) = s.expected
    rw [hrind, hcount, fetch_congr_pos 0 PSIZE _ (Nat.mod_mod _ _), hdone, List.append_assoc,
      ← hsplit]
    exact h.order

theorem Inv.byte (h : s.Inv) (r : ℕ) : (s.byte r).Inv := by
  unfold Billboard.byte
  split
  · rename_i resid m hcall
    have hm := h.copying r resid m hcall
    have hone (r' : ℕ) (hne : r' ≠ r) : ¬s.Moving r' := fun hr' =>
      hne (h.one r' r hr' ⟨resid, m, hcall⟩)
    have hmore := hm.more
    have htop := hm.top
    have hnext : m.done ++ [s.board.buff (m.base + m.done.length)] =
        fetch 0 PSIZE s.board.buff s.board.rind (m.done.length + 1) := by
      rw [fetch_add, ← hm.done, fetch_succ, fetch_zero, cell_of_lt (by omega), hm.base]
    have hlength : (m.done ++ [s.board.buff (m.base + m.done.length)]).length =
        m.done.length + 1 := List.length_append
    dsimp only
    rw [Nat.min_eq_left hm.room]
    split
    · rename_i hlt
      refine h.toCaptures.setCall_moving hone ⟨hm.base, hlt, hm.piece, htop, hm.room, ?_⟩
      dsimp only
      rw [hlength]
      exact hnext
    · rename_i hge
      have hall : m.done.length + 1 = m.n := by
        rw [hlength] at hge
        omega
      have hcaptures := h.toCaptures.moved (r := r) resid
        (m := { m with done := m.done ++ [s.board.buff (m.base + m.done.length)] }) hm.piece htop
        (by rw [← hall]; exact hnext)
      refine hcaptures.inv fun r' hr' => ?_
      obtain ⟨resid', m', hcall'⟩ := hr'
      by_cases hne : r' = r
      · rw [hne] at hcall'
        have hself := hcall'.symm.trans (setCall_self ..)
        cases hself
      · refine hone r' hne ⟨resid', m', ?_⟩
        exact (setCall_of_ne _ _ hne).symm.trans hcall'
  · exact h

theorem Inv.step (h : s.Inv) {e : Event} (hu : s.Undisturbed e) : (s.step e).Inv := by
  cases e with
  | put c => exact h.put c hu
  | panic => exact { h.toCaptures with one := h.one, copying := h.copying }
  | read r resid =>
      unfold Billboard.step
      dsimp only
      split
      · exact h
      · exact h.setCall_idle fun resid m ht => by cases ht
  | turn r => exact h.turn hu
  | byte r => exact h.byte r
  | fault r =>
      change (s.fault r).Inv
      unfold Billboard.fault
      split
      · exact h.setCall_idle fun resid m ht => by cases ht
      · exact h

theorem inv_init : init.Inv :=
  Captures.inv ⟨by decide, by decide, rfl, fun _ => rfl⟩ fun r hr => by
    obtain ⟨resid, m, hcall⟩ := hr
    cases hcall

/-- In every run in which the ring does not fill up during a `uiomove`, no two of them overlap
and each is for no more than its caller has room for, readers get what was written. -/
theorem captures_output (es : List Event) (h : Every step Undisturbed init es) :
    (final step init es).Captures :=
  (final_of_every Inv (fun _ _ hi hu => hi.step hu) inv_init h).toCaptures

/-- A reader with room for five gets both characters. -/
theorem captures_output_both :
    (final step init [.put 0x61, .put 0x62, .read 0 5, .turn 0, .byte 0, .byte 0]).Captures := by
  refine captures_output _ ⟨fun h => absurd h (by decide), fun h => absurd h (by decide), trivial,
    fun _ resid _ hcall => ?_, trivial, trivial, trivial⟩
  have hresid : some (⟨5, none⟩ : Call) = some ⟨resid, none⟩ := hcall
  cases hresid
  refine ⟨by decide, ?_⟩
  rintro r' ⟨resid', m, hr'⟩
  by_cases hne : r' = 0
  · subst hne
    cases hr'
  · have hnone : (none : Option Call) = some ⟨resid', some m⟩ :=
      (setCall_of_ne _ _ hne).symm.trans hr'
    cases hnone

/-- A reader with room for one takes the second character out of the ring as well. -/
theorem captures_output_fails : ¬∀ es, (final step init es).Captures := by
  intro h
  have ho := (h [.put 0x61, .put 0x62, .read 0 1, .turn 0, .byte 0]).order
  exact absurd ho (by decide)

end Billboard

end HydraAmix.Console.Bb
