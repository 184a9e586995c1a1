import HydraAmix.Serial.Port

/-!
# The port sends what was written, as long as no ioctl message waits

An ioctl message gets to the front of the queue, and `getoblk` looks at the
first message only, so ioctl messages wait before the data and `getoblk` sends
only where none waits. `sltint` takes whatever is first. What was sent, what is
left of the block being sent and the first blocks on the queue are what was
written; an ioctl message that is in the hands of a routine counts like one that
waits.
-/
namespace HydraAmix.Serial
open Word Schedule

namespace Message

/-- What a message adds to the data. -/
def payload : Message → List Byte
  | .data first _ => first
  | .ioctl _ => []

def number : Message → Option ℕ
  | .data _ _ => none
  | .ioctl i => some i.id

end Message

def dataOf (q : List Message) : List Byte := q.flatMap Message.payload

/-- The ioctl messages on the queue. -/
def waiting (q : List Message) : List ℕ := q.filterMap Message.number

/-- No ioctl message stands behind data. -/
def Fronted : List Message → Prop
  | [] => True
  | .data _ _ :: q => waiting q = []
  | .ioctl _ :: q => Fronted q

/-- What was sent is a beginning of what was written, and each ioctl message was
answered once or waits. -/
def Port.Served (s : Port) : Prop :=
  s.sent.map Sent.ch <+: s.written ∧
    ∀ i < s.arrived, s.answered.count i + (waiting s.q).count i = 1

/-- Without the carrier a message has one block only; where the interrupt needs a
new block, no ioctl message is first. -/
def Port.Allowed (s : Port) : Event → Prop
  | .data _ cont => s.carr = true ∨ cont.flatten = []
  | .tint => s.output.getD [] ≠ [] ∨ ∀ i, s.q.head? ≠ some (.ioctl i)
  | _ => True

/-- The invariant, with the ioctl messages that a routine has in hand. -/
structure Sound (hand : List ℕ) (s : Port) : Prop where
  order : s.sent.map Sent.ch ++ (s.output.getD [] ++ dataOf s.q) = s.written
  front : Fronted s.q
  once : ∀ i, s.answered.count i + (waiting s.q).count i + hand.count i =
    if i < s.arrived then 1 else 0

/-- A routine keeps the invariant wherever it comes back. -/
def Keeps (f : Port → Option Port) : Prop :=
  ∀ hand s s', Sound hand s → f s = some s' → Sound hand s'

section
variable {env : Env} {s s' : Port} {hand : List ℕ} {i : Ioctl} {f : Port → Option Port}

/-! ### The queue -/

theorem dataOf_append (q p : List Message) : dataOf (q ++ p) = dataOf q ++ dataOf p :=
  List.flatMap_append

theorem waiting_append (q p : List Message) : waiting (q ++ p) = waiting q ++ waiting p :=
  List.filterMap_append

theorem fronted_of_waiting {q : List Message} (h : waiting q = []) : Fronted q := by
  cases q with
  | nil => trivial
  | cons m q =>
      cases m with
      | data first cont => exact h
      | ioctl i => exact absurd h (List.cons_ne_nil _ _)

theorem fronted_append {q p : List Message} (h : Fronted q) (hp : waiting p = []) :
    Fronted (q ++ p) := by
  induction q with
  | nil => exact fronted_of_waiting hp
  | cons m q ih =>
      cases m with
      | data first cont =>
          change waiting (q ++ p) = []
          rw [waiting_append, hp, List.append_nil]
          exact h
      | ioctl i => exact ih h

theorem waiting_of_head {q : List Message} (h : Fronted q) (hh : ∀ i, q.head? ≠ some (.ioctl i)) :
    waiting q = [] := by
  cases q with
  | nil => rfl
  | cons m q =>
      cases m with
      | data first cont => exact h
      | ioctl i => exact absurd rfl (hh i)

theorem dataOf_blocks (bs : List (List Byte)) :
    dataOf (bs.map fun b => .data b []) = bs.flatten := by
  induction bs with
  | nil => rfl
  | cons b bs ih =>
      change b ++ dataOf (bs.map fun b => .data b []) = b ++ bs.flatten
      rw [ih]

theorem waiting_blocks (bs : List (List Byte)) :
    waiting (bs.map fun b => .data b []) = [] := by
  induction bs with
  | nil => rfl
  | cons b bs ih => exact ih

/-- The loop of `sltint` takes no ioctl message and loses no character. -/
theorem nextChar_spec {out : List Byte} {q : List Message} (h : out ≠ [] ∨ waiting q = []) :
    ((Port.nextChar out q).1.elim [] fun p => p.1 :: p.2) ++ dataOf (Port.nextChar out q).2 =
        out ++ dataOf q ∧
      waiting (Port.nextChar out q).2 = waiting q ∧
      (Fronted q → Fronted (Port.nextChar out q).2) := by
  induction q generalizing out with
  | nil => cases out <;> exact ⟨rfl, rfl, id⟩
  | cons m q ih =>
      cases out with
      | cons c cs => exact ⟨rfl, rfl, id⟩
      | nil =>
          have hw := h.resolve_left fun hn => hn rfl
          cases m with
          | ioctl i => exact absurd hw (List.cons_ne_nil _ _)
          | data first cont =>
              obtain ⟨hdata, hwait, hfront⟩ := @ih first (.inr hw)
              exact ⟨hdata, hwait, fun _ => hfront (fronted_of_waiting hw)⟩

/-! ### `sltint` -/

theorem Sound.sendChar (h : Sound hand s) (hq : s.output.getD [] ≠ [] ∨ waiting s.q = []) :
    Sound hand (s.sendChar env) := by
  obtain ⟨hdata, hwait, hfront⟩ := nextChar_spec hq
  rw [Port.sendChar]
  split
  case h_1 q heq =>
    rw [heq] at hdata hwait hfront
    refine ⟨?_, hfront h.front, fun j => ?_⟩
    · rw [← h.order, ← hdata]
      rfl
    · rw [← h.once j, ← hwait]
  case h_2 ch rest q heq =>
    rw [heq] at hdata hwait hfront
    refine ⟨?_, hfront h.front, fun j => ?_⟩
    · rw [← h.order, ← hdata, List.map_append, List.append_assoc]
      rfl
    · rw [← h.once j, ← hwait]

theorem Sound.transmit (h : Sound hand s) (hq : s.output.getD [] ≠ [] ∨ waiting s.q = []) :
    Sound hand (s.transmit env) := by
  have h₁ : ∀ stop, Sound hand { s with ttstop := stop } := fun _ => ⟨h.order, h.front, h.once⟩
  rw [Port.transmit]
  by_cases hx : (s.outputXoff && !s.ttstop) = true
  · rw [if_pos hx]
    exact h₁ true
  · rw [if_neg hx]
    split
    · exact h
    · exact h.sendChar hq

theorem Sound.sltint (h : Sound hand s) (hq : s.output.getD [] ≠ [] ∨ waiting s.q = []) :
    Sound hand (s.sltint env) := by
  have h₁ : ∀ busy asked, Sound hand { s with busy := busy, asked := asked } :=
    fun _ _ => ⟨h.order, h.front, h.once⟩
  rw [Port.sltint, Port.ask]
  dsimp only
  split
  · exact h₁ s.busy _
  · split
    · rw [Port.ask]
      dsimp only
      split
      · exact h₁ true _
      · exact (h₁ false _).transmit hq
    · exact (h₁ s.busy _).transmit hq

/-! ### Ioctl messages -/

theorem Sound.take (h : Sound hand s) {q : List Message} (hq : s.q = .ioctl i :: q) :
    Sound (i.id :: hand) { s with q := q } := by
  have hfront := h.front
  have horder := h.order
  rw [hq] at hfront horder
  refine ⟨horder, hfront, fun j => ?_⟩
  have honce := h.once j
  rw [hq, show waiting (.ioctl i :: q) = i.id :: waiting q from rfl, List.count_cons] at honce
  rw [List.count_cons, ← honce]
  dsimp only
  omega

theorem Sound.answer (h : Sound (i.id :: hand) s) : Sound hand (s.answer i) := by
  refine ⟨h.order, h.front, fun j => Eq.trans ?_ (h.once j)⟩
  dsimp only [Port.answer]
  rw [List.count_append, List.count_singleton, List.count_cons]
  omega

theorem Sound.putbq (h : Sound (i.id :: hand) s) : Sound hand (s.putbq (.ioctl i)) := by
  refine ⟨h.order, h.front, fun j => Eq.trans ?_ (h.once j)⟩
  dsimp only [Port.putbq]
  rw [show waiting (.ioctl i :: s.q) = i.id :: waiting s.q from rfl, List.count_cons,
    List.count_cons]
  omega

theorem Keeps.slresume (hf : Keeps f) : Keeps (Port.slresume f) := fun hand s s' h hs =>
  hf hand { s with ttstop := false } s' ⟨h.order, h.front, h.once⟩ hs

theorem Keeps.slparam (hf : Keeps f) : Keeps (Port.slparam f) := by
  intro hand s s' h hs
  rw [Port.slparam] at hs
  split at hs
  · exact hf.slresume hand s s' h hs
  · exact Option.some.inj hs ▸ h

theorem Sound.setParams (hf : Keeps f) {set : BitVec 32 → BitVec 32 → BitVec 32}
    (h : Sound (i.id :: hand) s) (hs : Port.setParams f set i s = some s') : Sound hand s' := by
  rw [Port.setParams] at hs
  split at hs
  case h_1 => exact Option.some.inj hs ▸ h.answer
  case h_2 cb _ =>
    obtain ⟨t, ht, rfl⟩ := Option.map_eq_some_iff.mp hs
    have hset : Sound (i.id :: hand)
        { s with cflag := set s.cflag cb.cflag, iflag := set s.iflag cb.iflag } :=
      ⟨h.order, h.front, h.once⟩
    exact (hf.slparam _ _ t hset ht).answer

theorem Sound.answerIf (h : Sound (i.id :: hand) s) : Sound hand (s.answerIf env i) := by
  have h₁ : Sound (i.id :: hand) { s with asked := s.asked + 1 } := ⟨h.order, h.front, h.once⟩
  rw [Port.answerIf, Port.ask]
  dsimp only
  split
  · exact h₁.answer
  · exact h₁.putbq

theorem Sound.slsrvioc (hf : Keeps f) (h : Sound (i.id :: hand) s)
    (hs : Port.slsrvioc env f s i = some s') : Sound hand s' := by
  have hflush : ∀ {set : BitVec 32 → BitVec 32 → BitVec 32},
      (f s).bind (Port.setParams f set i) = some s' → Sound hand s' := fun hb => by
    obtain ⟨t, ht, hset⟩ := Option.bind_eq_some_iff.mp hb
    exact (hf _ s t h ht).setParams hf hset
  have hif : some (s.answerIf env i) = some s' → Sound hand s' := fun he =>
    Option.some.inj he ▸ h.answerIf
  rw [Port.slsrvioc] at hs
  cases hc : i.cmd with
  | tcsetaf | tcsetsf => rw [hc] at hs; exact hflush hs
  | tcseta | tcsetaw | tcsets | tcsetsw => rw [hc] at hs; exact h.setParams hf hs
  | tcsbrk =>
      rw [hc] at hs
      exact hf hand { s.answer i with timeout := true } s'
        ⟨h.answer.order, h.answer.front, h.answer.once⟩ hs
  | tcgeta | tcgets | ldioc | other => rw [hc] at hs; exact hif hs

/-! ### `getoblk` -/

/-- Where no ioctl message waits, a message that was taken is sent or goes back. -/
theorem Sound.load {first : List Byte} {cont : List (List Byte)} {q : List Message}
    (h : Sound hand s) (hq : s.q = .data first cont :: q) :
    Sound hand ({ s with q := q }.load first cont) ∧
      waiting ({ s with q := q }.load first cont).q = [] := by
  have hback : Sound hand { s with q := .data first cont :: q } := by
    rw [← hq]
    exact h
  rw [Port.load]
  dsimp only
  split
  · exact ⟨hback, hback.front⟩
  case h_2 ho =>
    refine ⟨⟨?_, fronted_of_waiting hback.front, hback.once⟩, hback.front⟩
    rw [← hback.order]
    dsimp only
    rw [ho]
    rfl

theorem getoblk_keeps (env : Env) (turns : ℕ) : Keeps (Port.getoblk env turns) := by
  induction turns with
  | zero => exact fun _ _ _ _ hs => absurd hs.symm (Option.some_ne_none _)
  | succ turns ih =>
      intro hand s s' h hs
      have hloop : ∀ {t : Port}, Sound hand t →
          (if t.busy then some t else Port.getoblk env turns t) = some s' → Sound hand s' := by
        intro t ht hi
        split at hi
        · exact Option.some.inj hi ▸ ht
        · exact ih hand t s' ht hi
      rw [Port.getoblk] at hs
      cases hq : s.q with
      | nil =>
          rw [hq] at hs
          obtain rfl := Option.some.inj hs
          have hnil : Sound hand { s with q := [] } := by
            rw [← hq]
            exact h
          exact ⟨hnil.order, hnil.front, hnil.once⟩
      | cons m q =>
          cases m with
          | ioctl i =>
              rw [hq] at hs
              obtain ⟨t, ht, hi⟩ := Option.bind_eq_some_iff.mp hs
              exact hloop ((h.take hq).slsrvioc ih ht) hi
          | data first cont =>
              obtain ⟨hload, hw⟩ := h.load hq
              rw [hq] at hs
              dsimp only at hs
              split at hs
              · obtain rfl := Option.some.inj hs
                rw [Port.putbq, ← hq]
                exact h
              · refine hloop ?_ hs
                split
                · exact hload
                · exact hload.sltint (.inr hw)

/-! ### What happens -/

theorem Keeps.drain (hf : Keeps f) : Keeps (Port.drain f) := by
  intro hand s s' h hs
  rw [Port.drain] at hs
  split at hs
  · exact hf hand s s' h hs
  · exact Option.some.inj hs ▸ h

theorem Sound.append (h : Sound hand s) {p : List Message} (hp : waiting p = [])
    {bytes : List Byte} (hb : dataOf p = bytes) :
    Sound hand { s with q := s.q ++ p, written := s.written ++ bytes } := by
  refine ⟨?_, fronted_append h.front hp, fun j => ?_⟩
  · dsimp only
    rw [dataOf_append, hb, ← h.order]
    simp only [List.append_assoc]
  · rw [← h.once j]
    dsimp only
    rw [waiting_append, hp, List.append_nil]

theorem Sound.slwdata (hf : Keeps f) (h : Sound hand s) {first : List Byte}
    {cont : List (List Byte)} (ha : s.carr = true ∨ cont.flatten = [])
    (hs : s.slwdata f first cont = some s') : Sound hand s' := by
  rw [Port.slwdata] at hs
  dsimp only at hs
  split at hs
  case isTrue hc =>
    rw [Bool.not_eq_true'] at hc
    have hone := ha.resolve_left fun ht => absurd (hc.symm.trans ht) Bool.false_ne_true
    obtain rfl := Option.some.inj hs
    refine h.append (p := [.data first cont]) rfl ?_
    rw [List.flatten_cons, hone]
    rfl
  case isFalse =>
    refine hf.drain hand _ s' (h.append (waiting_blocks _) ?_) hs
    rw [dataOf_blocks, List.flatten_filter_ne_nil]

theorem Sound.slputioc (hf : Keeps f) (h : Sound (i.id :: hand) s)
    (hs : Port.slputioc env f s i = some s') : Sound hand s' := by
  have hput : ∀ {p : Prop} [Decidable p],
      (if p then some (s.putbq (.ioctl i)) else Port.slsrvioc env f s i) = some s' →
        Sound hand s' := fun hi => by
    split at hi
    · exact Option.some.inj hi ▸ h.putbq
    · exact h.slsrvioc hf hi
  rw [Port.slputioc] at hs
  cases hc : i.cmd with
  | tcseta | tcsets => rw [hc] at hs; exact hput hs
  | tcgeta | tcgets => rw [hc] at hs; exact h.slsrvioc hf hs
  | ldioc => rw [hc] at hs; exact Option.some.inj hs ▸ h.answer
  | tcsetaf | tcsetaw | tcsetsf | tcsetsw | tcsbrk | other => rw [hc] at hs; exact hput hs

/-- The next number is a new one. -/
theorem Sound.arrive (h : Sound [] s) : Sound [s.arrived] { s with arrived := s.arrived + 1 } := by
  refine ⟨h.order, h.front, fun j => ?_⟩
  have honce := h.once j
  rw [List.count_nil] at honce
  rw [List.count_singleton]
  dsimp only
  rcases Nat.lt_trichotomy j s.arrived with hlt | rfl | hgt
  · rw [if_pos hlt] at honce
    rw [if_pos (Nat.lt_succ_of_lt hlt), if_neg (by simpa using Nat.ne_of_gt hlt)]
    exact honce
  · rw [if_neg (Nat.lt_irrefl _)] at honce
    rw [if_pos (Nat.lt_succ_self _), if_pos (by simp)]
    omega
  · rw [if_neg (Nat.lt_asymm hgt)] at honce
    rw [if_neg (show ¬ j < s.arrived + 1 by omega), if_neg (by simpa using Nat.ne_of_lt hgt)]
    exact honce

theorem Sound.slrint (h : Sound hand s) (c : Byte) : Sound hand (s.slrint c) := by
  have h₁ : ∀ x, Sound hand { s with outputXoff := x } := fun _ => ⟨h.order, h.front, h.once⟩
  rw [Port.slrint]
  split
  · split
    · exact h₁ false
    · split
      · exact h₁ true
      · split
        · exact h₁ false
        · exact h
  · exact h

theorem Sound.handle (h : Sound [] s) {turns : ℕ} {e : Event} (ha : s.Allowed e)
    (hs : s.handle env turns e = some s') : Sound [] s' := by
  have hf := getoblk_keeps env turns
  cases e with
  | data first cont => exact h.slwdata hf ha hs
  | ioctl cmd raw cont =>
      obtain ⟨t, ht, hd⟩ := Option.bind_eq_some_iff.mp hs
      exact hf.drain [] t s' (h.arrive.slputioc hf ht) hd
  | start =>
      obtain ⟨t, ht, hd⟩ := Option.bind_eq_some_iff.mp hs
      exact hf [] t s' (hf.slresume [] s t h ht) hd
  | stop =>
      obtain rfl := Option.some.inj hs
      exact ⟨h.order, h.front, h.once⟩
  | tint =>
      obtain rfl := Option.some.inj hs
      exact h.sltint (ha.imp_right (waiting_of_head h.front))
  | rint c => exact Option.some.inj hs ▸ h.slrint c
  | poll carrier =>
      obtain ⟨t, ht, rfl⟩ := Option.map_eq_some_iff.mp hs
      have ht' : Sound [] t := by
        split at ht
        · exact hf.slresume [] s t h ht
        · exact Option.some.inj ht ▸ h
      exact ⟨ht'.order, ht'.front, ht'.once⟩
  | restart =>
      obtain ⟨t, ht, hd⟩ := Option.bind_eq_some_iff.mp hs
      have ht' := hf.slparam [] s t h ht
      exact hf [] { t with timeout := false } s' ⟨ht'.order, ht'.front, ht'.once⟩ hd
  | bufcall => exact hf [] s s' h hs

theorem Sound.served (h : Sound [] s) : s.Served := by
  refine ⟨⟨_, h.order⟩, fun j hj => ?_⟩
  have honce := h.once j
  rwa [if_pos hj, List.count_nil, Nat.add_zero] at honce

theorem opened_sound (carr : Bool) (cflag : BitVec 32) : Sound [] (Port.opened carr cflag) :=
  ⟨rfl, trivial, fun _ => rfl⟩

end

/-- Every answer is yes but those with these numbers. -/
def refusing (no : List ℕ) : Env where
  answer n := decide (n ∉ no)
  partab _ := 0
  hardware := false

end HydraAmix.Serial
