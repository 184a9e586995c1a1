import HydraAmix.Serial.Card
import HydraAmix.Serial.Output

/-!
# The card sends what was written, as long as no ioctl message waits

The characters put in the ring and the messages on the queue are what was written. Ioctl
messages stand before the data, so `getoblk`, which looks at the type of the first message,
calls `output` only where none waits; the interrupt calls it in any case. The ring holds the
characters that the card has not taken, one free cell at least, and the driver never fills
it up.
-/
namespace HydraAmix.Serial.Ql
open Word Schedule

/-- What a message adds to the data. -/
def contents : Message → List Byte
  | .data first cont => (first :: cont).flatten
  | .ioctl _ => []

def dataOf (q : List Message) : List Byte := q.flatMap contents

namespace Line

/-- What was put in the ring is a beginning of what was written; the card has taken a
beginning of that, and finds the rest in the ring; and each ioctl message was answered once
or waits. -/
structure Served (s : Line) : Prop where
  data : s.put <+: s.written
  taken : s.sent <+: s.put
  intact : ∀ i, s.sent.length ≤ i → i < s.put.length → s.put[i]? = some (s.tbuf (i % BUFSIZE))
  once : ∀ i < s.arrived, s.answered.count i + (waiting s.q).count i = 1

/-- Where the interrupt comes, no ioctl message is first. -/
def Allowed (s : Line) : Event → Prop
  | .intr => ∀ i, s.q.head? ≠ some (.ioctl i)
  | _ => True

/-- The ring, by how many characters were put and taken. -/
structure Ring (s : Line) : Prop where
  thead : s.thead = s.put.length % BUFSIZE
  ttail : s.ttail = s.sent.length % BUFSIZE
  taken : s.sent <+: s.put
  room : s.put.length < s.sent.length + BUFSIZE
  intact : ∀ i, s.sent.length ≤ i → i < s.put.length → s.put[i]? = some (s.tbuf (i % BUFSIZE))

/-- The invariant, with the data and the ioctl messages that a routine has in hand. -/
structure Sound (data : List Byte) (hand : List ℕ) (s : Line) : Prop where
  ring : s.Ring
  order : s.put ++ (data ++ dataOf s.q) = s.written
  front : Fronted s.q
  once : ∀ i, s.answered.count i + (waiting s.q).count i + hand.count i =
    if i < s.arrived then 1 else 0

/-- What the invariant is about. -/
def core (s : Line) : ℕ × ℕ × List Byte × List Byte × (ℕ → Byte) × List Byte × List Message × ℕ ×
    List ℕ :=
  (s.thead, s.ttail, s.put, s.sent, s.tbuf, s.written, s.q, s.arrived, s.answered)

/-- A routine keeps the invariant wherever it comes back. -/
def Keeps (f : Line → Option Line) : Prop :=
  ∀ hand s s', Sound [] hand s → f s = some s' → Sound [] hand s'

section
variable {env : Env} {s s' : Line} {data : List Byte} {hand : List ℕ} {i : Ioctl}
  {f : Line → Option Line}

/-! ### The ring -/

theorem Ring.congr (h : s.Ring) (hh : s'.thead = s.thead) (ht : s'.ttail = s.ttail)
    (hp : s'.put = s.put) (hs : s'.sent = s.sent) (hb : s'.tbuf = s.tbuf) : s'.Ring := by
  refine ⟨?_, ?_, ?_, ?_, ?_⟩
  · rw [hh, hp]
    exact h.thead
  · rw [ht, hs]
    exact h.ttail
  · rw [hp, hs]
    exact h.taken
  · rw [hp, hs]
    exact h.room
  · rw [hp, hs, hb]
    exact h.intact

theorem Ring.length_le (h : s.Ring) : s.sent.length ≤ s.put.length := h.taken.length_le

/-- The card takes the character that was put there. -/
theorem Ring.takeByte (h : s.Ring) : s.takeByte.Ring := by
  unfold Line.takeByte
  split
  next => exact h
  next hne =>
    have hle := h.length_le
    have hlt : s.sent.length < s.put.length := by
      refine Nat.lt_of_le_of_ne hle fun he => hne ?_
      rw [h.ttail, h.thead, he]
    have hget := h.intact s.sent.length (Nat.le_refl _) hlt
    refine ⟨h.thead, ?_, ?_, ?_, fun j hj hjp => ?_⟩
    · dsimp only
      rw [List.length_append, List.length_singleton, h.ttail]
      exact Nat.mod_add_mod _ _ _
    · obtain ⟨rest, hrest⟩ := h.taken
      rw [← hrest, List.getElem?_append_right (Nat.le_refl _), Nat.sub_self] at hget
      cases rest with
      | nil => exact absurd hget.symm (Option.some_ne_none _)
      | cons c rest =>
          refine ⟨rest, ?_⟩
          have hc : c = s.tbuf s.ttail := by
            rw [h.ttail]
            exact Option.some.inj hget
          rw [← hc, List.append_assoc, List.singleton_append]
          exact hrest
    · have hroom := h.room
      dsimp only
      rw [List.length_append, List.length_singleton]
      omega
    · dsimp only at hj
      rw [List.length_append, List.length_singleton] at hj
      exact h.intact j (Nat.le_of_succ_le hj) hjp

theorem takeByte_queue (s : Line) : s.takeByte.q = s.q ∧ s.takeByte.put = s.put ∧
    s.takeByte.written = s.written ∧ s.takeByte.arrived = s.arrived ∧
    s.takeByte.answered = s.answered := by
  unfold takeByte
  split
  · exact ⟨rfl, rfl, rfl, rfl, rfl⟩
  · exact ⟨rfl, rfl, rfl, rfl, rfl⟩

theorem Sound.takeByte (h : Sound data hand s) : Sound data hand s.takeByte := by
  obtain ⟨hq, hp, hw, ha, hans⟩ := s.takeByte_queue
  refine ⟨h.ring.takeByte, ?_, ?_, ?_⟩
  · rw [hp, hq, hw]
    exact h.order
  · rw [hq]
    exact h.front
  · rw [hq, ha, hans]
    exact h.once

theorem Sound.iterate (h : Sound data hand s) (n : ℕ) : Sound data hand (Line.takeByte^[n] s) := by
  induction n generalizing s with
  | zero => exact h
  | succ n ih => exact ih h.takeByte

theorem iterate_q (s : Line) (n : ℕ) : (Line.takeByte^[n] s).q = s.q := by
  induction n generalizing s with
  | zero => rfl
  | succ n ih => exact (ih s.takeByte).trans s.takeByte_queue.1

theorem card_q (env : Env) (s : Line) : (s.card env).q = s.q := s.iterate_q (env.takes s.asked)

theorem Sound.card (env : Env) (h : Sound data hand s) : Sound data hand (s.card env) := by
  have hn := h.iterate (env.takes s.asked)
  exact ⟨hn.ring.congr rfl rfl rfl rfl rfl, hn.order, hn.front, hn.once⟩

theorem room_of_free {p q : ℕ} (hle : q ≤ p) (hroom : p < q + 0x100)
    (hfree : (p % 0x100 + 1) % 0x100 ≠ q % 0x100) : p + 1 < q + 0x100 := by
  omega

theorem cell_ne {p q j : ℕ} (hj : q ≤ j) (hlt : j < p) (hroom : p < q + 0x100) :
    j % 0x100 ≠ p % 0x100 := by
  omega

/-- A character is put where there is a free cell behind it. -/
theorem Ring.putByte (h : s.Ring) (hfree : (s.thead + 1) % BUFSIZE ≠ s.ttail) (c : Byte) :
    (s.putByte c).Ring := by
  have hle := h.length_le
  have hroom := h.room
  have hth := h.thead
  have htt := h.ttail
  refine ⟨?_, htt, h.taken.trans (List.prefix_append _ _), ?_, fun j hj hjp => ?_⟩
  · dsimp only [Line.putByte]
    rw [List.length_append, List.length_singleton, hth]
    exact Nat.mod_add_mod _ _ _
  · dsimp only [Line.putByte]
    rw [List.length_append, List.length_singleton]
    rw [hth, htt] at hfree
    exact room_of_free hle hroom hfree
  · dsimp only [Line.putByte] at hj hjp ⊢
    rw [List.length_append, List.length_singleton] at hjp
    rcases Nat.lt_succ_iff_lt_or_eq.mp hjp with hlt | rfl
    · rw [List.getElem?_append_left hlt, Function.update_of_ne]
      · exact h.intact j hj hlt
      · rw [hth]
        exact cell_ne hj hlt hroom
    · rw [List.getElem?_append_right (Nat.le_refl _), Nat.sub_self, hth, Function.update_self]
      rfl

/-! ### `output` -/

theorem Sound.putByte {c : Byte} (h : Sound (c :: data) hand s)
    (hfree : (s.thead + 1) % BUFSIZE ≠ s.ttail) : Sound data hand (s.putByte c) := by
  refine ⟨h.ring.putByte hfree c, ?_, h.front, h.once⟩
  refine Eq.trans ?_ h.order
  dsimp only [Line.putByte]
  rw [List.append_assoc]
  rfl

theorem fill_sound (env : Env) {cs : List Byte} (h : Sound (cs ++ data) hand s) :
    Sound ((fill env cs s).1 ++ data) hand (fill env cs s).2 := by
  induction cs generalizing s with
  | nil => exact h
  | cons c cs ih =>
      have hcard : Sound (c :: (cs ++ data)) hand (s.card env) := Sound.card env h
      unfold fill
      dsimp only
      split
      next => exact hcard
      next hfree => exact ih (hcard.putByte hfree)

theorem fill_q (env : Env) (cs : List Byte) (s : Line) : (fill env cs s).2.q = s.q := by
  induction cs generalizing s with
  | nil => rfl
  | cons c cs ih =>
      unfold fill
      dsimp only
      split
      · exact s.card_q env
      · exact (ih _).trans (s.card_q env)

/-- What is left of a message in hand. -/
def left : Option (List Byte × List (List Byte)) → List Byte
  | none => []
  | some (first, cont) => (first :: cont).flatten

theorem fillAll_sound (env : Env) {first : List Byte} {cont : List (List Byte)}
    (h : Sound ((first :: cont).flatten ++ data) hand s) :
    Sound (left (fillAll env first cont s).1 ++ data) hand (fillAll env first cont s).2 ∧
      (fillAll env first cont s).2.q = s.q := by
  induction cont generalizing first s with
  | nil =>
      rw [List.flatten_cons, List.append_assoc] at h
      have hfill := fill_sound env h
      have hq := fill_q env first s
      unfold fillAll
      split
      next s₁ heq =>
        rw [heq] at hfill hq
        exact ⟨hfill, hq⟩
      next rest s₁ hne heq =>
        rw [heq] at hfill hq
        refine ⟨?_, hq⟩
        change Sound ((rest ++ List.flatten []) ++ data) hand s₁
        rw [List.append_assoc]
        exact hfill
  | cons b bs ih =>
      rw [List.flatten_cons, List.append_assoc] at h
      have hfill := fill_sound env h
      have hq := fill_q env first s
      unfold fillAll
      split
      next s₁ heq =>
        rw [heq] at hfill hq
        obtain ⟨hs, hq'⟩ := ih hfill
        exact ⟨hs, hq'.trans hq⟩
      next rest s₁ hne heq =>
        rw [heq] at hfill hq
        refine ⟨?_, hq⟩
        change Sound ((rest ++ (b :: bs).flatten) ++ data) hand s₁
        rw [List.append_assoc]
        exact hfill

/-- A data message goes back to the front. -/
theorem Sound.back {first : List Byte} {cont : List (List Byte)}
    (h : Sound ((first :: cont).flatten ++ []) hand s) (hw : waiting s.q = []) :
    Sound [] hand (s.putbq (.data first cont)) := by
  refine ⟨h.ring.congr rfl rfl rfl rfl rfl, ?_, hw, h.once⟩
  refine Eq.trans ?_ h.order
  change s.put ++ ([] ++ ((first :: cont).flatten ++ dataOf s.q)) = _
  rw [List.nil_append, List.append_nil]

theorem outputLoop_sound {q : List Message} (h : Sound [] hand s) (hq : s.q = q)
    (hw : waiting q = []) : Sound [] hand (outputLoop env q s) := by
  induction q generalizing s with
  | nil => exact h
  | cons m q ih =>
      cases m with
      | ioctl i => exact absurd hw (List.cons_ne_nil _ _)
      | data first cont =>
          have hw : waiting q = [] := hw
          have htake : Sound ((first :: cont).flatten ++ []) hand { s with q := q } := by
            have horder := h.order
            rw [hq] at horder
            refine ⟨h.ring.congr rfl rfl rfl rfl rfl, ?_, fronted_of_waiting hw, fun j => ?_⟩
            · rw [← horder, List.append_nil]
              rfl
            · rw [← h.once j, hq]
              rfl
          have hcard := Sound.card env htake
          have hcq := ({ s with q := q } : Line).card_q env
          have hcw : waiting (({ s with q := q } : Line).card env).q = [] := by
            rw [hcq]
            exact hw
          unfold outputLoop
          dsimp only
          split_ifs
          · exact hcard.back hcw
          · exact (Sound.back ⟨hcard.ring.congr rfl rfl rfl rfl rfl, hcard.order, hcard.front,
              hcard.once⟩ hcw)
          · exact (Sound.back ⟨hcard.ring.congr rfl rfl rfl rfl rfl, hcard.order, hcard.front,
              hcard.once⟩ hcw)
          · exact hcard.back hcw
          · obtain ⟨hfill, hfq⟩ := fillAll_sound env hcard
            split
            next s₁ heq =>
              have heq : fillAll env first cont (({ s with q := q } : Line).card env) =
                  (none, s₁) := heq
              rw [heq] at hfill hfq
              exact ih hfill (hfq.trans hcq) hw
            next r s₁ heq =>
              have heq : fillAll env first cont (({ s with q := q } : Line).card env) =
                  (some r, s₁) := heq
              rw [heq] at hfill hfq
              exact Sound.back hfill (by rw [hfq]; exact hcw)

theorem Sound.idle (h : Sound data hand s) : Sound data hand s.idle := by
  unfold Line.idle
  split
  · exact ⟨h.ring.congr rfl rfl rfl rfl rfl, h.order, h.front, h.once⟩
  · exact h

theorem idle_q (s : Line) : s.idle.q = s.q := by
  unfold idle
  split
  · rfl
  · rfl

theorem Sound.output (h : Sound [] hand s) (hw : waiting s.q = []) :
    Sound [] hand (s.output env) := by
  refine outputLoop_sound (Sound.card env h).idle rfl ?_
  rw [idle_q, card_q]
  exact hw

/-! ### Ioctl messages -/

/-- A step that touches neither the ring nor the queue nor the answers. -/
theorem Sound.of_core (h : Sound data hand s) (he : s'.core = s.core) : Sound data hand s' := by
  simp only [core, Prod.mk.injEq] at he
  obtain ⟨hh, ht, hp, hs, hb, hw, hq, ha, hans⟩ := he
  refine ⟨h.ring.congr hh ht hp hs hb, ?_, ?_, ?_⟩
  · rw [hp, hw, hq]
    exact h.order
  · rw [hq]
    exact h.front
  · rw [hq, ha, hans]
    exact h.once

theorem Sound.take (h : Sound [] hand s) {q : List Message} (hq : s.q = .ioctl i :: q) :
    Sound [] (i.id :: hand) { s with q := q } := by
  have hfront := h.front
  have horder := h.order
  rw [hq] at hfront horder
  refine ⟨h.ring.congr rfl rfl rfl rfl rfl, horder, hfront, fun j => ?_⟩
  have honce := h.once j
  rw [hq, show waiting (.ioctl i :: q) = i.id :: waiting q from rfl, List.count_cons] at honce
  rw [List.count_cons, ← honce]
  dsimp only
  omega

theorem Sound.answer (h : Sound [] (i.id :: hand) s) : Sound [] hand (s.answer i) := by
  refine ⟨h.ring.congr rfl rfl rfl rfl rfl, h.order, h.front, fun j => Eq.trans ?_ (h.once j)⟩
  dsimp only [Line.answer]
  rw [List.count_append, List.count_singleton, List.count_cons]
  omega

theorem Sound.putbq (h : Sound [] (i.id :: hand) s) : Sound [] hand (s.putbq (.ioctl i)) := by
  refine ⟨h.ring.congr rfl rfl rfl rfl rfl, h.order, h.front, fun j => Eq.trans ?_ (h.once j)⟩
  dsimp only [Line.putbq]
  rw [show waiting (.ioctl i :: s.q) = i.id :: waiting s.q from rfl, List.count_cons,
    List.count_cons]
  omega

theorem Sound.setParams {set : BitVec 32 → BitVec 32 → BitVec 32}
    (h : Sound [] (i.id :: hand) s) : Sound [] hand (Line.setParams set i s) := by
  unfold Line.setParams
  split
  · exact h.answer
  · refine Sound.answer ?_
    exact h.of_core rfl

theorem Sound.answerIf (h : Sound [] (i.id :: hand) s) : Sound [] hand (s.answerIf env i) := by
  have hask : Sound [] (i.id :: hand) { s with asked := s.asked + 1 } :=
    h.of_core rfl
  unfold Line.answerIf ask
  dsimp only
  split
  · exact hask.answer
  · exact hask.putbq

theorem Keeps.flushRead (hf : Keeps f) : Keeps (Line.flushRead f) := by
  intro hand s s' h hs
  have hclear : Sound [] hand { s with tblock := false } :=
    h.of_core rfl
  exact hf hand _ s' hclear hs

theorem Sound.qlsrvioc (hf : Keeps f) (h : Sound [] (i.id :: hand) s)
    (hs : Line.qlsrvioc env f s i = some s') : Sound [] hand s' := by
  have hflush : ∀ {set : BitVec 32 → BitVec 32 → BitVec 32},
      (Line.flushRead f s).map (Line.setParams set i) = some s' → Sound [] hand s' := fun hb => by
    obtain ⟨t, ht, rfl⟩ := Option.map_eq_some_iff.mp hb
    exact (hf.flushRead _ s t h ht).setParams
  unfold Line.qlsrvioc at hs
  cases hc : i.cmd with
  | tcsetaf | tcsetsf =>
      rw [hc] at hs
      exact hflush hs
  | tcseta | tcsetaw | tcsets | tcsetsw =>
      rw [hc] at hs
      exact Option.some.inj hs ▸ h.setParams
  | tcsbrk =>
      rw [hc] at hs
      have hbreak : Sound [] hand { s.answer i with timeout := true } :=
        h.answer.of_core rfl
      exact hf hand _ s' hbreak hs
  | tcgeta | tcgets | ldioc | other =>
      rw [hc] at hs
      exact Option.some.inj hs ▸ h.answerIf

/-! ### `getoblk` -/

theorem getoblk_keeps (env : Env) (turns : ℕ) : Keeps (getoblk env turns) := by
  induction turns with
  | zero => exact fun _ _ _ _ hs => absurd hs.symm (Option.some_ne_none _)
  | succ turns ih =>
      intro hand s s' h hs
      have hloop : ∀ {t : Line}, Sound [] hand t →
          (if t.busy then some t else getoblk env turns t) = some s' → Sound [] hand s' := by
        intro t ht hi
        split at hi
        · exact Option.some.inj hi ▸ ht
        · exact ih hand t s' ht hi
      unfold getoblk at hs
      cases hq : s.q with
      | nil =>
          rw [hq] at hs
          exact Option.some.inj hs ▸ (Sound.card env h).idle
      | cons m q =>
          cases m with
          | ioctl i =>
              rw [hq] at hs
              obtain ⟨t, ht, hi⟩ := Option.bind_eq_some_iff.mp hs
              exact hloop ((h.take hq).qlsrvioc ih ht) hi
          | data first cont =>
              have hw : waiting s.q = [] := by
                have hfront := h.front
                rw [hq] at hfront ⊢
                exact hfront
              rw [hq] at hs
              dsimp only at hs
              split at hs
              · exact Option.some.inj hs ▸ h
              · exact hloop (h.output hw) hs

/-! ### What happens -/

theorem Keeps.drain (hf : Keeps f) : Keeps (Line.drain f) := by
  intro hand s s' h hs
  unfold Line.drain at hs
  split at hs
  · exact hf hand s s' h hs
  · exact Option.some.inj hs ▸ h

theorem Keeps.resume (hf : Keeps f) : Keeps (Line.resume f) := by
  intro hand s s' h hs
  have hgo : Sound [] hand { s with ttstop := false } :=
    h.of_core rfl
  exact hf hand _ s' hgo hs

theorem dataOf_append (q p : List Message) : dataOf (q ++ p) = dataOf q ++ dataOf p :=
  List.flatMap_append

theorem dataOf_blocks (bs : List (List Byte)) :
    dataOf (bs.map fun b => .data b []) = bs.flatten := by
  induction bs with
  | nil => rfl
  | cons b bs ih =>
      change (b ++ []) ++ dataOf (bs.map fun b => .data b []) = b ++ bs.flatten
      rw [ih, List.append_nil]

theorem Sound.append (h : Sound [] hand s) {p : List Message} (hp : waiting p = [])
    {bytes : List Byte} (hb : dataOf p = bytes) :
    Sound [] hand { s with q := s.q ++ p, written := s.written ++ bytes } := by
  refine ⟨h.ring.congr rfl rfl rfl rfl rfl, ?_, fronted_append h.front hp, fun j => ?_⟩
  · dsimp only
    rw [dataOf_append, hb, ← h.order]
    simp only [List.append_assoc, List.nil_append]
  · rw [← h.once j]
    dsimp only
    rw [waiting_append, hp, List.append_nil]

theorem Sound.qlwdata (hf : Keeps f) (h : Sound [] hand s) {first : List Byte}
    {cont : List (List Byte)} (hs : s.qlwdata f first cont = some s') : Sound [] hand s' := by
  unfold Line.qlwdata at hs
  dsimp only at hs
  split at hs
  · obtain rfl := Option.some.inj hs
    exact h.append (p := [.data first cont]) rfl (List.append_nil _)
  · refine hf.drain hand _ s' (h.append (waiting_blocks _) ?_) hs
    rw [dataOf_blocks, List.flatten_filter_ne_nil]

theorem Sound.qlputioc (hf : Keeps f) (h : Sound [] (i.id :: hand) s)
    (hs : Line.qlputioc env f s i = some s') : Sound [] hand s' := by
  have hput : ∀ {p : Prop} [Decidable p],
      (if p then some (s.putbq (.ioctl i)) else Line.qlsrvioc env f s i) = some s' →
        Sound [] hand s' := fun hi => by
    split at hi
    · exact Option.some.inj hi ▸ h.putbq
    · exact h.qlsrvioc hf hi
  unfold Line.qlputioc at hs
  cases hc : i.cmd with
  | tcseta | tcsets =>
      rw [hc] at hs
      exact hput hs
  | tcgeta | tcgets =>
      rw [hc] at hs
      exact h.qlsrvioc hf hs
  | ldioc =>
      rw [hc] at hs
      exact Option.some.inj hs ▸ h.answer
  | tcsetaf | tcsetaw | tcsetsf | tcsetsw | tcsbrk | other =>
      rw [hc] at hs
      exact hput hs

/-- The next number is a new one. -/
theorem Sound.arrive (h : Sound [] [] s) :
    Sound [] [s.arrived] { s with arrived := s.arrived + 1 } := by
  refine ⟨h.ring.congr rfl rfl rfl rfl rfl, h.order, h.front, fun j => ?_⟩
  have honce := h.once j
  rw [List.count_nil] at honce
  rw [List.count_singleton]
  dsimp only
  rcases Nat.lt_trichotomy j s.arrived with hlt | rfl | hgt
  · rw [if_pos hlt] at honce
    rw [if_pos (Nat.lt_succ_of_lt hlt), if_neg (by simpa using Nat.ne_of_gt hlt)]
    exact honce
  · rw [if_neg (Nat.lt_irrefl _)] at honce
    rw [if_pos (Nat.lt_succ_self _), if_pos (by simp)]
    omega
  · rw [if_neg (Nat.lt_asymm hgt)] at honce
    rw [if_neg (show ¬ j < s.arrived + 1 by omega), if_neg (by simpa using Nat.ne_of_lt hgt)]
    exact honce

theorem Sound.input (hf : Keeps f) (h : Sound [] hand s) {c : Byte}
    (hs : s.input f c = some s') : Sound [] hand s' := by
  unfold Line.input at hs
  split_ifs at hs
  · exact hf.resume hand s s' h hs
  · obtain rfl := Option.some.inj hs
    exact h.of_core rfl
  · exact hf.resume hand s s' h hs
  · exact Option.some.inj hs ▸ h
  · exact Option.some.inj hs ▸ h

theorem Sound.handle (h : Sound [] [] s) {turns : ℕ} {e : Event} (ha : s.Allowed e)
    (hs : s.handle env turns e = some s') : Sound [] [] s' := by
  have hf := getoblk_keeps env turns
  cases e with
  | data first cont => exact h.qlwdata hf hs
  | ioctl cmd raw cont => exact h.arrive.qlputioc hf hs
  | rest => exact hf.drain [] s s' h hs
  | start =>
      obtain ⟨t, ht, hd⟩ := Option.bind_eq_some_iff.mp hs
      exact hf [] t s' (hf.resume [] s t h ht) hd
  | intr =>
      obtain rfl := Option.some.inj hs
      exact h.output (waiting_of_head h.front ha)
  | input c => exact h.input hf hs
  | delayed =>
      have hgo : Sound [] [] { s with timeout := false } :=
        h.of_core rfl
      exact hf [] _ s' hgo hs
  | bufcall => exact hf [] s s' h hs
  | stop | delay | carrier | restart | block | unblock =>
      obtain rfl := Option.some.inj hs
      exact h.of_core rfl

theorem Sound.served (h : Sound [] [] s) : s.Served := by
  refine ⟨⟨_, h.order⟩, h.ring.taken, h.ring.intact, fun j hj => ?_⟩
  have honce := h.once j
  rwa [if_pos hj, List.count_nil, Nat.add_zero] at honce

theorem opened_sound (carr : Bool) (cflag : BitVec 32) : Sound [] [] (opened carr cflag) :=
  ⟨⟨rfl, rfl, List.prefix_refl _, Nat.zero_lt_succ _,
    fun j _ hj => absurd hj (Nat.not_lt_zero j)⟩, rfl, trivial, fun _ => rfl⟩

end

/-- Every answer is `ok`, and the card takes one character at a time. -/
def answering (ok : Bool) : Env where
  answer _ := ok
  takes _ := 1
  tandem _ := true

end Line
end HydraAmix.Serial.Ql
