import HydraAmix.Aen.Interrupt
import HydraAmix.Aen.ReceiveRing
import HydraAmix.Library.Schedule

/-!
# No interrupt of the LANCE board is lost, as long as the errors clear none

The chip fills the receive ring in order, so what the host has is one piece from
`rx_buffer_index` on. While the routine has the ring or a stream still to look
at, nothing is asked of them; behind that, a completed frame has RINT set, and
a stream that waits has a descriptor at the chip or TINT set. The second write
of `status` is the only step that breaks this: it clears what the chip has set
since the first.
-/
namespace HydraAmix.Aen
open Word Schedule

/-- The chip has filled `n` descriptors from the index on; the others are its own. -/
structure RxRing.Filled (r : RxRing) (chip n : ℕ) : Prop where
  le : n ≤ RXCOUNT
  place : chip = (r.index + n) % RXCOUNT
  host : ∀ k < n, (r.nth k).own = false
  chips : ∀ k, n ≤ k → k < RXCOUNT → (r.nth k).own = true

/-- A frame stands at the index: the host's descriptors up to the first ENP. -/
def RxRing.Completed (r : RxRing) : Prop :=
  ∃ m < RXCOUNT, (∀ k < m, (r.nth k).own = false ∧ (r.nth k).enp = false) ∧
    (r.nth m).own = false ∧ (r.nth m).enp = true

namespace Phase

/-- `receive_interrupt` is not over. -/
def ToReceive : Phase → Prop
  | .receiving _ => True
  | _ => False

/-- `transmit_interrupt` has still to look at the stream. -/
def ToTransmit : Phase → Fin AEN_MAXDEV → Prop
  | .receiving status, _ => status.tint = true
  | .transmitting _ js, j => j ∈ js
  | _, _ => False

end Phase

namespace Board

def Sending (b : Board) : Prop := ∃ k < TXCOUNT, b.txOwn k = true

/-- Where `aenintr` is over and the chip asks for nothing, nothing is left. -/
def Settled (b : Board) : Prop :=
  b.phase = .outside → b.csr0.intr = false →
    ¬ b.rx.ring.Completed ∧ ((∃ j, b.q j ≠ []) → b.Sending)

/-- The second write of `status` finds no RINT and no TINT that `status` has too. -/
def ClearsNone (b : Board) : BoardEvent → Prop
  | .intr => ∀ status, b.phase = .erring status →
      (b.csr0.rint && status.rint) = false ∧ (b.csr0.tint && status.tint) = false
  | _ => True

end Board

structure Sound (env : Env) (b : Board) : Prop where
  index : b.rx.ring.index < RXCOUNT
  txIndex : b.txBufferIndex < TXCOUNT
  filled : ∃ n, b.rx.ring.Filled b.rxChip n
  closed : ∀ j, (env.aen j).q = false → b.q j = []
  received : ¬ b.phase.ToReceive → b.rx.ring.Completed → b.csr0.rint = true
  sent : ∀ j, ¬ b.phase.ToTransmit j → b.q j ≠ [] → b.Sending ∨ b.csr0.tint = true

section
variable {env : Env} {b : Board} {r : RxRing} {chip n : ℕ}

/-! ### The receive ring -/

theorem RxRing.Filled.gives (h : r.Filled chip n) (hi : r.index < RXCOUNT) {l : ℕ}
    (hl : l ≤ RXCOUNT) (hhost : ∀ k < l, (r.nth k).own = false) :
    (r.gives l).Filled chip (n - l) := by
  have hle : l ≤ n := by
    by_contra hn
    have hown := h.chips n (Nat.le_refl n) (by omega)
    rw [hhost n (by omega)] at hown
    exact absurd hown Bool.false_ne_true
  have hn := h.le
  refine ⟨by omega, ?_, fun k hk => ?_, fun k hk hk' => ?_⟩
  · rw [RxRing.gives_index r l hi, Nat.mod_add_mod, Nat.add_assoc, Nat.add_sub_cancel' hle]
    exact h.place
  · rw [RxRing.gives_nth r hi (by omega)]
    exact h.host _ (by omega)
  · rcases Nat.lt_or_ge (l + k) RXCOUNT with hlt | hge
    · rw [RxRing.gives_nth r hi hlt]
      exact h.chips _ (by omega) hlt
    · rw [RxRing.nth, RxRing.gives_index r l hi, Nat.mod_add_mod, RxRing.gives_rxptr r l _ hi,
        if_pos ⟨l + k - RXCOUNT, by omega, by
          rw [show r.index + l + k = r.index + (l + k - RXCOUNT) + RXCOUNT by omega,
            Nat.add_mod_right]⟩]
      exact Ringptr.own_handedBack _

theorem RxRing.Filled.own_iff (h : r.Filled chip n) (hi : r.index < RXCOUNT) :
    (r.rxptr chip).own = true ↔ n < RXCOUNT := by
  rcases Nat.lt_or_eq_of_le h.le with hlt | rfl
  · refine iff_of_true ?_ hlt
    rw [h.place]
    exact h.chips n (Nat.le_refl n) hlt
  · refine iff_of_false ?_ (Nat.lt_irrefl _)
    rw [h.place, Nat.add_mod_right, Nat.mod_eq_of_lt hi, ← RxRing.nth_zero hi,
      h.host 0 (by decide)]
    exact Bool.false_ne_true

/-- The chip fills its descriptor, one place of the ring. -/
theorem RxRing.Filled.nth_fill (h : r.Filled chip n) (hi : r.index < RXCOUNT) (hn : n < RXCOUNT)
    (d : Ringptr) {k : ℕ} (hk : k < RXCOUNT) :
    ({ r with rxptr := Function.update r.rxptr chip d } : RxRing).nth k =
      if k = n then d else r.nth k := by
  rw [RxRing.nth, h.place]
  dsimp only
  split
  case isTrue heq => rw [heq, Function.update_self]
  case isFalse hne =>
    rw [Function.update_of_ne]
    · rfl
    · change ¬ (r.index + k) % 128 = (r.index + n) % 128
      change r.index < 128 at hi
      change k < 128 at hk
      change n < 128 at hn
      omega

theorem RxRing.Filled.fill (h : r.Filled chip n) (hi : r.index < RXCOUNT) (hn : n < RXCOUNT)
    {d : Ringptr} (hd : d.own = false) :
    ({ r with rxptr := Function.update r.rxptr chip d } : RxRing).Filled
      ((chip + 1) % RXCOUNT) (n + 1) where
  le := hn
  place := by
    rw [h.place, Nat.mod_add_mod]
    rfl
  host k hk := by
    rw [h.nth_fill hi hn d (by omega)]
    split
    · exact hd
    · exact h.host k (by omega)
  chips k hk hk' := by
    rw [h.nth_fill hi hn d hk', if_neg (by omega)]
    exact h.chips k (by omega) hk'

/-- A descriptor without ENP completes no frame. -/
theorem RxRing.Filled.completed_of_fill (h : r.Filled chip n) (hi : r.index < RXCOUNT)
    (hn : n < RXCOUNT) {d : Ringptr} (hd : d.enp = false)
    (hc : ({ r with rxptr := Function.update r.rxptr chip d } : RxRing).Completed) :
    r.Completed := by
  obtain ⟨m, hm, hopen, hown, henp⟩ := hc
  rw [h.nth_fill hi hn d hm] at hown henp
  by_cases hmn : m = n
  · rw [if_pos hmn, hd] at henp
    exact absurd henp Bool.false_ne_true
  · rw [if_neg hmn] at hown henp
    have hlt : m < n := by
      by_contra hge
      rw [h.chips m (by omega) hm] at hown
      exact absurd hown.symm Bool.false_ne_true
    refine ⟨m, hm, fun k hk => ?_, hown, henp⟩
    have hk' := hopen k hk
    rwa [h.nth_fill hi hn d (by omega), if_neg (by omega)] at hk'

/-- Where the loop finds no chain, no frame stands at the index. -/
theorem Walk.not_completed {rest : List Ringptr} (h : Walk r [] rest) : ¬ r.Completed := by
  rintro ⟨m, hm, hopen, hown, henp⟩
  obtain ⟨hlen, hstop⟩ := h.nil_length
  have hnth : ∀ k (hk : k < rest.length), r.nth k = rest[k] := fun k hk =>
    RxRing.nth_of_view h.view hk
  rcases Nat.lt_trichotomy m rest.length with hlt | rfl | hgt
  · rw [hnth m hlt, h.restOpen _ (List.getElem_mem hlt)] at henp
    exact absurd henp Bool.false_ne_true
  · rw [hown] at hstop
    exact absurd hstop Bool.false_ne_true
  · rw [(hopen _ hgt).1] at hstop
    exact absurd hstop Bool.false_ne_true

/-- A turn of the receive loop hands back descriptors of the host, or finds no
frame, or does not end. -/
theorem receiveTurn_cases (env : Env) (s : Rx) (hi : s.ring.index < RXCOUNT) :
    (receiveTurn env (RXCOUNT + 1) s = some (false, s) ∧ ¬ s.ring.Completed) ∨
      (∃ l ≤ RXCOUNT, ∃ sink, (∀ k < l, (s.ring.nth k).own = false) ∧
        receiveTurn env (RXCOUNT + 1) s = some (true, ⟨s.ring.gives l, sink⟩)) ∨
      receiveTurn env (RXCOUNT + 1) s = none := by
  by_cases he : s.ring.Ends
  · obtain ⟨cs, rest, hw⟩ := he.walk hi
    cases cs with
    | nil =>
        obtain ⟨hlen, hstop⟩ := hw.nil_length
        exact .inl ⟨receiveTurn_rest env s hi hw.view hlen hw.restHost hw.restOpen hstop
          (Nat.le_succ _), hw.not_completed⟩
    | cons c cs =>
        have hc := hw.chains c List.mem_cons_self
        refine .inr (.inl ⟨c.length, Nat.le_of_lt hw.first_length, _, fun k hk => ?_,
          receiveTurn_chain env s hc hi hw.first_view hw.first_length (Nat.le_succ _)⟩)
        rw [RxRing.nth_of_view hw.first_view hk]
        exact hc.host _ (List.getElem_mem hk)
  · rcases receiveTurn_forever env hi he (RXCOUNT + 1) with hn | ⟨sink, hs⟩
    · exact .inr (.inr hn)
    · exact .inr (.inl ⟨0, Nat.zero_le _, sink, fun k hk => absurd hk (Nat.not_lt_zero k), hs⟩)

/-! ### The steps of the driver -/

namespace Phase

theorem afterReceive_toTransmit {status : Csr0} {j : Fin AEN_MAXDEV}
    (h : ¬ (Board.afterReceive status).ToTransmit j) : status.tint = false := by
  rw [Board.afterReceive] at h
  split at h
  · exact absurd (List.mem_finRange j) h
  case isFalse hf => exact Bool.eq_false_iff.mpr hf

theorem afterAck_toReceive {status : Csr0} (h : ¬ (Board.afterAck status).ToReceive) :
    status.rint = false := by
  rw [Board.afterAck] at h
  split at h
  · exact absurd trivial h
  case isFalse hf => exact Bool.eq_false_iff.mpr hf

theorem afterAck_toTransmit {status : Csr0} {j : Fin AEN_MAXDEV}
    (h : ¬ (Board.afterAck status).ToTransmit j) : status.tint = false := by
  rw [Board.afterAck] at h
  split at h
  · exact Bool.eq_false_iff.mpr h
  · exact afterReceive_toTransmit h

end Phase

/-- Only CSR0 and the place in `aenintr` change. -/
theorem Sound.move (h : Sound env b) {csr0 : Csr0} {rx : Rx} {phase : Phase}
    (hrx : rx.ring = b.rx.ring)
    (hr : ¬ phase.ToReceive → b.rx.ring.Completed → csr0.rint = true)
    (ht : ∀ j, ¬ phase.ToTransmit j → b.q j ≠ [] → b.Sending ∨ csr0.tint = true) :
    Sound env { b with csr0 := csr0, rx := rx, phase := phase } where
  index := hrx ▸ h.index
  txIndex := h.txIndex
  filled := hrx ▸ h.filled
  closed := h.closed
  received hp hc := hr hp (hrx ▸ hc)
  sent := ht

/-- A descriptor of the transmit ring is at the chip, so no stream is forgotten. -/
theorem Sound.send (h : Sound env b) {own : ℕ → Bool} {i : ℕ}
    {q : Fin AEN_MAXDEV → List (List Byte)} {phase : Phase} (hi : i < TXCOUNT)
    (hq : ∀ j, (env.aen j).q = false → q j = []) (hown : ∃ k < TXCOUNT, own k = true)
    (hp : ¬ b.phase.ToReceive) :
    Sound env { b with txOwn := own, txBufferIndex := i, q := q, phase := phase } where
  index := h.index
  txIndex := hi
  filled := h.filled
  closed := hq
  received _ := h.received hp
  sent _ _ _ := .inl hown

theorem aenxmit_some (hi : b.txBufferIndex < TXCOUNT) {b' : Board} (h : b.aenxmit = some b') :
    ∃ own i, b' = { b with txOwn := own, txBufferIndex := i } ∧ i < TXCOUNT ∧
      ∃ k < TXCOUNT, own k = true := by
  rw [Board.aenxmit] at h
  split at h
  · refine ⟨_, _, (Option.some.inj h).symm, ?_, _, hi, Function.update_self ..⟩
    split <;> omega
  · exact absurd h.symm (Option.some_ne_none b')

theorem aenxmit_none (hi : b.txBufferIndex < TXCOUNT) (h : b.aenxmit = none) : b.Sending := by
  rw [Board.aenxmit] at h
  split at h
  · exact absurd h (Option.some_ne_none _)
  case isFalse hf => exact ⟨_, hi, by rwa [Bool.not_eq_true, Bool.not_eq_false'] at hf⟩

theorem closed_update (hc : ∀ j, (env.aen j).q = false → b.q j = []) {j : Fin AEN_MAXDEV}
    (hj : (env.aen j).q = true) (q : List (List Byte)) (i : Fin AEN_MAXDEV)
    (hi : (env.aen i).q = false) : Function.update b.q j q i = [] := by
  have hne : i ≠ j := fun he => by
    rw [he, hj] at hi
    exact absurd hi.symm Bool.false_ne_true
  rw [Function.update_of_ne hne]
  exact hc i hi

theorem Sound.unitdataReq (h : Sound env b) (hp : b.phase = .outside) {j : Fin AEN_MAXDEV}
    (hj : (env.aen j).q = true) (mp : List Byte) : Sound env (b.unitdataReq j mp) := by
  have hrecv : ¬ b.phase.ToReceive := by
    rw [hp]
    exact id
  rw [Board.unitdataReq]
  split
  case isTrue hq =>
    have hnot : ∀ i, ¬ b.phase.ToTransmit i := fun i => by
      rw [hp]
      exact id
    exact ⟨h.index, h.txIndex, h.filled, closed_update h.closed hj _, h.received,
      fun i _ _ => h.sent j (hnot j) hq⟩
  case isFalse =>
    cases hx : b.aenxmit with
    | some b' =>
        obtain ⟨own, i, rfl, hi, hown⟩ := aenxmit_some h.txIndex hx
        exact h.send hi h.closed hown hrecv
    | none =>
        exact h.send h.txIndex (closed_update h.closed hj _) (aenxmit_none h.txIndex hx) hrecv

/-- A stream whose queue is empty needs no look. -/
theorem Sound.skip (h : Sound env b) {status : Csr0} {j : Fin AEN_MAXDEV}
    {js : List (Fin AEN_MAXDEV)} (hp : b.phase = .transmitting status (j :: js))
    (hq : b.q j = []) : Sound env { b with phase := .transmitting status js } :=
  h.move rfl
    (fun _ => h.received (by rw [hp]; exact id))
    fun i hi hne => h.sent i (by
      rw [hp]
      refine fun hm => hi ((List.mem_cons.mp hm).resolve_left fun he => hne ?_)
      rw [he, hq]) hne

theorem Sound.transmitTurn (h : Sound env b) {status : Csr0} {js : List (Fin AEN_MAXDEV)}
    (hp : b.phase = .transmitting status js) : Sound env (b.transmitTurn env status js) := by
  have hrecv : ¬ b.phase.ToReceive := by
    rw [hp]
    exact id
  cases js with
  | nil =>
      exact h.move rfl (fun _ => h.received hrecv) fun i _ =>
        h.sent i (by rw [hp]; exact List.not_mem_nil)
  | cons j js =>
      rw [Board.transmitTurn]
      split
      case isTrue hj =>
        cases hq : b.q j with
        | nil => exact h.skip hp hq
        | cons mp q =>
            dsimp only
            cases hx : b.aenxmit with
            | some b' =>
                obtain ⟨own, i, rfl, hi, hown⟩ := aenxmit_some h.txIndex hx
                exact h.send hi (closed_update h.closed hj q) hown hrecv
            | none => exact h.send h.txIndex h.closed (aenxmit_none h.txIndex hx) hrecv
      case isFalse hj => exact h.skip hp (h.closed j (Bool.eq_false_iff.mpr hj))

theorem Sound.aenintr (h : Sound env b) (hc : b.ClearsNone .intr) :
    Sound env (b.aenintr env) := by
  rw [Board.aenintr]
  cases hp : b.phase with
  | outside =>
      exact h.move rfl (fun _ => h.received (by rw [hp]; exact id))
        fun j _ => h.sent j (by rw [hp]; exact id)
  | read status =>
      have hr := h.received (by rw [hp]; exact id)
      have ht := fun j => h.sent j (by rw [hp]; exact id)
      dsimp only
      split
      · refine h.move (by split <;> rfl) (fun hnot hcomp => ?_) fun j hnot hq => ?_
        · change (b.csr0.rint && !status.rint) = true
          rw [Phase.afterAck_toReceive hnot, hr hcomp]
          rfl
        · refine (ht j hq).imp_right fun htint => ?_
          change (b.csr0.tint && !status.tint) = true
          rw [Phase.afterAck_toTransmit hnot, htint]
          rfl
      · exact h.move rfl (fun _ => hr) fun j _ => ht j
  | receiving status =>
      dsimp only
      rcases receiveTurn_cases env b.rx h.index with ⟨hs, hnot⟩ | ⟨l, hl, sink, hhost, hs⟩ | hs
      · rw [hs]
        exact h.move rfl (fun _ hcomp => absurd hcomp hnot) fun j hj =>
          h.sent j (by
            rw [hp]
            exact Bool.eq_false_iff.mp (Phase.afterReceive_toTransmit hj))
      · rw [hs]
        dsimp only
        obtain ⟨n, hn⟩ := h.filled
        refine ⟨?_, h.txIndex, ⟨_, hn.gives h.index hl hhost⟩, h.closed,
          fun hnot => absurd trivial hnot, fun j hj => h.sent j (by rw [hp]; exact hj)⟩
        rw [RxRing.gives_index _ l h.index]
        exact Nat.mod_lt _ (by decide)
      · rw [hs]
        exact h
  | transmitting status js => exact h.transmitTurn hp
  | erring status =>
      obtain ⟨hr, ht⟩ := hc status hp
      refine h.move rfl (fun _ hcomp => ?_) fun j _ hq => ?_
      · have hrint := h.received (by rw [hp]; exact id) hcomp
        rw [hrint, Bool.true_and] at hr
        change (b.csr0.rint && !status.rint) = true
        rw [hrint, hr]
        rfl
      · refine (h.sent j (by rw [hp]; exact id) hq).imp_right fun htint => ?_
        rw [htint, Bool.true_and] at ht
        change (b.csr0.tint && !status.tint) = true
        rw [htint, ht]
        rfl

/-! ### The steps of the chip -/

theorem own_filled (d : Ringptr) (mode : Byte) (count : BitVec 16) :
    ({ d with mode := mode &&& ~~~RMD1_OWN, count := count } : Ringptr).own = false := by
  change (mode &&& ~~~RMD1_OWN &&& RMD1_OWN != 0) = false
  rw [BitVec.and_assoc]
  exact bne_eq_false_iff_eq.mpr BitVec.and_zero

theorem enp_filled (d : Ringptr) (mode : Byte) (count : BitVec 16) :
    ({ d with mode := mode &&& ~~~RMD1_OWN, count := count } : Ringptr).enp =
      (mode &&& RMD1_ENP != 0) := by
  change (mode &&& ~~~RMD1_OWN &&& RMD1_ENP != 0) = _
  rw [BitVec.and_assoc]
  rfl

theorem Sound.chipRx (h : Sound env b) (mode : Byte) (count : BitVec 16) :
    Sound env (b.chipRx mode count) := by
  rw [Board.chipRx]
  dsimp only
  split
  case isFalse => exact h
  case isTrue hown =>
    obtain ⟨n, hn⟩ := h.filled
    have hlt := (hn.own_iff h.index).mp hown
    refine ⟨h.index, h.txIndex, ⟨n + 1, hn.fill h.index hlt (own_filled _ mode count)⟩, h.closed,
      fun hp hc => ?_, h.sent⟩
    dsimp only
    cases henp : (mode &&& RMD1_ENP != 0) with
    | true => exact Bool.or_true _
    | false =>
        rw [Bool.or_false]
        exact h.received hp (hn.completed_of_fill h.index hlt
          ((enp_filled _ mode count).trans henp) hc)

theorem Sound.chipTx (h : Sound env b) (k : Fin TXCOUNT) : Sound env (b.chipTx k) := by
  rw [Board.chipTx]
  split
  · exact ⟨h.index, h.txIndex, h.filled, h.closed, h.received, fun _ _ _ => .inr rfl⟩
  · exact h

theorem Sound.step (h : Sound env b) {e : BoardEvent} (hc : b.ClearsNone e) :
    Sound env (b.step env e) := by
  cases e with
  | rx mode count => exact h.chipRx mode count
  | tx k => exact h.chipTx k
  | err merr miss cerr babl => exact h.move rfl h.received h.sent
  | write j mp =>
      rw [Board.step]
      split
      case h_1 hp =>
        split
        case isTrue hj => exact h.unitdataReq hp hj mp
        case isFalse => exact h
      case h_2 => exact h
  | intr => exact h.aenintr hc

theorem Sound.settled (h : Sound env b) : b.Settled := by
  intro hp hintr
  rw [Csr0.intr] at hintr
  simp only [Bool.or_eq_false_iff] at hintr
  refine ⟨fun hc => ?_, fun ⟨j, hj⟩ => ?_⟩
  · have hrint := h.received (by rw [hp]; exact id) hc
    rw [hintr.1.1.1.2] at hrint
    exact absurd hrint Bool.false_ne_true
  · refine (h.sent j (by rw [hp]; exact id) hj).resolve_right fun htint => ?_
    rw [hintr.1.1.1.1.2] at htint
    exact absurd htint Bool.false_ne_true

theorem running_own (ptr : BitVec 16) (sink : Sink) (k : ℕ) :
    ((Board.running ptr sink).rx.ring.nth k).own = true := by
  change (RMD1_OWN &&& RMD1_OWN != 0) = true
  decide

theorem running_sound (env : Env) (ptr : BitVec 16) (sink : Sink) :
    Sound env (Board.running ptr sink) where
  index := Nat.succ_pos _
  txIndex := Nat.succ_pos _
  filled := ⟨0, Nat.zero_le _, rfl, fun k hk => absurd hk (Nat.not_lt_zero k),
    fun k _ _ => running_own ptr sink k⟩
  closed _ _ := rfl
  received _ hc := by
    obtain ⟨m, -, -, hown, -⟩ := hc
    rw [running_own] at hown
    exact absurd hown.symm Bool.false_ne_true
  sent _ _ hq := absurd rfl hq

end

/-- In every run in which the second write of `status` clears no RINT and no TINT
that came since the first, nothing is left behind: outside `aenintr` and without
an interrupt of the chip, no frame stands at the index, and where a stream waits
the chip has a descriptor to send. -/
theorem interrupts_settled (env : Env) (ptr : BitVec 16) (sink : Sink) (es : List BoardEvent)
    (h : Every (Board.step env) Board.ClearsNone (Board.running ptr sink) es) :
    (final (Board.step env) (Board.running ptr sink) es).Settled :=
  (final_of_every (Sound env) (fun _ _ hs hc => hs.step hc) (running_sound env ptr sink) h).settled

/-- One frame, and the routine for it. -/
theorem interrupts_settled_frame :
    ¬ (final (Board.step bareEnv) (Board.running 0 (uniformRx 0 0).sink)
        [.rx 3 64, .intr, .intr, .intr, .intr]).rx.ring.Completed ∧
      ((∃ j, (final (Board.step bareEnv) (Board.running 0 (uniformRx 0 0).sink)
        [.rx 3 64, .intr, .intr, .intr, .intr]).q j ≠ []) →
      (final (Board.step bareEnv) (Board.running 0 (uniformRx 0 0).sink)
        [.rx 3 64, .intr, .intr, .intr, .intr]).Sending) :=
  interrupts_settled bareEnv 0 (uniformRx 0 0).sink [.rx 3 64, .intr, .intr, .intr, .intr]
    ⟨trivial, nofun, nofun, nofun, nofun, trivial⟩ rfl rfl

/-- A second frame comes between the two writes of `status`, which has MISS. -/
theorem interrupts_settled_fails :
    ¬ ∀ (env : Env) (ptr : BitVec 16) (sink : Sink) (es : List BoardEvent),
      (final (Board.step env) (Board.running ptr sink) es).Settled := by
  intro h
  have hs := h bareEnv 0 (uniformRx 0 0).sink
    [.rx 3 64, .err false true false false, .intr, .intr, .intr, .intr, .rx 3 64, .intr] rfl rfl
  exact hs.1 ⟨0, by decide, fun k hk => absurd hk (Nat.not_lt_zero k), rfl, rfl⟩

end HydraAmix.Aen
