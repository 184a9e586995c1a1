import HydraAmix.Hydra.BoundStreams

/-!
# Requests that cannot be answered

A DLPI request is carried out and acknowledged, or there is no memory for the
acknowledgement and it is not carried out. DL_BIND_REQ alone changes the stream
before it asks for that memory, so without memory it leaves a bound stream whose
user was never told.
-/
namespace HydraAmix.Hydra
open Word Program Prog DlState Binds

/-- The message that an operation frees. -/
def Op.freed : {β : Type} → Op β → List Msg
  | _, .freemsg mp => [mp]
  | _, _ => []

/-- What an operation sends upstream, and to which stream. -/
def Op.sent : {β : Type} → Op β → List (QId × Up)
  | _, .putnext q mp => [(q, mp)]
  | _, _ => []

/-- What a request asks to be made of the stream. -/
def HydraT.carryOut (hp : HydraT) (prim sap : Long) : HydraT :=
  if prim = DL_ATTACH_REQ then { hp with state := DL_UNBOUND }
  else if prim = DL_BIND_REQ then { hp with state := DL_IDLE, sap := sap.setWidth 16 }
  else if prim = DL_UNBIND_REQ then { hp with state := DL_UNBOUND, sap := 0 }
  else if prim = DL_DETACH_REQ then { hp with state := DL_UNATTACHED }
  else hp

/-- The acknowledgement names the request, and says what the stream is now. -/
def Up.Acknowledges (prim : Long) (hp : HydraT) : Up → Prop
  | .okAck p => p = prim ∧ prim ≠ DL_BIND_REQ ∧ prim ≠ DL_INFO_REQ
  | .bindAck sap _ => prim = DL_BIND_REQ ∧ sap = hp.sap
  | .infoAck ack => prim = DL_INFO_REQ ∧ ack.currentState = hp.state
  | _ => False

namespace World

/-- The requests that are acknowledged. -/
def Asks (w : World) (mp : Msg) : Prop :=
  w.primitive mp ∈ [DL_ATTACH_REQ, DL_BIND_REQ, DL_UNBIND_REQ, DL_DETACH_REQ, DL_INFO_REQ]

instance (w : World) (mp : Msg) : Decidable (w.Asks mp) := by
  unfold Asks
  infer_instance

/-- The request is freed once. With memory for the answer it is carried out and
acknowledged once; without, the streams stay as they were. -/
structure Atomic (w : World) (q : QId) (t : Slot) (mp : Msg) : Prop where
  freed : collect exec Op.freed (hydraproto q mp) w = [mp]
  answered : w.allocs 0 = true →
    (run exec (hydraproto q mp) w).2.drv.slot =
      Function.update w.drv.slot t ((w.drv.slot t).carryOut (w.primitive mp) (w.dlSap mp)) ∧
    ∃ ack : Up, collect exec Op.sent (hydraproto q mp) w = [(q, ack)] ∧
      ack.Acknowledges (w.primitive mp) ((run exec (hydraproto q mp) w).2.drv.slot t)
  refused : w.allocs 0 = false →
    (run exec (hydraproto q mp) w).2.drv.slot = w.drv.slot ∧
    collect exec Op.sent (hydraproto q mp) w = []

end World

section
variable {w : World} {q : QId} {t : Slot} {mp : Msg}

/-- Reading the fields of a request neither frees nor sends. -/
theorem collect_peekLong {γ : Type} {f : {β : Type} → Op β → List γ}
    (hf : ∀ buf i, f (.peek buf i) = []) (buf : List Byte) (i : ℤ) (w : World) :
    collect exec f (peekLong buf i) w = [] := by
  have hpeek : ∀ (i : ℤ) (w : World), collect exec f (peek buf i) w = [] := fun i w => by
    rw [collect_perform, hf]
  simp only [peekLong, collect_bind, collect_pure, hpeek, List.append_nil]

/-- What is collected of a request is what its handler says. -/
theorem collect_hydraproto {γ : Type} {f : {β : Type} → Op β → List γ}
    (hf : ∀ buf i, f (.peek buf i) = []) (hw : f (.wptr q) = []) (hq : w.wptr q = some t) :
    collect exec f (hydraproto q mp) w =
      collect exec f (protoSwitch q t mp (w.primitive mp)) w := by
  rw [hydraproto, collect_bind, collect_perform, hw, run_wrPtr, hq]
  dsimp only
  rw [collect_bind, collect_peekLong hf, List.nil_append, List.nil_append]
  rfl

/-- The acknowledgement that was asked for, where there is memory for it. -/
theorem okAck_sent (w : World) (q : QId) (t : Slot) (prim : Long) (f : HydraT → HydraT) :
    collect exec Op.sent (okAck q t prim f) w =
      if w.allocs 0 then [(q, .okAck prim)] else [] := by
  rw [okAck, collect_bind, collect_perform, run_allocb, collect_ite]
  cases h : w.allocs 0 with
  | true => rfl
  | false => rfl

theorem okAck_freed (w : World) (q : QId) (t : Slot) (prim : Long) (f : HydraT → HydraT) :
    collect exec Op.freed (okAck q t prim f) w = [] := by
  rw [okAck, collect_bind, collect_perform, run_allocb, collect_ite]
  cases h : w.allocs 0 with
  | true => rfl
  | false => rfl

/-- The SAP of the acknowledgement is the one that the stream has been given. -/
theorem bindReq_sent (w : World) (q : QId) (t : Slot) (mp : Msg) :
    ∃ addr, collect exec Op.sent (bindReq q t mp) w =
      if w.allocs 0 then [(q, .bindAck ((run exec (bindReq q t mp) w).2.drv.slot t).sap addr)]
      else [] := by
  have hpeek : run exec (peekLong mp.block 4) w = (w.dlSap mp, w) := by rfl
  have hstored : ∀ g v, collect exec Op.sent (modifySlot t g) v = [] := fun _ _ => rfl
  have hcounted : ∀ b g v, collect exec Op.sent (modifyStatus b g) v = [] := fun _ _ _ => rfl
  cases h : w.allocs 0 with
  | true =>
      refine ⟨((run exec (bindReq q t mp) w).2.drv.board (w.drv.slot t).boardIndex).info.paddress,
        ?_⟩
      simp [bindReq, collect_peekLong (f := Op.sent) fun _ _ => rfl, hpeek, hstored, hcounted, h,
        Op.sent]
  | false =>
      refine ⟨.replicate 6 0, ?_⟩
      simp [bindReq, collect_peekLong (f := Op.sent) fun _ _ => rfl, hpeek, hstored, hcounted, h,
        Op.sent]

theorem bindReq_freed (w : World) (q : QId) (t : Slot) (mp : Msg) :
    collect exec Op.freed (bindReq q t mp) w = [mp] := by
  have hpeek : run exec (peekLong mp.block 4) w = (w.dlSap mp, w) := by rfl
  have hstored : ∀ g v, collect exec Op.freed (modifySlot t g) v = [] := fun _ _ => rfl
  have hcounted : ∀ b g v, collect exec Op.freed (modifyStatus b g) v = [] := fun _ _ _ => rfl
  simp [bindReq, collect_peekLong (f := Op.freed) fun _ _ => rfl, hpeek, hstored, hcounted,
    Op.freed]

/-- The state in the acknowledgement is that of the stream. -/
theorem infoReq_sent (w : World) (q : QId) (t : Slot) :
    (w.allocs 0 = true → ∃ ack : DlInfoAck, collect exec Op.sent (infoReq q t) w =
      [(q, .infoAck ack)] ∧ ack.currentState = (w.drv.slot t).state) ∧
    (w.allocs 0 = false → collect exec Op.sent (infoReq q t) w = []) := by
  simp only [infoReq, collect_bind, run_load, run_allocb, collect_perform, collect_ite]
  refine ⟨fun h => ?_, fun h => ?_⟩
  · rw [h]
    exact ⟨_, rfl, rfl⟩
  · rw [h]
    rfl

theorem infoReq_freed (w : World) (q : QId) (t : Slot) :
    collect exec Op.freed (infoReq q t) w = [] := by
  simp only [infoReq, collect_bind, run_load, run_allocb, collect_perform, collect_ite]
  cases h : w.allocs 0 with
  | true => rfl
  | false => rfl

/-- A handler frees the request once, and where there is memory for it sends one
acknowledgement, which says what the stream has become. -/
structure Answers (w : World) (q : QId) (t : Slot) (mp : Msg) (p : HydraM ℕ) : Prop where
  freed : collect exec Op.freed p w = [mp]
  sent : w.allocs 0 = true → ∃ ack : Up, collect exec Op.sent p w = [(q, ack)] ∧
    ack.Acknowledges (w.primitive mp) ((run exec p w).2.drv.slot t)
  silent : w.allocs 0 = false → collect exec Op.sent p w = []

theorem okAck_answers {prim : Long} (hp : w.primitive mp = prim) (hb : prim ≠ DL_BIND_REQ)
    (hi : prim ≠ DL_INFO_REQ) (f : HydraT → HydraT) :
    Answers w q t mp (do freemsg mp; okAck q t prim f; return 1) where
  freed := by
    rw [collect_bind, collect_bind, run_freemsg, okAck_freed]
    rfl
  sent h := by
    rw [collect_bind, collect_bind, run_freemsg, okAck_sent, h]
    exact ⟨.okAck prim, rfl, hp.symm, hp ▸ hb, hp ▸ hi⟩
  silent h := by
    rw [collect_bind, collect_bind, run_freemsg, okAck_sent, h]
    rfl

theorem bindReq_answers (hp : w.primitive mp = DL_BIND_REQ) :
    Answers w q t mp (do bindReq q t mp; return 1) where
  freed := by
    rw [collect_bind, bindReq_freed]
    rfl
  sent h := by
    obtain ⟨addr, hsent⟩ := bindReq_sent w q t mp
    rw [collect_bind, hsent, h, run_bind, run_pure]
    exact ⟨.bindAck _ addr, rfl, hp, rfl⟩
  silent h := by
    obtain ⟨addr, hsent⟩ := bindReq_sent w q t mp
    rw [collect_bind, hsent, h]
    rfl

theorem infoReq_answers (hp : w.primitive mp = DL_INFO_REQ) :
    Answers w q t mp (do freemsg mp; infoReq q t; return 1) where
  freed := by
    rw [collect_bind, collect_bind, run_freemsg, infoReq_freed]
    rfl
  sent h := by
    obtain ⟨ack, hsent, hstate⟩ := (infoReq_sent w q t).1 h
    rw [collect_bind, collect_bind, run_freemsg, hsent]
    refine ⟨.infoAck ack, rfl, hp, ?_⟩
    rw [run_bind, run_freemsg, run_bind, run_pure, (infoReq_retabled w q t).drv.slot]
    exact hstate
  silent h := by
    rw [collect_bind, collect_bind, run_freemsg, (infoReq_sent w q t).2 h]
    rfl

/-- Each of the five handlers answers. -/
theorem hydraproto_answers (hq : w.wptr q = some t) (ha : w.Asks mp) :
    Answers w q t mp (hydraproto q mp) := by
  have hswitch : Answers w q t mp (protoSwitch q t mp (w.primitive mp)) := by
    rcases List.mem_cons.mp ha with hp | ha
    · rw [hp]
      exact okAck_answers hp (by decide) (by decide) _
    rcases List.mem_cons.mp ha with hp | ha
    · rw [hp]
      exact bindReq_answers hp
    rcases List.mem_cons.mp ha with hp | ha
    · rw [hp]
      exact okAck_answers hp (by decide) (by decide) _
    rcases List.mem_cons.mp ha with hp | ha
    · rw [hp]
      exact okAck_answers hp (by decide) (by decide) _
    · have hp := List.mem_singleton.mp ha
      rw [hp]
      exact infoReq_answers hp
  have hrun : (run exec (hydraproto q mp) w).2 =
      (run exec (protoSwitch q t mp (w.primitive mp)) w).2 := by
    simp only [hydraproto, run_bind, run_wrPtr, hq]
    rfl
  constructor
  · rw [collect_hydraproto (f := Op.freed) (fun _ _ => rfl) rfl hq]
    exact hswitch.freed
  · rw [collect_hydraproto (f := Op.sent) (fun _ _ => rfl) rfl hq, hrun]
    exact hswitch.sent
  · rw [collect_hydraproto (f := Op.sent) (fun _ _ => rfl) rfl hq]
    exact hswitch.silent

/-- With memory for the answer a request is carried out; without, only a bind is. -/
theorem World.asked_eq (w : World) (mp : Msg) (hp : HydraT) :
    w.asked mp hp = if w.allocs 0 = true ∨ w.primitive mp = DL_BIND_REQ then
      hp.carryOut (w.primitive mp) (w.dlSap mp) else hp := by
  unfold World.asked HydraT.carryOut
  split_ifs <;> simp_all

theorem hydraproto_slot (hq : w.wptr q = some t) : (run exec (hydraproto q mp) w).2.drv.slot =
    Function.update w.drv.slot t
      (if w.allocs 0 = true ∨ w.primitive mp = DL_BIND_REQ then
        (w.drv.slot t).carryOut (w.primitive mp) (w.dlSap mp) else w.drv.slot t) := by
  rw [(hydraproto_retabled mp hq).drv.slot, World.asked_eq]

/-- A bind is atomic without memory only where it changes nothing. -/
theorem World.Atomic.bound (h : w.Atomic q t mp) (hq : w.wptr q = some t)
    (hb : w.primitive mp = DL_BIND_REQ) (hm : w.allocs 0 = false) :
    (w.drv.slot t).state = DL_IDLE ∧ (w.drv.slot t).sap = (w.dlSap mp).setWidth 16 := by
  have hkept := congrFun (h.refused hm).1 t
  rw [hydraproto_slot hq, Function.update_self, if_pos (.inr hb), hb] at hkept
  rw [← hkept]
  exact ⟨rfl, rfl⟩

/-- A request is atomic but where a bind finds no memory for its answer and changes
the stream. -/
theorem hydraproto_atomic (w : World) (q : QId) (t : Slot) (mp : Msg) (hq : w.wptr q = some t)
    (ha : w.Asks mp) : w.Atomic q t mp ↔
      (w.primitive mp = DL_BIND_REQ → w.allocs 0 = false →
        (w.drv.slot t).state = DL_IDLE ∧ (w.drv.slot t).sap = (w.dlSap mp).setWidth 16) := by
  have hans := hydraproto_answers hq ha
  have hslot := @hydraproto_slot w q t mp hq
  refine ⟨fun h => h.bound hq, fun h => ?_⟩
  refine ⟨hans.freed, fun hm => ⟨?_, hans.sent hm⟩, fun hm => ⟨?_, hans.silent hm⟩⟩
  · rw [hslot, if_pos (.inl hm)]
  · rw [hslot]
    refine (congrArg _ ?_).trans (Function.update_eq_self t _)
    split_ifs with hc
    · have hb := hc.resolve_left (by rw [hm]; exact Bool.false_ne_true)
      obtain ⟨hstate, hsap⟩ := h hb hm
      rw [hb]
      change { w.drv.slot t with state := DL_IDLE, sap := (w.dlSap mp).setWidth 16 } = _
      rw [← hstate, ← hsap]
    · rfl

end

/-! ### A bind without memory -/

/-- Stream 1 is attached at a slot, on a machine that has no memory. -/
def World.spent (t : Slot) : World :=
  { World.off with
    drv := World.off.drv.modifyBoard t.board fun bd =>
      { bd with hydra := Function.update bd.hydra t.dev ⟨some 1, DL_UNBOUND, t.board, 0, 0⟩ }
    rptr := Function.update (fun _ => none) 1 (some t)
    wptr := Function.update (fun _ => none) 1 (some t)
    allocs := fun _ => false }

/-- An unbind that finds no memory leaves the stream as it was. -/
theorem hydraproto_atomic_unbind :
    (World.spent ⟨0, 0⟩).Atomic 1 ⟨0, 0⟩ ⟨[0, 0, 0, 2], []⟩ :=
  (hydraproto_atomic (World.spent ⟨0, 0⟩) 1 ⟨0, 0⟩ ⟨[0, 0, 0, 2], []⟩ rfl (by decide)).mpr
    fun h => absurd h (by decide)

/-- A bind that finds no memory leaves the stream bound. -/
theorem hydraproto_atomic_fails :
    ¬ ∀ (w : World) (q : QId) (t : Slot) (mp : Msg), w.wptr q = some t → w.Asks mp →
      w.Atomic q t mp := by
  intro h
  have hidle := (h (World.spent ⟨0, 0⟩) 1 ⟨0, 0⟩ bindIp rfl (by decide)).bound rfl (by decide) rfl
  exact absurd hidle.1 (by decide)

end HydraAmix.Hydra
