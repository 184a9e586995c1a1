import HydraAmix.Hydra.Indications
import HydraAmix.Hydra.Streams
import HydraAmix.Hydra.TransmitStall

/-!
# Data and bound streams

`toss_packet_up_stream` hands a frame to the streams whose `sap` is its type, and
does not look at their `state`. The two go apart where a bound stream is attached
or detached, and where a SAP of more than 16 bits is bound; type 0 is the `sap` of
every stream that is not bound; and DL_BIND_REQ binds before it knows that there is
memory for the answer. In a run without these, data goes to bound streams of its
type only.
-/
namespace HydraAmix.Hydra
open Word Program Prog Schedule DlState BoardState OpenFlag

/-! ### Requests -/

namespace World

/-- The SAP that `hydraproto` reads in a DL_BIND_REQ. -/
def dlSap (w : World) (mp : Msg) : Long := (run exec (peekLong mp.block 4) w).1

/-- What a request makes of the stream; `w.allocs 0` is whether there is memory for
the answer. -/
def asked (w : World) (mp : Msg) (hp : HydraT) : HydraT :=
  if w.primitive mp = DL_ATTACH_REQ then
    if w.allocs 0 then { hp with state := DL_UNBOUND } else hp
  else if w.primitive mp = DL_BIND_REQ then
    { hp with sap := (w.dlSap mp).setWidth 16, state := DL_IDLE }
  else if w.primitive mp = DL_UNBIND_REQ then
    if w.allocs 0 then { hp with state := DL_UNBOUND, sap := 0 } else hp
  else if w.primitive mp = DL_DETACH_REQ then
    if w.allocs 0 then { hp with state := DL_UNATTACHED } else hp
  else hp

/-- The table of slots is `table`; pointers, states and bases are as they were. -/
structure Retabled (w w' : World) (table : Slot → HydraT) : Prop where
  rptr : w'.rptr = w.rptr
  wptr : w'.wptr = w.wptr
  drv : w.drv.Retabled w'.drv table

theorem Retabled.of_countersOnly {w w' : World} (hr : w'.rptr = w.rptr) (hw : w'.wptr = w.wptr)
    (h : w.drv.CountersOnly w'.drv) : w.Retabled w' w.drv.slot :=
  ⟨hr, hw, ⟨h.autoconfig, funext fun t => congrFun (h.hydra t.board) t.dev, h.info, h.state⟩⟩

end World

section
variable {w : World} {q : QId} {t : Slot} {mp : Msg}

theorem Driver.CountersOnly.refl (d : Driver) : d.CountersOnly d :=
  ⟨rfl, fun _ => rfl, fun _ => rfl, fun _ => rfl⟩

theorem unitdataReq_retabled (mp : Msg) (hq : w.wptr q = some t) :
    w.Retabled (run exec (unitdataReq q mp) w).2 w.drv.slot := by
  by_cases hw : w.wq q = []
  · have hx : ∃ r w', run exec (hydraxmit q mp) w = (r, w') ∧ w'.rptr = w.rptr ∧
        w'.wptr = w.wptr ∧ w.drv.CountersOnly w'.drv := by
      cases ht : (w.nic (w.drv.slot t).boardIndex).txp with
      | true => exact ⟨_, _, hydraxmit_busy w _ mp hq rfl ht, rfl, rfl, .refl _⟩
      | false =>
          obtain ⟨d, n, frame, hd, -, -, -, -, -, hrun⟩ := hydraxmit_idle w _ mp hq rfl ht
          exact ⟨_, _, hrun, rfl, rfl, hd⟩
    obtain ⟨r, w', hrun, hr, hp, hd⟩ := hx
    have hreq : run exec (unitdataReq q mp) w =
        if r then ((), w') else ((), w'.setWq q (w'.wq q ++ [mp])) := by
      cases r with
      | true => simp [unitdataReq, hw, hrun]
      | false => simp [unitdataReq, hw, hrun]
    rw [hreq]
    cases r with
    | true => exact .of_countersOnly hr hp hd
    | false => exact .of_countersOnly hr hp hd
  · rw [unitdataReq_busy w hw]
    exact .of_countersOnly rfl rfl (.refl _)

/-- A request that is answered first and then carried out. -/
theorem okAck_retabled (w : World) (q : QId) (t : Slot) (prim : Long) (f : HydraT → HydraT) :
    w.Retabled (run exec (okAck q t prim f) w).2 (Function.update w.drv.slot t
      (if w.allocs 0 then f (w.drv.slot t) else w.drv.slot t)) := by
  cases h : w.allocs 0 with
  | true =>
      have hrun : (run exec (okAck q t prim f) w).2 = w.useAlloc.setDrv (w.drv.modifyBoard t.board
          fun bd => { bd with hydra := Function.update bd.hydra t.dev (f (bd.hydra t.dev)) }) := by
        simp [okAck, h]
      rw [hrun]
      exact ⟨rfl, rfl, w.drv.retabled_update t f⟩
  | false =>
      have hrun : (run exec (okAck q t prim f) w).2 = w.useAlloc := by simp [okAck, h]
      rw [hrun, if_neg Bool.false_ne_true, Function.update_eq_self]
      exact .of_countersOnly rfl rfl (.refl _)

theorem Driver.Retabled.update {d d₁ : Driver} {table : Slot → HydraT} (h : d.Retabled d₁ table)
    (s : Slot) (f : HydraT → HydraT) :
    d.Retabled (d₁.modifyBoard s.board fun bd =>
      { bd with hydra := Function.update bd.hydra s.dev (f (bd.hydra s.dev)) })
      (Function.update table s (f (table s))) := by
  have hf := d₁.retabled_update s f
  exact ⟨hf.autoconfig.trans h.autoconfig, h.slot ▸ hf.slot, fun b => (hf.info b).trans (h.info b),
    fun b => (hf.state b).trans (h.state b)⟩

/-- A bind is carried out whether there is memory for the answer or not. -/
theorem bindReq_retabled (w : World) (q : QId) (t : Slot) (mp : Msg) :
    w.Retabled (run exec (bindReq q t mp) w).2 (Function.update w.drv.slot t
      { w.drv.slot t with sap := (w.dlSap mp).setWidth 16, state := DL_IDLE }) := by
  have hsap := w.drv.retabled_update t fun h => { h with sap := (w.dlSap mp).setWidth 16 }
  have hboth := (hsap.counters (.modifyBoard _ (w.drv.slot t).boardIndex
    (g := fun bd => { bd with status := { bd.status with
      lastBoundSap := ((w.dlSap mp).setWidth 16 : BitVec 16).toNat } })
    rfl rfl rfl)).update t fun h => { h with state := DL_IDLE }
  rw [Function.update_self, Function.update_idem] at hboth
  generalize hd : Driver.modifyBoard _ t.board _ = d at hboth
  have hpeek : run exec (peekLong mp.block 4) w = (w.dlSap mp, w) := by rfl
  have hrun : (run exec (bindReq q t mp) w).2 = w.useAlloc.setDrv d := by
    rw [← hd]
    simp only [bindReq, run_bind, run_load, hpeek, modifySlot_run, modifyStatus_run, run_freemsg,
      run_allocb, World.setDrv_allocs, run_ite]
    split_ifs
    · rfl
    · rfl
  rw [hrun]
  exact ⟨rfl, rfl, hboth⟩

theorem infoReq_retabled (w : World) (q : QId) (t : Slot) :
    w.Retabled (run exec (infoReq q t) w).2 w.drv.slot := by
  have hrun : (run exec (infoReq q t) w).2 = w.useAlloc := by
    simp only [infoReq, run_bind, run_load, run_allocb, run_ite]
    split_ifs <;> rfl
  rw [hrun]
  exact .of_countersOnly rfl rfl (.refl _)

/-- What `hydraproto` does to the slots. -/
theorem hydraproto_retabled (mp : Msg) (hq : w.wptr q = some t) :
    w.Retabled (run exec (hydraproto q mp) w).2
      (Function.update w.drv.slot t (w.asked mp (w.drv.slot t))) := by
  have hrun : (run exec (hydraproto q mp) w).2 =
      (run exec (protoSwitch q t mp (w.primitive mp)) w).2 := by
    simp only [hydraproto, run_bind, run_wrPtr, hq]
    rfl
  rw [hrun]
  have hnone : w.Retabled w (Function.update w.drv.slot t (w.drv.slot t)) := by
    rw [Function.update_eq_self]
    exact .of_countersOnly rfl rfl (.refl _)
  unfold protoSwitch World.asked
  by_cases hdata : w.primitive mp = DL_UNITDATA_REQ
  · rw [if_pos hdata, hdata, if_neg (by decide), if_neg (by decide), if_neg (by decide),
      if_neg (by decide), Function.update_eq_self, run_bind, run_pure]
    exact unitdataReq_retabled mp hq
  rw [if_neg hdata]
  by_cases hattach : w.primitive mp = DL_ATTACH_REQ
  · rw [if_pos hattach, if_pos hattach, run_bind, run_freemsg, run_bind, run_pure]
    exact okAck_retabled w q t _ _
  rw [if_neg hattach, if_neg hattach]
  by_cases hbind : w.primitive mp = DL_BIND_REQ
  · rw [if_pos hbind, if_pos hbind, run_bind, run_pure]
    exact bindReq_retabled w q t mp
  rw [if_neg hbind, if_neg hbind]
  by_cases hinfo : w.primitive mp = DL_INFO_REQ
  · rw [if_pos hinfo, hinfo, if_neg (by decide), if_neg (by decide), Function.update_eq_self,
      run_bind, run_freemsg, run_bind, run_pure]
    exact infoReq_retabled w q t
  rw [if_neg hinfo]
  by_cases hunbind : w.primitive mp = DL_UNBIND_REQ
  · rw [if_pos hunbind, if_pos hunbind, run_bind, run_freemsg, run_bind, run_pure]
    exact okAck_retabled w q t _ _
  rw [if_neg hunbind, if_neg hunbind]
  by_cases hdetach : w.primitive mp = DL_DETACH_REQ
  · rw [if_pos hdetach, if_pos hdetach, run_bind, run_freemsg, run_bind, run_pure]
    exact okAck_retabled w q t _ _
  rw [if_neg hdetach, if_neg hdetach]
  exact hnone

end

/-- A slot in use is as before an open, or newly taken. -/
theorem OpenOutcome.slot {w : World} {q q' : QId} {dev : Dev} {sflag : OpenFlag}
    {r : (Option Errno × Dev) × World} (hr : OpenOutcome w q dev sflag r) {u : Slot}
    (hq : (r.2.drv.slot u).q = some q') : r.2.drv.slot u = w.drv.slot u ∨
      (r.2.drv.slot u).state = DL_UNATTACHED ∧ (r.2.drv.slot u).sap = 0 := by
  have hstart : ∀ b a n, ((w.start b a n).drv.slot u).q = some q' →
      (w.start b a n).drv.slot u = w.drv.slot u := fun b a n hu => by
    rw [World.start, World.setNic_drv, World.setDrv_drv, Driver.slot_start] at hu ⊢
    split_ifs at hu ⊢
    rfl
  have htake : ∀ (v : World) t, ((run exec (takeSlot q t) v).2.drv.slot u).q = some q' →
      (run exec (takeSlot q t) v).2.drv.slot u = v.drv.slot u ∨
        ((run exec (takeSlot q t) v).2.drv.slot u).state = DL_UNATTACHED ∧
          ((run exec (takeSlot q t) v).2.drv.slot u).sap = 0 := fun v t _ => by
    obtain ⟨d, ht, hrun⟩ := takeSlot_run v q t
    rw [hrun, World.setDrv_drv, ht.slot]
    by_cases hut : u = t
    · subst hut
      rw [Function.update_self]
      exact .inr ⟨rfl, rfl⟩
    · rw [Function.update_of_ne hut]
      exact .inl rfl
  cases hr with
  | refused err => exact .inl rfl
  | busy flag t => exact .inl rfl
  | absent b reset none =>
      refine .inl ?_
      by_cases hb : u.board = b
      all_goals simp [Driver.slot, hb]
  | wasted flag b a n => exact .inl (hstart b a n hq)
  | taken t => exact htake w t hq
  | started t a n =>
      rcases htake _ t hq with he | hnew
      · refine .inl (he.trans (hstart t.board a n ?_))
        rw [← he]
        exact hq
      · exact .inr hnew

/-- Changes of the slots that open and close none. -/
theorem Streams.Owned.retabled {s : Streams} (h : s.Owned) {w : World} {table : Slot → HydraT}
    (hr : s.world.Retabled w table) (hq : ∀ t, (table t).q = (s.world.drv.slot t).q)
    (hi : ∀ t, (table t).boardIndex = (s.world.drv.slot t).boardIndex) :
    Streams.Owned ⟨w, s.opened⟩ := by
  refine h.congr (fun t => ?_) (fun t => ?_) hr.rptr hr.wptr (fun b hb => ?_) fun b hb => ?_
  · rw [hr.drv.slot, hq]
  · rw [hr.drv.slot, hi]
  · rw [hr.drv.state, hb]
  · rw [hr.drv.info]
    rw [hr.drv.state] at hb
    exact h.base b hb

theorem World.asked_q (w : World) (mp : Msg) (hp : HydraT) : (w.asked mp hp).q = hp.q := by
  unfold asked
  split_ifs <;> rfl

theorem World.asked_boardIndex (w : World) (mp : Msg) (hp : HydraT) :
    (w.asked mp hp).boardIndex = hp.boardIndex := by
  unfold asked
  split_ifs <;> rfl

/-- A stream with a SAP is bound, and a bound stream has the SAP of its latest bind. -/
structure HydraT.Agrees (hp : HydraT) (bound : Option Long) : Prop where
  idle : hp.sap ≠ 0 → hp.state = DL_IDLE
  bound : hp.state = DL_IDLE → bound = some (hp.sap.setWidth 32)

theorem HydraT.Agrees.of_unbound {hp : HydraT} {bound : Option Long} (hs : hp.state ≠ DL_IDLE)
    (hz : hp.sap = 0) : hp.Agrees bound :=
  ⟨fun hne => absurd hz hne, fun hidle => absurd hidle hs⟩

/-- A request leaves the stream as its latest bind says. -/
theorem HydraT.Agrees.asked {hp : HydraT} {bound : Option Long} (h : hp.Agrees bound) (w : World)
    (mp : Msg)
    (hz : w.primitive mp = DL_ATTACH_REQ ∨ w.primitive mp = DL_DETACH_REQ → w.allocs 0 = true →
      hp.sap = 0)
    (hb : w.primitive mp = DL_BIND_REQ → (w.dlSap mp).toNat < 65536 ∧
      (w.allocs 0 = true ∨ bound = some (w.dlSap mp))) :
    (w.asked mp hp).Agrees (if w.primitive mp = DL_BIND_REQ ∧ w.allocs 0 = true then
      some (w.dlSap mp) else bound) := by
  unfold World.asked
  by_cases hbind : w.primitive mp = DL_BIND_REQ
  · obtain ⟨hlt, hmem⟩ := hb hbind
    have hsap : ((w.dlSap mp).setWidth 16).setWidth 32 = w.dlSap mp := by
      apply BitVec.eq_of_toNat_eq
      rw [BitVec.toNat_setWidth, BitVec.toNat_setWidth, Nat.mod_eq_of_lt hlt]
      omega
    rw [hbind, if_neg (by decide), if_pos rfl]
    refine ⟨fun _ => rfl, fun _ => ?_⟩
    rw [hsap]
    split_ifs with hc
    · rfl
    · exact hmem.resolve_left fun ha => hc ⟨rfl, ha⟩
  have hbound : (if w.primitive mp = DL_BIND_REQ ∧ w.allocs 0 = true then some (w.dlSap mp)
      else bound) = bound := if_neg fun hc => hbind hc.1
  rw [hbound, if_neg hbind]
  split_ifs with hattach hm hunbind hm hdetach hm
  · exact .of_unbound nofun (hz (.inl hattach) hm)
  · exact h
  · exact .of_unbound nofun rfl
  · exact h
  · exact .of_unbound nofun (hz (.inr hdetach) hm)
  · exact h
  · exact h

/-! ### Runs -/

/-- The streams, and the SAP of each one's latest DL_BIND_REQ that was answered. -/
structure Binds where
  streams : Streams
  bound : QId → Option Long

/-- What can happen. `answers` is a change of the surroundings: of the chips, of what
`canput` and `allocb` answer, and of memory outside the messages. -/
inductive BindEvent where
  | stream (e : StreamEvent)
  | hydraproto (q : QId) (mp : Msg)
  | receive (b : BoardId) (packet : List Byte)
  | answers (nic : BoardId → Nic) (canput : QId → Bool) (allocs : ℕ → Bool) (stray : ℤ → Byte)
      (auto : ℕ → Byte)

namespace Binds

def world (s : Binds) : World := s.streams.world

/-- The streams after a change of the world that opens and closes none. -/
def setWorld (s : Binds) (w : World) (bound : QId → Option Long) : Binds :=
  ⟨⟨w, s.streams.opened⟩, bound⟩

/-- The request is a DL_BIND_REQ of an open stream, and is answered. -/
def Answered (s : Binds) (q : QId) (mp : Msg) : Prop :=
  s.world.wptr q ≠ none ∧ s.world.primitive mp = DL_BIND_REQ ∧ s.world.allocs 0 = true

instance (s : Binds) (q : QId) (mp : Msg) : Decidable (s.Answered q mp) := by
  unfold Answered
  infer_instance

def step (s : Binds) : BindEvent → Binds
  | .stream (.hydraopen q dev sflag) => ⟨s.streams.step (.hydraopen q dev sflag), s.bound⟩
  | .stream (.hydraclose q) => ⟨s.streams.step (.hydraclose q), Function.update s.bound q none⟩
  | .hydraproto q mp =>
      s.setWorld (run exec (Hydra.hydraproto q mp) s.world).2
        (if s.Answered q mp then Function.update s.bound q (some (s.world.dlSap mp)) else s.bound)
  | .receive b packet =>
      s.setWorld (run exec (tossPacketUpStream b packet) s.world).2 s.bound
  | .answers nic canput allocs stray auto =>
      s.setWorld { s.world with nic := nic, canput := canput, allocs := allocs, stray := stray
                                auto := auto } s.bound

/-- The stream is bound, and to this type. -/
def Entitled (s : Binds) (sap : BitVec 16) (q : QId) : Prop :=
  ∃ t, (s.world.drv.slot t).q = some q ∧ (s.world.drv.slot t).state = DL_IDLE ∧
    s.bound q = some (sap.setWidth 32)

/-- A frame that comes in is delivered to, and matches, bound streams of its type only. -/
def Delivers (s : Binds) : BindEvent → Prop
  | .receive b packet =>
      (∀ q ∈ s.world.indicated b packet, s.Entitled (s.world.frameType b packet) q) ∧
        ∀ n q, ((s.world.drv.board b).hydra n).Matches (s.world.frameType b packet) q →
          ((s.world.drv.board b).hydra n).state = DL_IDLE
  | _ => True

/-- A stream is not attached or detached while it has a SAP; a SAP that is bound has 16
bits, and there is memory for the answer, or it was bound already; and frames of
type 0 come in only where all streams of the board are bound. -/
def InOrder (s : Binds) : BindEvent → Prop
  | .hydraproto q mp => ∀ t, s.world.wptr q = some t →
      (s.world.primitive mp = DL_ATTACH_REQ ∨ s.world.primitive mp = DL_DETACH_REQ →
        s.world.allocs 0 = true → (s.world.drv.slot t).sap = 0) ∧
      (s.world.primitive mp = DL_BIND_REQ → (s.world.dlSap mp).toNat < 65536 ∧
        (s.world.allocs 0 = true ∨ s.bound q = some (s.world.dlSap mp)))
  | .receive b packet => s.world.frameType b packet = 0 → ∀ n,
      ((s.world.drv.board b).hydra n).q ≠ none → ((s.world.drv.board b).hydra n).state = DL_IDLE
  | _ => True

structure Inv (s : Binds) : Prop where
  owned : s.streams.Owned
  agrees : ∀ t q, (s.world.drv.slot t).q = some q → (s.world.drv.slot t).Agrees (s.bound q)

variable {s : Binds} {e : BindEvent}

/-- A frame is delivered as it should be where frames of type 0 find all streams bound. -/
theorem Inv.delivers (h : s.Inv) (ha : s.InOrder e) : s.Delivers e := by
  cases e with
  | stream | hydraproto | answers => trivial
  | receive b packet =>
      have hmatch : ∀ n q, ((s.world.drv.board b).hydra n).Matches (s.world.frameType b packet) q →
          ((s.world.drv.board b).hydra n).state = DL_IDLE := fun n q hm => by
        by_cases hz : s.world.frameType b packet = 0
        · exact ha hz n (hm.q ▸ Option.some_ne_none q)
        · exact (h.agrees ⟨b, n⟩ q hm.q).idle (hm.sap ▸ hz)
      refine ⟨fun q hq => ?_, hmatch⟩
      obtain ⟨n, hm⟩ := World.matches_of_indicated hq
      have hidle := hmatch n q hm
      refine ⟨⟨b, n⟩, hm.q, hidle, ?_⟩
      rw [(h.agrees ⟨b, n⟩ q hm.q).bound hidle]
      exact congrArg (fun sap : BitVec 16 => some (sap.setWidth 32)) hm.sap

theorem Inv.hydraopen (h : s.Inv) (q : QId) (dev : Dev) (sflag : OpenFlag) :
    (s.step (.stream (.hydraopen q dev sflag))).Inv := by
  refine ⟨h.owned.step (.hydraopen q dev sflag), fun t q' hq' => ?_⟩
  change ((s.streams.step (.hydraopen q dev sflag)).world.drv.slot t).q = some q' at hq'
  change ((s.streams.step (.hydraopen q dev sflag)).world.drv.slot t).Agrees (s.bound q')
  have hsame : ∀ {hp : HydraT}, hp.q = some q' → hp = s.world.drv.slot t → hp.Agrees (s.bound q') :=
    fun hq he => he ▸ h.agrees t q' (he ▸ hq)
  rw [Streams.step] at hq' ⊢
  split_ifs at hq' ⊢ with ha
  · cases ho : s.streams.opened q with
    | none =>
        have hout := hydraopen_outcome (s.streams.world.setWq q []) q dev sflag
          fun b hb => (h.owned.base b hb).1
        rw [← Streams.attempt_fresh ho] at hout
        rcases hout.slot hq' with he | ⟨hstate, hsap⟩
        · exact hsame hq' he
        · refine .of_unbound ?_ hsap
          rw [hstate]
          decide
    | some dev' =>
        obtain rfl : dev = dev' := by
          rcases ha with ha | ha
          · exact absurd (ho.symm.trans ha) (Option.some_ne_none _)
          · exact Option.some.inj (ha.symm.trans ho)
        obtain ⟨err, he⟩ := h.owned.reopen ho sflag
        exact hsame hq' (by rw [he]; rfl)
  · exact hsame hq' rfl

/-- The slot of a stream, if it has one, is the one its pointers name. -/
theorem Inv.slot_unique (h : s.Inv) {q : QId} {t u : Slot} (ht : s.world.rptr q = some t)
    (hu : (s.world.drv.slot u).q = some q) : u = t :=
  Option.some.inj (((h.owned.ptr q u).mp hu).symm.trans ht)

theorem Inv.hydraclose (h : s.Inv) (q : QId) : (s.step (.stream (.hydraclose q))).Inv := by
  refine ⟨h.owned.step (.hydraclose q), fun t q' hq' => ?_⟩
  change ((s.streams.step (.hydraclose q)).world.drv.slot t).q = some q' at hq'
  change ((s.streams.step (.hydraclose q)).world.drv.slot t).Agrees
    (Function.update s.bound q none q')
  rw [Streams.step] at hq' ⊢
  split_ifs at hq' ⊢ with ho
  · have hne : q' ≠ q := by
      rintro rfl
      exact absurd (((h.owned.ptr q' t).mp hq').symm.trans ((h.owned.opened q').mp ho))
        (Option.some_ne_none _)
    rw [Function.update_of_ne hne]
    exact h.agrees t q' hq'
  · obtain ⟨u, hu⟩ := Option.ne_none_iff_exists'.mp fun hn => ho ((h.owned.opened q).mpr hn)
    have hslot : (s.streams.world.drv.slot u).q = some q := (h.owned.ptr q u).mpr hu
    obtain ⟨d, n, -, hd, -, -, hrun⟩ := hydraclose_run hu (h.owned.index u (by simp [hslot]))
    have hworld : (run exec (Hydra.hydraclose q) s.streams.world).2.drv.slot = d.slot := by
      rw [hrun]
      rfl
    rw [hworld, hd] at hq' ⊢
    by_cases htu : t = u
    · subst htu
      rw [Function.update_self] at hq'
      exact absurd hq'.symm (Option.some_ne_none _)
    · rw [Function.update_of_ne htu] at hq' ⊢
      have hne : q' ≠ q := by
        rintro rfl
        exact htu (h.slot_unique hu hq')
      rw [Function.update_of_ne hne]
      exact h.agrees t q' hq'

theorem hydraproto_bound {q : QId} {mp : Msg} (hq : s.world.wptr q ≠ none) :
    (s.step (.hydraproto q mp)).bound q =
      if s.world.primitive mp = DL_BIND_REQ ∧ s.world.allocs 0 = true then
        some (s.world.dlSap mp) else s.bound q := by
  change (if s.Answered q mp then Function.update s.bound q (some (s.world.dlSap mp))
    else s.bound) q = _
  by_cases hc : s.world.primitive mp = DL_BIND_REQ ∧ s.world.allocs 0 = true
  · rw [if_pos hc, if_pos ⟨hq, hc⟩, Function.update_self]
  · rw [if_neg hc, if_neg fun ha => hc ha.2]

theorem hydraproto_bound_of_ne {q q' : QId} (mp : Msg) (hne : q' ≠ q) :
    (s.step (.hydraproto q mp)).bound q' = s.bound q' := by
  change (if s.Answered q mp then Function.update s.bound q (some (s.world.dlSap mp))
    else s.bound) q' = s.bound q'
  split_ifs
  · exact Function.update_of_ne hne _ _
  · rfl

theorem Inv.hydraproto (h : s.Inv) {q : QId} {mp : Msg} (ha : s.InOrder (.hydraproto q mp)) :
    (s.step (.hydraproto q mp)).Inv := by
  cases hq : s.world.wptr q with
  | none =>
      have hstep : s.step (.hydraproto q mp) = s.setWorld s.world s.bound := by
        rw [step, World.hydraproto_closed mp hq, if_neg fun hc => hc.1 hq]
      rw [hstep]
      exact h
  | some t =>
      have hr := hydraproto_retabled mp hq
      have hrptr : s.world.rptr q = some t := (congrFun h.owned.wptr q).symm.trans hq
      have hslot : (s.world.drv.slot t).q = some q := (h.owned.ptr q t).mpr hrptr
      have htable : (s.step (.hydraproto q mp)).world.drv.slot =
          Function.update s.world.drv.slot t (s.world.asked mp (s.world.drv.slot t)) := hr.drv.slot
      refine ⟨h.owned.retabled hr (fun u => ?_) fun u => ?_, fun u q' hq' => ?_⟩
      · by_cases hu : u = t
        · subst hu
          rw [Function.update_self, World.asked_q]
          rfl
        · rw [Function.update_of_ne hu]
          rfl
      · by_cases hu : u = t
        · subst hu
          rw [Function.update_self, World.asked_boardIndex]
          rfl
        · rw [Function.update_of_ne hu]
          rfl
      · rw [htable] at hq' ⊢
        by_cases hu : u = t
        · subst hu
          rw [Function.update_self] at hq' ⊢
          rw [World.asked_q, hslot] at hq'
          obtain rfl := Option.some.inj hq'
          have hasked := (h.agrees u q hslot).asked s.world mp (ha u hq).1 (ha u hq).2
          rw [hydraproto_bound (hq ▸ Option.some_ne_none u)]
          exact hasked
        · rw [Function.update_of_ne hu] at hq' ⊢
          have hne : q' ≠ q := by
            rintro rfl
            exact hu (h.slot_unique hrptr hq')
          rw [hydraproto_bound_of_ne mp hne]
          exact h.agrees u q' hq'

theorem Inv.step (h : s.Inv) (ha : s.InOrder e) : (s.step e).Inv := by
  cases e with
  | stream e =>
      cases e with
      | hydraopen q dev sflag => exact h.hydraopen q dev sflag
      | hydraclose q => exact h.hydraclose q
  | hydraproto q mp => exact h.hydraproto ha
  | receive b packet =>
      have hc := tossPacketUpStream_run s.world b packet
      have hr : s.streams.world.Retabled _ _ := .of_countersOnly hc.rptr hc.wptr hc.drv
      refine ⟨h.owned.retabled hr (fun _ => rfl) fun _ => rfl, fun t q hq => ?_⟩
      have he : (s.step (.receive b packet)).world.drv.slot = s.world.drv.slot := hr.drv.slot
      rw [he] at hq ⊢
      exact h.agrees t q hq
  | answers nic canput allocs stray auto =>
      exact ⟨h.owned.retabled (.of_countersOnly rfl rfl (.refl _)) (fun _ => rfl) fun _ => rfl,
        h.agrees⟩

/-- Before the first open. -/
def boot (w : World) (autoconfig : BoardId → ℕ) : Binds :=
  ⟨Streams.boot w autoconfig, fun _ => none⟩

theorem boot_inv (w : World) (autoconfig : BoardId → ℕ) : (boot w autoconfig).Inv :=
  ⟨Streams.boot_owned w autoconfig, fun _ _ hq => absurd hq nofun⟩

/-- In every run in order, frames are delivered to bound streams of their type only. -/
theorem delivered_to_bound (w : World) (autoconfig : BoardId → ℕ) {es : List BindEvent}
    (ha : Every step InOrder (boot w autoconfig) es) :
    Every step Delivers (boot w autoconfig) es :=
  every_of_invariant Inv (fun _ _ h ha => h.step ha) (fun _ _ h ha => h.delivers ha)
    (boot_inv w autoconfig) ha

/-- An open of the first slot of board 0, by stream 1. -/
def opening : BindEvent := .stream (.hydraopen 1 ⟨40, 0x10⟩ DEVOPEN)

/-- There is room and memory for everybody. -/
def plenty : BindEvent :=
  .answers (fun _ => Nic.off) (fun _ => true) (fun _ => true) (fun _ => 0) fun _ => 0

/-- A DL_BIND_REQ for IP. -/
def bindIp : Msg := ⟨[0, 0, 0, 1, 0, 0, 0x08, 0], []⟩

/-- A broadcast of a type, given by its two bytes. -/
def broadcast (hi lo : Byte) : List Byte :=
  broadcastAddress ++ List.replicate 6 0 ++ [hi, lo] ++ List.replicate 46 0

theorem opening_slot : ((boot World.off fun _ => 0x40000).step opening).world.drv.slot ⟨0, 0⟩ =
    ⟨some 1, DL_UNATTACHED, 0, 0, 0⟩ := by
  obtain ⟨a, n, -, hrun⟩ := openBoard_start 1 ⟨40, 0x10⟩
    (w := (Streams.boot World.off fun _ => 0x40000).world.setWq 1 []) (b := 0) 1 nofun (by decide)
  have hbase : ((World.start ((Streams.boot World.off fun _ => 0x40000).world.setWq 1 [])
      0 a n).drv.board 0).info.boardBase ≠ 0 := by
    rw [World.start_base]
    decide
  obtain ⟨d, ht, htake⟩ := takeSlot_run
    (World.start ((Streams.boot World.off fun _ => 0x40000).world.setWq 1 []) 0 a n) 1 ⟨0, 0⟩
  have hworld : ((boot World.off fun _ => 0x40000).step opening).world =
      (run exec (hydraopen 1 ⟨40, 0x10⟩ DEVOPEN)
        ((Streams.boot World.off fun _ => 0x40000).world.setWq 1 [])).2 := rfl
  have hopen : hydraopen 1 ⟨40, 0x10⟩ DEVOPEN = openBoard 1 ⟨40, 0x10⟩ 0 1 :=
    hydraopen_board (b := 0) 1 _ rfl
  rw [hworld, hopen, hrun, openSlot_free (n := 0) 1 _ hbase rfl (World.start_slot a n 0), htake,
    World.setDrv_drv, ht.slot, Function.update_self]

theorem broadcast_dest (hi lo : Byte) (w : World) :
    (run exec (peeks (broadcast hi lo) 0 6) w).1 = broadcastAddress := by
  rw [peeks_run]
  rfl

theorem frameType_broadcast (w : World) (b : BoardId) (hi lo : Byte)
    (h : isTrailer (short hi lo) = false) : w.frameType b (broadcast hi lo) = short hi lo := by
  have htype : etherType (broadcast hi lo) = short hi lo := rfl
  have hlen : 14 ≤ (broadcast hi lo).length := by simp [broadcast, broadcastAddress]
  rw [World.frameType, lengths, run_bind, (etherType_run w hlen).1,
    packetLengths_ordinary b w (htype ▸ h), htype]

/-- An open, a bind to IP and an IP frame. -/
theorem delivered_to_bound_ip :
    Every step Delivers (boot World.off fun _ => 0x40000)
      [opening, plenty, .hydraproto 1 bindIp, .receive 0 (broadcast 0x08 0)] := by
  have hprim : ∀ w : World, w.primitive bindIp = DL_BIND_REQ := fun w =>
    congrArg Prod.fst (peekLong_field w (show 0 + 3 < bindIp.block.length by decide))
  have hsap : ∀ w : World, w.dlSap bindIp = 0x0800 := fun w =>
    congrArg Prod.fst (peekLong_field w (show 4 + 3 < bindIp.block.length by decide))
  refine delivered_to_bound World.off _ ⟨trivial, trivial, fun t _ => ⟨fun hc => absurd hc ?_,
    fun _ => ⟨?_, .inl rfl⟩⟩, fun hc => absurd hc ?_, trivial⟩
  · rw [hprim]
    decide
  · rw [hsap]
    decide
  · rw [frameType_broadcast _ _ _ _ rfl]
    decide

/-- A frame of type 0 is delivered to a stream that was never bound. -/
theorem delivered_to_bound_fails :
    ¬ ∀ w autoconfig es, Every step Delivers (boot w autoconfig) es := by
  intro h
  obtain ⟨-, -, ⟨hlast, -⟩, -⟩ := h World.off (fun _ => 0x40000)
    [opening, plenty, .receive 0 (broadcast 0 0)]
  have hslot : (((boot World.off fun _ => 0x40000).step opening).step plenty).world.drv.slot
      ⟨0, 0⟩ = ⟨some 1, DL_UNATTACHED, 0, 0, 0⟩ := opening_slot
  generalize hs : ((boot World.off fun _ => 0x40000).step opening).step plenty = s at hlast hslot
  have hmatch : ((s.world.drv.board 0).hydra 0).Matches
      (s.world.frameType 0 (broadcast 0 0)) 1 := by
    rw [frameType_broadcast _ _ _ _ rfl]
    change (s.world.drv.slot ⟨0, 0⟩).Matches _ 1
    rw [hslot]
    exact ⟨rfl, rfl, rfl⟩
  have hcan : s.world.canput 1 = true := hs ▸ rfl
  have hmem : ∀ i, s.world.allocs i = true := fun i => hs ▸ rfl
  obtain ⟨t, -, -, hb⟩ := hlast 1 (World.indicated_of_matches hmatch (broadcast_dest 0 0) hcan hmem)
  rw [← hs] at hb
  exact absurd hb nofun

end Binds

end HydraAmix.Hydra
