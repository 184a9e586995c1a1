import HydraAmix.Hydra.BoundStreams
import HydraAmix.Hydra.TransmitOrder

/-!
# The SAP that a frame leaves with

`hydraxmit` fills in the type of a frame when the frame goes to the transmitter,
from the slot as it is then. A data request that waits in the write queue meanwhile
leaves with whatever SAP its stream has been bound to since. Where no request
changes the SAP of a stream that has messages waiting, all of them leave with the
SAP they were written under.
-/
namespace HydraAmix.Hydra
open Word Program Prog Schedule DlState

/-- The frames of one stream among those of several. -/
def framesOf (q : QId) (ys : List (QId × List Byte)) : List (List Byte) :=
  (ys.filter fun y => y.1 = q).map Prod.snd

/-- A frame carries a message that was accepted in a slot, under its SAP if it
was bound. -/
def CarriesUnder (x : Msg × HydraT) (frame : List Byte) : Prop :=
  Carries x.1 frame ∧ (x.2.state = DL_IDLE → typeField frame = x.2.sap)

namespace World

/-- The data requests that the stream of a slot accepts in a run, each with the
slot as it was then. -/
def acceptedAt (q : QId) (t : Slot) : World → List TxEvent → List (Msg × HydraT)
  | _, [] => []
  | w, e :: es => (w.wrote q e).map (·, w.drv.slot t) ++ acceptedAt q t (w.txStep e) es

/-- Of what was queued and accepted, a part has been sent in order, each message
under the SAP it was accepted under, and the rest is queued. -/
def SapKept (w : World) (es : List TxEvent) : Prop :=
  ∃ out : BoardId → List (QId × List Byte),
    (∀ b, ((final txStep w es).nic b).sent = (w.nic b).sent ++ (out b).map Prod.snd) ∧
    (∀ b, ∀ y ∈ out b, ∃ n, w.rptr y.1 = some ⟨b, n⟩) ∧
    ∀ q t, w.rptr q = some t → ∃ gone left,
      (w.wq q).map (·, w.drv.slot t) ++ w.acceptedAt q t es = gone ++ left ∧
      left.map Prod.fst = (final txStep w es).wq q ∧
      List.Forall₂ CarriesUnder gone (framesOf q (out t.board))

/-- A stream with messages waiting is not bound to another SAP, and not unbound. -/
def SapSafe (w : World) : TxEvent → Prop
  | .proto q mp => ∀ t, w.wptr q = some t → w.wq q ≠ [] →
      (w.primitive mp = DL_BIND_REQ → (w.dlSap mp).setWidth 16 = (w.drv.slot t).sap) ∧
      (w.primitive mp = DL_UNBIND_REQ → w.allocs 0 = false ∨ (w.drv.slot t).sap = 0)
  | _ => True

/-- What waits in a queue was accepted under the present SAP. -/
structure Waits (w : World) (q : QId) (t : Slot) (ps : List (Msg × HydraT)) : Prop where
  wq : ps.map Prod.fst = w.wq q
  sap : ∀ x ∈ ps, x.2.sap = (w.drv.slot t).sap

/-- The frames `out` went to the wires, and the messages `new` were accepted. -/
structure Leaves (out : BoardId → List (QId × List Byte)) (new : QId → Slot → List (Msg × HydraT))
    (w w' : World) : Prop where
  rptr : w'.rptr = w.rptr
  sent : ∀ b, (w'.nic b).sent = (w.nic b).sent ++ (out b).map Prod.snd
  owner : ∀ b, ∀ y ∈ out b, ∃ n, w.rptr y.1 = some ⟨b, n⟩
  queue : ∀ q t, w.rptr q = some t → ∀ ps, w.Waits q t ps → ∃ gone left,
    ps ++ new q t = gone ++ left ∧ w'.Waits q t left ∧
      List.Forall₂ CarriesUnder gone (framesOf q (out t.board))

end World

section
variable {w w' w₁ w₂ w₃ : World}

@[simp] theorem framesOf_append (q : QId) (xs ys : List (QId × List Byte)) :
    framesOf q (xs ++ ys) = framesOf q xs ++ framesOf q ys := by
  simp [framesOf]

/-- Frames are labelled with the streams of the messages in them. -/
theorem labelled {xs : List (QId × Msg)} {frames : List (List Byte)}
    {R : QId × Msg → List Byte → Prop} (h : List.Forall₂ R xs frames) :
    ∃ ys : List (QId × List Byte), ys.map Prod.snd = frames ∧
      ys.map Prod.fst = xs.map Prod.fst ∧
      ∀ q, List.Forall₂ (fun mp f => R (q, mp) f) (ofStream q xs) (framesOf q ys) := by
  induction h with
  | nil => exact ⟨[], rfl, rfl, fun _ => .nil⟩
  | @cons x f xs frames hx _ ih =>
      obtain ⟨ys, hsnd, hfst, hq⟩ := ih
      refine ⟨(x.1, f) :: ys, by rw [List.map_cons, hsnd], by rw [List.map_cons, hfst]; rfl,
        fun q => ?_⟩
      rw [ofStream, framesOf, List.filter_cons, List.filter_cons]
      by_cases hxq : x.1 = q
      · subst hxq
        rw [if_pos (by simp), if_pos (by simp)]
        exact .cons hx (hq x.1)
      · rw [if_neg (by simp [hxq]), if_neg (by simp [hxq])]
        exact hq q

namespace World

variable {out out' : BoardId → List (QId × List Byte)}
variable {new new' : QId → Slot → List (Msg × HydraT)}

theorem Leaves.trans (h : Leaves out new w₁ w₂) (h' : Leaves out' new' w₂ w₃) :
    Leaves (fun b => out b ++ out' b) (fun q t => new q t ++ new' q t) w₁ w₃ where
  rptr := h'.rptr.trans h.rptr
  sent b := by rw [h'.sent, h.sent, List.map_append, List.append_assoc]
  owner b y hy := by
    rcases List.mem_append.mp hy with hy | hy
    · exact h.owner b y hy
    · rw [← h.rptr]
      exact h'.owner b y hy
  queue q t hq ps hps := by
    obtain ⟨gone, left, happ, hleft, hgone⟩ := h.queue q t hq ps hps
    obtain ⟨gone', left', happ', hleft', hgone'⟩ :=
      h'.queue q t (by rwa [h.rptr]) left hleft
    refine ⟨gone ++ gone', left', ?_, hleft', ?_⟩
    · rw [← List.append_assoc, happ, List.append_assoc, happ', List.append_assoc]
    · rw [framesOf_append]
      exact List.rel_append hgone hgone'

/-- Frames that carry the present SAPs, with no SAP changed where a message
waits. -/
theorem Passes.leaves {outs : BoardId → List (QId × Msg)} {ms : QId → List Msg}
    (h : Passes outs ms w w')
    (hsent : ∀ b, ∃ frames, (w'.nic b).sent = (w.nic b).sent ++ frames ∧
      List.Forall₂ w.Typed (outs b) frames)
    (hsap : ∀ q t, w.rptr q = some t → w'.wq q ≠ [] →
      (w'.drv.slot t).sap = (w.drv.slot t).sap) :
    ∃ out, Leaves out (fun q t => (ms q).map (·, w.drv.slot t)) w w' := by
  choose frames hframes htyped using hsent
  choose out hsnd hfst hq using fun b => labelled (htyped b)
  refine ⟨out, h.rptr, fun b => by rw [hsnd, hframes], fun b y hy => ?_, fun q t hr ps hps => ?_⟩
  · have hmem : y.1 ∈ (outs b).map Prod.fst := by
      rw [← hfst]
      exact List.mem_map_of_mem hy
    obtain ⟨x, hx, hxy⟩ := List.mem_map.mp hmem
    rw [← hxy]
    exact h.owner b x hx
  · have hsplit : (ps ++ (ms q).map (·, w.drv.slot t)).map Prod.fst =
        ofStream q (outs t.board) ++ w'.wq q := by
      rw [← h.queue q t hr, List.map_append, hps.wq, List.map_map]
      exact congrArg (w.wq q ++ ·) (List.map_id _)
    have hall : ∀ x ∈ ps ++ (ms q).map (·, w.drv.slot t), x.2.sap = (w.drv.slot t).sap := by
      intro x hx
      rcases List.mem_append.mp hx with hx | hx
      · exact hps.sap x hx
      · obtain ⟨mp, -, rfl⟩ := List.mem_map.mp hx
        rfl
    obtain ⟨gone, left, happ, hgone, hleft⟩ := List.map_eq_append_iff.mp hsplit
    rw [happ] at hall
    refine ⟨gone, left, happ, ⟨hleft, fun x hx => ?_⟩, ?_⟩
    · rw [hsap q t hr (fun hnil => ?_)]
      · exact hall x (List.mem_append_right gone hx)
      · rw [hnil, List.map_eq_nil_iff] at hleft
        exact absurd (hleft ▸ hx) List.not_mem_nil
    · have htypes := hq t.board q
      rw [← hgone, List.forall₂_map_left_iff] at htypes
      have hboth := (List.forall₂_and_left _ _).mpr
        ⟨fun x hx => hall x (List.mem_append_left left hx), htypes⟩
      refine hboth.imp fun x f hxf => ⟨hxf.2.1, fun _ => ?_⟩
      rw [hxf.2.2 t hr, hxf.1]

/-! ### The steps -/

/-- A safe request leaves the SAP of a stream with messages waiting. -/
theorem asked_sap {q : QId} {t : Slot} {mp : Msg} (hs : w.SapSafe (.proto q mp))
    (hq : w.wptr q = some t) (hw : w.wq q ≠ []) :
    (w.asked mp (w.drv.slot t)).sap = (w.drv.slot t).sap := by
  obtain ⟨hbind, hunbind⟩ := hs t hq hw
  unfold asked
  split_ifs with _ _ hb hu ha
  · rfl
  · rfl
  · exact hbind hb
  · rcases hunbind hu with hn | hz
    · exact absurd (ha.symm.trans hn) Bool.noConfusion
    · exact hz.symm
  · rfl
  · rfl
  · rfl
  · rfl

theorem Wired.proto_leaves (h : w.Wired) {q : QId} {mp : Msg} (hs : w.SapSafe (.proto q mp)) :
    ∃ out, Leaves out (fun q' t => (w.wrote q' (.proto q mp)).map (·, w.drv.slot t)) w
      (run exec (Hydra.hydraproto q mp) w).2 := by
  cases hq : w.wptr q with
  | none =>
      have hm := MovesTyped.of_keeps (.refl w) rfl
      have hp := h.keeps_passes (.refl w)
      rw [← show (fun q' => w.wrote q' (.proto q mp)) = _ from wrote_other (.inl hq)] at hp
      rw [hydraproto_closed mp hq]
      exact hp.leaves hm.sent fun _ _ _ _ => rfl
  | some s =>
      by_cases hprim : w.primitive mp = DL_UNITDATA_REQ
      · obtain ⟨out, hp, hm⟩ := h.unitdataReq_passes mp hq
        rw [← wrote_data hq hprim] at hp
        rw [hydraproto_data hq hprim]
        exact hp.leaves hm.sent fun _ t _ _ => congrArg (fun slot => (slot t).sap) hm.slot
      · have hk := hydraproto_keeps hq hprim
        have hslot := (hydraproto_retabled mp hq).drv.slot
        have hp := h.keeps_passes hk
        rw [← show (fun q' => w.wrote q' (.proto q mp)) = _ from wrote_other (.inr hprim)] at hp
        refine hp.leaves (fun b => ⟨[], by rw [(hk.nic b).sent, List.append_nil], .nil⟩)
          fun q' t ht hne => ?_
        rw [hslot]
        by_cases hts : t = s
        · rw [hts, Function.update_self]
          obtain ⟨hr, hserved, -⟩ := h.slot hq
          have hqq : q' = q := by
            rw [hts] at ht
            have h₁ := (hserved.ptr s.dev q').mpr ht
            have h₂ := (hserved.ptr s.dev q).mpr hr
            exact Option.some.inj (h₁.symm.trans h₂)
          refine asked_sap hs hq ?_
          rwa [hqq, hk.wq] at hne
        · rw [Function.update_of_ne hts]

theorem Wired.setNic_leaves (h : w.Wired) (b : BoardId) {n : Nic}
    (hi : (w.nic b).isr &&& 0xc0#8 = 0 → n.isr &&& 0xc0#8 = 0) (hs : n.sent = (w.nic b).sent) :
    ∃ out, Leaves out (fun _ _ => []) w (w.setNic b n) :=
  (h.setNic_passes hi hs).leaves (movesTyped_setNic w b hs).sent fun _ _ _ _ => rfl

theorem Wired.txEnds_leaves (h : w.Wired) (b : BoardId) {bit : Byte}
    (hi : ∀ isr : Byte, isr &&& 0xc0#8 = 0 → (isr ||| bit) &&& 0xc0#8 = 0) :
    ∃ out, Leaves out (fun _ _ => []) w (w.txEnds b bit) := by
  rw [txEnds]
  split
  · exact h.setNic_leaves b (hi _) rfl
  · have hm := MovesTyped.of_keeps (.refl w) rfl
    exact (h.keeps_passes (.refl w)).leaves hm.sent fun _ _ _ _ => rfl

theorem Wired.txStep_leaves (h : w.Wired) {e : TxEvent} (hs : w.SapSafe e) :
    ∃ out, Leaves out (fun q t => (w.wrote q e).map (·, w.drv.slot t)) w (w.txStep e) := by
  cases e with
  | proto q mp => exact h.proto_leaves hs
  | sent b => exact h.txEnds_leaves b fun isr => (isr_or_ptx isr).2
  | aborted b => exact h.txEnds_leaves b fun isr => isr_or_txe isr
  | raised b bits => exact h.setNic_leaves b (fun hz => (isr_or_raised _ bits).2.trans hz) rfl
  | intr =>
      obtain ⟨out, hp, hm⟩ := h.intr_passes
      exact hp.leaves hm.sent fun _ t _ _ => congrArg (fun slot => (slot t).sap) hm.slot

theorem Leaves.refl (w : World) : Leaves (fun _ => []) (fun _ _ => []) w w where
  rptr := rfl
  sent _ := (List.append_nil _).symm
  owner _ _ hy := absurd hy List.not_mem_nil
  queue _ _ _ ps hps := ⟨[], ps, List.append_nil ps, hps, .nil⟩

theorem Wired.run_leaves (h : w.Wired) {es : List TxEvent} (hs : Every txStep SapSafe w es) :
    ∃ out, Leaves out (fun q t => w.acceptedAt q t es) w (final txStep w es) := by
  induction es generalizing w with
  | nil => exact ⟨_, .refl w⟩
  | cons e es ih =>
      obtain ⟨out, hl⟩ := h.txStep_leaves hs.1
      obtain ⟨_, hp⟩ := h.txStep_passes e
      obtain ⟨out', hl'⟩ := ih (h.passes hp) hs.2
      exact ⟨_, hl.trans hl'⟩

end World

end

/-- In every run in which no stream with messages waiting is bound to another SAP
or unbound, the data requests leave under the SAP they were accepted under. -/
theorem sap_kept (w : World) (hw : w.Wired) (es : List TxEvent)
    (hs : Every World.txStep World.SapSafe w es) : w.SapKept es := by
  obtain ⟨out, hl⟩ := hw.run_leaves hs
  refine ⟨out, hl.sent, hl.owner, fun q t hq => ?_⟩
  have hwaits : w.Waits q t ((w.wq q).map (·, w.drv.slot t)) := by
    refine ⟨?_, fun x hx => ?_⟩
    · rw [List.map_map]
      exact List.map_id _
    · obtain ⟨mp, -, rfl⟩ := List.mem_map.mp hx
      rfl
  obtain ⟨gone, left, happ, hleft, hgone⟩ := hl.queue q t hq _ hwaits
  exact ⟨gone, left, happ, hleft.wq, hgone⟩

/-- A DL_BIND_REQ. -/
def bindTo (sap : Byte) : Msg :=
  ⟨[0, 0, 0, 1, 0, 0, 8, sap, 0, 0, 0, 0, 0, 0, 0, 0, 0, 0, 0, 0], []⟩

theorem sap_kept_one :
    (oneStream ⟨0, 0⟩).SapKept [.proto 0 (bindTo 0), .proto 0 oneByte, .sent 0, .intr] := by
  refine sap_kept _ oneStream_ready.toWired _ ⟨fun t _ hne => ?_, fun t _ hne => ?_, trivial,
    trivial, trivial⟩
  · exact absurd rfl hne
  · exact absurd (List.isEmpty_iff.mp (by decide +kernel)) hne

/-- Messages accepted while their stream was bound have left under its SAPs. -/
theorem forall₂_sap {gone : List (Msg × HydraT)} {frames : List (List Byte)}
    (h : List.Forall₂ CarriesUnder gone frames) (hb : gone.all fun x => x.2.state = DL_IDLE) :
    frames.map typeField = gone.map fun x => x.2.sap := by
  induction h with
  | nil => rfl
  | cons hx _ ih =>
      rw [List.all_cons, Bool.and_eq_true, decide_eq_true_iff] at hb
      rw [List.map_cons, List.map_cons, hx.2 hb.1, ih hb.2]

/-- The second of two messages waits, and its stream is bound again. -/
theorem sap_kept_fails : ¬ ∀ w : World, w.Wired → ∀ es, w.SapKept es := by
  intro h
  obtain ⟨out, hsent, howner, hqueue⟩ := h _ (oneStream_ready (s := ⟨0, 0⟩)).toWired
    [.proto 0 (bindTo 0), .proto 0 oneByte, .proto 0 oneByte, .proto 0 (bindTo 6), .sent 0, .intr]
  have hmine : ∀ y ∈ out 0, y.1 = 0 := fun y hy => by
    obtain ⟨n, hn⟩ := howner 0 y hy
    by_contra hne
    change (if y.1 = 0 then _ else _) = _ at hn
    rw [if_neg hne] at hn
    exact Option.some_ne_none _ hn.symm
  have hframes : framesOf 0 (out 0) = (out 0).map Prod.snd := by
    rw [framesOf, List.filter_eq_self.mpr fun y hy => by simp [hmine y hy]]
  obtain ⟨gone, left, happ, hleft, hgone⟩ := hqueue 0 ⟨0, 0⟩ rfl
  have hnil : left = [] := by
    rw [List.isEmpty_iff.mp (show List.isEmpty (World.wq _ 0) = true by decide +kernel)] at hleft
    exact List.map_eq_nil_iff.mp hleft
  rw [hnil, List.append_nil] at happ
  have hsame := hsent 0
  rw [← hframes] at hsame
  change _ = [] ++ _ at hsame
  rw [List.nil_append] at hsame
  have htypes := forall₂_sap hgone (by rw [← happ]; decide +kernel)
  rw [← hsame, ← happ] at htypes
  exact absurd htypes (by decide +kernel)

end HydraAmix.Hydra
