import HydraAmix.Kdb.Sessions

/-!
# Requests are executed as answered

Where ids grow, the id of a request is smaller than that of every later one. The requests
under way are not older than the last one that the debugged system has seen, which was
answered, or is a stop that waits; so only it can come again, and if it was executed, it is
known by its id.
-/
namespace HydraAmix.Kdb.Remote
open Schedule

/-- The ids of the requests grow, and are below the next one. -/
structure Rkunit.Ids (u : Rkunit) : Prop where
  mono : ∀ i j, i < j → j < u.count → (u.req i).transmit_id < (u.req j).transmit_id
  pos : ∀ k < u.count, 0 < (u.req k).transmit_id
  next : ∀ k < u.count, (u.req k).transmit_id < u.id
  started : u.id = 0 → u.ctl = .closed ∧ u.rkopened = false ∧ u.binds = 0 ∧ u.count = 0

/-- A response that was made for a request carries its id. -/
def Rkunit.Genuine (u : Rkunit) (r : Response) : Prop :=
  r.of < u.count ∧ r.transmit_id = (u.req r.of).transmit_id

structure Rkunit.Inv (u : Rkunit) : Prop where
  ids : u.Ids
  sending : ∀ mp, u.ctl = .sending mp → 0 < u.count
  response : ∀ r, u.response = some r → u.Genuine r
  returned : ∀ x ∈ u.returned, x.2.of = x.1

/-- The last request that was seen was executed and answered, or is a stop that waits. -/
inductive Rkdb.Seen (d : Rkdb) (req : ℕ → Request) : ℕ → Prop
  | nothing (last : d.last_transmit_id = 0) (wstop : d.wstop_id = 0) : Seen d req 0
  | answered (k : ℕ) (response : d.last_response = ⟨(req k).transmit_id, k⟩)
      (last : d.last_transmit_id = (req k).transmit_id) (wstop : d.wstop_id = 0) :
      Seen d req (k + 1)
  | waiting (k : ℕ) (response : d.last_response = ⟨(req k).transmit_id, k⟩)
      (last : d.last_transmit_id < (req k).transmit_id)
      (wstop : d.wstop_id = (req k).transmit_id) (unexecuted : d.exec k = 0) :
      Seen d req (k + 1)

/-- The debugged system, when it has seen requests below `n` only. -/
structure Rkdb.Inv (d : Rkdb) (req : ℕ → Request) (n : ℕ) : Prop where
  once : ∀ k, d.exec k ≤ 1
  unseen : ∀ k, n ≤ k → d.exec k = 0
  seen : d.Seen req n

structure System.Inv (s : System) : Prop where
  unit : s.unit.Inv
  sorted : s.toKernel.Pairwise (· ≤ ·)
  known : ∀ k ∈ s.toKernel, k < s.unit.count
  answers : ∀ r ∈ s.toDebugger, s.unit.Genuine r
  kernel : ∃ n ≤ s.unit.count, s.rkdb.Inv s.unit.req n ∧ ∀ k ∈ s.toKernel, n ≤ k + 1

/-! ### The debugger -/

namespace Rkunit
variable {u v : Rkunit}

/-- The requests are as they were, and the next id has not become smaller. -/
structure SameRequests (u v : Rkunit) : Prop where
  count : v.count = u.count
  req : v.req = u.req
  returned : v.returned = u.returned
  id : u.id ≤ v.id

theorem SameRequests.genuine (h : u.SameRequests v) {r : Response} (hr : u.Genuine r) :
    v.Genuine r := by
  unfold Genuine at *
  rw [h.count, h.req]
  exact hr

/-- A step that makes no request. -/
structure Keeps (u v : Rkunit) : Prop where
  inv : v.Inv
  count : v.count = u.count
  req : v.req = u.req

theorem Inv.keeps (h : u.Inv) (hs : u.SameRequests v)
    (hstart : v.id = 0 → v.ctl = .closed ∧ v.rkopened = false ∧ v.binds = 0)
    (hsend : ∀ mp, v.ctl = .sending mp → 0 < u.count)
    (hresp : ∀ r, v.response = some r → u.Genuine r) : u.Keeps v := by
  refine ⟨⟨⟨?_, ?_, ?_, fun hz => ?_⟩, ?_, fun r hr => hs.genuine (hresp r hr), ?_⟩,
    hs.count, hs.req⟩
  · rw [hs.count, hs.req]
    exact h.ids.mono
  · rw [hs.count, hs.req]
    exact h.ids.pos
  · rw [hs.count, hs.req]
    intro k hk
    have hnext := h.ids.next k hk
    have hle := hs.id
    bv_omega
  · obtain ⟨hc, ho, hb⟩ := hstart hz
    have hu : u.id = 0 := by
      have hle := hs.id
      rw [hz] at hle
      exact BitVec.le_zero_iff.mp hle
    exact ⟨hc, ho, hb, hs.count.trans (h.ids.started hu).2.2.2⟩
  · rw [hs.count]
    exact hsend
  · rw [hs.returned]
    exact h.returned

/-- Two requests with one id are the same. -/
theorem Ids.inj (h : u.Ids) {i j : ℕ} (hi : i < u.count) (hj : j < u.count)
    (he : (u.req i).transmit_id = (u.req j).transmit_id) : i = j := by
  rcases Nat.lt_trichotomy i j with hlt | heq | hgt
  · have hm := h.mono i j hlt hj
    rw [he] at hm
    exact absurd hm (BitVec.lt_irrefl _)
  · exact heq
  · have hm := h.mono j i hgt hi
    rw [he] at hm
    exact absurd hm (BitVec.lt_irrefl _)

theorem current_lt (h : 0 < u.count) : u.current < u.count := Nat.sub_one_lt_of_lt h

theorem clock_inv (h : u.Inv) (t : Id) : u.Keeps (u.clock t) := by
  unfold clock
  split
  · exact h.keeps ⟨rfl, rfl, rfl, BitVec.le_refl _⟩
      (fun hz => ⟨(h.ids.started hz).1, (h.ids.started hz).2.1, (h.ids.started hz).2.2.1⟩)
      h.sending h.response
  · exact ⟨h, rfl, rfl⟩

theorem rkopen_inv (h : u.Inv) (alloc : Bool)
    (hcare : u.ctl = .closed → u.rkopened = false → 0 < u.hrestime ∧ u.id ≤ u.hrestime) :
    u.Keeps (u.rkopen alloc) := by
  unfold rkopen
  split
  next hctl =>
    split
    next hopen =>
      refine h.keeps ⟨rfl, rfl, rfl, BitVec.le_refl _⟩ (fun hz => ?_) nofun h.response
      have hclosed := (h.ids.started hz).2.1
      rw [hopen] at hclosed
      exact Bool.noConfusion hclosed
    next hopen =>
      obtain ⟨hpos, hle⟩ := hcare hctl (eq_false_of_ne_true hopen)
      have hne : u.hrestime ≠ 0 := by bv_omega
      split
      · exact h.keeps ⟨rfl, rfl, rfl, hle⟩ (fun hz => absurd hz hne) nofun h.response
      · exact h.keeps ⟨rfl, rfl, rfl, hle⟩ (fun hz => absurd hz hne) h.sending h.response
  next => exact ⟨h, rfl, rfl⟩

theorem rkclose_inv (h : u.Inv) : u.Keeps u.rkclose := by
  unfold rkclose
  split
  · exact h.keeps ⟨rfl, rfl, rfl, BitVec.le_refl _⟩
      (fun hz => ⟨rfl, rfl, (h.ids.started hz).2.2.1⟩) nofun h.response
  · exact ⟨h, rfl, rfl⟩

theorem opened_inv (h : u.Inv) : u.Keeps u.opened := by
  unfold opened
  split
  next hopen =>
    refine h.keeps ⟨rfl, rfl, rfl, BitVec.le_refl _⟩ (fun hz => ?_) nofun h.response
    have hclosed := (h.ids.started hz).2.1
    rw [hopen.2] at hclosed
    exact Bool.noConfusion hclosed
  next => exact ⟨h, rfl, rfl⟩

theorem signal_inv (h : u.Inv) : u.Keeps u.signal := by
  unfold signal
  split
  next mp hctl =>
    refine h.keeps ⟨rfl, rfl, rfl, BitVec.le_refl _⟩ (fun hz => ?_) nofun h.response
    exact Ctl.noConfusion (hctl.symm.trans (h.ids.started hz).1)
  next hctl =>
    exact h.keeps ⟨rfl, rfl, rfl, BitVec.le_refl _⟩
      (fun hz => ⟨rfl, (h.ids.started hz).2.1, (h.ids.started hz).2.2.1⟩)
      nofun h.response
  next => exact ⟨h, rfl, rfl⟩

theorem rkdrput_inv (h : u.Inv) (hid : u.id ≠ 0) {r : Response} (alloc : Bool)
    (hr : u.rkopened = true → u.Genuine r) : u.Keeps (u.rkdrput r alloc) := by
  unfold rkdrput
  split
  next =>
    exact h.keeps ⟨rfl, rfl, rfl, BitVec.le_refl _⟩
      (fun hz => absurd hz hid) h.sending h.response
  next hopen =>
    refine h.keeps ⟨rfl, rfl, rfl, BitVec.le_refl _⟩
      (fun hz => absurd hz hid) h.sending fun q hq => ?_
    cases alloc with
    | true => exact Option.some.inj hq ▸ hr (eq_true_of_ne_false hopen)
    | false => exact absurd hq.symm (Option.some_ne_none q)

theorem bindAck_inv (h : u.Inv) (junk : Response) (hcare : u.rkopened = false) :
    u.Keeps (u.bindAck junk) := by
  unfold bindAck
  split
  next => exact ⟨h, rfl, rfl⟩
  next hbinds =>
    have hid : u.id ≠ 0 := fun hz => hbinds (h.ids.started hz).2.2.1
    have hv : u.Keeps { u with binds := u.binds - 1 } :=
      h.keeps ⟨rfl, rfl, rfl, BitVec.le_refl _⟩ (fun hz => absurd hz hid) h.sending h.response
    obtain ⟨hinv, hcount, hreq⟩ := rkdrput_inv hv.inv hid (r := junk) true fun hopen =>
      Bool.noConfusion (hcare.symm.trans hopen)
    exact ⟨hinv, hcount, hreq⟩

/-- A new request has the greatest id. -/
theorem send_inv (h : u.Inv) (command : Command) (dup : Bool)
    (hcare : u.id.toNat + 1 < 0x100000000) : (u.send command dup).1.Inv := by
  unfold send
  split
  next hctl =>
    have hid : u.id ≠ 0 := fun hz => Ctl.noConfusion (hctl.symm.trans (h.ids.started hz).1)
    have hold : ∀ k, k < u.count →
        Function.update u.req u.count ⟨u.id, command⟩ k = u.req k := fun k hk =>
      Function.update_of_ne (Nat.ne_of_lt hk) _ _
    have hnew : Function.update u.req u.count ⟨u.id, command⟩ u.count = ⟨u.id, command⟩ :=
      Function.update_self _ _ _
    have hgrow : u.id < u.id + 1 := by bv_omega
    refine ⟨⟨fun i j hij hj => ?_, fun k hk => ?_, fun k hk => ?_, fun hz => ?_⟩,
      fun _ _ => Nat.succ_pos _, fun r hr => absurd hr.symm (Option.some_ne_none r), h.returned⟩
    · dsimp only at hj ⊢
      rcases Nat.lt_succ_iff_lt_or_eq.mp hj with hj | rfl
      · rw [hold j hj, hold i (Nat.lt_trans hij hj)]
        exact h.ids.mono i j hij hj
      · rw [hnew, hold i hij]
        exact h.ids.next i hij
    · dsimp only at hk ⊢
      rcases Nat.lt_succ_iff_lt_or_eq.mp hk with hk | rfl
      · rw [hold k hk]
        exact h.ids.pos k hk
      · rw [hnew]
        bv_omega
    · dsimp only at hk ⊢
      rcases Nat.lt_succ_iff_lt_or_eq.mp hk with hk | rfl
      · rw [hold k hk]
        have hn := h.ids.next k hk
        bv_omega
      · rw [hnew]
        exact hgrow
    · dsimp only at hz
      bv_omega
  next => exact h

theorem wake_inv (h : u.Inv) (dup : Bool) : u.Keeps (u.wake dup).1 := by
  have hstart : ∀ mp, u.ctl = .sending mp → u.id ≠ 0 := fun mp hctl hz =>
    Ctl.noConfusion (hctl.symm.trans (h.ids.started hz).1)
  unfold wake
  split
  next hctl hresp =>
    exact h.keeps ⟨rfl, rfl, rfl, BitVec.le_refl _⟩
      (fun hz => absurd hz (hstart true hctl)) (fun _ _ => h.sending true hctl)
      h.response
  next hctl hresp =>
    exact h.keeps ⟨rfl, rfl, rfl, BitVec.le_refl _⟩
      (fun hz => absurd hz (hstart false hctl)) nofun h.response
  next mp r hctl hresp =>
    have hpos := h.sending mp hctl
    have hr := h.response r hresp
    split
    next hid =>
      have hof : r.of = u.current := h.ids.inj hr.1 (current_lt hpos) (hr.2.symm.trans hid)
      have hv := h.keeps (v := { u with ctl := .opened }) ⟨rfl, rfl, rfl, BitVec.le_refl _⟩
        (fun hz => absurd hz (hstart mp hctl)) nofun h.response
      have hids := hv.inv.ids
      refine ⟨⟨⟨hids.mono, hids.pos, hids.next, hids.started⟩, hv.inv.sending, hv.inv.response,
        fun x hx => ?_⟩, rfl, rfl⟩
      rcases List.mem_append.mp hx with hx | hx
      · exact h.returned x hx
      · rw [List.mem_singleton.mp hx]
        exact hof
    next =>
      split
      · exact h.keeps ⟨rfl, rfl, rfl, BitVec.le_refl _⟩
          (fun hz => absurd hz (hstart mp hctl)) (fun _ _ => hpos) nofun
      · exact h.keeps ⟨rfl, rfl, rfl, BitVec.le_refl _⟩
          (fun hz => absurd hz (hstart mp hctl)) nofun nofun
  next => exact ⟨h, rfl, rfl⟩

end Rkunit

/-! ### The debugged system -/

namespace Rkdb
variable {d e : Rkdb} {u : Rkunit} {req : ℕ → Request} {n k : ℕ}

/-- Nothing that is known of the requests has changed. -/
theorem Inv.congr (h : d.Inv req n) (hexec : e.exec = d.exec)
    (hresp : e.last_response = d.last_response) (hlast : e.last_transmit_id = d.last_transmit_id)
    (hwstop : e.wstop_id = d.wstop_id) : e.Inv req n := by
  refine ⟨by rw [hexec]; exact h.once, by rw [hexec]; exact h.unseen, ?_⟩
  cases h.seen with
  | nothing last wstop => exact .nothing (hlast.trans last) (hwstop.trans wstop)
  | answered k response last wstop =>
      exact .answered k (hresp.trans response) (hlast.trans last) (hwstop.trans wstop)
  | waiting k response last wstop unexecuted =>
      exact .waiting k (hresp.trans response) (by rw [hlast]; exact last) (hwstop.trans wstop)
        (by rw [hexec]; exact unexecuted)

theorem Inv.of_req {req' : ℕ → Request} (h : d.Inv req n) (hreq : ∀ k < n, req' k = req k) :
    d.Inv req' n := by
  refine ⟨h.once, h.unseen, ?_⟩
  cases h.seen with
  | nothing last wstop => exact .nothing last wstop
  | answered k response last wstop =>
      have hk := hreq k (Nat.lt_succ_self k)
      exact .answered k (by rw [hk]; exact response) (by rw [hk]; exact last) wstop
  | waiting k response last wstop unexecuted =>
      have hk := hreq k (Nat.lt_succ_self k)
      exact .waiting k (by rw [hk]; exact response) (by rw [hk]; exact last)
        (by rw [hk]; exact wstop) unexecuted

/-- A request that is new, or a stop that still waits, has a greater id than the last one
that was answered, and was not executed. -/
theorem Inv.fresh (h : d.Inv u.req n) (hids : u.Ids) (hk : k < u.count) (hnk : n ≤ k + 1)
    (hid : (u.req k).transmit_id ≠ d.last_transmit_id) :
    d.exec k = 0 ∧ d.last_transmit_id < (u.req k).transmit_id := by
  cases h.seen with
  | nothing last wstop =>
      refine ⟨h.unseen k (Nat.zero_le k), ?_⟩
      rw [last]
      exact hids.pos k hk
  | answered m response last wstop =>
      have hmk : m < k := by
        refine Nat.lt_of_le_of_ne (Nat.le_of_succ_le_succ hnk) fun he => hid ?_
        rw [last, he]
      refine ⟨h.unseen k hmk, ?_⟩
      rw [last]
      exact hids.mono m k hmk hk
  | waiting m response last wstop unexecuted =>
      rcases Nat.lt_or_eq_of_le (Nat.le_of_succ_le_succ hnk) with hmk | rfl
      · have hm := hids.mono m k hmk hk
        refine ⟨h.unseen k hmk, ?_⟩
        bv_omega
      · exact ⟨unexecuted, last⟩

/-- A request that is known by its id is the last one, which was answered. -/
theorem Inv.known (h : d.Inv u.req n) (hids : u.Ids) (hk : k < u.count) (hnk : n ≤ k + 1)
    (hid : (u.req k).transmit_id = d.last_transmit_id) :
    n = k + 1 ∧ d.last_response = ⟨(u.req k).transmit_id, k⟩ := by
  cases h.seen with
  | nothing last wstop =>
      have hpos := hids.pos k hk
      rw [hid, last] at hpos
      exact absurd hpos (BitVec.lt_irrefl _)
  | answered m response last wstop =>
      have hm : m < u.count := Nat.lt_of_le_of_lt (Nat.le_of_succ_le_succ hnk) hk
      obtain rfl := hids.inj hk hm (hid.trans last)
      exact ⟨rfl, response⟩
  | waiting m response last wstop unexecuted =>
      rcases Nat.lt_or_eq_of_le (Nat.le_of_succ_le_succ hnk) with hmk | rfl
      · have hm := hids.mono m k hmk hk
        bv_omega
      · rw [hid] at last
        exact absurd last (BitVec.lt_irrefl _)

/-- The answer to a request, sent again or for the first time. -/
theorem sendKdbPacket_inv (honce : ∀ j, e.exec j ≤ 1) (hunseen : ∀ j, k < j → e.exec j = 0)
    (hresp : e.last_response = ⟨(u.req k).transmit_id, k⟩) (hwstop : e.wstop_id = 0)
    (hk : k < u.count) :
    e.sendKdbPacket.1.Inv u.req (k + 1) ∧ ∀ r ∈ e.sendKdbPacket.2, u.Genuine r := by
  refine ⟨⟨honce, hunseen, .answered k hresp ?_ hwstop⟩, fun r hr => ?_⟩
  · change e.last_response.transmit_id = _
    rw [hresp]
  · have hr : r = ⟨(u.req k).transmit_id, k⟩ := (List.mem_singleton.mp hr).trans hresp
    rw [hr]
    exact ⟨hk, rfl⟩

theorem handle_inv (h : d.Inv u.req n) (hids : u.Ids) (hk : k < u.count) (hnk : n ≤ k + 1) :
    (d.handle k (u.req k) false).1.Inv u.req (k + 1) ∧
      ∀ r ∈ (d.handle k (u.req k) false).2, u.Genuine r := by
  have hunseen : ∀ j, k < j → d.exec j = 0 := fun j hj => h.unseen j (Nat.le_trans hnk hj)
  unfold handle
  by_cases hid : (u.req k).transmit_id = d.last_transmit_id
  · rw [if_pos hid]
    obtain ⟨rfl, hresp⟩ := h.known hids hk hnk hid
    refine sendKdbPacket_inv h.once hunseen hresp ?_ hk
    cases h.seen with
    | answered m response last wstop => exact wstop
    | waiting m response last wstop unexecuted =>
        rw [hid] at last
        exact absurd last (BitVec.lt_irrefl _)
  · rw [if_neg hid]
    obtain ⟨hexec, hlast⟩ := h.fresh hids hk hnk hid
    have hdone : ∀ e : Rkdb, e.exec = Function.update d.exec k (d.exec k + 1) →
        e.last_response = ⟨(u.req k).transmit_id, k⟩ → e.wstop_id = 0 →
        e.sendKdbPacket.1.Inv u.req (k + 1) ∧ ∀ r ∈ e.sendKdbPacket.2, u.Genuine r := by
      intro e he hresp hwstop
      refine sendKdbPacket_inv (fun j => ?_) (fun j hj => ?_) hresp hwstop hk
      · by_cases hjk : j = k
        · have hone : e.exec j = 1 := by rw [he, hjk, Function.update_self, hexec]
          exact Nat.le_of_eq hone
        · rw [he, Function.update_of_ne hjk]
          exact h.once j
      · rw [he, Function.update_of_ne (Nat.ne_of_gt hj)]
        exact hunseen j hj
    have hwait : ∀ dstop, (Rkdb.Inv { d.prepare k (u.req k).transmit_id with
        dstop := dstop, wstop_id := (u.req k).transmit_id } u.req (k + 1)) := fun dstop =>
      ⟨h.once, hunseen, .waiting k rfl hlast rfl hexec⟩
    dsimp only
    split
    · split
      · exact hdone _ rfl rfl rfl
      · exact ⟨hwait true, fun r hr => absurd hr List.not_mem_nil⟩
    · split
      · exact hdone _ rfl rfl rfl
      · exact ⟨hwait d.dstop, fun r hr => absurd hr List.not_mem_nil⟩
    · exact hdone _ rfl rfl rfl
    · exact hdone _ rfl rfl rfl

theorem answerStop_inv (h : d.Inv u.req n) (hn : n ≤ u.count) :
    d.answerStop.1.Inv u.req n ∧ ∀ r ∈ d.answerStop.2, u.Genuine r := by
  unfold answerStop
  split
  next => exact ⟨h, fun r hr => absurd hr List.not_mem_nil⟩
  next hwstop =>
    cases h.seen with
    | nothing last wstop => exact absurd wstop hwstop
    | answered k response last wstop => exact absurd wstop hwstop
    | waiting k response last wstop unexecuted =>
        have hresp : ({ d.last_response with transmit_id := d.wstop_id } : Response) =
            ⟨(u.req k).transmit_id, k⟩ := by
          rw [response, wstop]
        refine ⟨⟨h.once, h.unseen, .answered k hresp wstop rfl⟩, fun r hr => ?_⟩
        rw [List.mem_singleton.mp hr, hresp]
        exact ⟨hn, rfl⟩

theorem kdebug_inv (h : d.Inv u.req n) (hn : n ≤ u.count) (clock escape : Bool) :
    (d.kdebug clock escape).1.Inv u.req n ∧ ∀ r ∈ (d.kdebug clock escape).2, u.Genuine r := by
  unfold kdebug
  split
  · exact ⟨h, fun r hr => absurd hr List.not_mem_nil⟩
  · split
    · exact ⟨h.congr rfl rfl rfl rfl, fun r hr => absurd hr List.not_mem_nil⟩
    · exact answerStop_inv (h.congr rfl rfl rfl rfl) hn

end Rkdb

/-! ### Both systems -/

namespace System
variable {s : System} {v : Rkunit}

/-- A step of the debugger, which may make a request. -/
theorem Inv.setUnit (h : s.Inv) (hv : v.Inv) (hcount : s.unit.count ≤ v.count)
    (hreq : ∀ k < s.unit.count, v.req k = s.unit.req k) : (s.setUnit v).Inv := by
  obtain ⟨n, hn, hd, hnew⟩ := h.kernel
  refine ⟨hv, h.sorted, fun k hk => Nat.lt_of_lt_of_le (h.known k hk) hcount, fun r hr => ?_,
    n, Nat.le_trans hn hcount, hd.of_req fun k hk => hreq k (Nat.lt_of_lt_of_le hk hn), hnew⟩
  obtain ⟨hof, hid⟩ := h.answers r hr
  exact ⟨Nat.lt_of_lt_of_le hof hcount,
    hid.trans (congrArg Request.transmit_id (hreq r.of hof)).symm⟩

theorem Inv.keeps (h : s.Inv) (hv : s.unit.Keeps v) : (s.setUnit v).Inv :=
  h.setUnit hv.inv (Nat.le_of_eq hv.count.symm) fun k _ => by rw [hv.req]

/-- Packets that are lost are not missed. -/
theorem Inv.sublist (h : s.Inv) {ks : List ℕ} {rs : List Response}
    (hk : ks.Sublist s.toKernel) (hr : rs.Sublist s.toDebugger) :
    ({ s with toKernel := ks, toDebugger := rs } : System).Inv := by
  obtain ⟨n, hn, hd, hnew⟩ := h.kernel
  exact ⟨h.unit, h.sorted.sublist hk, fun k hm => h.known k (hk.subset hm),
    fun r hm => h.answers r (hr.subset hm), n, hn, hd, fun k hm => hnew k (hk.subset hm)⟩

/-- The last request is put on the link, behind all that are there. -/
theorem Inv.transmit (h : s.Inv) (hpos : 0 < s.unit.count) :
    ({ s with toKernel := s.toKernel ++ [s.unit.current] } : System).Inv := by
  have hlt := Rkunit.current_lt hpos
  obtain ⟨n, hn, hd, hnew⟩ := h.kernel
  refine ⟨h.unit, ?_, fun k hk => ?_, h.answers, n, hn, hd, fun k hk => ?_⟩
  · refine List.pairwise_append.mpr ⟨h.sorted, List.pairwise_singleton _ _, fun j hj k hk => ?_⟩
    rw [List.mem_singleton.mp hk]
    exact Nat.le_sub_one_of_lt (h.known j hj)
  · rcases List.mem_append.mp hk with hk | hk
    · exact h.known k hk
    · rw [List.mem_singleton.mp hk]
      exact hlt
  · rcases List.mem_append.mp hk with hk | hk
    · exact hnew k hk
    · rw [List.mem_singleton.mp hk]
      unfold Rkunit.current
      omega

theorem Inv.kernel_step (h : s.Inv) {d : Rkdb} {rs : List Response} {n : ℕ}
    (hn : n ≤ s.unit.count) (hd : d.Inv s.unit.req n) (hnew : ∀ k ∈ s.toKernel, n ≤ k + 1)
    (hrs : ∀ r ∈ rs, s.unit.Genuine r) : (s.kernel (d, rs)).Inv := by
  refine ⟨h.unit, h.sorted, h.known, fun r hr => ?_, n, hn, hd, hnew⟩
  rcases List.mem_append.mp hr with hr | hr
  · exact h.answers r hr
  · exact hrs r hr

theorem request_inv (h : s.Inv) : (s.step (.request false)).Inv := by
  unfold step
  dsimp only
  split
  next k rest hq =>
    obtain ⟨n, hn, hd, hnew⟩ := h.kernel
    have hmem : k ∈ s.toKernel := by
      rw [hq]
      exact List.mem_cons_self
    have hk := h.known k hmem
    have hsub : rest.Sublist s.toKernel := by
      rw [hq]
      exact List.sublist_cons_self _ _
    have hrest := h.sublist hsub (List.Sublist.refl _)
    obtain ⟨hinv, hgen⟩ := Rkdb.handle_inv hd h.unit.ids hk (hnew k hmem)
    refine hrest.kernel_step hk hinv (fun j hj => ?_) hgen
    have hsorted := h.sorted
    rw [hq] at hsorted
    exact Nat.succ_le_succ ((List.pairwise_cons.mp hsorted).1 j hj)
  next => exact h

theorem response_inv (h : s.Inv) (alloc : Bool) : (s.step (.response alloc)).Inv := by
  unfold step
  dsimp only
  split
  next r rest hq =>
    have hr : s.unit.Genuine r := h.answers r (by rw [hq]; exact List.mem_cons_self)
    have hid : s.unit.id ≠ 0 := fun hz => by
      have hcount := (h.unit.ids.started hz).2.2.2
      have hlt := hr.1
      rw [hcount] at hlt
      exact absurd hlt (Nat.not_lt_zero _)
    have hsub : rest.Sublist s.toDebugger := by
      rw [hq]
      exact List.sublist_cons_self _ _
    have hrest := h.sublist (List.Sublist.refl _) hsub
    exact hrest.keeps (Rkunit.rkdrput_inv h.unit hid alloc fun _ => hr)
  next => exact h

theorem wake_inv (h : s.Inv) (dup : Bool) : (s.step (.wake dup)).Inv := by
  have hkeeps := Rkunit.wake_inv h.unit dup
  have hinv := h.keeps hkeeps
  have hsent : (s.unit.wake dup).2 = [] ∨
      (s.unit.wake dup).2 = [s.unit.current] ∧ 0 < s.unit.count := by
    unfold Rkunit.wake
    split
    next hctl hresp => exact .inr ⟨rfl, h.unit.sending true hctl⟩
    next => exact .inl rfl
    next mp r hctl hresp =>
      split
      · exact .inl rfl
      · split
        · exact .inr ⟨rfl, h.unit.sending mp hctl⟩
        · exact .inl rfl
    next => exact .inl rfl
  change (s.debugger (s.unit.wake dup)).Inv
  unfold debugger
  rcases hsent with hnone | ⟨hcur, hpos⟩
  · rw [hnone, List.append_nil]
    exact hinv
  · have hcurrent : s.unit.current = (s.unit.wake dup).1.current := by
      unfold Rkunit.current
      rw [hkeeps.count]
    rw [hcur, hcurrent]
    exact hinv.transmit (by change 0 < (s.unit.wake dup).1.count; rw [hkeeps.count]; exact hpos)

theorem send_inv (h : s.Inv) (command : Command) (dup : Bool)
    (hcare : s.unit.id.toNat + 1 < 0x100000000) : (s.step (.send command dup)).Inv := by
  have hunit := Rkunit.send_inv h.unit command dup hcare
  change (s.debugger (s.unit.send command dup)).Inv
  unfold debugger
  unfold Rkunit.send at *
  split
  next hctl =>
    simp only [hctl] at hunit
    have hgrow := h.setUnit hunit (Nat.le_succ _) fun k hk =>
      Function.update_of_ne (Nat.ne_of_lt hk) _ _
    exact hgrow.transmit (Nat.succ_pos _)
  next =>
    rw [List.append_nil]
    exact h

theorem boot_inv (t : Id) : (boot t).Inv := by
  have hunit : (boot t).unit.Inv := ⟨⟨nofun, nofun, nofun, fun _ => ⟨rfl, rfl, rfl, rfl⟩⟩,
    nofun, nofun, fun x hx => absurd hx List.not_mem_nil⟩
  exact ⟨hunit, List.Pairwise.nil, nofun, nofun, 0, Nat.le_refl 0,
    ⟨fun _ => Nat.zero_le 1, fun _ _ => rfl, .nothing rfl rfl⟩, nofun⟩

theorem step_inv (s : System) (e : Event) (h : s.Inv) (hcare : s.Careful e) : (s.step e).Inv := by
  cases e with
  | clock t => exact h.keeps (Rkunit.clock_inv h.unit t)
  | rkopen alloc => exact h.keeps (Rkunit.rkopen_inv h.unit alloc hcare)
  | rkclose => exact h.keeps (Rkunit.rkclose_inv h.unit)
  | bindAck junk => exact h.keeps (Rkunit.bindAck_inv h.unit junk hcare)
  | opened => exact h.keeps (Rkunit.opened_inv h.unit)
  | send command dup => exact send_inv h command dup hcare
  | wake dup => exact wake_inv h dup
  | signal => exact h.keeps (Rkunit.signal_inv h.unit)
  | loseRequest i => exact h.sublist (List.eraseIdx_sublist _ i) (List.Sublist.refl _)
  | loseResponse i => exact h.sublist (List.Sublist.refl _) (List.eraseIdx_sublist _ i)
  | request fault =>
      obtain rfl : fault = false := hcare
      exact request_inv h
  | response alloc => exact response_inv h alloc
  | kdebug clock escape =>
      obtain ⟨n, hn, hd, hnew⟩ := h.kernel
      obtain ⟨hinv, hgen⟩ := Rkdb.kdebug_inv hd hn clock escape
      exact h.kernel_step hn hinv hnew hgen

theorem Inv.asAnswered (h : s.Inv) : s.AsAnswered := by
  obtain ⟨n, -, hd, -⟩ := h.kernel
  exact ⟨hd.once, h.unit.returned⟩

/-- Requests are executed as answered in every run in which ids grow from one session to the
next and do not wrap around, nothing but the answer to a bind request opens the device while
one is awaited, and commands do not fault. -/
theorem requests_executed_once (t : Id) (es : List Event)
    (h : Every step Careful (boot t) es) :
    Every step (fun s e => (s.step e).AsAnswered) (boot t) es :=
  every_of_invariant Inv step_inv
    (fun s e hinv hcare => (step_inv s e hinv hcare).asAnswered) (boot_inv t) h

/-- The device is opened, and one request is executed and answered. -/
def session : List Event :=
  [.rkopen true, .bindAck ⟨0, 0⟩, .opened, .send .ECHO true, .request false, .response true,
    .wake true, .rkclose]

theorem requests_executed_once_session : Every step (fun s e => (s.step e).AsAnswered) (boot 5)
    session := by
  apply requests_executed_once
  exact ⟨fun _ _ => by decide, rfl, trivial, (by decide : 5 + 1 < 0x100000000), rfl, trivial,
    trivial, trivial, trivial⟩

/-- A second session within the same second starts with the id of the first: its request is
not executed, and the answer to the other one is returned. -/
theorem requests_executed_once_fails :
    ¬∀ t es, Every step (fun s e => (s.step e).AsAnswered) (boot t) es := by
  intro h
  have hs := (h 5 (session ++ session)).2.2.2.2.2.2.2.2.2.2.2.2.2.2.1.2
  exact absurd (hs (1, ⟨5, 0⟩) (by decide)) (by decide)

end System
end HydraAmix.Kdb.Remote
