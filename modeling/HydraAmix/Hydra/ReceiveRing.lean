import HydraAmix.Library.Schedule
import HydraAmix.Hydra.OpenClose
import HydraAmix.Hydra.ReceivePass

/-!
# The receive ring

The driver's side of the ring is a sequence of three kinds of steps: entering
`receive_interrupt`, one pass of its loop (with the hand-over of the packet it
found), and giving up after 256 passes. Every call is such a sequence
(`receiveInterrupt_schedule`).

Two systems are built on these steps, both starting from `setup_ne2000`. In
the first the receiver of the chip deposits frames between them, and the ring
is a first-in first-out queue. In the second the contents of the buffer RAM
and CURR are arbitrary, and BNRY stays one page behind `next_pkt` exactly
until a header names a page outside the ring.
-/
namespace HydraAmix.Hydra
open Word Program Prog Schedule

inductive DriverEvent where
  | enter
  | pass
  | limit
  deriving DecidableEq, Repr

/-- A step of `receive_interrupt`; the result is the packet handed up. -/
def driverStep (b : BoardId) : DriverEvent → HydraM (Option (List Byte))
  | .enter => do
      hydraOutb b NE_CR (NE_CR_P0 ||| NE_CR_STA ||| NE_CR_RDMA_ABORT)
      return none
  | .pass => do
      match ← receiveFrame b with
      | .packet p =>
          tossPacketUpStream b p
          return some p
      | _ => return none
  | .limit => do
      modifyStatus b fun st => { st with rxErrors := st.rxErrors + 1 }
      return none

/-- The world after a step of `receive_interrupt`. -/
def stepped (b : BoardId) (w : World) (e : DriverEvent) : World :=
  (run exec (driverStep b e) w).2

theorem receiveLoop_schedule (b : BoardId) (n : ℕ) (w : World) :
    ∃ es, (run exec (receiveLoop b n) w).2 = final (stepped b) w es := by
  induction n generalizing w with
  | zero => exact ⟨[.limit], rfl⟩
  | succ n ih =>
      have hp : stepped b w .pass =
          (run exec (driverStep b .pass) w).2 := rfl
      simp only [driverStep, run_bind] at hp
      rw [receiveLoop, run_bind]
      cases hr : (run exec (receiveFrame b) w).1 with
      | done =>
          refine ⟨[.pass], ?_⟩
          simp only [final_cons, final_nil, hp, hr]
          rfl
      | again =>
          obtain ⟨es, he⟩ := ih (stepped b w .pass)
          refine ⟨.pass :: es, ?_⟩
          rw [final_cons, ← he, hp, hr]
          rfl
      | packet p =>
          obtain ⟨es, he⟩ := ih (stepped b w .pass)
          refine ⟨.pass :: es, ?_⟩
          rw [final_cons, ← he, hp, hr]
          simp only [run_bind, run_pure]

/-- A call of `receive_interrupt` is a sequence of steps. -/
theorem receiveInterrupt_schedule (b : BoardId) (w : World) :
    ∃ es, (run exec (receiveInterrupt b) w).2 = final (stepped b) w (.enter :: es) := by
  obtain ⟨es, he⟩ := receiveLoop_schedule b 256 (stepped b w .enter)
  exact ⟨es, by rw [final_cons, ← he]; rfl⟩

/-! ### What the steps do to the ring's variables -/

section
variable (w : World) (b : BoardId)

/-- Outside a pass only the command register and the statistics change. -/
theorem stepped_of_ne_pass {e : DriverEvent} (h : e ≠ .pass) :
    (∃ c, (stepped b w e).nic b = { w.nic b with cmd := c }) ∧
      ((stepped b w e).drv.board b).info = (w.drv.board b).info := by
  cases e with
  | enter => exact ⟨⟨0x22#8, by simp [stepped, driverStep]⟩, by simp [stepped, driverStep]⟩
  | pass => exact absurd rfl h
  | limit => exact ⟨⟨(w.nic b).cmd, by simp [stepped, driverStep]⟩, by simp [stepped, driverStep]⟩

/-- The packet of a pass that found one. -/
def Received.handed : Received → Option (List Byte)
  | .packet p => some p
  | _ => none

theorem driverStep_pass {page : ℕ} (hn : (w.drv.board b).info.nextPkt = page)
    (hs : (w.drv.board b).info.rxStartPage = 8) (hp : 8 ≤ page ∧ page < 64) :
    (run exec (driverStep b .pass) w).1 = ((w.nic b).received page).handed ∧
      (stepped b w .pass).nic b =
        { w.nic b with cmd := 0x22#8, bnry := (w.nic b).boundary page } ∧
      ((stepped b w .pass).drv.board b).info =
        { (w.drv.board b).info with nextPkt := (w.nic b).nextPkt page } := by
  obtain ⟨d, hd, hrun⟩ := receiveFrame_run w b hn hs hp
  have hinfo := hd.info b
  rw [Driver.modifyBoard_self] at hinfo
  cases hr : (w.nic b).received page with
  | done | again => simp [stepped, driverStep, hrun, hr, hinfo, Received.handed]
  | packet p =>
      have ht := tossPacketUpStream_run ((w.setDrv d).setNic b
        { w.nic b with cmd := 0x22#8, bnry := (w.nic b).boundary page }) b p
      simp [stepped, driverStep, hrun, hr, ht.nic, ht.drv.info, hinfo, Received.handed]

end

/-! ### Deposits between the steps -/

/-- A frame the receiver stores: any bytes of a length Ethernet allows. -/
structure RxFrame where
  bytes : List Byte
  min : 60 ≤ bytes.length
  max : bytes.length ≤ 1518

/-- A receive status with PRX set. -/
abbrev RxStatus := { s : Byte // s &&& NE_RSR_PRX ≠ 0 }

inductive RingEvent where
  | deposit (status : RxStatus) (frame : RxFrame)
  | driver (e : DriverEvent)

/-- The machine, with the frames stored and the packets handed up so far. -/
structure RingRun where
  world : World
  deposited : List (List Byte)
  handed : List (List Byte)

def ringStep (b : BoardId) (s : RingRun) : RingEvent → RingRun
  | .deposit status frame =>
      let n := s.world.nic b
      { s with
        world := s.world.setNic b (n.deposit status frame.bytes)
        deposited :=
          if n.Fits frame.bytes.length then s.deposited ++ [frame.bytes] else s.deposited }
  | .driver e =>
      { s with
        world := stepped b s.world e
        handed := s.handed ++ (run exec (driverStep b e) s.world).1.toList }

/-- The machine after `setup_ne2000`, from whatever state it was in. -/
def ringStart (b : BoardId) (w : World) (a : Vector Byte 6) : RingRun :=
  ⟨(run exec (setupNe2000 b a) w).2, [], []⟩

/-- The ring pages of a frame, the header of the frame `p` pages into the ring
(counted without wrapping) and the frame behind it. -/
def RxFrame.pages (f : RxFrame) : ℕ := Nic.pages f.bytes.length

def ringPage (p : ℕ) : ℕ := 8 + p % 56

def ringRecord (p : ℕ) (x : RxStatus × RxFrame) : List Byte :=
  Nic.header (BitVec.ofNat 8 (ringPage (p + x.2.pages))) x.1 x.2.bytes.length ++ x.2.bytes

/-- The records of consecutive frames with the room they take. -/
def ringRecords : ℕ → List (RxStatus × RxFrame) → List (List Byte × ℕ)
  | _, [] => []
  | p, x :: xs => (ringRecord p x, 256 * x.2.pages) :: ringRecords (p + x.2.pages) xs

def totalPages (xs : List (RxStatus × RxFrame)) : ℕ := (xs.map fun x => x.2.pages).sum

/-- The frames `pending` stand in the ring from `next_pkt` up to CURR, BNRY is
the page before, and at least one page separates CURR from it. -/
structure RingInv (b : BoardId) (s : RingRun) (p : ℕ) (pending : List (RxStatus × RxFrame)) :
    Prop where
  nextPkt : (s.world.drv.board b).info.nextPkt = ringPage p
  rxStartPage : (s.world.drv.board b).info.rxStartPage = 8
  pstart : (s.world.nic b).pstart = 0x08#8
  pstop : (s.world.nic b).pstop = 0x40#8
  bnry : (s.world.nic b).bnry = BitVec.ofNat 8 (ringPage (p + 55))
  curr : (s.world.nic b).curr = BitVec.ofNat 8 (ringPage (p + totalPages pending))
  room : totalPages pending ≤ 55
  stored : Ring.Queued 0x800 0x3800 (s.world.nic b).ram (256 * p) (ringRecords p pending)
  frames : s.deposited = s.handed ++ pending.map fun x => x.2.bytes

theorem span_ringRecords (p : ℕ) (xs : List (RxStatus × RxFrame)) :
    Ring.span (ringRecords p xs) = 256 * totalPages xs := by
  induction xs generalizing p with
  | nil => rfl
  | cons x xs ih =>
      simp only [ringRecords, Ring.span_cons, ih, totalPages, List.map_cons, List.sum_cons,
        Nat.mul_add]

theorem ringRecords_append (p : ℕ) (xs : List (RxStatus × RxFrame)) (x : RxStatus × RxFrame) :
    ringRecords p (xs ++ [x]) =
      ringRecords p xs ++ [(ringRecord (p + totalPages xs) x, 256 * x.2.pages)] := by
  induction xs generalizing p with
  | nil => rfl
  | cons y ys ih =>
      simp only [List.cons_append, ringRecords, ih, totalPages, List.map_cons, List.sum_cons,
        Nat.add_assoc]

theorem ringPage_toNat (p : ℕ) : (BitVec.ofNat 8 (ringPage p)).toNat = ringPage p := by
  rw [BitVec.toNat_ofNat, Nat.mod_eq_of_lt]
  unfold ringPage
  omega

theorem ringStart_inv (b : BoardId) (w : World) (a : Vector Byte 6) :
    RingInv b (ringStart b w a) 1 [] := by
  obtain ⟨n, hn, hrun⟩ := setupNe2000_run w b a
  constructor
  all_goals simp [ringStart, hrun, HydraInfo.start, hn.pstart, hn.pstop, hn.bnry, hn.curr,
    ringPage, totalPages, ringRecords, Ring.Queued]

section
variable {b : BoardId} {s : RingRun} {p : ℕ} {pending : List (RxStatus × RxFrame)}

theorem RxFrame.pages_bounds (f : RxFrame) :
    1 ≤ f.pages ∧ f.pages ≤ 6 ∧ f.bytes.length + 4 ≤ 256 * f.pages := by
  have hmin := f.min
  have hmax := f.max
  unfold pages Nic.pages
  omega

/-- The chip counts ring pages from PSTART and wraps at PSTOP. -/
theorem RingInv.advance (h : RingInv b s p pending) (k : ℕ) :
    (s.world.nic b).advance (s.world.nic b).curr k =
      BitVec.ofNat 8 (ringPage (p + totalPages pending + k)) := by
  rw [Nic.advance, h.pstart, h.pstop, h.curr, ringPage_toNat]
  congr 1
  simp only [ringPage, BitVec.reduceToNat]
  omega

/-- A frame that does not run into BNRY leaves the page before `next_pkt` free. -/
theorem RingInv.room_of_fits (h : RingInv b s p pending) {f : RxFrame}
    (hf : (s.world.nic b).Fits f.bytes.length) : totalPages pending + f.pages ≤ 55 := by
  by_contra hc
  have hroom := h.room
  refine hf (55 - totalPages pending) ?_ ?_
  · change _ < f.pages
    omega
  · rw [h.advance, h.bnry]
    congr 1
    simp only [ringPage]
    omega

theorem RingInv.deposit (h : RingInv b s p pending) (status : RxStatus) (frame : RxFrame) :
    ∃ pending', RingInv b (ringStep b s (.deposit status frame)) p pending' := by
  by_cases hf : (s.world.nic b).Fits frame.bytes.length
  · refine ⟨pending ++ [(status, frame)], ?_⟩
    have hroom := h.room_of_fits hf
    have htotal : totalPages (pending ++ [(status, frame)]) = totalPages pending + frame.pages := by
      simp [totalPages]
    have hn : (s.world.nic b).deposit status frame.bytes =
        { s.world.nic b with
          ram := Ring.store 0x800 0x3800 (s.world.nic b).ram
            (256 * p + Ring.span (ringRecords p pending))
            (ringRecord (p + totalPages pending) (status, frame))
          curr := BitVec.ofNat 8 (ringPage (p + totalPages pending + frame.pages)) } := by
      have hcurr := h.advance (Nic.pages frame.bytes.length)
      have hpos : ((s.world.nic b).curr.toNat - (s.world.nic b).pstart.toNat) * 256 % 0x3800 =
          (256 * p + Ring.span (ringRecords p pending)) % 0x3800 := by
        rw [h.curr, h.pstart, ringPage_toNat, span_ringRecords]
        simp only [ringPage, BitVec.reduceToNat]
        omega
      simp only [Nic.deposit, if_pos hf, hcurr, ← Ring.store_congr_pos _ _ _ hpos]
      simp only [h.pstart, h.pstop]
      rfl
    have hpush := h.stored.push (ringRecord (p + totalPages pending) (status, frame))
      (k := 256 * frame.pages)
      (by simp [ringRecord, Nic.header]; exact frame.pages_bounds.2.2)
      (by rw [span_ringRecords]; omega)
    rw [← ringRecords_append (x := (status, frame))] at hpush
    simp only [ringStep, hn, if_pos hf]
    constructor
    case nextPkt => exact h.nextPkt
    case rxStartPage => exact h.rxStartPage
    case room => omega
    case frames => simp [h.frames]
    all_goals rw [World.setNic_self]
    · exact h.pstart
    · exact h.pstop
    · exact h.bnry
    · rw [htotal, Nat.add_assoc]
    · exact hpush
  · refine ⟨pending, ?_⟩
    have hn : (s.world.nic b).deposit status frame.bytes = s.world.nic b := by
      rw [Nic.deposit, if_neg hf]
    have hstep : ringStep b s (.deposit status frame) = s := by
      simp only [ringStep, hn, if_neg hf, World.setNic_eq_self]
    rwa [hstep]

/-- What the header in front of the first pending frame says. -/
theorem RingInv.header (h : RingInv b s p pending) {x : RxStatus × RxFrame}
    {rest : List (RxStatus × RxFrame)} (hx : pending = x :: rest) :
    ringPage p ≠ (s.world.nic b).curr.toNat ∧
      (s.world.nic b).received (ringPage p) = .packet x.2.bytes ∧
      (s.world.nic b).nextPage (ringPage p) = ringPage (p + x.2.pages) := by
  subst hx
  have hb := x.2.pages_bounds
  have hroom := h.room
  have htotal : totalPages (x :: rest) = x.2.pages + totalPages rest := by simp [totalPages]
  obtain ⟨hstored, -, -⟩ := h.stored
  have hlen : (ringRecord p x).length = 4 + x.2.bytes.length := by
    simp [ringRecord, Nic.header]
    omega
  have hbyte : ∀ i (hi : i < 4), (s.world.nic b).ram (ringPage p * 256 + i) =
      (ringRecord p x)[i] := fun i hi => by
    rw [← Ring.getElem_of_fetch 0x800 0x3800 hstored (by omega)]
    congr 1
    simp only [Ring.cell, ringPage]
    omega
  have hcurr : ringPage p ≠ (s.world.nic b).curr.toNat := by
    rw [h.curr, ringPage_toNat]
    simp only [ringPage]
    omega
  have hnext : (s.world.nic b).nextPage (ringPage p) = ringPage (p + x.2.pages) := by
    rw [Nic.nextPage, ← Nat.add_zero (_ * _), hbyte 0 (by omega), ← ringPage_toNat]
    rfl
  have hstatus : (s.world.nic b).status (ringPage p) = x.1 := hbyte 1 (by omega)
  have hsize : (s.world.nic b).size (ringPage p) = x.2.bytes.length + 4 := by
    have hmax := x.2.max
    rw [Nic.size, hbyte 3 (by omega), hbyte 2 (by omega)]
    change (BitVec.ofNat 8 _).toNat * 256 + (BitVec.ofNat 8 _).toNat = _
    simp only [BitVec.toNat_ofNat]
    omega
  have hpacket : (s.world.nic b).packet (ringPage p) x.2.bytes.length = x.2.bytes := by
    rw [hlen, Ring.fetch_add] at hstored
    rw [Nic.packet, Ring.fetch_congr_pos (q := 256 * p + 4)]
    · exact (List.append_inj hstored (by simp [Nic.header])).2
    · simp only [ringPage]
      omega
  refine ⟨hcurr, ?_, hnext⟩
  have hmin := x.2.min
  have hmax := x.2.max
  have hpage : ringPage (p + x.2.pages) < 64 ∧ 8 ≤ ringPage (p + x.2.pages) := by
    simp only [ringPage]
    omega
  rw [Nic.received, if_neg hcurr, hnext, if_neg (by omega), hstatus, if_neg x.1.2, hsize,
    if_neg (by omega), Nat.add_sub_cancel, hpacket]

theorem ringPage_bounds (p : ℕ) : 8 ≤ ringPage p ∧ ringPage p < 64 := by
  unfold ringPage
  omega

theorem boundaryBefore_ringPage (p : ℕ) :
    BitVec.ofInt 8 (boundaryBefore (ringPage p)) = BitVec.ofNat 8 (ringPage (p + 55)) := by
  have hb : boundaryBefore (ringPage p) = ringPage (p + 55) := by
    unfold boundaryBefore ringPage NE8390_RX_START_PG NE8390_START_PG NE8390_TX_PAGES NE8390_STOP_PG
    omega
  rw [hb]
  rfl

/-- The invariant after a step that moves `next_pkt` and BNRY and leaves the
rest of the ring alone. -/
theorem RingInv.moved {s' : RingRun} {p' : ℕ} {rest : List (RxStatus × RxFrame)} {c : Byte}
    (h : RingInv b s p pending)
    (hnic : s'.world.nic b =
      { s.world.nic b with cmd := c, bnry := BitVec.ofNat 8 (ringPage (p' + 55)) })
    (hinfo : (s'.world.drv.board b).info =
      { (s.world.drv.board b).info with nextPkt := ringPage p' })
    (hp : p' + totalPages rest = p + totalPages pending) (hroom : totalPages rest ≤ 55)
    (hstored : Ring.Queued 0x800 0x3800 (s.world.nic b).ram (256 * p') (ringRecords p' rest))
    (hframes : s'.deposited = s'.handed ++ rest.map fun x => x.2.bytes) :
    RingInv b s' p' rest where
  nextPkt := by rw [hinfo]
  rxStartPage := by rw [hinfo, h.rxStartPage]
  pstart := by rw [hnic, h.pstart]
  pstop := by rw [hnic, h.pstop]
  bnry := by rw [hnic]
  curr := by rw [hnic, hp, h.curr]
  room := hroom
  stored := by rw [hnic]; exact hstored
  frames := hframes

/-- A pass with nothing pending changes nothing in the ring. -/
theorem RingInv.pass_nil (h : RingInv b s p []) :
    RingInv b (ringStep b s (.driver .pass)) p [] := by
  have hcurr : ringPage p = (s.world.nic b).curr.toNat := by
    rw [h.curr, ringPage_toNat]
    rfl
  obtain ⟨hr, hnic, hinfo⟩ :=
    driverStep_pass s.world b h.nextPkt h.rxStartPage (ringPage_bounds p)
  rw [Nic.received, if_pos hcurr] at hr
  rw [Nic.boundary, if_pos hcurr, h.bnry] at hnic
  rw [Nic.nextPkt, if_pos hcurr] at hinfo
  refine h.moved hnic hinfo rfl h.room h.stored ?_
  rw [ringStep, hr]
  simpa [Received.handed] using h.frames

/-- A pass hands up the first pending frame and frees its pages. -/
theorem RingInv.pass_cons {x : RxStatus × RxFrame} {rest : List (RxStatus × RxFrame)}
    (h : RingInv b s p (x :: rest)) :
    RingInv b (ringStep b s (.driver .pass)) (p + x.2.pages) rest := by
  obtain ⟨hcurr, hreceived, hnext⟩ := h.header rfl
  have hbounds := ringPage_bounds (p + x.2.pages)
  have htotal : totalPages (x :: rest) = x.2.pages + totalPages rest := by simp [totalPages]
  have hroom := h.room
  obtain ⟨hr, hnic, hinfo⟩ :=
    driverStep_pass s.world b h.nextPkt h.rxStartPage (ringPage_bounds p)
  rw [hreceived] at hr
  rw [Nic.boundary, if_neg hcurr, hnext, if_neg (by omega), boundaryBefore_ringPage] at hnic
  rw [Nic.nextPkt, if_neg hcurr, hnext, if_neg (by omega)] at hinfo
  refine h.moved hnic hinfo (by omega) (by omega) ?_ ?_
  · rw [Nat.mul_add]
    exact h.stored.2.2
  · rw [ringStep, hr]
    simp [Received.handed, h.frames]

theorem RingInv.driver {e : DriverEvent} (he : e ≠ .pass) (h : RingInv b s p pending) :
    RingInv b (ringStep b s (.driver e)) p pending := by
  have hr : (run exec (driverStep b e) s.world).1 = none := by
    cases e with
    | enter | limit => rfl
    | pass => exact absurd rfl he
  obtain ⟨⟨c, hnic⟩, hinfo⟩ := stepped_of_ne_pass s.world b he
  refine h.moved (c := c) ?_ ?_ rfl h.room h.stored ?_
  · rw [← h.bnry]
    exact hnic
  · rw [← h.nextPkt]
    exact hinfo
  · rw [ringStep, hr]
    simpa using h.frames

/-- Every step keeps the ring a queue. -/
theorem RingInv.step (h : RingInv b s p pending) (e : RingEvent) :
    ∃ p' pending', RingInv b (ringStep b s e) p' pending' := by
  cases e with
  | deposit status frame =>
      obtain ⟨pending', h'⟩ := h.deposit status frame
      exact ⟨p, pending', h'⟩
  | driver e =>
      by_cases he : e = .pass
      · subst he
        cases pending with
        | nil => exact ⟨p, [], h.pass_nil⟩
        | cons x rest => exact ⟨p + x.2.pages, rest, h.pass_cons⟩
      · exact ⟨p, pending, h.driver he⟩

end

/-- The packets handed up are the first frames deposited, each complete and in
order, and all of them once `next_pkt` has caught up with CURR. -/
theorem receive_ring_fifo (b : BoardId) (w : World) (a : Vector Byte 6) (es : List RingEvent) :
    let s := final (ringStep b) (ringStart b w a) es
    s.handed <+: s.deposited ∧
      ((s.world.drv.board b).info.nextPkt = (s.world.nic b).curr.toNat →
        s.handed = s.deposited) := by
  obtain ⟨p, pending, h⟩ : ∃ p pending, RingInv b (final (ringStep b) (ringStart b w a) es) p pending :=
    final_invariant (fun s => ∃ p pending, RingInv b s p pending) (fun s e ⟨_, _, h⟩ => h.step e)
      ⟨1, [], ringStart_inv b w a⟩ es
  refine ⟨⟨_, h.frames.symm⟩, fun hc => ?_⟩
  cases pending with
  | nil => simpa using h.frames.symm
  | cons x rest =>
      refine absurd ?_ (h.header rfl).1
      exact_mod_cast h.nextPkt.symm.trans hc

end HydraAmix.Hydra
