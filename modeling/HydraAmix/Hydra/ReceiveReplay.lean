import HydraAmix.Hydra.ReceiveBoundary
import HydraAmix.Library.Pointers
import Mathlib.Order.Interval.Finset.Nat

/-!
# Frames that come again

A pass takes the next page from the header it has read, and only checks that it is a
ring page. Where the headers form a cycle that does not pass CURR, the loop goes
round until `loop_count` ends it, 256 passes for 56 pages, and hands the frames of
the cycle up in every round. `handedLoop` is the receive loop with the start pages of
the frames it has handed up as its result.
-/
namespace HydraAmix.Hydra
open Word Program Prog Pointers Relation Schedule

/-- The receive loop; the result is the start pages of the frames that were given to
`toss_packet_up_stream`. -/
def handedLoop (b : BoardId) : ℕ → HydraM (List ℤ)
  | 0 => do
      modifyStatus b fun st => { st with rxErrors := st.rxErrors + 1 }
      return []
  | n + 1 => do
      let page := ((← load).board b).info.nextPkt
      match ← receiveFrame b with
      | .done => return []
      | .again => handedLoop b n
      | .packet p =>
          tossPacketUpStream b p
          let pages ← handedLoop b n
          return page :: pages

/-- The start pages that a call of `receive_interrupt` hands up. -/
def handedPages (b : BoardId) (w : World) : List ℤ :=
  (run exec (do hydraOutb b NE_CR (NE_CR_P0 ||| NE_CR_STA ||| NE_CR_RDMA_ABORT); handedLoop b 256)
    w).1

/-- The page a pass goes on with, if it does not end the loop. -/
def Nic.successor (n : Nic) (page : ℕ) : Option ℕ :=
  if n.received page = .done then none else some (n.nextPage page)

/-- There is a frame on the page, and its header is good. -/
def Nic.Deliverable (n : Nic) (page : ℕ) : Prop := (n.received page).handed.isSome

instance (n : Nic) : DecidablePred n.Deliverable := fun page => by
  unfold Nic.Deliverable
  infer_instance

section
variable {b : BoardId} {w : World}

/-- The log does not change what the loop does. -/
theorem handedLoop_world (b : BoardId) (n : ℕ) (w : World) :
    (run exec (handedLoop b n) w).2 = (run exec (receiveLoop b n) w).2 := by
  induction n generalizing w with
  | zero => rfl
  | succ n ih =>
      rw [handedLoop, receiveLoop, run_bind, run_load, run_bind, run_bind]
      cases (run exec (receiveFrame b) w).1 with
      | done => rfl
      | again => exact ih _
      | packet p =>
          dsimp only
          rw [run_bind, run_bind, run_bind, run_pure]
          exact ih _

theorem handedPages_world (b : BoardId) (w : World) :
    (run exec (do hydraOutb b NE_CR (NE_CR_P0 ||| NE_CR_STA ||| NE_CR_RDMA_ABORT)
                  handedLoop b 256) w).2 = (run exec (receiveInterrupt b) w).2 := by
  rw [receiveInterrupt, run_bind, run_bind]
  exact handedLoop_world b 256 _

/-- The ring and CURR are what a pass reads of the chip. -/
theorem Nic.received_congr {n n' : Nic} (hr : n'.ram = n.ram) (hc : n'.curr = n.curr) (page : ℕ) :
    n'.received page = n.received page := by
  unfold Nic.received Nic.nextPage Nic.status Nic.size Nic.packet
  rw [hr, hc]

theorem Nic.bounds_of_successor {n : Nic} {page next : ℕ} (h : n.successor page = some next) :
    n.received page ≠ .done ∧ n.nextPkt page = next ∧ n.nextPage page = next ∧
      8 ≤ next ∧ next < 64 := by
  unfold Nic.successor at h
  split_ifs at h with hlive
  have hnext : n.nextPage page = next := Option.some.inj h
  have hc : page ≠ n.curr.toNat := fun hc => hlive (by rw [Nic.received, if_pos hc])
  have hr : ¬(n.nextPage page < 8 ∨ 64 ≤ n.nextPage page) := fun hr =>
    hlive (by rw [Nic.received, if_neg hc, if_pos hr])
  refine ⟨hlive, ?_, hnext, by omega, by omega⟩
  rw [Nic.nextPkt, if_neg hc, if_neg hr, hnext]

/-- The loop reads the same ring after a pass, and goes on with the next page. -/
theorem handedLoop_pages (b : BoardId) (n : ℕ) (w : World) {page : ℕ}
    (hn : (w.drv.board b).info.nextPkt = page) (hs : (w.drv.board b).info.rxStartPage = 8)
    (hp : 8 ≤ page ∧ page < 64) : (run exec (handedLoop b n) w).1 =
      ((visited (w.nic b).successor n page).filter (w.nic b).Deliverable).map Nat.cast := by
  induction n generalizing w page with
  | zero => rfl
  | succ n ih =>
      obtain ⟨d, hd, hrun⟩ := receiveFrame_run w b hn hs hp
      have hinfo := hd.info b
      rw [Driver.modifyBoard_self] at hinfo
      have hlater : ∀ w' : World, (w'.nic b).ram = (w.nic b).ram →
          (w'.nic b).curr = (w.nic b).curr → (w'.drv.board b).info = (d.board b).info →
          (w.nic b).received page ≠ .done → (run exec (handedLoop b n) w').1 =
            ((visited (w.nic b).successor n ((w.nic b).nextPage page)).filter
              (w.nic b).Deliverable).map Nat.cast := fun w' hram hcurr hi hlive => by
        have hreceived := Nic.received_congr hram hcurr
        have hsucc : (w'.nic b).successor = (w.nic b).successor := funext fun page => by
          unfold Nic.successor Nic.nextPage
          rw [hreceived, hram]
        have hdel : (w'.nic b).Deliverable = (w.nic b).Deliverable := funext fun page => by
          unfold Nic.Deliverable
          rw [hreceived]
        obtain ⟨-, hnext, -, hbounds⟩ := Nic.bounds_of_successor
          (show (w.nic b).successor page = some ((w.nic b).nextPage page) from if_neg hlive)
        have hih := @ih w' ((w.nic b).nextPage page) (by rw [hi, hinfo, ← hnext])
          (by rw [hi, hinfo]; exact hs) hbounds
        rw [hih, hsucc]
        congr 1
        exact List.filter_congr fun x _ => by rw [decide_eq_decide, hdel]
      rw [handedLoop, run_bind, run_load, run_bind, hrun]
      cases hr : (w.nic b).received page with
      | done =>
          rw [visited, Nic.successor, if_pos hr]
          rfl
      | again =>
          have hlive : (w.nic b).received page ≠ .done := by
            rw [hr]
            exact Received.noConfusion
          have hnot : ¬(w.nic b).Deliverable page := by
            rw [Nic.Deliverable, hr]
            exact Bool.false_ne_true
          rw [visited, Nic.successor, if_neg hlive]
          dsimp only
          rw [List.filter_cons_of_neg (by simpa using hnot)]
          exact hlater _ (by simp) (by simp) rfl hlive
      | packet p =>
          have hlive : (w.nic b).received page ≠ .done := by
            rw [hr]
            exact Received.noConfusion
          have hdel : (w.nic b).Deliverable page := by
            rw [Nic.Deliverable, hr]
            rfl
          have ht := tossPacketUpStream_run ((w.setDrv d).setNic b
            { w.nic b with cmd := 0x22#8, bnry := (w.nic b).boundary page }) b p
          rw [visited, Nic.successor, if_neg hlive]
          dsimp only
          rw [List.filter_cons_of_pos (by simpa using hdel), List.map_cons, run_bind, run_bind,
            run_pure, hn, hlater _ (by rw [ht.nic]; simp) (by rw [ht.nic]; simp)
              (ht.drv.info b) hlive]

/-- No frame that `next_pkt` leads to leads back to itself. -/
def Nic.NoReplay (n : Nic) (page : ℕ) : Prop :=
  ∀ p, ReflTransGen (Leads n.successor) page p → TransGen (Leads n.successor) p p →
    ¬n.Deliverable p

theorem handedPages_eq (b : BoardId) (w : World) {page : ℕ}
    (hn : (w.drv.board b).info.nextPkt = page) (hs : (w.drv.board b).info.rxStartPage = 8)
    (hp : 8 ≤ page ∧ page < 64) : handedPages b w =
      ((visited (w.nic b).successor 256 page).filter (w.nic b).Deliverable).map Nat.cast := by
  have hcmd : run exec (hydraOutb b NE_CR (NE_CR_P0 ||| NE_CR_STA ||| NE_CR_RDMA_ABORT)) w =
      ((), w.setNic b { w.nic b with cmd := 0x22#8 }) := by simp
  have hloop := handedLoop_pages b 256 (w.setNic b { w.nic b with cmd := 0x22#8 }) hn hs hp
  rw [World.setNic_self] at hloop
  rw [handedPages, run_bind, hcmd, hloop]
  rfl

theorem Nic.successor_mem (n : Nic) : ∀ p ∈ Finset.Ico 8 64, ∀ q, n.successor p = some q →
    q ∈ Finset.Ico 8 64 := fun _ _ _ h =>
  Finset.mem_Ico.mpr (Nic.bounds_of_successor h).2.2.2

theorem handedPages_nodup (b : BoardId) (w : World) (h : BoundaryInv b w) :
    (handedPages b w).Nodup ↔ (w.nic b).NoReplay (w.drv.board b).info.nextPkt.toNat := by
  obtain ⟨page, hn, hp⟩ := h.page
  rw [handedPages_eq b w hn h.rxStartPage hp, List.nodup_map_iff Nat.cast_injective, hn,
    Int.toNat_natCast]
  exact visited_filter_nodup (w.nic b).successor_mem (Finset.mem_Ico.mpr hp) (by decide)

/-- Each start page is handed up at most once, and so no more frames than there are
pages, if and only if no frame that `next_pkt` leads to leads back to itself. -/
theorem receive_without_replay (b : BoardId) (w : World) (h : BoundaryInv b w) :
    (handedPages b w).Nodup ∧ (handedPages b w).length ≤ 56 ↔
      (w.nic b).NoReplay (w.drv.board b).info.nextPkt.toNat := by
  rw [← handedPages_nodup b w h, and_iff_left_iff_imp]
  intro hd
  obtain ⟨page, hn, hp⟩ := h.page
  rw [handedPages_eq b w hn h.rxStartPage hp] at hd ⊢
  rw [List.length_map, ← List.toFinset_card_of_nodup (List.Nodup.of_map _ hd)]
  refine Finset.card_le_card (t := Finset.Ico 8 64) fun x hx => ?_
  exact mem_of_mem_visited (w.nic b).successor_mem (Finset.mem_Ico.mpr hp)
    (List.mem_of_mem_filter (List.mem_toFinset.mp hx))

/-! ### Two rings -/

/-- Every page has a frame of 60 bytes, and names the same next page. -/
def ringOf (next : Byte) (a : ℕ) : Byte := [next, 1, 64].getD (a % 256) 0

/-- The machine after an open, with CURR on page 10. -/
def ringWorld (b : BoardId) (next : Byte) : World :=
  cardStep b (started b World.off (.replicate 6 0)) (.card (ringOf next) 10)

theorem ringWorld_inv (next : Byte) : BoundaryInv 0 (ringWorld 0 next) :=
  (started_inv 0 World.off _).1.step _

theorem ringWorld_nextPkt (next : Byte) :
    ((ringWorld 0 next).drv.board 0).info.nextPkt.toNat = 9 := by
  rw [ringWorld, cardStep, World.setNic_drv, started_nextPkt]
  rfl

theorem ringWorld_nic (next : Byte) : ((ringWorld 0 next).nic 0).ram = ringOf next ∧
    ((ringWorld 0 next).nic 0).curr = 10 := by
  rw [ringWorld, cardStep, World.setNic_self]
  exact ⟨rfl, rfl⟩

theorem ringOf_add (next : Byte) (page i : ℕ) (hi : i < 256) :
    ringOf next (page * 256 + i) = [next, 1, 64].getD i 0 := by
  rw [ringOf, Nat.mul_comm, Nat.mul_add_mod, Nat.mod_eq_of_lt hi]

/-- Where CURR is elsewhere, a page leads to the page that all headers name. -/
theorem ringWorld_received {next : Byte} {page : ℕ} (hn : 8 ≤ next.toNat ∧ next.toNat < 64)
    (hc : page ≠ 10) : ((ringWorld 0 next).nic 0).Deliverable page ∧
      ((ringWorld 0 next).nic 0).successor page = some next.toNat := by
  obtain ⟨hram, hcurr⟩ := ringWorld_nic next
  have hnext : ((ringWorld 0 next).nic 0).nextPage page = next.toNat := by
    rw [Nic.nextPage, hram, ← Nat.add_zero (page * 256), ringOf_add _ _ _ (by omega)]
    rfl
  have hstatus : ((ringWorld 0 next).nic 0).status page = 1 := by
    rw [Nic.status, hram, ringOf_add _ _ _ (by omega)]
    rfl
  have hsize : ((ringWorld 0 next).nic 0).size page = 64 := by
    rw [Nic.size, hram, ringOf_add _ _ _ (by omega), ringOf_add _ _ _ (by omega)]
    change (0 : Byte).toNat * 256 + (64 : Byte).toNat = 64
    decide
  have hframe : ∃ p, ((ringWorld 0 next).nic 0).received page = .packet p := by
    have hcurrent : page ≠ (10 : Byte).toNat := hc
    rw [Nic.received, hcurr, hnext, hstatus, hsize, if_neg hcurrent, if_neg (by omega),
      if_neg (by decide), if_neg (by decide)]
    exact ⟨_, rfl⟩
  obtain ⟨p, hp⟩ := hframe
  rw [Nic.Deliverable, Nic.successor, hp, hnext]
  exact ⟨rfl, rfl⟩

/-- Page 9 leads to CURR, and its frame is handed up once. -/
theorem receive_without_replay_chain : (handedPages 0 (ringWorld 0 10)).Nodup ∧
    (handedPages 0 (ringWorld 0 10)).length ≤ 56 := by
  refine (receive_without_replay 0 (ringWorld 0 10) (ringWorld_inv 10)).mpr fun p _ hc _ => ?_
  -- only page 10 is led to, and CURR is there
  obtain ⟨hlive, -, -, -⟩ := Nic.bounds_of_successor (TransGen.head'_iff.mp hc).choose_spec.1
  by_cases hp : p = 10
  · refine hlive ?_
    rw [hp, Nic.received, (ringWorld_nic 10).2]
    rfl
  · obtain ⟨q, -, hq⟩ := TransGen.tail'_iff.mp hc
    by_cases hq10 : q = 10
    · obtain ⟨hlive, -⟩ := Nic.bounds_of_successor hq
      refine hlive ?_
      rw [hq10, Nic.received, (ringWorld_nic 10).2]
      rfl
    · rw [Leads, (ringWorld_received (by decide) hq10).2] at hq
      exact hp (Option.some.inj hq).symm

/-- Page 9 leads to itself, and its frame is handed up in each of the 256 passes. -/
theorem receive_without_replay_fails : ¬ ∀ b w, BoundaryInv b w →
    (handedPages b w).Nodup ∧ (handedPages b w).length ≤ 56 := by
  intro h
  have hno := (handedPages_nodup 0 _ (ringWorld_inv 9)).mp (h 0 (ringWorld 0 9) (ringWorld_inv 9)).1
  rw [ringWorld_nextPkt] at hno
  obtain ⟨hframe, hnext⟩ := @ringWorld_received 9 9 (by decide) (by decide)
  exact hno 9 .refl (.single hnext) hframe

end
end HydraAmix.Hydra
