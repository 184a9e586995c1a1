import HydraAmix.Hydra.ReceiveRing

/-!
# BNRY against arbitrary buffer contents

Between the steps of `receive_interrupt` the card may hold anything: `card`
replaces the whole buffer RAM and CURR. `next_pkt` stays a ring page on every
run. BNRY is its cyclic predecessor as long as no pass reads a header whose
next page lies outside the ring; the branch for such a header writes the start
page to both, without the wrap that the other branches make, and from there on
BNRY and `next_pkt` coincide.
-/
namespace HydraAmix.Hydra
open Word Program Prog Schedule

inductive CardEvent where
  | card (ram : ℕ → Byte) (curr : Byte)
  | driver (e : DriverEvent)

def cardStep (b : BoardId) (w : World) : CardEvent → World
  | .card ram curr => w.setNic b { w.nic b with ram := ram, curr := curr }
  | .driver e => stepped b w e

/-- The machine after `setup_ne2000`, from whatever state it was in. -/
def started (b : BoardId) (w : World) (a : Vector Byte 6) : World :=
  (run exec (setupNe2000 b a) w).2

/-- `next_pkt` is a ring page and BNRY the page before it. -/
def OnePageBehind (b : BoardId) (w : World) : Prop :=
  let next := (w.drv.board b).info.nextPkt
  NE8390_RX_START_PG ≤ next ∧ next < NE8390_STOP_PG ∧
    ((w.nic b).bnry.toNat : ℤ) =
      if next = NE8390_RX_START_PG then NE8390_STOP_PG - 1 else next - 1

/-- A pass finds the ring empty, or a header that names a ring page. -/
def NamesRingPage (b : BoardId) (w : World) (e : CardEvent) : Prop :=
  e = .driver .pass →
    let page := (w.drv.board b).info.nextPkt.toNat
    page = (w.nic b).curr.toNat ∨
      NE8390_RX_START_PG ≤ (w.nic b).nextPage page ∧ (w.nic b).nextPage page < NE8390_STOP_PG

/-- The driver's part of the ring invariant, for any contents of the ring. -/
structure BoundaryInv (b : BoardId) (w : World) : Prop where
  rxStartPage : (w.drv.board b).info.rxStartPage = 8
  page : ∃ p : ℕ, (w.drv.board b).info.nextPkt = p ∧ 8 ≤ p ∧ p < 64

section
variable {b : BoardId} {w : World}

theorem started_nextPkt (b : BoardId) (w : World) (a : Vector Byte 6) :
    ((started b w a).drv.board b).info.nextPkt = 9 := by
  obtain ⟨n, hn, hrun⟩ := setupNe2000_run w b a
  simp [started, hrun, HydraInfo.start]

theorem started_inv (b : BoardId) (w : World) (a : Vector Byte 6) :
    BoundaryInv b (started b w a) ∧ OnePageBehind b (started b w a) := by
  obtain ⟨n, hn, hrun⟩ := setupNe2000_run w b a
  refine ⟨⟨?_, 9, started_nextPkt b w a, by omega, by omega⟩, ?_⟩
  · simp [started, hrun, HydraInfo.start]
  · simp [OnePageBehind, started, hrun, HydraInfo.start, hn.bnry, NE8390_RX_START_PG,
      NE8390_START_PG, NE8390_TX_PAGES, NE8390_STOP_PG]

theorem nextPkt_bounds (n : Nic) {p : ℕ} (hp : 8 ≤ p ∧ p < 64) :
    8 ≤ n.nextPkt p ∧ n.nextPkt p < 64 := by
  unfold Nic.nextPkt
  split_ifs <;> omega

theorem BoundaryInv.step (h : BoundaryInv b w) (e : CardEvent) :
    BoundaryInv b (cardStep b w e) := by
  obtain ⟨p, hp, hb⟩ := h.page
  cases e with
  | card ram curr => exact ⟨h.rxStartPage, p, hp, hb⟩
  | driver e =>
      by_cases he : e = .pass
      · subst he
        obtain ⟨-, -, hinfo⟩ := driverStep_pass w b hp h.rxStartPage hb
        exact ⟨by rw [cardStep, hinfo]; exact h.rxStartPage, _, by rw [cardStep, hinfo],
          nextPkt_bounds _ hb⟩
      · have hinfo := (stepped_of_ne_pass w b he).2
        exact ⟨by rw [cardStep, hinfo]; exact h.rxStartPage, p, by rw [cardStep, hinfo]; exact hp, hb⟩

theorem boundary_toNat {p : ℕ} (hp : 8 ≤ p ∧ p < 64) :
    (BitVec.ofInt 8 (boundaryBefore p)).toNat = if p = 8 then 63 else p - 1 := by
  have hr : p = ringPage (p - 8) := by
    unfold ringPage
    omega
  rw [hr, boundaryBefore_ringPage, ringPage_toNat]
  unfold ringPage
  split_ifs <;> omega

/-- A pass keeps BNRY one page behind exactly if the header allows it. -/
theorem onePageBehind_pass (h : BoundaryInv b w) (hw : OnePageBehind b w) :
    OnePageBehind b (stepped b w .pass) ↔ NamesRingPage b w (.driver .pass) := by
  obtain ⟨p, hp, hb⟩ := h.page
  obtain ⟨-, hnic, hinfo⟩ := driverStep_pass w b hp h.rxStartPage hb
  simp only [OnePageBehind, NamesRingPage, hnic, hinfo, hp, NE8390_RX_START_PG, NE8390_START_PG,
    NE8390_TX_PAGES, NE8390_STOP_PG, Int.toNat_natCast, forall_const] at hw ⊢
  by_cases hc : p = (w.nic b).curr.toNat
  · rw [Nic.nextPkt, Nic.boundary, if_pos hc, if_pos hc]
    exact iff_of_true hw (.inl hc)
  · rw [Nic.nextPkt, Nic.boundary, if_neg hc, if_neg hc]
    by_cases hn : (w.nic b).nextPage p < 8 ∨ 64 ≤ (w.nic b).nextPage p
    · rw [if_pos hn, if_pos hn]
      refine iff_of_false (fun hx => absurd hx.2.2 (by decide)) ?_
      omega
    · rw [if_neg hn, if_neg hn, boundary_toNat (by omega)]
      refine iff_of_true ⟨by omega, by omega, ?_⟩ (.inr (by omega))
      split_ifs <;> omega

theorem onePageBehind_step (h : BoundaryInv b w ∧ OnePageBehind b w) (e : CardEvent) :
    OnePageBehind b (cardStep b w e) ↔ NamesRingPage b w e := by
  cases e with
  | card ram curr => simpa [cardStep, OnePageBehind, NamesRingPage] using h.2
  | driver e =>
      by_cases he : e = .pass
      · subst he
        exact onePageBehind_pass h.1 h.2
      · obtain ⟨⟨c, hnic⟩, hinfo⟩ := stepped_of_ne_pass w b he
        simpa [cardStep, OnePageBehind, NamesRingPage, hnic, hinfo, he] using h.2

end

/-- On every run `next_pkt` is a ring page. -/
theorem next_pkt_in_ring (b : BoardId) (w : World) (a : Vector Byte 6) (es : List CardEvent) :
    BoundaryInv b (final (cardStep b) (started b w a) es) :=
  final_invariant (BoundaryInv b) (fun _ e h => h.step e) (started_inv b w a).1 es

/-- BNRY is one page behind `next_pkt` throughout a run exactly if every pass
finds the ring empty or a header that names a ring page. -/
theorem one_page_behind_iff (b : BoardId) (w : World) (a : Vector Byte 6) (es : List CardEvent) :
    OnePageBehind b (started b w a) ∧
        Every (cardStep b) (fun w e => OnePageBehind b (cardStep b w e)) (started b w a) es ↔
      Every (cardStep b) (NamesRingPage b) (started b w a) es := by
  have hs := started_inv b w a
  rw [and_iff_right hs.2]
  exact every_iff (fun w => BoundaryInv b w ∧ OnePageBehind b w)
    (fun w e h hg => ⟨h.1.step e, (onePageBehind_step h e).mpr hg⟩)
    (fun w e h => onePageBehind_step h e) hs es

/-- A header of zeros on page 9 with CURR at page 10: the pass leaves both
`next_pkt` and BNRY on page 8. -/
theorem one_page_behind_fails :
    ¬ Every (cardStep 0) (fun w e => OnePageBehind 0 (cardStep 0 w e))
      (started 0 World.off (.replicate 6 0))
      [.card (fun _ => 0) 0x0a, .driver .pass] := by
  intro h
  have hs := started_inv 0 World.off (.replicate 6 0)
  have hg := (onePageBehind_step ⟨hs.1.step _, h.1⟩ _).mp h.2.1 rfl
  simp [cardStep, started_nextPkt, Nic.nextPage, NE8390_RX_START_PG, NE8390_START_PG,
    NE8390_TX_PAGES] at hg

end HydraAmix.Hydra
