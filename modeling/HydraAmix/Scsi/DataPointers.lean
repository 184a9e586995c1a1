import HydraAmix.Scsi.Requests

/-!
# The data pointers of the A3000's controller

The chip counts down what is to come, the DMA unit's address goes on with it,
and each unit keeps a saved count from which both are loaded when a request is
started or its target comes back. A restore pointers message loads the count
alone, so it must not find bytes that were transferred since the last save.

A count of 0 loads no address, since nothing is to come. `lit` says whether the
address is asked for even then.
-/
namespace HydraAmix.Scsi.Controller
open Schedule

variable {lit : Prop}

/-- The DMA address is that of the byte that the target sends or gets next. -/
def InStep (lit : Prop) (d : A3091) (r : Sdcom) : Prop :=
  d.TC ≤ r.nbyte ∧ (lit ∨ d.TC ≠ 0 → d.sac = u32 (r.addr + r.nbyte + 0x100000000 - d.TC))

/-- A request whose count fits the chip. -/
def Small (lit : Prop) (r : Sdcom) : Prop := r.nbyte < 0x1000000 ∧ (lit → r.nbyte ≠ 0)

namespace Card

variable {s : Card A3091}

/-- What the driver keeps for the targets that are away. -/
structure Saved (lit : Prop) (s : Card A3091) : Prop where
  small : ∀ u, ∀ r ∈ s.com u, Small lit r
  away : ∀ u r l, s.com u = r :: l → s.away u = true → s.tc u ≤ r.nbyte

/-- The states in which the target may ask for data. -/
def Data (i : IState) : Prop := i = .STARTING ∨ i = .RESUMING

/-- Whenever the data phase was started or resumed, the pointers are in step. -/
def InPhase (lit : Prop) (s : Card A3091) : Prop :=
  Data s.istate → ∃ r l, s.com s.cur = r :: l ∧ InStep lit s.path r

/-- In the states with a target, the saved count is one of the request, and the
pointers are in step. -/
structure Pointers (lit : Prop) (s : Card A3091) : Prop extends Saved lit s where
  cur : s.istate.Busy → ∀ r l, s.com s.cur = r :: l → s.tc s.cur ≤ r.nbyte
  live : s.istate.Busy → s.istate ≠ .ENDING → ∀ r l, s.com s.cur = r :: l → InStep lit s.path r

/-- What an interrupt has to fit: the requests that are queued, a target that comes
back was away, and a restore finds the count that was saved. -/
def FitsPointers (lit : Prop) (s : Card A3091) : Event → Prop
  | .queue r => Small lit r
  | .intr e => (∀ r ∈ e.calls, Small lit r) ∧ Allowed s (.intr e) ∧
      (atab s.istate (itab e.ss) = 4 → s.tc s.cur = (s.path.move e.moved).TC) ∧
      (itab e.ss = 4 → lit → s.tc (e.si.setWidth 3) ≠ 0)

/-! ### The registers -/

theorem startdma_inStep (d : A3091) (r : Sdcom) {tc : ℕ} (h : tc ≤ r.nbyte) (hne : lit → tc ≠ 0) :
    InStep lit (d.startdma r tc) r := by
  unfold A3091.startdma
  split_ifs with h0
  · exact ⟨by rw [h0]; exact Nat.zero_le _, fun ho => ho.elim (fun hl => absurd h0 (hne hl))
      fun hn => absurd h0 hn⟩
  · exact ⟨h, fun _ => rfl⟩

theorem InStep.move {d : A3091} {r : Sdcom} (h : InStep lit d r) (k : ℕ) :
    InStep lit (A3091.path.move d k) r := by
  obtain ⟨hle, hsac⟩ := h
  refine ⟨Nat.le_trans (Nat.sub_le _ _) hle, fun ho => ?_⟩
  change u32 (d.sac + min k d.TC) = u32 (r.addr + r.nbyte + 0x100000000 - (d.TC - k))
  change lit ∨ d.TC - k ≠ 0 at ho
  rw [hsac (ho.imp_right fun hn => by omega)]
  unfold u32
  omega

/-! ### Queueing -/

theorem startany_tc (s : Card A3091) {v : UnitNo} (hv : v ∉ s.start) :
    (s.startany A3091.path).tc v = s.tc v := by
  unfold startany
  split
  · rename_i hs
    split
    · rw [hs] at hv
      refine Function.update_of_ne ?_ _ _
      rintro rfl
      exact hv List.mem_cons_self
    · rfl
  · rfl

/-- A controller that is idle starts with the pointers in step. -/
theorem Saved.startany (h : Saved lit s) (hp : Placed none s) (hi : s.istate = .IDLE) :
    Pointers lit (s.startany A3091.path) := by
  obtain ⟨hcom, haway, -, -⟩ := startany_same (P := A3091.path) s
  have hsaved : Saved lit (s.startany A3091.path) := by
    refine ⟨by rw [hcom]; exact h.small, fun u r l hr ha => ?_⟩
    rw [hcom] at hr
    rw [haway] at ha
    rw [startany_tc s fun hm => by rw [hp.start_away u hm] at ha; exact absurd ha nofun]
    exact h.away u r l hr ha
  cases hstart : s.start with
  | nil =>
      rw [startany_of_nil hstart] at hsaved ⊢
      exact ⟨hsaved, fun hb => absurd hi hb.1, fun hb => absurd hi hb.1⟩
  | cons u rest =>
      have hu : u ∈ s.start := hstart ▸ List.mem_cons_self
      obtain ⟨r, l, hr⟩ := List.exists_cons_of_ne_nil ((hp.pending u).mpr (.inr (.inl hu)))
      have hsmall := h.small u r (hr ▸ List.mem_cons_self)
      have hmod : r.nbyte % 0x1000000 = r.nbyte := Nat.mod_eq_of_lt hsmall.1
      have hrun : s.startany A3091.path = (((((s.setStart rest).setCur u).setPath
          (A3091.path.setDI (A3091.path.setCDB s.path r.cdb) r)).setTc u
          (r.nbyte % 0x1000000)).startdma A3091.path u r).setIstate .STARTING := by
        unfold Card.startany
        rw [hi, hstart]
        simp only [hr]
        rfl
      refine ⟨hsaved, fun _ r' l' hr' => ?_, fun _ _ r' l' hr' => ?_⟩
      · rw [hrun] at hr' ⊢
        obtain ⟨rfl, -⟩ := List.cons.inj (hr.symm.trans hr')
        change Function.update s.tc u (r.nbyte % 0x1000000) u ≤ r.nbyte
        rw [Function.update_self]
        exact Nat.le_of_eq hmod
      · rw [hrun] at hr' ⊢
        obtain ⟨rfl, -⟩ := List.cons.inj (hr.symm.trans hr')
        change InStep lit (A3091.startdma _ r (Function.update s.tc u (r.nbyte % 0x1000000) u)) r
        rw [Function.update_self, hmod]
        exact startdma_inStep _ r (Nat.le_refl _) hsmall.2

theorem Saved.append {t : Card A3091} (h : Saved lit s) {r : Sdcom} (hr : Small lit r)
    (hne : ∀ u, s.away u = true → s.com u ≠ [])
    (hc : t.com = Function.update s.com r.unit (s.com r.unit ++ [r]))
    (htc : ∀ u, s.away u = true → t.tc u = s.tc u) (ha : t.away = s.away) : Saved lit t where
  small u x hx := by
    rw [hc] at hx
    by_cases hu : u = r.unit
    · subst hu
      rw [Function.update_self, List.mem_append, List.mem_singleton] at hx
      rcases hx with hx | rfl
      · exact h.small _ x hx
      · exact hr
    · rw [Function.update_of_ne hu] at hx
      exact h.small u x hx
  away u r' l' hr' hau := by
    rw [ha] at hau
    rw [hc] at hr'
    obtain ⟨l, hl⟩ := queue_head (hne u hau) hr'
    rw [htc u hau]
    exact h.away u r' l hl hau

theorem Saved.queue {slot : Option UnitNo} (h : Saved lit s) (hp : Placed slot s)
    (hi : s.istate ≠ .IDLE) {r : Sdcom} (hr : Small lit r) :
    Saved lit (s.queue A3091.path r) := by
  obtain ⟨htc, -, ha⟩ := queue_tc (P := A3091.path) hi r
  exact h.append hr hp.away_ne_nil (queue_com s r).1 (fun u _ => by rw [htc]) ha

theorem Saved.calls {slot : Option UnitNo} (h : Saved lit s) (hp : Placed slot s)
    (hi : s.istate ≠ .IDLE) {calls : List Sdcom} (hr : ∀ r ∈ calls, Small lit r) :
    Saved lit (calls.foldl (fun s r => s.queue A3091.path r) s) := by
  induction calls generalizing s with
  | nil => exact h
  | cons r calls ih =>
      obtain ⟨hp', hi', -⟩ := hp.queue (P := A3091.path) hi r
      exact ih (h.queue hp hi (hr r List.mem_cons_self)) hp' (hi'.symm ▸ hi)
        fun x hx => hr x (List.mem_cons_of_mem r hx)

theorem Pointers.queue (h : Pointers lit s) (hinv : s.Inv) (hd : s.istate ≠ .DEAD) {r : Sdcom}
    (hr : Small lit r) : Pointers lit (s.queue A3091.path r) := by
  have hp := (hinv.2 hd).placed
  by_cases hi : s.istate = .IDLE
  · rw [slot_of_idle hi] at hp
    have hnil := (hinv.2 hd).idle hi
    by_cases hc : s.com r.unit = []
    · have hnew := hp.queue_new hc
      rw [hnil] at hnew
      have hu : ((s.ask r).setCom r.unit [r]).uqueue A3091.path r.unit =
          (((s.ask r).setCom r.unit [r]).setStart [r.unit]).startany A3091.path :=
        if_neg (not_not.mpr hnil)
      rw [queue_of_nil hc, hu]
      refine Saved.startany (h.toSaved.append hr hp.away_ne_nil ?_ (fun u _ => rfl) rfl) hnew hi
      change Function.update s.com r.unit [r] = _
      rw [hc, List.nil_append]
    · rw [queue_of_ne_nil hc]
      exact ⟨h.toSaved.append hr hp.away_ne_nil rfl (fun u _ => rfl) rfl,
        fun hb => absurd hi hb.1, fun hb => absurd hi hb.1⟩
  · obtain ⟨hi', hcur⟩ := queue_of_busy (P := A3091.path) hi r
    obtain ⟨htc, hpath, -⟩ := queue_tc (P := A3091.path) hi r
    have hne : s.com s.cur ≠ [] := (hp.pending _).mpr (.inl (slot_of_busy ⟨hi, hd⟩))
    refine ⟨h.toSaved.queue hp hi hr, fun hb r' l' hr' => ?_, fun hb he r' l' hr' => ?_⟩
    · rw [(queue_com s r).1, hcur] at hr'
      obtain ⟨l, hl⟩ := queue_head hne hr'
      rw [htc, hcur]
      exact h.cur (hi' ▸ hb) r' l hl
    · rw [(queue_com s r).1, hcur] at hr'
      obtain ⟨l, hl⟩ := queue_head hne hr'
      rw [hpath]
      exact h.live (hi' ▸ hb) (hi' ▸ he) r' l hl

/-! ### Interrupts -/

theorem Pointers.complete (h : Pointers lit s) (hlive : s.Live) (hb : s.istate.Busy)
    (okay : Option ℕ) {calls : List Sdcom} (hcalls : ∀ r ∈ calls, Small lit r) :
    Pointers lit (s.complete A3091.path okay calls) := by
  obtain ⟨t, r, rest, hr, hnone, hi, hcom, hasked, hdone, htc, haway, -, hrun⟩ :=
    hlive.vacate (P := A3091.path) hb okay calls
  have hplaced := hlive.placed
  rw [slot_of_busy hb] at hplaced
  have hsaved : Saved lit t := by
    refine ⟨fun u x hx => ?_, fun u x l hx ha => ?_⟩
    · rw [hcom] at hx
      by_cases hu : u = s.cur
      · subst hu
        rw [Function.update_self] at hx
        exact h.small s.cur x (hr ▸ List.mem_cons_of_mem r hx)
      · rw [Function.update_of_ne hu] at hx
        exact h.small u x hx
    · rw [haway] at ha
      have hu : u ≠ s.cur := by
        rintro rfl
        rw [hplaced.slot_away _ rfl] at ha
        exact absurd ha nofun
      rw [hcom, Function.update_of_ne hu] at hx
      rw [htc]
      exact h.away u x l hx ha
  have hidle : (t.intr s.cur r okay).istate ≠ .IDLE := hi.symm ▸ hb.1
  have hsaved' : Saved lit (t.intr s.cur r okay) := ⟨hsaved.small, hsaved.away⟩
  have hnone' : Placed none (t.intr s.cur r okay) := hnone.congr rfl rfl rfl
  have hrun' := hsaved'.calls hnone' hidle hcalls
  have hplaced' := (hnone'.calls (P := A3091.path) hidle calls)
  rw [hrun]
  exact Saved.startany ⟨hrun'.small, hrun'.away⟩ (hplaced'.congr rfl rfl rfl) rfl

theorem Pointers.resume (h : Saved lit s) (hp : Placed none s) {si : BitVec 8}
    (haway : s.away (si.setWidth 3) = true) (hne : lit → s.tc (si.setWidth 3) ≠ 0) :
    Pointers lit (s.resume A3091.path si) := by
  generalize hu : si.setWidth 3 = u at haway hne
  obtain ⟨r, l, hr⟩ := List.exists_cons_of_ne_nil ((hp.pending u).mpr (.inr (.inr haway)))
  unfold Card.resume
  simp only [hu, hr]
  refine ⟨⟨h.small, fun v x k hx ha => ?_⟩, fun _ x k hx => ?_, fun _ _ x k hx => ?_⟩
  · change Function.update s.away u false v = true at ha
    by_cases hv : v = u
    · subst hv
      rw [Function.update_self] at ha
      exact absurd ha nofun
    · rw [Function.update_of_ne hv] at ha
      exact h.away v x k hx ha
  · obtain ⟨rfl, -⟩ := List.cons.inj (hr.symm.trans hx)
    exact h.away u r l hr haway
  · obtain ⟨rfl, -⟩ := List.cons.inj (hr.symm.trans hx)
    exact startdma_inStep s.path r (h.away u r l hr haway) hne

theorem atab_restore {i : IState} {n : ℕ} (h : atab i n = 4) : i = .MESSAGING := by
  unfold atab at h
  split at h <;> simp_all

theorem atab_data {i : IState} {n : ℕ} (h : atab i n = 6 ∨ atab i n = 8) : Data i := by
  unfold atab at h
  unfold Data
  split at h <;> simp_all

/-- The invariant of a controller that is not dead. -/
def PointersInv (lit : Prop) (s : Card A3091) : Prop :=
  s.Inv ∧ (s.istate ≠ .DEAD → Pointers lit s)

theorem PointersInv.service (h : PointersInv lit s) {e : Interrupt}
    (hfit : FitsPointers lit s (.intr e)) :
    s.istate ≠ .DEAD → (s.service A3091.path e).istate ≠ .DEAD →
      Pointers lit (s.service A3091.path e) := by
  intro hd
  have hpt := h.2 hd
  have hv' := h.1.2 hd
  have hpt' : Pointers lit (s.setPath (A3091.path.move s.path e.moved)) :=
    ⟨⟨hpt.small, hpt.away⟩, hpt.cur, fun hb he r l hr => InStep.move (hpt.live hb he r l hr) _⟩
  have hv : (s.setPath (A3091.path.move s.path e.moved)).Live :=
    ⟨hv'.placed.congr rfl rfl rfl, hv'.idle⟩
  obtain ⟨hcalls, hal, hrestore, hne⟩ := hfit
  have hal' : itab e.ss = 4 →
      (s.setPath (A3091.path.move s.path e.moved)).away (e.si.setWidth 3) = true :=
    fun h4 => hal h4 hd
  have hrestore' : atab (s.setPath (A3091.path.move s.path e.moved)).istate (itab e.ss) = 4 →
      (s.setPath (A3091.path.move s.path e.moved)).tc
        (s.setPath (A3091.path.move s.path e.moved)).cur =
      (s.setPath (A3091.path.move s.path e.moved)).path.TC := hrestore
  have hne' : itab e.ss = 4 → lit →
      (s.setPath (A3091.path.move s.path e.moved)).tc (e.si.setWidth 3) ≠ 0 := hne
  unfold Card.service
  simp only
  generalize s.setPath (A3091.path.move s.path e.moved) = t at hpt' hv hal' hrestore' hne'
  clear hpt hv' hal hrestore hne
  have hbusy : atab t.istate (itab e.ss) ≠ 1 → atab t.istate (itab e.ss) ≠ 3 →
      t.istate.Busy := atab_busy
  obtain ⟨d, hstop⟩ := stopdma_eq (P := A3091.path) t
  have hslot : t.istate.Busy → Placed (some t.cur) t := fun hb => slot_of_busy hb ▸ hv.placed
  -- a state with a target other than `ENDING` goes on with the same request
  have hon : ∀ {i : IState} {tc : UnitNo → ℕ} {q : A3091},
      (∀ r l, t.com t.cur = r :: l → tc t.cur ≤ r.nbyte) → (∀ u, u ≠ t.cur → tc u = t.tc u) →
      t.istate.Busy → (i ≠ .ENDING → ∀ r l, t.com t.cur = r :: l → InStep lit q r) →
      Pointers lit ⟨t.com, tc, t.start, t.cur, i, t.away, t.asked, t.done, q⟩ := by
    intro i tc q hcur htc hb hlive
    refine ⟨⟨hpt'.small, fun u r l hr ha => ?_⟩, fun _ => hcur, fun _ => hlive⟩
    have hu : u ≠ t.cur := by
      rintro rfl
      have hno := (hslot hb).slot_away t.cur rfl
      exact absurd (hno.symm.trans ha) nofun
    change tc u ≤ r.nbyte
    rw [htc u hu]
    exact hpt'.away u r l hr ha
  split
  case h_1 heq =>
    exact fun _ => hpt'.complete hv (hbusy (by rw [heq]; decide) (by rw [heq]; decide)) _ hcalls
  case h_2 => exact fun hend => absurd rfl hend
  case h_3 heq =>
    have hb := hbusy (by rw [heq]; decide) (by rw [heq]; decide)
    have h4 := (atab_resume (.inl heq)).1
    rw [hstop, uqueue_of_ne_idle (show (t.setPath d).istate ≠ .IDLE from hb.1)]
    exact fun _ => Pointers.resume (s := (t.setPath d).setStart (t.start ++ [t.cur]))
      ⟨hpt'.small, hpt'.away⟩ ((hslot hb).requeue rfl rfl rfl) (hal' h4) (hne' h4)
  case h_4 heq =>
    have h4 := (atab_resume (.inr heq)).1
    have hplaced := hv.placed
    rw [slot_of_idle ((atab_resume (.inr heq)).2.2 heq)] at hplaced
    exact fun _ => Pointers.resume hpt'.toSaved hplaced (hal' h4) (hne' h4)
  case h_5 heq =>
    have hb := hbusy (by rw [heq]; decide) (by rw [heq]; decide)
    refine fun _ => hon (hpt'.cur hb) (fun _ _ => rfl) hb fun _ r l hr => ?_
    have hin := hpt'.live hb (by rw [atab_restore heq]; nofun) r l hr
    change InStep lit (t.path.setRegs (t.path.setTC (t.tc t.cur))) r
    rw [hrestore' heq]
    exact hin
  case h_6 heq =>
    exact fun _ => hpt'.complete hv (hbusy (by rw [heq]; decide) (by rw [heq]; decide)) _ hcalls
  case h_7 heq =>
    have hb := hbusy (by rw [heq]; decide) (by rw [heq]; decide)
    have hdata := atab_data (.inl heq)
    have hin := hpt'.live hb (by rcases hdata with h | h <;> rw [h] <;> nofun)
    refine fun _ => hon (fun r l hr => ?_) (fun u hu => Function.update_of_ne hu _ _) hb
      fun _ => hin
    change Function.update t.tc t.cur t.path.TC t.cur ≤ r.nbyte
    rw [Function.update_self]
    exact (hin r l hr).1
  case h_8 heq =>
    have hb := hbusy (by rw [heq]; decide) (by rw [heq]; decide)
    rw [hstop]
    refine fun _ => Saved.startany ⟨hpt'.small, fun u r l hr ha => ?_⟩
      ((hslot hb).leave.congr rfl rfl rfl) rfl
    change Function.update t.away t.cur true u = true at ha
    by_cases hu : u = t.cur
    · subst hu
      exact hpt'.cur hb r l hr
    · rw [Function.update_of_ne hu] at ha
      exact hpt'.away u r l hr ha
  case h_9 heq =>
    have hb := hbusy (by rw [heq]; decide) (by rw [heq]; decide)
    have hdata := atab_data (.inr heq)
    have hin := hpt'.live hb (by rcases hdata with h | h <;> rw [h] <;> nofun)
    split_ifs
    · exact fun _ => hon (hpt'.cur hb) (fun _ _ => rfl) hb fun _ => hin
    · exact fun hend => absurd rfl hend
  case h_10 h0 h1 h2 h3 h4 h5 h6 h7 h8 =>
    have hb := hbusy h1 h3
    exact fun _ => hon (hpt'.cur hb) (fun _ _ => rfl) hb fun hend => absurd rfl hend

/-! ### Runs -/

theorem PointersInv.inPhase (h : PointersInv lit s) : InPhase lit s := by
  intro hdata
  have hb : s.istate.Busy := by
    rcases hdata with hi | hi <;> rw [hi] <;> exact ⟨nofun, nofun⟩
  have he : s.istate ≠ .ENDING := by
    rcases hdata with hi | hi <;> rw [hi] <;> nofun
  have hplaced := (h.1.2 hb.2).placed
  obtain ⟨r, l, hr⟩ := List.exists_cons_of_ne_nil
    ((hplaced.pending s.cur).mpr (.inl (slot_of_busy hb)))
  exact ⟨r, l, hr, (h.2 hb.2).live hb he r l hr⟩

theorem service_dead {D : Type} {P : DataPath D} {s : Card D} (hd : s.istate = .DEAD)
    (e : Interrupt) : (s.service P e).istate = .DEAD := by
  unfold Card.service
  simp only
  rw [show (s.setPath (P.move s.path e.moved)).istate = .DEAD from hd, atab_dead]
  rfl

theorem PointersInv.step (h : PointersInv lit s) {e : Event} (hfit : FitsPointers lit s e) :
    PointersInv lit (step A3091.path s e) := by
  cases e with
  | queue r =>
      refine ⟨h.1.queue r, fun hd => ?_⟩
      by_cases hi : s.istate = .IDLE
      · exact (h.2 (by rw [hi]; nofun)).queue h.1 (by rw [hi]; nofun) hfit
      · have hs : s.istate ≠ .DEAD := (queue_of_busy (P := A3091.path) hi r).1 ▸ hd
        exact (h.2 hs).queue h.1 hs hfit
  | intr e =>
      refine ⟨h.1.service hfit.2.1, fun hend => ?_⟩
      by_cases hd : s.istate = .DEAD
      · exact absurd (service_dead hd e) hend
      · exact h.service hfit hd hend

/-- In every run whose restores find the count that was saved, the data pointers are in
step whenever the data phase is started or resumed, as long as there is something to
come; if there always is, they are so in the strict sense. -/
theorem pointers_in_step (d : A3091) (es : List Event) :
    (Every (step A3091.path) (FitsPointers False) (init d) es →
      Every (step A3091.path) (fun s e => InPhase False (step A3091.path s e)) (init d) es) ∧
    (Every (step A3091.path) (FitsPointers True) (init d) es →
      Every (step A3091.path) (fun s e => InPhase True (step A3091.path s e)) (init d) es) := by
  have hrun : ∀ lit : Prop, Every (Card.step A3091.path) (FitsPointers lit) (init d) es →
      Every (Card.step A3091.path) (fun s e => InPhase lit (Card.step A3091.path s e))
        (init d) es := by
    intro lit hfit
    have hstart : PointersInv lit (init d) := ⟨init_inv d, fun _ =>
      ⟨⟨fun _ r hr => absurd hr List.not_mem_nil, nofun⟩, fun hb => absurd rfl hb.1,
        fun hb => absurd rfl hb.1⟩⟩
    exact every_of_invariant (PointersInv lit) (fun s e h hf => h.step hf)
      (fun s e h hf => (h.step hf).inPhase) hstart hfit
  exact ⟨hrun False, hrun True⟩

/-- Requests of 1 to 2 ^ 24 - 1 bytes, and targets that only come back when they were away. -/
def Proper (s : Card A3091) : Event → Prop
  | .queue r => Small True r
  | .intr e => (∀ r ∈ e.calls, Small True r) ∧ Allowed s (.intr e)

/-- All registers 0. -/
def clear : A3091 := ⟨⟨0, [], (0#3, false), 0, false⟩, false⟩

/-- A read of 512 bytes into 0x8000. -/
def sector : Sdcom := ⟨3#3, true, [], 0x8000, 512⟩

/-- An interrupt with a status, the source ID 3 and a restore pointers message, after
some bytes. -/
def status (ss moved : ℕ) : Event := .intr ⟨ss, 0x83#8, 0x60, 0, 0x03, moved, []⟩

theorem allowed_of_ne {ss moved : ℕ} (h : itab ss ≠ 4) (s : Card A3091) :
    Allowed s (status ss moved) := fun h4 => absurd h4 h

/-- 100 bytes, which are saved before the target disconnects and comes back. -/
theorem pointers_in_step_saved :
    Every (step A3091.path) (fun s e => InPhase True (step A3091.path s e)) (init clear)
      [.queue sector, status 0x21 100, status 0x85 0, status 0x81 0] :=
  (pointers_in_step _ _).2 ⟨⟨by decide, fun _ => by decide⟩,
    ⟨nofun, allowed_of_ne (by decide) _, fun h => absurd h (by decide),
      fun h => absurd h (by decide)⟩,
    ⟨nofun, allowed_of_ne (by decide) _, fun h => absurd h (by decide),
      fun h => absurd h (by decide)⟩,
    ⟨nofun, fun _ _ => rfl, fun h => absurd h (by decide), fun _ _ => by decide⟩, trivial⟩

/-- A restore pointers message after 100 bytes: 512 bytes are to come again, and go to
where the first 100 end. -/
theorem pointers_in_step_fails :
    ¬ ∀ d es, Every (step A3091.path) Proper (init d) es →
      Every (step A3091.path) (fun s e => InPhase False (step A3091.path s e)) (init d) es := by
  intro h
  obtain ⟨-, -, hlast, -⟩ := h clear [.queue sector, status 0x4f 100, status 0x20 0]
    ⟨⟨by decide, fun _ => by decide⟩, ⟨nofun, allowed_of_ne (by decide) _⟩,
      ⟨nofun, allowed_of_ne (by decide) _⟩, trivial⟩
  obtain ⟨r, l, hr, -, hsac⟩ := hlast (.inr rfl)
  obtain ⟨rfl, -⟩ := List.cons.inj (show sector :: [] = r :: l from hr)
  exact absurd (hsac (.inr (by decide))) (by decide)

end Card

end HydraAmix.Scsi.Controller
