import HydraAmix.Serial.ParamSets

/-!
# Commands that wait for the output

`slputioc` puts a command that is to wait for the output before the data, and `slwput`
calls `getoblk` at once, so it is done in the same call whatever is still to be sent:
the parameters change in time only if nothing is.
-/
namespace HydraAmix.Serial
open Word Schedule

section
variable {env : Env} {s t u : Port} {i : Ioctl} {f : Port → Option Port}

/-! ### Where parameters are set -/

/-- `sets` lists no command that waits for the output, if none is on the queue. -/
def Quiet (sets : Port → List (Port × Ioctl)) : Prop :=
  ∀ s, Free s → ∀ x ∈ sets s, x.2.cmd.drains = false

variable {sets : Port → List (Port × Ioctl)} {x : Port × Ioctl}

theorem Quiet.setParams (hq : Quiet sets) (hs : Free s) {set : BitVec 32 → BitVec 32 → BitVec 32}
    (hx : x ∈ Port.setParamsSets sets set i s) :
    x = (s, i) ∧ i.cont ≠ none ∨ x.2.cmd.drains = false := by
  rw [Port.setParamsSets] at hx
  split at hx
  · exact absurd hx List.not_mem_nil
  case h_2 cb hcont =>
    rcases List.mem_cons.mp hx with rfl | hx
    · exact .inl ⟨rfl, hcont ▸ Option.some_ne_none cb⟩
    · right
      rw [Port.slparamSets] at hx
      split at hx
      · refine hq _ ?_ x hx
        exact hs
      · exact absurd hx List.not_mem_nil

/-- The command itself sets parameters at once, or after `getoblk` where it flushes. -/
theorem Quiet.slsrvioc (hf : Goes f) (hq : Quiet sets) (hs : Free s)
    (hx : x ∈ Port.slsrviocSets f sets s i) :
    x.2.cmd.drains = false ∨ x.2 = i ∧ i.cont ≠ none ∧ (x.1 = s ∨ f s = some x.1) := by
  have hset : ∀ set, x ∈ Port.setParamsSets sets set i s →
      x.2.cmd.drains = false ∨ x.2 = i ∧ i.cont ≠ none ∧ (x.1 = s ∨ f s = some x.1) := by
    intro set hx
    rcases hq.setParams hs hx with ⟨rfl, hcont⟩ | hx
    · exact .inr ⟨rfl, hcont, .inl rfl⟩
    · exact .inl hx
  have hflush : ∀ set, x ∈ sets s ++ (f s).elim [] (Port.setParamsSets sets set i) →
      x.2.cmd.drains = false ∨ x.2 = i ∧ i.cont ≠ none ∧ (x.1 = s ∨ f s = some x.1) := by
    intro set hx
    rcases List.mem_append.mp hx with hx | hx
    · exact .inl (hq s hs x hx)
    · cases hu : f s with
      | none =>
          rw [hu] at hx
          exact absurd hx List.not_mem_nil
      | some u =>
          rw [hu] at hx
          rcases hq.setParams ((hf s u hu).free hs) hx with ⟨rfl, hcont⟩ | hx
          · exact .inr ⟨rfl, hcont, .inr rfl⟩
          · exact .inl hx
  rw [Port.slsrviocSets] at hx
  cases hc : i.cmd with
  | tcsetaf | tcsetsf =>
      rw [hc] at hx
      exact hflush _ hx
  | tcseta | tcsetaw | tcsets | tcsetsw =>
      rw [hc] at hx
      exact hset _ hx
  | tcsbrk =>
      rw [hc] at hx
      exact .inl (hq { s.answer i with timeout := true } hs x hx)
  | tcgeta | tcgets | ldioc | other =>
      rw [hc] at hx
      exact absurd hx List.not_mem_nil

theorem getoblkSets_quiet (env : Env) (turns : ℕ) : Quiet (Port.getoblkSets env turns) := by
  induction turns with
  | zero => exact fun _ _ _ hx => absurd hx List.not_mem_nil
  | succ turns ih =>
      intro s hs x hx
      have hloop : ∀ {u : Port}, Free u →
          x ∈ (if u.busy then [] else Port.getoblkSets env turns u) → x.2.cmd.drains = false := by
        intro u hu hx
        split at hx
        · exact absurd hx List.not_mem_nil
        · exact ih u hu x hx
      rw [Port.getoblkSets] at hx
      cases hq : s.q with
      | nil =>
          rw [hq] at hx
          exact absurd hx List.not_mem_nil
      | cons m q =>
          cases m with
          | ioctl i =>
              rw [hq] at hx
              have hi : i.cmd.drains = false := hs i (by rw [hq]; exact List.mem_cons_self)
              have hrest : Free { s with q := q } := fun j hj =>
                hs j (by rw [hq]; exact List.mem_cons_of_mem _ hj)
              rcases List.mem_append.mp hx with hx | hx
              · rcases ih.slsrvioc (getoblk_goes env turns) hrest hx with hx | ⟨hx, -, -⟩
                · exact hx
                · rwa [hx]
              · cases hu : Port.slsrvioc env (Port.getoblk env turns) { s with q := q } i with
                | none =>
                    rw [hu] at hx
                    exact absurd hx List.not_mem_nil
                | some u =>
                    rw [hu] at hx
                    refine hloop (((getoblk_goes env turns).slsrvioc hu).1.free ?_) hx
                    intro j hj
                    exact hs j (by rw [hq]; exact hj)
          | data first cont =>
              have hload := later_load s first cont hq
              rw [hq] at hx
              dsimp only at hx
              split at hx
              · exact absurd hx List.not_mem_nil
              · refine hloop ?_ hx
                split
                · exact hload.free hs
                · exact (hload.trans (later_sltint env _)).free hs

/-! ### Events -/

theorem Goes.drain (hf : Goes f) : Goes (Port.drain f) := by
  intro s t h
  rw [Port.drain] at h
  split at h
  · exact hf s t h
  · exact Option.some.inj h ▸ .refl s

theorem Quiet.elim (hq : Quiet sets) {o : Option Port} (ho : ∀ u, o = some u → Free u)
    (hx : x ∈ o.elim [] sets) : x.2.cmd.drains = false := by
  cases o with
  | none => exact absurd hx List.not_mem_nil
  | some u => exact hq u (ho u rfl) x hx

theorem Quiet.drain (hq : Quiet sets) : Quiet (Port.drainSets sets) := by
  intro s hs x hx
  rw [Port.drainSets] at hx
  split at hx
  · exact hq s hs x hx
  · exact absurd hx List.not_mem_nil

/-- What `slputioc` does with a message: it is the first on the queue, or `slsrvioc` is
called, or it is answered. -/
theorem slputioc_cases (env : Env) (f : Port → Option Port) (sets : Port → List (Port × Ioctl))
    (s : Port) (i : Ioctl) :
    Port.slputioc env f s i = some (s.putbq (.ioctl i)) ∧ Port.slputiocSets f sets s i = [] ∨
      Port.slputioc env f s i = Port.slsrvioc env f s i ∧
        Port.slputiocSets f sets s i = Port.slsrviocSets f sets s i ∨
      Port.slputioc env f s i = some (s.answer i) ∧ Port.slputiocSets f sets s i = [] ∧
        i.cmd.drains = false := by
  rw [Port.slputioc, Port.slputiocSets]
  cases hc : i.cmd with
  | tcseta | tcsets =>
      dsimp only
      split
      · exact .inl ⟨rfl, rfl⟩
      · exact .inr (.inl ⟨rfl, rfl⟩)
  | tcgeta | tcgets => exact .inr (.inl ⟨rfl, rfl⟩)
  | ldioc => exact .inr (.inr ⟨rfl, rfl, rfl⟩)
  | tcsetaf | tcsetaw | tcsetsf | tcsetsw | tcsbrk | other =>
      dsimp only
      split
      · exact .inl ⟨rfl, rfl⟩
      · exact .inr (.inl ⟨rfl, rfl⟩)

theorem free_of_slsrvioc (hf : Goes f) (hs : Free s) (h : Port.slsrvioc env f s i = some t) :
    Free t := by
  obtain ⟨hlater, hset⟩ := hf.slsrvioc h
  by_cases hd : i.cmd.drains = true
  · exact (hset hd).free hs
  · refine hlater.free fun j hj => ?_
    rcases List.mem_cons.mp hj with hj | hj
    · rw [Message.ioctl.inj hj]
      exact (Bool.not_eq_true _).mp hd
    · exact hs j hj

/-- The first turn of `getoblk` takes the message that was put first. -/
theorem getoblk_putbq {turns : ℕ} (h : Port.getoblk env turns (s.putbq (.ioctl i)) = some t) :
    ∃ n u, turns = n + 1 ∧ Port.slsrvioc env (Port.getoblk env n) s i = some u ∧
      (if u.busy then some u else Port.getoblk env n u) = some t := by
  cases turns with
  | zero => exact absurd h.symm (Option.some_ne_none t)
  | succ n =>
      have hq : (s.putbq (.ioctl i)).q = .ioctl i :: s.q := rfl
      rw [Port.getoblk, hq] at h
      obtain ⟨u, hu, hi⟩ := Option.bind_eq_some_iff.mp h
      exact ⟨n, u, rfl, hu, hi⟩

/-- The queue is free of such commands after the call in which one comes. -/
theorem slwioctl_free {turns : ℕ} (hs : Free s)
    (h : (Port.slputioc env (Port.getoblk env turns) s i).bind
      (Port.drain (Port.getoblk env turns)) = some t) : Free t := by
  have hf := getoblk_goes env turns
  obtain ⟨u, hu, ht⟩ := Option.bind_eq_some_iff.mp h
  obtain ⟨hput, -⟩ | ⟨hsrv, -⟩ | ⟨hans, -, -⟩ :=
    slputioc_cases env (Port.getoblk env turns) (fun _ => []) s i
  · rw [hput] at hu
    obtain rfl := Option.some.inj hu
    rw [Port.drain, if_pos (show (s.putbq (.ioctl i)).q ≠ [] from List.cons_ne_nil _ _)] at ht
    obtain ⟨n, v, -, hv, hi⟩ := getoblk_putbq ht
    have hfree := free_of_slsrvioc (getoblk_goes env n) hs hv
    split at hi
    · exact Option.some.inj hi ▸ hfree
    · exact (getoblk_goes env n v t hi).free hfree
  · rw [hsrv] at hu
    exact (hf.drain u t ht).free (free_of_slsrvioc hf hs hu)
  · rw [hans] at hu
    obtain rfl := Option.some.inj hu
    exact (hf.drain _ t ht).free hs

/-- A command that waits for the output sets parameters as it comes, or after one `getoblk`. -/
theorem slwioctl_sets {turns : ℕ} (hs : Free s)
    (hx : x ∈ Port.slputiocSets (Port.getoblk env turns) (Port.getoblkSets env turns) s i ++
      (Port.slputioc env (Port.getoblk env turns) s i).elim []
        (Port.drainSets (Port.getoblkSets env turns))) (hd : x.2.cmd.drains = true) :
    x.2 = i ∧ i.cont ≠ none ∧ (x.1 = s ∨ ∃ n, Port.getoblk env n s = some x.1) := by
  have hf := getoblk_goes env turns
  have hq := getoblkSets_quiet env turns
  have hno : x.2.cmd.drains ≠ false := fun he => Bool.false_ne_true (he.symm.trans hd)
  obtain ⟨hput, hsets⟩ | ⟨hsrv, hsets⟩ | ⟨hans, hsets, -⟩ :=
    slputioc_cases env (Port.getoblk env turns) (Port.getoblkSets env turns) s i
  · rw [hput, hsets] at hx
    change x ∈ Port.drainSets (Port.getoblkSets env turns) (s.putbq (.ioctl i)) at hx
    rw [Port.drainSets, if_pos (show (s.putbq (.ioctl i)).q ≠ [] from List.cons_ne_nil _ _)] at hx
    cases turns with
    | zero => exact absurd hx List.not_mem_nil
    | succ n =>
        have hfirst : (s.putbq (.ioctl i)).q = .ioctl i :: s.q := rfl
        rw [Port.getoblkSets, hfirst] at hx
        rcases List.mem_append.mp hx with hx | hx
        · obtain ⟨rfl, hcont, hst⟩ := ((getoblkSets_quiet env n).slsrvioc (getoblk_goes env n) hs
            hx).resolve_left hno
          exact ⟨rfl, hcont, hst.imp id fun hst => ⟨n, hst⟩⟩
        · cases hv : Port.slsrvioc env (Port.getoblk env n) s i with
          | none =>
              change x ∈ (Port.slsrvioc env (Port.getoblk env n) s i).elim [] _ at hx
              rw [hv] at hx
              exact absurd hx List.not_mem_nil
          | some v =>
              change x ∈ (Port.slsrvioc env (Port.getoblk env n) s i).elim [] _ at hx
              rw [hv] at hx
              have hfree := free_of_slsrvioc (getoblk_goes env n) hs hv
              change x ∈ (if v.busy then [] else Port.getoblkSets env n v) at hx
              split at hx
              · exact absurd hx List.not_mem_nil
              · exact absurd (getoblkSets_quiet env n v hfree x hx) hno
  · rw [hsrv, hsets] at hx
    rcases List.mem_append.mp hx with hx | hx
    · obtain ⟨rfl, hcont, hst⟩ := (hq.slsrvioc hf hs hx).resolve_left hno
      exact ⟨rfl, hcont, hst.imp id fun hst => ⟨turns, hst⟩⟩
    · cases hv : Port.slsrvioc env (Port.getoblk env turns) s i with
      | none =>
          rw [hv] at hx
          exact absurd hx List.not_mem_nil
      | some v =>
          rw [hv] at hx
          exact absurd (hq.drain v (free_of_slsrvioc hf hs hv) x hx) hno
  · rw [hans, hsets] at hx
    exact absurd (hq.drain (s.answer i) hs x hx) hno

theorem free_blocks (hs : Free s) (bs : List (List Byte)) (j : Ioctl)
    (hj : Message.ioctl j ∈ s.q ++ bs.map fun b => .data b []) : j.cmd.drains = false := by
  rcases List.mem_append.mp hj with hj | hj
  · exact hs j hj
  · obtain ⟨b, -, hb⟩ := List.mem_map.mp hj
    exact Message.noConfusion hb

/-- No event leaves a command on the queue that waits for the output. -/
theorem Free.handle {turns : ℕ} {e : Event} (hs : Free s) (h : s.handle env turns e = some t) :
    Free t := by
  have hf := getoblk_goes env turns
  cases e with
  | data first cont =>
      change s.slwdata (Port.getoblk env turns) first cont = some t at h
      rw [Port.slwdata] at h
      dsimp only at h
      split at h
      · obtain rfl := Option.some.inj h
        intro j hj
        rcases List.mem_append.mp hj with hj | hj
        · exact hs j hj
        · exact Message.noConfusion (List.mem_singleton.mp hj)
      · exact (hf.drain _ t h).free fun j hj => free_blocks hs _ j hj
  | ioctl cmd raw cont =>
      exact slwioctl_free (s := { s with arrived := s.arrived + 1 }) hs h
  | start =>
      obtain ⟨u, hu, ht⟩ := Option.bind_eq_some_iff.mp h
      have hres := hf { s with ttstop := false } u hu
      exact (hf u t ht).free (hres.free hs)
  | stop =>
      obtain rfl := Option.some.inj h
      exact hs
  | tint =>
      obtain rfl := Option.some.inj h
      exact (later_sltint env s).free hs
  | rint c =>
      obtain rfl := Option.some.inj h
      intro j hj
      refine hs j ?_
      rw [Port.slrint] at hj
      split at hj
      · split at hj
        · exact hj
        · split at hj
          · exact hj
          · split at hj <;> exact hj
      · exact hj
  | poll carrier =>
      obtain ⟨u, hu, rfl⟩ := Option.map_eq_some_iff.mp h
      split at hu
      · exact (hf { s with ttstop := false } u hu).free hs
      · exact Option.some.inj hu ▸ hs
  | restart =>
      obtain ⟨u, hu, ht⟩ := Option.bind_eq_some_iff.mp h
      exact (hf { u with timeout := false } t ht).free ((hf.slparam s u hu).free hs)
  | bufcall => exact (hf s t h).free hs

/-- Only the event in which a command comes that waits for the output sets its parameters. -/
theorem sets_of_drains {turns : ℕ} {e : Event} (hs : Free s)
    (hx : x ∈ Port.setsOf env turns s e) (hd : x.2.cmd.drains = true) :
    ∃ cmd raw cb, e = .ioctl cmd raw (some cb) ∧ cmd.drains = true ∧
      (x.1 = { s with arrived := s.arrived + 1 } ∨
        ∃ n, Port.getoblk env n { s with arrived := s.arrived + 1 } = some x.1) := by
  have hf := getoblk_goes env turns
  have hq := getoblkSets_quiet env turns
  have hno : x.2.cmd.drains ≠ false := fun he => Bool.false_ne_true (he.symm.trans hd)
  cases e with
  | ioctl cmd raw cont =>
      obtain ⟨hxi, hcont, hst⟩ :=
        slwioctl_sets (s := { s with arrived := s.arrived + 1 }) hs hx hd
      rw [hxi] at hd
      obtain ⟨cb, rfl⟩ := Option.ne_none_iff_exists'.mp hcont
      exact ⟨cmd, raw, cb, rfl, hd, hst⟩
  | data first cont =>
      rw [Port.setsOf] at hx
      split at hx
      · exact absurd hx List.not_mem_nil
      · refine absurd (hq.drain _ (fun j hj => ?_) x hx) hno
        exact free_blocks hs _ j hj
  | start =>
      rcases List.mem_append.mp hx with hx | hx
      · exact absurd (hq { s with ttstop := false } hs x hx) hno
      · exact absurd (hq.elim (fun u hu => (hf { s with ttstop := false } u hu).free hs) hx) hno
  | stop => exact absurd hx List.not_mem_nil
  | tint => exact absurd hx List.not_mem_nil
  | rint => exact absurd hx List.not_mem_nil
  | poll carrier =>
      rw [Port.setsOf] at hx
      split at hx
      · exact absurd (hq { s with ttstop := false } hs x hx) hno
      · exact absurd hx List.not_mem_nil
  | restart =>
      rcases List.mem_append.mp hx with hx | hx
      · rw [Port.slparamSets] at hx
        split at hx
        · exact absurd (hq { s with ttstop := false } hs x hx) hno
        · exact absurd hx List.not_mem_nil
      · refine absurd (Quiet.elim (fun u hu => ?_) (fun u hu => (hf.slparam s u hu).free hs) hx) hno
        exact hq { u with timeout := false } hu
  | bufcall => exact absurd (hq s hs x hx) hno

theorem opened_free (carr : Bool) (cflag : BitVec 32) : Free (Port.opened carr cflag) :=
  fun _ hi => absurd hi List.not_mem_nil

/-- With nothing left to send, everything written was sent and nothing more is. -/
theorem waits_of_drained {turns : ℕ} {e : Event} (h : Sound [] s) (hs : Free s)
    (hdrained : s.Drained Cmd.drains e) : s.Waits env turns e := by
  intro x hx hd
  obtain ⟨cmd, raw, cb, rfl, hcmd, hst⟩ := sets_of_drains hs hx hd
  obtain ⟨hout, hdata⟩ := hdrained hcmd
  have hall : s.sent.map Sent.ch = s.written := by
    have horder := h.order
    rwa [hout, hdata, List.append_nil, List.append_nil] at horder
  rcases hst with hst | ⟨n, hst⟩
  · rw [hst]
    exact hall
  · have hlater := getoblk_goes env n _ _ hst
    have horder := (getoblk_keeps env n _ _ _ h.arrive hst).order
    obtain ⟨more, hmore⟩ := hlater.sent
    have hwritten : x.1.written = s.sent.map Sent.ch := hlater.written.trans hall.symm
    rw [hwritten, ← hmore, List.map_append, List.append_assoc] at horder
    have hnil := List.append_cancel_left (horder.trans (List.append_nil _).symm)
    rw [hwritten, ← hmore, List.map_append, (List.append_eq_nil_iff.mp hnil).1, List.append_nil]

theorem drains_of_drainsOnly {cmd : Cmd} (h : cmd.drainsOnly = true) : cmd.drains = true := by
  cases cmd with
  | tcsetaw => rfl
  | tcsetsw => rfl
  | _ => exact absurd h.symm (by decide)

/-- Without a flush the parameters are set in the state in which the command comes. -/
theorem sets_at_once {turns : ℕ} (hturns : 0 < turns) {cmd : Cmd} (hcmd : cmd.drainsOnly = true)
    (raw : List Byte) (cb : Termios) :
    ({ s with arrived := s.arrived + 1 }, ⟨s.arrived, cmd, raw, some cb⟩) ∈
      s.setsOf env turns (.ioctl cmd raw (some cb)) := by
  obtain ⟨n, rfl⟩ := Nat.exists_eq_succ_of_ne_zero (Nat.ne_of_gt hturns)
  have hsrv : ∀ (f : Port → Option Port) (sets : Port → List (Port × Ioctl)) (t : Port) (id : ℕ),
      (t, (⟨id, cmd, raw, some cb⟩ : Ioctl)) ∈
        Port.slsrviocSets f sets t ⟨id, cmd, raw, some cb⟩ := by
    intro f sets t id
    cases cmd with
    | tcsetaw => exact List.mem_cons_self
    | tcsetsw => exact List.mem_cons_self
    | _ => exact absurd hcmd.symm (by decide)
  rw [Port.setsOf]
  obtain ⟨hput, -⟩ | ⟨-, hsets⟩ | ⟨-, -, hno⟩ := slputioc_cases env (Port.getoblk env (n + 1))
    (Port.getoblkSets env (n + 1)) { s with arrived := s.arrived + 1 }
    ⟨s.arrived, cmd, raw, some cb⟩
  · apply List.mem_append_right
    rw [hput]
    apply List.mem_append_left
    exact hsrv ..
  · apply List.mem_append_left
    rw [hsets]
    exact hsrv ..
  · exact absurd (hno.symm.trans (drains_of_drainsOnly hcmd)) Bool.false_ne_true

theorem drained_of_waits {turns : ℕ} (hturns : 0 < turns) {e : Event} (h : Sound [] s)
    (hwaits : s.Waits env turns e) : s.Drained Cmd.drainsOnly e := by
  cases e with
  | ioctl cmd raw cont =>
      cases cont with
      | none => trivial
      | some cb =>
          intro hcmd
          have hall : s.sent.map Sent.ch = s.written :=
            hwaits _ (sets_at_once hturns hcmd raw cb) (drains_of_drainsOnly hcmd)
          have horder := h.order
          rw [hall] at horder
          have hnil := List.append_cancel_left (horder.trans (List.append_nil _).symm)
          exact List.append_eq_nil_iff.mp hnil
  | _ => trivial

end

/-- In a run in which no data is lost, the parameters of a command that waits for the
output are set when every byte written before has been sent, if nothing is left to send
when such a command comes; without a flush of the input first, only then. -/
theorem serial_drain (env : Env) (turns : ℕ) (carr : Bool) (cflag : BitVec 32) (es : List Event)
    (ha : Every (Port.step env turns) (fun o e => ∀ s, o = some s → s.Allowed e)
      (some (Port.opened carr cflag)) es) :
    (Every (Port.step env turns) (fun o e => ∀ s, o = some s → s.Drained Cmd.drains e)
        (some (Port.opened carr cflag)) es →
      Every (Port.step env turns) (fun o e => ∀ s, o = some s → s.Waits env turns e)
        (some (Port.opened carr cflag)) es) ∧
    (0 < turns →
      Every (Port.step env turns) (fun o e => ∀ s, o = some s → s.Waits env turns e)
        (some (Port.opened carr cflag)) es →
      Every (Port.step env turns) (fun o e => ∀ s, o = some s → s.Drained Cmd.drainsOnly e)
        (some (Port.opened carr cflag)) es) := by
  have hkeep : ∀ o e, (∀ s, o = some s → Sound [] s ∧ Free s) →
      (∀ s, o = some s → s.Allowed e) →
      ∀ t, Port.step env turns o e = some t → Sound [] t ∧ Free t := by
    intro o e ho hgood t ht
    obtain ⟨s, rfl, hs⟩ := Option.bind_eq_some_iff.mp ht
    obtain ⟨hsound, hfree⟩ := ho s rfl
    exact ⟨hsound.handle (hgood s rfl) hs, hfree.handle hs⟩
  have hopened : ∀ s, some (Port.opened carr cflag) = some s → Sound [] s ∧ Free s := by
    intro s hs
    obtain rfl := Option.some.inj hs
    exact ⟨opened_sound carr cflag, opened_free carr cflag⟩
  constructor
  · intro hd
    refine every_of_invariant (fun o : Option Port => ∀ s, o = some s → Sound [] s ∧ Free s)
      (fun o e ho hgood => hkeep o e ho hgood.1) ?_ hopened (ha.and hd)
    intro o e ho hgood s hs
    exact waits_of_drained (ho s hs).1 (ho s hs).2 (hgood.2 s hs)
  · intro hturns hw
    refine every_of_invariant (fun o : Option Port => ∀ s, o = some s → Sound [] s ∧ Free s)
      (fun o e ho hgood => hkeep o e ho hgood.1) ?_ hopened (ha.and hw)
    intro o e ho hgood s hs
    exact drained_of_waits hturns (ho s hs).1 (hgood.2 s hs)

/-- A byte is written and sent, and TCSETAW comes. -/
theorem serial_drain_one :
    Every (Port.step (refusing []) 3) (fun o e => ∀ s, o = some s → s.Waits (refusing []) 3 e)
      (some (Port.opened true 0)) [.data [65] [], .tint, .ioctl .tcsetaw [] (some ⟨0, 1⟩)] :=
  (serial_drain (refusing []) 3 true 0 [.data [65] [], .tint, .ioctl .tcsetaw [] (some ⟨0, 1⟩)]
    ⟨fun _ hs => .inl (Option.some.inj hs ▸ rfl),
      fun _ hs => .inr fun i hi => by
        obtain rfl := Option.some.inj hs
        exact Option.some_ne_none (Message.ioctl i) hi.symm,
      fun _ _ => trivial, trivial⟩).1
    ⟨fun _ _ => trivial, fun _ _ => trivial, fun _ hs _ => Option.some.inj hs ▸ ⟨rfl, rfl⟩, trivial⟩

/-- TCSETAW sets its parameters while the second byte is still to be sent. -/
theorem serial_drain_early :
    ¬ ∀ (env : Env) (turns : ℕ) (carr : Bool) (cflag : BitVec 32) (es : List Event),
      Every (Port.step env turns) (fun o e => ∀ s, o = some s → s.Waits env turns e)
        (some (Port.opened carr cflag)) es := by
  intro h
  have hrun := h (refusing []) 2 true 0 [.data [65, 66] [], .ioctl .tcsetaw [] (some ⟨0, 1⟩)]
  have hset := hrun.2.1 _ rfl _ List.mem_cons_self rfl
  exact absurd hset (by decide)

end HydraAmix.Serial
