import HydraAmix.Console.WriteService

/-!
# What the write service of a console does to its messages

Wherever `getoblk` comes back, it has settled the messages that it reached: each
was served until it was not put back any more. A message that is put back after
its data was freed has it freed again, so the messages that are settled with no
block freed twice are those that are served without a defect.
-/
namespace HydraAmix.Console.WriteService

/-- A message is served until it is not put back, and these blocks are freed. -/
inductive Settled : Message → List ℕ → Prop
  | done {m : Message} {e : Ending} {bs : List ℕ} (h : m.served = some (e, bs))
      (he : e ≠ .putbq) : Settled m bs
  | again {m : Message} {bs cs : List ℕ} (h : m.served = some (.putbq, bs))
      (hl : Settled m.later cs) : Settled m (bs ++ cs)

/-- The blocks that are freed while these messages are settled. -/
inductive Logs : List Message → List (ℕ × ℕ) → Prop
  | nil : Logs [] []
  | cons {m : Message} {bs : List ℕ} {ms : List Message} {l : List (ℕ × ℕ)} (h : Settled m bs)
      (hl : Logs ms l) : Logs (m :: ms) (bs.map (m.id, ·) ++ l)

/-- The data that is shown. -/
def Message.shows (m : Message) : List (ℕ × ℕ) :=
  if m.isData && (m.fate 0).ready then [(m.id, 0)] else []

/-- The way from one state to another, on which these messages were settled. -/
structure Result (s s' : Line) (gone : List Message) : Prop where
  queue : s.q = gone ++ s'.q
  reach : ∀ t, (t = true → s.ttstop = true) → reached s.timeout t s.q =
    gone ++ reached s.timeout (t && !gone.any Message.resumes) s'.q
  ttstop : s'.ttstop = (s.ttstop && !gone.any Message.resumes)
  timeout : s'.timeout = s.timeout
  busy : s'.busy = false
  shown : s'.shown = s.shown ++ gone.flatMap Message.shows
  answered : (s'.answered.map Prod.fst).Perm
    (s.answered.map Prod.fst ++ (gone.filter Message.answers).map Message.id)
  freed : ∃ l, Logs gone l ∧ s'.freed.Perm (s.freed ++ l)

/-- The loop ends here. -/
def Line.Halted (s : Line) : Prop :=
  s.q = [] ∨ s.stopped = true ∧ ∃ m rest, s.q = m :: rest ∧ m.isData = true

section
variable {m : Message} {s s' : Line} {q ms gone : List Message} {timeout : Bool}

/-! ### Messages -/

theorem Message.switched_of_data (h : m.isData = true) : m.switched = false := by
  unfold Message.isData at h
  unfold Message.switched
  cases hk : m.kind <;> simp_all

theorem Message.resumes_of_data (h : m.isData = true) : m.resumes = false := by
  rw [Message.resumes, switched_of_data h]
  rfl

theorem Message.served_of_switched (h : m.switched = true) :
    m.served = if m.reads (m.fate 0) && m.blocks == 0 then none
      else some (m.command (m.fate 0)) := by
  unfold Message.switched at h
  unfold Message.served
  cases hk : m.kind with
  | data => simp [hk] at h
  | other => simp [hk] at h
  | ioctl t => rfl
  | iocdata rval more =>
      cases rval <;> cases more <;> simp_all

theorem Message.answers_of_switched (h : m.switched = true) : m.answers = true := by
  unfold Message.switched at h
  unfold Message.answers
  cases hk : m.kind with
  | data => simp [hk] at h
  | other => simp [hk] at h
  | ioctl t => rfl
  | iocdata rval more =>
      cases rval with
      | true => simp [hk] at h
      | false => rfl

/-- What does not get to the switch is freed, or a copyout that ends well. -/
theorem Message.served_of_not_switched (h : m.switched = false) :
    m.served = some (.free, m.all) ∧ m.answers = false ∨
      m.served = some (RETURN true m.chain) ∧ m.answers = true := by
  unfold Message.switched at h
  unfold Message.served Message.answers
  cases hk : m.kind with
  | data => exact .inl ⟨rfl, rfl⟩
  | other => exact .inl ⟨rfl, rfl⟩
  | ioctl t => simp [hk] at h
  | iocdata rval more =>
      cases rval with
      | true => exact .inl ⟨rfl, rfl⟩
      | false =>
          cases more with
          | true => simp [hk] at h
          | false => exact .inr ⟨rfl, rfl⟩

theorem Message.answer_of_pullupmsg {f : List ℕ → Ending × List ℕ}
    (h : ∀ chain, ∃ r, (f chain).1 = .answer r) (m : Message) (o : Outcome) :
    ∃ r, (m.pullupmsg o f).1 = .answer r := by
  unfold Message.pullupmsg
  split_ifs
  · exact h _
  · exact h _

theorem Message.answer_of_RETURN (ok : Bool) (chain : List ℕ) :
    ∃ r, (RETURN ok chain).1 = .answer r :=
  ⟨_, rfl⟩

theorem Message.answer_of_copyout (m : Message) (o : Outcome) (copies : Bool) (chain : List ℕ) :
    ∃ r, (m.copyout o copies chain).1 = .answer r := by
  unfold Message.copyout
  split_ifs <;> exact ⟨_, rfl⟩

theorem Message.answer_of_setTable (m : Message) (o : Outcome) :
    ∃ r, (m.setTable o).1 = .answer r := by
  unfold Message.setTable
  split
  · split_ifs <;> exact ⟨_, rfl⟩
  · refine answer_of_pullupmsg (fun chain => ?_) m o
    split_ifs <;> exact ⟨_, rfl⟩

theorem Message.answer_of_getTable (m : Message) (o : Outcome) :
    ∃ r, (m.getTable o).1 = .answer r := by
  unfold Message.getTable
  split
  · exact ⟨_, rfl⟩
  · refine answer_of_pullupmsg (fun chain => ?_) m o
    split_ifs
    · exact m.answer_of_copyout o true chain
    · exact ⟨_, rfl⟩

theorem Message.answer_of_setData (m : Message) (o : Outcome) :
    ∃ r, (m.setData o).1 = .answer r := by
  unfold Message.setData
  split_ifs
  · exact ⟨_, rfl⟩
  · exact answer_of_pullupmsg (answer_of_RETURN m.valid) m o

/-- Every command is answered, but for the three that may put it back. -/
theorem Message.command_answers (m : Message) (o : Outcome) :
    (∃ r, (m.command o).1 = .answer r) ∨ (m.command o).1 = .putbq ∧
      (m.cmd = .TCGETA ∨ m.cmd = .TCGETS ∨ m.cmd = .unrecognized) := by
  unfold Message.command
  cases hc : m.cmd
  case TCGETA | TCGETS =>
    dsimp only
    cases o.allocb with
    | true => exact .inl ⟨_, rfl⟩
    | false => exact .inr ⟨rfl, by simp⟩
  case unrecognized =>
    dsimp only
    cases o.canput with
    | true => exact .inl ⟨_, rfl⟩
    | false => exact .inr ⟨rfl, by simp⟩
  case TCSETAF | TCSETA | TCSETAW | TCSETSF | TCSETS | TCSETSW =>
    left
    dsimp only
    split_ifs <;> exact ⟨_, rfl⟩
  case SIOCSETTYPE =>
    left
    dsimp only
    split_ifs <;> exact ⟨_, rfl⟩
  case SIOCGETTYPE | TIOCGWINSZ | SIOCWINSIZE =>
    left
    dsimp only
    split_ifs
    · exact m.answer_of_copyout o _ _
    · exact ⟨_, rfl⟩
  case SIOCGETKMAP | SIOCGETFONT => exact .inl (m.answer_of_getTable o)
  case Beep | SIOCSETKMAP | SIOCSETFONT => exact .inl (m.answer_of_setTable o)
  case SIOCSETDEFKMAP | SIOCSETDEFFONT =>
    left
    dsimp only
    split_ifs
    · exact m.answer_of_setTable o
    · exact ⟨_, rfl⟩
  case SIOCSETCMAP | SIOCSETDISPLAYADJUST | SIOCSETNAME => exact .inl (m.answer_of_setData o)
  case SIOCGETCMAP | SIOCGETDISPLAYADJUST | SIOCGETGROUPINFO =>
    exact .inl (m.answer_of_copyout o _ _)
  all_goals exact .inl ⟨_, rfl⟩

/-- A message that is settled is answered if it is to be. -/
theorem Message.answers_of_served {e : Ending} {bs : List ℕ} (h : m.served = some (e, bs))
    (he : e ≠ .putbq) :
    (∃ r, e = .answer r) ∧ m.answers = true ∨ e = .free ∧ m.answers = false := by
  cases hs : m.switched with
  | true =>
      left
      refine ⟨?_, answers_of_switched hs⟩
      rw [served_of_switched hs] at h
      split_ifs at h
      have hcom : (m.command (m.fate 0)).1 = e := congrArg Prod.fst (Option.some.inj h)
      rw [← hcom] at he ⊢
      exact (m.command_answers _).resolve_right fun hc => he hc.1
  | false =>
      rcases served_of_not_switched hs with ⟨hserved, ha⟩ | ⟨hserved, ha⟩
      · rw [hserved] at h
        exact .inr ⟨(Prod.mk.inj (Option.some.inj h)).1.symm, ha⟩
      · rw [hserved] at h
        exact .inl ⟨⟨_, (Prod.mk.inj (Option.some.inj h)).1.symm⟩, ha⟩

/-! ### The messages that are reached -/

theorem reached_data (h : m.isData = true) (t : Bool) :
    reached timeout t (m :: q) = if t || timeout then [] else m :: reached timeout t q := by
  rw [reached, if_pos h]

theorem reached_ioctl (h : m.isData = false) (t : Bool) :
    reached timeout t (m :: q) = m :: reached timeout (t && !m.resumes) q := by
  rw [reached, h, if_neg Bool.false_ne_true]

/-- While the output is suspended, no more messages are reached. -/
theorem reached_prefix {t t' : Bool} (h : t' = true → t = true) (q : List Message) :
    reached timeout t q <+: reached timeout t' q := by
  induction q generalizing t t' with
  | nil => exact List.prefix_rfl
  | cons m q ih =>
      cases hd : m.isData with
      | true =>
          rw [reached_data hd, reached_data hd]
          cases hs : t || timeout with
          | true => exact List.nil_prefix
          | false =>
              obtain ⟨rfl, ht⟩ := Bool.or_eq_false_iff.mp hs
              obtain rfl : t' = false := Bool.eq_false_iff.mpr fun ht' => absurd (h ht') (by decide)
              have heq : (if false = true then [] else m :: reached timeout false q) =
                  if (false || timeout) = true then [] else m :: reached timeout false q := by
                rw [hs]
              exact heq ▸ List.prefix_rfl
      | false =>
          rw [reached_ioctl hd, reached_ioctl hd, List.prefix_cons_inj]
          refine ih fun ht' => ?_
          rw [Bool.and_eq_true] at ht' ⊢
          exact ⟨h ht'.1, ht'.2⟩

theorem reached_halted (h : s.Halted) : reached s.timeout s.ttstop s.q = [] := by
  rcases h with hq | ⟨hs, m, rest, hq, hd⟩
  · rw [hq]
    rfl
  · rw [hq, reached_data hd]
    exact if_pos hs

/-! ### Blocks -/

theorem Logs.append {ns : List Message} {l k : List (ℕ × ℕ)} (h : Logs ms l) (hk : Logs ns k) :
    Logs (ms ++ ns) (l ++ k) := by
  induction h with
  | nil => exact hk
  | cons hb _ ih =>
      rw [List.cons_append, List.append_assoc]
      exact .cons hb ih

theorem Logs.mem {l : List (ℕ × ℕ)} (h : Logs ms l) {p : ℕ × ℕ} (hp : p ∈ l) :
    ∃ m ∈ ms, m.id = p.1 := by
  induction h with
  | nil => cases hp
  | cons hb _ ih =>
      rcases List.mem_append.mp hp with hp | hp
      · obtain ⟨b, -, rfl⟩ := List.mem_map.mp hp
        exact ⟨_, List.mem_cons_self, rfl⟩
      · obtain ⟨m, hm, hid⟩ := ih hp
        exact ⟨m, List.mem_cons_of_mem _ hm, hid⟩

/-- Each message is settled with the blocks of its own. -/
theorem Logs.settled {l : List (ℕ × ℕ)} (h : Logs ms l) (hm : m ∈ ms) :
    ∃ bs, Settled m bs ∧ (bs.map (m.id, ·)).Sublist l := by
  induction h with
  | nil => cases hm
  | @cons m' bs ms l hb _ ih =>
      rcases List.mem_cons.mp hm with rfl | hm
      · exact ⟨bs, hb, List.sublist_append_left _ _⟩
      · obtain ⟨cs, hcs, hsub⟩ := ih hm
        exact ⟨cs, hcs, hsub.trans (List.sublist_append_right _ _)⟩

theorem Logs.nodup {l : List (ℕ × ℕ)} (h : Logs ms l) (hid : (ms.map Message.id).Nodup)
    (hb : ∀ m ∈ ms, ∀ bs, Settled m bs → bs.Nodup) : l.Nodup := by
  induction h with
  | nil => exact List.nodup_nil
  | @cons m bs ms l hs hl ih =>
      rw [List.map_cons, List.nodup_cons] at hid
      refine List.nodup_append.mpr ⟨?_, ih hid.2 fun m' hm' => hb m' (List.mem_cons_of_mem m hm'),
        fun p hp p' hp' heq => hid.1 ?_⟩
      · exact (hb m List.mem_cons_self bs hs).map fun _ _ h => (Prod.mk.inj h).2
      · obtain ⟨b, -, rfl⟩ := List.mem_map.mp hp
        obtain ⟨m', hm', hid'⟩ := hl.mem hp'
        rw [← heq] at hid'
        exact List.mem_map.mpr ⟨m', hm', hid'⟩

/-! ### Ways -/

/-- A step after which nothing has happened to a message. -/
theorem Result.same (hb : s'.busy = false) (hq : s'.q = s.q) (ht : s'.ttstop = s.ttstop)
    (ho : s'.timeout = s.timeout) (hs : s'.shown = s.shown) (ha : s'.answered = s.answered)
    (hf : s'.freed = s.freed) : Result s s' [] where
  queue := hq.symm
  reach t _ := by simp [hq]
  ttstop := by simp [ht]
  timeout := ho
  busy := hb
  shown := by simp [hs]
  answered := by simp [ha]
  freed := ⟨[], .nil, by simp [hf]⟩

theorem Result.trans {s'' : Line} {after : List Message} (h : Result s s' gone)
    (h' : Result s' s'' after) : Result s s'' (gone ++ after) where
  queue := by rw [h.queue, h'.queue, List.append_assoc]
  reach t ht := by
    have hnext := h'.reach (t && !gone.any Message.resumes) fun hc => by
      rw [h.ttstop]
      rw [Bool.and_eq_true] at hc ⊢
      exact ⟨ht hc.1, hc.2⟩
    rw [h.timeout] at hnext
    rw [h.reach t ht, hnext, List.append_assoc, List.any_append, Bool.not_or, Bool.and_assoc]
  ttstop := by
    rw [h'.ttstop, h.ttstop, List.any_append, Bool.not_or, Bool.and_assoc]
  timeout := h'.timeout.trans h.timeout
  busy := h'.busy
  shown := by rw [h'.shown, h.shown, List.flatMap_append, List.append_assoc]
  answered := by
    rw [List.filter_append, List.map_append, ← List.append_assoc]
    exact h'.answered.trans (h.answered.append_right _)
  freed := by
    obtain ⟨l, hl, hp⟩ := h.freed
    obtain ⟨k, hk, hp'⟩ := h'.freed
    refine ⟨l ++ k, hl.append hk, ?_⟩
    rw [← List.append_assoc]
    exact hp'.trans (hp.append_right k)

/-- What `dispose` does with a message that is settled. -/
theorem dispose_settled (s : Line) {e : Ending} {bs : List ℕ} (h : m.served = some (e, bs))
    (he : e ≠ .putbq) : (s.dispose m (e, bs)).q = s.q ∧ (s.dispose m (e, bs)).busy = s.busy ∧
      (s.dispose m (e, bs)).ttstop = s.ttstop ∧ (s.dispose m (e, bs)).timeout = s.timeout ∧
      (s.dispose m (e, bs)).shown = s.shown ∧ (s.dispose m (e, bs)).answered.map Prod.fst =
        s.answered.map Prod.fst ++ ([m].filter Message.answers).map Message.id ∧
      (s.dispose m (e, bs)).freed = s.freed ++ bs.map (m.id, ·) := by
  rcases Message.answers_of_served h he with ⟨⟨r, rfl⟩, ha⟩ | ⟨rfl, ha⟩
  · refine ⟨rfl, rfl, rfl, rfl, rfl, ?_, rfl⟩
    simp [Line.dispose, ha]
  · refine ⟨rfl, rfl, rfl, rfl, rfl, ?_, rfl⟩
    simp [Line.dispose, ha]

/-- What is noted last may stand before what was noted in between. -/
theorem perm_inserted {α : Type} {a b c x y : List α} (h : x.Perm (a ++ b))
    (h' : y.Perm (x ++ c)) (d : List α) : (y ++ d).Perm (a ++ (d ++ (b ++ c))) := by
  have hy : y.Perm (a ++ (b ++ c)) := by
    rw [← List.append_assoc]
    exact h'.trans (h.append_right c)
  refine (hy.append_right d).trans ?_
  rw [List.append_assoc]
  exact List.perm_append_comm.append_left a

/-- A message that is not data is settled after others behind it, some of them
before it ends a suspension and some after. -/
theorem Result.settle {s₁ s₃ : Line} {before after : List Message} {e : Ending} {bs : List ℕ}
    (hd : m.isData = false) (hserved : m.served = some (e, bs)) (he : e ≠ .putbq)
    (hq : s.q = m :: q) (h₁ : Result (s.setQ q) s₁ before)
    (h₂ : Result (if m.resumes && s₁.ttstop then s₁.resume else s₁) s₃ after) :
    Result s (s₃.dispose m (e, bs)) (m :: (before ++ after)) := by
  have hstart : ∃ s₂, s₂ = (if m.resumes && s₁.ttstop then s₁.resume else s₁) ∧ s₂.q = s₁.q ∧
      s₂.ttstop = (s₁.ttstop && !m.resumes) ∧ s₂.timeout = s₁.timeout ∧ s₂.shown = s₁.shown ∧
      s₂.answered = s₁.answered ∧ s₂.freed = s₁.freed := by
    refine ⟨_, rfl, ?_⟩
    cases hr : m.resumes <;> cases ht : s₁.ttstop <;> simp [ht, Line.resume]
  obtain ⟨s₂, heq, hq₂, ht₂, ho₂, hs₂, ha₂, hf₂⟩ := hstart
  rw [← heq] at h₂
  obtain ⟨hq₃, hb₃, ht₃, ho₃, hs₃, ha₃, hf₃⟩ := dispose_settled s₃ hserved he
  have hqueue : q = before ++ s₁.q := h₁.queue
  constructor
  · rw [hq, hqueue, hq₃, ← hq₂, h₂.queue, List.cons_append, List.append_assoc]
  · intro t ht
    have hbefore := h₁.reach (t && !m.resumes) fun hc => ht (Bool.and_eq_true .. ▸ hc).1
    have hafter := h₂.reach (t && !m.resumes && !before.any Message.resumes) fun hc => by
      rw [ht₂, h₁.ttstop]
      rw [Bool.and_eq_true, Bool.and_eq_true] at hc
      rw [Bool.and_eq_true, Bool.and_eq_true]
      exact ⟨⟨ht hc.1.1, hc.2⟩, hc.1.2⟩
    rw [ho₂, h₁.timeout, hq₂] at hafter
    change reached s.timeout _ q = _ at hbefore
    rw [hq, reached_ioctl hd, hbefore, hq₃]
    change m :: (before ++ reached s.timeout _ s₁.q) = _
    change reached s.timeout _ s₁.q = _ at hafter
    rw [hafter, List.any_cons, List.any_append, Bool.not_or, Bool.not_or, List.cons_append,
      List.append_assoc, Bool.and_assoc, Bool.and_assoc]
    rfl
  · rw [ht₃, h₂.ttstop, ht₂, h₁.ttstop, List.any_cons, List.any_append]
    change (s.ttstop && _ && _ && _) = _
    cases s.ttstop <;> cases m.resumes <;> cases before.any Message.resumes <;>
      cases after.any Message.resumes <;> rfl
  · exact ho₃.trans (h₂.timeout.trans (ho₂.trans h₁.timeout))
  · exact hb₃.trans h₂.busy
  · have hshow : m.shows = [] := by simp [Message.shows, hd]
    rw [hs₃, h₂.shown, hs₂, h₁.shown, List.flatMap_cons, hshow, List.nil_append,
      List.flatMap_append, List.append_assoc]
    rfl
  · have hids : ((m :: (before ++ after)).filter Message.answers).map Message.id =
        ([m].filter Message.answers).map Message.id ++
          ((before.filter Message.answers).map Message.id ++
            (after.filter Message.answers).map Message.id) := by
      rw [← List.singleton_append, List.filter_append, List.filter_append, List.map_append,
        List.map_append]
    have hafter := h₂.answered
    rw [ha₂] at hafter
    rw [ha₃, hids]
    exact perm_inserted h₁.answered hafter _
  · obtain ⟨l, hl, hp⟩ := h₁.freed
    obtain ⟨k, hk, hp'⟩ := h₂.freed
    rw [hf₂] at hp'
    refine ⟨_, .cons (.done hserved he) (hl.append hk), ?_⟩
    rw [hf₃]
    exact perm_inserted hp hp' _

/-! ### One message -/

/-- TCSETAF and TCSETSF call `flush` first. -/
def Message.flushes (m : Message) : Bool :=
  m.switched && (m.cmd matches .TCSETAF || m.cmd matches .TCSETSF)

/-- A message is settled after what `getoblk` does when it is called for it. -/
theorem srvioc_eq (getoblk : Line → Option Line) (s : Line) (m : Message) :
    s.srvioc getoblk m =
      ((if m.flushes then s.flush getoblk else some s).bind fun s =>
        (if m.resumes && s.ttstop then getoblk s.resume else some s).bind fun s => s.settle m) := by
  have hparams : ∀ s : Line, m.switched = true → m.setsParams = true → s.setParams getoblk m =
      (if m.resumes && s.ttstop then getoblk s.resume else some s).bind fun s => s.settle m := by
    intro s hs hp
    unfold Line.setParams Line.coparam Message.resumes
    rw [hs, hp]
    cases hb : m.blocks with
    | zero => rfl
    | succ n => cases s.ttstop <;> cases m.ixon <;> rfl
  unfold Line.srvioc Message.flushes
  cases hs : m.switched with
  | false =>
      have hr : m.resumes = false := by rw [Message.resumes, hs]; rfl
      rw [hr]
      rfl
  | true =>
      cases hc : m.cmd
      case TCSETAF | TCSETSF =>
        have hp : m.setsParams = true := by rw [Message.setsParams, hc]
        simp only [if_true, Bool.true_and, Bool.true_or, Bool.or_true]
        exact congrArg _ (funext fun s => hparams s hs hp)
      case TCSETA | TCSETAW | TCSETS | TCSETSW =>
        have hp : m.setsParams = true := by rw [Message.setsParams, hc]
        exact hparams s hs hp
      all_goals
        have hr : m.resumes = false := by
          rw [Message.resumes, Message.setsParams, hc, Bool.and_false]
          rfl
        rw [hr]
        rfl

/-- What calls `getoblk` is never put back. -/
theorem Message.not_putbq {bs : List ℕ} (h : m.served = some (.putbq, bs)) :
    m.switched = true ∧ m.flushes = false ∧ m.resumes = false ∧
      (m.cmd = .TCGETA ∨ m.cmd = .TCGETS ∨ m.cmd = .unrecognized) := by
  have hs : m.switched = true := by
    by_contra hn
    rcases served_of_not_switched (Bool.eq_false_iff.mpr hn) with ⟨hserved, -⟩ | ⟨hserved, -⟩
    · rw [hserved] at h
      cases h
    · rw [hserved] at h
      cases h
  rw [served_of_switched hs] at h
  split_ifs at h
  have hcom := Option.some.inj h
  have hcmd := ((m.command_answers (m.fate 0)).resolve_left fun ⟨r, hr⟩ => by
    rw [hcom] at hr
    cases hr).2
  refine ⟨hs, ?_, ?_, hcmd⟩
  · unfold Message.flushes
    rcases hcmd with hc | hc | hc <;> simp [hc]
  · unfold Message.resumes Message.setsParams
    rcases hcmd with hc | hc | hc <;> simp [hc]

/-- Data that is not held up is shown, if the console is ready, and freed. -/
theorem Result.data (hd : m.isData = true) (hq : s.q = m :: q) (hs : s.stopped = false) :
    Result s (((s.setQ q).put m).dispose m (.free, m.all)) [m] := by
  have hserved : m.served = some (.free, m.all) := by
    unfold Message.isData at hd
    unfold Message.served
    cases hk : m.kind <;> simp_all
  have hr : m.resumes = false := Message.resumes_of_data hd
  obtain ⟨ht, ho⟩ := Bool.or_eq_false_iff.mp hs
  have hput : ∀ s : Line, (s.put m).q = s.q ∧ (s.put m).busy = false ∧
      (s.put m).ttstop = s.ttstop ∧ (s.put m).timeout = s.timeout ∧
      (s.put m).shown = s.shown ++ m.shows ∧ (s.put m).answered = s.answered ∧
      (s.put m).freed = s.freed := by
    intro s
    unfold Line.put Message.shows
    rw [hd]
    cases (m.fate 0).ready <;> simp
  obtain ⟨hq', hb', ht', ho', hs', ha', hf'⟩ := hput (s.setQ q)
  obtain ⟨hq₃, hb₃, ht₃, ho₃, hs₃, ha₃, hf₃⟩ := dispose_settled ((s.setQ q).put m) hserved (by simp)
  constructor
  · rw [hq, hq₃, hq']
    rfl
  · intro t htt
    obtain rfl : t = false := Bool.eq_false_iff.mpr fun hc => by
      rw [ht] at htt
      exact absurd (htt hc) (by decide)
    rw [hq, reached_data hd, ho, hq₃, hq', Bool.false_and]
    rfl
  · rw [ht₃, ht']
    simp [hr, Line.setQ]
  · exact ho₃.trans ho'
  · exact hb₃.trans hb'
  · rw [hs₃, hs']
    simp [Line.setQ]
  · refine List.Perm.of_eq ?_
    rw [ha₃, ha']
    rfl
  · refine ⟨_, .cons (.done hserved (by simp)) .nil, List.Perm.of_eq ?_⟩
    rw [hf₃, hf', List.append_nil]
    rfl

/-- A message that is not data is settled with nothing before it. -/
theorem Result.settled {e : Ending} {bs : List ℕ} (hd : m.isData = false) (hr : m.resumes = false)
    (hserved : m.served = some (e, bs)) (he : e ≠ .putbq) (hq : s.q = m :: q)
    (hb : s.busy = false) : Result s ((s.setQ q).dispose m (e, bs)) [m] := by
  have hsame : Result (s.setQ q) (s.setQ q) [] := .same hb rfl rfl rfl rfl rfl rfl
  have hafter : Result (if m.resumes && (s.setQ q).ttstop then (s.setQ q).resume else s.setQ q)
      (s.setQ q) [] := by
    rw [hr]
    exact hsame
  exact Result.settle hd hserved he hq hsame hafter

/-! ### The loop -/

/-- Where a routine comes back, it has settled what it reached. -/
def Settles (getoblk : Line → Option Line) : Prop :=
  ∀ s s', s.busy = false → getoblk s = some s' → ∃ gone, Result s s' gone ∧ s'.Halted

/-- `srvioc` settles a message, or puts it back. -/
theorem srvioc_result {getoblk : Line → Option Line} (hg : Settles getoblk)
    (hb : s.busy = false) (hd : m.isData = false) (hq : s.q = m :: q)
    (h : (s.setQ q).srvioc getoblk m = some s') :
    (∃ gone, Result s s' (m :: gone)) ∨
      ∃ bs, m.served = some (.putbq, bs) ∧ s' = (s.setQ q).dispose m (.putbq, bs) := by
  rw [srvioc_eq] at h
  obtain ⟨s₁, h₁, h⟩ := Option.bind_eq_some_iff.mp h
  obtain ⟨s₂, h₂, h⟩ := Option.bind_eq_some_iff.mp h
  obtain ⟨⟨e, bs⟩, hserved, rfl⟩ := Option.map_eq_some_iff.mp h
  by_cases he : e = .putbq
  · right
    subst he
    obtain ⟨-, hf, hr, -⟩ := Message.not_putbq hserved
    rw [hf] at h₁
    rw [hr] at h₂
    cases h₁
    cases h₂
    exact ⟨bs, hserved, rfl⟩
  · left
    have hbefore : ∃ before, Result (s.setQ q) s₁ before := by
      cases hf : m.flushes with
      | false =>
          rw [hf] at h₁
          cases h₁
          exact ⟨[], .same hb rfl rfl rfl rfl rfl rfl⟩
      | true =>
          rw [hf] at h₁
          obtain ⟨before, hbefore, -⟩ := hg (s.setQ q).unbusy s₁ rfl h₁
          have hun : Result (s.setQ q) (s.setQ q).unbusy [] := .same rfl rfl rfl rfl rfl rfl rfl
          exact ⟨before, hun.trans hbefore⟩
    obtain ⟨before, hbefore⟩ := hbefore
    have hafter : ∃ after,
        Result (if m.resumes && s₁.ttstop then s₁.resume else s₁) s₂ after := by
      cases hr : m.resumes && s₁.ttstop with
      | false =>
          rw [hr] at h₂
          cases h₂
          exact ⟨[], .same hbefore.busy rfl rfl rfl rfl rfl rfl⟩
      | true =>
          rw [hr] at h₂
          obtain ⟨after, hafter, -⟩ := hg s₁.resume s₂ hbefore.busy h₂
          exact ⟨after, hafter⟩
    obtain ⟨after, hafter⟩ := hafter
    exact ⟨_, Result.settle hd hserved he hq hbefore hafter⟩

/-- A message that was put back counts as the one that was taken. -/
theorem Result.later {bs : List ℕ} (hserved : m.served = some (.putbq, bs)) (hq : s.q = m :: q)
    (hd : m.isData = false) (hend : s'.Halted)
    (h : Result ((s.setQ q).dispose m (.putbq, bs)) s' gone) :
    ∃ gone', Result s s' (m :: gone') := by
  have hall := h.reach s.ttstop id
  have hend' : reached s'.timeout s'.ttstop s'.q = [] := reached_halted hend
  have hrest : (s.ttstop && !gone.any Message.resumes) = s'.ttstop := h.ttstop.symm
  have htime : ((s.setQ q).dispose m (.putbq, bs)).timeout = s'.timeout := h.timeout.symm
  rw [hrest, htime, hend', List.append_nil] at hall
  change reached _ s.ttstop (m.later :: q) = gone at hall
  rw [reached_ioctl (m := m.later) hd] at hall
  obtain ⟨gone', rfl⟩ : ∃ gone', gone = m.later :: gone' := ⟨_, hall.symm⟩
  refine ⟨gone', ?_⟩
  constructor
  · rw [hq]
    have hqueue : m.later :: q = m.later :: gone' ++ s'.q := h.queue
    rw [(List.cons.inj hqueue).2]
    rfl
  · intro t ht
    have hreach := h.reach t ht
    change reached s.timeout t (m.later :: q) = _ :: gone' ++ reached s.timeout _ s'.q at hreach
    rw [reached_ioctl (m := m.later) hd] at hreach
    rw [hq, reached_ioctl hd]
    exact congrArg (m :: ·) (List.cons.inj hreach).2
  · exact h.ttstop
  · exact h.timeout
  · exact h.busy
  · have hshow : ∀ m : Message, m.isData = false → m.shows = [] := by
      intro m hd
      rw [Message.shows, hd]
      rfl
    rw [h.shown, List.flatMap_cons, List.flatMap_cons, hshow m hd, hshow m.later hd]
    rfl
  · have hans := h.answered
    cases ha : m.answers with
    | true =>
        have ha' : m.later.answers = true := ha
        rw [List.filter_cons_of_pos ha'] at hans
        rw [List.filter_cons_of_pos ha]
        exact hans
    | false =>
        have ha' : m.later.answers = false := ha
        rw [List.filter_cons_of_neg (by rw [ha']; decide)] at hans
        rw [List.filter_cons_of_neg (by rw [ha]; decide)]
        exact hans
  · obtain ⟨l, hl, hp⟩ := h.freed
    cases hl with
    | @cons _ cs _ l' hs hl' =>
        refine ⟨_, .cons (.again hserved hs) hl', ?_⟩
        rw [List.map_append, List.append_assoc, ← List.append_assoc]
        exact hp

/-- One turn with data in front. -/
theorem getoblk_data (hd : m.isData = true) (hq : s.q = m :: q) (turns : ℕ) :
    Line.getoblk (turns + 1) s = if s.stopped then some s
      else (((s.setQ q).put m).dispose m (.free, m.all)).again (Line.getoblk turns) := by
  have hk : m.kind = .data := by
    unfold Message.isData at hd
    cases hk : m.kind <;> simp_all
  rw [Line.getoblk, hq]
  simp only [hk]

/-- One turn with another message in front. -/
theorem getoblk_ioctl (hd : m.isData = false) (hq : s.q = m :: q) (turns : ℕ) :
    Line.getoblk (turns + 1) s = ((s.setQ q).srvioc (Line.getoblk turns) m).bind
      fun s => s.again (Line.getoblk turns) := by
  rw [Line.getoblk, hq]
  cases hk : m.kind with
  | data => simp [Message.isData, hk] at hd
  | other =>
      simp only
      rw [Line.srvioc, Message.switched, hk, Line.settle, Message.served, hk]
      rfl
  | ioctl t => simp only [hk]
  | iocdata rval more => simp only [hk]

theorem getoblk_settles (turns : ℕ) : Settles (Line.getoblk turns) := by
  induction turns with
  | zero => exact fun _ _ _ h => by cases h
  | succ turns ih =>
      intro s s' hb h
      have hgo : ∀ {s₁ : Line} {gone : List Message}, Result s s₁ gone →
          s₁.again (Line.getoblk turns) = some s' → ∃ gone, Result s s' gone ∧ s'.Halted := by
        intro s₁ gone h₁ h
        unfold Line.again at h
        rw [h₁.busy, if_neg Bool.false_ne_true] at h
        obtain ⟨after, hafter, hend⟩ := ih s₁ s' h₁.busy h
        exact ⟨_, h₁.trans hafter, hend⟩
      cases hq : s.q with
      | nil =>
          rw [Line.getoblk, hq] at h
          obtain rfl := Option.some.inj h
          exact ⟨[], .same hb rfl rfl rfl rfl rfl rfl, .inl hq⟩
      | cons m q =>
          cases hd : m.isData with
          | true =>
              rw [getoblk_data hd hq] at h
              split_ifs at h with hs
              · obtain rfl := Option.some.inj h
                exact ⟨[], .same hb rfl rfl rfl rfl rfl rfl, .inr ⟨hs, m, q, hq, hd⟩⟩
              · exact hgo (.data hd hq (Bool.eq_false_iff.mpr hs)) h
          | false =>
              rw [getoblk_ioctl hd hq] at h
              obtain ⟨s₁, h₁, h⟩ := Option.bind_eq_some_iff.mp h
              rcases srvioc_result ih hb hd hq h₁ with ⟨gone, hr⟩ | ⟨bs, hserved, rfl⟩
              · exact hgo hr h
              · unfold Line.again at h
                rw [show ((s.setQ q).dispose m (.putbq, bs)).busy = false from hb,
                  if_neg Bool.false_ne_true] at h
                obtain ⟨gone, hgone, hend⟩ := ih ((s.setQ q).dispose m (.putbq, bs)) s' hb h
                obtain ⟨gone', hr⟩ := Result.later hserved hq hd hend hgone
                exact ⟨_, hr, hend⟩

/-! ### The end of the loop -/

/-- One routine comes back with the result of another, wherever that comes back. -/
def Extends (f g : Line → Option Line) : Prop := ∀ s s', f s = some s' → g s = some s'

theorem srvioc_extends {f g : Line → Option Line} (h : Extends f g) (s : Line) (m : Message)
    {s' : Line} (hs : s.srvioc f m = some s') : s.srvioc g m = some s' := by
  rw [srvioc_eq] at hs ⊢
  obtain ⟨s₁, h₁, hs⟩ := Option.bind_eq_some_iff.mp hs
  obtain ⟨s₂, h₂, hs⟩ := Option.bind_eq_some_iff.mp hs
  have hflush : (if m.flushes then s.flush g else some s) = some s₁ := by
    split_ifs at h₁ ⊢ with hf
    · exact h _ _ h₁
    · exact h₁
  have hresume : (if m.resumes && s₁.ttstop then g s₁.resume else some s₁) = some s₂ := by
    split_ifs at h₂ ⊢ with hr
    · exact h _ _ h₂
    · exact h₂
  rw [hflush, Option.bind_some, hresume, Option.bind_some, hs]

theorem again_extends {f g : Line → Option Line} (h : Extends f g) (s : Line) {s' : Line}
    (hs : s.again f = some s') : s.again g = some s' := by
  unfold Line.again at hs ⊢
  split_ifs at hs ⊢ with hb
  · exact hs
  · exact h s s' hs

theorem getoblk_succ (turns : ℕ) : Extends (Line.getoblk turns) (Line.getoblk (turns + 1)) := by
  induction turns with
  | zero => exact fun _ _ h => by cases h
  | succ turns ih =>
      intro s s' h
      cases hq : s.q with
      | nil =>
          rw [Line.getoblk, hq] at h ⊢
          exact h
      | cons m q =>
          cases hd : m.isData with
          | true =>
              rw [getoblk_data hd hq] at h ⊢
              split_ifs at h ⊢ with hs
              · exact h
              · exact again_extends ih _ h
          | false =>
              rw [getoblk_ioctl hd hq] at h ⊢
              obtain ⟨s₁, h₁, h⟩ := Option.bind_eq_some_iff.mp h
              rw [srvioc_extends ih _ m h₁, Option.bind_some]
              exact again_extends ih s₁ h

theorem getoblk_le {turns more : ℕ} (h : turns ≤ more) :
    Extends (Line.getoblk turns) (Line.getoblk more) := by
  induction h with
  | refl => exact fun _ _ h => h
  | step _ ih => exact fun s s' h => getoblk_succ _ s s' (ih s s' h)

/-- With turns enough `getoblk` comes back. -/
def Line.Returns (s : Line) : Prop := ∃ turns s', Line.getoblk turns s = some s'

/-- After a service that comes back, the loop goes on. -/
theorem returns_of_srvioc (hd : m.isData = false) (hq : s.q = m :: q) {turns : ℕ}
    (h : (s.setQ q).srvioc (Line.getoblk turns) m = some s') (hb : s'.busy = false)
    (hr : s'.Returns) : s.Returns := by
  obtain ⟨more, s'', hmore⟩ := hr
  refine ⟨max turns more + 1, s'', ?_⟩
  rw [getoblk_ioctl hd hq, srvioc_extends (getoblk_le (Nat.le_max_left turns more)) _ m h,
    Option.bind_some, Line.again, hb, if_neg Bool.false_ne_true]
  exact getoblk_le (Nat.le_max_right turns more) _ _ hmore

/-- Every message that is reached is settled at some time. -/
def Line.Ends (s : Line) : Prop :=
  ∀ m ∈ reached s.timeout s.ttstop s.q, ∃ bs, Settled m bs

theorem Result.ends (h : Result s s' gone) (he : s.Ends) : s'.Ends := by
  intro m hm
  refine he m ?_
  rw [h.reach s.ttstop id, ← h.ttstop, ← h.timeout]
  exact List.mem_append_right gone hm

/-- The messages behind a message, before and after it ends a suspension. -/
theorem ends_behind (hd : m.isData = false) (hq : s.q = m :: q) (he : s.Ends) :
    (s.setQ q).Ends := by
  intro m' hm'
  refine he m' ?_
  rw [hq, reached_ioctl hd]
  have hpre : reached s.timeout s.ttstop q <+: reached s.timeout (s.ttstop && !m.resumes) q :=
    reached_prefix (fun hc => (Bool.and_eq_true .. ▸ hc).1) q
  exact List.mem_cons_of_mem m (hpre.subset hm')

theorem ends_resumed {s₁ : Line} {before : List Message} (hd : m.isData = false)
    (hr : m.resumes = true) (hq : s.q = m :: q) (he : s.Ends)
    (h : Result (s.setQ q) s₁ before) : s₁.resume.Ends := by
  intro m' hm'
  refine he m' ?_
  have hreach := h.reach false fun hc => absurd hc (by decide)
  change reached s.timeout false q = before ++ reached s.timeout false s₁.q at hreach
  rw [hq, reached_ioctl hd, hr, Bool.not_true, Bool.and_false, hreach]
  have hm' : m' ∈ reached s₁.timeout false s₁.q := hm'
  rw [h.timeout] at hm'
  exact List.mem_cons_of_mem m (List.mem_append_right before hm')

/-- A message that is not put back is settled by `srvioc`, if `getoblk` comes
back from the messages behind it. -/
theorem srvioc_returns {n : ℕ} (ih : ∀ s : Line, s.q.length ≤ n → s.busy = false → s.Ends →
      s.Returns) (hb : s.busy = false) (hd : m.isData = false) (hq : s.q = m :: q)
    (hlen : q.length ≤ n) (he : s.Ends) {e : Ending} {bs : List ℕ}
    (hserved : m.served = some (e, bs)) :
    ∃ turns s', (s.setQ q).srvioc (Line.getoblk turns) m = some s' := by
  have hbefore : ∃ turns s₁ before, Result (s.setQ q) s₁ before ∧
      (if m.flushes then (s.setQ q).flush (Line.getoblk turns) else some (s.setQ q)) = some s₁ := by
    cases hf : m.flushes with
    | false => exact ⟨0, s.setQ q, [], .same hb rfl rfl rfl rfl rfl rfl, rfl⟩
    | true =>
        have hbehind : (s.setQ q).Ends := ends_behind hd hq he
        obtain ⟨turns, s₁, h₁⟩ := ih (s.setQ q).unbusy hlen rfl hbehind
        obtain ⟨before, hres, -⟩ := getoblk_settles turns _ _ rfl h₁
        have hun : Result (s.setQ q) (s.setQ q).unbusy [] := .same rfl rfl rfl rfl rfl rfl rfl
        exact ⟨turns, s₁, before, hun.trans hres, h₁⟩
  obtain ⟨turns, s₁, before, hres, h₁⟩ := hbefore
  have hafter : ∃ more s₂, (if m.resumes && s₁.ttstop then Line.getoblk more s₁.resume
      else some s₁) = some s₂ := by
    cases hr : m.resumes && s₁.ttstop with
    | false => exact ⟨0, s₁, rfl⟩
    | true =>
        have hlen₁ : s₁.q.length ≤ n := by
          have hqueue : q = before ++ s₁.q := hres.queue
          rw [hqueue, List.length_append] at hlen
          omega
        obtain ⟨more, s₂, h₂⟩ := ih s₁.resume hlen₁ hres.busy
          (ends_resumed hd (Bool.and_eq_true .. ▸ hr).1 hq he hres)
        exact ⟨more, s₂, h₂⟩
  obtain ⟨more, s₂, h₂⟩ := hafter
  refine ⟨max turns more, s₂.dispose m (e, bs), ?_⟩
  have hflush : (if m.flushes then (s.setQ q).flush (Line.getoblk (max turns more))
      else some (s.setQ q)) = some s₁ := by
    split_ifs at h₁ ⊢ with hf
    · exact getoblk_le (Nat.le_max_left turns more) _ _ h₁
    · exact h₁
  have hresume : (if m.resumes && s₁.ttstop then Line.getoblk (max turns more) s₁.resume
      else some s₁) = some s₂ := by
    split_ifs at h₂ ⊢ with hr
    · exact getoblk_le (Nat.le_max_right turns more) _ _ h₂
    · exact h₂
  rw [srvioc_eq, hflush, Option.bind_some, hresume, Option.bind_some, Line.settle, hserved]
  rfl

/-- `getoblk` comes back if every message that it gets to is settled at some time. -/
theorem getoblk_returns (n : ℕ) (s : Line) (hlen : s.q.length ≤ n) (hb : s.busy = false)
    (he : s.Ends) : s.Returns := by
  induction n generalizing s with
  | zero =>
      have hq : s.q = [] := List.length_eq_zero_iff.mp (Nat.le_zero.mp hlen)
      exact ⟨1, s.drained, by rw [Line.getoblk, hq]⟩
  | succ n ih =>
      cases hq : s.q with
      | nil => exact ⟨1, s.drained, by rw [Line.getoblk, hq]⟩
      | cons m q =>
          have hrest : q.length ≤ n := by
            rw [hq] at hlen
            exact Nat.le_of_succ_le_succ hlen
          have hlater : ∀ {s₁ : Line} {gone : List Message}, Result s s₁ (m :: gone) →
              s₁.Returns := by
            intro s₁ gone h₁
            refine ih s₁ ?_ h₁.busy (h₁.ends he)
            have hqueue : q = gone ++ s₁.q := (List.cons.inj (hq.symm.trans h₁.queue)).2
            rw [hqueue, List.length_append] at hrest
            omega
          cases hd : m.isData with
          | true =>
              cases hs : s.stopped with
              | true => exact ⟨1, s, by rw [getoblk_data hd hq, hs]; rfl⟩
              | false =>
                  have hres := Result.data hd hq hs
                  obtain ⟨turns, s', hturns⟩ := hlater hres
                  refine ⟨turns + 1, s', ?_⟩
                  rw [getoblk_data hd hq, hs, Line.again, hres.busy]
                  exact hturns
          | false =>
              obtain ⟨bs, hsettled⟩ := he m (by
                rw [hq, reached_ioctl hd]
                exact List.mem_cons_self)
              -- the message is taken again and again until it is not put back
              clear hlater
              induction hsettled generalizing s with
              | @done m e bs hserved hne =>
                  obtain ⟨turns, s', h⟩ := srvioc_returns ih hb hd hq hrest he hserved
                  rcases srvioc_result (getoblk_settles turns) hb hd hq h with
                    ⟨gone, hres⟩ | ⟨cs, hput, -⟩
                  · refine returns_of_srvioc hd hq h hres.busy (ih s' ?_ hres.busy (hres.ends he))
                    have hqueue : q = gone ++ s'.q :=
                      (List.cons.inj (hq.symm.trans hres.queue)).2
                    rw [hqueue, List.length_append] at hrest
                    omega
                  · rw [hserved] at hput
                    exact absurd (Prod.mk.inj (Option.some.inj hput)).1 hne
              | @again m bs cs hserved hl ihs =>
                  obtain ⟨-, hf, hr, -⟩ := Message.not_putbq hserved
                  have h : (s.setQ q).srvioc (Line.getoblk 0) m =
                      some ((s.setQ q).dispose m (.putbq, bs)) := by
                    rw [srvioc_eq, hf, hr]
                    change (s.setQ q).settle m = _
                    rw [Line.settle, hserved]
                    rfl
                  refine returns_of_srvioc hd hq h hb
                    (ihs ((s.setQ q).dispose m (.putbq, bs)) ?_ hb ?_ rfl hd)
                  · exact Nat.succ_le_succ hrest
                  · intro m' hm'
                    change m' ∈ reached s.timeout s.ttstop (m.later :: q) at hm'
                    rw [reached_ioctl (m := m.later) hd] at hm'
                    rcases List.mem_cons.mp hm' with rfl | hm'
                    · exact ⟨cs, hl⟩
                    · refine he m' ?_
                      rw [hq, reached_ioctl hd]
                      exact List.mem_cons_of_mem m hm'

end

end HydraAmix.Console.WriteService
