import HydraAmix.Console.WriteServed

/-!
# When the write service of a console ends and loses nothing

`getoblk` comes back, and everything is as it should be, exactly when each
message that it gets to is served without a defect.
-/
namespace HydraAmix.Console.WriteService

section
variable {m : Message} {ms gone : List Message}

/-! ### The messages that are settled with no block freed twice -/

theorem Message.chain_nodup (m : Message) : m.chain.Nodup := List.nodup_range'

theorem Message.all_nodup (m : Message) : m.all.Nodup := by
  refine List.nodup_cons.mpr ⟨fun h => ?_, m.chain_nodup⟩
  have hle := (List.mem_range'_1.mp h).1
  omega

/-- What `pullupmsg` frees is no block that is left. -/
theorem Message.nodup_pullupmsg (m : Message) (o : Outcome) {f : List ℕ → Ending × List ℕ}
    (hf : ∀ chain, (f chain).2.Sublist chain) : (m.pullupmsg o f).2.Nodup := by
  unfold Message.pullupmsg
  split
  · have hparts : (m.chain.tail ++ m.chain.take 1).Nodup := by
      rw [← List.drop_one]
      refine List.perm_append_comm.nodup ?_
      rw [List.take_append_drop]
      exact m.chain_nodup
    exact hparts.sublist ((List.Sublist.refl _).append (hf _))
  · exact m.chain_nodup.sublist (hf _)

theorem Message.nodup_copyout (m : Message) (o : Outcome) (copies : Bool) :
    (m.copyout o copies m.chain).2.Nodup := by
  unfold Message.copyout
  split_ifs
  · exact m.chain_nodup
  · refine List.nodup_append.mpr ⟨m.chain_nodup, List.nodup_singleton _, fun b hb c hc heq => ?_⟩
    have hlt := (List.mem_range'_1.mp hb).2
    rw [List.mem_singleton.mp hc] at heq
    omega
  · exact m.chain_nodup

theorem Message.nodup_setTable (m : Message) (o : Outcome) : (m.setTable o).2.Nodup := by
  unfold Message.setTable
  split
  · split_ifs
    · exact List.nodup_nil
    · exact m.chain_nodup
  · refine m.nodup_pullupmsg o fun chain => ?_
    split_ifs
    · exact List.nil_sublist _
    all_goals exact List.Sublist.refl _

theorem Message.nodup_getTable (m : Message) (o : Outcome) : (m.getTable o).2.Nodup := by
  unfold Message.getTable
  split
  · exact List.nodup_nil
  · refine m.nodup_pullupmsg o fun chain => ?_
    have hcopy : (m.copyout o true chain).2 = chain := by
      unfold Message.copyout
      split
      · rfl
      · rfl
    split_ifs
    · rw [hcopy]
    · exact List.Sublist.refl _

theorem Message.nodup_setData (m : Message) (o : Outcome) : (m.setData o).2.Nodup := by
  unfold Message.setData
  split
  · exact List.nodup_nil
  · exact m.nodup_pullupmsg o fun chain => List.Sublist.refl _

/-- One service frees no block twice. -/
theorem Message.nodup_command (m : Message) (o : Outcome) : (m.command o).2.Nodup := by
  unfold Message.command
  cases hc : m.cmd
  case TCSETAF | TCSETA | TCSETAW | TCSETSF | TCSETS | TCSETSW =>
    dsimp only
    split_ifs
    · exact List.nodup_nil
    · exact List.nodup_singleton 1
  case SIOCSETTYPE =>
    dsimp only
    split_ifs
    · exact List.nodup_nil
    · exact m.chain_nodup
  case SIOCGETTYPE | TIOCGWINSZ | SIOCWINSIZE =>
    dsimp only
    split_ifs
    · exact m.nodup_copyout o _
    · exact m.chain_nodup
  case SIOCGETKMAP | SIOCGETFONT => exact m.nodup_getTable o
  case Beep | SIOCSETKMAP | SIOCSETFONT => exact m.nodup_setTable o
  case SIOCSETDEFKMAP | SIOCSETDEFFONT =>
    dsimp only
    split_ifs
    · exact m.nodup_setTable o
    · exact m.chain_nodup
  case SIOCSETCMAP | SIOCSETDISPLAYADJUST | SIOCSETNAME => exact m.nodup_setData o
  case SIOCGETCMAP | SIOCGETDISPLAYADJUST | SIOCGETGROUPINFO => exact m.nodup_copyout o true
  case TIOCSTI | unrecognized => exact List.nodup_nil
  all_goals exact m.chain_nodup

theorem Message.nodup_served {e : Ending} {bs : List ℕ} (h : m.served = some (e, bs)) :
    bs.Nodup := by
  cases hs : m.switched with
  | true =>
      rw [served_of_switched hs] at h
      split_ifs at h
      have hbs : (m.command (m.fate 0)).2 = bs := congrArg Prod.snd (Option.some.inj h)
      exact hbs ▸ m.nodup_command _
  | false =>
      rcases served_of_not_switched hs with ⟨hserved, -⟩ | ⟨hserved, -⟩
      · rw [hserved] at h
        exact (Prod.mk.inj (Option.some.inj h)).2 ▸ m.all_nodup
      · rw [hserved] at h
        exact (Prod.mk.inj (Option.some.inj h)).2 ▸ m.chain_nodup

/-- What a command that may be put back waits for. -/
def Message.waits (m : Message) (o : Outcome) : Bool :=
  match m.cmd with
  | .TCGETA | .TCGETS => o.allocb
  | _ => o.canput

/-- The commands that may be put back. -/
def Message.MayWait (m : Message) : Prop :=
  m.switched = true ∧ (m.cmd = .TCGETA ∨ m.cmd = .TCGETS ∨ m.cmd = .unrecognized)

theorem Message.MayWait.served (h : m.MayWait) : m.served =
    some (m.command (m.fate 0)) ∧
      ((m.command (m.fate 0)).1 = .putbq ↔ m.waits (m.fate 0) = false) := by
  obtain ⟨hs, hc⟩ := h
  rw [served_of_switched hs]
  unfold Message.reads Message.command Message.waits
  rcases hc with hc | hc | hc <;> simp [hc]

theorem Message.MayWait.putbq_iff (hw : m.MayWait) {e : Ending} {bs : List ℕ}
    (h : m.served = some (e, bs)) :
    (e = .putbq ↔ m.waits (m.fate 0) = false) ∧ bs = (m.command (m.fate 0)).2 := by
  obtain ⟨hserved, hput⟩ := hw.served
  have hcom := Option.some.inj (h.symm.trans hserved)
  rw [← hcom] at hput ⊢
  exact ⟨hput, rfl⟩

theorem settled_of_waits (k : ℕ) (h : m.MayWait) (hk : m.waits (m.fate k) = true) :
    ∃ bs, Settled m bs := by
  induction k generalizing m with
  | zero =>
      obtain ⟨hserved, hput⟩ := h.served
      refine ⟨_, .done hserved fun hc => ?_⟩
      rw [hput.mp hc] at hk
      exact absurd hk (by decide)
  | succ k ih =>
      obtain ⟨hserved, hput⟩ := h.served
      cases hw : m.waits (m.fate 0) with
      | true =>
          refine ⟨_, .done hserved fun hc => ?_⟩
          rw [hput.mp hc] at hw
          exact absurd hw (by decide)
      | false =>
          obtain ⟨bs, hbs⟩ := ih (m := m.later) h hk
          have heq : m.command (m.fate 0) = (.putbq, (m.command (m.fate 0)).2) :=
            Prod.ext (hput.mpr hw) rfl
          exact ⟨_, .again (hserved.trans (congrArg some heq)) hbs⟩

theorem Settled.waits {bs : List ℕ} (h : Settled m bs) (hw : m.MayWait) :
    ∃ k, m.waits (m.fate k) = true := by
  induction h with
  | @done m e bs hserved he =>
      exact ⟨0, Bool.ne_false_iff.mp fun hf => he ((hw.putbq_iff hserved).1.mpr hf)⟩
  | @again m bs cs _ _ ih =>
      obtain ⟨k, hk⟩ := ih hw
      exact ⟨k + 1, hk⟩

/-- Without data nothing is freed while such a message waits. -/
theorem Settled.nil {bs : List ℕ} (h : Settled m bs) (hw : m.MayWait)
    (hb : m.cmd = .unrecognized ∨ m.blocks = 0) : bs = [] := by
  have hcom : ∀ m : Message, m.MayWait → (m.cmd = .unrecognized ∨ m.blocks = 0) →
      (m.command (m.fate 0)).2 = [] := by
    intro m hw hb
    unfold Message.command Message.chain
    obtain ⟨-, hc | hc | hc⟩ := hw <;> simp_all
  induction h with
  | @done m e bs hserved _ =>
      rw [(hw.putbq_iff hserved).2]
      exact hcom m hw hb
  | @again m bs cs hserved _ ih =>
      rw [(hw.putbq_iff hserved).2, hcom m hw hb, ih hw hb]
      rfl

/-- TCGETA and TCGETS free the data each time they are served. -/
theorem Settled.chain {bs : List ℕ} (h : Settled m bs) (hs : m.switched = true)
    (hc : m.cmd = .TCGETA ∨ m.cmd = .TCGETS) : m.chain ⊆ bs := by
  have hcom : ∀ {m : Message} {e : Ending} {bs : List ℕ}, m.switched = true →
      (m.cmd = .TCGETA ∨ m.cmd = .TCGETS) → m.served = some (e, bs) → bs = m.chain := by
    intro m e bs hs hc hserved
    rw [(Message.MayWait.putbq_iff ⟨hs, hc.imp_right .inl⟩ hserved).2]
    unfold Message.command
    rcases hc with hc | hc <;> rw [hc]
  cases h with
  | done hserved _ =>
      rw [hcom hs hc hserved]
      exact List.Subset.refl _
  | again hserved _ =>
      rw [hcom hs hc hserved]
      exact List.subset_append_left _ _

theorem Message.MayWait.isData (hw : m.MayWait) : m.isData = false := by
  refine Bool.eq_false_iff.mpr fun hd => ?_
  have hs := hw.1
  rw [Message.switched_of_data hd] at hs
  exact absurd hs (by decide)

theorem Message.MayWait.serves_iff (hw : m.MayWait) : m.Serves ↔
    (∃ k, m.waits (m.fate k) = true) ∧
      (m.cmd = .unrecognized ∨ m.blocks = 0 ∨ m.waits (m.fate 0) = true) := by
  unfold Message.Serves
  rw [hw.isData, if_neg Bool.false_ne_true, hw.1, if_pos rfl]
  unfold Message.reads Message.waits
  rcases hw.2 with hc | hc | hc
  · rw [hc]
    by_cases hb : m.blocks = 0
    · simp [hb]
    · simp only [hb, if_false, reduceCtorEq, false_or, Bool.false_eq_true, false_implies, true_and]
      exact ⟨fun h => ⟨⟨0, h⟩, h⟩, fun h => h.2⟩
  · rw [hc]
    by_cases hb : m.blocks = 0
    · simp [hb]
    · simp only [hb, if_false, reduceCtorEq, false_or, Bool.false_eq_true, false_implies, true_and]
      exact ⟨fun h => ⟨⟨0, h⟩, h⟩, fun h => h.2⟩
  · simp [hc]

theorem Message.serves_of_command (hd : m.isData = false) (hs : m.switched = true)
    (hc : ¬ (m.cmd = .TCGETA ∨ m.cmd = .TCGETS ∨ m.cmd = .unrecognized)) :
    m.Serves ↔ (m.reads (m.fate 0) = true → m.blocks ≠ 0) := by
  unfold Message.Serves
  rw [hd, if_neg Bool.false_ne_true, hs, if_pos rfl]
  refine and_iff_left ?_
  split
  · next h => exact absurd (.inl h) hc
  · next h => exact absurd (.inr (.inl h)) hc
  · next h => exact absurd (.inr (.inr h)) hc
  · trivial

theorem Message.Serves.nodup (hm : m.Serves) {bs : List ℕ} (h : Settled m bs) : bs.Nodup := by
  cases h with
  | done hserved _ => exact Message.nodup_served hserved
  | @again _ bs cs hserved hl =>
      obtain ⟨hs, -, -, hcmd⟩ := Message.not_putbq hserved
      have hw : m.MayWait := ⟨hs, hcmd⟩
      have hput : m.waits (m.fate 0) = false := (hw.putbq_iff hserved).1.mp rfl
      have hnone : m.cmd = .unrecognized ∨ m.blocks = 0 := by
        rcases (hw.serves_iff.mp hm).2 with hc | hb | hk
        · exact .inl hc
        · exact .inr hb
        · rw [hput] at hk
          exact absurd hk (by decide)
      rw [(Settled.again hserved hl).nil hw hnone]
      exact List.nodup_nil

/-- Where the commands that may wait have data, it is freed with each service. -/
theorem Settled.serves {bs : List ℕ} (h : Settled m bs) (hn : bs.Nodup) (hw : m.MayWait) :
    m.Serves := by
  refine hw.serves_iff.mpr ⟨h.waits hw, ?_⟩
  by_cases hc : m.cmd = .unrecognized
  · exact .inl hc
  · have hget : m.cmd = .TCGETA ∨ m.cmd = .TCGETS := by
      rcases hw.2 with hcmd | hcmd | hcmd
      · exact .inl hcmd
      · exact .inr hcmd
      · exact absurd hcmd hc
    by_cases hb : m.blocks = 0
    · exact .inr (.inl hb)
    · refine .inr (.inr ?_)
      cases h with
      | @done _ e _ hserved he =>
          exact Bool.ne_false_iff.mp fun hf => he ((hw.putbq_iff hserved).1.mpr hf)
      | @again _ bs cs hserved hl =>
          have hone : 1 ∈ m.chain := List.mem_range'_1.mpr ⟨Nat.le_refl 1, by omega⟩
          have hbs : 1 ∈ bs := by
            rw [(hw.putbq_iff hserved).2]
            unfold Message.command
            rcases hget with hcmd | hcmd <;> rw [hcmd] <;> exact hone
          have hcs : 1 ∈ cs := hl.chain hw.1 hget hone
          exact absurd rfl ((List.nodup_append.mp hn).2.2 1 hbs 1 hcs)

/-- The messages that are served without a defect are those that are settled
with no block freed twice. -/
theorem serves_iff (hd : m.isData = false) :
    m.Serves ↔ ∃ bs, Settled m bs ∧ bs.Nodup := by
  constructor
  · intro hm
    have hsettled : ∃ bs, Settled m bs := by
      cases hs : m.switched with
      | false =>
          rcases Message.served_of_not_switched hs with ⟨hserved, -⟩ | ⟨hserved, -⟩
          · exact ⟨_, .done hserved (by simp)⟩
          · exact ⟨_, .done hserved (by simp)⟩
      | true =>
          by_cases hc : m.cmd = .TCGETA ∨ m.cmd = .TCGETS ∨ m.cmd = .unrecognized
          · have hw : m.MayWait := ⟨hs, hc⟩
            obtain ⟨⟨k, hk⟩, -⟩ := hw.serves_iff.mp hm
            exact settled_of_waits k hw hk
          · have hread := (Message.serves_of_command hd hs hc).mp hm
            have hserved : m.served = some (m.command (m.fate 0)) := by
              rw [Message.served_of_switched hs, if_neg]
              intro hnull
              rw [Bool.and_eq_true, beq_iff_eq] at hnull
              exact hread hnull.1 hnull.2
            obtain ⟨r, hr⟩ := (m.command_answers (m.fate 0)).resolve_right fun h => hc h.2
            have heq : m.command (m.fate 0) = (.answer r, (m.command (m.fate 0)).2) :=
              Prod.ext hr rfl
            exact ⟨_, .done (hserved.trans (congrArg some heq)) (by simp)⟩
    obtain ⟨bs, hbs⟩ := hsettled
    exact ⟨bs, hbs, hm.nodup hbs⟩
  · rintro ⟨bs, h, hn⟩
    cases hs : m.switched with
    | false =>
        unfold Message.Serves
        rw [hd, if_neg Bool.false_ne_true, hs, if_neg Bool.false_ne_true]
        trivial
    | true =>
        by_cases hc : m.cmd = .TCGETA ∨ m.cmd = .TCGETS ∨ m.cmd = .unrecognized
        · exact h.serves hn ⟨hs, hc⟩
        · refine (Message.serves_of_command hd hs hc).mpr fun hr hb => ?_
          have hnone : m.served = none := by
            rw [Message.served_of_switched hs, if_pos]
            rw [hr, hb]
            rfl
          cases h with
          | done hserved _ =>
              rw [hnone] at hserved
              cases hserved
          | again hserved _ =>
              rw [hnone] at hserved
              cases hserved

/-! ### The whole queue -/

theorem settled_data (hd : m.isData = true) : Settled m m.all := by
  unfold Message.isData at hd
  have hk : m.kind = .data := by
    cases hk : m.kind <;> simp_all
  have hserved : m.served = some (.free, m.all) := by
    rw [Message.served, hk]
  exact .done hserved (by simp)

/-- A failed copy is freed whole. -/
theorem Settled.failed {bs : List ℕ} (h : Settled m bs) (hk : m.kind matches .iocdata true _) :
    bs = m.all := by
  have hserved : m.served = some (.free, m.all) := by
    cases hm : m.kind with
    | iocdata rval more =>
        cases rval with
        | true => rw [Message.served, hm]
        | false => simp [hm] at hk
    | _ => simp [hm] at hk
  cases h with
  | done hs _ => exact (Prod.mk.inj (Option.some.inj (hserved.symm.trans hs))).2.symm
  | again hs _ =>
      rw [hserved] at hs
      cases hs

/-- Data is shown whole if and only if it is served without a defect. -/
theorem shows_iff (hd : m.isData = true) : m.shows = m.text ↔ m.Serves := by
  unfold Message.shows Message.text Message.Serves
  rw [hd]
  simp only [Bool.true_and, if_true]
  cases hr : (m.fate 0).ready with
  | false => simp [Message.all]
  | true =>
      cases hb : m.blocks with
      | zero => simp [Message.all, Message.chain, hb]
      | succ n => simp [Message.all, Message.chain, hb, List.range']

theorem shows_of_not_data (hd : m.isData = false) : m.shows = m.text := by
  rw [Message.shows, Message.text, hd]
  rfl

theorem shows_length_le (m : Message) : m.shows.length ≤ m.text.length := by
  unfold Message.shows Message.text Message.all
  cases m.isData <;> cases (m.fate 0).ready <;> simp

/-- Where nothing is missing in all, nothing is missing anywhere. -/
theorem shows_of_flatMap (h : gone.flatMap Message.shows = gone.flatMap Message.text) :
    ∀ m ∈ gone, m.shows = m.text := by
  induction gone with
  | nil => exact fun _ hm => absurd hm List.not_mem_nil
  | cons m gone ih =>
      rw [List.flatMap_cons, List.flatMap_cons] at h
      have hrest : ∀ ms : List Message,
          (ms.flatMap Message.shows).length ≤ (ms.flatMap Message.text).length := by
        intro ms
        induction ms with
        | nil => exact Nat.le_refl 0
        | cons m ms ih =>
            rw [List.flatMap_cons, List.flatMap_cons, List.length_append, List.length_append]
            exact Nat.add_le_add (shows_length_le m) ih
      have hlen := congrArg List.length h
      rw [List.length_append, List.length_append] at hlen
      have hm := shows_length_le m
      have hgone := hrest gone
      obtain ⟨hself, hother⟩ := List.append_inj h (by omega)
      intro m' hm'
      rcases List.mem_cons.mp hm' with rfl | hm'
      · exact hself
      · exact ih hother m' hm'

theorem numbered_nodup (ms : List Message) : ((numbered ms).map Message.id).Nodup := by
  have hids : (numbered ms).map Message.id = List.range' 0 ms.length := by
    rw [numbered, List.map_map, ← List.zipIdx_map_snd 0 ms]
    rfl
  rw [hids]
  exact List.nodup_range'

/-- What is served is what is reached. -/
theorem Result.gone_eq {s s' : Line} (h : Result s s' gone) (hend : s'.Halted) :
    reached s.timeout s.ttstop s.q = gone := by
  rw [h.reach s.ttstop id, ← h.ttstop, ← h.timeout, reached_halted hend, List.append_nil]

/-- `getoblk` comes back and has done what it owes to the messages, if and only
if each message that it reaches is served without a defect. -/
theorem write_service_iff (ms : List Message) (ttstop timeout : Bool) :
    (∃ turns s' gone, Line.getoblk turns (start ms ttstop timeout) = some s' ∧
      Done (numbered ms) s' gone) ↔
        ∀ m ∈ reached timeout ttstop (numbered ms), m.Serves := by
  constructor
  · rintro ⟨turns, s', gone, h, hdone⟩
    obtain ⟨gone', hres, hend⟩ := getoblk_settles turns _ _ rfl h
    obtain rfl : gone' = gone := List.append_cancel_right (hres.queue.symm.trans hdone.queue)
    have hreached : reached timeout ttstop (numbered ms) = gone' := hres.gone_eq hend
    rw [hreached]
    intro m hm
    cases hd : m.isData with
    | true => exact (shows_iff hd).mp (shows_of_flatMap (hres.shown.symm.trans hdone.shown) m hm)
    | false =>
        obtain ⟨l, hl, hp⟩ := hres.freed
        obtain ⟨bs, hbs, hsub⟩ := hl.settled hm
        have hnodup : l.Nodup := hp.nodup_iff.mp hdone.once
        exact (serves_iff hd).mpr ⟨bs, hbs, (hnodup.sublist hsub).of_map _⟩
  · intro hall
    have hends : (start ms ttstop timeout).Ends := by
      intro m hm
      cases hd : m.isData with
      | true => exact ⟨_, settled_data hd⟩
      | false =>
          obtain ⟨bs, hbs, -⟩ := (serves_iff hd).mp (hall m hm)
          exact ⟨bs, hbs⟩
    obtain ⟨turns, s', h⟩ := getoblk_returns _ (start ms ttstop timeout) (Nat.le_refl _) rfl hends
    obtain ⟨gone, hres, hend⟩ := getoblk_settles turns _ _ rfl h
    have hserves : ∀ m ∈ gone, m.Serves := by
      have hreached : reached timeout ttstop (numbered ms) = gone := hres.gone_eq hend
      rwa [hreached] at hall
    have hids := numbered_nodup ms
    rw [show numbered ms = gone ++ s'.q from hres.queue, List.map_append, List.nodup_append] at hids
    obtain ⟨l, hl, hp⟩ := hres.freed
    refine ⟨turns, s', gone, h, hres.queue, hend, ?_, hres.answered, ?_, ?_, ?_⟩
    · refine hres.shown.trans (List.flatMap_congr fun m hm => ?_)
      cases hd : m.isData with
      | true => exact (shows_iff hd).mpr (hserves m hm)
      | false => exact shows_of_not_data hd
    · exact hp.nodup_iff.mpr (hl.nodup hids.1 fun m hm bs => (hserves m hm).nodup)
    · intro m hm hk
      obtain ⟨bs, hbs, hsub⟩ := hl.settled hm
      rw [hbs.failed hk] at hsub
      exact hp.symm.subset (hsub.subset (List.mem_map_of_mem List.mem_cons_self))
    · intro m hm b hb
      obtain ⟨m', hm', hid⟩ := hl.mem (hp.subset hb)
      exact hids.2.2 m'.id (List.mem_map_of_mem hm') m.id (List.mem_map_of_mem hm) hid

/-- An ioctl that `srvioc` does not recognize, while nothing can be passed up. -/
def stuck : Message :=
  ⟨0, .ioctl false, .unrecognized, 0, false, false, false, false, false,
    fun _ => ⟨false, false, false, true, true, true⟩⟩

theorem write_service_fails : ¬ ∃ turns s' gone,
    Line.getoblk turns (start [stuck] false false) = some s' ∧ Done (numbered [stuck]) s' gone := by
  rintro ⟨turns, s', -, h, -⟩
  obtain ⟨gone, hres, hend⟩ := getoblk_settles turns _ _ rfl h
  obtain rfl : [stuck] = gone := hres.gone_eq hend
  obtain ⟨l, hl, -⟩ := hres.freed
  obtain ⟨bs, hbs, -⟩ := hl.settled List.mem_cons_self
  obtain ⟨k, hk⟩ := hbs.waits ⟨rfl, .inr (.inr rfl)⟩
  cases hk

end

end HydraAmix.Console.WriteService
