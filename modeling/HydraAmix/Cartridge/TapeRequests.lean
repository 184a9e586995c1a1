import HydraAmix.Cartridge.Machine
import HydraAmix.Library.Schedule

/-!
# Tape requests end exactly once

Each round of `machine` disposes of the first request, comes nearer to a state that
does, or starts a command for it and returns. The rounds that are left are at most
three for each request and two for the state.
-/
namespace HydraAmix.Cartridge
open Schedule

/-- A count of one or more whole blocks. -/
def Whole (bp : Buf) : Prop := 0 < bp.bcount.toNat ∧ bp.bcount.toNat % 512 = 0

/-- What is left over is no more than was asked for. -/
def Fair (bp : Buf) : Prop := Whole bp ∨ bp.special = true → bp.resid ≤ bp.bcount

namespace Tape

variable {t : Tape}

/-- While `machine` runs. -/
structure Loop (t : Tape) : Prop where
  order : t.dp.asked.map Buf.core = (t.dp.done ++ t.dp.queue).map Buf.core
  fair : ∀ bp ∈ t.dp.done ++ t.dp.queue, Fair bp
  stored : ∀ e ∈ t.dp.stored, Whole e.1 → e.2 ≤ e.1.bcount.toNat
  special : t.special.buf.resid ≤ t.special.buf.bcount
  out : t.dp.out = []

/-- Nothing is left to do, or one command is out, for the first request. -/
def Waits (t : Tape) : Prop :=
  t.dp.queue = [] ∧ t.dp.out = [] ∨
    ∃ bp rest c, t.dp.queue = bp :: rest ∧ t.dp.out = [c] ∧ c.id = bp.id ∧
      (c.com = .IO_ → c.addr = bp.addr ∧ c.nbyte = bp.bcount)

/-- When `machine` has returned. -/
structure Returned (t : Tape) : Prop where
  order : t.dp.asked.map Buf.core = (t.dp.done ++ t.dp.queue).map Buf.core
  fair : ∀ bp ∈ t.dp.done ++ t.dp.queue, Fair bp
  stored : ∀ e ∈ t.dp.stored, Whole e.1 → e.2 ≤ e.1.bcount.toNat
  special : t.special.buf.resid ≤ t.special.buf.bcount
  waits : t.Waits

/-- A round is good if it brings `machine` nearer to its end, or is the last one; it never
opens or closes the drive. -/
def Good (t : Tape) : Tape ⊕ Tape → Prop
  | .inl t' => t'.weight < t.weight ∧ t'.dp.opened = t.dp.opened ∧ (t.Loop → t'.Loop)
  | .inr t' => t'.dp.opened = t.dp.opened ∧ (t.Loop → t'.Returned)

/-! ### The parts of a round -/

theorem Loop.setState (h : t.Loop) (st : CtState) : (t.setState st).Loop :=
  ⟨h.1, h.2, h.3, h.4, h.5⟩

theorem Loop.setHead (h : t.Loop) {bp b : Buf} {rest : List Buf} (hq : t.dp.queue = bp :: rest)
    (hc : b.core = bp.core) (hf : Fair bp → Fair b) : (t.setHead b).Loop where
  order := by
    have horder := h.order
    change t.dp.asked.map Buf.core = (t.dp.done ++ b :: t.dp.queue.tail).map Buf.core
    rw [horder, hq]
    simp [hc]
  fair x hx := by
    change x ∈ t.dp.done ++ b :: t.dp.queue.tail at hx
    have hfair := h.fair
    rw [hq] at hx hfair
    simp only [List.tail_cons, List.mem_append, List.mem_cons] at hx hfair
    rcases hx with hx | rfl | hx
    · exact hfair x (.inl hx)
    · exact hf (hfair bp (.inr (.inl rfl)))
    · exact hfair x (.inr (.inr hx))
  stored := h.stored
  special := h.special
  out := h.out

theorem dispose_queue {bp : Buf} {rest : List Buf} (hq : t.dp.queue = bp :: rest) (st : CtState) :
    (t.dispose st).dp = ((t.dp.setQueue rest).finish bp).setState st ∧
      (t.dispose st).special = if bp.special then ⟨false, t.special.com, t.dp.sense, bp⟩
        else t.special := by
  unfold dispose
  rw [hq]
  simp only
  split_ifs <;> exact ⟨rfl, rfl⟩

theorem dispose_opened {bp : Buf} {rest : List Buf} (hq : t.dp.queue = bp :: rest)
    (st : CtState) : (t.dispose st).dp.opened = t.dp.opened := by
  rw [(dispose_queue hq st).1]
  rfl

theorem Loop.dispose (h : t.Loop) {bp : Buf} {rest : List Buf} (hq : t.dp.queue = bp :: rest)
    (st : CtState) : (t.dispose st).Loop := by
  obtain ⟨hdp, hsp⟩ := dispose_queue hq st
  have horder := h.order
  have hfair := h.fair
  rw [hq] at horder hfair
  refine ⟨?_, ?_, ?_, ?_, ?_⟩
  · rw [hdp]
    change t.dp.asked.map Buf.core = ((t.dp.done ++ [bp]) ++ rest).map Buf.core
    rw [horder, List.append_assoc, List.singleton_append]
  · rw [hdp]
    intro b hb
    change b ∈ (t.dp.done ++ [bp]) ++ rest at hb
    rw [List.append_assoc, List.singleton_append] at hb
    exact hfair b hb
  · rw [hdp]
    exact h.stored
  · rw [hsp]
    split_ifs with hs
    · exact hfair bp (List.mem_append_right _ List.mem_cons_self) (.inr hs)
    · exact h.special
  · rw [hdp]
    exact h.out

theorem weight_dispose {bp : Buf} {rest : List Buf} (hq : t.dp.queue = bp :: rest) {st : CtState}
    (hst : st.rank ≤ 1) : (t.dispose st).weight < t.weight := by
  unfold weight
  rw [(dispose_queue hq st).1, hq]
  change 3 * rest.length + st.rank < 3 * (bp :: rest).length + _
  rw [List.length_cons]
  omega

theorem weight_setState_dispose {b : Buf} {l : List Buf} (hq : t.dp.queue = b :: l)
    (st : CtState) : ((t.dispose st).setState st).weight = (t.dispose st).weight := by
  unfold weight Tape.setState
  rw [(dispose_queue hq st).1]
  rfl

/-- The rounds below are about the first request of the queue. -/
theorem good_dispose {bp : Buf} {rest : List Buf} (hq : t.dp.queue = bp :: rest) {st : CtState}
    (hst : st.rank ≤ 1) : t.Good (.inl (t.dispose st)) :=
  ⟨weight_dispose hq hst, dispose_opened hq st, fun h => h.dispose hq st⟩

theorem good_setHead {bp b : Buf} {rest : List Buf} (hq : t.dp.queue = bp :: rest)
    (hc : b.core = bp.core) (hf : Fair bp → Fair b) {i : CtState} (hi : i.rank ≤ 1) :
    t.Good (.inl ((t.setHead b).dispose i)) := by
  have hq' : (t.setHead b).dp.queue = b :: rest := congrArg (b :: ·) (congrArg List.tail hq)
  have hw : (t.setHead b).weight = t.weight := by
    unfold weight
    rw [hq', hq]
    rfl
  exact ⟨hw ▸ weight_dispose hq' hi, dispose_opened hq' i,
    fun h => (h.setHead hq hc hf).dispose hq' i⟩

theorem good_fail {bp : Buf} {rest : List Buf} (hq : t.dp.queue = bp :: rest) (errno : ℕ)
    {st : CtState} (hst : st.rank ≤ 1) : t.Good (t.failHead bp errno st) :=
  good_setHead hq (b := bp.fail errno) rfl (fun h => h) hst

theorem good_setState {st : CtState} (hst : st.rank < t.dp.state.rank) :
    t.Good (.inl (t.setState st)) := by
  refine ⟨?_, rfl, fun h => h.setState st⟩
  change 3 * t.dp.queue.length + st.rank < 3 * t.dp.queue.length + t.dp.state.rank
  omega

theorem command_id (t : Tape) (com : Com) (bp : Buf) : (t.command com bp).id = bp.id ∧
    (com ≠ .CLOSE → (t.command com bp).com = com) ∧
    (com = .IO_ → (t.command com bp).addr = bp.addr ∧ (t.command com bp).nbyte = bp.bcount) := by
  cases com <;> exact ⟨rfl, fun h => by first | rfl | exact absurd rfl h, fun h => by
    first | exact ⟨rfl, rfl⟩ | exact absurd h nofun⟩

theorem good_start {bp : Buf} {rest : List Buf} (hq : t.dp.queue = bp :: rest) {c : Com}
    (hcom : c ≠ .CLOSE) (st : CtState) : t.Good (.inr (t.start c st)) := by
  unfold start
  rw [hq]
  obtain ⟨hid, hsame, hio⟩ := command_id t c bp
  refine ⟨rfl, fun h => ⟨h.order, h.fair, h.stored, h.special,
    .inr ⟨bp, rest, t.command c bp, hq, ?_, hid,
    fun hi => hio ((hsame hcom).symm.trans hi)⟩⟩⟩
  change t.dp.out ++ [t.command c bp] = _
  rw [h.out]
  rfl

theorem good_ended {bp : Buf} {rest : List Buf} (hq : t.dp.queue = bp :: rest) {ok : CtState}
    (hok : ok.rank ≤ 1) (getsense : CtState) (hst : t.dp.state.rank = 2) :
    t.Good (t.commandEnded ok getsense) := by
  have hdoom : t.Good (.inl (t.setState .DOOM_MISC_GETSENSE)) := good_setState (by
    rw [hst]
    decide)
  unfold commandEnded
  split_ifs
  · exact hdoom
  · exact good_dispose hq hok
  · exact good_start hq (c := .GETSENSE) (by decide) _
  · exact hdoom

theorem setresidue_fair (t : Tape) (bp : Buf) (h : Fair bp) :
    Fair (bp.setResid (t.setresidue bp)) := by
  intro hw
  change t.setresidue bp ≤ bp.bcount
  unfold setresidue
  simp only
  split_ifs with hs hr
  · exact hr
  · exact h hw
  · exact h hw

theorem good_residual {bp : Buf} {rest : List Buf} (hq : t.dp.queue = bp :: rest) {st : CtState}
    (hst : st.rank ≤ 1) (hrank : t.dp.state.rank = 2) : t.Good (.inl (t.residual bp st)) := by
  have hfair := setresidue_fair t bp
  unfold residual
  simp only
  split_ifs
  · obtain ⟨hw, ho, hl⟩ := good_setHead hq (b := bp.setResid (t.setresidue bp)) rfl hfair hst
    refine ⟨?_, ho, fun h => (hl h).setState st⟩
    rw [weight_setState_dispose (b := bp.setResid (t.setresidue bp)) (l := rest)
      (congrArg (bp.setResid (t.setresidue bp) :: ·) (congrArg List.tail hq))]
    exact hw
  · refine ⟨?_, rfl, fun h => (h.setHead hq (b := bp.setResid (t.setresidue bp)) rfl
      hfair).setState st⟩
    unfold weight
    change 3 * (_ :: t.dp.queue.tail).length + st.rank < _
    rw [hq, hrank]
    change 3 * (rest.length + 1) + st.rank < 3 * (rest.length + 1) + 2
    omega

/-- A count of whole blocks is at least one block. -/
theorem whole_block {bp : Buf} (h : Whole bp) : 512 ≤ bp.bcount.toNat := by
  obtain ⟨h0, h1⟩ := h
  omega

/-- A block of zeros, and the rest left over. -/
theorem good_nuls {bp : Buf} {rest : List Buf} (hq : t.dp.queue = bp :: rest)
    (hs : bp.special = false) :
    t.Good (.inl ((((t.setDp (t.dp.bzero bp 512)).setHead
      (bp.setResid (bp.bcount - BSIZE))).dispose .NORMAL_IDLE).setState .NORMAL_IDLE)) := by
  have hfair : Fair bp → Fair (bp.setResid (bp.bcount - BSIZE)) := by
    rintro - hw
    have hblock := whole_block (hw.resolve_right fun h => absurd (hs.symm.trans h) nofun)
    change bp.bcount - BSIZE ≤ bp.bcount
    have hle : BSIZE ≤ bp.bcount := BitVec.le_def.mpr hblock
    rw [BitVec.le_def, BitVec.toNat_sub_of_le hle]
    exact Nat.sub_le _ _
  obtain ⟨hw, ho, hl⟩ := good_setHead (t := t.setDp (t.dp.bzero bp 512)) hq
    (b := bp.setResid (bp.bcount - BSIZE)) rfl hfair (i := .NORMAL_IDLE) (by decide)
  refine ⟨?_, ho, fun h => (hl ⟨h.order, h.fair, fun e he hwhole => ?_, h.special,
    h.out⟩).setState _⟩
  · rw [weight_setState_dispose (b := bp.setResid (bp.bcount - BSIZE)) (l := rest)
      (congrArg (bp.setResid (bp.bcount - BSIZE) :: ·) (congrArg List.tail hq))]
    exact hw
  · change e ∈ t.dp.stored ++ [(bp, 512)] at he
    rcases List.mem_append.mp he with he | he
    · exact h.stored e he hwhole
    · rw [List.mem_singleton.mp he] at hwhole ⊢
      exact whole_block hwhole

/-- One round. -/
theorem turn_good (t : Tape) : t.Good t.turn := by
  unfold turn
  split
  · rename_i hq
    exact ⟨rfl, fun h => ⟨h.order, h.fair, h.stored, h.special, .inl ⟨hq, h.out⟩⟩⟩
  rename_i bp rest hq
  simp only
  have hdispose : ∀ {st : CtState}, st.rank ≤ 1 → t.Good (.inl (t.dispose st)) :=
    fun hst => good_dispose hq hst
  have hfail : ∀ {st : CtState} (errno : ℕ), st.rank ≤ 1 → t.Good (t.failHead bp errno st) :=
    fun errno hst => good_fail hq errno hst
  have hstart : ∀ {com : Com} {st : CtState}, com ≠ .CLOSE → t.Good (.inr (t.start com st)) :=
    fun hcom => good_start hq hcom _
  generalize hst : t.dp.state = st
  cases st with
  | NORMAL_READ => exact good_ended hq (by decide) _ (by rw [hst]; rfl)
  | NORMAL_SPECIAL => exact good_ended hq (by decide) _ (by rw [hst]; rfl)
  | NORMAL_SEOF => exact good_ended hq (by decide) _ (by rw [hst]; rfl)
  | EOD_WRITE => exact good_ended hq (by decide) _ (by rw [hst]; rfl)
  | EOD_SPECIAL => exact good_ended hq (by decide) _ (by rw [hst]; rfl)
  | EOM_SPECIAL => exact good_ended hq (by decide) _ (by rw [hst]; rfl)
  | EOF_SPECIAL => exact good_ended hq (by decide) _ (by rw [hst]; rfl)
  | DOOM_SPECIAL => exact good_ended hq (by decide) _ (by rw [hst]; rfl)
  | DOOM_MISC_GETSENSE => exact hfail _ (by decide)
  | BAD_READ_1 =>
      simp only
      split_ifs
      · exact good_setState (by rw [hst]; decide)
      · exact hfail _ (by decide)
  | BAD_READ_2 =>
      simp only
      split_ifs
      · exact good_setState (by rw [hst]; decide)
      · exact hfail _ (by decide)
  | BAD_READ_NULS =>
      simp only
      split_ifs with hs
      · exact good_setState (by rw [hst]; decide)
      · exact good_nuls hq (Bool.eq_false_iff.mpr hs)
  | NORMAL_SEOF_GETSENSE =>
      simp only
      split_ifs
      · exact hdispose (by decide)
      · exact good_setState (by rw [hst]; decide)
  | NORMAL_READ_GETSENSE =>
      have hrank : t.dp.state.rank = 2 := by rw [hst]; rfl
      simp only
      split_ifs
      · exact good_setState (by rw [hst]; decide)
      · split
        · exact good_residual hq (by decide) hrank
        · exact good_residual hq (by decide) hrank
        · exact good_residual hq (by decide) hrank
        · exact good_setState (by rw [hst]; decide)
  | EOD_WRITE_GETSENSE =>
      have hrank : t.dp.state.rank = 2 := by rw [hst]; rfl
      simp only
      split_ifs
      · exact good_setState (by rw [hst]; decide)
      · split
        · exact good_residual hq (by decide) hrank
        · exact good_residual hq (by decide) hrank
        · exact good_setState (by rw [hst]; decide)
  | NORMAL_IDLE =>
      simp only
      split_ifs
      · exact hstart (by decide)
      · exact hstart (by decide)
      · split
        all_goals first
          | exact hdispose (by decide)
          | exact hstart (by decide)
          | (rename_i hcom; rw [hcom]; exact hstart (by decide))
  | EOD_IDLE =>
      simp only
      split_ifs
      · exact hfail _ (by decide)
      · exact hstart (by decide)
      · split
        all_goals first
          | exact hdispose (by decide)
          | (rename_i hcom; rw [hcom]; exact hstart (by decide))
  | EOM_IDLE =>
      simp only
      split_ifs
      · exact hfail _ (by decide)
      · split
        all_goals first
          | exact hdispose (by decide)
          | (rename_i hcom; rw [hcom]; exact hstart (by decide))
  | EOF_IDLE =>
      simp only
      split_ifs
      · refine good_setHead hq (b := bp.setResid bp.bcount) rfl (fun _ _ => ?_) (by decide)
        exact BitVec.le_refl _
      · split
        all_goals first
          | exact hdispose (by decide)
          | (rename_i hcom; rw [hcom]; exact hstart (by decide))
  | DOOM_IDLE =>
      simp only
      split_ifs
      · exact hfail _ (by decide)
      · split
        all_goals first
          | exact hfail _ (by decide)
          | (rename_i hcom; rw [hcom]; exact hstart (by decide))

/-! ### Runs -/

/-- `machine` returns, within three rounds for each request and two more. -/
theorem rounds_return {n : ℕ} (h : t.weight < n) :
    ∃ t', rounds n t = some t' ∧ t'.dp.opened = t.dp.opened ∧ (t.Loop → t'.Returned) := by
  induction n generalizing t with
  | zero => exact absurd h (Nat.not_lt_zero _)
  | succ n ih =>
      have hgood := turn_good t
      unfold rounds
      cases hturn : t.turn with
      | inl t' =>
          rw [hturn] at hgood
          obtain ⟨hw, ho, hl⟩ := hgood
          obtain ⟨t'', ht'', ho', hr⟩ := ih (t := t') (by omega)
          exact ⟨t'', ht'', ho'.trans ho, fun hloop => hr (hl hloop)⟩
      | inr t' =>
          rw [hturn] at hgood
          exact ⟨t', rfl, hgood⟩

theorem Loop.machine (h : t.Loop) : t.machine.Returned := by
  obtain ⟨t', ht', -, hr⟩ := rounds_return (t := t) (Nat.lt_succ_self _)
  unfold Tape.machine
  rw [ht']
  exact hr h

theorem machine_opened (t : Tape) : t.machine.dp.opened = t.dp.opened := by
  obtain ⟨t', ht', ho, -⟩ := rounds_return (t := t) (Nat.lt_succ_self _)
  unfold Tape.machine
  rw [ht']
  exact ho

theorem queue_of_nil {bp : Buf} (h : t.dp.queue = []) :
    t.queue bp = (t.setDp ((t.dp.ask bp).setQueue [bp])).machine := if_neg (not_not.mpr h)

theorem queue_of_ne_nil {bp : Buf} (h : t.dp.queue ≠ []) :
    t.queue bp = t.setDp ((t.dp.ask bp).setQueue (t.dp.queue ++ [bp])) := if_pos h

/-- A request joins the queue. -/
theorem Returned.queue (h : t.Returned) {bp : Buf} (hf : Fair bp) : (t.queue bp).Returned := by
  have horder : (t.dp.asked ++ [bp]).map Buf.core =
      (t.dp.done ++ (t.dp.queue ++ [bp])).map Buf.core := by
    simp only [List.map_append, h.order, List.append_assoc]
  have hfair : ∀ b ∈ t.dp.done ++ (t.dp.queue ++ [bp]), Fair b := by
    intro b hb
    rw [← List.append_assoc, List.mem_append, List.mem_singleton] at hb
    rcases hb with hb | rfl
    · exact h.fair b hb
    · exact hf
  by_cases hq : t.dp.queue = []
  · rw [queue_of_nil hq]
    obtain ⟨-, hout⟩ | ⟨b, rest, c, hb, -⟩ := h.waits
    · rw [hq] at horder hfair
      exact Loop.machine ⟨horder, hfair, h.stored, h.special, hout⟩
    · exact absurd (hq.symm.trans hb) nofun
  · rw [queue_of_ne_nil hq]
    refine ⟨horder, hfair, h.stored, h.special, ?_⟩
    obtain ⟨hnil, -⟩ | ⟨b, rest, c, hb, hout, hid, hio⟩ := h.waits
    · exact absurd hnil hq
    · refine .inr ⟨b, rest ++ [bp], c, ?_, hout, hid, hio⟩
      change t.dp.queue ++ [bp] = _
      rw [hb]
      rfl

/-- The step. -/
theorem Returned.step (h : t.Returned) (e : Event) : (t.step e).Returned := by
  cases e with
  | strategy id read addr bcount =>
      refine h.queue fun _ => ?_
      exact BitVec.le_def.mpr (Nat.zero_le _)
  | ask com id =>
      unfold Tape.step
      simp only
      split_ifs
      · exact h
      · have hset : ∀ sp : Special, sp.buf.resid ≤ sp.buf.bcount → (t.setSpecial sp).Returned :=
          fun sp hs => ⟨h.order, h.fair, h.stored, hs, h.waits⟩
        unfold Tape.ask
        simp only
        refine Returned.queue (hset _ ?_) fun _ => ?_
        · exact h.special
        · exact h.special
  | interrupt okay status sense =>
      unfold Tape.step
      simp only
      split_ifs with hout
      · exact h
      · obtain ⟨-, hnil⟩ | ⟨bp, rest, c, hq, hc, -⟩ := h.waits
        · exact absurd hnil hout
        · refine Loop.machine ⟨h.order, h.fair, h.stored, h.special, ?_⟩
          change t.dp.out.tail = []
          rw [hc]
          rfl

/-- What holds of a drive whenever `machine` has returned. -/
structure Sound (t : Tape) : Prop where
  /-- One command is out, for the first request, or there is none. -/
  waits : t.Waits
  /-- The requests were disposed of in order, each once. -/
  order : t.dp.asked.map Buf.core = (t.dp.done ++ t.dp.queue).map Buf.core
  resid : ∀ bp ∈ t.dp.done, Whole bp → bp.resid ≤ bp.bcount
  stored : ∀ e ∈ t.dp.stored, Whole e.1 → e.2 ≤ e.1.bcount.toNat

/-- A drive in any state and without requests. -/
structure Empty (t : Tape) : Prop where
  queue : t.dp.queue = []
  out : t.dp.out = []
  asked : t.dp.asked = []
  done : t.dp.done = []
  stored : t.dp.stored = []
  special : t.special.buf.resid ≤ t.special.buf.bcount

end Tape

end HydraAmix.Cartridge
