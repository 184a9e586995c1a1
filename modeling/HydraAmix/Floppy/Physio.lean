import HydraAmix.Library.Schedule
import HydraAmix.Floppy.Strategy
import HydraAmix.Floppy.Device

/-!
# Raw transfers through the one buffer of `fdphysio`

All processes in `fdphysio` share one static buffer and one static `buf`, taken
by setting `B_BUSY`. A step of a process is what it does up to the next point at
which it may lose the processor: a sleep, or anywhere inside `uiomove`, which
moves one byte a step and may fault at each. The strategy routine is outside:
it completes at some later time, having read the block that the `buf` names
into the buffer or written the buffer to it, perhaps with an error.

A process remembers what it asked for when it took the buffer, and what the
strategy routine delivered for it; these two records are not data of the
driver, they say what the transfers are compared with.
-/
namespace HydraAmix.Floppy
open Schedule

/-- A block in memory, byte by byte. -/
abbrev Block := ℕ → BitVec 8

/-- `uio` and the user's memory from its base address on. -/
structure Uio where
  offset : ℕ
  resid : ℕ
  base : ℕ
  user : ℕ → BitVec 8

/-- The block a process asks for, and where its user's copy of it is. -/
structure Asked where
  edev : ℕ
  blkno : ℕ
  read : Bool
  base : ℕ

/-- Where a process stands in `fdphysio`. -/
inductive Physio where
  | out
  | test
  | asleep
  | fill (i : ℕ)
  | strat
  | iowait
  | release (error : Bool)
  | drain (i : ℕ)

structure Process where
  pc : Physio
  dev : ℕ
  read : Bool
  uio : Uio
  asked : Asked
  delivered : Block

/-- The static `buf` and buffer, and the call of the strategy routine that is
under way. -/
structure Raw where
  buffer : Block
  busy : Bool
  wanted : Bool
  done : Bool
  error : Bool
  read : Bool
  edev : ℕ
  blkno : ℕ
  io : Option ProcId
  proc : ProcId → Process

inductive RawEvent where
  | fdphysio (p : ProcId) (dev : ℕ) (read : Bool) (uio : Uio)
  | run (p : ProcId) (fault : Bool)
  | iodone (data : Block) (error : Bool)

namespace Uio

/-- One byte moved by `uiomove`. -/
def move (u : Uio) : Uio :=
  { u with offset := u.offset + 1, resid := u.resid - 1, base := u.base + 1 }

end Uio

/-- The process has set `B_BUSY` and not yet cleared it. -/
def Physio.Owns : Physio → Prop
  | .fill _ | .strat | .iowait | .release _ => True
  | _ => False

/-- A writer's block is in the buffer. -/
def Process.Supplied (c : Process) (buffer : Block) : Prop :=
  c.asked.read = false → ∀ j < BPSEC, buffer j = c.uio.user (c.asked.base + j)

/-- The bytes of the block moved while the process has the buffer: those of a
writer. -/
def Process.moved (c : Process) : ℕ := if c.asked.read then 0 else BPSEC

/-- From byte `i` on the buffer holds what was delivered to a reader, and its
user's copy is to go on there. -/
def Process.Delivered (c : Process) (buffer : Block) (i : ℕ) : Prop :=
  c.asked.read = true → c.uio.base = c.asked.base + i ∧
    ∀ j, i ≤ j → j < BPSEC → buffer j = c.delivered j

namespace Raw

def setProc (s : Raw) (p : ProcId) (c : Process) : Raw :=
  { s with proc := Function.update s.proc p c }

/-- `wakeup((caddr_t)&buf)` -/
def wakeup (s : Raw) : Raw :=
  { s with proc := fun p => match (s.proc p).pc with
      | .asleep => { s.proc p with pc := .test }
      | _ => s.proc p }

/-- The process takes the free buffer for its next block. -/
def take (s : Raw) (p : ProcId) : Raw :=
  let c := s.proc p
  { s with
    busy := true, wanted := false, done := false, error := false
    read := c.read
    edev := c.dev
    blkno := c.uio.offset / BPSEC }.setProc p
      { c with
        pc := if c.read then .strat else .fill 0
        asked := ⟨c.dev, c.uio.offset / BPSEC, c.read, c.uio.base⟩ }

/-- The process goes on; a fault counts only inside `uiomove`. -/
def run (s : Raw) (p : ProcId) (fault : Bool) : Raw :=
  let c := s.proc p
  match c.pc with
  | .out => s
  | .asleep => s
  | .test =>
      if c.uio.resid = 0 then s.setProc p { c with pc := .out }
      else if s.busy then { s with wanted := true }.setProc p { c with pc := .asleep }
      else s.take p
  | .fill i =>
      if i = BPSEC then s.setProc p { c with pc := .strat }
      else if fault then s.setProc p { c with pc := .release true }
      else { s with buffer := Function.update s.buffer i (c.uio.user c.uio.base) }.setProc p
        { c with pc := .fill (i + 1), uio := c.uio.move }
  | .strat => { s with io := some p }.setProc p { c with pc := .iowait }
  | .iowait => if s.done then s.setProc p { c with pc := .release s.error } else s
  | .release error =>
      let s := if s.wanted then s.wakeup else s
      { s with busy := false, wanted := false }.setProc p
        { c with pc := if error then .out else if c.read then .drain 0 else .test }
  | .drain i =>
      if i = BPSEC then s.setProc p { c with pc := .test }
      else if fault then s.setProc p { c with pc := .out }
      else s.setProc p { c with
        pc := .drain (i + 1)
        uio := { c.uio.move with user := Function.update c.uio.user c.uio.base (s.buffer i) } }

/-- The strategy routine is done with the `buf` it was given. -/
def iodone (s : Raw) (data : Block) (error : Bool) : Raw :=
  match s.io with
  | none => s
  | some p =>
      let buffer := if s.read then data else s.buffer
      let s := { s with buffer := buffer, done := true, error := error, io := none }
      (s.setProc p { s.proc p with delivered := buffer }).wakeup

def step (s : Raw) : RawEvent → Raw
  | .fdphysio p dev read uio =>
      match (s.proc p).pc with
      | .out =>
          if uio.resid % BPSEC ≠ 0 then s
          else s.setProc p { s.proc p with pc := .test, dev := dev, read := read, uio := uio }
      | _ => s
  | .run p fault => s.run p fault
  | .iodone data error => s.iodone data error

/-- Nobody is in `fdphysio`; everything else may hold anything. -/
structure Idle (s : Raw) : Prop where
  io : s.io = none
  out : ∀ p, (s.proc p).pc = .out

/-- The process still has bytes to copy to its user. -/
def Drains (s : Raw) (p : ProcId) : Prop := ∃ i, (s.proc p).pc = .drain i ∧ i ≠ BPSEC

/-- The bytes a process copies to its user are those the strategy routine
delivered for it, each in its place; and the strategy routine has been given
the block the process asks for, with the data of its user if it is to be
written. -/
def Genuine (s : Raw) : RawEvent → Prop
  | .run p fault => ∀ i, (s.proc p).pc = .drain i → i ≠ BPSEC → fault = false →
      s.buffer i = (s.proc p).delivered i ∧ (s.proc p).uio.base = (s.proc p).asked.base + i
  | .iodone _ _ => ∀ p, s.io = some p →
      s.edev = (s.proc p).asked.edev ∧ s.blkno = (s.proc p).asked.blkno ∧
      s.read = (s.proc p).asked.read ∧
      (s.read = false → ∀ j < BPSEC, s.buffer j = (s.proc p).uio.user ((s.proc p).asked.base + j))
  | .fdphysio _ _ _ _ => True

/-- The step writes to the buffer only if nobody is copying out of it. -/
def SparesCopies (s : Raw) : RawEvent → Prop
  | .run p fault => ∀ i, (s.proc p).pc = .fill i → i ≠ BPSEC → fault = false → ∀ q, ¬ s.Drains q
  | .iodone _ _ => s.io ≠ none → s.read = true → ∀ q, ¬ s.Drains q
  | .fdphysio _ _ _ _ => True

/-- What holds of a process, by where it stands. -/
def Sound (s : Raw) (c : Process) : Prop :=
  match c.pc with
  | .fill i => s.done = false ∧ c.asked.read = false ∧ i ≤ BPSEC ∧ c.uio.base = c.asked.base + i ∧
      ∀ j < i, s.buffer j = c.uio.user (c.asked.base + j)
  | .strat => s.done = false ∧ c.uio.base = c.asked.base + c.moved ∧ c.Supplied s.buffer
  | .iowait => c.uio.base = c.asked.base + c.moved ∧ (s.done = false → c.Supplied s.buffer) ∧
      (s.done = true → c.Delivered s.buffer 0)
  | .release error => error = false → c.Delivered s.buffer 0
  | .drain i => i ≤ BPSEC ∧ c.asked.read = true ∧ c.Delivered s.buffer i
  | _ => True

/-- The invariant: one process at most has the buffer, `B_BUSY` is set and the
`buf` names its block as long as it has, and each process is where its facts
say. -/
structure Inv (s : Raw) : Prop where
  one : ∀ p q, (s.proc p).pc.Owns → (s.proc q).pc.Owns → p = q
  owned : ∀ p, (s.proc p).pc.Owns → s.busy = true ∧ s.edev = (s.proc p).asked.edev ∧
    s.blkno = (s.proc p).asked.blkno ∧ s.read = (s.proc p).asked.read ∧
    (s.proc p).read = (s.proc p).asked.read
  io : ∀ p, s.io = some p → (s.proc p).pc = .iowait ∧ s.done = false
  sound : ∀ p, s.Sound (s.proc p)

section
variable {s : Raw} {p q : ProcId} {c : Process}

@[simp] theorem setProc_self (s : Raw) (p : ProcId) (c : Process) : (s.setProc p c).proc p = c :=
  Function.update_self ..

theorem setProc_of_ne (s : Raw) (h : q ≠ p) (c : Process) : (s.setProc p c).proc q = s.proc q :=
  Function.update_of_ne h ..

theorem Idle.inv (h : s.Idle) : s.Inv where
  one p q hp := by rw [h.out p] at hp; exact hp.elim
  owned p hp := by rw [h.out p] at hp; exact hp.elim
  io p hp := by rw [h.io] at hp; cases hp
  sound p := by rw [Sound, h.out p]; trivial

/-- A process that does not have the buffer moves to another place at which it
does not have it. -/
theorem Inv.setProc (h : s.Inv) (hp : ¬ (s.proc p).pc.Owns) (hc : ¬ c.pc.Owns)
    (hs : s.Sound c) : (s.setProc p c).Inv where
  one q r hq hr := by
    by_cases hqp : q = p
    · rw [hqp, setProc_self] at hq
      exact absurd hq hc
    · by_cases hrp : r = p
      · rw [hrp, setProc_self] at hr
        exact absurd hr hc
      · rw [setProc_of_ne _ hqp] at hq
        rw [setProc_of_ne _ hrp] at hr
        exact h.one q r hq hr
  owned q hq := by
    by_cases hqp : q = p
    · rw [hqp, setProc_self] at hq
      exact absurd hq hc
    · rw [setProc_of_ne _ hqp] at hq ⊢
      exact h.owned q hq
  io q hq := by
    have hne : q ≠ p := fun he => by
      have := (h.io q hq).1
      rw [he] at this
      rw [this] at hp
      exact hp trivial
    rw [setProc_of_ne _ hne]
    exact h.io q hq
  sound q := by
    by_cases hqp : q = p
    · rw [hqp, setProc_self]
      exact hs
    · rw [setProc_of_ne _ hqp]
      exact h.sound q

/-- A process that does not have the buffer keeps its facts as long as the
bytes it may still copy stay. -/
theorem Sound.other {t : Raw} (hs : s.Sound (s.proc q)) (hq : ¬ (s.proc q).pc.Owns)
    (hb : t.buffer = s.buffer ∨ ¬ s.Drains q) : t.Sound (s.proc q) := by
  unfold Sound at hs ⊢
  cases hpc : (s.proc q).pc with
  | out | test | asleep => trivial
  | fill | strat | iowait | release => exact absurd (by rw [hpc]; trivial) hq
  | drain i =>
      rw [hpc] at hs
      obtain ⟨hi, hr, hd⟩ := hs
      obtain ⟨hbase, hdata⟩ := hd hr
      refine ⟨hi, hr, fun _ => ⟨hbase, fun j hij hj => ?_⟩⟩
      rcases hb with hb | hb
      · rw [hb]
        exact hdata j hij hj
      · by_cases hlast : i = BPSEC
        · omega
        · exact absurd ⟨i, hpc, hlast⟩ hb

/-- The process that has the buffer, or takes it while nobody has it, goes on. -/
theorem Inv.owner (h : s.Inv) {t : Raw} (ht : t.proc = s.proc)
    (honly : ∀ q, q ≠ p → ¬ (s.proc q).pc.Owns)
    (hbuf : t.buffer = s.buffer ∨ ∀ q, ¬ s.Drains q)
    (howned : c.pc.Owns → t.busy = true ∧ t.edev = c.asked.edev ∧ t.blkno = c.asked.blkno ∧
      t.read = c.asked.read ∧ c.read = c.asked.read)
    (hio : ∀ q, t.io = some q → q = p ∧ c.pc = .iowait ∧ t.done = false)
    (hs : t.Sound c) : (t.setProc p c).Inv where
  one q r hq hr := by
    have hself : ∀ x, ((t.setProc p c).proc x).pc.Owns → x = p := fun x hx => by
      by_contra hxp
      rw [setProc_of_ne _ hxp, ht] at hx
      exact honly x hxp hx
    rw [hself q hq, hself r hr]
  owned q hq := by
    by_cases hqp : q = p
    · rw [hqp, setProc_self] at hq ⊢
      exact howned hq
    · rw [setProc_of_ne _ hqp, ht] at hq
      exact absurd hq (honly q hqp)
  io q hq := by
    obtain ⟨rfl, hc, hd⟩ := hio q hq
    rw [setProc_self]
    exact ⟨hc, hd⟩
  sound q := by
    by_cases hqp : q = p
    · rw [hqp, setProc_self]
      exact hs
    · rw [setProc_of_ne _ hqp, ht]
      exact (h.sound q).other (honly q hqp) (hbuf.imp_right fun hd => hd q)

/-- Whoever slept on the `buf` did not have it. -/
theorem Inv.wakeup (h : s.Inv) : s.wakeup.Inv := by
  have hproc : ∀ q, s.wakeup.proc q = s.proc q ∨
      (s.proc q).pc = .asleep ∧ s.wakeup.proc q = { s.proc q with pc := .test } := fun q => by
    simp only [Raw.wakeup]
    split
    · next ha => exact .inr ⟨ha, rfl⟩
    · exact .inl rfl
  have howns : ∀ q, (s.wakeup.proc q).pc.Owns → s.wakeup.proc q = s.proc q := fun q hq => by
    rcases hproc q with hw | ⟨-, hw⟩
    · exact hw
    · rw [hw] at hq
      exact hq.elim
  constructor
  · intro q r hq hr
    have hsq := howns q hq
    have hsr := howns r hr
    rw [hsq] at hq
    rw [hsr] at hr
    exact h.one q r hq hr
  · intro q hq
    have hsq := howns q hq
    rw [hsq] at hq ⊢
    exact h.owned q hq
  · intro q hq
    rcases hproc q with hw | ⟨ha, -⟩
    · rw [hw]
      exact h.io q hq
    · rw [(h.io q hq).1] at ha
      cases ha
  · intro q
    rcases hproc q with hw | ⟨-, hw⟩
    · rw [hw]
      exact h.sound q
    · rw [hw]
      trivial

theorem Inv.only (h : s.Inv) (hp : (s.proc p).pc.Owns) (q : ProcId) (hq : q ≠ p) :
    ¬ (s.proc q).pc.Owns := fun ho => hq (h.one q p ho hp)

/-- While a process has the buffer, only its own call can be under way. -/
theorem Inv.io_self (h : s.Inv) (hp : (s.proc p).pc.Owns) (hq : s.io = some q) : q = p := by
  refine h.one q p ?_ hp
  rw [(h.io q hq).1]
  trivial

theorem Inv.take (h : s.Inv) (hb : s.busy = false) :
    (s.take p).Inv := by
  have hnone : ∀ q, ¬ (s.proc q).pc.Owns := fun q hq => by
    rw [(h.owned q hq).1] at hb
    cases hb
  refine h.owner rfl (fun q _ => hnone q) (.inl rfl) (fun _ => ⟨rfl, rfl, rfl, rfl, rfl⟩) ?_ ?_
  · intro q hq
    refine absurd ?_ (hnone q)
    rw [(h.io q hq).1]
    trivial
  · unfold Sound
    cases hr : (s.proc p).read with
    | true => exact ⟨rfl, by simp [Process.moved], nofun⟩
    | false => exact ⟨rfl, rfl, Nat.zero_le _, rfl, fun j hj => absurd hj (Nat.not_lt_zero j)⟩

/-- The process clears `B_BUSY` and leaves, goes on with its next block, or
starts to copy this one to its user. -/
theorem Inv.release (h : s.Inv) {error : Bool} (hpc : (s.proc p).pc = .release error) :
    ({ s with busy := false, wanted := false }.setProc p { s.proc p with
      pc := if error then .out else if (s.proc p).read then .drain 0 else .test }).Inv := by
  have hown : (s.proc p).pc.Owns := by rw [hpc]; trivial
  have hs := h.sound p
  rw [Sound, hpc] at hs
  have hio : ∀ q, s.io ≠ some q := fun q hq => by
    obtain rfl := h.io_self hown hq
    rw [(h.io q hq).1] at hpc
    cases hpc
  refine h.owner rfl (h.only hown) (.inl rfl) (fun hc => ?_) (fun q hq => absurd hq (hio q)) ?_
  · split_ifs at hc <;> exact False.elim hc
  · cases error with
    | true => trivial
    | false =>
        have hr := (h.owned p hown).2.2.2.2
        cases hread : (s.proc p).read with
        | true => exact ⟨Nat.zero_le _, hr.symm.trans hread, hs rfl⟩
        | false => trivial

/-- What a process that goes on relies on. -/
theorem Inv.run (h : s.Inv) {fault : Bool} (hg : s.SparesCopies (.run p fault)) :
    (s.run p fault).Inv := by
  have hs := h.sound p
  rw [Sound] at hs
  cases hpc : (s.proc p).pc with
  | out =>
      simp only [Raw.run, hpc]
      exact h
  | asleep =>
      simp only [Raw.run, hpc]
      exact h
  | test =>
      have hno : ¬ (s.proc p).pc.Owns := by rw [hpc]; exact id
      simp only [Raw.run, hpc]
      split_ifs with hr hb
      · exact h.setProc hno id trivial
      · have hw : Inv { s with wanted := true } :=
          ⟨h.one, fun q hq => h.owned q hq, h.io, h.sound⟩
        exact hw.setProc hno id trivial
      · exact h.take (by simpa using hb)
  | fill i =>
      have hown : (s.proc p).pc.Owns := by rw [hpc]; trivial
      have ho := h.owned p hown
      have hio : ∀ q, s.io ≠ some q := fun q hq => by
        obtain rfl := h.io_self hown hq
        rw [(h.io q hq).1] at hpc
        cases hpc
      rw [hpc] at hs
      obtain ⟨hd, hw, hi, hbase, hfill⟩ := hs
      simp only [Raw.run, hpc]
      split_ifs with hlast hf
      · refine h.owner rfl (h.only hown) (.inl rfl) (fun _ => ho) (fun q hq => absurd hq (hio q)) ?_
        subst hlast
        exact ⟨hd, by simp [Process.moved, hw, hbase], fun _ => hfill⟩
      · refine h.owner rfl (h.only hown) (.inl rfl) (fun _ => ho) (fun q hq => absurd hq (hio q))
          nofun
      · refine h.owner rfl (h.only hown) (.inr (hg i hpc hlast (by simpa using hf)))
          (fun _ => ho) (fun q hq => absurd hq (hio q)) ⟨hd, hw, by omega, ?_, fun j hj => ?_⟩
        · simp only [Uio.move]
          omega
        · by_cases hji : j = i
          · simp [hji, Uio.move, hbase]
          · simpa [hji, Uio.move] using hfill j (by omega)
  | strat =>
      have hown : (s.proc p).pc.Owns := by rw [hpc]; trivial
      rw [hpc] at hs
      obtain ⟨hd, hbase, hsup⟩ := hs
      simp only [Raw.run, hpc]
      refine h.owner rfl (h.only hown) (.inl rfl) (fun _ => h.owned p hown) (fun q hq => ?_)
        ⟨hbase, fun _ => hsup, fun ht => ?_⟩
      · exact ⟨(Option.some.inj hq).symm, rfl, hd⟩
      · exact absurd (hd.symm.trans ht) Bool.false_ne_true
  | iowait =>
      have hown : (s.proc p).pc.Owns := by rw [hpc]; trivial
      rw [hpc] at hs
      simp only [Raw.run, hpc]
      split_ifs with hd
      · refine h.owner rfl (h.only hown) (.inl rfl) (fun _ => h.owned p hown) (fun q hq => ?_)
          fun _ => hs.2.2 hd
        exact absurd ((h.io q hq).2.symm.trans hd) Bool.false_ne_true
      · exact h
  | release error =>
      simp only [Raw.run, hpc]
      generalize ht : (if s.wanted = true then s.wakeup else s) = t
      obtain ⟨hinv, hself⟩ : t.Inv ∧ t.proc p = s.proc p := by
        rw [← ht]
        by_cases hw : s.wanted = true
        · rw [if_pos hw]
          exact ⟨h.wakeup, by simp only [Raw.wakeup, hpc]⟩
        · rw [if_neg hw]
          exact ⟨h, rfl⟩
      have hrel := hinv.release (by rw [hself, hpc])
      rwa [hself] at hrel
  | drain i =>
      have hno : ¬ (s.proc p).pc.Owns := by rw [hpc]; exact id
      rw [hpc] at hs
      simp only [Raw.run, hpc]
      split_ifs with hlast hf
      · exact h.setProc hno id trivial
      · exact h.setProc hno id trivial
      · obtain ⟨hi, hr, hd⟩ := hs
        obtain ⟨hbase, hdata⟩ := hd hr
        refine h.setProc hno id ⟨by omega, hr, fun _ => ⟨?_, fun j hij hj => hdata j (by omega) hj⟩⟩
        simp only [Uio.move, hbase]
        omega

theorem Inv.iodone (h : s.Inv) {data : Block} {error : Bool}
    (hg : s.SparesCopies (.iodone data error)) : (s.iodone data error).Inv := by
  rw [Raw.iodone]
  cases hp : s.io with
  | none => exact h
  | some p =>
      obtain ⟨hpc, hd⟩ := h.io p hp
      have hown : (s.proc p).pc.Owns := by rw [hpc]; trivial
      have ho := h.owned p hown
      have hs := h.sound p
      rw [Sound, hpc] at hs
      refine Inv.wakeup (h.owner rfl (h.only hown) ?_ (fun _ => ho) nofun ?_)
      · cases hr : s.read with
        | true => exact .inr (hg (by rw [hp]; exact nofun) hr)
        | false => exact .inl rfl
      · rw [Sound, hpc]
        refine ⟨hs.1, nofun, fun _ hr => ⟨?_, fun j _ _ => rfl⟩⟩
        have hr' : (s.proc p).asked.read = true := hr
        simpa [Process.moved, hr'] using hs.1

theorem Inv.step (h : s.Inv) {e : RawEvent} (hg : s.SparesCopies e) : (s.step e).Inv := by
  cases e with
  | fdphysio p dev read uio =>
      rw [Raw.step]
      split
      · next hpc =>
          have hno : ¬ (s.proc p).pc.Owns := by rw [hpc]; exact id
          split_ifs
          · exact h
          · exact h.setProc hno id trivial
      · exact h
  | run p fault => exact h.run hg
  | iodone data error => exact h.iodone hg

/-- Under the invariant what is copied and what is written is genuine. -/
theorem Inv.genuine (h : s.Inv) (e : RawEvent) : s.Genuine e := by
  cases e with
  | fdphysio => trivial
  | run p fault =>
      intro i hpc hi _
      have hs := h.sound p
      rw [Sound, hpc] at hs
      obtain ⟨hle, hr, hd⟩ := hs
      obtain ⟨hbase, hdata⟩ := hd hr
      exact ⟨hdata i (Nat.le_refl i) (by omega), hbase⟩
  | iodone data error =>
      intro p hp
      obtain ⟨hpc, hd⟩ := h.io p hp
      have hown : (s.proc p).pc.Owns := by rw [hpc]; trivial
      have ho := h.owned p hown
      have hs := h.sound p
      rw [Sound, hpc] at hs
      exact ⟨ho.2.1, ho.2.2.1, ho.2.2.2.1, fun hr => hs.2.1 hd (ho.2.2.2.1.symm.trans hr)⟩

end

/-- On every run in which nobody writes to the buffer while another process is
still copying out of it, every block copied to a user is the one the process
asked for as it was delivered, and every block written is what the writer
supplied for it. -/
theorem physio_genuine (s : Raw) (hs : s.Idle) (es : List RawEvent)
    (hg : Every step SparesCopies s es) : Every step Genuine s es :=
  every_of_invariant Inv (fun _ _ h hg => h.step hg) (fun _ e h _ => h.genuine e) hs.inv hg

/-- Nothing has happened yet. -/
def quiet : Raw :=
  ⟨fun _ => 0, false, false, false, false, false, 0, 0, none, fun _ =>
    ⟨.out, 0, false, ⟨0, 0, 0, fun _ => 0⟩, ⟨0, 0, false, 0⟩, fun _ => 0⟩⟩

theorem quiet_idle : quiet.Idle := ⟨rfl, fun _ => rfl⟩

/-- A process reads a block at the given offset, up to the start of its copy. -/
def reads (p : ProcId) (offset : ℕ) (data : Block) : List RawEvent :=
  [.fdphysio p 0 true ⟨offset, BPSEC, 0, fun _ => 0⟩, .run p false, .run p false,
    .iodone data false, .run p false, .run p false]

/-- One reader alone. -/
theorem physio_genuine_one :
    Every step Genuine quiet (reads 0 0 (fun _ => 1) ++ [.run 0 false]) := by
  refine physio_genuine quiet quiet_idle _
    ⟨trivial, ?_, ?_, ?_, ?_, ?_, ?_, trivial⟩
  · nofun
  · nofun
  · rintro - - (_ | q) ⟨i, hi, -⟩
    all_goals cases hi
  · nofun
  · nofun
  · nofun

/-- A second reader fills the buffer before the first has copied its block. -/
theorem physio_genuine_fails : ¬ ∀ (s : Raw) (es : List RawEvent), s.Idle →
    Every step Genuine s es := by
  intro h
  have hrun := h quiet
    (reads 0 0 (fun _ => 1) ++ (reads 1 BPSEC fun _ => 2).take 4 ++ [.run 0 false])
    quiet_idle
  have hlast := hrun.2.2.2.2.2.2.2.2.2.2.1 0 rfl (by decide) rfl
  exact absurd hlast.1 (by decide)

end Raw
end HydraAmix.Floppy
