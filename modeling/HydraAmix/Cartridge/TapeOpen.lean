import HydraAmix.Cartridge.TapeRequests
import Mathlib.Logic.Function.Basic

/-!
# Tape opens and closes

`ctopen` looks at the flag of the drive, sleeps in up to three commands, and sets
the flag; `ctclose` sleeps in up to three commands and clears it. All commands of
all drives wait for one lock. Two opens that both look before one of them has set
the flag both succeed; if an open only starts when no other is under way, at most
one is not yet closed.

A step of a process goes from where it wakes up to where it sleeps next; a command
that ended at once is treated as if its process had slept.
-/
namespace HydraAmix.Cartridge
open Schedule

def EBUSY : ℕ := 16
def EINVAL : ℕ := 22
def ENXIO : ℕ := 6
def EROFS : ℕ := 30
def EIO : ℕ := 5

/-- What `ctopen` is called with: the drive, the options of the device, and the flags. -/
structure Opening (D : Type) where
  drive : D
  append : Bool
  den150 : Bool
  fread : Bool
  fwrite : Bool
  fappend : Bool

/-- The command that a process is in, and what it goes on with. -/
inductive Job (D : Type)
  | sense (o : Opening D)
  | init (o : Opening D) (sense8 sense9 : BitVec 8)
  | append (o : Opening D) (sense9 : BitVec 8)
  | close (d : D) (com : Com) (rest : List Com)

/-- The last call of a process. `found` is whether the drive was open when it began. -/
inductive Ret (D : Type)
  | failed (d : D) (found : Bool) (error : ℕ)
  | opened (d : D)
  | closed (d : D)

/-- Where a process is: outside, asleep for the lock, or asleep for its command. -/
inductive Pc (D : Type)
  | out (last : Option (Ret D))
  | lockWait (j : Job D)
  | active (j : Job D)

variable {D ι : Type}

namespace Job

def drive : Job D → D
  | .sense o | .init o _ _ | .append o _ => o.drive
  | .close d _ _ => d

def opens : Job D → Bool
  | .close _ _ _ => false
  | _ => true

def com : Job D → Com
  | .sense _ => .GETSENSE
  | .init o _ _ => if o.den150 then .INIT150 else .INIT120
  | .append _ _ => .APPEND
  | .close _ c _ => c

end Job

/-- The drive that a process is opening (true) or closing. -/
def Pc.kind : Pc D → Option (Bool × D)
  | .out _ => none
  | .lockWait j | .active j => some (j.opens, j.drive)

/-- The drives and the processes; `held` counts the successful opens that were not yet
matched by a close. -/
structure Tapes (D ι : Type) where
  cttab : D → Ct
  special : Special
  locked : Bool
  next : ℕ
  senseAddr : D → ℕ
  init120 : ℕ
  init150 : ℕ
  pc : ι → Pc D
  held : D → ℕ

namespace Tapes

variable [DecidableEq D] [DecidableEq ι]

def tape (s : Tapes D ι) (d : D) : Tape :=
  ⟨s.cttab d, s.special, s.senseAddr d, s.init120, s.init150⟩

def setTape (s : Tapes D ι) (d : D) (t : Tape) : Tapes D ι :=
  { s with cttab := Function.update s.cttab d t.dp, special := t.special }

def setPc (s : Tapes D ι) (p : ι) (pc : Pc D) : Tapes D ι :=
  { s with pc := Function.update s.pc p pc }

def setLocked (s : Tapes D ι) (b : Bool) : Tapes D ι := { s with locked := b }

def count (s : Tapes D ι) : Tapes D ι := { s with next := s.next + 1 }

def setHeld (s : Tapes D ι) (d : D) (n : ℕ) : Tapes D ι :=
  { s with held := Function.update s.held d n }

/-- `dp->open`. -/
def opened (s : Tapes D ι) (d : D) : Bool := (s.cttab d).opened

def setOpened (s : Tapes D ι) (d : D) (b : Bool) : Tapes D ι :=
  s.setTape d ((s.tape d).setDp ((s.cttab d).setOpened b))

/-- `command`, with the lock, up to the sleep for its end. -/
def issue (s : Tapes D ι) (p : ι) (j : Job D) : Tapes D ι :=
  let s := s.setTape j.drive ((s.tape j.drive).ask j.com s.next)
  ((s.setLocked true).count).setPc p (.active j)

/-- `command`, up to its first sleep. -/
def command (s : Tapes D ι) (p : ι) (j : Job D) : Tapes D ι :=
  if s.locked then s.setPc p (.lockWait j) else s.issue p j

/-- What `command` returns. -/
def code (s : Tapes D ι) : ℕ :=
  if s.special.buf.error then (if s.special.buf.errno ≠ 0 then s.special.buf.errno else EIO) else 0

def fail (s : Tapes D ι) (p : ι) (d : D) (error : ℕ) : Tapes D ι :=
  s.setPc p (.out (some (.failed d false error)))

/-- `dp->open = TRUE`. -/
def succeed (s : Tapes D ι) (p : ι) (d : D) : Tapes D ι :=
  ((s.setOpened d true).setHeld d (s.held d + 1)).setPc p (.out (some (.opened d)))

/-- The last test for a write. -/
def check (s : Tapes D ι) (p : ι) (o : Opening D) (sense9 : BitVec 8) : Tapes D ι :=
  if sense9 &&& 0x08#8 ≠ 0 ∨ (s.cttab o.drive).state = .EOD_IDLE then s.succeed p o.drive
  else s.fail p o.drive ENXIO

/-- The `switch` of `ctopen`. -/
def modes (s : Tapes D ι) (p : ι) (o : Opening D) (sense8 sense9 : BitVec 8) : Tapes D ι :=
  match o.fread, o.fwrite with
  | true, false => if o.append then s.fail p o.drive EINVAL else s.succeed p o.drive
  | false, true =>
    if sense8 &&& 0x10#8 ≠ 0 then s.fail p o.drive EROFS
    else if o.fappend ∨ o.append then s.command p (.append o sense9)
    else s.check p o sense9
  | _, _ => s.fail p o.drive EINVAL

/-- From the end of a command to the next sleep. -/
def goOn (s : Tapes D ι) (p : ι) (j : Job D) (e : ℕ) : Tapes D ι :=
  match j with
  | .sense o =>
    let sense8 := (s.cttab o.drive).sense 8
    let sense9 := (s.cttab o.drive).sense 9
    if e ≠ 0 then s.fail p o.drive e
    else if sense8 &&& 0x40#8 ≠ 0 then s.fail p o.drive ENXIO
    else if sense9 &&& 0x08#8 ≠ 0 then
      (s.setTape o.drive ((s.tape o.drive).setState .NORMAL_IDLE)).command p (.init o sense8 sense9)
    else s.modes p o sense8 sense9
  | .init o sense8 sense9 =>
    if e ≠ 0 then s.fail p o.drive ENXIO else s.modes p o sense8 sense9
  | .append o sense9 => if e ≠ 0 then s.fail p o.drive e else s.check p o sense9
  | .close d _ (c :: rest) => s.command p (.close d c rest)
  | .close d _ [] =>
    ((s.setOpened d false).setHeld d (s.held d - 1)).setPc p (.out (some (.closed d)))

/-- A process goes on until it sleeps. -/
def run (s : Tapes D ι) (p : ι) : Tapes D ι :=
  match s.pc p with
  | .lockWait j => s.command p j
  | .active j => if s.special.active then s else (s.setLocked false).goOn p j s.code
  | .out _ => s

inductive Event (D ι : Type)
  /-- `present` is whether `sdopen` finds the card. -/
  | ctopen (p : ι) (o : Opening D) (present : Bool)
  | ctclose (p : ι) (d : D) (rewind fwrite : Bool)
  | run (p : ι)
  | strategy (d : D) (id : ℕ) (read : Bool) (addr : ℕ) (bcount : Long)
  | interrupt (d : D) (okay : Bool) (status : ℕ) (sense : ℕ → BitVec 8)

/-- The commands of `ctclose`. -/
def closing (d : D) (rewind fwrite : Bool) : Job D :=
  match rewind, fwrite with
  | true, true => .close d .WEOF [.REWIND, .CLOSE]
  | true, false => .close d .REWIND [.CLOSE]
  | false, true => .close d .WEOF [.CLOSE]
  | false, false => .close d .SEOF [.CLOSE]

def step (s : Tapes D ι) : Event D ι → Tapes D ι
  | .ctopen p o present =>
    match s.pc p with
    | .out _ =>
      if s.opened o.drive then s.setPc p (.out (some (.failed o.drive true EBUSY)))
      else if present = false then s.fail p o.drive ENXIO
      else s.command p (.sense o)
    | _ => s
  | .ctclose p d rewind fwrite =>
    match s.pc p with
    | .out _ => s.command p (closing d rewind fwrite)
    | _ => s
  | .run p => s.run p
  | .strategy d id read addr bcount =>
    s.setTape d ((s.tape d).step (.strategy id read addr bcount))
  | .interrupt d okay status sense =>
    s.setTape d ((s.tape d).step (.interrupt okay status sense))

/-- The process is opening, or closing, the drive. -/
def Doing (s : Tapes D ι) (p : ι) (opens : Bool) (d : D) : Prop := (s.pc p).kind = some (opens, d)

/-- An open of a drive that is not open begins only when no other one is under way; a
close is one of an open that was not closed, nor is being closed. -/
def Apart (s : Tapes D ι) : Event D ι → Prop
  | .ctopen _ o _ => s.opened o.drive = false → ∀ q, ¬ s.Doing q true o.drive
  | .ctclose _ d _ _ => 0 < s.held d ∧ ∀ q, ¬ s.Doing q false d
  | _ => True

/-- At most one open is not closed; a call that fails in this step leaves the drive as it
found it. -/
structure Exclusive (s t : Tapes D ι) : Prop where
  held : ∀ d, t.held d ≤ 1
  failed : ∀ p d found error, s.pc p ≠ t.pc p → t.pc p = .out (some (.failed d found error)) →
    t.opened d = found

variable {s t : Tapes D ι} {p : ι}

/-! ### What a step can do -/

/-- The drives are open, and held, as before. -/
structure Same (s t : Tapes D ι) : Prop where
  opened : ∀ d, t.opened d = s.opened d
  held : t.held = s.held

omit [DecidableEq D] [DecidableEq ι] in
theorem Same.refl (s : Tapes D ι) : Same s s := ⟨fun _ => rfl, rfl⟩

omit [DecidableEq D] [DecidableEq ι] in
theorem Same.trans {u : Tapes D ι} (h : Same s t) (h' : Same t u) : Same s u :=
  ⟨fun d => (h'.opened d).trans (h.opened d), h'.held.trans h.held⟩

omit [DecidableEq ι] in
theorem setTape_same (s : Tapes D ι) {d : D} {t : Tape} (h : t.dp.opened = s.opened d) :
    Same s (s.setTape d t) := by
  refine ⟨fun d' => ?_, rfl⟩
  change (Function.update s.cttab d t.dp d').opened = (s.cttab d').opened
  by_cases hd : d' = d
  · subst hd
    rw [Function.update_self]
    exact h
  · rw [Function.update_of_ne hd]

theorem queue_opened (t : Tape) (bp : Buf) : (t.queue bp).dp.opened = t.dp.opened := by
  by_cases h : t.dp.queue = []
  · rw [Tape.queue_of_nil h, Tape.machine_opened]
    rfl
  · rw [Tape.queue_of_ne_nil h]
    rfl

theorem step_opened (t : Tape) (e : Tape.Event) : (t.step e).dp.opened = t.dp.opened := by
  unfold Tape.step
  cases e with
  | strategy => exact queue_opened t _
  | ask com id =>
      simp only
      split_ifs
      · rfl
      · exact queue_opened (t.setSpecial _) _
  | interrupt =>
      simp only
      split_ifs
      · rfl
      · exact Tape.machine_opened _

/-- A process goes to sleep in a command. -/
theorem command_sleeps (s : Tapes D ι) (p : ι) (j : Job D) : Same s (s.command p j) ∧
    ∃ pc, pc.kind = some (j.opens, j.drive) ∧ (s.command p j).pc = Function.update s.pc p pc := by
  unfold command
  split_ifs
  · exact ⟨⟨fun _ => rfl, rfl⟩, .lockWait j, rfl, rfl⟩
  · unfold issue
    have hask : ((s.tape j.drive).ask j.com s.next).dp.opened = s.opened j.drive :=
      queue_opened ((s.tape j.drive).setSpecial _) _
    have hsame := setTape_same s hask
    exact ⟨⟨hsame.opened, hsame.held⟩, .active j, rfl, rfl⟩

/-- A process that opens `d` sleeps on, fails, or succeeds. -/
inductive Opens (s t : Tapes D ι) (p : ι) (d : D) : Prop
  | sleeps (pc : Pc D) (hk : pc.kind = some (true, d)) (hpc : t.pc = Function.update s.pc p pc)
      (h : Same s t)
  | fails (error : ℕ)
      (hpc : t.pc = Function.update s.pc p (.out (some (.failed d false error)))) (h : Same s t)
  | succeeds (hpc : t.pc = Function.update s.pc p (.out (some (.opened d))))
      (ho : ∀ d', t.opened d' = if d' = d then true else s.opened d')
      (hh : t.held = Function.update s.held d (s.held d + 1))

omit [DecidableEq ι] in
theorem setOpened_opened (s : Tapes D ι) (d d' : D) (b : Bool) :
    (s.setOpened d b).opened d' = if d' = d then b else s.opened d' := by
  change (Function.update s.cttab d ((s.cttab d).setOpened b) d').opened = _
  by_cases hd : d' = d
  · subst hd
    rw [Function.update_self, if_pos rfl]
    rfl
  · rw [Function.update_of_ne hd, if_neg hd]
    rfl

theorem succeed_opens (s : Tapes D ι) (p : ι) (d : D) : Opens s (s.succeed p d) p d :=
  .succeeds rfl (fun d' => setOpened_opened s d d' true) rfl

theorem fail_opens (s : Tapes D ι) (p : ι) (d : D) (error : ℕ) :
    Opens s (s.fail p d error) p d := .fails error rfl ⟨fun _ => rfl, rfl⟩

theorem command_opens (s : Tapes D ι) (p : ι) {j : Job D} (hj : j.opens = true) :
    Opens s (s.command p j) p j.drive := by
  obtain ⟨hsame, pc, hk, hpc⟩ := command_sleeps s p j
  exact .sleeps pc (hj ▸ hk) hpc hsame

theorem check_opens (s : Tapes D ι) (p : ι) (o : Opening D) (sense9 : BitVec 8) :
    Opens s (s.check p o sense9) p o.drive := by
  unfold check
  split_ifs
  · exact succeed_opens s p o.drive
  · exact fail_opens s p o.drive ENXIO

theorem modes_opens (s : Tapes D ι) (p : ι) (o : Opening D) (sense8 sense9 : BitVec 8) :
    Opens s (s.modes p o sense8 sense9) p o.drive := by
  unfold modes
  split
  · split_ifs
    · exact fail_opens s p o.drive EINVAL
    · exact succeed_opens s p o.drive
  · split_ifs
    · exact fail_opens s p o.drive EROFS
    · exact command_opens s p (j := .append o sense9) rfl
    · exact check_opens s p o sense9
  · exact fail_opens s p o.drive EINVAL

/-- The end of a command of `ctopen`. -/
theorem goOn_opens (s : Tapes D ι) (p : ι) {j : Job D} (hj : j.opens = true) (e : ℕ) :
    Opens s (s.goOn p j e) p j.drive := by
  cases j with
  | close d com rest => exact absurd hj nofun
  | sense o =>
      unfold goOn
      simp only
      split_ifs
      · exact fail_opens s p o.drive e
      · exact fail_opens s p o.drive ENXIO
      · have hsame : Same s (s.setTape o.drive ((s.tape o.drive).setState .NORMAL_IDLE)) :=
          setTape_same s rfl
        obtain ⟨hsame', pc, hk, hpc⟩ := command_sleeps
          (s.setTape o.drive ((s.tape o.drive).setState .NORMAL_IDLE)) p
          (.init o ((s.cttab o.drive).sense 8) ((s.cttab o.drive).sense 9))
        exact .sleeps pc hk hpc (hsame.trans hsame')
      · exact modes_opens s p o _ _
  | init o sense8 sense9 =>
      unfold goOn
      simp only
      split_ifs
      · exact fail_opens s p o.drive ENXIO
      · exact modes_opens s p o _ _
  | append o sense9 =>
      unfold goOn
      simp only
      split_ifs
      · exact fail_opens s p o.drive e
      · exact check_opens s p o sense9

/-- What a step does to the drives and to the process that it is about. -/
inductive Moves (s t : Tapes D ι) (p : ι) : Prop
  | sleeps (hk : (t.pc p).kind = (s.pc p).kind) (hn : ∀ r, t.pc p = .out r → s.pc p = .out r)
      (h : Same s t)
  | begins (b : Bool) (d : D) (hk : (s.pc p).kind = none) (hk' : (t.pc p).kind = some (b, d))
      (h : Same s t)
  | refused (d : D) (error : ℕ) (hk : (s.pc p).kind = none)
      (hpc : t.pc p = .out (some (.failed d (s.opened d) error))) (h : Same s t)
  | fails (d : D) (error : ℕ) (hk : (s.pc p).kind = some (true, d))
      (hpc : t.pc p = .out (some (.failed d false error))) (h : Same s t)
  | succeeds (d : D) (hk : (s.pc p).kind = some (true, d)) (hpc : t.pc p = .out (some (.opened d)))
      (ho : ∀ d', t.opened d' = if d' = d then true else s.opened d')
      (hh : t.held = Function.update s.held d (s.held d + 1))
  | closes (d : D) (hk : (s.pc p).kind = some (false, d)) (hpc : t.pc p = .out (some (.closed d)))
      (ho : ∀ d', t.opened d' = if d' = d then false else s.opened d')
      (hh : t.held = Function.update s.held d (s.held d - 1))

theorem run_moves (s : Tapes D ι) (p : ι) :
    (∀ q, q ≠ p → (s.run p).pc q = s.pc q) ∧ Moves s (s.run p) p := by
  have hother : ∀ {pc : Pc D} {f : ι → Pc D}, f = Function.update s.pc p pc →
      ∀ q, q ≠ p → f q = s.pc q := fun hf q hq => hf ▸ Function.update_of_ne hq _ _
  have hself : ∀ {pc : Pc D} {f : ι → Pc D}, f = Function.update s.pc p pc → f p = pc :=
    fun hf => hf ▸ Function.update_self p _ _
  cases hs : s.pc p with
  | out r =>
      have hrun : s.run p = s := by
        unfold run
        rw [hs]
      rw [hrun]
      exact ⟨fun _ _ => rfl, .sleeps rfl (fun _ h => h) (.refl s)⟩
  | lockWait j =>
      have hrun : s.run p = s.command p j := by
        unfold run
        rw [hs]
      obtain ⟨hsame, pc, hk, hpc⟩ := command_sleeps s p j
      rw [hrun]
      refine ⟨hother hpc, .sleeps ?_ (fun r hr => ?_) hsame⟩
      · rw [hself hpc, hk, hs]
        rfl
      · rw [hself hpc] at hr
        rw [hr] at hk
        exact absurd hk nofun
  | active j =>
      by_cases hact : s.special.active = true
      · have hrun : s.run p = s := by
          unfold run
          rw [hs]
          exact if_pos hact
        rw [hrun]
        exact ⟨fun _ _ => rfl, .sleeps rfl (fun _ h => h) (.refl s)⟩
      · have hrun : s.run p = (s.setLocked false).goOn p j s.code := by
          unfold run
          rw [hs]
          exact if_neg hact
        rw [hrun]
        have hkind : (s.pc p).kind = some (j.opens, j.drive) := by rw [hs]; rfl
        by_cases hj : j.opens = true
        · rw [hj] at hkind
          cases goOn_opens (s.setLocked false) p hj s.code with
          | sleeps pc hk hpc h =>
              refine ⟨hother hpc, .sleeps ?_ (fun r hr => ?_) ⟨h.opened, h.held⟩⟩
              · rw [hself hpc, hk, hkind]
              · rw [hself hpc] at hr
                rw [hr] at hk
                exact absurd hk nofun
          | fails error hpc h =>
              exact ⟨hother hpc, .fails _ error hkind (hself hpc) ⟨h.opened, h.held⟩⟩
          | succeeds hpc ho hh =>
              exact ⟨hother hpc, .succeeds _ hkind (hself hpc) ho hh⟩
        · cases j with
          | sense => exact absurd rfl hj
          | init => exact absurd rfl hj
          | append => exact absurd rfl hj
          | close d com rest =>
              cases rest with
              | nil =>
                  exact ⟨hother rfl, .closes d hkind (hself rfl)
                    (fun d' => setOpened_opened (s.setLocked false) d d' false) rfl⟩
              | cons c rest =>
                  obtain ⟨hsame, pc, hk, hpc⟩ :=
                    command_sleeps (s.setLocked false) p (.close d c rest)
                  refine ⟨hother hpc, .sleeps ?_ (fun r hr => ?_) ⟨hsame.opened, hsame.held⟩⟩
                  · change ((Tapes.command (s.setLocked false) p (.close d c rest)).pc p).kind = _
                    rw [hself hpc, hk, hkind]
                    rfl
                  · change (Tapes.command (s.setLocked false) p (.close d c rest)).pc p = _ at hr
                    rw [hself hpc] at hr
                    rw [hr] at hk
                    exact absurd hk nofun

theorem begin_moves {j : Job D} (hs : (s.pc p).kind = none) :
    (∀ q, q ≠ p → (s.command p j).pc q = s.pc q) ∧ Moves s (s.command p j) p := by
  obtain ⟨hsame, pc, hk, hpc⟩ := command_sleeps s p j
  refine ⟨fun q hq => ?_, .begins j.opens j.drive hs ?_ hsame⟩
  · rw [hpc, Function.update_of_ne hq]
  · rw [hpc, Function.update_self]
    exact hk

/-- The invariant of a run in which calls are kept apart: a drive that is open is held
once and nobody is opening it, and one that is not open is not held, and nobody is
closing it. -/
structure Inv (s : Tapes D ι) : Prop where
  held : ∀ d, s.held d = if s.opened d then 1 else 0
  opening : ∀ p q d, s.Doing p true d → s.Doing q true d → p = q
  shut : ∀ p d, s.Doing p true d → s.opened d = false
  closing : ∀ p q d, s.Doing p false d → s.Doing q false d → p = q
  still : ∀ p d, s.Doing p false d → s.opened d = true

omit [DecidableEq D] [DecidableEq ι] in
/-- A drive that is being opened is not open, and one that is being closed is open. -/
theorem Inv.found (h : s.Inv) {b : Bool} {d : D} (hp : s.Doing p b d) : s.opened d = !b := by
  cases b with
  | true => exact h.shut p d hp
  | false => exact h.still p d hp

omit [DecidableEq D] [DecidableEq ι] in
theorem Inv.alone (h : s.Inv) {q : ι} {b : Bool} {d : D} (hp : s.Doing p b d)
    (hq : s.Doing q b d) : p = q := by
  cases b with
  | true => exact h.opening p q d hp hq
  | false => exact h.closing p q d hp hq

omit [DecidableEq D] [DecidableEq ι] in
/-- The invariant, from what it says of opens and closes alike. -/
theorem Inv.of_alike (held : ∀ d, s.held d = if s.opened d then 1 else 0)
    (alone : ∀ p q b d, s.Doing p b d → s.Doing q b d → p = q)
    (found : ∀ p b d, s.Doing p b d → s.opened d = !b) : s.Inv where
  held := held
  opening p q d := alone p q true d
  shut p d := found p true d
  closing p q d := alone p q false d
  still p d := found p false d

omit [DecidableEq D] [DecidableEq ι] in
/-- Where the same processes do the same, and the drives are the same. -/
theorem Inv.of_doing (h : s.Inv) (hsame : Same s t)
    (hd : ∀ q b d, t.Doing q b d → s.Doing q b d) : t.Inv := by
  refine .of_alike (fun d => ?_) (fun q q' b d hq hq' => h.alone (hd _ _ _ hq) (hd _ _ _ hq'))
    fun q b d hq => ?_
  · rw [hsame.held, hsame.opened]
    exact h.held d
  · rw [hsame.opened]
    exact h.found (hd _ _ _ hq)

/-- What must hold for a process to begin with an open (true) or a close. -/
def MayBegin (s : Tapes D ι) (d : D) : Bool → Prop
  | true => s.opened d = false ∧ ∀ q, ¬ s.Doing q true d
  | false => s.opened d = true ∧ ∀ q, ¬ s.Doing q false d

omit [DecidableEq D] [DecidableEq ι] in
theorem MayBegin.found {d : D} {b : Bool} (h : s.MayBegin d b) : s.opened d = !b := by
  cases b with
  | true => exact h.1
  | false => exact h.1

omit [DecidableEq D] [DecidableEq ι] in
theorem MayBegin.nobody {d : D} {b : Bool} (h : s.MayBegin d b) (q : ι) : ¬ s.Doing q b d := by
  cases b with
  | true => exact h.2 q
  | false => exact h.2 q

omit [DecidableEq D] [DecidableEq ι] in
/-- Another process does what it did. -/
theorem doing_of_other (hother : ∀ q, q ≠ p → t.pc q = s.pc q) {q : ι} {b : Bool} {d : D}
    (hq : q ≠ p) (hd : t.Doing q b d) : s.Doing q b d := by
  unfold Doing at hd ⊢
  rw [← hother q hq]
  exact hd

omit [DecidableEq D] [DecidableEq ι] in
/-- A process that is outside does nothing. -/
theorem ne_of_outside (hnone : (t.pc p).kind = none) {q : ι} {b : Bool} {d : D}
    (hd : t.Doing q b d) : q ≠ p := by
  rintro rfl
  exact absurd (hnone.symm.trans hd) nofun

omit [DecidableEq D] [DecidableEq ι] in
theorem Inv.begins (h : s.Inv) (hother : ∀ q, q ≠ p → t.pc q = s.pc q) {b : Bool} {d : D}
    (hk : (t.pc p).kind = some (b, d)) (hsame : Same s t) (hmay : s.MayBegin d b) : t.Inv := by
  have hself : ∀ {b' d'}, t.Doing p b' d' → b' = b ∧ d' = d := fun hd => by
    have heq := Option.some.inj (hk.symm.trans hd)
    exact ⟨(congrArg Prod.fst heq).symm, (congrArg Prod.snd heq).symm⟩
  have hnew : ∀ {q d' b'}, q ≠ p → t.Doing q b' d' → ¬ t.Doing p b' d' := fun hq hd hp => by
    obtain ⟨rfl, rfl⟩ := hself hp
    exact hmay.nobody _ (doing_of_other hother hq hd)
  refine .of_alike (fun d' => ?_) (fun q q' b' d' hq hq' => ?_) fun q b' d' hq => ?_
  · rw [hsame.held, hsame.opened]
    exact h.held d'
  · by_cases hqp : q = p
    · subst hqp
      by_contra hne
      exact hnew (Ne.symm hne) hq' hq
    · by_cases hqp' : q' = p
      · subst hqp'
        exact absurd hq' (hnew hqp hq)
      · exact h.alone (doing_of_other hother hqp hq) (doing_of_other hother hqp' hq')
  · rw [hsame.opened]
    by_cases hqp : q = p
    · subst hqp
      obtain ⟨rfl, rfl⟩ := hself hq
      exact hmay.found
    · exact h.found (doing_of_other hother hqp hq)

omit [DecidableEq ι] in
/-- An open or a close of `d` that comes to its end. -/
theorem Inv.ends (h : s.Inv) (hother : ∀ q, q ≠ p → t.pc q = s.pc q) {b : Bool} {d : D}
    (hk : s.Doing p b d) (hnone : (t.pc p).kind = none)
    (ho : ∀ d', t.opened d' = if d' = d then b else s.opened d')
    (hh : t.held = Function.update s.held d (if b then 1 else 0)) : t.Inv := by
  have hold : ∀ {q b' d'}, t.Doing q b' d' → q ≠ p ∧ s.Doing q b' d' := fun hd =>
    ⟨ne_of_outside hnone hd, doing_of_other hother (ne_of_outside hnone hd) hd⟩
  refine .of_alike (fun d' => ?_) (fun q q' b' d' hq hq' => h.alone (hold hq).2 (hold hq').2)
    fun q b' d' hq => ?_
  · rw [hh, ho]
    by_cases hd : d' = d
    · subst hd
      rw [Function.update_self, if_pos rfl]
    · rw [Function.update_of_ne hd, if_neg hd]
      exact h.held d'
  · have hfound := h.found (hold hq).2
    rw [ho]
    by_cases hd : d' = d
    · -- only `p` did what it did to `d`, so another process does the opposite
      subst hd
      have hne : b' ≠ b := by
        rintro rfl
        exact (hold hq).1 (h.alone (hold hq).2 hk)
      rw [if_pos rfl]
      exact Bool.eq_not.mpr hne.symm
    · rw [if_neg hd]
      exact hfound

theorem Inv.moves (h : s.Inv) (hother : ∀ q, q ≠ p → t.pc q = s.pc q) (hm : Moves s t p)
    (hbegin : ∀ b d, (s.pc p).kind = none → (t.pc p).kind = some (b, d) → s.MayBegin d b) :
    t.Inv := by
  cases hm with
  | sleeps hk hn hsame =>
      refine h.of_doing hsame fun q b d hd => ?_
      by_cases hq : q = p
      · subst hq
        exact hk.symm.trans hd
      · exact doing_of_other hother hq hd
  | begins b d hk hk' hsame => exact h.begins hother hk' hsame (hbegin b d hk hk')
  | refused d error hk hpc hsame =>
      have hnone : (t.pc p).kind = none := by rw [hpc]; rfl
      exact h.of_doing hsame fun q b d hd => doing_of_other hother (ne_of_outside hnone hd) hd
  | fails d error hk hpc hsame =>
      have hnone : (t.pc p).kind = none := by rw [hpc]; rfl
      exact h.of_doing hsame fun q b d hd => doing_of_other hother (ne_of_outside hnone hd) hd
  | succeeds d hk hpc ho hh =>
      have hnone : (t.pc p).kind = none := by rw [hpc]; rfl
      have hshut : s.held d = 0 := by rw [h.held, h.shut p d hk]; rfl
      rw [hshut] at hh
      exact h.ends hother hk hnone ho hh
  | closes d hk hpc ho hh =>
      have hnone : (t.pc p).kind = none := by rw [hpc]; rfl
      have hstill : s.held d = 1 := by rw [h.held, h.still p d hk]; rfl
      rw [hstill] at hh
      exact h.ends hother hk hnone ho hh

omit [DecidableEq D] [DecidableEq ι] in
theorem Inv.held_le (h : s.Inv) (d : D) : s.held d ≤ 1 := by
  rw [h.held]
  split_ifs <;> decide

/-- A call that fails finds and leaves the drive as it is. -/
theorem Inv.exclusive (h : s.Inv) (hother : ∀ q, q ≠ p → t.pc q = s.pc q) (hm : Moves s t p)
    (ht : t.Inv) : Exclusive s t := by
  refine ⟨ht.held_le, fun q d found error hne hq => ?_⟩
  have hqp : q = p := by
    by_contra hqp
    exact hne (hother q hqp).symm
  subst hqp
  cases hm with
  | sleeps hk hn hsame => exact absurd ((hn _ hq).trans hq.symm) hne
  | begins b d' hk hk' hsame =>
      rw [hq] at hk'
      exact absurd hk' nofun
  | refused d' error' hk hpc hsame =>
      rw [hpc] at hq
      injection hq with hq
      injection hq with hq
      injection hq with hd hf he
      rw [hsame.opened, ← hd]
      exact hf
  | fails d' error' hk hpc hsame =>
      rw [hpc] at hq
      injection hq with hq
      injection hq with hq
      injection hq with hd hf he
      rw [hsame.opened, ← hd, ← hf]
      exact h.shut q d' hk
  | succeeds d' hk hpc ho hh =>
      rw [hpc] at hq
      injection hq with hq
      injection hq with hq
      exact absurd hq nofun
  | closes d' hk hpc ho hh =>
      rw [hpc] at hq
      injection hq with hq
      injection hq with hq
      exact absurd hq nofun

theorem Inv.both (h : s.Inv) (hother : ∀ q, q ≠ p → t.pc q = s.pc q) (hm : Moves s t p)
    (hbegin : ∀ b d, (s.pc p).kind = none → (t.pc p).kind = some (b, d) → s.MayBegin d b) :
    t.Inv ∧ Exclusive s t :=
  ⟨h.moves hother hm hbegin, h.exclusive hother hm (h.moves hother hm hbegin)⟩

omit [DecidableEq ι] in
/-- A step of the controller, or of somebody's read or write. -/
theorem Inv.controller (h : s.Inv) {d : D} (e : Tape.Event) :
    (s.setTape d ((s.tape d).step e)).Inv ∧ Exclusive s (s.setTape d ((s.tape d).step e)) := by
  have hinv : (s.setTape d ((s.tape d).step e)).Inv :=
    h.of_doing (setTape_same s (step_opened (s.tape d) e)) fun _ _ _ hd => hd
  exact ⟨hinv, hinv.held_le, fun q d' found error hne _ => absurd rfl hne⟩

/-- The step. -/
theorem Inv.step (h : s.Inv) {e : Event D ι} (ha : s.Apart e) :
    (s.step e).Inv ∧ Exclusive s (s.step e) := by
  have hstay : ∀ p : ι, s.Inv ∧ Exclusive s s := fun p =>
    ⟨h, h.held_le, fun _ _ _ _ hne _ => absurd rfl hne⟩
  have hkind : ∀ {j : Job D} {b d}, some (j.opens, j.drive) = some (b, d) →
      j.opens = b ∧ j.drive = d :=
    fun he => ⟨congrArg Prod.fst (Option.some.inj he), congrArg Prod.snd (Option.some.inj he)⟩
  cases e with
  | strategy d id read addr bcount => exact h.controller _
  | interrupt d okay status sense => exact h.controller _
  | run p =>
      obtain ⟨hother, hm⟩ := run_moves s p
      refine h.both hother hm fun b d hk hk' => ?_
      have hrun : s.run p = s := by
        unfold run
        cases hs : s.pc p with
        | out r => rfl
        | lockWait j => rw [hs] at hk; exact absurd hk nofun
        | active j => rw [hs] at hk; exact absurd hk nofun
      change ((s.run p).pc p).kind = _ at hk'
      rw [hrun, hk] at hk'
      exact absurd hk' nofun
  | ctopen p o present =>
      unfold Tapes.step
      simp only
      cases hs : s.pc p with
      | lockWait j => exact hstay p
      | active j => exact hstay p
      | out r =>
          have hnone : (s.pc p).kind = none := by rw [hs]; rfl
          have hpc : ∀ pc : Pc D, (s.setPc p pc).pc p = pc := fun pc => by
            unfold setPc
            exact Function.update_self _ _ _
          have hoth : ∀ pc : Pc D, ∀ q, q ≠ p → (s.setPc p pc).pc q = s.pc q := fun pc q hq =>
            Function.update_of_ne hq _ _
          simp only
          by_cases hopen : s.opened o.drive = true
          · rw [if_pos hopen]
            refine h.both (hoth _) (.refused o.drive EBUSY hnone ?_ ⟨fun _ => rfl, rfl⟩)
              fun b d _ hk' => ?_
            · rw [hpc, hopen]
            · rw [hpc] at hk'
              exact absurd hk' nofun
          · rw [if_neg hopen]
            rw [Bool.not_eq_true] at hopen
            by_cases hpresent : present = false
            · rw [if_pos hpresent]
              refine h.both (hoth _) (.refused o.drive ENXIO hnone ?_ ⟨fun _ => rfl, rfl⟩)
                fun b d _ hk' => ?_
              · rw [hopen]
                exact hpc _
              · change ((s.setPc p _).pc p).kind = _ at hk'
                rw [hpc] at hk'
                exact absurd hk' nofun
            · rw [if_neg hpresent]
              obtain ⟨hother, hm⟩ := begin_moves (j := .sense o) hnone
              refine h.both hother hm fun b d _ hk' => ?_
              obtain ⟨-, pc, hk, hcpc⟩ := command_sleeps s p (.sense o)
              rw [hcpc, Function.update_self, hk] at hk'
              obtain ⟨rfl, rfl⟩ := hkind hk'
              exact ⟨hopen, ha hopen⟩
  | ctclose p d rewind fwrite =>
      unfold Tapes.step
      simp only
      cases hs : s.pc p with
      | lockWait j => exact hstay p
      | active j => exact hstay p
      | out r =>
          have hnone : (s.pc p).kind = none := by rw [hs]; rfl
          simp only
          obtain ⟨hother, hm⟩ := begin_moves (j := Tapes.closing d rewind fwrite) hnone
          refine h.both hother hm fun b d' _ hk' => ?_
          obtain ⟨-, pc, hk, hcpc⟩ := command_sleeps s p (Tapes.closing d rewind fwrite)
          have hjob : (Tapes.closing d rewind fwrite).opens = false ∧
              (Tapes.closing d rewind fwrite).drive = d := by
            unfold Tapes.closing
            split <;> exact ⟨rfl, rfl⟩
          rw [hcpc, Function.update_self, hk, hjob.1, hjob.2] at hk'
          have heq := Option.some.inj hk'
          obtain rfl : false = b := congrArg Prod.fst heq
          obtain rfl : d = d' := congrArg Prod.snd heq
          refine ⟨?_, ha.2⟩
          have hheld := h.held d
          by_contra hopen
          rw [if_neg hopen] at hheld
          exact absurd hheld (Nat.ne_of_gt ha.1)

/-- Nobody has a drive open, or is opening or closing one. -/
structure Free (s : Tapes D ι) : Prop where
  pc : ∀ p, (s.pc p).kind = none
  opened : ∀ d, s.opened d = false
  held : ∀ d, s.held d = 0

/-- In every run in which an open of a drive begins only when no other one is under way, and
closes are of opens, at most one open of a drive is not closed, and one that fails
leaves the drive as it found it. -/
theorem opens_exclusive (s : Tapes D ι) (hs : s.Free) {es : List (Event D ι)}
    (ha : Every Tapes.step Apart s es) :
    Every Tapes.step (fun s e => Exclusive s (s.step e)) s es := by
  have hno : ∀ p b d, ¬ s.Doing p b d := fun p b d hd => absurd ((hs.pc p).symm.trans hd) nofun
  have hstart : s.Inv := by
    refine ⟨fun d => ?_, fun p q d hp => absurd hp (hno p _ _), fun p d hp => absurd hp (hno p _ _),
      fun p q d hp => absurd hp (hno p _ _), fun p d hp => absurd hp (hno p _ _)⟩
    rw [hs.held, hs.opened]
    rfl
  exact every_of_invariant Inv (fun s e h ha => (h.step ha).1) (fun s e h ha => (h.step ha).2)
    hstart ha

/-- One drive, closed, and two processes. -/
def closed : Tapes Unit Bool where
  cttab _ := ⟨.NORMAL_IDLE, false, [], ⟨.CLOSE, 0, [], 0, 0#32, false⟩, false, 0, fun _ => 0#8, [],
    [],
    [], []⟩
  special := ⟨false, .CLOSE, fun _ => 0#8, ⟨0, true, false, 0, 0#32, 0#32, false, 0⟩⟩
  locked := false
  next := 0
  senseAddr _ := 0
  init120 := 0
  init150 := 0
  pc _ := .out none
  held _ := 0

theorem closed_free : closed.Free := ⟨fun _ => rfl, fun _ => rfl, fun _ => rfl⟩

/-- An open for reading. -/
def reading : Opening Unit := ⟨(), false, false, true, false, false⟩

/-- An open for reading, and the close. -/
theorem opens_exclusive_read :
    Every Tapes.step (fun s e => Exclusive s (s.step e)) closed
      [.ctopen false reading true, .interrupt () true 0 fun _ => 0#8, .run false,
        .ctclose false () true false] :=
  opens_exclusive closed closed_free ⟨fun _ _ => nofun, trivial, trivial, ⟨by decide, fun q => by
    cases q <;> exact nofun⟩, trivial⟩

/-- Two processes look at the flag before either sets it: both succeed. -/
theorem opens_exclusive_fails :
    ¬ ∀ (s : Tapes Unit Bool) es, s.Free →
      Every Tapes.step (fun s e => Exclusive s (s.step e)) s es := by
  intro h
  obtain ⟨-, -, -, -, -, -, hlast, -⟩ := h closed [.ctopen false reading true,
    .ctopen true reading true, .interrupt () true 0 fun _ => 0#8, .run false, .run true,
    .interrupt () true 0 fun _ => 0#8, .run true] closed_free
  exact absurd (hlast.held ()) (by decide)

end Tapes

end HydraAmix.Cartridge
