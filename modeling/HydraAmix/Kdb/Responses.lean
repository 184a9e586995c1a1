import HydraAmix.Library.Schedule
import HydraAmix.Library.Exclusive
import HydraAmix.Library.Ledger
import Mathlib.Data.Int.Notation

/-!
# Responses to a remote debugger

The debugger's side of the remote kernel debugger. `rkread`, `rkwrite` and `rkioctl` send
requests and sleep until `rkdrput` has left a response at `rkunit.response`; a request is
sent again every second for as long as the message can be copied. The block of a response
is freed by the process that found it there.

A process goes on from one sleep to the next in one step, a copy to or from user memory
being a sleep as well. The sleep of `send_kdb_packet` ends with a signal too. The device is
open, and of requests and responses only what decides what a process does next is kept.
-/
namespace HydraAmix.Kdb
open Schedule Blocks

abbrev Pid := ℕ

abbrev EINTR : ℤ := 4
abbrev ENOMEM : ℤ := 12
abbrev EFAULT : ℤ := 14
abbrev EINVAL : ℤ := 22
abbrev ETIMEDOUT : ℤ := 145

/-- A response: its id, its error, and the counts that READ and NMAP return. -/
structure Kdebug where
  transmit_id : BitVec 32
  kdb_error : ℤ
  count : ℕ
  num : ℤ
  deriving DecidableEq

/-- The commands of `rkioctl` that send a request. `PIOCRUN` may have an argument. -/
inductive Piocmd where
  | PIOC | PIOCRUN (arg : Bool) | PIOCSTOP | PIOCWSTOP | PIOCSTATUS | PIOCGFAULT | PIOCSFAULT
  | PIOCCFAULT | PIOCGREG | PIOCSREG | PIOCGFPREG | PIOCSFPREG | PIOCNMAP | PIOCMAP
  deriving DecidableEq

/-- What a response is for: a chunk with `resid` bytes to go, the request of a command, the
KDB_STATUS that follows a stop, or the map entry `i` of `n`. -/
inductive Purpose where
  | read (resid : ℕ)
  | write (resid : ℕ)
  | ioctl (cmd : Piocmd)
  | stopped
  | map (i n : ℕ)
  deriving DecidableEq

/-- Where a process is. -/
inductive Ctl where
  | out (error : ℤ)
  /-- In a copy of its argument, before the request is sent. -/
  | copyin (w : Purpose)
  /-- Asleep in `send_kdb_packet`; `mp` says if there is a copy of the message. -/
  | sending (w : Purpose) (id : BitVec 32) (mp : Bool)
  /-- In a copy from or to the response `b`. -/
  | copying (w : Purpose) (id : BitVec 32) (b : ℕ)
  /-- In `putnext` with a null message. -/
  | panicked
  deriving DecidableEq

/-- The process waits for a response or is using one. -/
def Ctl.Within : Ctl → Prop
  | .sending _ _ _ | .copying _ _ _ => True
  | _ => False

/-- `rkunit`, the blocks obtained for responses and their contents, and the responses that
`send_kdb_packet` returned, with the ids of the requests. -/
structure Rkd where
  id : BitVec 32
  response : Option ℕ
  ledger : Ledger Unit
  data : ℕ → Kdebug
  got : List (BitVec 32 × Kdebug)
  ctl : Pid → Ctl

/-- `dup` is whether `copymsg` succeeds, and `alloc` whether the memory for a message, or
for a response, is there. -/
inductive Event where
  | rkread (p : Pid) (resid : ℕ) (dup alloc : Bool)
  | rkwrite (p : Pid) (resid : ℕ)
  | rkioctl (p : Pid) (cmd : Piocmd) (dup alloc : Bool)
  | copied (p : Pid) (ok dup alloc : Bool)
  | wake (p : Pid) (dup alloc : Bool)
  | signal (p : Pid)
  | rkdrput (r : Kdebug) (alloc : Bool)

namespace Rkd

def setCtl (s : Rkd) (p : Pid) (c : Ctl) : Rkd := { s with ctl := Function.update s.ctl p c }

/-- `kmem_free`, of a block or of a request on the stack. -/
def kmem_free (s : Rkd) (b : Option ℕ) : Rkd := { s with ledger := s.ledger.free b }

/-- `kmem_free(response)` and `rkunit.response = NULL`. -/
def drop (s : Rkd) (b : Option ℕ) : Rkd := { s.kmem_free b with response := none }

/-- The end of a call. -/
def finish (s : Rkd) (p : Pid) (b : Option ℕ) (error : ℤ) : Rkd :=
  (s.drop b).setCtl p (.out error)

/-- `send_kdb_packet`, up to its sleep. Without memory it returns the request itself, with
the error, and every caller frees that and ends. -/
def send (s : Rkd) (p : Pid) (w : Purpose) (dup alloc : Bool) : Rkd :=
  if alloc then { s.setCtl p (.sending w s.id dup) with id := s.id + 1, response := none }
  else s.finish p none ENOMEM

/-- The head of the loop of `rkread`. -/
def readMore (s : Rkd) (p : Pid) (resid : ℕ) (dup alloc : Bool) : Rkd :=
  if resid ≠ 0 then s.send p (.read resid) dup alloc else s.setCtl p (.out 0)

/-- The head of the loop of `rkwrite`. -/
def writeMore (s : Rkd) (p : Pid) (resid : ℕ) : Rkd :=
  s.setCtl p (if resid ≠ 0 then .copyin (.write resid) else .out 0)

/-- The head of the loop of PIOCMAP. -/
def mapMore (s : Rkd) (p : Pid) (b i n : ℕ) (dup alloc : Bool) : Rkd :=
  if i < n then (s.kmem_free (some b)).send p (.map i n) dup alloc else s.finish p (some b) 0

/-- What the caller of `send_kdb_packet` does with a response, up to its next sleep. -/
def returned (s : Rkd) (p : Pid) (w : Purpose) (id : BitVec 32) (b : ℕ) (dup alloc : Bool) :
    Rkd :=
  let r := s.data b
  if r.kdb_error ≠ 0 then s.finish p (some b) r.kdb_error
  else
    match w with
    | .write resid => (s.drop (some b)).writeMore p resid
    | .ioctl .PIOCSTOP | .ioctl .PIOCWSTOP => (s.kmem_free (some b)).send p .stopped dup alloc
    | .ioctl .PIOC | .ioctl .PIOCSREG | .ioctl .PIOCSFPREG | .ioctl (.PIOCRUN _) =>
        s.finish p (some b) 0
    | .ioctl .PIOCMAP => s.mapMore p b 0 r.num.toNat dup alloc
    | .ioctl .PIOCGFAULT | .ioctl .PIOCSFAULT | .ioctl .PIOCCFAULT => s.finish p (some b) EINVAL
    | _ => s.setCtl p (.copying w id b)

/-- What it does without one. -/
def timedOut (s : Rkd) (p : Pid) (w : Purpose) : Rkd :=
  match w with
  | .map _ _ => { s.setCtl p (.out ETIMEDOUT) with response := none }
  | _ => s.setCtl p (.out ETIMEDOUT)

/-- A process comes back from its sleep in `send_kdb_packet`. -/
def wake (s : Rkd) (p : Pid) (dup alloc : Bool) : Rkd :=
  match s.ctl p with
  | .sending w id mp =>
      match s.response with
      | none => if mp then s.setCtl p (.sending w id dup) else s.timedOut p w
      | some b =>
          if (s.data b).transmit_id = id then
            ({ s with got := s.got ++ [(id, s.data b)] }).returned p w id b dup alloc
          else (s.drop (some b)).setCtl p (if mp then .sending w id dup else .panicked)
  | _ => s

/-- The chunk of `rkwrite` has up to four bytes. -/
def Purpose.copied : Purpose → Purpose
  | .write resid => .write (resid - min 4 resid)
  | w => w

/-- A copy has ended. -/
def copied (s : Rkd) (p : Pid) (ok dup alloc : Bool) : Rkd :=
  match s.ctl p with
  | .copyin w =>
      if ok then s.send p (Purpose.copied w) dup alloc else s.setCtl p (.out EFAULT)
  | .copying w _ b =>
      match w, ok with
      | .read resid, true =>
          (s.drop (some b)).readMore p (resid - min (s.data b).count resid) dup alloc
      | .map i n, true => s.mapMore p b (i + 1) n dup alloc
      -- the return that frees nothing
      | .ioctl .PIOCGREG, false | .ioctl .PIOCGFPREG, false => s.setCtl p (.out EFAULT)
      | _, true => s.finish p (some b) 0
      | _, false => s.finish p (some b) EFAULT
  | _ => s

/-- A call by a process that is outside. -/
def call (s : Rkd) (p : Pid) (t : Rkd) : Rkd :=
  match s.ctl p with
  | .out _ => t
  | _ => s

def rkioctl (s : Rkd) (p : Pid) (cmd : Piocmd) (dup alloc : Bool) : Rkd :=
  match cmd with
  | .PIOCRUN true | .PIOCSREG | .PIOCSFPREG => s.setCtl p (.copyin (.ioctl cmd))
  | _ => s.send p (.ioctl cmd) dup alloc

def signal (s : Rkd) (p : Pid) : Rkd :=
  match s.ctl p with
  | .sending _ _ _ => s.setCtl p (.out EINTR)
  | _ => s

def rkdrput (s : Rkd) (r : Kdebug) (alloc : Bool) : Rkd :=
  if alloc then
    { s with
      response := some s.ledger.next
      ledger := s.ledger.alloc ()
      data := Function.update s.data s.ledger.next r }
  else { s with response := none }

def step (s : Rkd) : Event → Rkd
  | .rkread p resid dup alloc => s.call p (s.readMore p resid dup alloc)
  | .rkwrite p resid => s.call p (s.writeMore p resid)
  | .rkioctl p cmd dup alloc => s.call p (s.rkioctl p cmd dup alloc)
  | .copied p ok dup alloc => s.copied p ok dup alloc
  | .wake p dup alloc => s.wake p dup alloc
  | .signal p => s.signal p
  | .rkdrput r alloc => s.rkdrput r alloc

/-- After the open, with the first id. -/
def boot (id : BitVec 32) : Rkd where
  id := id
  response := none
  ledger := Ledger.empty ()
  data _ := ⟨0, 0, 0, 0⟩
  got := []
  ctl _ := .out 0

/-! ### What is claimed -/

/-- The block is there, and not freed. -/
def Live (s : Rkd) (b : ℕ) : Prop := b < s.ledger.next ∧ s.ledger.freed b = 0

/-- Blocks are freed once, and nothing else is; a block that is not freed is used by a
process, or left for one that waits; what is used or left is live; and a process that uses
a response, or got one, asked for it. -/
structure Sound (s : Rkd) : Prop where
  once : ∀ b, s.ledger.freed b ≤ 1
  stray : s.ledger.stray = 0
  kept : ∀ b, s.Live b → (∃ p w id, s.ctl p = .copying w id b) ∨
    s.response = some b ∧ ∃ p w id mp, s.ctl p = .sending w id mp
  used : ∀ p w id b, s.ctl p = .copying w id b → s.Live b ∧ (s.data b).transmit_id = id
  left : ∀ b, s.response = some b → s.Live b
  own : ∀ x ∈ s.got, x.2.transmit_id = x.1

/-- A process does not take away the response that another one waits for. -/
def Unstolen (s : Rkd) : Event → Prop
  | .wake p _ _ => ∀ w id mp b, s.ctl p = .sending w id mp → s.response = some b →
      (s.data b).transmit_id ≠ id → ∀ q w' mp', s.ctl q ≠ .sending w' (s.data b).transmit_id mp'
  | _ => True

/-- No other process waits for a response or uses one. -/
abbrev Alone (s : Rkd) (p : Pid) : Prop := Exclusive.Alone Ctl.Within s.ctl p

/-- The commands that return without freeing the response. -/
def Forgets (s : Rkd) (p : Pid) : Prop :=
  ∃ id b, s.ctl p = .copying (.ioctl .PIOCGREG) id b ∨ s.ctl p = .copying (.ioctl .PIOCGFPREG) id b

/-- A request is sent only while no other process waits for a response or uses one, and
with memory for it; a response arrives only where one is waited for and none is left; no
signal comes between its arrival and its use; and the registers of PIOCGREG and PIOCGFPREG
can be copied. -/
def Careful (s : Rkd) : Event → Prop
  | .rkread p _ _ alloc | .rkioctl p _ _ alloc => s.Alone p ∧ alloc = true
  | .rkwrite _ _ => True
  | .copied p ok _ alloc =>
      alloc = true ∧ (∀ w, s.ctl p = .copyin w → s.Alone p) ∧ (s.Forgets p → ok = true)
  | .wake _ _ alloc => alloc = true
  | .signal p => (s.ctl p).Within → s.response = none
  | .rkdrput _ _ => s.response = none ∧ ∃ p w id mp, s.ctl p = .sending w id mp

/-! ### One owner -/

/-- The only block that was not freed is `o`. -/
structure Books (s : Rkd) (o : Option ℕ) : Prop where
  balanced : s.ledger.Balanced (Ledger.also (fun _ _ => 0) () [o])
  stray : s.ledger.stray = 0
  own : ∀ x ∈ s.got, x.2.transmit_id = x.1

/-- What `rkunit.response` is to the one process that may be using it. -/
def Rests (s : Rkd) : Ctl → Prop
  | .sending _ _ _ => True
  | .copying _ id b => s.response = some b ∧ (s.data b).transmit_id = id
  | _ => s.response = none

structure Inv (s : Rkd) : Prop where
  books : s.Books s.response
  owner : ∃ p, s.Alone p ∧ s.Rests (s.ctl p)

section
variable {s t : Rkd} {p : Pid} {c : Ctl} {w : Purpose} {b : ℕ} {id : BitVec 32} {dup : Bool}

theorem setCtl_self (s : Rkd) (p : Pid) (c : Ctl) : (s.setCtl p c).ctl p = c :=
  Function.update_self (β := fun _ => Ctl) p c s.ctl

theorem rests_outside (h : ¬(s.ctl p).Within) : s.Rests (s.ctl p) ↔ s.response = none := by
  cases hctl : s.ctl p with
  | out error => exact Iff.rfl
  | copyin w => exact Iff.rfl
  | panicked => exact Iff.rfl
  | sending w id mp => exact absurd (by rw [hctl]; trivial) h
  | copying w id b => exact absurd (by rw [hctl]; trivial) h

theorem Inv.rests (h : s.Inv) (ha : s.Alone p) : s.Rests (s.ctl p) :=
  Exclusive.owner_of_alone h.owner (fun _ => rests_outside) ha

theorem Inv.within (h : s.Inv) (hp : (s.ctl p).Within) : s.Alone p ∧ s.Rests (s.ctl p) :=
  Exclusive.owner_of_within h.owner hp

/-- A process that is alone and outside finds no block. -/
theorem Inv.free (h : s.Inv) (ha : s.Alone p) (hp : ¬(s.ctl p).Within) :
    s.Books none ∧ s.response = none := by
  have hn := (rests_outside hp).mp (h.rests ha)
  exact ⟨hn ▸ h.books, hn⟩

theorem Books.live (h : s.Books (some b)) : s.Live b := by
  have hown := h.balanced.own_also List.mem_cons_self
  have honce := h.balanced.once b hown.1
  refine ⟨hown.1, ?_⟩
  simp only [Ledger.also, if_true, List.count_singleton_self] at honce
  omega

theorem Books.live_eq {o : Option ℕ} (h : s.Books o) (hb : s.Live b) : o = some b := by
  have honce := h.balanced.once b hb.1
  rw [hb.2] at honce
  by_contra hne
  have hcount : [o].count (some b) = 0 := List.count_eq_zero_of_not_mem fun hm =>
    hne (List.mem_singleton.mp hm).symm
  simp only [Ledger.also, if_true, hcount] at honce
  omega

theorem Books.kmem_free (h : s.Books (some b)) : (s.kmem_free (some b)).Books none :=
  ⟨by rw [Ledger.also_none]; exact h.balanced.release, h.stray, h.own⟩

theorem Books.congr {o : Option ℕ} (h : s.Books o) (hl : t.ledger = s.ledger)
    (hg : t.got = s.got) : t.Books o :=
  ⟨by rw [hl]; exact h.balanced, by rw [hl]; exact h.stray, by rw [hg]; exact h.own⟩

/-- The owner goes to another place. -/
theorem Inv.of_alone (ha : s.Alone p) (hc : t.ctl = Function.update s.ctl p c)
    (hb : t.Books t.response) (hr : t.Rests c) : t.Inv := by
  refine ⟨hb, p, ?_, ?_⟩
  · change Exclusive.Alone _ t.ctl p
    rw [hc]
    exact ha.update c
  · rw [hc, Function.update_self]
    exact hr

/-- A process outside stays there. -/
theorem Inv.outside (h : s.Inv) (hp : ¬(s.ctl p).Within) (hc : ¬c.Within) :
    (s.setCtl p c).Inv := by
  obtain ⟨q, hq, hr⟩ := h.owner
  by_cases hqp : q = p
  · subst hqp
    refine Inv.of_alone hq rfl (h.books.congr rfl rfl) ?_
    have hn : s.response = none := (rests_outside hp).mp hr
    cases c with
    | out error => exact hn
    | copyin w => exact hn
    | panicked => exact hn
    | sending w id mp => exact absurd trivial hc
    | copying w id b => exact absurd trivial hc
  · refine ⟨h.books.congr rfl rfl, q, hq.other hc, ?_⟩
    have hctl : (s.setCtl p c).ctl q = s.ctl q := Function.update_of_ne hqp _ _
    rw [hctl]
    cases hcq : s.ctl q with
    | out error => rwa [hcq] at hr
    | copyin w => rwa [hcq] at hr
    | panicked => rwa [hcq] at hr
    | sending w id mp => trivial
    | copying w id b => rwa [hcq] at hr

/-! ### The steps -/

theorem send_inv (hb : s.Books none) (ha : s.Alone p) : (s.send p w dup true).Inv :=
  Inv.of_alone ha rfl (hb.congr rfl rfl) trivial

theorem finish_inv (hb : s.Books (some b)) (ha : s.Alone p) (error : ℤ) :
    (s.finish p (some b) error).Inv :=
  Inv.of_alone ha rfl (hb.kmem_free.congr rfl rfl) rfl

theorem readMore_inv (hb : s.Books none) (hs : s.response = none) (ha : s.Alone p) (resid : ℕ) :
    (s.readMore p resid dup true).Inv := by
  unfold readMore
  split
  · exact send_inv hb ha
  · exact Inv.of_alone ha rfl (hs ▸ hb.congr rfl rfl) hs

theorem writeMore_inv (hb : s.Books none) (hs : s.response = none) (ha : s.Alone p)
    (resid : ℕ) : (s.writeMore p resid).Inv := by
  refine Inv.of_alone ha rfl (hs ▸ hb.congr rfl rfl) ?_
  split
  · exact hs
  · exact hs

theorem mapMore_inv (hb : s.Books (some b)) (ha : s.Alone p) (i n : ℕ) :
    (s.mapMore p b i n dup true).Inv := by
  unfold mapMore
  split
  · exact send_inv hb.kmem_free ha
  · exact finish_inv hb ha 0

theorem returned_inv (hb : s.Books (some b)) (hs : s.response = some b)
    (hid : (s.data b).transmit_id = id) (ha : s.Alone p) :
    (s.returned p w id b dup true).Inv := by
  have huse : (s.setCtl p (.copying w id b)).Inv :=
    Inv.of_alone ha rfl (hs ▸ hb.congr rfl rfl) ⟨hs, hid⟩
  unfold returned
  dsimp only
  split
  · exact finish_inv hb ha _
  · cases w with
    | read resid => exact huse
    | stopped => exact huse
    | map i n => exact huse
    | write resid =>
        exact writeMore_inv (s := s.drop (some b)) (hb.kmem_free.congr rfl rfl) rfl ha resid
    | ioctl cmd =>
        cases cmd with
        | PIOC => exact finish_inv hb ha 0
        | PIOCRUN arg => exact finish_inv hb ha 0
        | PIOCSREG => exact finish_inv hb ha 0
        | PIOCSFPREG => exact finish_inv hb ha 0
        | PIOCSTOP => exact send_inv hb.kmem_free ha
        | PIOCWSTOP => exact send_inv hb.kmem_free ha
        | PIOCMAP => exact mapMore_inv hb ha _ _
        | PIOCGFAULT => exact finish_inv hb ha _
        | PIOCSFAULT => exact finish_inv hb ha _
        | PIOCCFAULT => exact finish_inv hb ha _
        | PIOCSTATUS => exact huse
        | PIOCNMAP => exact huse
        | PIOCGREG => exact huse
        | PIOCGFPREG => exact huse

theorem timedOut_inv (hb : s.Books none) (hs : s.response = none) (ha : s.Alone p) :
    (s.timedOut p w).Inv := by
  have hout : (s.setCtl p (.out ETIMEDOUT)).Inv :=
    Inv.of_alone ha rfl (hs ▸ hb.congr rfl rfl) hs
  unfold timedOut
  split
  · exact Inv.of_alone ha rfl (hb.congr rfl rfl) rfl
  · exact hout

theorem wake_inv (h : s.Inv) (p : Pid) (dup : Bool) : (s.wake p dup true).Inv := by
  unfold wake
  cases hctl : s.ctl p with
  | out error => exact h
  | copyin w => exact h
  | copying w id b => exact h
  | panicked => exact h
  | sending w id mp =>
      obtain ⟨ha, -⟩ := h.within (p := p) (by rw [hctl]; trivial)
      have hb := h.books
      dsimp only
      cases hs : s.response with
      | none =>
          rw [hs] at hb
          cases mp with
          | true => exact Inv.of_alone ha rfl (h.books.congr rfl rfl) trivial
          | false => exact timedOut_inv hb hs ha
      | some b =>
          rw [hs] at hb
          dsimp only
          split
          next hid =>
            refine returned_inv
              (s := { s with response := some b, got := s.got ++ [(id, s.data b)] })
              ⟨hb.balanced, hb.stray, fun x hx => ?_⟩ rfl hid ha
            rcases List.mem_append.mp hx with hx | hx
            · exact hb.own x hx
            · rw [List.mem_singleton.mp hx]
              exact hid
          next =>
            refine Inv.of_alone ha rfl (hb.kmem_free.congr rfl rfl) ?_
            cases mp with
            | true => trivial
            | false => rfl

theorem copied_inv (h : s.Inv) {ok : Bool} (ha : ∀ w, s.ctl p = .copyin w → s.Alone p)
    (hf : s.Forgets p → ok = true) : (s.copied p ok dup true).Inv := by
  unfold copied
  cases hctl : s.ctl p with
  | out error => exact h
  | sending w id mp => exact h
  | panicked => exact h
  | copyin w =>
      have hp : ¬(s.ctl p).Within := by
        rw [hctl]
        exact not_false
      cases ok with
      | true => exact send_inv (h.free (ha w hctl) hp).1 (ha w hctl)
      | false => exact h.outside hp not_false
  | copying w id b =>
      obtain ⟨ha, hr⟩ := h.within (p := p) (by rw [hctl]; trivial)
      rw [hctl] at hr
      have hb : s.Books (some b) := hr.1 ▸ h.books
      have hdone : ∀ error, (s.finish p (some b) error).Inv := finish_inv hb ha
      have hforget : w = .ioctl .PIOCGREG ∨ w = .ioctl .PIOCGFPREG → ok = true := by
        rintro (rfl | rfl)
        · exact hf ⟨id, b, .inl hctl⟩
        · exact hf ⟨id, b, .inr hctl⟩
      dsimp only
      split
      next resid =>
        exact readMore_inv (s := s.drop (some b)) (hb.kmem_free.congr rfl rfl) rfl ha _
      next i n => exact mapMore_inv hb ha _ _
      next => exact Bool.noConfusion (hforget (.inl rfl))
      next => exact Bool.noConfusion (hforget (.inr rfl))
      next => exact hdone 0
      next => exact hdone EFAULT

theorem call_inv (h : s.Inv) (ht : (∃ error, s.ctl p = .out error) → t.Inv) :
    (s.call p t).Inv := by
  unfold call
  split
  next error hctl => exact ht ⟨error, hctl⟩
  next => exact h

theorem rkioctl_inv (h : s.Inv) (ha : s.Alone p) (hout : ¬(s.ctl p).Within) (cmd : Piocmd) :
    (s.rkioctl p cmd dup true).Inv := by
  unfold rkioctl
  split
  · exact h.outside hout not_false
  · exact h.outside hout not_false
  · exact h.outside hout not_false
  · exact send_inv (h.free ha hout).1 ha

theorem signal_inv (h : s.Inv) (hs : (s.ctl p).Within → s.response = none) :
    (s.signal p).Inv := by
  unfold signal
  split
  next w id mp hctl =>
    have hp : (s.ctl p).Within := by
      rw [hctl]
      trivial
    exact Inv.of_alone (h.within hp).1 rfl (h.books.congr rfl rfl) (hs hp)
  next => exact h

theorem rkdrput_inv (h : s.Inv) (hs : s.response = none)
    (hw : ∃ p w id mp, s.ctl p = .sending w id mp) (r : Kdebug) (alloc : Bool) :
    (s.rkdrput r alloc).Inv := by
  obtain ⟨p, w, id, mp, hctl⟩ := hw
  obtain ⟨ha, -⟩ := h.within (p := p) (by rw [hctl]; trivial)
  have hb : s.Books none := hs ▸ h.books
  unfold rkdrput
  split
  · refine ⟨⟨?_, hb.stray, hb.own⟩, p, ha, ?_⟩
    · have hbal := hb.balanced
      rw [Ledger.also_none] at hbal
      exact hbal.allocOne ()
    · change Rests _ (s.ctl p)
      rw [hctl]
      trivial
  · refine ⟨⟨hb.balanced, hb.stray, hb.own⟩, p, ha, ?_⟩
    change Rests _ (s.ctl p)
    rw [hctl]
    trivial

/-! ### Responses go where they belong -/

theorem Inv.sound (h : s.Inv) : s.Sound := by
  obtain ⟨q, hq, hr⟩ := h.owner
  refine ⟨h.books.balanced.freed_le_one, h.books.stray, fun b hb => ?_, fun p w id b hp => ?_,
    fun b hb => ?_, h.books.own⟩
  · have hs := h.books.live_eq hb
    cases hctl : s.ctl q with
    | out error =>
        rw [hctl] at hr
        exact absurd (hr.symm.trans hs) (Option.some_ne_none b).symm
    | copyin w =>
        rw [hctl] at hr
        exact absurd (hr.symm.trans hs) (Option.some_ne_none b).symm
    | panicked =>
        rw [hctl] at hr
        exact absurd (hr.symm.trans hs) (Option.some_ne_none b).symm
    | sending w id mp => exact .inr ⟨hs, q, w, id, mp, hctl⟩
    | copying w id d =>
        rw [hctl] at hr
        obtain rfl : d = b := Option.some.inj (hr.1.symm.trans hs)
        exact .inl ⟨q, w, id, hctl⟩
  · obtain ⟨-, hr⟩ := h.within (p := p) (by rw [hp]; trivial)
    rw [hp] at hr
    exact ⟨(hr.1 ▸ h.books : s.Books (some b)).live, hr.2⟩
  · exact (hb ▸ h.books : s.Books (some b)).live

end

theorem boot_inv (id : BitVec 32) : (boot id).Inv := by
  refine ⟨⟨?_, rfl, fun x hx => absurd hx List.not_mem_nil⟩, 0, fun _ _ => not_false, rfl⟩
  change Ledger.Balanced _ (Ledger.also (fun _ _ => 0) () [none])
  rw [Ledger.also_none]
  exact Ledger.balanced_empty ()

theorem step_inv (s : Rkd) (e : Event) (h : s.Inv) (hcare : s.Careful e) : (s.step e).Inv := by
  have hout : ∀ p, (∃ error, s.ctl p = .out error) → ¬(s.ctl p).Within := by
    rintro p ⟨error, hctl⟩
    rw [hctl]
    exact not_false
  cases e with
  | rkread p resid dup alloc =>
      obtain ⟨ha, rfl⟩ := hcare
      exact call_inv h fun hctl =>
        readMore_inv (h.free ha (hout p hctl)).1 (h.free ha (hout p hctl)).2 ha resid
  | rkwrite p resid =>
      refine call_inv h fun hctl => h.outside (hout p hctl) ?_
      split
      · exact not_false
      · exact not_false
  | rkioctl p cmd dup alloc =>
      obtain ⟨ha, rfl⟩ := hcare
      exact call_inv h fun hctl => rkioctl_inv h ha (hout p hctl) cmd
  | copied p ok dup alloc =>
      obtain ⟨rfl, ha, hf⟩ := hcare
      exact copied_inv h ha hf
  | wake p dup alloc =>
      obtain rfl : alloc = true := hcare
      exact wake_inv h p dup
  | signal p => exact signal_inv h hcare
  | rkdrput r alloc => exact rkdrput_inv h hcare.1 hcare.2 r alloc

/-- Only one process waits, so no other one waits for the response it frees. -/
theorem Inv.unstolen {s : Rkd} (h : s.Inv) (e : Event) : s.Unstolen e := by
  cases e with
  | wake p dup alloc =>
      intro w id mp b hp hb hne q w' mp' hq
      obtain ⟨ha, -⟩ := h.within (p := p) (by rw [hp]; trivial)
      by_cases hqp : q = p
      · rw [hqp, hp] at hq
        exact hne (Ctl.sending.inj hq).2.1.symm
      · exact ha q hqp (by rw [hq]; trivial)
  | _ => trivial

/-- Responses are not stolen, lost or freed twice in any run in which requests do not
overlap, responses come where they are waited for, memory and registers are there, and no
signal takes a process away from a response. -/
theorem responses_not_stolen (id : BitVec 32) (es : List Event)
    (h : Every step Careful (boot id) es) :
    Every step (fun s e => (s.step e).Sound ∧ s.Unstolen e) (boot id) es :=
  every_of_invariant Inv step_inv
    (fun s e hinv hcare => ⟨(step_inv s e hinv hcare).sound, hinv.unstolen e⟩) (boot_inv id) h

/-- PIOCNMAP, whose first request is lost. -/
theorem responses_not_stolen_nmap : Every step (fun s e => (s.step e).Sound ∧ s.Unstolen e)
    (boot 7) [.rkioctl 1 .PIOCNMAP true true, .wake 1 true true, .rkdrput ⟨7, 0, 0, 3⟩ true,
      .wake 1 true true, .copied 1 true true true] := by
  apply responses_not_stolen
  refine ⟨⟨fun _ _ => not_false, rfl⟩, rfl, ⟨rfl, 1, _, _, _, rfl⟩, rfl, ⟨rfl, nofun, ?_⟩, trivial⟩
  intro _
  rfl

/-- Process 1 frees the response that process 2 waits for. -/
theorem responses_not_stolen_fails : ¬∀ id es,
    Every step (fun s e => (s.step e).Sound ∧ s.Unstolen e) (boot id) es := by
  intro h
  have hs := (h 7 [.rkioctl 1 .PIOC true true, .rkioctl 2 .PIOC true true,
    .rkdrput ⟨8, 0, 0, 0⟩ true, .wake 1 true true]).2.2.2.1.2
  exact hs _ _ _ _ rfl rfl (by decide) 2 _ _ rfl

end Rkd
end HydraAmix.Kdb
