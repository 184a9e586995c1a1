import HydraAmix.Disk.DdStrategy
import HydraAmix.Library.Schedule

/-!
# Concurrent partition opens

All opens read through one block buffer and one `buf` behind a busy flag. The flag
is released before the block is looked at, but a process that has released it does
not sleep until it has taken what it needs, or has the flag again for its next
read.

A step of a process goes from where it wakes up to where it sleeps next. Where the
fields of the on-disk blocks are is a parameter, since the header that says so is
not part of the driver. A block is the longs from its first one on: the checksum
may go past its end, but the fields are inside.
-/
namespace HydraAmix.Disk
open Schedule

abbrev Block := ℕ → Long

/-- The positions of the fields, in longs. -/
structure Layout where
  rdb_ID : ℕ
  rdb_SummedLongs : ℕ
  rdb_PartitionList : ℕ
  rdb_CylBlocks : ℕ
  pb_ID : ℕ
  pb_SummedLongs : ℕ
  pb_Next : ℕ
  pb_Environment : ℕ
  DE_LOWCYL : ℕ
  DE_UPPERCYL : ℕ

def ENXIO : ℕ := 6
def EIO : ℕ := 5

def checksum (p : Block) (n : ℕ) : Bool :=
  ((List.range n).foldl (fun a i => a + p i) 0#32) = 0#32

/-- How a transfer ended. -/
structure IoStatus where
  error : Bool
  resid : ℕ
  errno : ℕ

/-- What `read` returns. -/
def IoStatus.code (st : IoStatus) : ℕ :=
  if st.error ∨ st.resid ≠ 0 then (if st.errno ≠ 0 then st.errno else EIO) else 0

/-- What `sdpartition` returns, and stores if it does. -/
inductive Result
  | fail (error : ℕ)
  | ok (stored : Option Partition)

/-- The read that a process is at: in `getrdb` with its `i`, or in `getpb` with the
locals of `sdpartition`. -/
inductive Place
  | rdb (i : ℕ)
  | pb (sperc a : Long) (pa : ℕ)

def Place.bno : Place → Long
  | .rdb i => BitVec.ofNat 32 i
  | .pb _ a _ => a

/-- A block that was read, and where. -/
structure Read where
  edev : Minor
  bno : Long
  block : Block
  status : IoStatus

section
variable (f : Layout) (dev : Minor)

/-- The test at the head of the loop. -/
def atHead (sperc a : Long) (pa : ℕ) : Place ⊕ Result :=
  if a = -1 then .inr (.fail ENXIO) else .inl (.pb sperc a pa)

/-- What `sdpartition` computes from the last partition block. -/
def partitionOf (sperc : Long) (pb : Block) : Partition where
  base := pb (f.pb_Environment + f.DE_LOWCYL) * sperc
  len := (pb (f.pb_Environment + f.DE_UPPERCYL) + 1 - pb (f.pb_Environment + f.DE_LOWCYL)) * sperc

/-- From the end of a read to the next one, or to the end. -/
def after (pl : Place) (block : Block) (status : IoStatus) : Place ⊕ Result :=
  if status.code ≠ 0 then .inr (.fail status.code)
  else
    match pl with
    | .rdb i =>
      if block f.rdb_ID = 0x5244534b#32 ∧ checksum block (block f.rdb_SummedLongs).toNat then
        atHead (block f.rdb_CylBlocks) (block f.rdb_PartitionList) 0
      else if i + 1 < 16 then .inl (.rdb (i + 1))
      else .inr (.fail ENXIO)
    | .pb sperc _ pa =>
      if block f.pb_ID = 0x50415254#32 ∧ checksum block (block f.pb_SummedLongs).toNat then
        if pa + 1 < (sdpart dev).toNat then atHead sperc (block f.pb_Next) (pa + 1)
        else .inr (.ok (some (partitionOf f sperc block)))
      else .inr (.fail ENXIO)

/-- `sdpartition` on its own: what it comes to from reads that are each for the drive of
`dev` and for the block it asks for. -/
def alone : Place → List Read → Option (Place ⊕ Result)
  | pl, [] => some (.inl pl)
  | pl, r :: rs =>
    if r.edev = sddev0p dev ∧ r.bno = pl.bno then
      match after f dev pl r.block r.status with
      | .inl pl' => alone pl' rs
      | .inr res => if rs.isEmpty then some (.inr res) else none
    else none

/-- One more read. -/
theorem alone_append {pl pl' : Place} {l : List Read} {r : Read}
    (h : alone f dev pl l = some (.inl pl')) (hr : r.edev = sddev0p dev ∧ r.bno = pl'.bno) :
    alone f dev pl (l ++ [r]) = some (after f dev pl' r.block r.status) := by
  induction l generalizing pl with
  | nil =>
      obtain rfl : pl = pl' := Sum.inl.inj (Option.some.inj h)
      change (if r.edev = sddev0p dev ∧ r.bno = pl.bno then _ else _) = _
      rw [if_pos hr]
      cases after f dev pl r.block r.status <;> rfl
  | cons x l ih =>
      rw [List.cons_append]
      unfold alone at h ⊢
      by_cases hx : x.edev = sddev0p dev ∧ x.bno = pl.bno
      · rw [if_pos hx] at h ⊢
        cases ha : after f dev pl x.block x.status with
        | inl pl₁ =>
            rw [ha] at h
            exact ih h
        | inr res =>
            rw [ha] at h
            simp only at h
            split_ifs at h
            exact absurd (Option.some.inj h) nofun
      · rw [if_neg hx] at h
        exact absurd h nofun

end

/-- Where a process sleeps. -/
inductive Pc
  | out
  | waitBusy (pl : Place)
  | waitDone (pl : Place)
  | ret (r : Result)

/-- The processes, with the reads that were made for each, and what they share:
the flag, the `buf`, the block, and for whom a transfer is under way. -/
structure Opens (ι : Type) where
  pc : ι → Pc
  dev : ι → Minor
  reads : ι → List Read
  busy : Bool
  edev : Minor
  blkno : Long
  done : Bool
  status : IoStatus
  block : Block
  io : Option ι
  partab : Partab

namespace Opens

variable {ι : Type} [DecidableEq ι]

def setPc (s : Opens ι) (p : ι) (pc : Pc) : Opens ι := { s with pc := Function.update s.pc p pc }

def enter (s : Opens ι) (p : ι) (dev : Minor) : Opens ι :=
  { s with dev := Function.update s.dev p dev, reads := Function.update s.reads p [] }

/-- From `busy = TRUE` to the sleep for `B_DONE`. -/
def take (s : Opens ι) (p : ι) (pl : Place) : Opens ι :=
  { s with
    busy := true, edev := sddev0p (s.dev p), blkno := pl.bno, done := false, io := some p
    pc := Function.update s.pc p (.waitDone pl) }

def release (s : Opens ι) : Opens ι := { s with busy := false }

def finish (s : Opens ι) (p : ι) (r : Result) : Opens ι :=
  match r with
  | .ok (some v) => { s with partab := Function.update s.partab (s.dev p) v }.setPc p (.ret r)
  | _ => s.setPc p (.ret r)

/-- The transfer is done. -/
def iodone (s : Opens ι) (block : Block) (status : IoStatus) : Opens ι :=
  match s.io with
  | none => s
  | some p =>
    { s with
      block := block, done := true, status := status, io := none
      reads := Function.update s.reads p (s.reads p ++ [⟨s.edev, s.blkno, block, status⟩]) }

variable (f : Layout)

/-- A process goes on until it sleeps. -/
def run (s : Opens ι) (p : ι) : Opens ι :=
  match s.pc p with
  | .waitBusy pl => if s.busy then s else s.take p pl
  | .waitDone pl =>
    if s.done = false then s
    else
      let s := s.release
      match after f (s.dev p) pl s.block s.status with
      | .inl pl' => s.take p pl'
      | .inr r => s.finish p r
  | _ => s

inductive Event (ι : Type)
  /-- A process calls `sdpartition`. -/
  | call (p : ι) (dev : Minor)
  | run (p : ι)
  | iodone (block : Block) (status : IoStatus)

def step (s : Opens ι) : Event ι → Opens ι
  | .call p dev =>
    match s.pc p with
    | .waitBusy _ | .waitDone _ => s
    | _ =>
      let s := s.enter p dev
      if sdpart dev = 0 then s.setPc p (.ret (.ok none)) else s.setPc p (.waitBusy (.rdb 0))
  | .run p => s.run f p
  | .iodone block status => s.iodone block status

/-- Nobody is in `sdpartition`. -/
structure Quiet (s : Opens ι) : Prop where
  pc : ∀ p, s.pc p = .out
  busy : s.busy = false
  io : s.io = none

/-- The process uses the shared `buf`. -/
def Uses (s : Opens ι) (p : ι) : Prop := ∃ pl, s.pc p = .waitDone pl

/-- What a process returned is what `sdpartition` alone comes to from the reads that were
made for it. -/
def Own (s : Opens ι) (p : ι) (r : Result) : Prop :=
  sdpart (s.dev p) = 0 ∧ r = .ok none ∨
    alone f (s.dev p) (.rdb 0) (s.reads p) = some (.inr r)

structure Sound (s : Opens ι) : Prop where
  apart : ∀ p q, s.Uses p → s.Uses q → p = q
  own : ∀ p r, s.pc p = .ret r → s.Own f p r

/-- What a process that returns in this step with something to store has stored. -/
def Stored (s : Opens ι) (e : Event ι) : Prop :=
  ∀ p v, (∀ r, s.pc p ≠ .ret r) → (s.step f e).pc p = .ret (.ok (some v)) →
    (s.step f e).partab (s.dev p) = v

/-- The invariant: whoever waits for the `buf` is the only one, and it is for their read. -/
structure Inv (s : Opens ι) : Prop where
  busy : ∀ p, s.Uses p → s.busy = true
  apart : ∀ p q, s.Uses p → s.Uses q → p = q
  asked : ∀ p pl, s.pc p = .waitDone pl → s.edev = sddev0p (s.dev p) ∧ s.blkno = pl.bno
  flight : ∀ p pl, s.pc p = .waitDone pl → s.done = false →
    s.io = some p ∧ alone f (s.dev p) (.rdb 0) (s.reads p) = some (.inl pl)
  landed : ∀ p pl, s.pc p = .waitDone pl → s.done = true → s.io = none ∧
    ∃ l, s.reads p = l ++ [⟨s.edev, s.blkno, s.block, s.status⟩] ∧
      alone f (s.dev p) (.rdb 0) l = some (.inl pl)
  io : ∀ p, s.io = some p → s.Uses p
  waiting : ∀ p pl, s.pc p = .waitBusy pl →
    alone f (s.dev p) (.rdb 0) (s.reads p) = some (.inl pl)
  own : ∀ p r, s.pc p = .ret r → s.Own f p r

variable {f} {s : Opens ι} {p : ι}

theorem take_self (pl : Place) : (s.take p pl).pc p = .waitDone pl :=
  Function.update_self p _ s.pc

theorem take_of_ne {q : ι} (h : q ≠ p) (pl : Place) : (s.take p pl).pc q = s.pc q :=
  Function.update_of_ne h _ s.pc

/-- A process without the `buf` changes its place. -/
theorem Inv.setPc (h : s.Inv f) (hp : ¬ s.Uses p) {pc : Pc} (hpc : ∀ pl, pc ≠ .waitDone pl)
    {t : Opens ι} (hpcs : t.pc = Function.update s.pc p pc)
    (hdev : ∀ q, q ≠ p → t.dev q = s.dev q) (hreads : ∀ q, q ≠ p → t.reads q = s.reads q)
    (hsame : t.busy = s.busy ∧ t.edev = s.edev ∧ t.blkno = s.blkno ∧ t.done = s.done ∧
      t.status = s.status ∧ t.block = s.block ∧ t.io = s.io)
    (hwait : ∀ pl, pc = .waitBusy pl →
      alone f (t.dev p) (.rdb 0) (t.reads p) = some (.inl pl))
    (hret : ∀ r, pc = .ret r → t.Own f p r) : t.Inv f := by
  obtain ⟨hbusy, hedev, hblkno, hdone, hstatus, hblock, hio⟩ := hsame
  have hself : t.pc p = pc := by rw [hpcs, Function.update_self]
  have hother : ∀ q, q ≠ p → t.pc q = s.pc q := fun q hq => by
    rw [hpcs, Function.update_of_ne hq]
  have hne : ∀ q pl, t.pc q = .waitDone pl → q ≠ p := by
    rintro q pl hq rfl
    exact hpc pl (hself.symm.trans hq)
  have huses : ∀ q, t.Uses q → s.Uses q := by
    rintro q ⟨pl, hq⟩
    exact ⟨pl, (hother q (hne q pl hq)).symm.trans hq⟩
  refine ⟨fun q hq => ?_, fun q q' hq hq' => h.apart q q' (huses q hq) (huses q' hq'),
    fun q pl hq => ?_, fun q pl hq hd => ?_, fun q pl hq hd => ?_, fun q hq => ?_,
    fun q pl hq => ?_, fun q r hq => ?_⟩
  · rw [hbusy]
    exact h.busy q (huses q hq)
  · have hqp := hne q pl hq
    rw [hedev, hblkno, hdev q hqp]
    exact h.asked q pl ((hother q hqp).symm.trans hq)
  · have hqp := hne q pl hq
    rw [hio, hdev q hqp, hreads q hqp]
    exact h.flight q pl ((hother q hqp).symm.trans hq) (hdone ▸ hd)
  · have hqp := hne q pl hq
    rw [hio, hdev q hqp, hreads q hqp, hedev, hblkno, hblock, hstatus]
    exact h.landed q pl ((hother q hqp).symm.trans hq) (hdone ▸ hd)
  · rw [hio] at hq
    obtain ⟨pl, hpl⟩ := h.io q hq
    have hqp : q ≠ p := by
      rintro rfl
      exact hp ⟨pl, hpl⟩
    exact ⟨pl, (hother q hqp).trans hpl⟩
  · by_cases hqp : q = p
    · subst hqp
      exact hwait pl (hself.symm.trans hq)
    · rw [hdev q hqp, hreads q hqp]
      exact h.waiting q pl ((hother q hqp).symm.trans hq)
  · by_cases hqp : q = p
    · subst hqp
      exact hret r (hself.symm.trans hq)
    · have hown := h.own q r ((hother q hqp).symm.trans hq)
      unfold Own at hown ⊢
      rw [hdev q hqp, hreads q hqp]
      exact hown

/-- A process takes the `buf`, which nobody else uses. -/
theorem Inv.take {pl : Place} (hfree : ∀ q, q ≠ p → ¬ s.Uses q)
    (hwaiting : ∀ q pl, q ≠ p → s.pc q = .waitBusy pl →
      alone f (s.dev q) (.rdb 0) (s.reads q) = some (.inl pl))
    (hown : ∀ q r, q ≠ p → s.pc q = .ret r → s.Own f q r)
    (hplace : alone f (s.dev p) (.rdb 0) (s.reads p) = some (.inl pl)) :
    (s.take p pl).Inv f := by
  have hself := take_self (s := s) (p := p) pl
  have hother : ∀ q, q ≠ p → (s.take p pl).pc q = s.pc q := fun q hq => take_of_ne hq pl
  have honly : ∀ q, (s.take p pl).Uses q → q = p := by
    rintro q ⟨pl', hq⟩
    by_contra hqp
    exact hfree q hqp ⟨pl', (hother q hqp).symm.trans hq⟩
  refine ⟨fun _ _ => rfl, fun q q' hq hq' => (honly q hq).trans (honly q' hq').symm,
    fun q pl' hq => ?_, fun q pl' hq _ => ?_, fun q pl' hq hd => absurd hd nofun, fun q hq => ?_,
    fun q pl' hq => ?_, fun q r hq => ?_⟩
  · obtain rfl := honly q ⟨pl', hq⟩
    obtain rfl : pl = pl' := Pc.waitDone.inj (hself.symm.trans hq)
    exact ⟨rfl, rfl⟩
  · obtain rfl := honly q ⟨pl', hq⟩
    obtain rfl : pl = pl' := Pc.waitDone.inj (hself.symm.trans hq)
    exact ⟨rfl, hplace⟩
  · obtain rfl := Option.some.inj hq
    exact ⟨pl, hself⟩
  · have hqp : q ≠ p := by
      rintro rfl
      exact absurd (hself.symm.trans hq) nofun
    exact hwaiting q pl' hqp ((hother q hqp).symm.trans hq)
  · have hqp : q ≠ p := by
      rintro rfl
      exact absurd (hself.symm.trans hq) nofun
    exact hown q r hqp ((hother q hqp).symm.trans hq)

/-- The process that uses the `buf` is done with it, and returns. -/
theorem Inv.finish (h : s.Inv f) (hp : s.Uses p) {r : Result}
    (hown : alone f (s.dev p) (.rdb 0) (s.reads p) = some (.inr r)) (hio : s.io = none) :
    (s.release.finish p r).Inv f := by
  have hpc : (s.release.finish p r).pc = Function.update s.pc p (.ret r) := by
    unfold Opens.finish
    split <;> rfl
  have hsame : (s.release.finish p r).dev = s.dev ∧ (s.release.finish p r).reads = s.reads ∧
      (s.release.finish p r).io = s.io := by
    unfold Opens.finish
    split <;> exact ⟨rfl, rfl, rfl⟩
  obtain ⟨hdev, hreads, hio'⟩ := hsame
  have hother : ∀ q, q ≠ p → (s.release.finish p r).pc q = s.pc q := fun q hq => by
    rw [hpc, Function.update_of_ne hq]
  have hself : (s.release.finish p r).pc p = .ret r := by rw [hpc, Function.update_self]
  have hnone : ∀ q pl, (s.release.finish p r).pc q ≠ .waitDone pl := by
    intro q pl hq
    by_cases hqp : q = p
    · subst hqp
      exact absurd (hself.symm.trans hq) nofun
    · exact hqp (h.apart q p ⟨pl, (hother q hqp).symm.trans hq⟩ hp)
  refine ⟨fun q ⟨pl, hq⟩ => absurd hq (hnone q pl), fun q q' ⟨pl, hq⟩ => absurd hq (hnone q pl),
    fun q pl hq => absurd hq (hnone q pl), fun q pl hq => absurd hq (hnone q pl),
    fun q pl hq => absurd hq (hnone q pl), fun q hq => ?_, fun q pl hq => ?_, fun q r' hq => ?_⟩
  · rw [hio', hio] at hq
    exact absurd hq nofun
  · have hqp : q ≠ p := by
      rintro rfl
      exact absurd (hself.symm.trans hq) nofun
    rw [hdev, hreads]
    exact h.waiting q pl ((hother q hqp).symm.trans hq)
  · unfold Own
    rw [hdev, hreads]
    by_cases hqp : q = p
    · subst hqp
      obtain rfl := Pc.ret.inj (hself.symm.trans hq)
      exact .inr hown
    · exact h.own q r' ((hother q hqp).symm.trans hq)

/-- The step of a process. -/
theorem Inv.run (h : s.Inv f) (p : ι) : (s.run f p).Inv f := by
  unfold Opens.run
  split
  · rename_i pl hpc
    split_ifs with hbusy
    · exact h
    · refine Inv.take (fun q _ hq => hbusy (h.busy q hq)) (fun q pl _ hq => h.waiting q pl hq)
        (fun q r _ hq => h.own q r hq) (h.waiting p pl hpc)
  · rename_i pl hpc
    split_ifs with hdone
    · exact h
    · obtain ⟨hio, l, hreads, hplace⟩ := h.landed p pl hpc (by rwa [Bool.not_eq_false] at hdone)
      have hasked := h.asked p pl hpc
      have hnow := alone_append f (s.dev p) (r := ⟨s.edev, s.blkno, s.block, s.status⟩) hplace
        hasked
      rw [← hreads] at hnow
      change alone f (s.dev p) (.rdb 0) (s.reads p) =
        some (after f (s.dev p) pl s.block s.status) at hnow
      have huse : s.Uses p := ⟨pl, hpc⟩
      simp only [show s.release.dev p = s.dev p from rfl, show s.release.block = s.block from rfl,
        show s.release.status = s.status from rfl]
      cases ha : after f (s.dev p) pl s.block s.status with
      | inl pl' =>
          rw [ha] at hnow
          exact Inv.take (s := s.release) (fun q hq hu => hq (h.apart q p hu huse))
            (fun q pl _ hq => h.waiting q pl hq) (fun q r _ hq => h.own q r hq) hnow
      | inr r =>
          rw [ha] at hnow
          exact h.finish huse hnow hio
  · exact h

theorem Inv.iodone (h : s.Inv f) (block : Block) (status : IoStatus) :
    (s.iodone block status).Inv f := by
  unfold Opens.iodone
  split
  · exact h
  · rename_i p hp
    obtain ⟨pl, hpl⟩ := h.io p hp
    have honly : ∀ q pl', s.pc q = .waitDone pl' → q = p := fun q pl' hq =>
      h.apart q p ⟨pl', hq⟩ ⟨pl, hpl⟩
    have hdone : s.done = false := by
      by_contra hd
      rw [Bool.not_eq_false] at hd
      rw [(h.landed p pl hpl hd).1] at hp
      exact absurd hp nofun
    have hreads : ∀ q, q ≠ p → Function.update s.reads p (s.reads p ++
        [⟨s.edev, s.blkno, block, status⟩]) q = s.reads q := fun q hq =>
      Function.update_of_ne hq _ _
    refine ⟨h.busy, h.apart, h.asked, fun q pl' _ hd => absurd hd nofun, fun q pl' hq _ => ?_,
      nofun, fun q pl' hq => ?_, fun q r hq => ?_⟩
    · obtain rfl := honly q pl' hq
      exact ⟨rfl, s.reads q, Function.update_self _ _ _, (h.flight q pl' hq hdone).2⟩
    · have hqp : q ≠ p := by
        rintro rfl
        exact absurd (hpl.symm.trans hq) nofun
      change alone f (s.dev q) (.rdb 0) (Function.update s.reads p _ q) = _
      rw [hreads q hqp]
      exact h.waiting q pl' hq
    · have hqp : q ≠ p := by
        rintro rfl
        exact absurd (hpl.symm.trans hq) nofun
      change _ ∨ alone f (s.dev q) (.rdb 0) (Function.update s.reads p _ q) = _
      rw [hreads q hqp]
      exact h.own q r hq

theorem Inv.call (h : s.Inv f) (p : ι) (dev : Minor) : (s.step f (.call p dev)).Inv f := by
  have hfree : ¬ s.Uses p → ∀ {pc : Pc}, (∀ pl, pc ≠ .waitDone pl) →
      (∀ pl, pc = .waitBusy pl → pl = .rdb 0) →
      (∀ r, pc = .ret r → sdpart dev = 0 ∧ r = .ok none) →
      ((s.enter p dev).setPc p pc).Inv f := by
    intro hp pc hpc hwait hret
    refine h.setPc hp hpc rfl (fun q hq => Function.update_of_ne hq _ _)
      (fun q hq => Function.update_of_ne hq _ _) ⟨rfl, rfl, rfl, rfl, rfl, rfl, rfl⟩
      (fun pl hpl => ?_) (fun r hr => ?_)
    · change alone f _ (.rdb 0) (Function.update s.reads p [] p) = _
      rw [Function.update_self, hwait pl hpl]
      rfl
    · refine .inl ⟨?_, (hret r hr).2⟩
      change sdpart (Function.update s.dev p dev p) = 0
      rw [Function.update_self]
      exact (hret r hr).1
  unfold step
  simp only
  split
  · exact h
  · exact h
  · rename_i hbusy hdone
    have hp : ¬ s.Uses p := fun ⟨pl, hpl⟩ => hdone pl hpl
    split_ifs with hpart
    · exact hfree hp nofun nofun fun r hr => ⟨hpart, (Pc.ret.inj hr).symm⟩
    · exact hfree hp nofun (fun pl hpl => (Pc.waitBusy.inj hpl).symm) nofun

theorem Inv.step (h : s.Inv f) (e : Event ι) : (s.step f e).Inv f := by
  cases e with
  | call p dev => exact h.call p dev
  | run p => exact h.run p
  | iodone block status => exact h.iodone block status

/-- A process that returns with something to store has stored it. -/
theorem stored (s : Opens ι) (e : Event ι) : s.Stored f e := by
  intro p v hne hret
  cases e with
  | call q dev =>
      exfalso
      unfold step at hret
      simp only at hret
      by_cases hq : p = q
      · subst hq
        split at hret
        · exact hne _ hret
        · exact hne _ hret
        · split_ifs at hret
          · exact absurd (Pc.ret.inj ((Function.update_self p _ _).symm.trans hret)) nofun
          · exact absurd ((Function.update_self p _ _).symm.trans hret) nofun
      · split at hret
        · exact hne _ hret
        · exact hne _ hret
        · split_ifs at hret
          · exact hne _ ((Function.update_of_ne hq _ s.pc).symm.trans hret)
          · exact hne _ ((Function.update_of_ne hq _ s.pc).symm.trans hret)
  | iodone block status =>
      have hpc : (s.iodone block status).pc = s.pc := by
        unfold Opens.iodone
        split <;> rfl
      exact absurd ((congrFun hpc p).symm.trans hret) (hne _)
  | run q =>
      change (s.run f q).partab (s.dev p) = v
      change (s.run f q).pc p = _ at hret
      unfold Opens.run at hret ⊢
      have htake : ∀ t : Opens ι, t.pc = s.pc → ∀ pl, (t.take q pl).pc p ≠ .ret (.ok (some v)) := by
        intro t ht pl htaken
        by_cases hq : p = q
        · subst hq
          exact absurd ((take_self pl).symm.trans htaken) nofun
        · rw [take_of_ne hq, ht] at htaken
          exact hne _ htaken
      split at hret
      · split_ifs at hret
        · exact absurd hret (hne _)
        · exact absurd hret (htake s rfl _)
      · rename_i pl hpl
        split_ifs at hret with hdone
        · exact absurd hret (hne _)
        · simp only [if_neg hdone] at hret ⊢
          cases ha : after f (s.release.dev q) pl s.release.block s.release.status with
          | inl pl' =>
            rw [ha] at hret
            exact absurd hret (htake s.release rfl _)
          | inr r =>
            rw [ha] at hret
            change (s.release.finish q r).pc p = _ at hret
            change (s.release.finish q r).partab (s.dev p) = v
            have hpc : (s.release.finish q r).pc = Function.update s.pc q (.ret r) := by
              unfold Opens.finish
              split <;> rfl
            rw [hpc] at hret
            by_cases hq : p = q
            · subst hq
              rw [Function.update_self] at hret
              obtain rfl := Pc.ret.inj hret
              exact Function.update_self (s.dev p) v s.partab
            · rw [Function.update_of_ne hq] at hret
              exact absurd hret (hne _)
      · exact absurd hret (hne _)

/-- However many opens are interleaved, nobody shares the `buf`, and each returns and
stores what it would alone, from the blocks that were read for it from its own drive. -/
theorem partition_opens_apart (f : Layout) (s : Opens ι) (hs : s.Quiet) (es : List (Event ι)) :
    Every (step f) (fun s e => s.Stored f e ∧ (s.step f e).Sound f) s es := by
  have hstart : s.Inv f := by
    have hout : ∀ p pc, s.pc p = pc → pc = .out := fun p pc hpc => hpc.symm.trans (hs.pc p)
    refine ⟨fun p ⟨pl, hp⟩ => absurd (hout p _ hp) nofun,
      fun p q ⟨pl, hp⟩ => absurd (hout p _ hp) nofun, fun p pl hp => absurd (hout p _ hp) nofun,
      fun p pl hp => absurd (hout p _ hp) nofun, fun p pl hp => absurd (hout p _ hp) nofun,
      fun p hp => ?_, fun p pl hp => absurd (hout p _ hp) nofun,
      fun p r hp => absurd (hout p _ hp) nofun⟩
    rw [hs.io] at hp
    exact absurd hp nofun
  have hall : Every (Opens.step f) (fun _ _ => True) s es :=
    every_of_forall (fun _ _ => trivial) _ _
  exact every_of_invariant (Inv f) (fun s e h _ => h.step e)
    (fun s e h _ => ⟨stored s e, (h.step e).apart, (h.step e).own⟩) hstart hall

/-- Nobody is opening a partition. -/
def quiet : Opens Bool :=
  ⟨fun _ => .out, fun _ => 0#8, fun _ => [], false, 0#8, 0#32, false, ⟨false, 0, 0⟩, fun _ => 0#32,
    none, fun _ => ⟨0#32, 0#32⟩⟩

/-- Two processes open partitions of two drives; the second waits for the first one's read. -/
theorem partition_opens_apart_two :
    let f : Layout := ⟨0, 1, 7, 36, 0, 1, 4, 32, 9, 10⟩
    Every (step f) (fun s e => s.Stored f e ∧ (s.step f e).Sound f) quiet
      [.call false 0x10#8, .call true 0x21#8, .run false, .run true,
        .iodone (fun _ => 0#32) ⟨false, 0, 0⟩, .run false, .run true] :=
  partition_opens_apart _ quiet ⟨fun _ => rfl, rfl, rfl⟩ _

end Opens

end HydraAmix.Disk
