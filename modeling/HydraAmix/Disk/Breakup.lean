import HydraAmix.Library.Word
import Mathlib.Data.List.Basic
import Mathlib.Data.Nat.Init

/-!
# Breaking up a raw transfer

`amiga_dma_pageio` hands a request to the strategy routine in pieces of a page at most, and
copies between the page and the caller's buffer. Memory is given by addresses and the device
by blocks of 512 bytes, whose numbers have 32 bits.

The log has what became of each turn of the loop: the bytes that it moved, a piece that
failed, or a fault of the user's memory. A piece that failed leaves anything in what it was
to store into, and a fault what was copied before it.
-/
namespace HydraAmix.Disk.Breakup
open Word

abbrev EAGAIN : ℕ := 11
abbrev EFAULT : ℕ := 14

/-- What the caller's `buf` asks for. -/
structure Request where
  read : Bool
  kernbuf : Bool
  b_bcount : ℕ
  b_blkno : Word.Long
  b_addr : ℕ

/-- How a piece ends: with a residue, which is what is left of it after so many sectors, or
with B_ERROR. -/
inductive Outcome where
  | done (sectors : ℕ)
  | error (b_error : ℕ) (junk : ℕ → Byte)

inductive Event where
  | moved (n : ℕ)
  | failed
  | fault

def Event.bytes : Event → ℕ
  | moved n => n
  | failed => 0
  | fault => 0

/-- The bytes that were moved. -/
def total (log : List Event) : ℕ := log.foldr (fun e n => e.bytes + n) 0

abbrev Device := Word.Long → ℕ → Byte

/-- The caller's `buf`, the page, the memory and the device. -/
structure Xfer where
  b_resid : ℕ
  b_blkno : Word.Long
  b_addr : ℕ
  b_error : ℕ
  error : Bool
  done : Bool
  page : ℕ → Byte
  user : ℕ → Byte
  disk : Device
  log : List Event

/-- The `i`-th byte from a block on. -/
def deviceByte (disk : Device) (blkno : Word.Long) (i : ℕ) : Byte :=
  disk (blkno + BitVec.ofNat 32 (i / 512)) (i % 512)

/-- `n` bytes are stored from a block on. -/
def storeBytes (disk : Device) (blkno : Word.Long) (n : ℕ) (page : ℕ → Byte) : Device := fun b j =>
  if j < 512 ∧ 512 * (b - blkno).toNat + j < n then page (512 * (b - blkno).toNat + j)
  else disk b j

def btod (n : ℕ) : Word.Long := BitVec.ofNat 32 (n / 512)

namespace Xfer

def note (e : Event) (s : Xfer) : Xfer := { s with log := s.log ++ [e] }

/-- `n` bytes of the page go to the caller. -/
def copyOut (n : ℕ) (s : Xfer) : Xfer :=
  { s with user := fun a =>
      if s.b_addr ≤ a ∧ a < s.b_addr + n then s.page (a - s.b_addr) else s.user a }

/-- `n` bytes of the caller go to the page. -/
def copyIn (n : ℕ) (s : Xfer) : Xfer :=
  { s with page := fun i => if i < n then s.user (s.b_addr + i) else s.page i }

/-- The device fills the page up to `n`. -/
def fill (n : ℕ) (s : Xfer) : Xfer :=
  { s with page := fun i => if i < n then deviceByte s.disk s.b_blkno i else s.page i }

/-- The device takes the page up to `n`. -/
def store (n : ℕ) (s : Xfer) : Xfer := { s with disk := storeBytes s.disk s.b_blkno n s.page }

/-- The end of the body of the loop. -/
def advance (n : ℕ) (s : Xfer) : Xfer :=
  { s with b_addr := s.b_addr + n, b_resid := s.b_resid - n, b_blkno := s.b_blkno + btod n }

/-- A user copy faulted. -/
def faulted (s : Xfer) : Xfer := { s with b_error := EFAULT, error := true }

/-- A piece ended with B_ERROR. -/
def pieceFailed (bcount b_error : ℕ) (s : Xfer) : Xfer :=
  if s.b_resid = bcount then { s with b_error := b_error, error := true } else s

end Xfer

/-- How many bytes are copied before a fault; memory of the kernel has none. -/
def faultOf (r : Request) (fault : Option ℕ) : Option ℕ := if r.kernbuf then none else fault

/-- A turn for a read, and whether the loop goes on. -/
def readTurn (r : Request) (o : Outcome) (fault : Option ℕ) (cc : ℕ) (s : Xfer) : Bool × Xfer :=
  match o with
  | .error e junk => (false, ({ s with page := junk }.pieceFailed r.b_bcount e).note .failed)
  | .done sectors =>
      let n := min (512 * sectors) cc
      let s := s.fill n
      if n = 0 then (false, s.note (.moved 0))
      else
        match faultOf r fault with
        | some m => (false, (s.copyOut (min m n)).faulted.note .fault)
        | none => (true, ((s.copyOut n).advance n).note (.moved n))

/-- A turn for a write. -/
def writeTurn (r : Request) (o : Outcome) (fault : Option ℕ) (cc : ℕ) (s : Xfer) : Bool × Xfer :=
  match faultOf r fault with
  | some m => (false, (s.copyIn (min m cc)).faulted.note .fault)
  | none =>
      let s := s.copyIn cc
      match o with
      | .error e junk =>
          (false, ({ s with disk := storeBytes s.disk s.b_blkno cc junk }.pieceFailed
            r.b_bcount e).note .failed)
      | .done sectors =>
          let n := min (512 * sectors) cc
          let s := s.store n
          if n = 0 then (false, s.note (.moved 0))
          else (true, (s.advance n).note (.moved n))

def turn (r : Request) (o : Outcome) (fault : Option ℕ) (cc : ℕ) (s : Xfer) : Bool × Xfer :=
  if r.read then readTurn r o fault cc s else writeTurn r o fault cc s

/-- A turn after which the loop goes on. -/
theorem turn_on {r : Request} {o : Outcome} {fault : Option ℕ} {cc : ℕ} {s t : Xfer}
    (h : turn r o fault cc s = (true, t)) :
    ∃ sectors, min (512 * sectors) cc ≠ 0 ∧
      t.b_resid = s.b_resid - min (512 * sectors) cc := by
  unfold turn at h
  split at h
  · unfold readTurn at h
    split at h
    · cases h
    · dsimp only at h
      split at h
      · cases h
      · split at h
        · cases h
        · cases h
          exact ⟨_, by assumption, rfl⟩
  · unfold writeTurn at h
    split at h
    · cases h
    · dsimp only at h
      split at h
      · cases h
      · split at h
        · cases h
        · cases h
          exact ⟨_, by assumption, rfl⟩

/-- The loop, from its `k`-th turn on. -/
def loop (NBPP : ℕ) (r : Request) (outcomes : ℕ → Outcome) (faults : ℕ → Option ℕ) (k : ℕ)
    (s : Xfer) : Xfer :=
  let cc := min s.b_resid NBPP
  if cc = 0 then s
  else
    match _h : turn r (outcomes k) (faults k) cc s with
    | (true, t) => loop NBPP r outcomes faults (k + 1) t
    | (false, t) => t
termination_by s.b_resid
decreasing_by
  obtain ⟨sectors, hn, ht⟩ := turn_on _h
  have := Nat.min_le_left s.b_resid NBPP
  omega

/-- Whether `ngeteblk` has a page comes from outside. -/
def amiga_dma_pageio (NBPP : ℕ) (buffer : Bool) (outcomes : ℕ → Outcome) (faults : ℕ → Option ℕ)
    (r : Request) (page user : ℕ → Byte) (disk : Device) : Xfer :=
  let s : Xfer := ⟨r.b_bcount, r.b_blkno, r.b_addr, 0, false, false, page, user, disk, []⟩
  if buffer = false then { s with error := true, done := true, b_error := EAGAIN }
  else { loop NBPP r outcomes faults 0 s with done := true }

/-- A piece failed before any byte was moved. -/
def FailedFirst (log : List Event) : Prop := ∃ l l', log = l ++ .failed :: l' ∧ total l = 0

/-- The accounts agree with what was moved. -/
structure Accurate (buffer : Bool) (r : Request) (user : ℕ → Byte) (disk : Device) (s : Xfer) :
    Prop where
  resid : s.b_resid + total s.log = r.b_bcount
  read : r.read = true → s.disk = disk ∧
    ∀ i < total s.log, s.user (r.b_addr + i) = deviceByte disk r.b_blkno i
  write : r.read = false → s.user = user ∧
    ∀ i < total s.log, deviceByte s.disk r.b_blkno i = user (r.b_addr + i)
  error : s.error = true ↔ buffer = false ∨ .fault ∈ s.log ∨ FailedFirst s.log

/-! ### Bytes and blocks -/

theorem total_append (log : List Event) (e : Event) : total (log ++ [e]) = total log + e.bytes := by
  induction log with
  | nil => exact Nat.add_comm e.bytes 0
  | cons d log ih =>
      change d.bytes + total (log ++ [e]) = d.bytes + total log + e.bytes
      rw [ih, Nat.add_assoc]

theorem deviceByte_add (disk : Device) (b : Word.Long) {m : ℕ} (hm : 512 ∣ m) (i : ℕ) :
    deviceByte disk (b + BitVec.ofNat 32 (m / 512)) i = deviceByte disk b (m + i) := by
  obtain ⟨q, rfl⟩ := hm
  have hdiv : (512 * q + i) / 512 = q + i / 512 := by omega
  have hmod : (512 * q + i) % 512 = i % 512 := by omega
  unfold deviceByte
  rw [hdiv, hmod, Nat.mul_div_cancel_left q (by decide), BitVec.ofNat_add, BitVec.add_assoc]

/-- What is stored from a later block on is read from there, and nothing else is changed. -/
theorem deviceByte_store (disk : Device) (b : Word.Long) (page : ℕ → Byte) {m n i : ℕ}
    (hm : 512 ∣ m) (hn : m + n < 4294967296) (hi : i < 4294967296) :
    deviceByte (storeBytes disk (b + BitVec.ofNat 32 (m / 512)) n page) b i =
      if m ≤ i ∧ i < m + n then page (i - m) else deviceByte disk b i := by
  obtain ⟨q, rfl⟩ := hm
  have hdist : (b + BitVec.ofNat 32 (i / 512) - (b + BitVec.ofNat 32 q)).toNat =
      (4294967296 - q + i / 512) % 4294967296 := by
    have hb := b.isLt
    simp only [BitVec.toNat_sub, BitVec.toNat_add, BitVec.toNat_ofNat, Nat.reducePow] at hb ⊢
    omega
  have hmod : i % 512 < 512 := Nat.mod_lt i (by decide)
  unfold deviceByte storeBytes
  rw [Nat.mul_div_cancel_left q (by decide), hdist]
  by_cases hin : 512 * q ≤ i ∧ i < 512 * q + n
  · have hpos : 512 * ((4294967296 - q + i / 512) % 4294967296) + i % 512 = i - 512 * q := by omega
    rw [if_pos hin, hpos]
    exact if_pos ⟨hmod, by omega⟩
  · have hout : ¬512 * ((4294967296 - q + i / 512) % 4294967296) + i % 512 < n := by omega
    rw [if_neg hin]
    exact if_neg fun h => hout h.2

/-! ### The loop -/

/-- Before a turn everything that was moved is in its place. -/
structure Inv (r : Request) (user : ℕ → Byte) (disk : Device) (s : Xfer) : Prop where
  resid : s.b_resid + total s.log = r.b_bcount
  sectors : 512 ∣ total s.log
  addr : s.b_addr = r.b_addr + total s.log
  blkno : s.b_blkno = r.b_blkno + BitVec.ofNat 32 (total s.log / 512)
  error : s.error = false
  moved : ∀ e ∈ s.log, ∃ n, e = .moved n
  read : r.read = true → s.disk = disk ∧
    ∀ i < total s.log, s.user (r.b_addr + i) = deviceByte disk r.b_blkno i
  write : r.read = false → s.user = user ∧
    ∀ i < total s.log, deviceByte s.disk r.b_blkno i = user (r.b_addr + i)

section
variable {r : Request} {user : ℕ → Byte} {disk : Device} {s t : Xfer}

theorem Inv.no_fault (h : Inv r user disk s) : .fault ∉ s.log := fun he => by
  obtain ⟨n, hn⟩ := h.moved _ he
  cases hn

theorem Inv.no_failed (h : Inv r user disk s) : .failed ∉ s.log := fun he => by
  obtain ⟨n, hn⟩ := h.moved _ he
  cases hn

theorem failedFirst_append {log : List Event} (hlog : .failed ∉ log) :
    FailedFirst (log ++ [.failed]) ↔ total log = 0 := by
  constructor
  · rintro ⟨l, l', heq, hl⟩
    obtain ⟨rfl, -, -⟩ := (List.append_cons_inj_of_notMem hlog List.not_mem_nil).mp heq
    exact hl
  · intro h
    exact ⟨log, [], rfl, h⟩

theorem not_failedFirst {log : List Event} (hlog : .failed ∉ log) : ¬FailedFirst log := by
  rintro ⟨l, l', rfl, -⟩
  exact hlog (List.mem_append_right l List.mem_cons_self)

/-- The loop ends in a turn that moves nothing. -/
theorem Inv.stop (h : Inv r user disk s) {e : Event} (he : e.bytes = 0)
    (hlog : t.log = s.log ++ [e]) (hresid : t.b_resid = s.b_resid)
    (hread : r.read = true → t.disk = s.disk ∧ ∀ a < s.b_addr, t.user a = s.user a)
    (hwrite : r.read = false → t.user = s.user ∧ ∀ i < total s.log,
      deviceByte t.disk r.b_blkno i = deviceByte s.disk r.b_blkno i)
    (herror : t.error = true ↔ e = .fault ∨ e = .failed ∧ total s.log = 0) :
    Accurate true r user disk t := by
  have htotal : total t.log = total s.log := by rw [hlog, total_append, he, Nat.add_zero]
  refine ⟨by rw [hresid, htotal, h.resid], fun hr => ?_, fun hr => ?_, ?_⟩
  · obtain ⟨hdisk, huser⟩ := hread hr
    rw [hdisk, htotal]
    refine ⟨(h.read hr).1, fun i hi => ?_⟩
    rw [huser _ (by rw [h.addr]; exact Nat.add_lt_add_left hi _)]
    exact (h.read hr).2 i hi
  · obtain ⟨huser, hdisk⟩ := hwrite hr
    rw [huser, htotal]
    refine ⟨(h.write hr).1, fun i hi => ?_⟩
    rw [hdisk i hi]
    exact (h.write hr).2 i hi
  · rw [herror, hlog]
    cases e with
    | fault => simp
    | failed =>
        rw [failedFirst_append h.no_failed, List.mem_append, List.mem_singleton]
        simp [h.no_fault]
    | moved n =>
        have hno : Event.failed ∉ s.log ++ [.moved n] := by simp [h.no_failed]
        simp [h.no_fault, not_failedFirst hno]

theorem pieceFailed_error (h : Inv r user disk s) {u : Xfer} (hu : u.error = s.error)
    (hresid : u.b_resid = s.b_resid) (e : ℕ) :
    (u.pieceFailed r.b_bcount e).error = true ↔ total s.log = 0 := by
  have hsum := h.resid
  unfold Xfer.pieceFailed
  split
  · exact iff_of_true rfl (by omega)
  · rw [hu, h.error]
    exact iff_of_false (by decide) (by omega)

theorem Xfer.pieceFailed_same (u : Xfer) (b e : ℕ) :
    (u.pieceFailed b e).user = u.user ∧ (u.pieceFailed b e).disk = u.disk ∧
      (u.pieceFailed b e).b_resid = u.b_resid ∧ (u.pieceFailed b e).log = u.log := by
  unfold Xfer.pieceFailed
  split <;> exact ⟨rfl, rfl, rfl, rfl⟩

theorem Xfer.copyOut_below (u : Xfer) (n : ℕ) {a : ℕ} (h : a < u.b_addr) :
    (u.copyOut n).user a = u.user a := if_neg fun hin => Nat.not_le.mpr h hin.1

/-- The loop goes on after a turn that moved `n` bytes. -/
theorem Inv.go (h : Inv r user disk s) {n : ℕ} (hn : n ≤ s.b_resid) (h512 : 512 ∣ n)
    (hlog : t.log = s.log ++ [.moved n]) (hresid : t.b_resid = s.b_resid - n)
    (haddr : t.b_addr = s.b_addr + n) (hblkno : t.b_blkno = s.b_blkno + btod n)
    (herror : t.error = s.error)
    (hread : r.read = true → t.disk = s.disk ∧ ∀ i < total s.log + n, t.user (r.b_addr + i) =
      if total s.log ≤ i then deviceByte s.disk s.b_blkno (i - total s.log)
      else s.user (r.b_addr + i))
    (hwrite : r.read = false → t.user = s.user ∧ ∀ i < total s.log + n,
      deviceByte t.disk r.b_blkno i =
        if total s.log ≤ i then s.user (s.b_addr + (i - total s.log))
        else deviceByte s.disk r.b_blkno i) : Inv r user disk t := by
  have htotal : total t.log = total s.log + n := by
    rw [hlog, total_append]
    rfl
  have hsum := h.resid
  refine ⟨by omega, by rw [htotal]; exact Nat.dvd_add h.sectors h512, by rw [haddr, h.addr, htotal,
    Nat.add_assoc], ?_, by rw [herror, h.error], fun e he => ?_, fun hr => ?_, fun hr => ?_⟩
  · obtain ⟨p, hp⟩ := h.sectors
    obtain ⟨q, rfl⟩ := h512
    have hdiv : (512 * p + 512 * q) / 512 = p + q := by omega
    rw [hblkno, h.blkno, htotal, hp, hdiv, BitVec.ofNat_add, ← BitVec.add_assoc]
    unfold btod
    rw [Nat.mul_div_cancel_left p (by decide), Nat.mul_div_cancel_left q (by decide)]
  · rw [hlog] at he
    rcases List.mem_append.mp he with he | he
    · exact h.moved e he
    · exact ⟨n, List.mem_singleton.mp he⟩
  · obtain ⟨hdisk, huser⟩ := hread hr
    rw [hdisk, htotal]
    refine ⟨(h.read hr).1, fun i hi => ?_⟩
    rw [huser i hi]
    split
    · rename_i hle
      rw [h.blkno, deviceByte_add _ _ h.sectors, Nat.add_sub_cancel' hle, (h.read hr).1]
    · rename_i hlt
      exact (h.read hr).2 i (Nat.not_le.mp hlt)
  · obtain ⟨huser, hdisk⟩ := hwrite hr
    rw [huser, htotal]
    refine ⟨(h.write hr).1, fun i hi => ?_⟩
    rw [hdisk i hi]
    split
    · rename_i hle
      rw [h.addr, Nat.add_assoc, Nat.add_sub_cancel' hle, (h.write hr).1]
    · rename_i hlt
      exact (h.write hr).2 i (Nat.not_le.mp hlt)

theorem dvd_piece {cc : ℕ} (h : 512 ∣ cc) (sectors : ℕ) : 512 ∣ min (512 * sectors) cc := by
  rcases Nat.le_total (512 * sectors) cc with hle | hle
  · rw [Nat.min_eq_left hle]
    exact Nat.dvd_mul_right 512 sectors
  · rw [Nat.min_eq_right hle]
    exact h

/-- What a turn has to leave, whether the loop goes on or not. -/
def Turned (r : Request) (user : ℕ → Byte) (disk : Device) (x : Bool × Xfer) : Prop :=
  if x.1 then Inv r user disk x.2 else Accurate true r user disk x.2

/-- The caller gets what the device filled the page with. -/
theorem Inv.copyOut_fill (h : Inv r user disk s) {n i : ℕ} (hi : i < total s.log + n) :
    ((s.fill n).copyOut n).user (r.b_addr + i) =
      if total s.log ≤ i then deviceByte s.disk s.b_blkno (i - total s.log)
      else s.user (r.b_addr + i) := by
  change (if s.b_addr ≤ r.b_addr + i ∧ r.b_addr + i < s.b_addr + n then
    (s.fill n).page (r.b_addr + i - s.b_addr) else s.user (r.b_addr + i)) = _
  rw [h.addr]
  by_cases hle : total s.log ≤ i
  · have hpos : r.b_addr + i - (r.b_addr + total s.log) = i - total s.log := by omega
    rw [if_pos ⟨by omega, by omega⟩, if_pos hle, hpos]
    exact if_pos (by omega)
  · rw [if_neg fun hin => hle (Nat.le_of_add_le_add_left hin.1), if_neg hle]

/-- The device gets what the caller filled the page with. -/
theorem Inv.store_copyIn (h : Inv r user disk s) {n cc i : ℕ} (hn : n ≤ cc)
    (hcc : cc ≤ s.b_resid) (hbound : r.b_bcount < 4294967296) (hi : i < total s.log + n) :
    deviceByte ((s.copyIn cc).store n).disk r.b_blkno i =
      if total s.log ≤ i then s.user (s.b_addr + (i - total s.log))
      else deviceByte s.disk r.b_blkno i := by
  have hsum := h.resid
  change deviceByte (storeBytes s.disk s.b_blkno n (s.copyIn cc).page) r.b_blkno i = _
  rw [h.blkno, deviceByte_store _ _ _ h.sectors (by omega) (by omega)]
  by_cases hle : total s.log ≤ i
  · rw [if_pos ⟨hle, hi⟩, if_pos hle]
    exact if_pos (by omega)
  · rw [if_neg fun hin => hle hin.1, if_neg hle]

theorem readTurn_turned (h : Inv r user disk s) (hr : r.read = true) (o : Outcome)
    (fault : Option ℕ) {cc : ℕ} (hcc : cc ≤ s.b_resid) (h512 : 512 ∣ cc) :
    Turned r user disk (readTurn r o fault cc s) := by
  have hnot : ¬r.read = false := by rw [hr]; decide
  unfold readTurn
  cases o with
  | error e junk =>
      obtain ⟨huser, hdisk, hresid, hlog⟩ := Xfer.pieceFailed_same { s with page := junk } r.b_bcount e
      have herr := pieceFailed_error h (u := { s with page := junk }) rfl rfl e
      refine h.stop (e := .failed) rfl (congrArg (· ++ [Event.failed]) hlog) hresid
        (fun _ => ⟨hdisk, fun a _ => congrFun huser a⟩) (fun hw => absurd hw hnot) ?_
      exact herr.trans (by simp)
  | done sectors =>
      dsimp only
      split
      · refine h.stop (e := .moved 0) rfl rfl rfl (fun _ => ⟨rfl, fun a _ => rfl⟩)
          (fun hw => absurd hw hnot) ?_
        change s.error = true ↔ _
        simp [h.error]
      · split
        · rename_i m hm
          refine h.stop (e := .fault) rfl rfl rfl (fun _ => ⟨rfl, fun a ha => ?_⟩)
            (fun hw => absurd hw hnot) ?_
          · exact Xfer.copyOut_below (s.fill _) _ ha
          · exact iff_of_true rfl (.inl rfl)
        · refine h.go (Nat.le_trans (Nat.min_le_right ..) hcc) (dvd_piece h512 sectors) rfl rfl rfl rfl
            rfl (fun _ => ⟨rfl, fun i hi => ?_⟩) (fun hw => absurd hw hnot)
          exact h.copyOut_fill hi

theorem writeTurn_turned (h : Inv r user disk s) (hw : r.read = false)
    (hbound : r.b_bcount < 4294967296) (o : Outcome) (fault : Option ℕ) {cc : ℕ}
    (hcc : cc ≤ s.b_resid) (h512 : 512 ∣ cc) :
    Turned r user disk (writeTurn r o fault cc s) := by
  have hnot : ¬r.read = true := by rw [hw]; decide
  have hsum := h.resid
  unfold writeTurn
  split
  · refine h.stop (e := .fault) rfl rfl rfl (fun hr => absurd hr hnot)
      (fun _ => ⟨rfl, fun i _ => rfl⟩) ?_
    exact iff_of_true rfl (.inl rfl)
  · cases o with
    | error e junk =>
        dsimp only
        generalize hu : ({ s.copyIn cc with
          disk := storeBytes (s.copyIn cc).disk (s.copyIn cc).b_blkno cc junk } : Xfer) = u
        obtain ⟨huser, hdisk, hresid, hlog⟩ := u.pieceFailed_same r.b_bcount e
        have herr := pieceFailed_error h (u := u) (by rw [← hu]; rfl) (by rw [← hu]; rfl) e
        have hlog' : u.log = s.log := by rw [← hu]; rfl
        refine h.stop (e := .failed) rfl (congrArg (· ++ [Event.failed]) (hlog.trans hlog'))
          (hresid.trans (by rw [← hu]; rfl)) (fun hr => absurd hr hnot)
          (fun _ => ⟨huser.trans (by rw [← hu]; rfl), fun i hi => ?_⟩) (herr.trans (by simp))
        change deviceByte (u.pieceFailed r.b_bcount e).disk r.b_blkno i = _
        rw [hdisk, ← hu]
        change deviceByte (storeBytes s.disk s.b_blkno cc junk) r.b_blkno i = _
        rw [h.blkno, deviceByte_store _ _ _ h.sectors (by omega) (by omega)]
        exact if_neg fun hin => Nat.not_le.mpr hi hin.1
    | done sectors =>
        dsimp only
        have hle : min (512 * sectors) cc ≤ cc := Nat.min_le_right ..
        split
        · rename_i hzero
          refine h.stop (e := .moved 0) rfl rfl rfl (fun hr => absurd hr hnot)
            (fun _ => ⟨rfl, fun i hi => ?_⟩) ?_
          · refine (h.store_copyIn hle hcc hbound (Nat.lt_add_right _ hi)).trans ?_
            exact if_neg (Nat.not_le.mpr hi)
          · change s.error = true ↔ _
            simp [h.error]
        · refine h.go (Nat.le_trans hle hcc) (dvd_piece h512 sectors) rfl rfl rfl rfl rfl
            (fun hr => absurd hr hnot) (fun _ => ⟨rfl, fun i hi => ?_⟩)
          exact h.store_copyIn hle hcc hbound hi

theorem turn_turned (h : Inv r user disk s) (hbound : r.b_bcount < 4294967296) (o : Outcome)
    (fault : Option ℕ) {cc : ℕ} (hcc : cc ≤ s.b_resid) (h512 : 512 ∣ cc) :
    Turned r user disk (turn r o fault cc s) := by
  unfold turn
  split
  · rename_i hr
    exact readTurn_turned h hr o fault hcc h512
  · rename_i hr
    exact writeTurn_turned h (Bool.eq_false_iff.mpr hr) hbound o fault hcc h512

/-- At the end of the loop nothing failed if it got to the end of the request. -/
theorem Inv.accurate (h : Inv r user disk s) : Accurate true r user disk s :=
  ⟨h.resid, h.read, h.write, by simp [h.error, h.no_fault, not_failedFirst h.no_failed]⟩

theorem loop_accurate {NBPP : ℕ} (hpage : 512 ∣ NBPP) (hcount : 512 ∣ r.b_bcount)
    (hbound : r.b_bcount < 4294967296) (outcomes : ℕ → Outcome) (faults : ℕ → Option ℕ) (k : ℕ)
    (h : Inv r user disk s) :
    Accurate true r user disk (loop NBPP r outcomes faults k s) := by
  have hdvd {s : Xfer} (h : Inv r user disk s) : 512 ∣ min s.b_resid NBPP := by
    have hsum : 512 ∣ s.b_resid + total s.log := by rwa [h.resid]
    rcases Nat.le_total s.b_resid NBPP with hle | hle
    · rw [Nat.min_eq_left hle]
      exact (Nat.dvd_add_iff_left h.sectors).mpr hsum
    · rwa [Nat.min_eq_right hle]
  fun_induction loop NBPP r outcomes faults k s with
  | case1 k s cc hzero => exact h.accurate
  | case2 k s cc hcc t hturn ih =>
      have ht := turn_turned h hbound (outcomes k) (faults k) (Nat.min_le_left ..) (hdvd h)
      rw [hturn] at ht
      exact ih ht
  | case3 k s cc hcc t hturn =>
      have ht := turn_turned h hbound (outcomes k) (faults k) (Nat.min_le_left ..) (hdvd h)
      rw [hturn] at ht
      exact ht

end

end HydraAmix.Disk.Breakup
