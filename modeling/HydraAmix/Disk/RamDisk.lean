import HydraAmix.Library.Word
import Mathlib.Data.BitVec
import Mathlib.Data.List.Range

/-!
# The strategy routine of the RAM disk

The bytes of a unit start at `Buffers[unit]`; an offset beyond its size is in
memory that is not the disk's. The loop asks at every block whether `b_blkno`
lies on the disk, but it is the pointer and not `b_blkno` that it advances.
`b_bcount` and `b_resid` are unsigned, and a block is copied whole however few
bytes are left.
-/
namespace HydraAmix.RamDisk
open Word

abbrev NUNITS : ℕ := 3
abbrev BPSEC : ℕ := 512

/-- A unit that `ramopen` lets through. -/
abbrev Minor := Fin NUNITS

/-- The sizes of the units in blocks. -/
def Sizes (u : Minor) : ℕ :=
  match u.val with
  | 0 => 256
  | 1 => 1024
  | _ => 4096

/-- The fields of a `struct buf` that the routine reads. -/
structure Buf where
  unit : Minor
  read : Bool
  blkno : Long
  bcount : Long
  addr : Long
  proc : ℕ
  deriving DecidableEq, Repr

/-- The bytes from `Buffers[unit]` on and the memories of the processes, as
`vtop` finds them. -/
structure Ram where
  buffers : Minor → ℕ → Byte
  user : ℕ → Long → Byte

/-- What the caller learns. -/
structure Reply where
  resid : Long
  error : Bool
  deriving DecidableEq, Repr

/-- The variables of `ramstrategy`, and the offsets that it copied blocks at. -/
structure Strategy where
  ram : Ram
  buf : ℕ
  addr : Long
  reply : Reply
  touched : List ℕ

/-- `bcopy` of `n` bytes between the disk from `buf` and the process from `addr`. -/
def Ram.bcopy (ram : Ram) (bp : Buf) (buf : ℕ) (addr : Long) (n : ℕ) : Ram :=
  if bp.read = true then
    { ram with user := fun p a =>
        if p = bp.proc ∧ (a - addr).toNat < n then ram.buffers bp.unit (buf + (a - addr).toNat)
        else ram.user p a }
  else
    { ram with buffers := fun u off =>
        if u = bp.unit ∧ buf ≤ off ∧ off < buf + n then
          ram.user bp.proc (addr + BitVec.ofNat 32 (off - buf))
        else ram.buffers u off }

namespace Strategy

/-- One turn that copies a block. -/
def turn (s : Strategy) (bp : Buf) : Strategy where
  ram := s.ram.bcopy bp s.buf s.addr BPSEC
  buf := s.buf + BPSEC
  addr := s.addr + 512#32
  reply := { s.reply with resid := s.reply.resid - 512#32 }
  touched := s.touched ++ [s.buf]

/-- The loop, with the number of turns that it is given. -/
def loop (bp : Buf) : ℕ → Strategy → Option Strategy
  | 0, _ => none
  | fuel + 1, s =>
      if s.reply.resid = 0#32 then some s
      else if Sizes bp.unit ≤ bp.blkno.toNat then
        some { s with reply := { s.reply with error := true } }
      else loop bp fuel (s.turn bp)

def start (ram : Ram) (bp : Buf) : Strategy where
  ram := ram
  buf := BPSEC * bp.blkno.toNat
  addr := bp.addr
  reply := ⟨bp.bcount, false⟩
  touched := []

end Strategy

/-- `ramstrategy`, up to `iodone`. -/
def ramstrategy (fuel : ℕ) (ram : Ram) (bp : Buf) : Option Strategy :=
  Strategy.loop bp fuel (Strategy.start ram bp)

/-- Requests one after another, and what their callers learn. -/
def ramstrategies (fuel : ℕ) : Ram → List Buf → Option (Ram × List Reply)
  | ram, [] => some (ram, [])
  | ram, bp :: bps => do
      let s ← ramstrategy fuel ram bp
      let (ram', replies) ← ramstrategies fuel s.ram bps
      return (ram', s.reply :: replies)

/-! ### What a RAM disk should be -/

/-- The bytes that the disk has for the request. -/
def Buf.there (bp : Buf) : ℕ := min bp.bcount.toNat (512 * (Sizes bp.unit - bp.blkno.toNat))

/-- The request comes to its end, on the disk's own bytes, with the bytes that
exist moved and the others left over. -/
structure Served (ram : Ram) (bp : Buf) (s : Strategy) : Prop where
  inside : ∀ off ∈ s.touched, off + 512 ≤ 512 * Sizes bp.unit
  moved : s.ram = ram.bcopy bp (512 * bp.blkno.toNat) bp.addr bp.there
  resid : s.reply.resid.toNat = bp.bcount.toNat - bp.there
  error : s.reply.error = true ↔ bp.there < bp.bcount.toNat

/-- Units as arrays of blocks, and the memories of the processes. -/
structure Volumes where
  block : Minor → ℕ → ℕ → Byte
  user : ℕ → Long → Byte

namespace Volumes

/-- `k` blocks from the block of the request on are read or written. -/
def transfer (v : Volumes) (bp : Buf) (k : ℕ) : Volumes :=
  if bp.read = true then
    { v with user := fun p a =>
        let d := (a - bp.addr).toNat
        if p = bp.proc ∧ d / 512 < k then
          v.block bp.unit (bp.blkno.toNat + d / 512) (d % 512)
        else v.user p a }
  else
    { v with block := fun u b i =>
        if u = bp.unit ∧ bp.blkno.toNat ≤ b ∧ b < bp.blkno.toNat + k then
          v.user bp.proc (bp.addr + BitVec.ofNat 32 (512 * (b - bp.blkno.toNat) + i))
        else v.block u b i }

/-- A request for whole blocks gets those that exist. -/
def serve (v : Volumes) (bp : Buf) : Volumes × Reply :=
  let k := min (bp.bcount.toNat / 512) (Sizes bp.unit - bp.blkno.toNat)
  (v.transfer bp k, ⟨bp.bcount - BitVec.ofNat 32 (512 * k), decide (512 * k < bp.bcount.toNat)⟩)

def serves : Volumes → List Buf → Volumes × List Reply
  | v, [] => (v, [])
  | v, bp :: bps =>
      let r := v.serve bp
      let t := r.1.serves bps
      (t.1, r.2 :: t.2)

end Volumes

/-- The RAM disks hold these blocks. -/
structure Holds (ram : Ram) (v : Volumes) : Prop where
  block : ∀ u b i, b < Sizes u → i < 512 → ram.buffers u (512 * b + i) = v.block u b i
  user : ram.user = v.user

/-- Nothing to move, nowhere to move it, or whole blocks that all exist. -/
def Buf.Fits (bp : Buf) : Prop :=
  bp.bcount = 0#32 ∨ Sizes bp.unit ≤ bp.blkno.toNat ∨
    512 ∣ bp.bcount.toNat ∧ bp.blkno.toNat + bp.bcount.toNat / 512 ≤ Sizes bp.unit

section
variable {ram : Ram} {bp : Buf} {s t : Strategy} {v : Volumes}

theorem toNat_sub_lt (x : Long) {n m : ℕ} (h : n + m ≤ 4294967296) :
    (x - BitVec.ofNat 32 n).toNat < m ↔ n ≤ x.toNat ∧ x.toNat < n + m := by
  have hx := x.isLt
  rw [BitVec.toNat_sub, BitVec.toNat_ofNat]
  omega

theorem toNat_sub_of_le (x : Long) {n : ℕ} (h : n ≤ x.toNat) :
    (x - BitVec.ofNat 32 n).toNat = x.toNat - n := by
  have hx := x.isLt
  rw [BitVec.toNat_sub, BitVec.toNat_ofNat]
  omega

namespace Ram

theorem bcopy_zero (ram : Ram) (bp : Buf) (buf : ℕ) (addr : Long) :
    ram.bcopy bp buf addr 0 = ram := by
  have hno : ∀ off, ¬ (buf ≤ off ∧ off < buf + 0) := fun off => by omega
  unfold bcopy
  simp only [Nat.not_lt_zero, and_false, hno, if_false, ite_self]

/-- Two copies that follow each other are one. -/
theorem bcopy_bcopy (ram : Ram) (bp : Buf) (buf : ℕ) (addr : Long) {n m : ℕ}
    (h : n + m ≤ 4294967296) :
    (ram.bcopy bp buf addr n).bcopy bp (buf + n) (addr + BitVec.ofNat 32 n) m =
      ram.bcopy bp buf addr (n + m) := by
  unfold bcopy
  by_cases hr : bp.read = true
  · simp only [if_pos hr]
    congr 1
    funext p a
    rw [← BitVec.sub_sub]
    generalize a - addr = d
    by_cases hp : p = bp.proc
    · simp only [hp, true_and, toNat_sub_lt d h]
      by_cases hlow : d.toNat < n
      · rw [if_neg (by omega), if_pos hlow, if_pos (by omega)]
      · rw [if_neg hlow]
        by_cases hhigh : d.toNat < n + m
        · rw [if_pos ⟨by omega, hhigh⟩, if_pos hhigh, toNat_sub_of_le d (by omega)]
          congr 1
          omega
        · rw [if_neg fun hin => hhigh hin.2, if_neg hhigh]
    · simp only [hp, false_and, if_false]
  · simp only [if_neg hr]
    congr 1
    funext u off
    by_cases hu : u = bp.unit
    · simp only [hu, true_and]
      by_cases hlow : off < buf + n
      · rw [if_neg (by omega)]
        by_cases hin : buf ≤ off
        · rw [if_pos ⟨hin, hlow⟩, if_pos ⟨hin, by omega⟩]
        · rw [if_neg fun h => hin h.1, if_neg fun h => hin h.1]
      · by_cases hhigh : off < buf + (n + m)
        · rw [if_pos ⟨by omega, by omega⟩, if_pos ⟨by omega, hhigh⟩, BitVec.add_assoc,
            ← BitVec.ofNat_add]
          congr 3
          omega
        · rw [if_neg (by omega), if_neg fun h => hlow h.2, if_neg fun h => hhigh h.2]
    · simp only [hu, false_and, if_false]

end Ram

namespace Strategy

theorem loop_done (fuel : ℕ) (h : s.reply.resid = 0#32) : s.loop bp (fuel + 1) = some s :=
  if_pos h

theorem loop_refused (fuel : ℕ) (h : s.reply.resid ≠ 0#32)
    (hb : Sizes bp.unit ≤ bp.blkno.toNat) :
    loop bp (fuel + 1) s = some { s with reply := { s.reply with error := true } } := by
  rw [loop, if_neg h, if_pos hb]

theorem loop_turn (fuel : ℕ) (h : s.reply.resid ≠ 0#32) (hb : bp.blkno.toNat < Sizes bp.unit) :
    loop bp (fuel + 1) s = loop bp fuel (s.turn bp) := by
  rw [loop, if_neg h, if_neg (Nat.not_le_of_lt hb)]

/-- More turns than are needed make no difference. -/
theorem loop_mono {fuel : ℕ} (more : ℕ) (h : loop bp fuel s = some t) :
    loop bp (fuel + more) s = some t := by
  induction fuel generalizing s with
  | zero => exact absurd h.symm (Option.some_ne_none t)
  | succ fuel ih =>
      rw [Nat.succ_add, loop]
      rw [loop] at h
      by_cases h0 : s.reply.resid = 0#32
      · rw [if_pos h0] at h ⊢
        exact h
      · rw [if_neg h0] at h ⊢
        by_cases hb : Sizes bp.unit ≤ bp.blkno.toNat
        · rw [if_pos hb] at h ⊢
          exact h
        · rw [if_neg hb] at h ⊢
          exact ih h

/-- What is left of a count that is no number of blocks never gets to 0. -/
theorem loop_endless (fuel : ℕ) (h : s.reply.resid.toNat % 512 ≠ 0)
    (hb : bp.blkno.toNat < Sizes bp.unit) : loop bp fuel s = none := by
  induction fuel generalizing s with
  | zero => rfl
  | succ fuel ih =>
      have hne : s.reply.resid ≠ 0#32 := by
        rintro h0
        exact h (by rw [h0]; rfl)
      have hnext : (s.turn bp).reply.resid.toNat % 512 ≠ 0 := by
        change (s.reply.resid - 512#32).toNat % 512 ≠ 0
        rw [BitVec.toNat_sub]
        change (4294967296 - 512 + s.reply.resid.toNat) % 4294967296 % 512 ≠ 0
        have hmod : s.reply.resid.toNat % 512 ≠ 0 := h
        omega
      rw [loop_turn fuel hne hb]
      exact ih hnext

/-- The loop after `k` turns. -/
structure After (ram : Ram) (bp : Buf) (k : ℕ) (s : Strategy) : Prop where
  ram : s.ram = ram.bcopy bp (512 * bp.blkno.toNat) bp.addr (512 * k)
  buf : s.buf = 512 * bp.blkno.toNat + 512 * k
  addr : s.addr = bp.addr + BitVec.ofNat 32 (512 * k)
  resid : s.reply.resid.toNat + 512 * k = bp.bcount.toNat
  error : s.reply.error = false
  touched : s.touched = (List.range k).map fun j => 512 * bp.blkno.toNat + 512 * j

theorem start_after (ram : Ram) (bp : Buf) : After ram bp 0 (start ram bp) where
  ram := (ram.bcopy_zero bp _ _).symm
  buf := rfl
  addr := (BitVec.add_zero bp.addr).symm
  resid := rfl
  error := rfl
  touched := rfl

theorem After.turn {k : ℕ} (h : After ram bp k s) (hk : 512 * (k + 1) ≤ bp.bcount.toNat) :
    After ram bp (k + 1) (s.turn bp) where
  ram := by
    have hlt := bp.bcount.isLt
    change s.ram.bcopy bp s.buf s.addr 512 = _
    rw [h.ram, h.buf, h.addr, Ram.bcopy_bcopy _ _ _ _ (by omega)]
    rfl
  buf := by
    change s.buf + 512 = _
    rw [h.buf]
    omega
  addr := by
    change s.addr + 512#32 = _
    rw [h.addr, BitVec.add_assoc]
    exact congrArg (bp.addr + ·) (BitVec.ofNat_add (512 * k) 512).symm
  resid := by
    have hr := h.resid
    change (s.reply.resid - BitVec.ofNat 32 512).toNat + _ = _
    rw [toNat_sub_of_le _ (by omega)]
    omega
  error := h.error
  touched := by
    change s.touched ++ [s.buf] = _
    rw [h.touched, h.buf, List.range_succ, List.map_append]
    rfl

/-- A count of `n` blocks takes `n` turns, wherever the disk ends. -/
theorem loop_blocks {k n : ℕ} (fuel : ℕ) (hb : bp.blkno.toNat < Sizes bp.unit)
    (hn : bp.bcount.toNat = 512 * n) (h : After ram bp k s) (hk : k ≤ n) (hf : n - k < fuel) :
    ∃ t, loop bp fuel s = some t ∧ After ram bp n t := by
  induction fuel generalizing k s with
  | zero => exact absurd hf (Nat.not_lt_zero _)
  | succ fuel ih =>
      have hr := h.resid
      by_cases hlast : k = n
      · subst hlast
        have h0 : s.reply.resid = 0#32 := BitVec.eq_of_toNat_eq (show _ = 0 by omega)
        exact ⟨s, loop_done fuel h0, h⟩
      · have hne : s.reply.resid ≠ 0#32 := by
          intro h0
          rw [h0] at hr
          change 0 + _ = _ at hr
          omega
        rw [loop_turn fuel hne hb]
        apply ih (h.turn (by omega))
        · omega
        · omega

end Strategy

/-- A request for which the disk has nothing. -/
theorem served_nothing (ram : Ram) (hthere : bp.there = 0) {e : Bool}
    (he : e = true ↔ 0 < bp.bcount.toNat) :
    Served ram bp { Strategy.start ram bp with reply := ⟨bp.bcount, e⟩ } := by
  constructor
  · intro off hoff
    exact absurd hoff List.not_mem_nil
  · rw [hthere]
    exact (Strategy.start_after ram bp).ram
  · rw [hthere]
    rfl
  · rw [hthere]
    exact he

/-- A request that fits is served, in no more turns than the disk has blocks. -/
theorem ramstrategy_served (ram : Ram) (h : bp.Fits) {fuel : ℕ} (hf : Sizes bp.unit < fuel) :
    ∃ s, ramstrategy fuel ram bp = some s ∧ Served ram bp s := by
  obtain ⟨fuel, rfl⟩ : ∃ m, fuel = m + 1 := ⟨fuel - 1, by omega⟩
  have hstart := Strategy.start_after ram bp
  by_cases h0 : bp.bcount = 0#32
  · have hcount : bp.bcount.toNat = 0 := by rw [h0]; rfl
    have hthere : bp.there = 0 := by
      unfold Buf.there
      omega
    refine ⟨_, Strategy.loop_done fuel h0, served_nothing (e := false) ram hthere ?_⟩
    rw [hcount]
    exact ⟨fun he => absurd he Bool.false_ne_true, fun hlt => absurd hlt (Nat.lt_irrefl 0)⟩
  · have hpos : 0 < bp.bcount.toNat :=
      Nat.pos_of_ne_zero fun hz => h0 (BitVec.eq_of_toNat_eq hz)
    by_cases hb : Sizes bp.unit ≤ bp.blkno.toNat
    · have hthere : bp.there = 0 := by
        unfold Buf.there
        omega
      exact ⟨_, Strategy.loop_refused fuel h0 hb,
        served_nothing (e := true) ram hthere ⟨fun _ => hpos, fun _ => rfl⟩⟩
    · obtain ⟨⟨n, hn⟩, hend⟩ : 512 ∣ bp.bcount.toNat ∧
          bp.blkno.toNat + bp.bcount.toNat / 512 ≤ Sizes bp.unit :=
        (h.resolve_left h0).resolve_left hb
      have hdiv : bp.bcount.toNat / 512 = n := by omega
      have hthere : bp.there = 512 * n := by
        unfold Buf.there
        omega
      obtain ⟨t, ht, hafter⟩ :=
        Strategy.loop_blocks (fuel + 1) (by omega) hn hstart (Nat.zero_le n) (by omega)
      refine ⟨t, ht, ?_⟩
      constructor
      · intro off hoff
        rw [hafter.touched] at hoff
        obtain ⟨j, hj, rfl⟩ := List.mem_map.mp hoff
        have hjn := List.mem_range.mp hj
        omega
      · rw [hthere]
        exact hafter.ram
      · have hr := hafter.resid
        omega
      · rw [hafter.error, hthere, hn]
        exact ⟨fun hf => absurd hf (by decide), fun hlt => absurd hlt (Nat.lt_irrefl _)⟩

/-- Only a request that fits is. -/
theorem fits_of_served {fuel : ℕ} (h : ramstrategy fuel ram bp = some s) (hs : Served ram bp s) :
    bp.Fits := by
  by_cases h0 : bp.bcount = 0#32
  · exact .inl h0
  by_cases hb : Sizes bp.unit ≤ bp.blkno.toNat
  · exact .inr (.inl hb)
  have hlt : bp.blkno.toNat < Sizes bp.unit := Nat.lt_of_not_le hb
  right
  right
  have hdvd : 512 ∣ bp.bcount.toNat := by
    by_contra hno
    have hmod : (Strategy.start ram bp).reply.resid.toNat % 512 ≠ 0 :=
      fun hz => hno (Nat.dvd_of_mod_eq_zero hz)
    rw [ramstrategy, Strategy.loop_endless fuel hmod hlt] at h
    exact absurd h.symm (Option.some_ne_none s)
  obtain ⟨n, hn⟩ := hdvd
  obtain ⟨t, ht, hafter⟩ := Strategy.loop_blocks (fuel + (n + 1)) hlt hn
    (Strategy.start_after ram bp) (Nat.zero_le n) (by omega)
  obtain rfl : s = t := Option.some.inj ((Strategy.loop_mono (n + 1) h).symm.trans ht)
  have hpos : bp.bcount.toNat ≠ 0 := fun hz => h0 (BitVec.eq_of_toNat_eq hz)
  have hlast := hs.inside (512 * bp.blkno.toNat + 512 * (n - 1)) (by
    rw [hafter.touched]
    exact List.mem_map_of_mem (List.mem_range.mpr (by omega)))
  refine ⟨⟨n, hn⟩, ?_⟩
  omega

/-! ### Arrays of blocks -/

/-- The blocks that a request that fits moves. -/
def Buf.blocks (bp : Buf) : ℕ := min (bp.bcount.toNat / 512) (Sizes bp.unit - bp.blkno.toNat)

theorem Buf.Fits.there (h : bp.Fits) : bp.there = 512 * bp.blocks := by
  unfold Buf.there Buf.blocks
  rcases h with h0 | hb | ⟨⟨n, hn⟩, hend⟩
  · have hcount : bp.bcount.toNat = 0 := by rw [h0]; rfl
    omega
  · omega
  · omega

theorem Holds.bcopy (h : Holds ram v) {k : ℕ} (hk : k ≤ Sizes bp.unit - bp.blkno.toNat) :
    Holds (ram.bcopy bp (512 * bp.blkno.toNat) bp.addr (512 * k)) (v.transfer bp k) := by
  unfold Ram.bcopy Volumes.transfer
  by_cases hr : bp.read = true
  · rw [if_pos hr, if_pos hr]
    refine ⟨h.block, ?_⟩
    funext p a
    dsimp only
    generalize (a - bp.addr).toNat = d
    by_cases hd : p = bp.proc ∧ d < 512 * k
    · rw [if_pos hd, if_pos ⟨hd.1, by omega⟩, ← h.block _ _ _ (by omega) (by omega)]
      congr 1
      omega
    · rw [if_neg hd, if_neg (fun hin => hd ⟨hin.1, by omega⟩), h.user]
  · rw [if_neg hr, if_neg hr]
    refine ⟨fun u b i hb hi => ?_, h.user⟩
    dsimp only
    by_cases hin : u = bp.unit ∧ bp.blkno.toNat ≤ b ∧ b < bp.blkno.toNat + k
    · rw [if_pos ⟨hin.1, by omega, by omega⟩, if_pos hin, h.user]
      congr 3
      omega
    · rw [if_neg (fun hoff => hin ⟨hoff.1, by omega, by omega⟩), if_neg hin]
      exact h.block u b i hb hi

/-- A request that fits does to the units what it does to arrays of blocks. -/
theorem Served.serve (hs : Served ram bp s) (hfits : bp.Fits) (h : Holds ram v) :
    Holds s.ram (v.serve bp).1 ∧ s.reply = (v.serve bp).2 := by
  have hthere := hfits.there
  constructor
  · rw [hs.moved, hthere]
    exact h.bcopy (Nat.min_le_right _ _)
  · have hresid := hs.resid
    have herror := hs.error
    rw [hthere] at hresid herror
    have hle : 512 * bp.blocks ≤ bp.bcount.toNat := by
      unfold Buf.blocks
      omega
    have hr : s.reply.resid = bp.bcount - BitVec.ofNat 32 (512 * bp.blocks) := by
      apply BitVec.eq_of_toNat_eq
      rw [toNat_sub_of_le _ hle]
      exact hresid
    have he : s.reply.error = decide (512 * bp.blocks < bp.bcount.toNat) :=
      Bool.eq_iff_iff.mpr (herror.trans decide_eq_true_iff.symm)
    exact congrArg₂ Reply.mk hr he

/-- A request is served if and only if it fits, and requests that fit find
arrays of blocks. -/
theorem ramstrategy_array (ram : Ram) :
    (∀ bp, (∃ fuel s, ramstrategy fuel ram bp = some s ∧ Served ram bp s) ↔ bp.Fits) ∧
    ∀ bps : List Buf, (∀ bp ∈ bps, bp.Fits) → ∀ v, Holds ram v →
      ∃ fuel ram', ramstrategies fuel ram bps = some (ram', (v.serves bps).2) ∧
        Holds ram' (v.serves bps).1 := by
  constructor
  · intro bp
    constructor
    · rintro ⟨fuel, s, h, hs⟩
      exact fits_of_served h hs
    · intro h
      obtain ⟨s, hs⟩ := ramstrategy_served ram h (Nat.lt_succ_self _)
      exact ⟨_, s, hs⟩
  · intro bps hfits v h
    have hall : ∀ u, Sizes u < 4097 := by decide
    refine ⟨4097, ?_⟩
    induction bps generalizing ram v with
    | nil => exact ⟨ram, rfl, h⟩
    | cons bp bps ih =>
        have hbp := hfits bp List.mem_cons_self
        obtain ⟨s, hs, hserved⟩ := ramstrategy_served ram hbp (hall bp.unit)
        obtain ⟨hholds, hreply⟩ := hserved.serve hbp h
        obtain ⟨ram', hrest, hfinal⟩ :=
          ih s.ram (fun bp' hm => hfits bp' (List.mem_cons_of_mem bp hm)) _ hholds
        refine ⟨ram', ?_, hfinal⟩
        rw [ramstrategies, hs, Option.bind_eq_bind, Option.bind_some, hrest, hreply]
        rfl

/-- Two blocks from the last one of the smallest unit on: the second is read
from behind the disk, and no error is reported. -/
theorem ramstrategy_past_end :
    ¬ ∃ fuel s, ramstrategy fuel ⟨fun _ _ => 0, fun _ _ => 0⟩
        ⟨0, true, 255#32, 1024#32, 0#32, 0⟩ = some s ∧
      Served ⟨fun _ _ => 0, fun _ _ => 0⟩ ⟨0, true, 255#32, 1024#32, 0#32, 0⟩ s := by
  rintro ⟨fuel, s, h, hs⟩
  have hfits := fits_of_served h hs
  revert hfits
  unfold Buf.Fits
  decide

end
end HydraAmix.RamDisk
