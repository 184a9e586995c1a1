import HydraAmix.Hydra.IoctlShapes

/-!
# The two models of `hydraioctl`

`hydraioctl` on the blocks of a message does to the driver and the card what
`hydraioctl` does on the message decoded from them, so what is known of the second (which
registers and which parts of the buffer RAM the diagnostic commands reach) is said of
the first as well.
-/
namespace HydraAmix.Hydra.Blocks
open Word Program Prog BoardState

namespace Mem

variable (L : Layout) (m : Mem)

def byteOf (bp : Option ℕ) (off : ℕ) : Byte := (m.bytes bp off 1).getD 0 0

/-- The `hydra_test_t` in a block. -/
def decodeTest (bp : Option ℕ) : HydraTest where
  op := m.long bp Layout.tOp
  reg := m.byteOf bp Layout.tReg
  val := m.byteOf bp Layout.tVal
  page := m.long bp L.tPage
  offset := m.long bp (10 + L.pad)
  len := m.long bp L.tLen
  data := Vector.ofFn fun i : Fin 1024 => m.byteOf bp (L.tData + i)
  tsr := m.byteOf bp L.tTsr
  isr := m.byteOf bp L.tIsr
  curr := m.byteOf bp L.tCurr
  bnry := m.byteOf bp L.tBnry
  rsr := m.byteOf bp L.tRsr
  ncr := m.byteOf bp L.tNcr
  tcr := m.byteOf bp L.tTcr
  rcr := m.byteOf bp L.tRcr

/-- The message in its blocks. -/
def decode : IocMsg :=
  let t := m.decodeTest L m.bCont.head?
  if m.type = .M_IOCDATA then
    .iocdata (m.long (some m.mp) L.iocCmd).toNat (m.long (some m.mp) L.cpRval).toNat
      (m.long (some m.mp) L.cpPrivate).toNat t
  else
    let count := m.long (some m.mp) L.iocCount
    .ioctl (m.long (some m.mp) L.iocCmd).toNat
      (if count = TRANSPARENT then none else some count.toNat)
      (m.long m.bCont.head? 0).toNat t

end Mem

section
variable {L : Layout} {m : Mem}

/-! ### The diagnostic commands -/

theorem clear_world (t : Option ℕ) (offs : List ℕ) (m : Mem) :
    (run exec (clear t offs) m).2.world = m.world := by
  induction offs generalizing m with
  | nil => rfl
  | cons off offs ih =>
      rw [clear, run_bind, ih]
      cases t with
      | none => rfl
      | some b => rfl

theorem store_world (m : Mem) (bp : Option ℕ) (off : ℕ) (xs : List Byte) :
    (run exec (blk (.store bp off xs)) m).2.world = m.world := by
  cases bp with
  | none => rfl
  | some b => rfl

theorem pokes_world (size : ℕ) (i : ℤ) (n : ℕ) (w : World) :
    run Hydra.exec (pokes size i n) w = ((), w) := by
  induction n generalizing i with
  | zero => rfl
  | succ n ih =>
      rw [pokes, run_bind]
      exact ih _

theorem ramOk_iff (t : Option ℕ) : RamOk (m.long t L.tLen).toInt (m.long t L.tPage).toInt ↔
    RamRequest (m.decodeTest L t) := by
  rw [RamOk, RamRequest, and_assoc]
  exact Iff.rfl

/-- The bytes that a RAM command reads are the first of the data. -/
theorem bytes_data (t : Option ℕ) {n i : ℕ} (hn : n ≤ 1024) (hi : i < n) :
    ∃ x, (m.bytes t L.tData n)[i]? = some x ∧ ((m.decodeTest L t).data.toList)[i]? = some x := by
  refine ⟨m.byteOf t (L.tData + i), ?_, ?_⟩
  · rw [Mem.bytes, List.getElem?_map, List.getElem?_range hi]
    cases t with
    | some b => rfl
    | none => simp [Mem.byteOf, Mem.bytes]
  · rw [Mem.decodeTest]
    simp [hi.trans_le hn]

theorem hydraTest_world (b : BoardId) (t : Option ℕ) (m : Mem) :
    (run exec (hydraTest L b t) m).2.world =
      (run Hydra.exec (Hydra.hydraTest b (m.decodeTest L t)) m.world).2 := by
  have hop : (m.decodeTest L t).op = m.long t Layout.tOp := rfl
  have hreg : (m.bytes t Layout.tReg 1).getD 0 0 = (m.decodeTest L t).reg := rfl
  have hok := ramOk_iff (L := L) (m := m) t
  rw [hydraTest, run_bind, loadLong_run, Hydra.hydraTest, hop]
  dsimp only
  generalize m.long t Layout.tOp = op
  simp only [run_ite]
  by_cases h₀ : op = HYDRA_TEST_READ_REG
  · rw [if_pos h₀, if_pos h₀, run_bind, loadByte_run, hreg, run_ite]
    by_cases hr : (m.decodeTest L t).reg.toNat = NE_FIFO
    · rw [if_pos hr, if_pos hr, store_world]
      rfl
    · rw [if_neg hr, if_neg hr, run_bind, store_world, run_bind]
      rfl
  rw [if_neg h₀, if_neg h₀]
  by_cases h₁ : op = HYDRA_TEST_WRITE_REG
  · rw [if_pos h₁, if_pos h₁, run_bind, loadByte_run, run_bind, loadByte_run, run_bind]
    rfl
  rw [if_neg h₁, if_neg h₁]
  by_cases h₂ : op = HYDRA_TEST_READ_RAM
  · rw [if_pos h₂, if_pos h₂, run_bind, ramRequest_run]
    by_cases hr : RamRequest (m.decodeTest L t)
    · rw [if_pos (hok.mpr hr), if_pos hr]
      dsimp only
      rw [run_bind, store_world, run_bind]
      rfl
    · rw [if_neg (mt hok.mp hr), if_neg hr]
      rfl
  rw [if_neg h₂, if_neg h₂]
  by_cases h₃ : op = HYDRA_TEST_WRITE_RAM
  · rw [if_pos h₃, if_pos h₃, run_bind, ramRequest_run]
    by_cases hr : RamRequest (m.decodeTest L t)
    · obtain ⟨⟨hlo, hhi⟩, -⟩ := hok.mpr hr
      rw [if_pos (hok.mpr hr), if_pos hr]
      dsimp only
      rw [run_bind, run_bind]
      refine congrArg Prod.snd (hydraRamWrite_congr m.world b hlo (m.long t L.tPage).toInt ?_)
      by_cases hout : OutOfRam (m.long t L.tLen).toInt (int32 ((m.long t L.tPage).toInt * 256))
      · exact .inl hout
      · rw [if_neg hout]
        exact .inr fun n hn => bytes_data t (by omega) hn
    · rw [if_neg (mt hok.mp hr), if_neg hr]
      rfl
  rw [if_neg h₃, if_neg h₃]
  by_cases h₄ : op = HYDRA_TEST_GET_STATE
  · rw [if_pos h₄, if_pos h₄, clear_world]
    rfl
  rw [if_neg h₄, if_neg h₄]
  by_cases h₅ : op = HYDRA_TEST_TX
  · rw [if_pos h₅, if_pos h₅]
    rfl
  rw [if_neg h₅, if_neg h₅]
  by_cases h₆ : op = HYDRA_TEST_GET_BOARD
  · rw [if_pos h₆, if_pos h₆, run_bind, run_bind, run_bind, store_world, store_world, storeLong,
      store_world, run_bind, run_bind, pokes_world]
    rfl
  · rw [if_neg h₆, if_neg h₆]
    rfl

/-! ### The other commands -/

theorem world_of_atFirst {mp : ℕ} {p : BlkM Unit} (h : All (BlkOp.AtFirst L mp) p) (m : Mem) :
    (run exec p m).2.world = m.world := by
  refine h.run_rel (R := fun a b : Mem => b.world = a.world) (fun _ => rfl)
    (fun _ _ _ hab hbc => hbc.trans hab) (fun _ o m ho => ?_) m
  cases o with
  | load | setType => rfl
  | store bp => exact store_world m bp _ _
  | setWptr bp f =>
      obtain rfl : bp = some mp := ho
      rfl
  | _ => exact ho.elim

theorem putnext_world {mp : ℕ} {p : BlkM Unit} (h : All (BlkOp.AtFirst L mp) p) (m : Mem) :
    (run exec (do p; blk .putnext) m).2.world = m.world := by
  rw [run_bind]
  exact world_of_atFirst h m

theorem answer_world (m : Mem) (mp : ℕ) (t : DbType) (error : Long) :
    (run exec (answer L mp t error) m).2.world = m.world :=
  putnext_world (setResult_atFirst error)
    { m with type := t, bCont := [], freed := m.freed ++ m.bCont }

theorem reported_world (m : Mem) (mp : ℕ) (arg : Long) (size : ℕ) :
    (run exec (reported L mp arg size) m).2.world = m.world := by
  rw [reported, run_bind, loadLong_run, run_ite]
  split
  · exact putnext_world (setCopyreq_atFirst _ _ _ _) m
  · exact putnext_world (setCount_atFirst _) m

/-- Memory is asked for once, whether there is some or not. -/
theorem report_world (m : Mem) (mp : ℕ) (xs : List Byte) :
    (run exec (report L mp xs) m).2.world = m.world.useAlloc := by
  rw [report, run_bind, bCont_run, run_bind, loadLong_run, run_bind, replaceCont_run]
  dsimp only
  by_cases ha : m.world.allocs 0 = true
  · rw [if_pos ha, if_neg (Option.some_ne_none _), run_bind, run_bind]
    exact reported_world _ _ _ _
  · rw [if_neg ha, if_pos rfl]
    exact answer_world m.emptied mp _ _

theorem iocReply_world (q : QId) (count : Option ℕ) (arg : ℕ) (size : Struct) (data : IocData)
    (w : World) : (run Hydra.exec (iocReply q count arg size data) w).2 = w.useAlloc := by
  unfold iocReply
  rw [run_bind, run_allocb, run_ite]
  split
  · cases count with
    | none => rfl
    | some _ => rfl
  · rfl

theorem ioctlTest_world (m : Mem) (b : BoardId) (q : QId) (mp arg : ℕ) :
    (run exec (ioctlTest L b mp) m).2.world =
      (run Hydra.exec (match (if m.long (some mp) L.iocCount = TRANSPARENT then none
          else some (m.long (some mp) L.iocCount).toNat : Option ℕ) with
        | none => do
            if ← Hydra.allocb (.sizeof .hydra_test 0) then putnext q (.copyin arg .hydra_test)
            else putnext q (.iocnak .ENOMEM)
        | some _ => do
            let t ← Hydra.hydraTest b (m.decodeTest L m.bCont.head?)
            putnext q (.iocack (.test t))) m.world).2 := by
  rw [ioctlTest, run_bind, loadLong_run, run_ite]
  by_cases hc : m.long (some mp) L.iocCount = TRANSPARENT
  · rw [if_pos hc, if_pos hc, run_bind, bCont_run, run_bind, loadLong_run, run_bind,
      replaceCont_run, run_bind, run_allocb, run_ite]
    dsimp only
    by_cases ha : m.world.allocs 0 = true
    · rw [if_pos ha, if_neg (Option.some_ne_none _), if_pos ha]
      exact putnext_world (setCopyreq_atFirst _ _ _ _) _
    · rw [if_neg ha, if_pos rfl, if_neg ha]
      exact answer_world m.emptied mp _ _
  · rw [if_neg hc, if_neg hc, run_bind, bCont_run, run_bind]
    dsimp only
    rw [run_bind, run_bind]
    refine (putnext_world (setCount_atFirst _) _).trans ?_
    exact hydraTest_world b m.bCont.head? m

end

/-- The two models do the same to the driver and the card. -/
theorem hydraioctl_world (L : Layout) (m : Mem) (q : QId) (hp : Slot)
    (hq : m.world.wptr q = some hp) :
    (run exec (hydraioctl L hp m.mp) m).2.world =
      (run Hydra.exec (Hydra.hydraioctl q (m.decode L)) m.world).2 := by
  have hload : run Hydra.exec Hydra.load m.world = (m.world.drv, m.world) := rfl
  rw [hydraioctl, run_bind, driver_run, run_bind, dbType_run, Hydra.hydraioctl, run_bind, run_wrPtr,
    hq]
  dsimp only
  rw [run_bind, hload, run_ite, Mem.decode]
  have hz : ∀ v : Long, v.toNat = 0 ↔ v = 0 := fun v => by
    rw [BitVec.toNat_eq]
    rfl
  by_cases hdata : m.type = .M_IOCDATA
  · rw [if_pos hdata, if_pos hdata, run_bind, loadLong_run, run_ite]
    dsimp only
    rw [run_ite]
    by_cases hrval : m.long (some m.mp) L.cpRval = 0
    · rw [if_neg (not_not.mpr hrval), if_neg (not_not.mpr ((hz _).mpr hrval)), run_bind,
        loadLong_run, run_ite, run_ite]
      dsimp only
      by_cases hpriv : m.long (some m.mp) L.cpPrivate = 0
      · rw [if_neg (not_not.mpr hpriv), if_neg (not_not.mpr ((hz _).mpr hpriv))]
        exact answer_world m m.mp _ _
      · rw [if_pos hpriv, if_pos (mt (hz _).mp hpriv), run_bind, bCont_run, run_bind, run_bind]
        refine (putnext_world (setCopyreq_atFirst _ _ _ _) _).trans ?_
        exact hydraTest_world _ m.bCont.head? m
    · rw [if_pos hrval, if_pos (mt (hz _).mp hrval)]
      rfl
  rw [if_neg hdata, if_neg hdata, run_bind, loadLong_run]
  dsimp only
  generalize (m.long (some m.mp) L.iocCmd).toNat = cmd
  simp only [run_ite]
  by_cases hflags : cmd = SIOCSIFFLAGS ∨ cmd = SIOCGIFFLAGS
  · rw [if_pos hflags, if_pos hflags]
    rfl
  rw [if_neg hflags, if_neg hflags]
  by_cases hnumber : cmd = HYDRA_NUMBER_OF_BOARDS
  · rw [if_pos hnumber, if_pos hnumber, report_world, iocReply_world]
  rw [if_neg hnumber, if_neg hnumber]
  by_cases hconfig : cmd = HYDRA_GET_CONFIG
  · rw [if_pos hconfig, if_pos hconfig, report_world, iocReply_world]
  rw [if_neg hconfig, if_neg hconfig]
  by_cases hstatus : cmd = HYDRA_GET_STATUS
  · rw [if_pos hstatus, if_pos hstatus, report_world, iocReply_world]
  rw [if_neg hstatus, if_neg hstatus]
  by_cases htest : cmd = HYDRA_IOCTL_TEST
  · rw [if_pos htest, if_pos htest]
    exact ioctlTest_world m _ q m.mp _
  · rw [if_neg htest, if_neg htest]
    exact answer_world m m.mp _ _

end HydraAmix.Hydra.Blocks
