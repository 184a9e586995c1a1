import HydraAmix.Hydra.IoctlBlocks

/-!
# Which ioctl messages `hydraioctl` may be given

`hydraioctl` frees and replaces `b_cont` in the right order on every path, and always
ends with one message. But it takes for granted that there is a data block, and that
this block is as long as its command needs: `b_cont` may be NULL, and the data of an
I_STR request is as long as the user said.
-/
namespace HydraAmix.Hydra.Blocks
open Word Program Prog BoardState

/-- The check of the RAM commands. -/
def RamOk (len page : ℤ) : Prop :=
  (0 ≤ len ∧ len ≤ 1024) ∧ int32 (int32 (page * 256) + len) < NE8390_STOP_PG * 256

instance (len page : ℤ) : Decidable (RamOk len page) := by
  unfold RamOk
  infer_instance

/-- The operation leaves the blocks where they are. -/
def BlkOp.Plain : (β : Type) → BlkOp β → Prop
  | _, .setBCont _ | _, .allocb _ | _, .freemsg _ | _, .putnext => False
  | _, _ => True

namespace Mem

/-- The longword at an offset of a block. -/
def long (m : Mem) (bp : Option ℕ) (off : ℕ) : Long :=
  let xs := m.bytes bp off 4
  Word.long (xs.getD 0 0) (xs.getD 1 0) (xs.getD 2 0) (xs.getD 3 0)

/-- The end of the data that a RAM command copies, or of the length if it copies none. -/
def ramReach (L : Layout) (n : ℕ) : ℕ := if n = 0 then L.tLen + 4 else L.tData + n

/-- The part of `hydra_test_t` that the command in a block uses. -/
def testReach (L : Layout) (m : Mem) (t : Option ℕ) : ℕ :=
  let op := m.long t Layout.tOp
  let len := (m.long t L.tLen).toInt
  let page := (m.long t L.tPage).toInt
  if op = HYDRA_TEST_READ_REG ∨ op = HYDRA_TEST_WRITE_REG then Layout.tVal + 1
  else if op = HYDRA_TEST_READ_RAM then
    ramReach L (if RamOk len page then len.toNat else 0)
  else if op = HYDRA_TEST_WRITE_RAM then
    ramReach L (if RamOk len page ∧ ¬ OutOfRam len (int32 (page * 256)) then len.toNat else 0)
  else if op = HYDRA_TEST_GET_STATE then L.tRcr + 1
  else if op = HYDRA_TEST_GET_BOARD then L.tData + 7
  else Layout.tOp + 4

variable (L : Layout) (m : Mem)

/-- There is a data block, and it has the `n` bytes that the command uses. -/
def DataHas (n : ℕ) : Prop := ∃ b ∈ m.bCont.head?, n ≤ m.room b

/-- A copy response that says the copy failed. -/
def CopyFailed : Prop := m.type = .M_IOCDATA ∧ m.long (some m.mp) L.cpRval ≠ 0

/-- The data block has what the command of the message uses. -/
def Suffices : Prop :=
  let cmd := (m.long (some m.mp) L.iocCmd).toNat
  let data := m.testReach L m.bCont.head?
  if m.type = .M_IOCDATA then
    m.long (some m.mp) L.cpRval = 0 → m.long (some m.mp) L.cpPrivate ≠ 0 → m.DataHas data
  else if cmd = HYDRA_NUMBER_OF_BOARDS ∨ cmd = HYDRA_GET_CONFIG ∨ cmd = HYDRA_GET_STATUS then
    m.DataHas 4
  else if cmd = HYDRA_IOCTL_TEST then
    m.DataHas (if m.long (some m.mp) L.iocCount = TRANSPARENT then 4 else data)
  else True

/-- A message that reaches the driver: its blocks are different ones, nothing has been
freed or sent yet, and the first block is as large as the stream head makes it. -/
structure Arrives : Prop where
  nodup : (m.mp :: m.bCont).Nodup
  old : ∀ b ∈ m.mp :: m.bCont, b < m.fresh
  freed : m.freed = []
  sent : m.sent = []
  room : L.ioctypes ≤ m.room m.mp

/-- What is said of a call: it accesses bytes of the message's blocks only, frees each
block at most once, and ends with one message upstream, none of it freed; a
failed copy response is freed instead. -/
structure Handles (hp : Slot) : Prop where
  inside : Along exec BlkOp.Inside (hydraioctl L hp m.mp) m
  once : (run exec (hydraioctl L hp m.mp) m).2.freed.Nodup
  ends : (m.CopyFailed L ∧ (run exec (hydraioctl L hp m.mp) m).2.sent = [] ∧
      ∀ b ∈ m.mp :: m.bCont, b ∈ (run exec (hydraioctl L hp m.mp) m).2.freed) ∨
    ¬ m.CopyFailed L ∧ ∃ bp, (run exec (hydraioctl L hp m.mp) m).2.sent = [bp] ∧
      ∀ b ∈ bp, b ∉ (run exec (hydraioctl L hp m.mp) m).2.freed

/-- The blocks are the same before and after. -/
structure Kept (m m' : Mem) : Prop where
  mp : m'.mp = m.mp
  bCont : m'.bCont = m.bCont
  room : m'.room = m.room
  fresh : m'.fresh = m.fresh
  freed : m'.freed = m.freed
  sent : m'.sent = m.sent

/-- The first block, with room for the control structures. -/
structure First (mp : ℕ) : Prop where
  eq : m.mp = mp
  live : mp ∉ m.freed
  room : L.ioctypes ≤ m.room mp

end Mem

section
variable {L : Layout} {m m' m₁ m₂ m₃ : Mem} {mp : ℕ}

/-! ### Blocks -/

theorem Mem.Holds.mono {bp : Option ℕ} {a b : ℕ} (h : m.Holds bp b) (hab : a ≤ b) :
    m.Holds bp a := by
  obtain ⟨c, hc, hl, hr⟩ := h
  exact ⟨c, hc, hl, hab.trans hr⟩

theorem Mem.Kept.refl (m : Mem) : m.Kept m := ⟨rfl, rfl, rfl, rfl, rfl, rfl⟩

theorem Mem.Kept.trans (h : m₁.Kept m₂) (h' : m₂.Kept m₃) : m₁.Kept m₃ where
  mp := h'.mp.trans h.mp
  bCont := h'.bCont.trans h.bCont
  room := h'.room.trans h.room
  fresh := h'.fresh.trans h.fresh
  freed := h'.freed.trans h.freed
  sent := h'.sent.trans h.sent

theorem Mem.Kept.holds (h : m.Kept m') (bp : Option ℕ) (n : ℕ) : m'.Holds bp n ↔ m.Holds bp n := by
  rw [Mem.Holds, Mem.Holds, h.freed, h.room]

theorem Mem.Kept.first (h : m.Kept m') (hf : m.First L mp) : m'.First L mp where
  eq := h.mp.trans hf.eq
  live := by
    rw [h.freed]
    exact hf.live
  room := by
    rw [h.room]
    exact hf.room

theorem kept_exec {β : Type} (o : BlkOp β) (m : Mem) (h : BlkOp.Plain β o) :
    m.Kept (exec o m).2 := by
  cases o with
  | setBCont | allocb | freemsg | putnext => exact h.elim
  | store bp =>
      cases bp with
      | none => exact .refl m
      | some b => exact ⟨rfl, rfl, rfl, rfl, rfl, rfl⟩
  | setWptr bp =>
      cases bp with
      | none => exact .refl m
      | some b => exact ⟨rfl, rfl, rfl, rfl, rfl, rfl⟩
  | _ => exact ⟨rfl, rfl, rfl, rfl, rfl, rfl⟩

theorem kept_of_plain {α : Type} {p : BlkM α} (h : All BlkOp.Plain p) (m : Mem) :
    m.Kept (run exec p m).2 :=
  h.run_rel Mem.Kept.refl (fun _ _ _ => Mem.Kept.trans) (fun _ o m => kept_exec o m) m

/-! ### Loads and stores -/

theorem loadLong_run (m : Mem) (bp : Option ℕ) (off : ℕ) :
    run exec (loadLong bp off) m = (m.long bp off, m) := by rfl

theorem loadLong_inside (bp : Option ℕ) (off : ℕ) :
    Along exec BlkOp.Inside (loadLong bp off) m ↔ m.Holds bp (off + 4) := by
  rw [loadLong, along_bind, along_perform]
  exact ⟨fun h => h.1 (by decide), fun h => ⟨fun _ => h, along_pure _ _⟩⟩

theorem loadByte_run (m : Mem) (bp : Option ℕ) (off : ℕ) :
    run exec (loadByte bp off) m = ((m.bytes bp off 1).getD 0 0, m) := by rfl

theorem loadByte_inside (bp : Option ℕ) (off : ℕ) :
    Along exec BlkOp.Inside (loadByte bp off) m ↔ m.Holds bp (off + 1) := by
  rw [loadByte, along_bind, along_perform]
  exact ⟨fun h => h.1 (by decide), fun h => ⟨fun _ => h, along_pure _ _⟩⟩

theorem store_inside (bp : Option ℕ) (off : ℕ) (x : Byte) (xs : List Byte) :
    Along exec BlkOp.Inside (blk (.store bp off (x :: xs))) m ↔
      m.Holds bp (off + (x :: xs).length) := by
  rw [along_perform]
  exact ⟨fun h => h (List.cons_ne_nil x xs), fun h _ => h⟩

theorem storeLong_inside (bp : Option ℕ) (off : ℕ) (v : Long) :
    Along exec BlkOp.Inside (storeLong bp off v) m ↔ m.Holds bp (off + 4) :=
  store_inside bp off _ _

theorem store_kept (m : Mem) (bp : Option ℕ) (off : ℕ) (xs : List Byte) :
    m.Kept (run exec (blk (.store bp off xs)) m).2 :=
  kept_of_plain (show All BlkOp.Plain (blk (.store bp off xs)) from .perform trivial) m

theorem storeLong_kept (m : Mem) (bp : Option ℕ) (off : ℕ) (v : Long) :
    m.Kept (run exec (storeLong bp off v) m).2 := store_kept m bp off _

theorem Mem.First.holds (h : m.First L mp) {off : ℕ} (ho : off + 4 ≤ L.ioctypes) :
    m.Holds (some mp) (off + 4) :=
  ⟨mp, rfl, h.live, ho.trans h.room⟩

/-! ### The diagnostic commands -/

theorem clear_plain (t : Option ℕ) (offs : List ℕ) : All BlkOp.Plain (clear t offs) := by
  induction offs with
  | nil => exact all_pure ()
  | cons off offs ih => exact .bind (.perform trivial) fun _ => ih

/-- The stores of zero reach as far as the last of them. -/
theorem clear_inside (t : Option ℕ) (offs : List ℕ) :
    Along exec BlkOp.Inside (clear t offs) m ↔ ∀ off ∈ offs, m.Holds t (off + 1) := by
  induction offs generalizing m with
  | nil => exact ⟨fun _ _ h => absurd h List.not_mem_nil, fun _ => along_pure () m⟩
  | cons off offs ih =>
      rw [clear, along_bind, store_inside, ih, List.forall_mem_cons]
      refine and_congr Iff.rfl (forall₂_congr fun o _ => ?_)
      exact (store_kept m t off [0]).holds t (o + 1)

theorem loadLong_plain (bp : Option ℕ) (off : ℕ) : All BlkOp.Plain (loadLong bp off) :=
  .bind (.perform trivial) fun _ => all_pure _

theorem loadByte_plain (bp : Option ℕ) (off : ℕ) : All BlkOp.Plain (loadByte bp off) :=
  .bind (.perform trivial) fun _ => all_pure _

theorem ramRequest_plain (t : Option ℕ) : All BlkOp.Plain (ramRequest L t) := by
  refine .bind (loadLong_plain _ _) fun len => .ite ?_ (all_pure none)
  exact .bind (loadLong_plain _ _) fun page => all_pure _

theorem ramRequest_run (m : Mem) (t : Option ℕ) :
    run exec (ramRequest L t) m =
      (if RamOk (m.long t L.tLen).toInt (m.long t L.tPage).toInt then
        some ((m.long t L.tLen).toInt, (m.long t L.tPage).toInt) else none, m) := by
  rw [ramRequest, run_bind, loadLong_run]
  dsimp only
  rw [run_ite, run_bind, loadLong_run, run_pure, run_pure]
  generalize (m.long t L.tLen).toInt = len
  generalize (m.long t L.tPage).toInt = page
  by_cases hl : 0 ≤ len ∧ len ≤ 1024
  · rw [if_pos hl]
    by_cases hs : int32 (int32 (page * 256) + len) < NE8390_STOP_PG * 256
    · rw [if_pos hs, if_pos (show RamOk len page from ⟨hl, hs⟩)]
    · rw [if_neg hs, if_neg fun h : RamOk len page => hs h.2]
  · rw [if_neg hl, if_neg fun h : RamOk len page => hl h.1]

theorem ramRequest_inside (t : Option ℕ) :
    Along exec BlkOp.Inside (ramRequest L t) m ↔ m.Holds t (L.tLen + 4) := by
  rw [ramRequest, along_bind, loadLong_run, loadLong_inside, along_ite]
  refine ⟨fun h => h.1, fun h => ⟨h, ?_⟩⟩
  split
  · rw [along_bind, loadLong_inside]
    exact ⟨h.mono (by rw [Layout.tPage, Layout.tLen]; omega), along_pure _ _⟩
  · exact along_pure _ _

theorem hydraTest_plain (b : BoardId) (t : Option ℕ) : All BlkOp.Plain (hydraTest L b t) := by
  have hop : ∀ {β : Type} {o : BlkOp β}, BlkOp.Plain β o → All BlkOp.Plain (blk o) := fun h =>
    .perform h
  refine .bind (loadLong_plain _ _) fun op => .ite ?_ <| .ite ?_ <| .ite ?_ <| .ite ?_ <|
    .ite (clear_plain _ _) <| .ite (all_pure ()) <| .ite ?_ (all_pure ())
  · refine .bind (loadByte_plain _ _) fun reg => .ite (hop trivial) ?_
    exact .bind (hop trivial) fun val => hop trivial
  · exact .bind (loadByte_plain _ _) fun reg => .bind (loadByte_plain _ _) fun val => hop trivial
  · refine .bind (ramRequest_plain _) fun r => ?_
    cases r with
    | none => exact all_pure ()
    | some r => exact .bind (hop trivial) fun xs => hop trivial
  · refine .bind (ramRequest_plain _) fun r => ?_
    cases r with
    | none => exact all_pure ()
    | some r => exact .bind (hop trivial) fun xs => hop trivial
  · exact .bind (hop trivial) fun d => .bind (hop trivial) fun _ => .bind (hop trivial) fun _ =>
      hop trivial

/-- The data that a RAM command copies reach as far as `ramReach`. -/
theorem ramReach_inside {t : Option ℕ} {n : ℕ} :
    m.Holds t (L.tLen + 4) ∧ (n ≠ 0 → m.Holds t (L.tData + n)) ↔ m.Holds t (Mem.ramReach L n) := by
  rw [Mem.ramReach]
  by_cases hn : n = 0
  · rw [if_pos hn]
    exact ⟨fun h => h.1, fun h => ⟨h, fun hne => absurd hn hne⟩⟩
  · rw [if_neg hn]
    refine ⟨fun h => h.2 hn, fun h => ⟨h.mono ?_, fun _ => h⟩⟩
    rw [Layout.tLen, Layout.tData]
    omega

/-- Storing what was read from the buffer RAM. -/
theorem ramRead_inside (b : BoardId) (t : Option ℕ) {len : ℤ} (hl : 0 ≤ len ∧ len ≤ 1024)
    (page : ℤ) :
    Along exec BlkOp.Inside (do
      let xs ← blk (.ramRead b len page)
      blk (.store t L.tData xs)) m ↔ (len.toNat ≠ 0 → m.Holds t (L.tData + len.toNat)) := by
  have hlength := hydraRamRead_length m.world b 1024 hl page
  rw [along_bind, along_perform, along_perform]
  generalize hr : run Hydra.exec (hydraRamRead b 1024 len page) m.world = r at hlength
  have hrun : run exec (blk (.ramRead b len page)) m = (r.1, { m with world := r.2 }) := by
    rw [← hr]
    rfl
  have hkept : m.Kept { m with world := r.2 } := ⟨rfl, rfl, rfl, rfl, rfl, rfl⟩
  rw [hrun]
  refine ⟨fun h hn => ?_, fun h => ⟨trivial, fun hne => ?_⟩⟩
  · rw [← hkept.holds, ← hlength]
    exact h.2 fun hnil => hn (by rw [← hlength, hnil, List.length_nil])
  · rw [hkept.holds, hlength]
    exact h fun hz => hne (List.eq_nil_of_length_eq_zero (hlength.trans hz))

/-- Loading what is written to the buffer RAM. -/
theorem ramWrite_inside (b : BoardId) (t : Option ℕ) (n : ℕ) (len page : ℤ) :
    Along exec BlkOp.Inside (do
      let xs ← blk (.load t L.tData n)
      blk (.ramWrite b xs len page)) m ↔ (n ≠ 0 → m.Holds t (L.tData + n)) := by
  rw [along_bind, along_perform, along_perform]
  exact ⟨fun h => h.1, fun h => ⟨h, trivial⟩⟩

/-- The stores of HYDRA_TEST_GET_BOARD. -/
theorem getBoard_inside (t : Option ℕ) (base : Long) (addr : Vector Byte 6) (x : Byte) :
    Along exec BlkOp.Inside (do
      storeLong t L.tPage base
      blk (.store t L.tData addr.toList)
      blk (.store t (L.tData + 6) [x])) m ↔ m.Holds t (L.tData + 7) := by
  rw [along_bind, storeLong_inside, along_bind, store_inside, along_perform]
  have hk := storeLong_kept m t L.tPage base
  generalize (run exec (storeLong t L.tPage base) m).2 = m₁ at hk ⊢
  have hk' := hk.trans (store_kept m₁ t L.tData addr.toList)
  rw [hk'.holds]
  refine ⟨fun h => h.2.2, fun h => ⟨h.mono ?_, fun _ => ?_, h⟩⟩
  · rw [Layout.tPage, Layout.tData]
    omega
  · rw [Vector.length_toList]
    exact (hk.holds t _).mpr (h.mono (by omega))

/-- The last of several accesses reaches furthest. -/
theorem holds_and {t : Option ℕ} {k n : ℕ} {p : Prop} (hk : k ≤ n) (h : p ↔ m.Holds t n) :
    m.Holds t k ∧ p ↔ m.Holds t n :=
  ⟨fun hp => h.mp hp.2, fun hn => ⟨hn.mono hk, h.mpr hn⟩⟩

/-- A RAM command whose copy uses `n` bytes of the data. -/
theorem ramCommand_inside {t : Option ℕ} {n : ℤ → ℤ → ℕ} {copy : ℤ → ℤ → BlkM Unit}
    (hcopy : ∀ len page, RamOk len page → (Along exec BlkOp.Inside (copy len page) m ↔
      (n len page ≠ 0 → m.Holds t (L.tData + n len page)))) {len page : ℤ}
    (hlen : (m.long t L.tLen).toInt = len) (hpage : (m.long t L.tPage).toInt = page) :
    Along exec BlkOp.Inside (do
      match ← ramRequest L t with
      | some (len, page) => copy len page
      | none => pure ()) m ↔
      m.Holds t (Mem.ramReach L (if RamOk len page then n len page else 0)) := by
  rw [along_bind, ramRequest_run, ramRequest_inside, ← ramReach_inside, hlen, hpage]
  refine and_congr_right fun _ => ?_
  by_cases hok : RamOk len page
  · rw [if_pos hok, if_pos hok]
    exact hcopy len page hok
  · rw [if_neg hok, if_neg hok]
    exact ⟨fun _ hne => absurd rfl hne, fun _ => along_pure _ _⟩

theorem le_ramReach (L : Layout) (n : ℕ) : Layout.tOp + 4 ≤ Mem.ramReach L n := by
  rw [Mem.ramReach, Layout.tOp, Layout.tLen, Layout.tData]
  split <;> omega

/-- The register that a command names, and the value that it sets. -/
theorem readReg_inside (b : BoardId) (t : Option ℕ) :
    Along exec BlkOp.Inside (do
      let reg ← loadByte t Layout.tReg
      if reg.toNat = NE_FIFO then blk (.store t Layout.tVal [0])
      else
        let val ← blk (.inb b reg.toNat)
        blk (.store t Layout.tVal [val])) m ↔ m.Holds t (Layout.tVal + 1) := by
  have hinb : ∀ reg, m.Kept (run exec (blk (.inb b reg)) m).2 := fun reg =>
    ⟨rfl, rfl, rfl, rfl, rfl, rfl⟩
  rw [along_bind, loadByte_run, loadByte_inside, along_ite]
  refine holds_and (by decide) ?_
  split
  · exact store_inside _ _ _ _
  · rw [along_bind, store_inside, (hinb _).holds]
    exact and_iff_right ((along_perform _ _).mpr trivial)

theorem writeReg_inside (b : BoardId) (t : Option ℕ) :
    Along exec BlkOp.Inside (do
      let reg ← loadByte t Layout.tReg
      let val ← loadByte t Layout.tVal
      blk (.testWriteReg b reg.toNat val)) m ↔ m.Holds t (Layout.tVal + 1) := by
  rw [along_bind, loadByte_run, loadByte_inside, along_bind, loadByte_run, loadByte_inside]
  exact holds_and (by decide) (and_iff_left ((along_perform _ _).mpr trivial))

/-- The stores of HYDRA_TEST_GET_STATE. -/
theorem getState_inside (t : Option ℕ) :
    Along exec BlkOp.Inside
      (clear t [L.tTsr, L.tIsr, L.tRsr, L.tNcr, L.tTcr, L.tRcr, L.tCurr, L.tBnry]) m ↔
      m.Holds t (L.tRcr + 1) := by
  rw [clear_inside]
  refine ⟨fun h => h L.tRcr (by simp), fun h off hoff => h.mono ?_⟩
  simp only [List.mem_cons, List.not_mem_nil, or_false, Layout.tTsr, Layout.tIsr, Layout.tRsr,
    Layout.tNcr, Layout.tTcr, Layout.tRcr, Layout.tCurr, Layout.tBnry] at hoff ⊢
  omega

/-- A diagnostic command is inside its block where the block has the part of
`hydra_test_t` that the command uses. -/
theorem hydraTest_inside (b : BoardId) (t : Option ℕ) :
    Along exec BlkOp.Inside (hydraTest L b t) m ↔ m.Holds t (m.testReach L t) := by
  rw [hydraTest, along_bind, loadLong_run, loadLong_inside, Mem.testReach]
  dsimp only
  generalize m.long t Layout.tOp = op
  generalize hlen : (m.long t L.tLen).toInt = len
  generalize hpage : (m.long t L.tPage).toInt = page
  rw [along_ite]
  by_cases h₀ : op = HYDRA_TEST_READ_REG
  · rw [if_pos h₀, if_pos (.inl h₀)]
    exact holds_and (by decide) (readReg_inside b t)
  rw [if_neg h₀, along_ite]
  by_cases h₁ : op = HYDRA_TEST_WRITE_REG
  · rw [if_pos h₁, if_pos (.inr h₁)]
    exact holds_and (by decide) (writeReg_inside b t)
  rw [if_neg h₁, if_neg (not_or.mpr ⟨h₀, h₁⟩), along_ite]
  by_cases h₂ : op = HYDRA_TEST_READ_RAM
  · rw [if_pos h₂, if_pos h₂]
    have hcopy := fun (len page : ℤ) (hok : RamOk len page) =>
      ramRead_inside (L := L) (m := m) b t hok.1 page
    exact holds_and (le_ramReach L _) (ramCommand_inside hcopy hlen hpage)
  rw [if_neg h₂, if_neg h₂, along_ite]
  by_cases h₃ : op = HYDRA_TEST_WRITE_RAM
  · have hn : (if RamOk len page ∧ ¬ OutOfRam len (int32 (page * 256)) then len.toNat else 0) =
        if RamOk len page then
          if OutOfRam len (int32 (page * 256)) then 0 else len.toNat else 0 := by
      split_ifs <;> tauto
    rw [if_pos h₃, if_pos h₃, hn]
    have hcopy := fun (len page : ℤ) (_ : RamOk len page) => ramWrite_inside (L := L) (m := m) b t
      (if OutOfRam len (int32 (page * 256)) then 0 else len.toNat) len page
    exact holds_and (le_ramReach L _) (ramCommand_inside hcopy hlen hpage)
  rw [if_neg h₃, if_neg h₃, along_ite]
  by_cases h₄ : op = HYDRA_TEST_GET_STATE
  · rw [if_pos h₄, if_pos h₄]
    exact holds_and (by rw [Layout.tOp, Layout.tRcr]; omega) (getState_inside t)
  rw [if_neg h₄, if_neg h₄, along_ite]
  by_cases h₅ : op = HYDRA_TEST_TX
  · rw [if_pos h₅, h₅, if_neg (by decide)]
    exact and_iff_left (along_pure _ _)
  rw [if_neg h₅, along_ite]
  by_cases h₆ : op = HYDRA_TEST_GET_BOARD
  · rw [if_pos h₆, if_pos h₆, along_bind]
    refine holds_and (by rw [Layout.tOp, Layout.tData]; omega) ?_
    exact (and_iff_right ((along_perform _ _).mpr trivial)).trans (getBoard_inside t _ _ _)
  · rw [if_neg h₆, if_neg h₆]
    exact and_iff_left (along_pure _ _)

/-! ### The control structures -/

/-- The operation accesses the first block only, inside the control structures. -/
def BlkOp.AtFirst (L : Layout) (mp : ℕ) : (β : Type) → BlkOp β → Prop
  | _, .load bp off n => bp = some mp ∧ off + n ≤ L.ioctypes
  | _, .store bp off xs => bp = some mp ∧ off + xs.length ≤ L.ioctypes
  | _, .setWptr bp _ => bp = some mp
  | _, .setType _ => True
  | _, _ => False

theorem plain_of_atFirst {α : Type} {p : BlkM α} (h : All (BlkOp.AtFirst L mp) p) :
    All BlkOp.Plain p :=
  h.mono fun _ o ho => by
    cases o with
    | setBCont | allocb | freemsg | putnext => exact ho
    | _ => trivial

theorem Mem.First.inside (h : m.First L mp) {α : Type} {p : BlkM α}
    (hp : All (BlkOp.AtFirst L mp) p) : Along exec BlkOp.Inside p m := by
  induction p generalizing m with
  | ret a => trivial
  | step o next ih =>
      obtain ⟨ho, hn⟩ := hp
      have hlive : m.mp ∉ m.freed := by
        rw [h.eq]
        exact h.live
      cases o with
      | load bp off n =>
          obtain ⟨rfl, hr⟩ := ho
          exact ⟨fun _ => ⟨mp, rfl, h.live, hr.trans h.room⟩, ih _ h (hn _)⟩
      | store bp off xs =>
          obtain ⟨rfl, hr⟩ := ho
          exact ⟨fun _ => ⟨mp, rfl, h.live, hr.trans h.room⟩, ih _ ⟨h.eq, h.live, h.room⟩ (hn _)⟩
      | setWptr bp f =>
          obtain rfl : bp = some mp := ho
          exact ⟨⟨mp, rfl, h.live, Nat.zero_le _⟩, ih _ ⟨h.eq, h.live, h.room⟩ (hn _)⟩
      | setType t => exact ⟨hlive, ih _ ⟨h.eq, h.live, h.room⟩ (hn _)⟩
      | _ => exact ho.elim

/-- Setting a field of a control structure. -/
theorem storeLong_atFirst {off : ℕ} (v : Long)
    (h : off ∈ [L.iocCmd, L.iocCount, L.iocRval, L.iocError, L.cqAddr, L.cqSize, L.cqFlag,
      L.cqPrivate, L.cpRval, L.cpPrivate]) :
    All (BlkOp.AtFirst L mp) (storeLong (some mp) off v) := .perform ⟨rfl, L.fits off h⟩

theorem setCopyreq_atFirst (t : DbType) (addr : Long) (size : ℕ) (priv : Long) :
    All (BlkOp.AtFirst L mp) (setCopyreq L mp t addr size priv) := by
  refine .bind (.perform trivial) fun _ => .bind (.perform rfl) fun _ => ?_
  refine .bind (storeLong_atFirst _ (by simp)) fun _ => ?_
  refine .bind (storeLong_atFirst _ (by simp)) fun _ => ?_
  exact .bind (storeLong_atFirst _ (by simp)) fun _ => storeLong_atFirst _ (by simp)

theorem setResult_atFirst (error : Long) : All (BlkOp.AtFirst L mp) (setResult L mp error) := by
  refine .bind (storeLong_atFirst _ (by simp)) fun _ => ?_
  exact .bind (storeLong_atFirst _ (by simp)) fun _ => storeLong_atFirst _ (by simp)

theorem setCount_atFirst (size : ℕ) : All (BlkOp.AtFirst L mp) (setCount L mp size) :=
  .bind (storeLong_atFirst _ (by simp)) fun _ => .perform trivial

/-- The control structure is set, and the message goes upstream as it is. -/
theorem putnext_inside (h : m.First L mp) {p : BlkM Unit} (hp : All (BlkOp.AtFirst L mp) p) :
    Along exec BlkOp.Inside (do p; blk .putnext) m := by
  have hf := (kept_of_plain (plain_of_atFirst hp) m).first h
  rw [along_bind, along_perform]
  refine ⟨h.inside hp, ?_⟩
  change _ ∉ _
  rw [hf.eq]
  exact hf.live

theorem putnext_run {p : BlkM Unit} (hp : All (BlkOp.AtFirst L mp) p) (m : Mem) :
    (run exec (do p; blk .putnext) m).2.freed = m.freed ∧
      (run exec (do p; blk .putnext) m).2.sent = m.sent ++ [m.mp :: m.bCont] := by
  have hk := kept_of_plain (plain_of_atFirst hp) m
  rw [run_bind]
  generalize (run exec p m).2 = m₁ at hk ⊢
  refine ⟨hk.freed, ?_⟩
  rw [← hk.sent, ← hk.mp, ← hk.bCont]
  rfl

theorem answer_inside (h : m.First L mp) (hc : mp ∉ m.bCont) (t : DbType) (error : Long) :
    Along exec BlkOp.Inside (answer L mp t error) m := by
  have hlive : m.mp ∉ m.freed := by
    rw [h.eq]
    exact h.live
  have hfirst : Mem.First L { m with type := t, bCont := [], freed := m.freed ++ m.bCont } mp :=
    ⟨h.eq, fun hm => (List.mem_append.mp hm).elim h.live hc, h.room⟩
  exact ⟨hlive, hlive, hlive, trivial, putnext_inside hfirst (setResult_atFirst error)⟩

/-- The data blocks are freed, and the message goes upstream without them. -/
theorem answer_run (m : Mem) (mp : ℕ) (t : DbType) (error : Long) :
    (run exec (answer L mp t error) m).2.freed = m.freed ++ m.bCont ∧
      (run exec (answer L mp t error) m).2.sent = m.sent ++ [[m.mp]] :=
  putnext_run (setResult_atFirst error)
    { m with type := t, bCont := [], freed := m.freed ++ m.bCont }

/-! ### The data block replaced -/

/-- The message with a new data block in place of the old ones. -/
def Mem.replaced (m : Mem) (size : ℕ) : Mem :=
  { m with
    world := m.world.useAlloc
    bCont := [m.fresh]
    room := Function.update m.room m.fresh size
    wptr := Function.update m.wptr m.fresh 0
    fresh := m.fresh + 1
    freed := m.freed ++ m.bCont }

theorem Mem.replaced_room (m : Mem) (size : ℕ) :
    (m.replaced size).room = Function.update m.room m.fresh size := rfl

/-- The message with the old data blocks freed, and none in their place. -/
def Mem.emptied (m : Mem) : Mem :=
  { m with world := m.world.useAlloc, bCont := [], freed := m.freed ++ m.bCont }

theorem replaceCont_run (m : Mem) (size : ℕ) :
    run exec (replaceCont size) m =
      if m.world.allocs 0 then (some m.fresh, m.replaced size) else (none, m.emptied) := by
  have hrun : run exec (replaceCont size) m =
      let r := exec (.allocb size) { m with freed := m.freed ++ m.bCont }
      (r.1.head?, { r.2 with bCont := r.1 }) := by rfl
  rw [hrun, exec]
  by_cases ha : m.world.allocs 0 = true
  · rw [if_pos ha, if_pos ha]
    rfl
  · rw [if_neg ha, if_neg ha]
    rfl

/-- Replacing the data block leaves the first one in place. -/
theorem Mem.Arrives.first (h : m.Arrives L) : m.First L m.mp :=
  ⟨rfl, by simp [h.freed], h.room⟩

theorem Mem.Arrives.mp_notMem (h : m.Arrives L) : m.mp ∉ m.bCont :=
  (List.nodup_cons.mp h.nodup).1

theorem Mem.Arrives.emptied (h : m.Arrives L) : m.emptied.First L m.mp where
  eq := rfl
  live hm := (List.mem_append.mp hm).elim h.first.live h.mp_notMem
  room := h.room

theorem Mem.Arrives.replaced (h : m.Arrives L) (size : ℕ) : (m.replaced size).First L m.mp where
  eq := rfl
  live hm := (List.mem_append.mp hm).elim h.first.live h.mp_notMem
  room := by
    have hne : m.mp ≠ m.fresh := (h.old m.mp List.mem_cons_self).ne
    rw [Mem.replaced_room, Function.update_of_ne hne]
    exact h.room

/-- The new data block is there, and as large as was asked for. -/
theorem Mem.Arrives.replaced_holds (h : m.Arrives L) {n size : ℕ} (hn : n ≤ size) :
    (m.replaced size).Holds (some m.fresh) n := by
  refine ⟨m.fresh, rfl, fun hm => ?_, ?_⟩
  · rcases List.mem_append.mp hm with hf | hc
    · exact absurd hf (by simp [h.freed])
    · exact absurd (h.old m.fresh (List.mem_cons_of_mem _ hc)) (lt_irrefl _)
  · rw [Mem.replaced_room, Function.update_self]
    exact hn

theorem replaceCont_inside (h : m.Arrives L) (size : ℕ) :
    Along exec BlkOp.Inside (replaceCont size) m := by
  have hlive : m.mp ∉ m.freed ++ m.bCont := fun hm =>
    (List.mem_append.mp hm).elim h.first.live h.mp_notMem
  have hset : Along exec BlkOp.Inside (blk (.setBCont (exec (.allocb size)
      { m with freed := m.freed ++ m.bCont }).1)) (exec (.allocb size)
      { m with freed := m.freed ++ m.bCont }).2 := by
    rw [along_perform, exec]
    split
    · exact hlive
    · exact hlive
  exact ⟨h.first.live, trivial, trivial, hset.1, trivial⟩

/-- The message ends upstream, with none of its blocks freed and no block freed twice. -/
def Mem.Upstream (m : Mem) : Prop :=
  m.freed.Nodup ∧ ∃ bp, m.sent = [bp] ∧ ∀ b ∈ bp, b ∉ m.freed

/-- The message goes upstream with the blocks it came with. -/
theorem Mem.Arrives.upstream_same (h : m.Arrives L) (hf : m'.freed = m.freed)
    (hs : m'.sent = m.sent ++ [m.mp :: m.bCont]) : m'.Upstream := by
  refine ⟨by rw [hf, h.freed]; exact List.nodup_nil, m.mp :: m.bCont, by rw [hs, h.sent]; rfl,
    fun b _ => ?_⟩
  rw [hf, h.freed]
  exact List.not_mem_nil

/-- It goes upstream without its data blocks, or with a new one in their place. -/
theorem Mem.Arrives.upstream_without (h : m.Arrives L) (hf : m'.freed = m.freed ++ m.bCont)
    {bp : List ℕ} (hs : m'.sent = m.sent ++ [m.mp :: bp]) (hbp : ∀ b ∈ bp, b = m.fresh) :
    m'.Upstream := by
  rw [h.freed, List.nil_append] at hf
  rw [h.sent, List.nil_append] at hs
  refine ⟨by rw [hf]; exact (List.nodup_cons.mp h.nodup).2, _, hs, fun b hb => ?_⟩
  rw [hf]
  rcases List.mem_cons.mp hb with rfl | hb
  · exact h.mp_notMem
  · rw [hbp b hb]
    exact fun hm => absurd (h.old _ (List.mem_cons_of_mem _ hm)) (lt_irrefl _)

/-! ### The commands -/

theorem bCont_run (m : Mem) : run exec (blk .bCont) m = (m.bCont, m) := rfl

theorem bCont_inside (h : m.mp ∉ m.freed) : Along exec BlkOp.Inside (blk .bCont) m :=
  (along_perform _ m).mpr h

/-- The argument of a transparent command is read from the data block. -/
theorem Mem.Arrives.holds_iff (h : m.Arrives L) (n : ℕ) :
    m.Holds m.bCont.head? n ↔ m.DataHas n := by
  refine exists_congr fun b => and_congr Iff.rfl ?_
  rw [h.freed]
  exact and_iff_right List.not_mem_nil

theorem reported_inside (h : m.First L mp) (arg : Long) (size : ℕ) :
    Along exec BlkOp.Inside (reported L mp arg size) m := by
  rw [reported, along_bind, loadLong_inside, loadLong_run, along_ite]
  refine ⟨h.holds (L.fits _ (by simp)), ?_⟩
  split
  · exact putnext_inside h (setCopyreq_atFirst _ _ _ _)
  · exact putnext_inside h (setCount_atFirst _)

theorem reported_run (m : Mem) (mp : ℕ) (arg : Long) (size : ℕ) :
    (run exec (reported L mp arg size) m).2.freed = m.freed ∧
      (run exec (reported L mp arg size) m).2.sent = m.sent ++ [m.mp :: m.bCont] := by
  rw [reported, run_bind, loadLong_run, run_ite]
  split
  · exact putnext_run (setCopyreq_atFirst _ _ _ _) m
  · exact putnext_run (setCount_atFirst size) m

/-- A structure is put into a block. -/
theorem filled_kept (m : Mem) (bp : Option ℕ) (xs : List Byte) :
    m.Kept (run exec (blk (.setWptr bp fun n => n + xs.length))
      (run exec (blk (.store bp 0 xs)) m).2).2 :=
  (store_kept m bp 0 xs).trans (kept_of_plain
    (show All BlkOp.Plain (blk (.setWptr bp fun n => n + xs.length)) from .perform trivial) _)

theorem report_inside (h : m.Arrives L) (xs : List Byte) :
    Along exec BlkOp.Inside (report L m.mp xs) m ↔ m.DataHas 4 := by
  rw [report, along_bind, bCont_run, along_bind, loadLong_inside, loadLong_run, along_bind,
    replaceCont_run, h.holds_iff]
  refine ⟨fun hi => hi.2.1, fun hi => ⟨bCont_inside h.first.live, hi, replaceCont_inside h _, ?_⟩⟩
  dsimp only
  by_cases ha : m.world.allocs 0 = true
  · rw [if_pos ha, if_neg (Option.some_ne_none _), along_bind, along_bind]
    refine ⟨(along_perform _ _).mpr fun _ => h.replaced_holds (by omega),
      (along_perform _ _).mpr ((h.replaced_holds (Nat.zero_le _))), ?_⟩
    exact reported_inside ((filled_kept _ _ xs).first (h.replaced _)) _ _
  · rw [if_neg ha, if_pos rfl]
    exact answer_inside h.emptied List.not_mem_nil _ _

/-- A message whose data blocks were freed for want of memory. -/
theorem Mem.Arrives.upstream_emptied (h : m.Arrives L) (error : Long) :
    (run exec (answer L m.mp .M_IOCNAK error) m.emptied).2.Upstream := by
  obtain ⟨hf, hs⟩ := answer_run (L := L) m.emptied m.mp .M_IOCNAK error
  refine h.upstream_without (hf.trans (List.append_nil _)) hs fun b hb => ?_
  exact absurd hb List.not_mem_nil

/-- One with a new data block. -/
theorem Mem.Arrives.upstream_replaced (h : m.Arrives L) (size : ℕ)
    (hf : m'.freed = (m.replaced size).freed)
    (hs : m'.sent = (m.replaced size).sent ++ [m.mp :: (m.replaced size).bCont]) : m'.Upstream :=
  h.upstream_without hf hs fun _ hb => List.mem_singleton.mp hb

theorem report_upstream (h : m.Arrives L) (xs : List Byte) :
    (run exec (report L m.mp xs) m).2.Upstream := by
  rw [report, run_bind, bCont_run, run_bind, loadLong_run, run_bind, replaceCont_run]
  dsimp only
  by_cases ha : m.world.allocs 0 = true
  · rw [if_pos ha, if_neg (Option.some_ne_none _), run_bind, run_bind]
    have hk := filled_kept (m.replaced xs.length) (some m.fresh) xs
    dsimp only
    generalize (run exec (blk (.setWptr (some m.fresh) fun n => n + xs.length)) _).2 = m₁ at hk ⊢
    obtain ⟨hf, hs⟩ := reported_run (L := L) m₁ m.mp (m.long m.bCont.head? 0) xs.length
    rw [hk.sent, hk.mp, hk.bCont] at hs
    exact h.upstream_replaced _ (hf.trans hk.freed) hs
  · rw [if_neg ha, if_pos rfl]
    exact h.upstream_emptied _

/-- HYDRA_IOCTL_TEST needs the argument, or what its command uses. -/
theorem ioctlTest_inside (h : m.Arrives L) (b : BoardId) :
    Along exec BlkOp.Inside (ioctlTest L b m.mp) m ↔
      m.DataHas (if m.long (some m.mp) L.iocCount = TRANSPARENT then 4
        else m.testReach L m.bCont.head?) := by
  have hcount : m.Holds (some m.mp) (L.iocCount + 4) :=
    ⟨m.mp, rfl, h.first.live, (L.fits _ (by simp)).trans h.room⟩
  rw [ioctlTest, along_bind, loadLong_inside, loadLong_run, along_ite, and_iff_right hcount]
  by_cases hc : m.long (some m.mp) L.iocCount = TRANSPARENT
  · rw [if_pos hc, if_pos hc, along_bind, bCont_run, along_bind, loadLong_inside, loadLong_run,
      along_bind, replaceCont_run, h.holds_iff]
    refine ⟨fun hi => hi.2.1, fun hi => ⟨bCont_inside h.first.live, hi, replaceCont_inside h _, ?_⟩⟩
    dsimp only
    by_cases ha : m.world.allocs 0 = true
    · rw [if_pos ha, if_neg (Option.some_ne_none _)]
      exact putnext_inside (h.replaced _) (setCopyreq_atFirst _ _ _ _)
    · rw [if_neg ha, if_pos rfl]
      exact answer_inside h.emptied List.not_mem_nil _ _
  · rw [if_neg hc, if_neg hc, along_bind, bCont_run, along_bind, hydraTest_inside, h.holds_iff]
    refine ⟨fun hi => hi.2.1, fun hi => ⟨bCont_inside h.first.live, hi, ?_⟩⟩
    have hk := kept_of_plain (hydraTest_plain (L := L) b m.bCont.head?) m
    exact putnext_inside (hk.first h.first) (setCount_atFirst _)

theorem ioctlTest_upstream (h : m.Arrives L) (b : BoardId) :
    (run exec (ioctlTest L b m.mp) m).2.Upstream := by
  rw [ioctlTest, run_bind, loadLong_run, run_ite]
  by_cases hc : m.long (some m.mp) L.iocCount = TRANSPARENT
  · rw [if_pos hc, run_bind, bCont_run, run_bind, loadLong_run, run_bind, replaceCont_run]
    dsimp only
    by_cases ha : m.world.allocs 0 = true
    · rw [if_pos ha, if_neg (Option.some_ne_none _)]
      obtain ⟨hf, hs⟩ := putnext_run (setCopyreq_atFirst .M_COPYIN (m.long m.bCont.head? 0)
        L.sizeofTest (m.long m.bCont.head? 0)) (m.replaced L.sizeofTest)
      exact h.upstream_replaced _ hf hs
    · rw [if_neg ha, if_pos rfl]
      exact h.upstream_emptied _
  · rw [if_neg hc, run_bind, bCont_run, run_bind]
    have hk := kept_of_plain (hydraTest_plain (L := L) b m.bCont.head?) m
    generalize (run exec (hydraTest L b m.bCont.head?) m).2 = m₁ at hk ⊢
    obtain ⟨hf, hs⟩ := putnext_run (setCount_atFirst L.sizeofTest) m₁
    rw [hk.sent, hk.mp, hk.bCont] at hs
    exact h.upstream_same (hf.trans hk.freed) hs

/-- A diagnostic command whose structure the stream head has copied in. -/
theorem copiedIn_inside (h : m.Arrives L) (b : BoardId) (priv : Long) :
    Along exec BlkOp.Inside (do
      hydraTest L b (← blk .bCont).head?
      copyRequest L m.mp .M_COPYOUT priv L.sizeofTest 0) m ↔
      m.DataHas (m.testReach L m.bCont.head?) := by
  rw [along_bind, bCont_run, along_bind, hydraTest_inside, h.holds_iff]
  refine ⟨fun hi => hi.2.1, fun hi => ⟨bCont_inside h.first.live, hi, ?_⟩⟩
  have hk := kept_of_plain (hydraTest_plain (L := L) b m.bCont.head?) m
  exact putnext_inside (hk.first h.first) (setCopyreq_atFirst _ _ _ _)

theorem copiedIn_upstream (h : m.Arrives L) (b : BoardId) (priv : Long) :
    (run exec (do
      hydraTest L b (← blk .bCont).head?
      copyRequest L m.mp .M_COPYOUT priv L.sizeofTest 0) m).2.Upstream := by
  rw [run_bind, bCont_run, run_bind]
  have hk := kept_of_plain (hydraTest_plain (L := L) b m.bCont.head?) m
  dsimp only
  generalize (run exec (hydraTest L b m.bCont.head?) m).2 = m₁ at hk ⊢
  obtain ⟨hf, hs⟩ := putnext_run (setCopyreq_atFirst .M_COPYOUT priv L.sizeofTest 0) m₁
  rw [hk.sent, hk.mp, hk.bCont] at hs
  exact h.upstream_same (hf.trans hk.freed) hs

/-! ### The whole call -/

theorem driver_run (m : Mem) : run exec (blk .driver) m = (m.world.drv, m) := rfl

theorem dbType_run (m : Mem) : run exec (blk .dbType) m = (m.type, m) := rfl

/-- The accesses stay inside the blocks exactly where the data block suffices. -/
theorem hydraioctl_inside (h : m.Arrives L) (hp : Slot) :
    Along exec BlkOp.Inside (hydraioctl L hp m.mp) m ↔ m.Suffices L := by
  have hread : ∀ {off} {p : Long → BlkM Unit}, off + 4 ≤ L.ioctypes →
      (Along exec BlkOp.Inside (loadLong (some m.mp) off >>= p) m ↔
        Along exec BlkOp.Inside (p (m.long (some m.mp) off)) m) := fun ho => by
    rw [along_bind, loadLong_inside, loadLong_run]
    exact and_iff_right (h.first.holds ho)
  have hdriver : Along exec BlkOp.Inside (blk .driver) m := (along_perform _ m).mpr trivial
  have htype : Along exec BlkOp.Inside (blk .dbType) m := (along_perform _ m).mpr h.first.live
  rw [hydraioctl, along_bind, driver_run, and_iff_right hdriver, along_bind, dbType_run,
    and_iff_right htype]
  dsimp only
  generalize (m.world.drv.slot hp).boardIndex = b
  rw [Mem.Suffices, along_ite]
  by_cases hdata : m.type = .M_IOCDATA
  · rw [if_pos hdata, if_pos hdata, hread (L.fits _ (by simp)), along_ite]
    by_cases hrval : m.long (some m.mp) L.cpRval = 0
    · rw [if_neg (not_not.mpr hrval), hread (L.fits _ (by simp)), along_ite,
        forall_prop_of_true hrval]
      by_cases hpriv : m.long (some m.mp) L.cpPrivate = 0
      · rw [if_neg (not_not.mpr hpriv)]
        exact iff_of_true (answer_inside h.first h.mp_notMem _ _) fun hne => absurd hpriv hne
      · rw [if_pos hpriv, forall_prop_of_true hpriv]
        exact copiedIn_inside h b _
    · rw [if_pos hrval]
      exact iff_of_true ⟨h.first.live, trivial, trivial⟩ fun hz => absurd hz hrval
  rw [if_neg hdata, if_neg hdata, hread (L.fits _ (by simp))]
  generalize (m.long (some m.mp) L.iocCmd).toNat = cmd
  rw [along_ite]
  by_cases hflags : cmd = SIOCSIFFLAGS ∨ cmd = SIOCGIFFLAGS
  · have hother : ∀ c, c ≠ SIOCSIFFLAGS → c ≠ SIOCGIFFLAGS → cmd ≠ c := fun c h₁ h₂ hc => by
      rw [hc] at hflags
      exact hflags.elim h₁ h₂
    rw [if_pos hflags, if_neg, if_neg (hother _ (by decide) (by decide))]
    · exact iff_of_true ⟨h.first.live, h.first.live, trivial⟩ trivial
    · rintro (hc | hc | hc)
      · exact hother _ (by decide) (by decide) hc
      · exact hother _ (by decide) (by decide) hc
      · exact hother _ (by decide) (by decide) hc
  rw [if_neg hflags, along_ite]
  by_cases hnumber : cmd = HYDRA_NUMBER_OF_BOARDS
  · rw [if_pos hnumber, if_pos (.inl hnumber)]
    exact report_inside h _
  rw [if_neg hnumber, along_ite]
  by_cases hconfig : cmd = HYDRA_GET_CONFIG
  · rw [if_pos hconfig, if_pos (.inr (.inl hconfig))]
    exact report_inside h _
  rw [if_neg hconfig, along_ite]
  by_cases hstatus : cmd = HYDRA_GET_STATUS
  · rw [if_pos hstatus, if_pos (.inr (.inr hstatus))]
    exact report_inside h _
  rw [if_neg hstatus, if_neg (not_or.mpr ⟨hnumber, not_or.mpr ⟨hconfig, hstatus⟩⟩), along_ite]
  by_cases htest : cmd = HYDRA_IOCTL_TEST
  · rw [if_pos htest, if_pos htest]
    exact ioctlTest_inside h b
  · rw [if_neg htest, if_neg htest]
    exact iff_of_true (answer_inside h.first h.mp_notMem _ _) trivial

/-- Whatever the data block is, the call ends with one message. -/
theorem hydraioctl_upstream (h : m.Arrives L) (hp : Slot) (hf : ¬ m.CopyFailed L) :
    (run exec (hydraioctl L hp m.mp) m).2.Upstream := by
  have hanswer : ∀ t error, (run exec (answer L m.mp t error) m).2.Upstream := fun t error => by
    obtain ⟨hfreed, hsent⟩ := answer_run (L := L) m m.mp t error
    exact h.upstream_without hfreed hsent fun b hb => absurd hb List.not_mem_nil
  rw [hydraioctl, run_bind, driver_run, run_bind, dbType_run]
  dsimp only
  generalize (m.world.drv.slot hp).boardIndex = b
  rw [run_ite]
  by_cases hdata : m.type = .M_IOCDATA
  · have hrval : m.long (some m.mp) L.cpRval = 0 := not_not.mp fun hr => hf ⟨hdata, hr⟩
    rw [if_pos hdata, run_bind, loadLong_run, run_ite, if_neg (not_not.mpr hrval), run_bind,
      loadLong_run, run_ite]
    split
    · exact copiedIn_upstream h b _
    · exact hanswer _ _
  rw [if_neg hdata, run_bind, loadLong_run]
  generalize (m.long (some m.mp) L.iocCmd).toNat = cmd
  rw [run_ite, run_ite, run_ite, run_ite, run_ite]
  split_ifs
  · exact h.upstream_same rfl rfl
  · exact report_upstream h _
  · exact report_upstream h _
  · exact report_upstream h _
  · exact ioctlTest_upstream h b
  · exact hanswer _ _

/-- A failed copy response is freed. -/
theorem hydraioctl_freed (h : m.Arrives L) (hp : Slot) (hf : m.CopyFailed L) :
    (run exec (hydraioctl L hp m.mp) m).2.freed = m.mp :: m.bCont ∧
      (run exec (hydraioctl L hp m.mp) m).2.sent = [] := by
  rw [hydraioctl, run_bind, driver_run, run_bind, dbType_run, run_ite, if_pos hf.1, run_bind,
    loadLong_run, run_ite, if_pos hf.2, run_bind, bCont_run]
  change m.freed ++ _ = _ ∧ m.sent = _
  rw [h.freed, h.sent]
  exact ⟨rfl, rfl⟩

end

/-- `hydraioctl` handles a message exactly where its data block suffices for the
command: only the accesses depend on it. -/
theorem hydraioctl_handles (L : Layout) (m : Mem) (h : m.Arrives L) (hp : Slot) :
    m.Handles L hp ↔ m.Suffices L := by
  refine ⟨fun hh => (hydraioctl_inside h hp).mp hh.inside, fun hs => ?_⟩
  have hinside := (hydraioctl_inside h hp).mpr hs
  by_cases hf : m.CopyFailed L
  · obtain ⟨hfreed, hsent⟩ := hydraioctl_freed h hp hf
    refine ⟨hinside, by rw [hfreed]; exact h.nodup, .inl ⟨hf, hsent, fun b hb => ?_⟩⟩
    rwa [hfreed]
  · obtain ⟨honce, bp, hsent, hlive⟩ := hydraioctl_upstream h hp hf
    exact ⟨hinside, honce, .inr ⟨hf, bp, hsent, hlive⟩⟩

/-! ### Two requests -/

/-- The offsets of System V, with integers at even addresses. -/
def svr4 : Layout where
  iocCmd := 0
  iocCount := 12
  iocRval := 20
  iocError := 16
  cqAddr := 12
  cqSize := 16
  cqFlag := 20
  cqPrivate := 24
  cpRval := 12
  cpPrivate := 24
  sizeofCopyreq := 44
  ioctypes := 44
  fits := by decide
  pad := 0

/-- An ioctl with data blocks of four bytes. -/
def request (cmd count : Long) (bCont : List ℕ) : Mem where
  world := World.off
  mp := 0
  type := .M_IOCTL
  bCont := bCont
  byte b i := if b = 0 then (longBytes cmd ++ List.replicate 8 0 ++ longBytes count).getD i 0 else 0
  room b := if b = 0 then 44 else 4
  wptr _ := 4
  fresh := 2
  freed := []
  sent := []

theorem request_arrives (cmd count : Long) {bCont : List ℕ} (h : bCont = [] ∨ bCont = [1]) :
    (request cmd count bCont).Arrives svr4 := by
  have hblocks : ((0 : ℕ) :: bCont).Nodup ∧ ∀ b ∈ (0 : ℕ) :: bCont, b < 2 := by
    rcases h with rfl | rfl
    · decide
    · decide
  exact ⟨hblocks.1, hblocks.2, rfl, rfl, le_rfl⟩

theorem hydraioctl_handles_transparent :
    (request 0x4805 TRANSPARENT [1]).Handles svr4 ⟨0, 0⟩ := by
  refine (hydraioctl_handles svr4 _ (request_arrives _ _ (.inr rfl)) ⟨0, 0⟩).mpr ?_
  have hcmd : ((request 0x4805 TRANSPARENT [1]).long (some 0) svr4.iocCmd).toNat =
      HYDRA_NUMBER_OF_BOARDS := by decide +kernel
  rw [Mem.Suffices, if_neg (by decide), if_pos (.inl hcmd)]
  exact ⟨1, rfl, le_rfl⟩

/-- An I_STR request without data. -/
theorem hydraioctl_not_handles :
    ¬ ∀ (L : Layout) (m : Mem), m.Arrives L → ∀ hp, m.Handles L hp := by
  intro h
  have harrives := request_arrives 0x4805 0 (.inl rfl)
  have hs := (hydraioctl_inside harrives ⟨0, 0⟩).mp (h _ _ harrives _).inside
  have hcmd : ((request 0x4805 0 []).long (some 0) svr4.iocCmd).toNat = HYDRA_NUMBER_OF_BOARDS := by
    decide +kernel
  rw [Mem.Suffices, if_neg (by decide), if_pos (.inl hcmd)] at hs
  obtain ⟨b, hb, -⟩ := hs
  exact Option.some_ne_none b hb.symm

end HydraAmix.Hydra.Blocks
