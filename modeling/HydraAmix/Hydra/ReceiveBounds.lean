import HydraAmix.Hydra.ReceiveBoundary

/-!
# Where the copy of a frame reads and stores

A frame is copied by one call of `hydra_ram_read_offset`, or by two where it goes on at the
start of the ring. Each call reads whole longwords, and stores the bytes before its length at
its place in `rxbuff`.
-/
namespace HydraAmix.Hydra
open Word Program Prog Schedule

/-- A longword that is read, and a store through a pointer with `size` bytes behind it. -/
inductive Touch where
  | read (offset : ℤ)
  | store (size : ℕ) (i : ℤ)
  deriving DecidableEq, Repr

def Op.touches : {β : Type} → Op β → List Touch
  | _, .readl _ offset => [.read offset]
  | _, .poke size i => [.store size i]
  | _, _ => []

/-- The longwords that are read. -/
def longs (ts : List Touch) : List ℤ := ts.filterMap fun
  | .read offset => some offset
  | .store _ _ => none

/-- The places in `rxbuff` that are stored to, by what is left behind the pointer. -/
def rxbuff (ts : List Touch) : List ℤ := ts.filterMap fun
  | .read _ => none
  | .store size i => some (MAX_BUFFER_LENGTH - size + i)

/-- A call of `hydra_ram_read_offset` with a pointer to `rxbuff + start`. -/
structure RamCall where
  start : ℕ
  len : ℕ
  offset : ℕ
  deriving DecidableEq, Repr

def RamCall.prog (b : BoardId) (c : RamCall) : HydraM (List Byte) :=
  hydraRamReadOffset b (MAX_BUFFER_LENGTH - c.start).toNat c.len c.offset

/-- One call after the other. -/
def ramCalls (b : BoardId) : List RamCall → HydraM (List Byte)
  | [] => pure []
  | [c] => c.prog b
  | c :: cs => do
      let xs ← c.prog b
      let ys ← ramCalls b cs
      return xs ++ ys

/-- The calls for a packet of `len` bytes behind the header on a page. -/
def copyCalls (page len : ℕ) : List RamCall :=
  if page * 256 + 4 + len > 0x4000 then
    [⟨0, 0x4000 - (page * 256 + 4), page * 256 + 4⟩,
      ⟨0x4000 - (page * 256 + 4), len - (0x4000 - (page * 256 + 4)), 0x800⟩]
  else [⟨0, len, page * 256 + 4⟩]

/-- The guard lets the call pass, and its longwords are in the ring. -/
structure RamCall.Inside (c : RamCall) : Prop where
  guard : ¬ OutOfRam c.len c.offset
  start : 0x800 ≤ c.offset
  stop : c.offset + accessLen c.len ≤ 0x4000

/-! ### One call -/

section
variable (w : World) (b : BoardId)

theorem longs_append (ts us : List Touch) : longs (ts ++ us) = longs ts ++ longs us :=
  List.filterMap_append

theorem rxbuff_append (ts us : List Touch) : rxbuff (ts ++ us) = rxbuff ts ++ rxbuff us :=
  List.filterMap_append

theorem unpackLong_touches (size len i : ℕ) (v : Long) (js : List ℕ) :
    collect exec Op.touches (unpackLong size len i v js) w =
      (js.filter fun j => 4 * i + (3 - j) < len).map
        fun j => .store size (4 * i + (3 - j) : ℕ) := by
  induction js generalizing w with
  | nil => rfl
  | cons j js ih =>
      by_cases h : 4 * i + (3 - j) < len
      · have hz : ((4 * i + (3 - j) : ℕ) : ℤ) < len := by omega
        rw [unpackLong, if_pos hz]
        simp [ih, h, Op.touches]
      · have hz : ¬ ((4 * i + (3 - j) : ℕ) : ℤ) < len := by omega
        rw [unpackLong, if_neg hz]
        simp [ih, h]

/-- The longwords are read one after the other, and each gives its bytes before `len`. -/
theorem readLongs_touches (size len offset k i : ℕ) :
    longs (collect exec Op.touches (readLongs b size len offset k i) w) =
        (List.range' i k).map (fun i : ℕ => (offset : ℤ) + 4 * i) ∧
      rxbuff (collect exec Op.touches (readLongs b size len offset k i) w) =
        ((List.range' (4 * i) (4 * k)).filter fun n => n < len).map
          fun n : ℕ => MAX_BUFFER_LENGTH - size + n := by
  induction k generalizing i w with
  | zero => exact ⟨rfl, rfl⟩
  | succ k ih =>
      have hr : List.range' (4 * i) (4 * (k + 1)) =
          [3, 2, 1, 0].map (fun j => 4 * i + (3 - j)) ++ List.range' (4 * (i + 1)) (4 * k) := by
        simp [List.range'_succ, Nat.mul_add]
      have hrun : ∀ v, run exec (unpackLong size len i v [3, 2, 1, 0]) w =
          (([3, 2, 1, 0].filter fun j => 4 * i + (3 - j) < len).map (byte v), w) := fun v =>
        unpackLong_run w size len i v _
      have hcollect : collect exec Op.touches (readLongs b size len offset (k + 1) i) w =
          [.read (offset + 4 * i)] ++ (collect exec Op.touches
            (unpackLong size len i ((w.nic b).readl (offset + 4 * i)) [3, 2, 1, 0]) w ++
          collect exec Op.touches (readLongs b size len offset k (i + 1)) w) := by
        rw [readLongs]
        simp only [collect_bind, collect_perform, run_readl, hrun, collect_pure, List.append_nil,
          Op.touches]
      obtain ⟨hlongs, hstores⟩ := ih w (i + 1)
      rw [hcollect, unpackLong_touches]
      constructor
      · rw [longs_append, longs_append, hlongs, List.range'_succ, List.map_cons]
        simp [longs, List.filterMap_map]
      · rw [rxbuff_append, rxbuff_append, hstores, hr, List.filter_append, List.map_append,
          List.filter_map, List.map_map]
        simp [rxbuff, List.filterMap_map, Function.comp_def]

theorem inside_of_le {c : RamCall} (hstart : 0x800 ≤ c.offset)
    (h : c.offset + 4 * ((c.len + 3) / 4) ≤ 0x4000) : c.Inside where
  guard := not_outOfRam h
  start := hstart
  stop := by
    rw [accessLen, nlongs_of_nat (by omega), int32_of_range (by omega) (by omega)]
    omega

/-- A call reads its longwords and stores its bytes. -/
theorem RamCall.touches {c : RamCall} (hc : c.start ≤ 1518)
    (h : c.offset + 4 * ((c.len + 3) / 4) ≤ 0x4000) :
    longs (collect exec Op.touches (c.prog b) w) =
        (List.range ((c.len + 3) / 4)).map (fun i : ℕ => (c.offset : ℤ) + 4 * i) ∧
      rxbuff (collect exec Op.touches (c.prog b) w) =
        (List.range' c.start c.len).map fun n : ℕ => (n : ℤ) := by
  have hguard : ¬ OutOfRam c.len c.offset := not_outOfRam h
  obtain ⟨hlongs, hstores⟩ := readLongs_touches w b (MAX_BUFFER_LENGTH - c.start).toNat c.len
    c.offset ((c.len + 3) / 4) 0
  have hprog : c.prog b = readLongs b (MAX_BUFFER_LENGTH - c.start).toNat c.len c.offset
      ((c.len + 3) / 4) 0 := by
    rw [RamCall.prog, hydraRamReadOffset, if_neg hguard, nlongs_of_nat (by omega),
      Int.toNat_natCast]
  rw [hprog, hlongs, hstores, Nat.mul_zero, filter_longs]
  refine ⟨by rw [List.range_eq_range'], ?_⟩
  rw [List.range'_eq_map_range, List.map_map]
  refine List.map_congr_left fun n _ => ?_
  change (1518 : ℤ) - (((1518 : ℤ) - c.start).toNat : ℤ) + n = ((c.start + n : ℕ) : ℤ)
  omega

/-- What the calls of a copy do together. -/
structure CopiedInside (b : BoardId) (w : World) (cs : List RamCall) (len : ℕ) : Prop where
  calls : ∀ c ∈ cs, c.Inside
  longs : ∀ o ∈ longs (collect exec Op.touches (ramCalls b cs) w), 0x800 ≤ o ∧ o + 4 ≤ 0x4000
  rxbuff : rxbuff (collect exec Op.touches (ramCalls b cs) w) =
    (List.range len).map fun n : ℕ => (n : ℤ)

theorem RamCall.longs_inside {c : RamCall} (hc : c.start ≤ 1518) (hstart : 0x800 ≤ c.offset)
    (h : c.offset + 4 * ((c.len + 3) / 4) ≤ 0x4000) :
    ∀ o ∈ longs (collect exec Op.touches (c.prog b) w), 0x800 ≤ o ∧ o + 4 ≤ 0x4000 := by
  intro o ho
  rw [(RamCall.touches w b hc h).1] at ho
  obtain ⟨i, hi, rfl⟩ := List.mem_map.mp ho
  rw [List.mem_range] at hi
  omega

theorem ramCalls_one (c : RamCall) : ramCalls b [c] = c.prog b := rfl

theorem ramCalls_two (c c' : RamCall) : ramCalls b [c, c'] = (do
    let xs ← c.prog b
    let ys ← c'.prog b
    return xs ++ ys) := rfl

theorem ramCalls_touches (c c' : RamCall) :
    collect exec Op.touches (ramCalls b [c, c']) w =
      collect exec Op.touches (c.prog b) w ++
        collect exec Op.touches (c'.prog b) (run exec (c.prog b) w).2 := by
  rw [ramCalls_two, collect_bind, collect_bind, collect_pure, List.append_nil]

theorem copyCalls_inside {page len : ℕ} (hp : 8 ≤ page ∧ page < 64) (hl : len ≤ 1518) :
    CopiedInside b w (copyCalls page len) len := by
  unfold copyCalls
  split_ifs with hwrap
  · -- the first part ends with the ring, and its longwords with it
    obtain ⟨semi, hsemi⟩ : ∃ semi, page * 256 + 4 + semi = 0x4000 :=
      ⟨0x4000 - (page * 256 + 4), by omega⟩
    obtain ⟨rest, rfl⟩ : ∃ rest, len = semi + rest := ⟨len - semi, by omega⟩
    have h₁ : 0x4000 - (page * 256 + 4) = semi := by omega
    have h₂ : semi + rest - semi = rest := Nat.add_sub_cancel_left semi rest
    rw [h₁, h₂]
    have hfirst : page * 256 + 4 + 4 * ((semi + 3) / 4) ≤ 0x4000 := by omega
    have hsecond : 0x800 + 4 * ((rest + 3) / 4) ≤ 0x4000 := by omega
    have hcollect := ramCalls_touches w b ⟨0, semi, page * 256 + 4⟩ ⟨semi, rest, 0x800⟩
    refine ⟨?_, ?_, ?_⟩
    · simp only [List.forall_mem_cons]
      exact ⟨inside_of_le (by dsimp only; omega) hfirst,
        inside_of_le (Nat.le_refl 0x800) hsecond, fun _ h => absurd h List.not_mem_nil⟩
    · rw [hcollect, longs_append]
      intro o ho
      rcases List.mem_append.mp ho with ho | ho
      · exact RamCall.longs_inside w b (Nat.zero_le _) (by dsimp only; omega) hfirst o ho
      · exact RamCall.longs_inside _ b (by dsimp only; omega) (Nat.le_refl 0x800) hsecond o ho
    · have htouch := RamCall.touches w b (c := ⟨0, semi, page * 256 + 4⟩) (Nat.zero_le _) hfirst
      have htouch' := fun w => RamCall.touches w b (c := ⟨semi, rest, 0x800⟩)
        (by dsimp only; omega) hsecond
      rw [hcollect, rxbuff_append, htouch.2, (htouch' _).2, ← List.map_append,
        List.range_eq_range']
      refine congrArg (List.map _) ?_
      rw [← List.range'_append, Nat.zero_add, Nat.one_mul]
  · have hroom : page * 256 + 4 + 4 * ((len + 3) / 4) ≤ 0x4000 := by omega
    refine ⟨?_, ?_, ?_⟩
    · simp only [List.forall_mem_cons]
      exact ⟨inside_of_le (by dsimp only; omega) hroom, fun _ h => absurd h List.not_mem_nil⟩
    · rw [ramCalls_one]
      exact RamCall.longs_inside w b (c := ⟨0, len, page * 256 + 4⟩) (Nat.zero_le _)
        (by dsimp only; omega) hroom
    · have htouch := RamCall.touches w b (c := ⟨0, len, page * 256 + 4⟩) (Nat.zero_le _) hroom
      rw [ramCalls_one, htouch.2, List.range_eq_range']

/-- The copy of a packet is these calls. -/
theorem copyPacket_calls {info : HydraInfo} {page len : ℕ} (hn : info.nextPkt = page)
    (hs : info.rxStartPage = 8) (hp : page < 64) :
    copyPacket b info len = ramCalls b (copyCalls page len) := by
  have ho : info.nextPkt * 256 + 4 = ((page * 256 + 4 : ℕ) : ℤ) := by rw [hn]; push_cast; rfl
  have hstop : NE8390_STOP_PG * 256 = ((0x4000 : ℕ) : ℤ) := rfl
  have hstart : (8 : ℤ) * 256 = ((0x800 : ℕ) : ℤ) := rfl
  unfold copyPacket copyCalls
  dsimp only
  rw [ho, hstop, hs, hstart]
  by_cases hwrap : page * 256 + 4 + len > 0x4000
  · obtain ⟨semi, hsemi⟩ : ∃ semi, page * 256 + 4 + semi = 0x4000 :=
      ⟨0x4000 - (page * 256 + 4), by omega⟩
    obtain ⟨rest, rfl⟩ : ∃ rest, len = semi + rest := ⟨len - semi, by omega⟩
    have h₁ : 0x4000 - (page * 256 + 4) = semi := by omega
    have h₂ : semi + rest - semi = rest := Nat.add_sub_cancel_left semi rest
    have h₃ : ((0x4000 : ℕ) : ℤ) - ((page * 256 + 4 : ℕ) : ℤ) = (semi : ℕ) := by omega
    have h₄ : ((semi + rest : ℕ) : ℤ) - (semi : ℕ) = (rest : ℕ) := by omega
    rw [if_pos (by omega), if_pos hwrap, h₁, h₂, h₃, h₄, ramCalls_two]
    rfl
  · rw [if_neg (by omega), if_neg hwrap, ramCalls_one]
    rfl

theorem received_packet {n : Nic} {page : ℕ} {bytes : List Byte}
    (h : n.received page = .packet bytes) : page ≠ n.curr.toNat ∧
      ¬ (n.nextPage page < 8 ∨ 64 ≤ n.nextPage page) ∧ n.status page &&& NE_RSR_PRX ≠ 0 ∧
      ¬ (n.size page < 64 ∨ 1522 < n.size page) ∧ bytes.length = n.size page - 4 := by
  unfold Nic.received at h
  split_ifs at h with h₁ h₂ h₃ h₄
  refine ⟨h₁, h₂, h₃, h₄, ?_⟩
  rw [← Received.packet.inj h, Nic.packet, Ring.fetch, List.length_map, List.length_range]

/-- After the header of a frame that is accepted the packet is copied. -/
theorem receiveHeader_touches {info : HydraInfo} {n : Nic} {page : ℕ} {bytes : List Byte}
    (hr : n.received page = .packet bytes) :
    ∃ d, collect exec Op.touches (receiveHeader b info (n.bytes (page * 256) 4)) w =
      collect exec Op.touches (copyPacket b info bytes.length) (w.setDrv d) := by
  obtain ⟨-, h₁, h₂, h₃, hlen⟩ := received_packet hr
  have hnext := n.header_nextPage page
  have hstatus := n.header_status page
  have hsize := n.header_size page
  have hpktsize : (n.size page : ℤ) - 4 = bytes.length := by omega
  have hstatusOp : ∀ f w, collect exec Op.touches (modifyStatus b f) w = [] := fun _ _ => rfl
  have hifstats : ∀ f w, collect exec Op.touches (modifyIfstats b f) w = [] := fun _ _ => rfl
  have hmove : ∀ next w, collect exec Op.touches (moveTo b next) w = [] := fun _ _ => rfl
  unfold receiveHeader
  simp only [hnext, hstatus, hsize, hpktsize]
  rw [collect_bind, hstatusOp, List.nil_append, if_neg (by simp; omega), if_neg h₂,
    if_neg (by simp; omega)]
  simp only [collect_bind, hstatusOp, hifstats, hmove, collect_pure, List.append_nil,
    modifyStatus_run]
  exact ⟨_, rfl⟩

/-- What a pass that accepts a frame reads and stores: the header, and the calls of the copy. -/
theorem receiveFrame_touches {page : ℕ} (hn : (w.drv.board b).info.nextPkt = page)
    (hs : (w.drv.board b).info.rxStartPage = 8) (hp : 8 ≤ page ∧ page < 64) {bytes : List Byte}
    (h : (run exec (receiveFrame b) w).1 = .packet bytes) :
    ∃ w₁ w₂, run exec (ramCalls b (copyCalls page bytes.length)) w₂ = (bytes, w₂) ∧
      collect exec Op.touches (receiveFrame b) w =
        collect exec Op.touches (hydraRamRead b 4 4 page) w₁ ++
          collect exec Op.touches (ramCalls b (copyCalls page bytes.length)) w₂ := by
  obtain ⟨d, -, hrun⟩ := receiveFrame_run w b hn hs hp
  have hr : (w.nic b).received page = .packet bytes := by
    rw [← h, hrun]
  obtain ⟨hc, -, -, hsize, hlen⟩ := received_packet hr
  have hpacket : (w.nic b).packet page bytes.length = bytes := by
    have hr' := hr
    unfold Nic.received at hr'
    split_ifs at hr'
    rw [hlen]
    exact Received.packet.inj hr'
  have hread := fun w => readHeader_run w b hp.2
  have houtb : ∀ reg v w, collect exec Op.touches (hydraOutb b reg v) w = [] :=
    fun _ _ _ => rfl
  have hinb : ∀ reg w, collect exec Op.touches (hydraInb b reg) w = [] := fun _ _ => rfl
  have hstatus : ∀ f w, collect exec Op.touches (modifyStatus b f) w = [] := fun _ _ => rfl
  have hload : ∀ w, collect exec Op.touches load w = [] := fun _ => rfl
  have hcalls : copyPacket b (w.drv.board b).info bytes.length =
      ramCalls b (copyCalls page bytes.length) := copyPacket_calls b hn hs hp.2
  have hheader := fun v => @receiveHeader_touches v b (w.drv.board b).info
    { w.nic b with cmd := 0x22#8 } page bytes hr
  choose d' hheader using hheader
  unfold receiveFrame
  simp only [collect_bind, houtb, hinb, hstatus, hload, List.nil_append, hydraOutb_run,
    hydraInb_run, modifyStatus_run, run_load]
  simp [Nic.page, hn, hc, hread, hheader, hcalls]
  refine ⟨_, _, ?_, rfl⟩
  rw [← hcalls, copyPacket_run _ b hn hs hp (by omega)]
  rw [World.setNic_self]
  exact congrArg (Prod.mk · _) hpacket

end

/-! ### The passes of a call -/

/-- The states in which the passes of the loop begin. -/
def passStarts (b : BoardId) : ℕ → World → List World
  | 0, _ => []
  | n + 1, w => w :: match (run exec (receiveFrame b) w).1 with
      | .done => []
      | _ => passStarts b n (stepped b w .pass)

/-- If the pass accepts a frame, it reads the header and makes the calls of a copy that stays
inside. -/
def AcceptsInside (b : BoardId) (w : World) : Prop :=
  ∀ bytes, (run exec (receiveFrame b) w).1 = .packet bytes →
    ∃ page : ℕ, (w.drv.board b).info.nextPkt = page ∧ ∃ w₁ w₂,
      collect exec Op.touches (receiveFrame b) w =
        collect exec Op.touches (hydraRamRead b 4 4 page) w₁ ++
          collect exec Op.touches (ramCalls b (copyCalls page bytes.length)) w₂ ∧
      run exec (ramCalls b (copyCalls page bytes.length)) w₂ = (bytes, w₂) ∧
      CopiedInside b w₂ (copyCalls page bytes.length) bytes.length

section
variable (w : World) (b : BoardId)

theorem tossPacketUpStream_touches (packet : List Byte) :
    collect exec Op.touches (tossPacketUpStream b packet) w = [] := by
  have hnone : ∀ β (o : Op β), Op.Reports β o → ∀ t ∈ o.touches, False := fun _ o ho t ht => by
    cases o with
    | readl | poke => exact ho
    | _ => exact absurd ht List.not_mem_nil
  exact List.eq_nil_iff_forall_not_mem.mpr fun t ht =>
    ((tossPacketUpStream_all b packet).mono hnone).collect ht

theorem receiveLoop_touches (n : ℕ) : collect exec Op.touches (receiveLoop b n) w =
    (passStarts b n w).flatMap fun v => collect exec Op.touches (receiveFrame b) v := by
  induction n generalizing w with
  | zero => rfl
  | succ n ih =>
      have hp : stepped b w .pass = (run exec (driverStep b .pass) w).2 := rfl
      simp only [driverStep, run_bind] at hp
      rw [receiveLoop, passStarts, collect_bind, List.flatMap_cons]
      refine congrArg _ ?_
      cases hr : (run exec (receiveFrame b) w).1 with
      | done => rfl
      | again =>
          rw [hr] at hp
          dsimp only
          rw [ih, hp]
          rfl
      | packet p =>
          rw [hr] at hp
          dsimp only
          rw [collect_bind, tossPacketUpStream_touches, List.nil_append, ih, hp]
          simp only [run_bind, run_pure]

theorem passStarts_inv {n : ℕ} (h : BoundaryInv b w) : ∀ v ∈ passStarts b n w, BoundaryInv b v := by
  induction n generalizing w with
  | zero => exact fun v hv => absurd hv List.not_mem_nil
  | succ n ih =>
      intro v hv
      rw [passStarts] at hv
      rcases List.mem_cons.mp hv with rfl | hv
      · exact h
      · revert hv
        split
        · exact fun hv => absurd hv List.not_mem_nil
        · exact ih _ (h.step (.driver .pass)) v

variable {w b}

theorem BoundaryInv.acceptsInside (h : BoundaryInv b w) : AcceptsInside b w := by
  intro bytes hr
  obtain ⟨page, hn, hp⟩ := h.page
  obtain ⟨w₁, w₂, hrun, htouches⟩ := receiveFrame_touches w b hn h.rxStartPage hp hr
  obtain ⟨d, -, hframe⟩ := receiveFrame_run w b hn h.rxStartPage hp
  rw [hframe] at hr
  obtain ⟨-, -, -, hsize, hlen⟩ := received_packet hr
  exact ⟨page, hn, w₁, w₂, htouches, hrun, copyCalls_inside w₂ b hp (by omega)⟩

/-- From any contents of the ring and any `next_pkt` in it, each pass of `receive_interrupt`
that accepts a frame copies it with calls that stay in the ring, and stores just the bytes of the
packet; so does each pass of a run in which the card writes what it wants between the steps. -/
theorem receive_copy_inside (h : BoundaryInv b w) :
    collect exec Op.touches (receiveInterrupt b) w =
        (passStarts b 256 (stepped b w .enter)).flatMap
          (fun v => collect exec Op.touches (receiveFrame b) v) ∧
      (∀ v ∈ passStarts b 256 (stepped b w .enter), AcceptsInside b v) ∧
      ∀ es, AcceptsInside b (final (cardStep b) w es) := by
  have henter : BoundaryInv b (stepped b w .enter) := h.step (.driver .enter)
  refine ⟨?_, fun v hv => (passStarts_inv _ b henter v hv).acceptsInside,
    fun es => (final_invariant (BoundaryInv b) (fun _ e h => h.step e) h es).acceptsInside⟩
  have hloop := receiveLoop_touches (stepped b w .enter) b 256
  rw [← hloop, receiveInterrupt, collect_bind]
  rfl

/-- A frame of 348 bytes on the last page of the ring. -/
def onLastPage (b : BoardId) : World :=
  (World.off.setDrv (World.off.drv.modifyBoard b fun bd =>
      { bd with info := { bd.info with nextPkt := 63, rxStartPage := 8 } })).setNic b
    { Nic.off with
      curr := 10
      ram := fun a => if a < 63 * 256 then 0 else [10, 1, 0x60, 1].getD (a - 63 * 256) 0 }

theorem receive_copy_inside_onLastPage :
    (run exec (receiveFrame 0) (onLastPage 0)).1 = .packet (.replicate 348 0) ∧
      copyCalls 63 348 = [⟨0, 252, 0x3f04⟩, ⟨252, 96, 0x800⟩] ∧
      AcceptsInside 0 (onLastPage 0) := by
  have h : BoundaryInv 0 (onLastPage 0) := ⟨rfl, 63, rfl, by decide, by decide⟩
  exact ⟨by decide +kernel, by decide, (receive_copy_inside h).2.2 []⟩

end

end HydraAmix.Hydra
