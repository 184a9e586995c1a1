import HydraAmix.Hydra.MessageBounds
import HydraAmix.Hydra.ReceiveRing

/-!
# What demultiplexing reads of a frame

For an ordinary frame the data is what follows the Ethernet header. For a
trailer frame the type says where the data ends and a field behind the data
says how long the trailer is, and neither is compared with the length of the
frame. `WellTrailed` is that comparison; it is exactly what keeps
`toss_packet_up_stream` inside the frame for every stream table and every
outcome of the allocations.
-/
namespace HydraAmix.Hydra
open Word Program Prog DlState

/-- The type field and, for a trailer frame, the length it stands for. -/
def etherType (packet : List Byte) : BitVec 16 := short (packet.getD 12 0) (packet.getD 13 0)

def trailerStart (packet : List Byte) : ℕ := (etherType packet - ETHERTYPE_TRAIL).toNat * 512

/-- The type a trailer frame is delivered under. -/
def innerType (packet : List Byte) : BitVec 16 :=
  short (packet.getD (ETH_HEADER_SIZE + trailerStart packet) 0)
    (packet.getD (ETH_HEADER_SIZE + trailerStart packet + 1) 0)

/-- The length field behind the data of a trailer frame. -/
def trailerLength (packet : List Byte) : ℕ :=
  (short (packet.getD (ETH_HEADER_SIZE + trailerStart packet + 2) 0)
    (packet.getD (ETH_HEADER_SIZE + trailerStart packet + 3) 0)).toNat

/-- The trailer of a trailer frame lies inside the frame, header included. -/
def WellTrailed (packet : List Byte) : Prop :=
  isTrailer (etherType packet) = true →
    ETH_HEADER_SIZE + trailerStart packet + 4 ≤ packet.length ∧ 4 ≤ trailerLength packet ∧
      ETH_HEADER_SIZE + trailerStart packet + trailerLength packet ≤ packet.length

/-- Memory is asked for in non-negative amounts, and a delivered message has
`n` bytes of data. -/
def Op.Sized (n : ℤ) : (β : Type) → Op β → Prop
  | _, .allocb (.bytes k) => 0 ≤ k
  | _, .putnext _ (.unitdataInd _ _ data) => (data.length : ℤ) = n
  | _, _ => True

/-- Every request for memory and every delivery of the execution has its size. -/
def Sized {α : Type} (n : ℤ) (p : HydraM α) (w : World) : Prop :=
  Along exec (fun β o _ => Op.Sized n β o) p w

theorem sized_bind {α β : Type} {n : ℤ} (p : HydraM α) (f : α → HydraM β) (w : World) :
    Sized n (p >>= f) w ↔ Sized n p w ∧ Sized n (f (run exec p w).1) (run exec p w).2 :=
  along_bind p f w

theorem Sized.of_all {α : Type} {n : ℤ} {p : HydraM α} (h : All (Op.Sized n) p) (w : World) :
    Sized n p w := h.along (fun _ _ _ hc => hc) w

theorem Sized.ite {α : Type} {n : ℤ} {c : Prop} {_ : Decidable c} {p p' : HydraM α} {w : World}
    (h : Sized n p w) (h' : Sized n p' w) : Sized n (if c then p else p') w := by
  split
  · exact h
  · exact h'

/-- The type, `length` and `trailn` that `toss_packet_up_stream` works with. -/
def lengths (b : BoardId) (packet : List Byte) (w : World) : BitVec 16 × ℤ × ℤ :=
  (run exec (do packetLengths b packet (← peekShort packet 12)) w).1

/-- What is asked of the handling of a packet. -/
structure Demuxed (b : BoardId) (packet : List Byte) (w : World) : Prop where
  length : 0 ≤ (lengths b packet w).2.1
  trailn : 0 ≤ (lengths b packet w).2.2
  reads : ReadsInside (tossPacketUpStream b packet) w
  sized : Sized ((lengths b packet w).2.1 + (lengths b packet w).2.2)
    (tossPacketUpStream b packet) w

/-! ### Reads of a packet -/

section
variable (b : BoardId) {packet : List Byte} (w : World)

theorem peeks_all_inside {buf : List Byte} {i : ℤ} {n : ℕ} (hi : 0 ≤ i) (h : i + n ≤ buf.length) :
    All Op.Inside (peeks buf i n) := by
  induction n generalizing i with
  | zero => exact all_pure []
  | succ n ih =>
      refine .bind (.perform ⟨hi, by omega⟩) fun x => ?_
      exact .bind (ih (by omega) (by omega)) fun xs => all_pure _

theorem peekShort_inside_iff (buf : List Byte) (i : ℤ) :
    ReadsInside (peekShort buf i) w ↔ 0 ≤ i ∧ i + 1 < buf.length := by
  simp only [peekShort, readsInside_bind, readsInside_perform, readsInside_pure, run_peek, and_true,
    Op.Inside]
  omega

theorem peekShort_getD {buf : List Byte} {i : ℕ} (h : i + 1 < buf.length) :
    run exec (peekShort buf i) w = (short (buf.getD i 0) (buf.getD (i + 1) 0), w) := by
  have h₁ : w.byteAt buf ((i + 1 : ℕ) : ℤ) = buf.getD (i + 1) 0 := by
    rw [w.byteAt_of_lt h, List.getD_eq_getElem _ _ h]
  have h₀ : w.byteAt buf i = buf.getD i 0 := by
    rw [w.byteAt_of_lt (by omega), List.getD_eq_getElem _ _ (by omega)]
  rw [Nat.cast_add, Nat.cast_one] at h₁
  rw [peekShort_run, h₀, h₁]

theorem copyPayload_inside {length trailn : ℤ} (hl : 0 ≤ length)
    (hd : ETH_HEADER_SIZE + length ≤ packet.length) (ht : 0 ≤ trailn) (hb : trailn < 65536)
    (he : trailn = 0 ∨ ETH_HEADER_SIZE + length + 4 + trailn ≤ packet.length) :
    All Op.Inside (copyPayload packet length trailn) := by
  have hdata : ∀ t, All Op.Inside (do
      let data ← peeks packet ETH_HEADER_SIZE length.toNat
      return t ++ data) := fun t =>
    .bind (peeks_all_inside (by omega) (by omega)) fun data => all_pure _
  unfold copyPayload
  by_cases h0 : trailn = 0
  · rw [if_neg (not_not.mpr h0)]
    exact hdata []
  · rw [if_pos h0]
    refine .bind (peeks_all_inside ?_ ?_) fun t => hdata t
    · omega
    · rw [Int.emod_eq_of_lt ht (by omega)]
      omega

theorem tossRaw_inside (q : QId) : All Op.Inside (tossRaw b packet q) := by
  have hstatus : ∀ f, All Op.Inside (modifyStatus b f) := fun f => .perform trivial
  refine .bind (.perform trivial) fun _ => .ite ?_ (hstatus _)
  refine .bind (.perform trivial) fun _ => .ite ?_ (hstatus _)
  refine .bind (.perform trivial) fun _ => .ite ?_ ?_
  · refine .bind (.perform trivial) fun d => ?_
    exact .bind (peeks_all_inside le_rfl (by omega)) fun data => .perform trivial
  · exact .bind (hstatus _) fun _ => .perform trivial

theorem tossBound_inside (hp : 12 ≤ packet.length) (sap : BitVec 16) {length trailn : ℤ}
    (hc : All Op.Inside (copyPayload packet length trailn)) (q : QId) :
    All Op.Inside (tossBound b packet sap length trailn q) := by
  have hstatus : ∀ f, All Op.Inside (modifyStatus b f) := fun f => .perform trivial
  refine .bind (peeks_all_inside le_rfl (by omega)) fun dest => .bind (.perform trivial) fun d => ?_
  refine .ite (hstatus _) (.bind (.perform trivial) fun _ => .ite ?_ (hstatus _))
  refine .bind (.perform trivial) fun _ => .ite ?_ (hstatus _)
  refine .bind (.perform trivial) fun _ => .ite ?_ ?_
  · refine .bind (peeks_all_inside (by omega) (by omega)) fun src => .bind hc fun data => ?_
    exact .bind (.perform trivial) fun _ => hstatus _
  · exact .bind (hstatus _) fun _ => .perform trivial

theorem tossStreams_inside (hp : 12 ≤ packet.length) (sap : BitVec 16) {length trailn : ℤ}
    (hc : All Op.Inside (copyPayload packet length trailn)) (ns : List (Fin HYDRA_MAXDEV)) :
    All Op.Inside (tossStreams b packet sap length trailn ns) := by
  induction ns with
  | nil => exact all_pure false
  | cons n ns ih =>
      refine .bind (.perform trivial) fun d => ?_
      dsimp only
      split
      · exact ih
      · refine .ite (.bind (tossRaw_inside b _) fun _ => ih) (.ite ?_ ih)
        exact .bind (tossBound_inside b hp sap hc _) fun _ => .bind ih fun _ => all_pure true

/-! ### Sizes -/

theorem copyPayload_length {length trailn : ℤ} (hl : 0 ≤ length) (ht : 0 ≤ trailn)
    (hb : trailn < 65536) :
    ((run exec (copyPayload packet length trailn) w).1.length : ℤ) = length + trailn := by
  unfold copyPayload
  by_cases h0 : trailn = 0
  · rw [if_neg (not_not.mpr h0)]
    simp [hl, h0]
  · rw [if_pos h0, Int.emod_eq_of_lt ht (by omega)]
    simp [hl, ht]
    omega

theorem peeks_sized (n : ℤ) (buf : List Byte) (i : ℤ) (k : ℕ) : All (Op.Sized n) (peeks buf i k) := by
  induction k generalizing i with
  | zero => exact all_pure []
  | succ k ih => exact .bind (.perform trivial) fun x => .bind (ih _) fun xs => all_pure _

theorem copyPayload_sized (n length trailn : ℤ) :
    All (Op.Sized n) (copyPayload packet length trailn) := by
  have hdata : ∀ t, All (Op.Sized n) (do
      let data ← peeks packet ETH_HEADER_SIZE length.toNat
      return t ++ data) := fun t => .bind (peeks_sized _ _ _ _) fun data => all_pure _
  unfold copyPayload
  exact .ite (.bind (peeks_sized _ _ _ _) fun t => hdata t) (hdata [])

theorem tossRaw_sized (n : ℤ) (q : QId) : All (Op.Sized n) (tossRaw b packet q) := by
  have hstatus : ∀ f, All (Op.Sized n) (modifyStatus b f) := fun f => .perform trivial
  refine .bind (.perform trivial) fun _ => .ite ?_ (hstatus _)
  refine .bind (.perform trivial) fun _ => .ite ?_ (hstatus _)
  refine .bind (.perform (Int.natCast_nonneg _)) fun _ => .ite ?_ ?_
  · refine .bind (.perform trivial) fun d => ?_
    exact .bind (peeks_sized _ _ _ _) fun data => .perform trivial
  · exact .bind (hstatus _) fun _ => .perform trivial

theorem packetLengths_sized (n : ℤ) (sap : BitVec 16) :
    All (Op.Sized n) (packetLengths b packet sap) := by
  have hshort : ∀ i, All (Op.Sized n) (peekShort packet i) := fun i =>
    .bind (.perform trivial) fun _ => .bind (.perform trivial) fun _ => all_pure _
  unfold packetLengths
  refine .ite (.bind (hshort _) fun _ => .bind (hshort _) fun _ => ?_) (all_pure _)
  exact .bind ⟨trivial, fun _ => trivial⟩ fun _ => all_pure _

theorem tossBound_sized (sap : BitVec 16) {length trailn : ℤ} (hl : 0 ≤ length) (ht : 0 ≤ trailn)
    (hb : trailn < 65536) (q : QId) :
    Sized (length + trailn) (tossBound b packet sap length trailn q) w := by
  have hstatus : ∀ f, All (Op.Sized (length + trailn)) (modifyStatus b f) :=
    fun f => .perform trivial
  unfold tossBound
  refine (sized_bind _ _ _).mpr ⟨.of_all (peeks_sized _ _ _ _) _, ?_⟩
  refine (sized_bind _ _ _).mpr ⟨⟨trivial, trivial⟩, ?_⟩
  refine .ite (.of_all (hstatus _) _) ?_
  refine (sized_bind _ _ _).mpr ⟨⟨trivial, trivial⟩, .ite ?_ (.of_all (hstatus _) _)⟩
  refine (sized_bind _ _ _).mpr ⟨⟨trivial, trivial⟩, .ite ?_ (.of_all (hstatus _) _)⟩
  refine (sized_bind _ _ _).mpr ⟨⟨add_nonneg hl ht, trivial⟩, .ite ?_ ?_⟩
  · refine (sized_bind _ _ _).mpr ⟨.of_all (peeks_sized _ _ _ _) _, ?_⟩
    refine (sized_bind _ _ _).mpr ⟨.of_all (copyPayload_sized _ _ _) _, ?_⟩
    refine (sized_bind _ _ _).mpr ⟨⟨copyPayload_length _ hl ht hb, trivial⟩, ?_⟩
    exact .of_all (hstatus _) _
  · exact (sized_bind _ _ _).mpr ⟨.of_all (hstatus _) _, trivial, trivial⟩

theorem tossStreams_sized (sap : BitVec 16) {length trailn : ℤ} (hl : 0 ≤ length) (ht : 0 ≤ trailn)
    (hb : trailn < 65536) (ns : List (Fin HYDRA_MAXDEV)) :
    Sized (length + trailn) (tossStreams b packet sap length trailn ns) w := by
  induction ns generalizing w with
  | nil => exact .of_all (all_pure false) w
  | cons n ns ih =>
      rw [tossStreams, sized_bind]
      refine ⟨⟨trivial, trivial⟩, ?_⟩
      dsimp only
      split
      · exact ih _
      · refine .ite ((sized_bind _ _ _).mpr ⟨.of_all (tossRaw_sized b _ _) _, ih _⟩) (.ite ?_ (ih _))
        refine (sized_bind _ _ _).mpr ⟨tossBound_sized b _ sap hl ht hb _, ?_⟩
        exact (sized_bind _ _ _).mpr ⟨ih _, .of_all (all_pure true) _⟩

/-! ### The lengths -/

theorem packetLengths_ordinary (h : isTrailer (etherType packet) = false) :
    run exec (packetLengths b packet (etherType packet)) w =
      ((etherType packet, (packet.length : ℤ) - ETH_HEADER_SIZE, 0), w) := by
  simp [packetLengths, h]

theorem packetLengths_trailer (h : isTrailer (etherType packet) = true)
    (hl : ETH_HEADER_SIZE + trailerStart packet + 4 ≤ packet.length) :
    ∃ d, w.drv.CountersOnly d ∧
      run exec (packetLengths b packet (etherType packet)) w =
        ((innerType packet, (trailerStart packet : ℤ), (trailerLength packet : ℤ) - 2 - 2),
          w.setDrv d) ∧
      ReadsInside (packetLengths b packet (etherType packet)) w := by
  have hstart : ((etherType packet - ETHERTYPE_TRAIL).toNat : ℤ) * 512 = trailerStart packet := by
    rw [trailerStart]
    push_cast
    rfl
  have h₂ : (ETH_HEADER_SIZE : ℤ) + (trailerStart packet : ℤ) + 2 =
      ((ETH_HEADER_SIZE + trailerStart packet + 2 : ℕ) : ℤ) := by push_cast; rfl
  have h₀ : (ETH_HEADER_SIZE : ℤ) + (trailerStart packet : ℤ) =
      ((ETH_HEADER_SIZE + trailerStart packet : ℕ) : ℤ) := by push_cast; rfl
  have hlen := @peekShort_getD w packet _
    (by omega : ETH_HEADER_SIZE + trailerStart packet + 2 + 1 < packet.length)
  have hsap := @peekShort_getD w packet _
    (by omega : ETH_HEADER_SIZE + trailerStart packet + 1 < packet.length)
  have hstatus : ∀ f w, ReadsInside (modifyStatus b f) w := fun f w => ⟨trivial, trivial⟩
  rw [packetLengths, if_pos h, hstart]
  dsimp only
  rw [h₂, h₀]
  refine ⟨_, ?_, by
    simp only [run_bind, hlen, hsap, modifyStatus_run, run_pure]
    rfl, ?_⟩
  · exact .modifyBoard _ b rfl rfl rfl
  · simp only [readsInside_bind, readsInside_pure, peekShort_inside_iff, hlen, hsap, hstatus,
      and_true]
    omega

/-! ### The whole routine -/

theorem etherType_run (hp : 14 ≤ packet.length) :
    run exec (peekShort packet 12) w = (etherType packet, w) ∧ ReadsInside (peekShort packet 12) w := by
  refine ⟨peekShort_getD w (by omega : 12 + 1 < packet.length), ?_⟩
  rw [peekShort_inside_iff]
  omega

/-- Given what `packetLengths` returns, the rest of the routine is in order. -/
theorem demuxed_of_lengths (hp : 60 ≤ packet.length) {sap : BitVec 16} {length trailn : ℤ}
    (hrun : ∀ w, ∃ d, w.drv.CountersOnly d ∧
      run exec (packetLengths b packet (etherType packet)) w = ((sap, length, trailn), w.setDrv d) ∧
      ReadsInside (packetLengths b packet (etherType packet)) w)
    (hl : 0 ≤ length) (ht : 0 ≤ trailn) (hb : trailn < 65536)
    (hc : All Op.Inside (copyPayload packet length trailn)) : Demuxed b packet w := by
  choose d hd hr hin using hrun
  have hlengths : lengths b packet w = (sap, length, trailn) := by
    rw [lengths, run_bind, (etherType_run w (by omega)).1, hr]
  have hshort := etherType_run w (by omega : 14 ≤ packet.length)
  refine ⟨hlengths ▸ hl, hlengths ▸ ht, ?_, ?_⟩
  · have hstatus : ∀ f w, ReadsInside (modifyStatus b f) w := fun f w => ⟨trivial, trivial⟩
    simp only [tossPacketUpStream, readsInside_bind, hshort, hstatus, modifyStatus_run, hr, hin,
      true_and]
    refine ⟨.of_all _ (tossStreams_inside b (by omega) sap hc _), .of_all _ ?_⟩
    exact .ite (all_pure ()) (.perform trivial)
  · have hstatus : ∀ f w, Sized (length + trailn) (modifyStatus b f) w := fun f w => ⟨trivial, trivial⟩
    have hpeek : Sized (length + trailn) (peekShort packet 12) w := ⟨trivial, trivial, trivial⟩
    rw [hlengths]
    simp only [tossPacketUpStream, sized_bind, hshort, hpeek, hstatus, modifyStatus_run, hr,
      true_and]
    refine ⟨.of_all (packetLengths_sized _ _ _) _, tossStreams_sized b _ sap hl ht hb _, .of_all ?_ _⟩
    exact .ite (all_pure ()) (.perform trivial)

theorem demuxed_of_wellTrailed (hp : 60 ≤ packet.length) (hmax : packet.length ≤ 1518)
    (h : WellTrailed packet) : Demuxed b packet w := by
  have h14 : ETH_HEADER_SIZE = 14 := rfl
  cases ht : isTrailer (etherType packet) with
  | false =>
      refine demuxed_of_lengths b w hp
        (fun w => ⟨w.drv, (World.CountersOnly.refl w).drv, packetLengths_ordinary b w ht, ?_⟩)
        (by omega) le_rfl (by omega)
        (copyPayload_inside (by omega) (by omega) le_rfl (by omega) (.inl rfl))
      rw [packetLengths, if_neg (by simp [ht])]
      trivial
  | true =>
      obtain ⟨h₁, h₂, h₃⟩ := h ht
      have hlt : trailerLength packet < 65536 := BitVec.isLt _
      refine demuxed_of_lengths b w hp (fun w => packetLengths_trailer b w ht h₁) (by omega)
        (by omega) (by omega) (copyPayload_inside ?_ ?_ ?_ ?_ ?_)
      all_goals omega

/-- A machine in which every stream of the board is bound to a type and the
board has the destination address of the packet. -/
def World.bound (b : BoardId) (packet : List Byte) (sap : BitVec 16) : World :=
  World.off.setDrv (World.off.drv.modifyBoard b fun bd => { bd with
    hydra := fun _ => ⟨some 0, DL_IDLE, b, 0, sap⟩
    info := { bd.info with paddress := Vector.ofFn fun i => packet.getD i 0 } })

/-- Delivery of a trailer frame reads the trailer to its end. -/
theorem tossBound_reads (hp : 60 ≤ packet.length) {sap : BitVec 16} {length trailn : ℤ} {q : QId}
    (haddr : (w.drv.board b).info.paddress = Vector.ofFn fun i => packet.getD i 0)
    (hcan : w.canput q = true) (hmem : ∀ n, w.allocs n = true)
    (h : ReadsInside (tossBound b packet sap length trailn q) w) :
    ∃ w', ReadsInside (copyPayload packet length trailn) w' := by
  have hdest : packet.take 6 = (w.drv.board b).info.paddress.toList := by
    rw [haddr, Vector.toList_ofFn]
    apply List.ext_getElem
    · simp
      omega
    · intro i h₁ h₂
      have hi : i < packet.length := by
        rw [List.length_ofFn] at h₂
        omega
      simp only [List.getElem_take, List.getElem_ofFn, List.getD_eq_getElem _ _ hi]
  simp only [tossBound, readsInside_bind, peeks_block w packet (by omega : 6 ≤ packet.length),
    run_load, hdest, ne_eq, not_true_eq_false, false_and, if_false, run_canput, hcan, if_true,
    run_allocb, hmem, World.useAlloc] at h
  exact ⟨_, h.2.2.2.2.2.2.1⟩

/-- The reads of the two fields behind the data of a trailer frame. -/
theorem trailerStart_of_reads (hp : 14 ≤ packet.length) (ht : isTrailer (etherType packet) = true)
    (h : ReadsInside (tossPacketUpStream b packet) w) :
    ETH_HEADER_SIZE + trailerStart packet + 4 ≤ packet.length := by
  have h14 : ETH_HEADER_SIZE = 14 := rfl
  have hstatus : ∀ f w, ReadsInside (modifyStatus b f) w := fun f w => ⟨trivial, trivial⟩
  simp only [tossPacketUpStream, readsInside_bind, etherType_run w hp, hstatus, modifyStatus_run,
    true_and] at h
  have hlen := h.1
  rw [packetLengths, if_pos ht] at hlen
  dsimp only at hlen
  rw [readsInside_bind, peekShort_inside_iff] at hlen
  unfold trailerStart
  omega

/-- A frame handled correctly with every stream table is well trailed. -/
theorem wellTrailed_of_demuxed (hp : 60 ≤ packet.length) (hmax : packet.length ≤ 1518)
    (h : ∀ w, Demuxed b packet w) : WellTrailed packet := by
  intro ht
  have h14 : ETH_HEADER_SIZE = 14 := rfl
  have hshort := fun w => etherType_run w (by omega : 14 ≤ packet.length)
  have hstatus : ∀ f w, ReadsInside (modifyStatus b f) w := fun f w => ⟨trivial, trivial⟩
  generalize hw : World.bound b packet (innerType packet) = w at h
  have hreads := (h w).reads
  have hl := trailerStart_of_reads b w (by omega) ht hreads
  simp only [tossPacketUpStream, readsInside_bind, hshort, hstatus, modifyStatus_run, true_and]
    at hreads
  have h4 : 4 ≤ trailerLength packet := by
    obtain ⟨d, -, hrun, -⟩ := packetLengths_trailer b w ht hl
    have htrailn := (h w).trailn
    rw [lengths, run_bind, (hshort w).1, hrun] at htrailn
    dsimp only at htrailn
    omega
  refine ⟨hl, h4, ?_⟩
  obtain ⟨w', hcopy⟩ : ∃ w', ReadsInside (copyPayload packet (trailerStart packet)
      ((trailerLength packet : ℤ) - 2 - 2)) w' := by
    have hbound : ∀ d, w.drv.CountersOnly d → ∃ ns, List.finRange HYDRA_MAXDEV = 0 :: ns ∧
        (d.board b).hydra 0 = ⟨some 0, DL_IDLE, b, 0, innerType packet⟩ ∧
        (d.board b).info.paddress = Vector.ofFn fun i => packet.getD i 0 := fun d hd => by
      refine ⟨_, List.finRange_succ, ?_, ?_⟩
      · rw [hd.hydra, ← hw]
        simp [World.bound]
      · rw [hd.info, ← hw]
        simp [World.bound]
    generalize hw₁ : w.setDrv _ = w₁ at hreads
    have hd₁ : w.drv.CountersOnly w₁.drv := by
      rw [← hw₁, World.setDrv_drv]
      exact .modifyBoard _ b rfl rfl rfl
    obtain ⟨d, hd, hrun, -⟩ := packetLengths_trailer b w₁ ht hl
    obtain ⟨ns, hns, hslot, haddr⟩ := hbound d (hd₁.trans hd)
    have htoss := hreads.2.1
    rw [hrun, hns, tossStreams] at htoss
    simp only [readsInside_bind, run_load, World.setDrv_drv, hslot] at htoss
    rw [if_neg (by decide), if_pos trivial, readsInside_bind] at htoss
    refine tossBound_reads b (w₁.setDrv d) hp haddr ?_ ?_ htoss.2.1
    · rw [← hw₁, ← hw]
      rfl
    · rw [← hw₁, ← hw]
      exact fun _ => rfl
  have hlt : trailerLength packet < 65536 := BitVec.isLt _
  unfold copyPayload at hcopy
  by_cases h0 : (trailerLength packet : ℤ) - 2 - 2 = 0
  · omega
  · obtain ⟨n, hn⟩ : ∃ n : ℕ, trailerLength packet = n + 5 := ⟨trailerLength packet - 5, by omega⟩
    have hcount : (((trailerLength packet : ℤ) - 2 - 2) % 4294967296).toNat = n + 1 := by omega
    rw [if_pos h0, hcount, readsInside_bind, peeks_inside_iff] at hcopy
    omega

end

end HydraAmix.Hydra
