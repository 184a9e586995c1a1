import HydraAmix.Hydra.Indications

/-!
# What becomes of an ordinary frame at every slot

`toss_packet_up_stream` goes through the slots of a board. At each of them an
ordinary frame comes to one of seven ends, which depends on the slot, on
`canput` and on the next answers of `allocb`; the statistics and the fate of
every block follow from it. The driver writes the two addresses behind a union
whose size the system's headers give; `size` stands for it.
-/
namespace HydraAmix.Hydra
open Word Program Prog

/-- An answer of `allocb`, a block given back, and a message put upstream, with
its addresses and its data if it is a DL_UNITDATA_IND. -/
inductive BlockEvent where
  | taken
  | refused
  | freed
  | put (q : QId) (ind : Option (List Byte × List Byte × List Byte))
  deriving DecidableEq, Repr

def Op.blockEvents : {β : Type} → Op β → β → List BlockEvent
  | _, .allocb _, mem => if mem then [.taken] else [.refused]
  | _, .freemsg _, _ => [.freed]
  | _, .putnext q (.unitdataInd dest src data), _ => [.put q (some (dest, src, data))]
  | _, .putnext q _, _ => [.put q none]
  | _, _, _ => []

/-- What becomes of a frame at a slot; `first` is whether a block has to be given back. -/
inductive Fate where
  | skipped
  | notForUs
  | full
  | noMemory (first : Bool)
  | raw (q : QId)
  | sent (q : QId)
  deriving DecidableEq, Repr

namespace Fate

/-- The calls of `allocb`. -/
def calls : Fate → ℕ
  | noMemory first => if first then 2 else 1
  | raw _ | sent _ => 2
  | _ => 0

def events (ind : List Byte × List Byte × List Byte) : Fate → List BlockEvent
  | noMemory first => if first then [.taken, .refused, .freed] else [.refused]
  | raw q => [.taken, .taken, .put q none]
  | sent q => [.taken, .taken, .put q (some ind)]
  | _ => []

def count (sap : BitVec 16) : Fate → HydraStatus → HydraStatus
  | notForUs, st => { st with rxNotForUs := st.rxNotForUs + 1 }
  | full, st => { st with couldntPut := st.couldntPut + 1 }
  | noMemory _, st => { st with allocbsFailed := st.allocbsFailed + 1 }
  | sent _, st => { st with
      rxDelivered := st.rxDelivered + 1
      rxArpDelivered := st.rxArpDelivered + if sap = ETHERTYPE_ARP then 1 else 0
      rxIpDelivered := st.rxIpDelivered + if sap = ETHERTYPE_IP then 1 else 0 }
  | _, st => st

def isNotForUs : Fate → Bool
  | notForUs => true
  | _ => false

def isFull : Fate → Bool
  | full => true
  | _ => false

def isNoMemory : Fate → Bool
  | noMemory _ => true
  | _ => false

def isSent : Fate → Bool
  | sent _ => true
  | _ => false

/-- The end of a frame that is to go up, `good` if all goes well. -/
def offer (room first second : Bool) (good : Fate) : Fate :=
  if room then if first then if second then good else noMemory true else noMemory false
  else full

end Fate

namespace HydraT

/-- An open stream in raw mode, and one bound to a type that is not. -/
def Raw (hp : HydraT) : Prop := hp.q ≠ none ∧ hp.flags &&& HYDRA_RAW_DATA ≠ 0

def Bound (hp : HydraT) (sap : BitVec 16) : Prop :=
  hp.q ≠ none ∧ hp.flags &&& HYDRA_RAW_DATA = 0 ∧ hp.sap = sap

instance (hp : HydraT) : Decidable hp.Raw := by
  unfold Raw
  infer_instance

instance (hp : HydraT) (sap : BitVec 16) : Decidable (hp.Bound sap) := by
  unfold Bound
  infer_instance

def fate (hp : HydraT) (canput : QId → Bool) (sap : BitVec 16) (forUs first second : Bool) : Fate :=
  match hp.q with
  | none => .skipped
  | some q =>
      if hp.flags &&& HYDRA_RAW_DATA ≠ 0 then Fate.offer (canput q) first second (.raw q)
      else if hp.sap = sap then
        if forUs then Fate.offer (canput q) first second (.sent q) else .notForUs
      else .skipped

section
variable {hp : HydraT} {canput : QId → Bool} {sap : BitVec 16} {forUs first second : Bool} {q : QId}

theorem fate_of_none (hq : hp.q = none) :
    hp.fate canput sap forUs first second = .skipped ∧ ¬hp.Bound sap := by
  constructor
  · rw [fate, hq]
  · exact fun h => h.1 hq

theorem fate_of_raw (hq : hp.q = some q) (hraw : hp.flags &&& HYDRA_RAW_DATA ≠ 0) :
    hp.fate canput sap forUs first second = .offer (canput q) first second (.raw q) ∧
      ¬hp.Bound sap := by
  constructor
  · rw [fate, hq]
    exact if_pos hraw
  · exact fun h => hraw h.2.1

theorem fate_of_bound (hq : hp.q = some q) (hraw : hp.flags &&& HYDRA_RAW_DATA = 0)
    (hsap : hp.sap = sap) : hp.fate canput sap forUs first second =
      (if forUs then .offer (canput q) first second (.sent q) else .notForUs) ∧ hp.Bound sap := by
  constructor
  · rw [fate, hq]
    exact (if_neg (not_not.mpr hraw)).trans (if_pos hsap)
  · exact ⟨hq ▸ Option.some_ne_none q, hraw, hsap⟩

theorem fate_of_other (hq : hp.q = some q) (hraw : hp.flags &&& HYDRA_RAW_DATA = 0)
    (hsap : hp.sap ≠ sap) :
    hp.fate canput sap forUs first second = .skipped ∧ ¬hp.Bound sap := by
  constructor
  · rw [fate, hq]
    exact (if_neg (not_not.mpr hraw)).trans (if_neg hsap)
  · exact fun h => hsap h.2.2

end
end HydraT

/-- The frame goes to the station or to all. -/
def ForUs (packet : List Byte) (paddress : Vector Byte 6) : Prop :=
  packet.take 6 = paddress.toList ∨ packet.take 6 = broadcastAddress

instance (packet : List Byte) (paddress : Vector Byte 6) : Decidable (ForUs packet paddress) := by
  unfold ForUs
  infer_instance

section
variable (hydra : Fin HYDRA_MAXDEV → HydraT) (canput : QId → Bool) (sap : BitVec 16) (forUs : Bool)

/-- The slots with what becomes of the frame; each takes its answers of `allocb`
off the front. -/
def fates : List (Fin HYDRA_MAXDEV) → (ℕ → Bool) → List (Fin HYDRA_MAXDEV × Fate)
  | [], _ => []
  | n :: ns, allocs =>
      let f := (hydra n).fate canput sap forUs (allocs 0) (allocs 1)
      (n, f) :: fates ns fun i => allocs (i + f.calls)

end

/-- What becomes of a frame at the slots of a board. -/
def World.fates (w : World) (b : BoardId) (packet : List Byte) :
    List (Fin HYDRA_MAXDEV × Fate) :=
  Hydra.fates (w.drv.board b).hydra w.canput (etherType packet)
    (ForUs packet (w.drv.board b).info.paddress) (List.finRange HYDRA_MAXDEV) w.allocs

/-! ### One slot -/

/-- What the handling of a slot leaves: statistics counted by `f`, and `k` calls
of `allocb`. -/
structure World.After (b : BoardId) (f : HydraStatus → HydraStatus) (k : ℕ) (w w' : World) :
    Prop where
  canput : w'.canput = w.canput
  allocs : w'.allocs = fun i => w.allocs (i + k)
  hydra : (w'.drv.board b).hydra = (w.drv.board b).hydra
  info : (w'.drv.board b).info = (w.drv.board b).info
  status : (w'.drv.board b).status = f (w.drv.board b).status

section
variable {w w' w'' : World} {b : BoardId} {f g : HydraStatus → HydraStatus} {k l : ℕ}

theorem World.After.refl (w : World) (b : BoardId) : World.After b id 0 w w :=
  ⟨rfl, rfl, rfl, rfl, rfl⟩

theorem World.After.trans (h : World.After b f k w w') (h' : World.After b g l w' w'') :
    World.After b (g ∘ f) (k + l) w w'' where
  canput := h'.canput.trans h.canput
  allocs := by
    rw [h'.allocs, h.allocs]
    funext i
    exact congrArg w.allocs (by omega)
  hydra := h'.hydra.trans h.hydra
  info := h'.info.trans h.info
  status := by rw [h'.status, h.status]; rfl

/-- Some calls of `allocb`, and the statistics after them. -/
theorem World.After.counted (hc : w'.canput = w.canput)
    (ha : w'.allocs = fun i => w.allocs (i + k)) :
    World.After b f k w
      (w'.setDrv (w.drv.modifyBoard b fun bd => { bd with status := f bd.status })) where
  canput := hc
  allocs := ha
  hydra := by rw [World.setDrv_drv, Driver.modifyBoard_self]
  info := by rw [World.setDrv_drv, Driver.modifyBoard_self]
  status := by rw [World.setDrv_drv, Driver.modifyBoard_self]

end

section
variable {w : World} {b : BoardId} {packet : List Byte} {q : QId}

/-- The bytes of a buffer from an index on. -/
theorem peeks_slice (w : World) {buf : List Byte} {i n : ℕ} (h : i + n ≤ buf.length) :
    run exec (peeks buf i n) w = ((buf.drop i).take n, w) := by
  rw [peeks_run]
  refine congrArg (Prod.mk · w) (List.ext_getElem (by simp; omega) fun j h₁ h₂ => ?_)
  simp only [List.length_map, List.length_range] at h₁
  rw [List.getElem_map, List.getElem_range, List.getElem_take, List.getElem_drop]
  exact w.byteAt_of_lt (by omega : i + j < buf.length)

theorem peeks_quiet (buf : List Byte) (i : ℤ) (n : ℕ) (w : World) :
    transcript exec Op.blockEvents (peeks buf i n) w = [] := by
  refine All.transcript ?_ w
  induction n generalizing i with
  | zero => exact all_pure []
  | succ n ih =>
      exact .bind (.perform fun _ => rfl) fun x => .bind (ih _) fun xs => all_pure _

section
variable (w : World)

@[simp] theorem transcript_canput (q : QId) :
    transcript exec Op.blockEvents (canput q) w = [] := rfl
@[simp] theorem transcript_load : transcript exec Op.blockEvents load w = [] := rfl
@[simp] theorem transcript_modifyStatus (b : BoardId) (f : HydraStatus → HydraStatus) :
    transcript exec Op.blockEvents (modifyStatus b f) w = [] := rfl
@[simp] theorem transcript_allocb (n : BlockSize) : transcript exec Op.blockEvents (allocb n) w =
    if w.allocs 0 then [.taken] else [.refused] := List.append_nil _
@[simp] theorem transcript_freemsg (mp : Msg) :
    transcript exec Op.blockEvents (freemsg mp) w = [.freed] := rfl
@[simp] theorem transcript_putnext_raw (q : QId) (st : HydraStatus) (data : List Byte) :
    transcript exec Op.blockEvents (putnext q (.raw st data)) w = [.put q none] := rfl
@[simp] theorem transcript_putnext_ind (q : QId) (dest src data : List Byte) :
    transcript exec Op.blockEvents (putnext q (.unitdataInd dest src data)) w =
      [.put q (some (dest, src, data))] := rfl

end

/-- The data of an ordinary frame is all that follows the header. -/
theorem copyPayload_ordinary (w : World) (h : ETH_HEADER_SIZE ≤ packet.length) :
    run exec (copyPayload packet ((packet.length : ℤ) - ETH_HEADER_SIZE) 0) w =
        (packet.drop ETH_HEADER_SIZE, w) ∧
      transcript exec Op.blockEvents
        (copyPayload packet ((packet.length : ℤ) - ETH_HEADER_SIZE) 0) w = [] := by
  have hlen : ((packet.length : ℤ) - ETH_HEADER_SIZE).toNat = packet.length - ETH_HEADER_SIZE := by
    omega
  have hslice := peeks_slice w
    (by omega : ETH_HEADER_SIZE + (packet.length - ETH_HEADER_SIZE) ≤ packet.length)
  rw [List.take_of_length_le (by rw [List.length_drop])] at hslice
  unfold copyPayload
  rw [if_neg (not_not.mpr rfl), hlen]
  constructor
  · rw [run_bind, run_pure, run_bind, hslice]
    rfl
  · rw [transcript_bind, transcript_bind, peeks_quiet]
    rfl

/-- What becomes of a frame at a stream in raw mode. -/
theorem tossRaw_fate (ind : List Byte × List Byte × List Byte) (sap : BitVec 16) :
    let f := Fate.offer (w.canput q) (w.allocs 0) (w.allocs 1) (.raw q)
    World.After b (f.count sap) f.calls w (run exec (tossRaw b packet q) w).2 ∧
      transcript exec Op.blockEvents (tossRaw b packet q) w = f.events ind := by
  have h₁ : w.useAlloc.allocs 0 = w.allocs 1 := rfl
  unfold tossRaw Fate.offer
  simp only [run_bind, run_canput, run_ite, transcript_bind, transcript_ite, run_allocb, h₁,
    transcript_canput, transcript_allocb, List.nil_append]
  cases hc : w.canput q
  · exact ⟨.counted rfl rfl, rfl⟩
  cases h₀ : w.allocs 0
  · exact ⟨.counted rfl rfl, by simp [Fate.events]⟩
  cases h₂ : w.allocs 1
  · refine ⟨.counted rfl rfl, ?_⟩
    simp [Fate.events]
    rfl
  · refine ⟨?_, ?_⟩
    · simp only [if_true, run_load, peeks_run, run_putnext]
      exact ⟨rfl, rfl, rfl, rfl, rfl⟩
    · simp [peeks_quiet, Fate.events]
      rfl

/-- What becomes of an ordinary frame at a stream bound to its type. -/
theorem tossBound_fate (hp : ETH_HEADER_SIZE ≤ packet.length) (sap : BitVec 16) :
    let f := if ForUs packet (w.drv.board b).info.paddress then
      Fate.offer (w.canput q) (w.allocs 0) (w.allocs 1) (.sent q) else .notForUs
    let p := tossBound b packet sap ((packet.length : ℤ) - ETH_HEADER_SIZE) 0 q
    World.After b (f.count sap) f.calls w (run exec p w).2 ∧
      transcript exec Op.blockEvents p w =
        f.events (packet.take 6, (packet.drop 6).take 6, packet.drop ETH_HEADER_SIZE) := by
  have h₁ : w.useAlloc.allocs 0 = w.allocs 1 := rfl
  have hlen : ETH_HEADER_SIZE = 14 := rfl
  have hdest : ∀ w, run exec (peeks packet 0 6) w = (packet.take 6, w) :=
    fun w => peeks_block w packet (by omega)
  have hsrc : ∀ w, run exec (peeks packet 6 6) w = ((packet.drop 6).take 6, w) :=
    fun w => @peeks_slice w packet 6 6 (by omega)
  have hdata := fun w => copyPayload_ordinary w hp
  have hus : (packet.take 6 ≠ (w.drv.board b).info.paddress.toList ∧
      packet.take 6 ≠ broadcastAddress) ↔ ¬ForUs packet (w.drv.board b).info.paddress := by
    rw [ForUs, not_or]
  unfold tossBound
  simp only [run_bind, run_ite, transcript_bind, transcript_ite, run_load, hdest, hus,
    transcript_load, peeks_quiet, List.nil_append]
  by_cases hfor : ForUs packet (w.drv.board b).info.paddress
  · simp only [hfor, not_true_eq_false, if_false, if_true, run_canput, run_allocb, h₁,
      transcript_canput, transcript_allocb, List.nil_append]
    unfold Fate.offer
    cases hc : w.canput q
    · exact ⟨.counted rfl rfl, rfl⟩
    cases h₀ : w.allocs 0
    · exact ⟨.counted rfl rfl, by simp [Fate.events]⟩
    cases h₂ : w.allocs 1
    · refine ⟨.counted rfl rfl, ?_⟩
      simp [Fate.events]
      rfl
    · simp only [if_true, hsrc, hdata, run_putnext]
      refine ⟨.counted rfl rfl, ?_⟩
      simp [Fate.events]
      rfl
  · simp only [hfor, not_false_eq_true, if_true, if_false]
    exact ⟨.counted rfl rfl, rfl⟩

/-- One round of the loop over the slots. -/
theorem tossStreams_cons (hp : ETH_HEADER_SIZE ≤ packet.length) (sap : BitVec 16)
    (n : Fin HYDRA_MAXDEV) (ns : List (Fin HYDRA_MAXDEV)) :
    let hn := (w.drv.board b).hydra n
    let f := hn.fate w.canput sap (ForUs packet (w.drv.board b).info.paddress) (w.allocs 0)
      (w.allocs 1)
    let p := tossStreams b packet sap ((packet.length : ℤ) - ETH_HEADER_SIZE) 0
    ∃ w', World.After b (f.count sap) f.calls w w' ∧
      run exec (p (n :: ns)) w = (decide (hn.Bound sap) || (run exec (p ns) w').1,
        (run exec (p ns) w').2) ∧
      transcript exec Op.blockEvents (p (n :: ns)) w =
        f.events (packet.take 6, (packet.drop 6).take 6, packet.drop ETH_HEADER_SIZE) ++
          transcript exec Op.blockEvents (p ns) w' := by
  simp only
  rw [tossStreams, run_bind, transcript_bind, run_load, transcript_load, List.nil_append]
  dsimp only
  generalize hforUs : decide (ForUs packet (w.drv.board b).info.paddress) = forUs
  cases hq : ((w.drv.board b).hydra n).q with
  | none =>
      obtain ⟨hf, hno⟩ := HydraT.fate_of_none hq
      rw [hf, decide_eq_false hno]
      exact ⟨w, .refl w b, rfl, rfl⟩
  | some q =>
      dsimp only
      by_cases hraw : ((w.drv.board b).hydra n).flags &&& HYDRA_RAW_DATA = 0
      · rw [if_neg (not_not.mpr hraw)]
        by_cases hsap : ((w.drv.board b).hydra n).sap = sap
        · obtain ⟨hf, hyes⟩ := HydraT.fate_of_bound hq hraw hsap
          obtain ⟨hafter, hevents⟩ := @tossBound_fate w b packet q hp sap
          rw [hf, decide_eq_true hyes, if_pos hsap, ← hforUs]
          simp only [decide_eq_true_eq]
          refine ⟨_, hafter, ?_, ?_⟩
          · rw [run_bind, run_bind, run_pure, Bool.true_or]
          · rw [transcript_bind, transcript_bind, transcript_pure, List.append_nil, hevents]
        · obtain ⟨hf, hno⟩ := HydraT.fate_of_other hq hraw hsap
          rw [hf, decide_eq_false hno, if_neg hsap]
          exact ⟨w, .refl w b, rfl, rfl⟩
      · obtain ⟨hf, hno⟩ := HydraT.fate_of_raw hq hraw
        obtain ⟨hafter, hevents⟩ := @tossRaw_fate w b packet q
          (packet.take 6, (packet.drop 6).take 6, packet.drop ETH_HEADER_SIZE) sap
        rw [hf, decide_eq_false hno, if_pos hraw]
        refine ⟨_, hafter, ?_, ?_⟩
        · rw [run_bind, Bool.false_or]
        · rw [transcript_bind, hevents]

/-- The loop over the slots. -/
theorem tossStreams_fates (hp : ETH_HEADER_SIZE ≤ packet.length) (sap : BitVec 16)
    (ns : List (Fin HYDRA_MAXDEV)) (w : World) :
    let fs := fates (w.drv.board b).hydra w.canput sap
      (ForUs packet (w.drv.board b).info.paddress) ns w.allocs
    let p := tossStreams b packet sap ((packet.length : ℤ) - ETH_HEADER_SIZE) 0 ns
    (run exec p w).1 = ns.any (fun n => ((w.drv.board b).hydra n).Bound sap) ∧
      (∃ k, World.After b (fun st => fs.foldl (fun st a => a.2.count sap st) st) k w
        (run exec p w).2) ∧
      transcript exec Op.blockEvents p w = fs.flatMap fun a =>
        a.2.events (packet.take 6, (packet.drop 6).take 6, packet.drop ETH_HEADER_SIZE) := by
  induction ns generalizing w with
  | nil => exact ⟨rfl, ⟨0, .refl w b⟩, rfl⟩
  | cons n ns ih =>
      obtain ⟨w', hafter, hrun, hevents⟩ := @tossStreams_cons w b packet hp sap n ns
      obtain ⟨hany, ⟨k, hrest⟩, hlater⟩ := ih w'
      rw [hafter.hydra] at hany
      rw [hafter.hydra, hafter.info, hafter.canput, hafter.allocs] at hrest hlater
      refine ⟨?_, ?_, ?_⟩
      · rw [hrun, hany]
        rfl
      · rw [hrun]
        exact ⟨_, hafter.trans hrest⟩
      · rw [hevents, hlater]
        rfl

end

/-! ### Counts -/

section
variable {hydra : Fin HYDRA_MAXDEV → HydraT} {canput : QId → Bool} {sap : BitVec 16} {forUs : Bool}

theorem fates_slots (ns : List (Fin HYDRA_MAXDEV)) (allocs : ℕ → Bool) :
    (fates hydra canput sap forUs ns allocs).map Prod.fst = ns := by
  induction ns generalizing allocs with
  | nil => rfl
  | cons n ns ih => rw [fates, List.map_cons, ih]

/-- Every fate is that of its slot, for some answers of `allocb`. -/
theorem fates_of_mem {ns : List (Fin HYDRA_MAXDEV)} {allocs : ℕ → Bool}
    {a : Fin HYDRA_MAXDEV × Fate} (h : a ∈ fates hydra canput sap forUs ns allocs) :
    ∃ first second, a.2 = (hydra a.1).fate canput sap forUs first second := by
  induction ns generalizing allocs with
  | nil => exact absurd h List.not_mem_nil
  | cons n ns ih =>
      rcases List.mem_cons.mp h with rfl | h
      · exact ⟨_, _, rfl⟩
      · exact ih h

/-- A statistic that a fate adds to. -/
theorem foldl_count {g : HydraStatus → ℕ} {P : Fate → Bool}
    (h : ∀ f st, g (Fate.count sap f st) = g st + if P f then 1 else 0)
    (fs : List (Fin HYDRA_MAXDEV × Fate)) (st : HydraStatus) :
    g (fs.foldl (fun st a => a.2.count sap st) st) = g st + fs.countP fun a => P a.2 := by
  induction fs generalizing st with
  | nil => rfl
  | cons a fs ih =>
      rw [List.foldl_cons, ih, h, List.countP_cons, Nat.add_assoc, Nat.add_comm (ite _ _ _)]

/-- A frame for a stream in raw mode that does not get it. -/
def rawFailed (hydra : Fin HYDRA_MAXDEV → HydraT) (a : Fin HYDRA_MAXDEV × Fate) : Bool :=
  (hydra a.1).Raw && (a.2.isFull || a.2.isNoMemory)

/-- Every slot is counted once: a bound stream with its fate, a stream in raw mode
if it fails. -/
theorem fate_counted (n : Fin HYDRA_MAXDEV) {f : Fate} {first second : Bool}
    (h : f = (hydra n).fate canput sap forUs first second) :
    (if f.isSent then 1 else 0) + (if f.isNotForUs then 1 else 0) + (if f.isFull then 1 else 0) +
        (if f.isNoMemory then 1 else 0) =
      (if decide ((hydra n).Bound sap) then 1 else 0) +
        if rawFailed hydra (n, f) then 1 else 0 := by
  unfold rawFailed
  cases hq : (hydra n).q with
  | none =>
      obtain ⟨hf, hno⟩ := HydraT.fate_of_none hq
      rw [h, hf, decide_eq_false hno]
      simp [Fate.isSent, Fate.isNotForUs, Fate.isFull, Fate.isNoMemory]
  | some q =>
      by_cases hraw : (hydra n).flags &&& HYDRA_RAW_DATA = 0
      · have hno : ¬(hydra n).Raw := fun hr => hr.2 hraw
        rw [decide_eq_false hno]
        by_cases hsap : (hydra n).sap = sap
        · obtain ⟨hf, hyes⟩ := HydraT.fate_of_bound hq hraw hsap
          rw [h, hf, decide_eq_true hyes]
          unfold Fate.offer
          cases forUs <;> cases canput q <;> cases first <;> cases second <;> rfl
        · obtain ⟨hf, hnb⟩ := HydraT.fate_of_other hq hraw hsap
          rw [h, hf, decide_eq_false hnb]
          rfl
      · obtain ⟨hf, hnb⟩ := HydraT.fate_of_raw hq hraw
        have hyes : (hydra n).Raw := ⟨hq ▸ Option.some_ne_none q, hraw⟩
        rw [h, hf, decide_eq_false hnb, decide_eq_true hyes]
        unfold Fate.offer
        cases canput q <;> cases first <;> cases second <;> rfl

theorem counts_add {α : Type} {p₁ p₂ p₃ p₄ q₁ q₂ : α → Bool} {l : List α}
    (h : ∀ a ∈ l, (if p₁ a then 1 else 0) + (if p₂ a then 1 else 0) + (if p₃ a then 1 else 0) +
      (if p₄ a then 1 else 0) = (if q₁ a then 1 else 0) + if q₂ a then 1 else 0) :
    l.countP p₁ + l.countP p₂ + l.countP p₃ + l.countP p₄ = l.countP q₁ + l.countP q₂ := by
  induction l with
  | nil => rfl
  | cons a l ih =>
      have hhead := h a List.mem_cons_self
      have htail := ih fun x hx => h x (List.mem_cons_of_mem a hx)
      simp only [List.countP_cons]
      omega

theorem Fate.refused_iff (ind : List Byte × List Byte × List Byte) (f : Fate) :
    BlockEvent.refused ∉ f.events ind ↔ f.isNoMemory = false := by
  cases f with
  | noMemory first =>
    cases first
    · simp [Fate.events, Fate.isNoMemory]
    · simp [Fate.events, Fate.isNoMemory]
  | _ => simp [Fate.events, Fate.isNoMemory]

/-- A frame is sent to the streams bound to its type if it is for them and there
is room and memory. -/
theorem fate_sent_iff (hp : HydraT) {f : Fate} {first second : Bool} (q : QId)
    (h : f = hp.fate canput sap forUs first second) :
    f = .sent q ↔ hp.Matches sap q ∧ forUs = true ∧ canput q = true ∧ f.isNoMemory = false := by
  cases hq : hp.q with
  | none =>
      rw [h, (HydraT.fate_of_none hq).1]
      constructor
      · intro hf
        cases hf
      · intro hm
        rw [hm.1.q] at hq
        cases hq
  | some q' =>
      by_cases hraw : hp.flags &&& HYDRA_RAW_DATA = 0
      · by_cases hsap : hp.sap = sap
        · rw [h, (HydraT.fate_of_bound hq hraw hsap).1]
          unfold Fate.offer
          constructor
          · intro hf
            split_ifs at hf with h₁ h₂ h₃ h₄
            obtain rfl := Fate.sent.inj hf
            rw [if_pos h₁, if_pos h₂, if_pos h₃, if_pos h₄]
            exact ⟨⟨hq, hraw, hsap⟩, h₁, h₂, rfl⟩
          · rintro ⟨hm, h₁, h₂, hmem⟩
            obtain rfl : q' = q := Option.some.inj (hq.symm.trans hm.q)
            rw [h₁, if_pos rfl, h₂, if_pos rfl] at hmem ⊢
            split_ifs at hmem ⊢
            · rfl
            · cases hmem
            · cases hmem
        · rw [h, (HydraT.fate_of_other hq hraw hsap).1]
          constructor
          · intro hf
            cases hf
          · exact fun hm => absurd hm.1.sap hsap
      · rw [h, (HydraT.fate_of_raw hq hraw).1]
        constructor
        · unfold Fate.offer
          intro hf
          split_ifs at hf
        · exact fun hm => absurd hm.1.flags hraw

end

/-! ### The frame as a whole -/

def BlockEvent.isPut : BlockEvent → Bool
  | put _ _ => true
  | _ => false

/-- Two blocks for every message put, all others are given back. -/
def Balanced (events : List BlockEvent) : Prop :=
  events.count .taken = 2 * events.countP BlockEvent.isPut + events.count .freed

theorem Balanced.append {l l' : List BlockEvent} (h : Balanced l) (h' : Balanced l') :
    Balanced (l ++ l') := by
  unfold Balanced at *
  rw [List.count_append, List.count_append, List.countP_append]
  omega

theorem Fate.balanced (ind : List Byte × List Byte × List Byte) (f : Fate) :
    Balanced (f.events ind) := by
  cases f with
  | noMemory first =>
    cases first
    · exact rfl
    · exact rfl
  | skipped => exact rfl
  | notForUs => exact rfl
  | full => exact rfl
  | raw q => exact rfl
  | sent q => exact rfl

theorem balanced_flatMap {α : Type} {f : α → List BlockEvent} (h : ∀ a, Balanced (f a))
    (l : List α) : Balanced (l.flatMap f) := by
  induction l with
  | nil => exact rfl
  | cons a l ih =>
    rw [List.flatMap_cons]
    exact (h a).append ih

/-- The delivery of an ordinary frame: what becomes of it at every slot, the
blocks taken, given back and sent, and the statistics. -/
structure DeliverySet (b : BoardId) (packet : List Byte) (w w' : World)
    (events : List BlockEvent) : Prop where
  slots : (w.fates b packet).map Prod.fst = List.finRange HYDRA_MAXDEV
  blocks : Balanced events
  each : events = (w.fates b packet).flatMap fun a =>
    a.2.events (packet.take 6, (packet.drop 6).take 6, packet.drop ETH_HEADER_SIZE)
  sent : ∀ a ∈ w.fates b packet, ∀ q, a.2 = .sent q ↔
    ((w.drv.board b).hydra a.1).Matches (etherType packet) q ∧
      ForUs packet (w.drv.board b).info.paddress ∧ w.canput q = true ∧
        BlockEvent.refused ∉ a.2.events
          (packet.take 6, (packet.drop 6).take 6, packet.drop ETH_HEADER_SIZE)
  rxDelivered : (w'.drv.board b).status.rxDelivered =
    (w.drv.board b).status.rxDelivered + (w.fates b packet).countP fun a => a.2.isSent
  rxNotForUs : (w'.drv.board b).status.rxNotForUs =
    (w.drv.board b).status.rxNotForUs + (w.fates b packet).countP fun a => a.2.isNotForUs
  couldntPut : (w'.drv.board b).status.couldntPut =
    (w.drv.board b).status.couldntPut + (w.fates b packet).countP fun a => a.2.isFull
  allocbsFailed : (w'.drv.board b).status.allocbsFailed =
    (w.drv.board b).status.allocbsFailed + (w.fates b packet).countP fun a => a.2.isNoMemory
  rxNoSap : (w'.drv.board b).status.rxNoSap = (w.drv.board b).status.rxNoSap +
    if ∃ n, ((w.drv.board b).hydra n).Bound (etherType packet) then 0 else 1
  total : ((w.fates b packet).countP fun a => a.2.isSent) +
      ((w.fates b packet).countP fun a => a.2.isNotForUs) +
      ((w.fates b packet).countP fun a => a.2.isFull) +
      ((w.fates b packet).countP fun a => a.2.isNoMemory) =
    ((List.finRange HYDRA_MAXDEV).countP fun n =>
      ((w.drv.board b).hydra n).Bound (etherType packet)) +
        (w.fates b packet).countP (rawFailed (w.drv.board b).hydra)

section
variable {b : BoardId} {packet : List Byte} {w : World}

/-- The statistics before the loop over the slots. -/
theorem tossPacketUpStream_before (hp : ETH_HEADER_SIZE ≤ packet.length)
    (hordinary : isTrailer (etherType packet) = false) : ∃ f, ∃ w₁, World.After b f 0 w w₁ ∧
      (∀ st, (f st).rxDelivered = st.rxDelivered ∧ (f st).rxNotForUs = st.rxNotForUs ∧
        (f st).couldntPut = st.couldntPut ∧ (f st).allocbsFailed = st.allocbsFailed ∧
          (f st).rxNoSap = st.rxNoSap) ∧
      let p := tossStreams b packet (etherType packet) ((packet.length : ℤ) - ETH_HEADER_SIZE) 0
        (List.finRange HYDRA_MAXDEV)
      let p' : HydraM Unit := if (run exec p w₁).1 then pure () else
        modifyStatus b fun st => { st with rxNoSap := st.rxNoSap + 1 }
      (run exec (tossPacketUpStream b packet) w).2 = (run exec p' (run exec p w₁).2).2 ∧
        transcript exec Op.blockEvents (tossPacketUpStream b packet) w =
          transcript exec Op.blockEvents p w₁ := by
  have hlen : ETH_HEADER_SIZE = 14 := rfl
  have hshort : run exec (peekShort packet 12) w = (etherType packet, w) :=
    peekShort_getD w (by omega : 12 + 1 < packet.length)
  have hquiet : transcript exec Op.blockEvents (peekShort packet 12) w = [] :=
    All.transcript (.bind (.perform fun _ => rfl) fun _ => .bind (.perform fun _ => rfl)
      fun _ => all_pure _) w
  refine ⟨fun st => { st with
    lastRxSap := (etherType packet).toNat
    rxArpSeen := st.rxArpSeen + if etherType packet = ETHERTYPE_ARP then 1 else 0
    rxIpSeen := st.rxIpSeen + if etherType packet = ETHERTYPE_IP then 1 else 0 }, _,
    .counted rfl rfl, fun st => ⟨rfl, rfl, rfl, rfl, rfl⟩, ?_⟩
  have hpure : packetLengths b packet (etherType packet) =
      pure (etherType packet, (packet.length : ℤ) - ETH_HEADER_SIZE, 0) := by
    rw [packetLengths, hordinary]
    exact if_neg Bool.false_ne_true
  constructor
  · rw [tossPacketUpStream, run_bind, hshort, run_bind, modifyStatus_run, hpure, run_bind,
      run_pure, run_bind]
  · rw [tossPacketUpStream, transcript_bind, hshort, hquiet, transcript_bind, modifyStatus_run,
      transcript_modifyStatus, hpure, transcript_bind, transcript_pure, run_pure, transcript_bind,
      transcript_ite, transcript_pure, transcript_modifyStatus, ite_self, List.append_nil]
    rfl

theorem tossPacketUpStream_deliverySet (hp : ETH_HEADER_SIZE ≤ packet.length)
    (hordinary : isTrailer (etherType packet) = false) :
    DeliverySet b packet w (run exec (tossPacketUpStream b packet) w).2
      (transcript exec Op.blockEvents (tossPacketUpStream b packet) w) := by
  obtain ⟨f, w₁, hbefore, hf, hrun, hevents⟩ := @tossPacketUpStream_before b packet w hp hordinary
  obtain ⟨hany, ⟨k, hafter⟩, heach⟩ :=
    @tossStreams_fates b packet hp (etherType packet) (List.finRange HYDRA_MAXDEV) w₁
  have hfates : fates (w₁.drv.board b).hydra w₁.canput (etherType packet)
      (ForUs packet (w₁.drv.board b).info.paddress) (List.finRange HYDRA_MAXDEV) w₁.allocs =
      w.fates b packet := by
    rw [hbefore.hydra, hbefore.info, hbefore.canput, hbefore.allocs]
    rfl
  simp only [hfates] at hafter heach
  rw [hbefore.hydra] at hany
  rw [hevents, heach]
  -- what the last statement adds to the statistics
  obtain ⟨m, hm, hlast⟩ : ∃ m, m = (if ∃ n, ((w.drv.board b).hydra n).Bound (etherType packet)
      then 0 else 1) ∧ ((run exec (tossPacketUpStream b packet) w).2.drv.board b).status =
        { (w.fates b packet).foldl (fun st a => a.2.count (etherType packet) st)
            (f (w.drv.board b).status) with
          rxNoSap := ((w.fates b packet).foldl (fun st a => a.2.count (etherType packet) st)
            (f (w.drv.board b).status)).rxNoSap + m } := by
    refine ⟨_, rfl, ?_⟩
    have hstatus := hafter.status
    rw [hbefore.status] at hstatus
    rw [hrun, ← hstatus, hany]
    by_cases hbound : ∃ n, ((w.drv.board b).hydra n).Bound (etherType packet)
    · have htrue : ((List.finRange HYDRA_MAXDEV).any fun n =>
          decide (((w.drv.board b).hydra n).Bound (etherType packet))) = true := by
        obtain ⟨n, hn⟩ := hbound
        exact List.any_eq_true.mpr ⟨n, List.mem_finRange n, decide_eq_true hn⟩
      rw [htrue, if_pos rfl, if_pos hbound]
      rfl
    · have hfalse : ((List.finRange HYDRA_MAXDEV).any fun n =>
          decide (((w.drv.board b).hydra n).Bound (etherType packet))) = false :=
        List.any_eq_false.mpr fun n _ hn => hbound ⟨n, of_decide_eq_true hn⟩
      rw [hfalse, if_neg Bool.false_ne_true, if_neg hbound, modifyStatus_run, World.setDrv_drv,
        Driver.modifyBoard_self]
  obtain ⟨hf₁, hf₂, hf₃, hf₄, hf₅⟩ := hf (w.drv.board b).status
  have hsum : ∀ a ∈ w.fates b packet, _ := fun a ha =>
    have ⟨_, _, h⟩ := fates_of_mem ha
    fate_counted a.1 h
  refine ⟨fates_slots _ _, balanced_flatMap (fun a => a.2.balanced _) _, rfl, ?_, ?_, ?_, ?_, ?_,
    ?_, ?_⟩
  · intro a ha q
    obtain ⟨first, second, h⟩ := fates_of_mem ha
    rw [Fate.refused_iff, fate_sent_iff _ q h, decide_eq_true_eq]
  · rw [hlast, ← hf₁]
    exact foldl_count (g := HydraStatus.rxDelivered) (P := Fate.isSent)
      (fun f st => by cases f <;> rfl) _ _
  · rw [hlast, ← hf₂]
    exact foldl_count (g := HydraStatus.rxNotForUs) (P := Fate.isNotForUs)
      (fun f st => by cases f <;> rfl) _ _
  · rw [hlast, ← hf₃]
    exact foldl_count (g := HydraStatus.couldntPut) (P := Fate.isFull)
      (fun f st => by cases f <;> rfl) _ _
  · rw [hlast, ← hf₄]
    exact foldl_count (g := HydraStatus.allocbsFailed) (P := Fate.isNoMemory)
      (fun f st => by cases f <;> rfl) _ _
  · have hzero := @foldl_count (etherType packet) HydraStatus.rxNoSap (fun _ => false)
      (fun f st => by cases f <;> rfl) (w.fates b packet) (f (w.drv.board b).status)
    rw [hlast, ← hm, ← hf₅]
    simp only [hzero, List.countP_false]
    rfl
  · have hslots : (w.fates b packet).countP (fun a =>
          decide (((w.drv.board b).hydra a.1).Bound (etherType packet))) =
        ((w.fates b packet).map Prod.fst).countP fun n =>
          decide (((w.drv.board b).hydra n).Bound (etherType packet)) := by
      rw [List.countP_map]
      rfl
    rw [counts_add hsum, hslots, World.fates, fates_slots]

end

/-! ### The control block -/

def longBytes (v : Long) : List Byte := [byte v 3, byte v 2, byte v 1, byte v 0]

abbrev DL_UNITDATA_IND : Long := 0x08

/-- The control block of a DL_UNITDATA_IND; `union DL_primitives` has `size` bytes,
and of what the block held before those that no field covers stay. -/
def unitdataIndBlock (size : ℕ) (old dest src : List Byte) : List Byte :=
  longBytes DL_UNITDATA_IND ++ longBytes 6 ++ longBytes (BitVec.ofNat 32 size) ++ longBytes 6 ++
    longBytes (BitVec.ofNat 32 (size + 6)) ++ longBytes 0 ++ (old.take size).drop 24 ++ dest ++ src

def longAt (block : List Byte) (i : ℕ) : Long :=
  long (block.getD i 0) (block.getD (i + 1) 0) (block.getD (i + 2) 0) (block.getD (i + 3) 0)

/-- The address of which a block states the length and the offset at an index. -/
def addressAt (block : List Byte) (i : ℕ) : List Byte :=
  (block.drop (longAt block (i + 4)).toNat).take (longAt block i).toNat

/-- Both addresses are where the block says. -/
theorem unitdataIndBlock_addresses {size : ℕ} {old dest src : List Byte} (hsize : 24 ≤ size)
    (hword : size + 6 < 4294967296) (hold : size ≤ old.length) (hdest : dest.length = 6)
    (hsrc : src.length = 6) : addressAt (unitdataIndBlock size old dest src) 4 = dest ∧
      addressAt (unitdataIndBlock size old dest src) 12 = src := by
  have hlength : ∀ v, (longBytes v).length = 4 := fun _ => rfl
  have hfields : longAt (unitdataIndBlock size old dest src) 4 = 6 ∧
      longAt (unitdataIndBlock size old dest src) 8 = BitVec.ofNat 32 size ∧
      longAt (unitdataIndBlock size old dest src) 12 = 6 ∧
      longAt (unitdataIndBlock size old dest src) 16 = BitVec.ofNat 32 (size + 6) :=
    ⟨long_byte _, long_byte _, long_byte _, long_byte _⟩
  obtain ⟨h₄, h₈, h₁₂, h₁₆⟩ := hfields
  have hmod : (BitVec.ofNat 32 size).toNat = size := by
    rw [BitVec.toNat_ofNat, Nat.mod_eq_of_lt (by omega)]
  have hmod' : (BitVec.ofNat 32 (size + 6)).toNat = size + 6 := by
    rw [BitVec.toNat_ofNat, Nat.mod_eq_of_lt (by omega)]
  have hsix : (6 : Long).toNat = 6 := rfl
  rw [addressAt, addressAt, h₄, h₈, h₁₂, h₁₆, hmod, hmod', hsix, unitdataIndBlock]
  generalize hfront : longBytes DL_UNITDATA_IND ++ longBytes 6 ++
    longBytes (BitVec.ofNat 32 size) ++ longBytes 6 ++ longBytes (BitVec.ofNat 32 (size + 6)) ++
    longBytes 0 ++ (old.take size).drop 24 = front
  have hfrontLength : front.length = size := by
    rw [← hfront]
    simp only [List.length_append, hlength, List.length_drop, List.length_take]
    omega
  constructor
  · rw [List.append_assoc, List.drop_left' hfrontLength, List.take_left' hdest]
  · rw [List.drop_left' (by rw [List.length_append]; omega)]
    exact List.take_of_length_le (Nat.le_of_eq hsrc)

end HydraAmix.Hydra
