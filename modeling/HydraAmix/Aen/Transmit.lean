import HydraAmix.Aen.Interrupt
import HydraAmix.Library.Schedule
import Mathlib.Data.List.GetD

/-!
# The frames of the LANCE driver

`aenxmit` writes a frame into the buffer of the next transmit descriptor and
hands it to the chip. The count is that of a frame of the minimum length at
least, but nothing is written behind the data: what is sent there was left in
the buffer by an earlier frame. A message comes with the six bytes at its
`dl_dest_addr_offset`. The chip does not write the transmit buffers.
-/
namespace HydraAmix.Aen
open Word Schedule

abbrev TX_BUFFER_LENGTH : ℕ := 1518
abbrev ETH_MAXDATA : ℕ := 1500
abbrev ETH_MINDATA : ℕ := 50
/-- `sizeof (ether_header_t)`. -/
abbrev etherHeaderSize : ℕ := 14

/-- A `DL_UNITDATA_REQ` with the blocks behind it. -/
structure UnitdataReq where
  dest : Vector Byte 6
  blocks : List (List Byte)
  deriving DecidableEq, Repr

def UnitdataReq.data (mp : UnitdataReq) : List Byte := mp.blocks.flatten

/-- The memory of the board, with the transmit buffers one behind another from
`txStart` on, and what the driver keeps of the transmit ring. -/
structure TxRing where
  ram : ℕ → Byte
  txStart : ℕ
  own : ℕ → Bool
  length : ℕ → ℕ
  txBufferIndex : ℕ
  paddress : Vector Byte 6
  sap : Fin AEN_MAXDEV → BitVec 16

/-- `bcopy` into the memory of the board. -/
def copyIn (bs : List Byte) (a : ℕ) (ram : ℕ → Byte) : ℕ → Byte := fun x =>
  if a ≤ x ∧ x < a + bs.length then bs.getD (x - a) 0 else ram x

/-- The variables of the loop over the blocks. -/
structure Filling where
  ram : ℕ → Byte
  bufaddr : ℕ
  bufferLength : ℕ

/-- `n = min(b_wptr - b_rptr, buffer_length)` bytes of a block. -/
def Filling.block (s : Filling) (b : List Byte) : Filling where
  ram := copyIn (b.take s.bufferLength) s.bufaddr s.ram
  bufaddr := s.bufaddr + min b.length s.bufferLength
  bufferLength := s.bufferLength - min b.length s.bufferLength

namespace TxRing

def loaddr (r : TxRing) (i : ℕ) : ℕ := r.txStart + TX_BUFFER_LENGTH * i

/-- The header in front of the data. -/
def header (r : TxRing) (j : Fin AEN_MAXDEV) (mp : UnitdataReq) : Filling :=
  let bufaddr := r.loaddr r.txBufferIndex
  let ram := copyIn mp.dest.toList bufaddr r.ram
  let ram := copyIn r.paddress.toList (bufaddr + 6) ram
  let ram := copyIn [((r.sap j) >>> 8).setWidth 8, (r.sap j).setWidth 8] (bufaddr + 12) ram
  ⟨ram, bufaddr + 14, ETH_MAXDATA⟩

/-- `aenxmit` for the stream `j`. -/
def aenxmit (r : TxRing) (j : Fin AEN_MAXDEV) (mp : UnitdataReq) : Option TxRing :=
  let i := r.txBufferIndex
  if r.own i = false then
    let s := mp.blocks.foldl Filling.block (r.header j mp)
    let n := etherHeaderSize + max (ETH_MAXDATA - s.bufferLength) ETH_MINDATA
    some { r with
      ram := s.ram
      length := Function.update r.length i n
      own := Function.update r.own i true
      txBufferIndex := if i < TXCOUNT - 1 then i + 1 else 0 }
  else none

/-- The frame that the chip gets, if there is room in the ring. -/
def frame (r : TxRing) (j : Fin AEN_MAXDEV) (mp : UnitdataReq) : Option (List Byte) :=
  (r.aenxmit j mp).map fun r' =>
    (List.range (r'.length r.txBufferIndex)).map fun k => r'.ram (r.loaddr r.txBufferIndex + k)

end TxRing

/-- A message, a descriptor that the chip gives back, and a stream that is bound. -/
inductive TxEvent where
  | xmit (j : Fin AEN_MAXDEV) (mp : UnitdataReq)
  | chipTx (k : Fin TXCOUNT)
  | bind (j : Fin AEN_MAXDEV) (sap : BitVec 16)

def TxRing.step (r : TxRing) : TxEvent → TxRing
  | .xmit j mp => (r.aenxmit j mp).getD r
  | .chipTx k => { r with own := Function.update r.own k false }
  | .bind j sap => { r with sap := Function.update r.sap j sap }

/-- The same event but for the data. -/
inductive SameButData : TxEvent → TxEvent → Prop
  | xmit (j : Fin AEN_MAXDEV) (dest : Vector Byte 6) (bs bs' : List (List Byte)) :
      SameButData (.xmit j ⟨dest, bs⟩) (.xmit j ⟨dest, bs'⟩)
  | refl (e : TxEvent) : SameButData e e

/-- A frame from nothing but what it should be made of. -/
def frameOf (dest paddress : Vector Byte 6) (sap : BitVec 16) (data : List Byte) : List Byte :=
  dest.toList ++ paddress.toList ++ [(sap >>> 8).setWidth 8, sap.setWidth 8] ++ data.take ETH_MAXDATA

/-- The frame of a message is made of its address and data, the address of the
station and the SAP of the stream alone, runs that differ in the data of earlier
messages do not show in it, and nothing is written outside its buffer. -/
structure SealsFrame (j : Fin AEN_MAXDEV) (mp : UnitdataReq) : Prop where
  made : ∃ f : Vector Byte 6 → Vector Byte 6 → BitVec 16 → List Byte → List Byte,
    ∀ r : TxRing, ∀ bytes ∈ r.frame j mp, bytes = f mp.dest r.paddress (r.sap j) mp.data
  runs : ∀ (r : TxRing) (es es' : List TxEvent), List.Forall₂ SameButData es es' →
    (final TxRing.step r es).frame j mp = (final TxRing.step r es').frame j mp
  inside : ∀ r r' : TxRing, r.aenxmit j mp = some r' → ∀ x,
    ¬ (r.loaddr r.txBufferIndex ≤ x ∧ x < r.loaddr r.txBufferIndex + TX_BUFFER_LENGTH) →
    r'.ram x = r.ram x

section
variable {r : TxRing} {j : Fin AEN_MAXDEV} {mp : UnitdataReq}

theorem copyIn_copyIn (xs ys : List Byte) (a : ℕ) (ram : ℕ → Byte) :
    copyIn ys (a + xs.length) (copyIn xs a ram) = copyIn (xs ++ ys) a ram := by
  funext x
  unfold copyIn
  rw [List.length_append]
  by_cases hlow : x < a + xs.length
  · rw [if_neg (by omega)]
    by_cases ha : a ≤ x
    · rw [if_pos ⟨ha, hlow⟩, if_pos ⟨ha, by omega⟩, List.getD_append _ _ _ _ (by omega)]
    · rw [if_neg (fun h => ha h.1), if_neg (fun h => ha h.1)]
  · by_cases hhigh : x < a + xs.length + ys.length
    · rw [if_pos ⟨by omega, hhigh⟩, if_pos ⟨by omega, by omega⟩,
        List.getD_append_right _ _ _ _ (by omega), Nat.sub_sub]
    · rw [if_neg (fun h => hhigh h.2), if_neg (fun h => hlow h.2), if_neg (by omega)]

theorem copyIn_nil (a : ℕ) (ram : ℕ → Byte) : copyIn [] a ram = ram := by
  funext x
  exact if_neg (by rw [List.length_nil]; omega)

/-- The bytes that were copied, and behind them what was there. -/
theorem map_copyIn (bs : List Byte) (a : ℕ) (ram : ℕ → Byte) {n : ℕ} (h : bs.length ≤ n) :
    ((List.range n).map fun k => copyIn bs a ram (a + k)) =
      bs ++ (List.range' bs.length (n - bs.length)).map fun k => ram (a + k) := by
  apply List.ext_getElem
  · simp only [List.length_map, List.length_range, List.length_append, List.length_range']
    omega
  · intro k hk hk'
    rw [List.getElem_map, List.getElem_range]
    unfold copyIn
    by_cases hin : k < bs.length
    · rw [if_pos ⟨by omega, by omega⟩, List.getElem_append_left hin, Nat.add_sub_cancel_left,
        List.getD_eq_getElem _ _ hin]
    · rw [if_neg (by omega), List.getElem_append_right (by omega), List.getElem_map,
        List.getElem_range', Nat.one_mul]
      congr 2
      omega

/-- What the loop over the blocks leaves. -/
theorem foldl_block (blocks : List (List Byte)) (s : Filling) :
    blocks.foldl Filling.block s =
      ⟨copyIn (blocks.flatten.take s.bufferLength) s.bufaddr s.ram,
        s.bufaddr + min blocks.flatten.length s.bufferLength,
        s.bufferLength - min blocks.flatten.length s.bufferLength⟩ := by
  induction blocks generalizing s with
  | nil =>
      rw [List.flatten_nil, List.take_nil, copyIn_nil, List.length_nil, Nat.zero_min]
      rfl
  | cons b blocks ih =>
      have hlen : (b.take s.bufferLength).length = min b.length s.bufferLength := by
        rw [List.length_take, Nat.min_comm]
      rw [List.foldl_cons, ih, Filling.block]
      simp only
      rw [← hlen, copyIn_copyIn, hlen, List.flatten_cons, List.length_append, List.take_append]
      congr 1
      · congr 3
        omega
      · omega
      · omega

namespace TxRing

/-- The frame as far as it is written. -/
def written (r : TxRing) (j : Fin AEN_MAXDEV) (mp : UnitdataReq) : List Byte :=
  frameOf mp.dest r.paddress (r.sap j) mp.data

theorem written_length (r : TxRing) (j : Fin AEN_MAXDEV) (mp : UnitdataReq) :
    (r.written j mp).length = 14 + min 1500 mp.data.length := by
  simp only [written, frameOf, List.length_append, Vector.length_toList, List.length_cons,
    List.length_nil, List.length_take]

theorem header_eq (r : TxRing) (j : Fin AEN_MAXDEV) (mp : UnitdataReq) :
    r.header j mp = ⟨copyIn (mp.dest.toList ++ r.paddress.toList ++
      [((r.sap j) >>> 8).setWidth 8, (r.sap j).setWidth 8]) (r.loaddr r.txBufferIndex) r.ram,
      r.loaddr r.txBufferIndex + 14, 1500⟩ := by
  have h6 : mp.dest.toList.length = 6 := Vector.length_toList
  have h6' : r.paddress.toList.length = 6 := Vector.length_toList
  have hsrc := copyIn_copyIn mp.dest.toList r.paddress.toList (r.loaddr r.txBufferIndex) r.ram
  have htype := copyIn_copyIn (mp.dest.toList ++ r.paddress.toList)
    [((r.sap j) >>> 8).setWidth 8, (r.sap j).setWidth 8] (r.loaddr r.txBufferIndex) r.ram
  rw [h6] at hsrc
  rw [List.length_append, h6, h6', ← hsrc] at htype
  unfold header
  simp only
  rw [htype]

/-- What `aenxmit` does where the next descriptor is the driver's. -/
theorem aenxmit_eq (j : Fin AEN_MAXDEV) (mp : UnitdataReq) (h : r.own r.txBufferIndex = false) :
    r.aenxmit j mp = some { r with
      ram := copyIn (r.written j mp) (r.loaddr r.txBufferIndex) r.ram
      length := Function.update r.length r.txBufferIndex
        (14 + max (min 1500 mp.data.length) 50)
      own := Function.update r.own r.txBufferIndex true
      txBufferIndex := if r.txBufferIndex < TXCOUNT - 1 then r.txBufferIndex + 1 else 0 } := by
  have hlen : (mp.dest.toList ++ r.paddress.toList ++
      [((r.sap j) >>> 8).setWidth 8, (r.sap j).setWidth 8]).length = 14 := by
    simp only [List.length_append, Vector.length_toList, List.length_cons, List.length_nil]
  have hdata := copyIn_copyIn (mp.dest.toList ++ r.paddress.toList ++
      [((r.sap j) >>> 8).setWidth 8, (r.sap j).setWidth 8]) (mp.blocks.flatten.take 1500)
      (r.loaddr r.txBufferIndex) r.ram
  rw [hlen] at hdata
  have hcount : 1500 - (1500 - min mp.blocks.flatten.length 1500) =
      min 1500 mp.blocks.flatten.length := by omega
  unfold aenxmit
  simp only
  rw [if_pos h, foldl_block, header_eq]
  simp only
  rw [hdata, hcount]
  rfl

theorem frame_eq (r : TxRing) (j : Fin AEN_MAXDEV) (mp : UnitdataReq) :
    r.frame j mp = if r.own r.txBufferIndex = false then
      some (r.written j mp ++ (List.range' (14 + min 1500 mp.data.length)
        (50 - min 1500 mp.data.length)).map fun k => r.ram (r.loaddr r.txBufferIndex + k))
    else none := by
  unfold frame
  by_cases h : r.own r.txBufferIndex = false
  · have hlen := r.written_length j mp
    rw [aenxmit_eq j mp h, if_pos h, Option.map_some]
    simp only [Function.update_self]
    change some ((List.range _).map fun k => copyIn _ _ _ (r.loaddr r.txBufferIndex + k)) = _
    rw [map_copyIn _ _ _ (by omega), hlen]
    congr 4
    omega
  · rw [aenxmit, if_neg h, if_neg h, Option.map_none]

/-- Data of the minimum length leave nothing of the buffer to send. -/
theorem frame_long (j : Fin AEN_MAXDEV) (h : ETH_MINDATA ≤ mp.data.length) :
    r.frame j mp = if r.own r.txBufferIndex = false then some (r.written j mp) else none := by
  have hmin : 50 - min 1500 mp.data.length = 0 := by
    have h50 : 50 ≤ mp.data.length := h
    omega
  rw [frame_eq, hmin, List.range'_zero, List.map_nil, List.append_nil]

/-- Two rings that differ in the contents of the buffers alone. -/
structure Alike (r t : TxRing) : Prop where
  own : r.own = t.own
  index : r.txBufferIndex = t.txBufferIndex
  paddress : r.paddress = t.paddress
  sap : r.sap = t.sap

theorem Alike.step {t : TxRing} (h : r.Alike t) {e e' : TxEvent} (he : SameButData e e') :
    (r.step e).Alike (t.step e') := by
  have hsome : ∀ j mp mp', ((r.aenxmit j mp).getD r).Alike ((t.aenxmit j mp').getD t) := by
    intro j mp mp'
    by_cases hfree : r.own r.txBufferIndex = false
    · have hfree' : t.own t.txBufferIndex = false := by rw [← h.own, ← h.index, hfree]
      rw [aenxmit_eq j mp hfree, aenxmit_eq j mp' hfree']
      constructor
      · change Function.update r.own r.txBufferIndex true = Function.update t.own _ true
        rw [h.own, h.index]
      · change (if _ < _ then _ else _) = (if _ < _ then _ else _)
        rw [h.index]
      · exact h.paddress
      · exact h.sap
    · have hfree' : ¬ t.own t.txBufferIndex = false := by rw [← h.own, ← h.index]; exact hfree
      rw [aenxmit, if_neg hfree, aenxmit, if_neg hfree']
      exact h
  cases he with
  | xmit j dest bs bs' => exact hsome j _ _
  | refl e =>
      cases e with
      | xmit j mp => exact hsome j mp mp
      | chipTx k =>
          constructor
          · exact congrArg (fun own => Function.update own (k : ℕ) false) h.own
          · exact h.index
          · exact h.paddress
          · exact h.sap
      | bind j sap =>
          constructor
          · exact h.own
          · exact h.index
          · exact h.paddress
          · exact congrArg (fun saps => Function.update saps j sap) h.sap

theorem Alike.final {t : TxRing} (h : r.Alike t) {es es' : List TxEvent}
    (hes : List.Forall₂ SameButData es es') :
    (final TxRing.step r es).Alike (final TxRing.step t es') := by
  induction hes generalizing r t with
  | nil => exact h
  | cons he _ ih => exact ih (h.step he)

end TxRing

/-- Whatever the message, only its own buffer is written. -/
theorem aenxmit_inside {r' : TxRing} (h : r.aenxmit j mp = some r') {x : ℕ}
    (hx : ¬ (r.loaddr r.txBufferIndex ≤ x ∧ x < r.loaddr r.txBufferIndex + TX_BUFFER_LENGTH)) :
    r'.ram x = r.ram x := by
  by_cases hfree : r.own r.txBufferIndex = false
  · have hlen := r.written_length j mp
    have hx' : ¬ (r.loaddr r.txBufferIndex ≤ x ∧ x < r.loaddr r.txBufferIndex + 1518) := hx
    rw [TxRing.aenxmit_eq j mp hfree] at h
    obtain rfl := Option.some.inj h
    exact if_neg (by omega)
  · rw [TxRing.aenxmit, if_neg hfree] at h
    exact absurd h.symm (Option.some_ne_none r')

/-! ### Once round the ring -/

/-- A ring that nothing was sent on. -/
def emptyRing : TxRing :=
  ⟨fun _ => 0, 0, fun _ => false, fun _ => 0, 0, Vector.replicate 6 0, fun _ => 0⟩

/-- A message of the byte `c`, sent from buffer `k`, and as many more as bring its
buffer to the front. -/
def aroundRing (j : Fin AEN_MAXDEV) (k : Fin TXCOUNT) (c : Byte) : List TxEvent :=
  .xmit j ⟨Vector.replicate 6 0, [List.replicate 50 c]⟩ :: .chipTx k ::
    List.replicate 7 (.xmit j ⟨Vector.replicate 6 0, []⟩)

theorem aroundRing_same (j : Fin AEN_MAXDEV) (k : Fin TXCOUNT) (c c' : Byte) :
    List.Forall₂ SameButData (aroundRing j k c) (aroundRing j k c') := by
  apply List.Forall₂.cons
  · exact .xmit j _ _ _
  · exact List.forall₂_same.mpr fun e _ => .refl e

theorem final_aroundRing : (final TxRing.step emptyRing (aroundRing 0 0 0)).own 0 = false ∧
    ((final TxRing.step emptyRing (aroundRing 0 0 0)).txBufferIndex = 0) ∧
    (final TxRing.step emptyRing (aroundRing 0 0 0)).ram 63 = 0 ∧
    (final TxRing.step emptyRing (aroundRing 0 0 1)).ram 63 = 1 := by
  decide +kernel

/-- Shorter data let the earlier frame of the buffer show. -/
theorem minimum_of_runs
    (h : ∀ (r : TxRing) (es es' : List TxEvent), List.Forall₂ SameButData es es' →
      (final TxRing.step r es).frame j mp = (final TxRing.step r es').frame j mp) :
    ETH_MINDATA ≤ mp.data.length := by
  by_contra hshort
  have hlt : mp.data.length < 50 := Nat.lt_of_not_le hshort
  obtain ⟨hown, hindex, h0, h1⟩ := final_aroundRing
  have halike : (final TxRing.step emptyRing (aroundRing 0 0 0)).Alike
      (final TxRing.step emptyRing (aroundRing 0 0 1)) :=
    TxRing.Alike.final ⟨rfl, rfl, rfl, rfl⟩ (aroundRing_same 0 0 0 1)
  have hbase : ∀ es, (final TxRing.step emptyRing es).txStart = 0 := by
    intro es
    refine final_invariant (fun r : TxRing => r.txStart = 0) ?_ rfl es
    rintro r (⟨j, mp⟩ | _ | _) hr
    · by_cases hfree : r.own r.txBufferIndex = false
      · rw [TxRing.step, TxRing.aenxmit_eq j mp hfree]
        exact hr
      · rw [TxRing.step, TxRing.aenxmit, if_neg hfree]
        exact hr
    · exact hr
    · exact hr
  have heq := h emptyRing _ _ (aroundRing_same 0 0 0 1)
  have hb0 := hbase (aroundRing 0 0 0)
  have hb1 := hbase (aroundRing 0 0 1)
  generalize final TxRing.step emptyRing (aroundRing 0 0 0) = r at *
  generalize final TxRing.step emptyRing (aroundRing 0 0 1) = t at *
  have hfree : r.own r.txBufferIndex = false := by rw [hindex, hown]
  have hfree' : t.own t.txBufferIndex = false := by rw [← halike.own, ← halike.index, hfree]
  have hwritten : r.written j mp = t.written j mp := by
    rw [TxRing.written, TxRing.written, halike.paddress, halike.sap]
  rw [TxRing.frame_eq, TxRing.frame_eq, if_pos hfree, if_pos hfree', hwritten, Option.some.injEq,
    List.append_cancel_left_eq, List.map_inj_left] at heq
  have hlast := heq 63 (List.mem_range'_1.mpr (by omega))
  rw [TxRing.loaddr, TxRing.loaddr, ← halike.index, hindex, hb0, hb1] at hlast
  exact absurd (h0.symm.trans (hlast.trans h1)) (by decide)

/-- A frame tells of nothing but its message, its stream and its board if and
only if the data have the minimum length. -/
theorem aenxmit_seals_frame (j : Fin AEN_MAXDEV) (mp : UnitdataReq) :
    SealsFrame j mp ↔ ETH_MINDATA ≤ mp.data.length := by
  constructor
  · intro h
    exact minimum_of_runs h.runs
  · intro h
    constructor
    · refine ⟨frameOf, fun r bytes hb => ?_⟩
      rw [TxRing.frame_long j h] at hb
      by_cases hfree : r.own r.txBufferIndex = false
      · rw [if_pos hfree] at hb
        exact (Option.some.inj hb).symm
      · rw [if_neg hfree] at hb
        exact absurd hb (Option.not_mem_none bytes)
    · intro r es es' hes
      have halike := TxRing.Alike.final (r := r) ⟨rfl, rfl, rfl, rfl⟩ hes
      rw [TxRing.frame_long j h, TxRing.frame_long j h, TxRing.written, TxRing.written,
        halike.own, halike.index, halike.paddress, halike.sap]
    · intro r r' hr x hx
      exact aenxmit_inside hr hx

/-- A message without data is sent with what the buffer held. -/
theorem aenxmit_seals_frame_fails :
    ¬ SealsFrame 0 ⟨Vector.replicate 6 0, []⟩ := by
  intro h
  exact absurd (minimum_of_runs h.runs) (by decide)

end
end HydraAmix.Aen
