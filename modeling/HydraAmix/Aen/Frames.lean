import HydraAmix.Aen.Reassembly

/-!
# Frames on the LANCE ring

The chip leaves a frame as a chain of buffers from STP to ENP, the count in the
last descriptor. Leftovers without STP can stand before the first frame. The
driver does not see where a frame starts (its test of STP is never true), so
leftovers become the head of the frame behind them; and every frame that it does
hand up carries 14 bytes too many.
-/
namespace HydraAmix.Aen
open Word HydraAmix.Ring Schedule

/-- The bytes of full buffers. -/
def fullSizes : List Ringptr → ℤ
  | [] => 0
  | d :: ds => -d.length.toInt + fullSizes ds

/-- A frame as the chip writes it. Without ERR the buffers before the last are
full and the count of the last one is the length with header and CRC. -/
structure IsFrame (c : List Ringptr) : Prop extends IsChain c where
  starts : ∃ d t, c = d :: t ∧ d.has RMD1_STP = true
  counts : (∀ d ∈ c, d.has RMD1_ERR = false) → ∀ front last, c = front ++ [last] →
    (∀ d ∈ front, 0 ≤ -d.length.toInt) ∧ fullSizes front ≤ last.count.toNat ∧
      18 ≤ last.count.toNat

/-- The ring from the index on: leftovers, frames, and then the chip's. -/
structure ChipRing (r : RxRing) (left : List Ringptr) (frames : List (List Ringptr)) : Prop where
  index : r.index < RXCOUNT
  fits : (left ++ frames.flatten).length ≤ RXCOUNT
  view : r.view (left ++ frames.flatten).length = left ++ frames.flatten
  startless : ∀ d ∈ left, d.own = false ∧ d.has RMD1_STP = false
  whole : ∀ f ∈ frames, IsFrame f
  chips : ∀ k, (left ++ frames.flatten).length ≤ k → k < RXCOUNT → (r.nth k).own = true

/-- A frame without errors that fits a packet and is meant for the stream. -/
def Deliverable (env : Env) (j : Fin AEN_MAXDEV) (c : List Ringptr) : Prop :=
  (∀ d ∈ c, d.has RMD1_ERR = false) ∧
    (frameBytes env.mem 0 c).length ≤ MAX_BUFFER_LENGTH ∧
    (env.aen j).sap =
      short ((frameBytes env.mem 0 c).getD 12 0) ((frameBytes env.mem 0 c).getD 13 0) ∧
    (env.mode &&& MODE_PROM = 0 ∨ (frameBytes env.mem 0 c).take 6 = env.paddress ∨
      (frameBytes env.mem 0 c).take 6 = broadcastAddress)

instance (env : Env) (j : Fin AEN_MAXDEV) (c : List Ringptr) : Decidable (Deliverable env j c) := by
  unfold Deliverable
  infer_instance

/-- What stands between the header and the CRC of a frame. -/
def payload (env : Env) (c : List Ringptr) : List Byte :=
  ((frameBytes env.mem 0 c).drop 14).take ((frameBytes env.mem 0 c).length - 18)

/-- The packet that a chain is gathered to, and the lengths read from it. -/
def packetOf (env : Env) (s : Rx) (c : List Ringptr) : ℤ → Byte :=
  (s.sink.copied env.mem 0 c).sink.rxbuff

def lengthsOf (env : Env) (s : Rx) (c : List Ringptr) : Lengths :=
  packetLengths (packetOf env s c) (s.sink.copied env.mem 0 c).sink.count

/-- The chain goes up to the stream. -/
def Reaches (env : Env) (j : Fin AEN_MAXDEV) (s : Rx) (c : List Ringptr) : Prop :=
  gathers 0 c = true ∧ Takes env (packetOf env s c) (lengthsOf env s c) j

instance (env : Env) (j : Fin AEN_MAXDEV) (s : Rx) (c : List Ringptr) :
    Decidable (Reaches env j s c) := by
  unfold Reaches
  infer_instance

/-- No number of bytes to copy is negative in the turn of the chain. -/
def Faultless (env : Env) (s : Rx) (c : List Ringptr) : Prop :=
  copiesWild 0 c = false ∧ ¬ (gathers 0 c = true ∧
    (∃ i, Takes env (packetOf env s c) (lengthsOf env s c) i) ∧
    min (lengthsOf env s c).length (lengthsOf env s c).trailn < 0)

/-- What the stream gets in the course of chains. -/
def handed (env : Env) (j : Fin AEN_MAXDEV) : Rx → List (List Ringptr) → List (List Byte)
  | _, [] => []
  | s, c :: cs =>
      (if Reaches env j s c then [unitdata (packetOf env s c) (lengthsOf env s c)] else []) ++
        handed env j (s.chain env c) cs

/-- The receive path sends the stream exactly its frames and hands every
descriptor of the host back. -/
def Reassembles (env : Env) (j : Fin AEN_MAXDEV) (s : Rx) (frames : List (List Ringptr)) : Prop :=
  ∃ fuel s', receiveInterrupt env fuel s = some s' ∧ s'.sink.wild = false ∧
    dataFor j s'.sink.up = (frames.filter fun f => Deliverable env j f).map (payload env) ∧
    ∀ a < RXCOUNT, (s'.ring.rxptr a).own = true

/-- Nothing on the ring is for the stream and nothing goes up to it: the loop
ends, the last of the host's descriptors has ENP, and no chain is gathered into
a packet that the stream takes. -/
structure Spared (env : Env) (j : Fin AEN_MAXDEV) (s : Rx) (left : List Ringptr)
    (frames : List (List Ringptr)) : Prop where
  ends : s.ring.Ends
  closed : (cut (left ++ frames.flatten)).2 = []
  none : ∀ f ∈ frames, ¬ Deliverable env j f
  turns : Every (Rx.chain env) (fun s c => Faultless env s c ∧ ¬ Reaches env j s c) s.counted
    (cut (left ++ frames.flatten)).1

section
variable {env : Env} {j : Fin AEN_MAXDEV} {s : Rx} {c : List Ringptr}

/-! ### One chain -/

/-- What a chain does for one stream, and to the noted copies. -/
theorem chain_sink (hw : env.Willing) (hc : IsChain c) (s : Rx) (j : Fin AEN_MAXDEV) :
    dataFor j (s.chain env c).sink.up = dataFor j s.sink.up ++
        (if Reaches env j s c then [unitdata (packetOf env s c) (lengthsOf env s c)] else []) ∧
      ((s.chain env c).sink.wild = true ↔ s.sink.wild = true ∨ ¬ Faultless env s c) := by
  obtain ⟨hrb, hup, hwild⟩ := copied_spec env.mem c 0 s.sink
  have hsink : (s.chain env c).sink = (s.sink.copied env.mem 0 c).handUp env := rfl
  rw [hsink, Copy.handUp, hw.hook]
  cases hcp : (s.sink.copied env.mem 0 c).rb with
  | none =>
      have hng : ¬ gathers 0 c = true := fun hg => by
        rw [hcp] at hrb
        exact absurd (hrb.mpr hg) Bool.false_ne_true
      dsimp only
      rw [hup, if_neg fun hr : Reaches env j s c => hng hr.1, List.append_nil, hwild]
      refine ⟨rfl, or_congr_right ?_⟩
      rw [Faultless, not_and_or, not_not, Bool.not_eq_false]
      exact ⟨.inl, fun hor => hor.resolve_right fun hh => hng hh.1⟩
  | some rb =>
      have hg : gathers 0 c = true := hrb.mp (by rw [hcp]; rfl)
      obtain ⟨front, last, hcf, hlast, -⟩ := hc.ends
      have hcount := copied_count env.mem hcf hlast s.sink hg
      have hpos : 0 ≤ (s.sink.copied env.mem 0 c).sink.count := by
        rw [hcount]
        exact Int.natCast_nonneg _
      have htoss : ∀ s' : Sink, s'.rxbuff = packetOf env s c →
          s'.count = (s.sink.copied env.mem 0 c).sink.count →
          s'.up = s.sink.up → (s'.wild = true ↔ s.sink.wild = true ∨ copiesWild 0 c = true) →
          dataFor j ((List.finRange AEN_MAXDEV).foldl
              (Sink.tossTo env (lengthsOf env s c)) s').up = dataFor j s.sink.up ++
              (if Reaches env j s c then [unitdata (packetOf env s c) (lengthsOf env s c)]
                else []) ∧
            (((List.finRange AEN_MAXDEV).foldl
              (Sink.tossTo env (lengthsOf env s c)) s').wild = true ↔ s.sink.wild = true ∨
              ¬ Faultless env s c) := by
        intro s' hbuf' hcount' hup' hwild'
        obtain ⟨hdata, hw'⟩ := Sink.foldl_tossTo hw (lengthsOf env s c)
          (List.nodup_finRange AEN_MAXDEV) s' (hcount' ▸ hpos) j
        rw [hdata, hw', hbuf', hup', hwild']
        refine ⟨?_, ?_⟩
        · congr 1
          exact if_congr ⟨fun hh => ⟨hg, hh.2⟩, fun hh => ⟨List.mem_finRange j, hh.2⟩⟩ rfl rfl
        · rw [Faultless, or_assoc, not_and_or, not_not, Bool.not_eq_false]
          refine or_congr_right (or_congr_right ?_)
          constructor
          · rintro ⟨⟨i, -, hi⟩, hneg⟩
            exact ⟨hg, ⟨i, hi⟩, hneg⟩
          · rintro ⟨-, ⟨i, hi⟩, hneg⟩
            exact ⟨⟨i, List.mem_finRange i, hi⟩, hneg⟩
      dsimp only [Sink.toss]
      split
      · exact htoss _ rfl rfl hup hwild
      · exact htoss _ rfl rfl hup hwild

/-- What chains do, one after another. -/
theorem foldl_chain_sink (hw : env.Willing) {cs : List (List Ringptr)}
    (hcs : ∀ c ∈ cs, IsChain c) (s : Rx) (j : Fin AEN_MAXDEV) :
    dataFor j (final (Rx.chain env) s cs).sink.up = dataFor j s.sink.up ++ handed env j s cs ∧
      ((final (Rx.chain env) s cs).sink.wild = false ↔
        s.sink.wild = false ∧ Every (Rx.chain env) (Faultless env) s cs) := by
  induction cs generalizing s with
  | nil => exact ⟨(List.append_nil _).symm, ⟨fun h => ⟨h, trivial⟩, fun h => h.1⟩⟩
  | cons c cs ih =>
      obtain ⟨hdata, hwild⟩ := chain_sink hw (hcs c List.mem_cons_self) s j
      obtain ⟨hdata', hwild'⟩ := ih (fun d hd => hcs d (List.mem_cons_of_mem c hd)) (s.chain env c)
      rw [final_cons]
      refine ⟨?_, hwild'.trans ?_⟩
      · rw [hdata', hdata, List.append_assoc, handed]
      · rw [← Bool.not_eq_true, hwild, not_or, not_not, Bool.not_eq_true, and_assoc]
        rfl

theorem handed_eq_nil {cs : List (List Ringptr)}
    (h : Every (Rx.chain env) (fun s c => Faultless env s c ∧ ¬ Reaches env j s c) s cs) :
    handed env j s cs = [] ∧ Every (Rx.chain env) (Faultless env) s cs := by
  induction cs generalizing s with
  | nil => exact ⟨rfl, trivial⟩
  | cons c cs ih =>
      obtain ⟨hn, hf⟩ := ih h.2
      exact ⟨by rw [handed, if_neg h.1.2, hn]; rfl, h.1.1, hf⟩

/-! ### One frame -/

theorem gathers_errors {t : ℤ} (h : gathers t c = true) : ∀ d ∈ c, d.has RMD1_ERR = false := by
  induction c generalizing t with
  | nil => exact nofun
  | cons d c ih =>
      obtain ⟨herr, -, hg⟩ := (gathers_cons t d c).mp h
      intro e he
      rcases List.mem_cons.mp he with rfl | he
      · exact herr
      · exact ih hg e he

theorem fullSizes_nonneg {c : List Ringptr} (h : ∀ d ∈ c, 0 ≤ -d.length.toInt) :
    0 ≤ fullSizes c := by
  induction c with
  | nil => exact Int.le_refl 0
  | cons d c ih =>
      have hd := h d List.mem_cons_self
      have hc := ih fun e he => h e (List.mem_cons_of_mem d he)
      rw [fullSizes]
      omega

/-- The sizes of a frame without errors add up to its count. -/
theorem frame_sizes (mem : ℕ → Byte) {front : List Ringptr} {last : Ringptr} {t : ℤ} (ht : 0 ≤ t)
    (hlast : last.enp = true) (hfront : ∀ d ∈ front, d.enp = false)
    (herr : ∀ d ∈ front ++ [last], d.has RMD1_ERR = false)
    (hsize : ∀ d ∈ front, 0 ≤ -d.length.toInt)
    (hsum : t + fullSizes front ≤ last.count.toNat) :
    (gathers t (front ++ [last]) = true ↔ (last.count.toNat : ℤ) ≤ MAX_BUFFER_LENGTH) ∧
      copiesWild t (front ++ [last]) = false ∧
      ((frameBytes mem t (front ++ [last])).length : ℤ) = last.count.toNat - t := by
  induction front generalizing t with
  | nil =>
      have hadds : last.adds t = last.count.toNat - t := if_pos hlast
      rw [fullSizes] at hsum
      have hl := herr last (by simp)
      rw [List.nil_append, gathers_cons, hadds]
      refine ⟨?_, Bool.eq_false_iff.mpr fun hc => ?_, ?_⟩
      · simp [hl, gathers]
      · obtain ⟨-, -, hneg | hnil⟩ := (copiesWild_cons t last []).mp hc
        · omega
        · exact absurd hnil Bool.false_ne_true
      · simp only [frameBytes, hadds, List.append_nil, List.length_map, List.length_range]
        omega
  | cons d front ih =>
      have hadds : d.adds t = -d.length.toInt :=
        if_neg (Bool.eq_false_iff.mp (hfront d List.mem_cons_self))
      have hd := hsize d List.mem_cons_self
      rw [fullSizes] at hsum
      obtain ⟨hg, hwild, hlen⟩ := @ih (t + d.adds t) (by omega)
        (fun e he => hfront e (List.mem_cons_of_mem d he))
        (fun e he => herr e (List.mem_cons_of_mem d he))
        (fun e he => hsize e (List.mem_cons_of_mem d he)) (by omega)
      have hnn := fullSizes_nonneg fun e he => hsize e (List.mem_cons_of_mem d he)
      have hde := herr d List.mem_cons_self
      rw [List.cons_append, gathers_cons, hg]
      refine ⟨⟨fun h => h.2.2, fun h => ⟨hde, by omega, h⟩⟩,
        Bool.eq_false_iff.mpr fun hc => ?_, ?_⟩
      · obtain ⟨-, -, hneg | hneg⟩ := (copiesWild_cons t d (front ++ [last])).mp hc
        · omega
        · exact absurd (hwild.symm.trans hneg) Bool.false_ne_true
      · rw [frameBytes, List.length_append, List.length_map, List.length_range]
        push_cast
        omega

/-- A frame is gathered if it has no errors and fits; then its bytes are the
packet. -/
theorem IsFrame.gathered (h : IsFrame c) (env : Env) (s : Rx) :
    (gathers 0 c = true ↔ (∀ d ∈ c, d.has RMD1_ERR = false) ∧
      ((frameBytes env.mem 0 c).length : ℤ) ≤ MAX_BUFFER_LENGTH) ∧
    ((∀ d ∈ c, d.has RMD1_ERR = false) → 18 ≤ (frameBytes env.mem 0 c).length ∧
      (gathers 0 c = true →
        (s.sink.copied env.mem 0 c).sink.count = (frameBytes env.mem 0 c).length ∧
        ∀ k < (frameBytes env.mem 0 c).length,
          packetOf env s c k = (frameBytes env.mem 0 c).getD k 0)) := by
  obtain ⟨front, last, hcf, hlast, hfront⟩ := h.ends
  have hall : (∀ d ∈ c, d.has RMD1_ERR = false) →
      (gathers 0 c = true ↔ (last.count.toNat : ℤ) ≤ MAX_BUFFER_LENGTH) ∧
      copiesWild 0 c = false ∧ ((frameBytes env.mem 0 c).length : ℤ) = last.count.toNat ∧
      18 ≤ last.count.toNat := fun herr => by
    obtain ⟨hsize, hsum, hmin⟩ := h.counts herr front last hcf
    subst hcf
    have hs := frame_sizes env.mem (Int.le_refl 0) hlast hfront herr hsize (by omega)
    rw [Int.sub_zero] at hs
    exact ⟨hs.1, hs.2.1, hs.2.2, hmin⟩
  refine ⟨⟨fun hg => ?_, fun ⟨herr, hfit⟩ => ?_⟩, fun herr => ?_⟩
  · have herr := gathers_errors hg
    obtain ⟨hiff, -, hlen, -⟩ := hall herr
    exact ⟨herr, hlen ▸ hiff.mp hg⟩
  · obtain ⟨hiff, -, hlen, -⟩ := hall herr
    exact hiff.mpr (hlen ▸ hfit)
  · obtain ⟨hiff, hwild, hlen, hmin⟩ := hall herr
    refine ⟨by omega, fun hg => ⟨?_, fun k hk => ?_⟩⟩
    · rw [copied_count env.mem hcf hlast s.sink hg, hlen]
    · rw [packetOf, copied_bytes env.mem c s.sink hg hwild, if_pos (Int.natCast_nonneg k),
        Int.sub_zero, Int.toNat_natCast, List.getD_eq_getElem?_getD, List.getElem?_eq_getElem hk,
        Option.getD_some, Option.getD_some]

theorem bytesAt_length (packet : ℤ → Byte) (start n : ℤ) :
    (bytesAt packet start n).length = n.toNat := by
  rw [bytesAt, List.length_map, List.length_range]

/-- A chain of an ordinary type goes up with all its bytes but the CRC's. -/
theorem length_unitdata {front : List Ringptr} {last : Ringptr}
    (hcf : c = front ++ [last]) (hlast : last.enp = true) (hg : gathers 0 c = true)
    (ho : isTrailer (shortAt (packetOf env s c) 12) = false) :
    (unitdata (packetOf env s c) (lengthsOf env s c)).length = last.count.toNat - 4 := by
  have hl : lengthsOf env s c =
      ⟨shortAt (packetOf env s c) 12, last.count.toNat - ETH_CRC_LEN, 0⟩ := by
    rw [lengthsOf, packetLengths, copied_count env.mem hcf hlast s.sink hg]
    exact if_neg (Bool.eq_false_iff.mp ho)
  rw [hl, unitdata, if_neg (by simp), List.nil_append, bytesAt_length]
  exact Int.toNat_sub _ _

theorem bytesAt_packet {packet : ℤ → Byte} {bytes : List Byte} {n : ℕ} (hn : n ≤ bytes.length)
    (h : ∀ k < bytes.length, packet k = bytes.getD k 0) : bytesAt packet 0 n = bytes.take n := by
  refine List.ext_getElem ?_ fun k hk hk' => ?_
  · rw [bytesAt_length, Int.toNat_natCast, List.length_take, Nat.min_eq_left hn]
  · rw [bytesAt_length, Int.toNat_natCast] at hk
    simp only [bytesAt, List.getElem_map, List.getElem_range, List.getElem_take, Int.zero_add]
    rw [h k (by omega), List.getD_eq_getElem?_getD, List.getElem?_eq_getElem (by omega),
      Option.getD_some]

/-- A frame of an ordinary type reaches an open stream if it is meant for it. -/
theorem IsFrame.reaches_iff (h : IsFrame c) (hq : (env.aen j).q = true)
    (hraw : (env.aen j).flags &&& AEN_RAW_DATA = 0) (s : Rx)
    (ho : isTrailer (shortAt (packetOf env s c) 12) = false) :
    Reaches env j s c ↔ Deliverable env j c := by
  obtain ⟨hg, hbytes⟩ := h.gathered env s
  have hsap : (lengthsOf env s c).sap = shortAt (packetOf env s c) 12 := by
    rw [lengthsOf, packetLengths, if_neg (Bool.eq_false_iff.mp ho)]
  rw [Reaches, Deliverable, Takes, hg, hsap, and_assoc]
  refine and_congr_right fun herr => ?_
  obtain ⟨hlen, hpacket⟩ := hbytes herr
  refine and_congr_right fun hfit => ?_
  have hp := (hpacket (hg.mpr ⟨herr, hfit⟩)).2
  have h12 := hp 12 (by omega)
  have h13 := hp 13 (by omega)
  have htake := bytesAt_packet (n := 6) (by omega) hp
  rw [shortAt, show (12 : ℤ) + 1 = (13 : ℕ) from rfl, show (12 : ℤ) = (12 : ℕ) from rfl, h12, h13]
  rw [addressed, show (6 : ℤ) = (6 : ℕ) from rfl, htake]
  simp [hq, hraw, or_assoc]

theorem length_payload (env : Env) (c : List Ringptr) :
    (payload env c).length = (frameBytes env.mem 0 c).length - 18 := by
  rw [payload, List.length_take, List.length_drop]
  omega

/-- What goes up for a chain that ends in a frame's last buffer is 14 bytes
longer than the frame's payload. -/
theorem unitdata_ne_payload (h : IsFrame c) (hd : Deliverable env j c) (left : List Ringptr)
    (hg : gathers 0 (left ++ c) = true)
    (ho : isTrailer (shortAt (packetOf env s (left ++ c)) 12) = false) :
    unitdata (packetOf env s (left ++ c)) (lengthsOf env s (left ++ c)) ≠ payload env c := by
  obtain ⟨front, last, hcf, hlast, hfront⟩ := h.ends
  obtain ⟨hsize, hsum, hmin⟩ := h.counts hd.1 front last hcf
  have hlen : ((frameBytes env.mem 0 c).length : ℤ) = last.count.toNat := by
    subst hcf
    have hs := frame_sizes env.mem (Int.le_refl 0) hlast hfront hd.1 hsize (by omega)
    rw [hs.2.2, Int.sub_zero]
  intro heq
  have hl := congrArg List.length heq
  rw [length_payload, length_unitdata (show left ++ c = (left ++ front) ++ [last] by
    rw [hcf, List.append_assoc]) hlast hg ho] at hl
  omega

/-! ### All frames -/

/-- No chain has a trailer type when its turn comes. -/
def Ordinary (env : Env) (s : Rx) (c : List Ringptr) : Prop :=
  isTrailer (shortAt (packetOf env s c) 12) = false

theorem handed_length {fs : List (List Ringptr)} (hq : (env.aen j).q = true)
    (hraw : (env.aen j).flags &&& AEN_RAW_DATA = 0) (hfs : ∀ f ∈ fs, IsFrame f) {s : Rx}
    (ho : Every (Rx.chain env) (Ordinary env) s fs) :
    (handed env j s fs).length = ((fs.filter fun f => Deliverable env j f).map (payload env)).length
    := by
  induction fs generalizing s with
  | nil => rfl
  | cons f fs ih =>
      have hf := (hfs f List.mem_cons_self).reaches_iff hq hraw s ho.1
      rw [handed, List.length_append, ih (fun g hg => hfs g (List.mem_cons_of_mem f hg)) ho.2,
        List.filter_cons]
      by_cases hd : Deliverable env j f
      · rw [if_pos (hf.mpr hd), if_pos (decide_eq_true hd)]
        simp [Nat.add_comm]
      · rw [if_neg (hd ∘ hf.mp), if_neg (by simpa using hd)]
        simp

/-- If the stream gets exactly the payloads of frames, it gets none. -/
theorem handed_frames {fs : List (List Ringptr)} (hq : (env.aen j).q = true)
    (hraw : (env.aen j).flags &&& AEN_RAW_DATA = 0) (hfs : ∀ f ∈ fs, IsFrame f) {s : Rx}
    (ho : Every (Rx.chain env) (Ordinary env) s fs)
    (heq : handed env j s fs = (fs.filter fun f => Deliverable env j f).map (payload env)) :
    (∀ f ∈ fs, ¬ Deliverable env j f) ∧
      Every (Rx.chain env) (fun s c => ¬ Reaches env j s c) s fs := by
  induction fs generalizing s with
  | nil => exact ⟨nofun, trivial⟩
  | cons f fs ih =>
      have hf := (hfs f List.mem_cons_self).reaches_iff hq hraw s ho.1
      rw [handed, List.filter_cons] at heq
      by_cases hd : Deliverable env j f
      · rw [if_pos (hf.mpr hd), if_pos (decide_eq_true hd), List.map_cons] at heq
        exact absurd (List.cons_eq_cons.mp heq).1
          (unitdata_ne_payload (hfs f List.mem_cons_self) hd [] (hf.mpr hd).1 ho.1)
      · rw [if_neg (hd ∘ hf.mp), if_neg (by simpa using hd), List.nil_append] at heq
        obtain ⟨hnone, hturns⟩ := ih (fun g hg => hfs g (List.mem_cons_of_mem f hg)) ho.2 heq
        refine ⟨fun g hg => ?_, hd ∘ hf.mp, hturns⟩
        rcases List.mem_cons.mp hg with rfl | hg
        · exact hd
        · exact hnone g hg

/-- The same with leftovers in the first chain. -/
theorem handed_leftovers {left f : List Ringptr} {fs : List (List Ringptr)}
    (hq : (env.aen j).q = true) (hraw : (env.aen j).flags &&& AEN_RAW_DATA = 0)
    (hf : IsFrame f) (hfs : ∀ f ∈ fs, IsFrame f) {s : Rx}
    (ho : Every (Rx.chain env) (Ordinary env) s ((left ++ f) :: fs))
    (heq : handed env j s ((left ++ f) :: fs) =
      ((f :: fs).filter fun f => Deliverable env j f).map (payload env)) :
    (∀ g ∈ f :: fs, ¬ Deliverable env j g) ∧
      Every (Rx.chain env) (fun s c => ¬ Reaches env j s c) s ((left ++ f) :: fs) := by
  have hlen := handed_length hq hraw hfs ho.2
  rw [handed, List.filter_cons] at heq
  by_cases hd : Deliverable env j f
  · rw [if_pos (c := decide _ = true) (decide_eq_true hd), List.map_cons] at heq
    by_cases hr : Reaches env j s (left ++ f)
    · rw [if_pos hr] at heq
      exact absurd (List.cons_eq_cons.mp heq).1 (unitdata_ne_payload hf hd left hr.1 ho.1)
    · rw [if_neg hr, List.nil_append] at heq
      rw [heq, List.length_cons] at hlen
      omega
  · rw [if_neg fun h => hd (of_decide_eq_true h)] at heq
    by_cases hr : Reaches env j s (left ++ f)
    · rw [if_pos hr] at heq
      rw [← heq, List.length_append, List.length_singleton] at hlen
      omega
    · rw [if_neg hr, List.nil_append] at heq
      obtain ⟨hnone, hturns⟩ := handed_frames hq hraw hfs ho.2 heq
      refine ⟨fun g hg => ?_, hr, hturns⟩
      rcases List.mem_cons.mp hg with rfl | hg
      · exact hd
      · exact hnone g hg

/-- Leftovers without ENP are cut into the first frame, and frames into
themselves. -/
theorem cut_chain {front : List Ringptr} {last : Ringptr} (hlast : last.enp = true)
    (hfront : ∀ d ∈ front, d.enp = false) (xs : List Ringptr) :
    cut ((front ++ [last]) ++ xs) = ((front ++ [last]) :: (cut xs).1, (cut xs).2) := by
  induction front with
  | nil => exact cut_cons_enp hlast xs
  | cons d front ih =>
      rw [List.cons_append, List.cons_append, cut,
        if_neg (Bool.eq_false_iff.mp (hfront d List.mem_cons_self)),
        ih fun e he => hfront e (List.mem_cons_of_mem d he)]

theorem cut_open {xs : List Ringptr} (h : ∀ d ∈ xs, d.enp = false) : cut xs = ([], xs) := by
  induction xs with
  | nil => rfl
  | cons x xs ih =>
      rw [cut, if_neg (Bool.eq_false_iff.mp (h x List.mem_cons_self)),
        ih fun d hd => h d (List.mem_cons_of_mem x hd)]

theorem cut_frames {fs : List (List Ringptr)} (h : ∀ f ∈ fs, IsFrame f) :
    cut fs.flatten = (fs, []) := by
  induction fs with
  | nil => rfl
  | cons f fs ih =>
      obtain ⟨front, last, rfl, hlast, hfront⟩ := (h f List.mem_cons_self).ends
      rw [List.flatten_cons, cut_chain hlast hfront, ih fun g hg => h g (List.mem_cons_of_mem _ hg)]

theorem cut_leftovers {left f : List Ringptr} {fs : List (List Ringptr)}
    (hleft : ∀ d ∈ left, d.enp = false) (h : ∀ g ∈ f :: fs, IsFrame g) :
    cut (left ++ (f :: fs).flatten) = ((left ++ f) :: fs, []) := by
  obtain ⟨front, last, rfl, hlast, hfront⟩ := (h f List.mem_cons_self).ends
  rw [List.flatten_cons, ← List.append_assoc, ← List.append_assoc, cut_chain hlast fun d hd =>
    (List.mem_append.mp hd).elim (hleft d) (hfront d),
    cut_frames fun g hg => h g (List.mem_cons_of_mem _ hg)]

variable {left : List Ringptr} {frames : List (List Ringptr)}

theorem ChipRing.host (h : ChipRing s.ring left frames) :
    ∀ d ∈ left ++ frames.flatten, d.own = false := by
  intro d hd
  rcases List.mem_append.mp hd with hd | hd
  · exact (h.startless d hd).1
  · obtain ⟨f, hf, hdf⟩ := List.mem_flatten.mp hd
    exact (h.whole f hf).host d hdf

/-- After the chains, the chip owns the ring if nothing is left. -/
theorem ChipRing.all_own_iff (h : ChipRing s.ring left frames) :
    (∀ a < RXCOUNT,
      ((s.ring.gives (cut (left ++ frames.flatten)).1.flatten.length).rxptr a).own = true) ↔
    (cut (left ++ frames.flatten)).2 = [] := by
  obtain ⟨hspec, -, -⟩ := cut_spec _ h.host
  have hlen : (left ++ frames.flatten).length = (cut (left ++ frames.flatten)).1.flatten.length +
      (cut (left ++ frames.flatten)).2.length := by
    rw [← List.length_append, ← hspec]
  have hfits := h.fits
  constructor
  · intro hown
    by_contra hne
    have hpos := List.length_pos_iff.mpr hne
    have hn : (cut (left ++ frames.flatten)).1.flatten.length + 0 < RXCOUNT := by omega
    have hnth := s.ring.gives_nth h.index hn
    have hin : (cut (left ++ frames.flatten)).1.flatten.length + 0 <
        (left ++ frames.flatten).length := by omega
    rw [RxRing.nth_of_view h.view hin, RxRing.nth] at hnth
    have ho := hown _ (Nat.mod_lt
      ((s.ring.gives (cut (left ++ frames.flatten)).1.flatten.length).index + 0)
      (show 0 < RXCOUNT by decide))
    rw [hnth, h.host _ (List.getElem_mem hin)] at ho
    exact absurd ho Bool.false_ne_true
  · intro hnil a ha
    rw [hnil, List.length_nil, Nat.add_zero] at hlen
    obtain ⟨k, hk, rfl⟩ := s.ring.exists_place h.index ha
    rw [RxRing.gives_rxptr _ _ _ h.index]
    rcases Nat.lt_or_ge k (cut (left ++ frames.flatten)).1.flatten.length with hlt | hge
    · rw [if_pos ⟨k, hlt, rfl⟩]
      exact Ringptr.own_handedBack _
    · have hc := h.chips k (hlen ▸ hge) hk
      split
      · exact Ringptr.own_handedBack _
      · exact hc

/-- The receive path, where its loop ends, in terms of the chains. -/
theorem ChipRing.reassembles_iff (h : ChipRing s.ring left frames) (hw : env.Willing)
    (hup : s.sink.up = []) (hwild : s.sink.wild = false) (hends : s.ring.Ends) :
    Reassembles env j s frames ↔
      Every (Rx.chain env) (Faultless env) s.counted (cut (left ++ frames.flatten)).1 ∧
      handed env j s.counted (cut (left ++ frames.flatten)).1 =
        (frames.filter fun f => Deliverable env j f).map (payload env) ∧
      (cut (left ++ frames.flatten)).2 = [] := by
  have hwalk := hends.walk_of_view h.index h.fits (by rw [h.view]; exact h.host)
    fun hlt => h.chips _ (Nat.le_refl _) hlt
  rw [h.view] at hwalk
  obtain ⟨-, hcs, -⟩ := cut_spec _ h.host
  obtain ⟨hdata, hwild'⟩ := foldl_chain_sink hw hcs s.counted j
  have hring : (final (Rx.chain env) s.counted (cut (left ++ frames.flatten)).1).ring =
      s.ring.gives (cut (left ++ frames.flatten)).1.flatten.length :=
    foldl_chain_ring env _ s.counted
  have hdata0 : dataFor j s.counted.sink.up = [] := by
    change dataFor j s.sink.up = []
    rw [hup]
    rfl
  rw [hdata0, List.nil_append] at hdata
  have hloop : ∀ fuel, RXCOUNT + (cut (left ++ frames.flatten)).1.length < fuel →
      receiveInterrupt env fuel s =
        some (final (Rx.chain env) s.counted (cut (left ++ frames.flatten)).1) := fun fuel hf =>
    receiveLoop_walk env (s := s.counted) hwalk hf
  rw [← h.all_own_iff, ← hring, ← hdata]
  constructor
  · rintro ⟨fuel, s', hs', hnw, hd, hown⟩
    have hbig := receiveLoop_le
      (Nat.le_max_left fuel (RXCOUNT + (cut (left ++ frames.flatten)).1.length + 1)) hs'
    obtain rfl := Option.some.inj (hbig.symm.trans (hloop _ (by omega)))
    exact ⟨(hwild'.mp hnw).2, hd, hown⟩
  · rintro ⟨hev, hd, hown⟩
    exact ⟨_, _, hloop _ (Nat.lt_succ_self _), hwild'.mpr ⟨hwild, hev⟩, hd, hown⟩

theorem handed_turns {cs : List (List Ringptr)}
    (hf : Every (Rx.chain env) (Faultless env) s cs)
    (hr : Every (Rx.chain env) (fun s c => ¬ Reaches env j s c) s cs) :
    Every (Rx.chain env) (fun s c => Faultless env s c ∧ ¬ Reaches env j s c) s cs := by
  induction cs generalizing s with
  | nil => trivial
  | cons c cs ih => exact ⟨⟨hf.1, hr.1⟩, ih hf.2 hr.2⟩

/-- The chains of a ring whose leftovers have no ENP carry no frame of the
stream, if it gets exactly the payloads of its frames. -/
theorem ChipRing.none_of_handed (h : ChipRing s.ring left frames) (hq : (env.aen j).q = true)
    (hraw : (env.aen j).flags &&& AEN_RAW_DATA = 0) (hleft : ∀ d ∈ left, d.enp = false)
    (ho : Every (Rx.chain env) (Ordinary env) s.counted (cut (left ++ frames.flatten)).1)
    (heq : handed env j s.counted (cut (left ++ frames.flatten)).1 =
      (frames.filter fun f => Deliverable env j f).map (payload env)) :
    (∀ f ∈ frames, ¬ Deliverable env j f) ∧
      Every (Rx.chain env) (fun s c => ¬ Reaches env j s c) s.counted
        (cut (left ++ frames.flatten)).1 := by
  cases frames with
  | nil =>
      rw [List.flatten_nil, List.append_nil, cut_open hleft]
      exact ⟨nofun, trivial⟩
  | cons f fs =>
      rw [cut_leftovers hleft h.whole] at ho heq ⊢
      exact handed_leftovers hq hraw (h.whole f List.mem_cons_self)
        (fun g hg => h.whole g (List.mem_cons_of_mem f hg)) ho heq

end

/-- The stream gets exactly its frames where nothing on the ring is for it. That
is the only way on a ring whose leftovers have no ENP and whose packets have no
trailer type. -/
theorem reassembles_spared (env : Env) (j : Fin AEN_MAXDEV) (s : Rx) (left : List Ringptr)
    (frames : List (List Ringptr)) (hw : env.Willing) (h : ChipRing s.ring left frames)
    (hq : (env.aen j).q = true) (hraw : (env.aen j).flags &&& AEN_RAW_DATA = 0)
    (hup : s.sink.up = []) (hwild : s.sink.wild = false) :
    (Spared env j s left frames → Reassembles env j s frames) ∧
      ((∀ d ∈ left, d.enp = false) →
        Every (Rx.chain env) (Ordinary env) s.counted (cut (left ++ frames.flatten)).1 →
        Reassembles env j s frames → Spared env j s left frames) := by
  constructor
  · intro hs
    obtain ⟨hnil, hf⟩ := handed_eq_nil hs.turns
    refine (h.reassembles_iff hw hup hwild hs.ends).mpr ⟨hf, ?_, hs.closed⟩
    rw [hnil, List.filter_eq_nil_iff.mpr fun f hf => by simpa using hs.none f hf]
    rfl
  · intro hleft ho hr
    have hends : s.ring.Ends := by
      obtain ⟨fuel, s', hs', -⟩ := hr
      by_contra hne
      exact absurd (hs'.symm.trans (receiveLoop_forever env fuel (s := s.counted) h.index hne))
        nofun
    obtain ⟨hf, heq, hclosed⟩ := (h.reassembles_iff hw hup hwild hends).mp hr
    obtain ⟨hnone, hturns⟩ := h.none_of_handed hq hraw hleft ho heq
    exact ⟨hends, hclosed, hnone, handed_turns hf hturns⟩

/-- A board with one stream, and a memory that holds a packet of type 0x0800. -/
def streamEnv (sap : BitVec 16) : Env where
  mem a := if a = 12 then 8 else 0
  mode := 0
  paddress := [0, 0, 0, 0, 0, 0]
  aen j := ⟨j == 0, 0, sap⟩
  hook := none
  answers _ := ⟨true, true, true⟩

/-- A frame of 64 bytes in one buffer. -/
def smallFrame : Ringptr := ⟨0, RMD1_STP ||| RMD1_ENP, -150, 64⟩

def smallRx : Rx :=
  ⟨⟨fun a => if a = 0 then smallFrame else ⟨0, RMD1_OWN, 0, 0⟩, 0, []⟩,
    fun _ => 0, 0, ⟨0, 0, 0, 0, 0, 0, 0, 0, 0, 0, 0, 0, 0, 0⟩, [], 0, false⟩

theorem streamEnv_willing (sap : BitVec 16) : (streamEnv sap).Willing := ⟨rfl, fun _ => rfl⟩

theorem smallRx_ring : ChipRing smallRx.ring [] [[smallFrame]] where
  index := by decide
  fits := by decide
  view := by decide
  startless := nofun
  whole f hf := by
    obtain rfl := List.mem_singleton.mp hf
    refine ⟨⟨by decide, [], smallFrame, rfl, by decide, nofun⟩, ⟨_, _, rfl, by decide⟩,
      fun _ front last h => ?_⟩
    obtain ⟨rfl, rfl⟩ : front = [] ∧ last = smallFrame := by
      cases front with
      | nil => exact ⟨rfl, (List.cons_eq_cons.mp h).1.symm⟩
      | cons d front => exact absurd (List.cons_eq_cons.mp h).2 (by simp)
    exact ⟨nofun, by decide, by decide⟩
  chips k hk hlt := by
    have hk' : 1 ≤ k := hk
    have hne : (0 + k) % RXCOUNT ≠ 0 := by rw [Nat.zero_add, Nat.mod_eq_of_lt hlt]; omega
    change (if (0 + k) % RXCOUNT = 0 then smallFrame else ⟨0, RMD1_OWN, 0, 0⟩).own = true
    rw [if_neg hne]
    decide

/-- The frame is for another stream, and the frame is for this one. -/
theorem reassembles_spared_frame :
    Reassembles (streamEnv 0x0806) 0 smallRx [[smallFrame]] ∧
      ¬ Reassembles (streamEnv 0x0800) 0 smallRx [[smallFrame]] := by
  constructor
  · refine (reassembles_spared (streamEnv 0x0806) 0 smallRx [] [[smallFrame]]
      (streamEnv_willing _) smallRx_ring rfl rfl rfl rfl).1 ⟨⟨1, by decide, .inl (by decide)⟩,
        rfl, ?_, ⟨⟨rfl, fun hc => ?_⟩, ?_⟩, trivial⟩
    · decide
    · obtain ⟨i, hi⟩ := hc.2.1
      exact absurd (show (0x0806#16 : BitVec 16) =
        (lengthsOf (streamEnv 0x0806) smallRx.counted [smallFrame]).sap from hi.2.2.1) (by decide)
    · decide
  · intro h
    have hs := (reassembles_spared (streamEnv 0x0800) 0 smallRx [] [[smallFrame]]
      (streamEnv_willing _) smallRx_ring rfl rfl rfl rfl).2 nofun
        ⟨by unfold Ordinary; decide, trivial⟩ h
    exact hs.none [smallFrame] List.mem_cons_self (by decide)

/-- A stream gets the CRC and ten bytes more behind its payload. -/
theorem reassembles_fails :
    ¬ ∀ (env : Env) (j : Fin AEN_MAXDEV) (s : Rx) (left : List Ringptr)
      (frames : List (List Ringptr)), env.Willing → ChipRing s.ring left frames →
      (env.aen j).q = true → (env.aen j).flags &&& AEN_RAW_DATA = 0 → s.sink.up = [] →
      s.sink.wild = false → Reassembles env j s frames := by
  intro h
  have hr := h (streamEnv 0x0800) 0 smallRx [] [[smallFrame]] (streamEnv_willing _) smallRx_ring
    rfl rfl rfl rfl
  obtain ⟨-, heq, -⟩ := (smallRx_ring.reassembles_iff (streamEnv_willing _) rfl rfl
    ⟨1, by decide, .inl (by decide)⟩).mp hr
  exact absurd (congrArg (List.map List.length) heq) (by decide)

end HydraAmix.Aen
