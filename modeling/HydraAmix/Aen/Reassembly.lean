import HydraAmix.Library.Schedule
import HydraAmix.Aen.ReceiveRing

/-!
# What the receive loop hands up for a chain

The copy loop leaves the bytes of a chain in `rxbuff`, one buffer after another,
as long as no descriptor has ERR and the total stays within a packet.
`toss_packet_up_stream` then takes the payload from behind the header: as many
bytes as the whole frame has without its CRC, so more than the payload.
-/
namespace HydraAmix.Aen
open Word HydraAmix.Ring

/-- STREAMS has room and blocks for everything, and no hook takes packets. -/
structure Env.Willing (env : Env) : Prop where
  hook : env.hook = none
  answers : ∀ n, env.answers n = ⟨true, true, true⟩

/-- No ERR in what is left of a chain after `t` bytes, and no total too long. -/
def gathers : ℤ → List Ringptr → Bool
  | _, [] => true
  | t, d :: ds =>
      !d.has RMD1_ERR && decide (t + d.adds t ≤ MAX_BUFFER_LENGTH) && gathers (t + d.adds t) ds

/-- A `bcopy` of a negative number of bytes on the way. -/
def copiesWild : ℤ → List Ringptr → Bool
  | _, [] => false
  | t, d :: ds =>
      !d.has RMD1_ERR && decide (t + d.adds t ≤ MAX_BUFFER_LENGTH) &&
        (decide (d.adds t < 0) || copiesWild (t + d.adds t) ds)

/-- The bytes of the buffers of a chain. -/
def frameBytes (mem : ℕ → Byte) : ℤ → List Ringptr → List Byte
  | _, [] => []
  | t, d :: ds =>
      ((List.range (d.adds t).toNat).map fun k => mem (d.loaddr.toNat + k)) ++
        frameBytes mem (t + d.adds t) ds

/-- The rest of a chain as the copy loop leaves it, after `t` bytes. -/
def Sink.copied (s : Sink) (mem : ℕ → Byte) (t : ℤ) (c : List Ringptr) : Copy :=
  c.foldl (Copy.take mem) ⟨some t, t, s⟩

/-- The stream takes packets of these lengths, as unit data. -/
def Takes (env : Env) (packet : ℤ → Byte) (l : Lengths) (j : Fin AEN_MAXDEV) : Prop :=
  (env.aen j).q = true ∧ (env.aen j).flags &&& AEN_RAW_DATA = 0 ∧ (env.aen j).sap = l.sap ∧
    addressed env packet = true

instance (env : Env) (packet : ℤ → Byte) (l : Lengths) (j : Fin AEN_MAXDEV) :
    Decidable (Takes env packet l j) := by
  unfold Takes
  infer_instance

/-- The data of the indications that a stream was sent. -/
def dataFor (j : Fin AEN_MAXDEV) (up : List (Fin AEN_MAXDEV × Upmsg)) : List (List Byte) :=
  up.filterMap fun m =>
    match m.2 with
    | .unitdataInd _ _ data => if m.1 = j then some data else none
    | .raw _ _ => none

section
variable {env : Env} {s : Sink} {j : Fin AEN_MAXDEV} {l : Lengths}

/-! ### One packet, all streams -/

theorem dataFor_append (j : Fin AEN_MAXDEV) (up up' : List (Fin AEN_MAXDEV × Upmsg)) :
    dataFor j (up ++ up') = dataFor j up ++ dataFor j up' := List.filterMap_append

namespace Sink

theorem send_willing (hw : env.Willing) (s : Sink) (j : Fin AEN_MAXDEV) (mp : Upmsg) (size : ℤ) :
    s.send env j mp size = { s with
      asked := s.asked + 1, up := s.up ++ [(j, mp)], wild := s.wild || decide (size < 0) } := by
  rw [send, hw.answers]
  rfl

theorem tossTo_packet (hw : env.Willing) (l : Lengths) (s : Sink) (i : Fin AEN_MAXDEV) :
    (s.tossTo env l i).rxbuff = s.rxbuff ∧ (s.tossTo env l i).count = s.count := by
  unfold tossTo
  simp only [send_willing hw]
  split
  · exact ⟨rfl, rfl⟩
  · split
    · exact ⟨rfl, rfl⟩
    · split
      · split <;> exact ⟨rfl, rfl⟩
      · exact ⟨rfl, rfl⟩

theorem tossTo_data (hw : env.Willing) (l : Lengths) (s : Sink) (i j : Fin AEN_MAXDEV) :
    dataFor j (s.tossTo env l i).up =
      dataFor j s.up ++ if i = j ∧ Takes env s.rxbuff l i then [unitdata s.rxbuff l] else [] := by
  unfold tossTo Takes
  simp only [send_willing hw]
  split
  case isTrue h =>
    rw [if_neg fun hc => absurd (h.symm.trans hc.2.1) Bool.false_ne_true, List.append_nil]
  case isFalse h =>
    have hq : (env.aen i).q = true := Bool.not_eq_false _ ▸ h
    split
    case isTrue hraw =>
      rw [if_neg fun hc => hraw hc.2.2.1, dataFor_append]
      rfl
    case isFalse hraw =>
      split
      case isTrue hsap =>
        split
        case isTrue ha =>
          rw [dataFor_append]
          by_cases hij : i = j
          · rw [if_pos ⟨hij, hq, not_not.mp hraw, hsap, ha⟩]
            simp [dataFor, hij]
          · rw [if_neg fun hc => hij hc.1]
            simp [dataFor, hij]
        case isFalse ha => rw [if_neg fun hc => ha hc.2.2.2.2, List.append_nil]
      case isFalse hsap => rw [if_neg fun hc => hsap hc.2.2.2.1, List.append_nil]

theorem tossTo_wild (hw : env.Willing) (l : Lengths) (s : Sink) (i : Fin AEN_MAXDEV)
    (hc : 0 ≤ s.count) :
    (s.tossTo env l i).wild = true ↔
      s.wild = true ∨ (Takes env s.rxbuff l i ∧ min l.length l.trailn < 0) := by
  unfold tossTo Takes
  simp only [send_willing hw]
  split
  case isTrue h =>
    exact ⟨.inl, fun hor => hor.resolve_right fun ht =>
      absurd (h.symm.trans ht.1.1) Bool.false_ne_true⟩
  case isFalse h =>
    have hq : (env.aen i).q = true := Bool.not_eq_false _ ▸ h
    split
    case isTrue hraw =>
      have hneg : ¬ s.count < 0 := Int.not_lt.mpr hc
      simp only [hneg, decide_false, Bool.or_false]
      exact ⟨.inl, fun hor => hor.resolve_right fun ht => hraw ht.1.2.1⟩
    case isFalse hraw =>
      split
      case isTrue hsap =>
        split
        case isTrue ha =>
          simp only [Bool.or_eq_true, decide_eq_true_eq]
          exact or_congr_right ⟨fun hlt => ⟨⟨hq, not_not.mp hraw, hsap, ha⟩, hlt⟩, fun ht => ht.2⟩
        case isFalse ha =>
          exact ⟨.inl, fun hor => hor.resolve_right fun ht => ha ht.1.2.2.2⟩
      case isFalse hsap =>
        exact ⟨.inl, fun hor => hor.resolve_right fun ht => hsap ht.1.2.2.1⟩

/-- The loop over the streams, for one of them and for the negative copies. -/
theorem foldl_tossTo (hw : env.Willing) (l : Lengths) {is : List (Fin AEN_MAXDEV)}
    (hnd : is.Nodup) (s : Sink) (hc : 0 ≤ s.count) (j : Fin AEN_MAXDEV) :
    dataFor j (is.foldl (tossTo env l) s).up =
        dataFor j s.up ++ (if j ∈ is ∧ Takes env s.rxbuff l j then [unitdata s.rxbuff l] else []) ∧
      ((is.foldl (tossTo env l) s).wild = true ↔
        s.wild = true ∨ ((∃ i ∈ is, Takes env s.rxbuff l i) ∧ min l.length l.trailn < 0)) := by
  induction is generalizing s with
  | nil => simp
  | cons i is ih =>
      obtain ⟨hi, hnd⟩ := List.nodup_cons.mp hnd
      obtain ⟨hbuf, hcount⟩ := tossTo_packet hw l s i
      obtain ⟨hdata, hwild⟩ := ih hnd (s.tossTo env l i) (hcount ▸ hc)
      rw [List.foldl_cons]
      constructor
      · rw [hdata, tossTo_data hw, hbuf, List.append_assoc]
        congr 1
        by_cases hij : i = j
        · subst hij
          by_cases ht : Takes env s.rxbuff l i
          · rw [if_pos ⟨rfl, ht⟩, if_neg fun hc => hi hc.1, if_pos ⟨List.mem_cons_self, ht⟩]
            rfl
          · rw [if_neg fun hc => ht hc.2, if_neg fun hc => ht hc.2, if_neg fun hc => ht hc.2]
            rfl
        · rw [if_neg fun hc => hij hc.1, List.nil_append]
          refine if_congr (and_congr_left fun _ => ⟨List.mem_cons_of_mem i, fun hj => ?_⟩) rfl rfl
          exact (List.mem_cons.mp hj).resolve_left fun he => hij he.symm
      · rw [hwild, tossTo_wild hw l s i hc, hbuf, List.exists_mem_cons_iff]
        tauto

end Sink

/-! ### The copy of one chain -/

namespace Copy

variable (mem : ℕ → Byte) {t : ℤ} {d : Ringptr}

theorem take_error (h : d.has RMD1_ERR = true) (s : Sink) :
    (Copy.take mem ⟨some t, t, s⟩ d).rb = none ∧
      (Copy.take mem ⟨some t, t, s⟩ d).sink.up = s.up ∧
      (Copy.take mem ⟨some t, t, s⟩ d).sink.wild = s.wild := by
  rw [take, if_pos h]
  exact ⟨rfl, rfl, rfl⟩

theorem take_long (h : d.has RMD1_ERR = false) (hlong : ¬ t + d.adds t ≤ MAX_BUFFER_LENGTH)
    (s : Sink) :
    (Copy.take mem ⟨some t, t, s⟩ d).rb = none ∧
      (Copy.take mem ⟨some t, t, s⟩ d).sink.up = s.up ∧
      (Copy.take mem ⟨some t, t, s⟩ d).sink.wild = s.wild := by
  rw [take, if_neg (Bool.eq_false_iff.mp h)]
  dsimp only
  rw [if_pos (Int.not_le.mp hlong)]
  exact ⟨rfl, rfl, rfl⟩

/-- The sink after a buffer that fits. -/
def stored (s : Sink) (t : ℤ) (d : Ringptr) : Sink :=
  { s with
    rxbuff := bcopy mem d.loaddr s.rxbuff t (d.adds t)
    count := if d.enp then d.count.toNat else d.adds t
    wild := s.wild || decide (d.adds t < 0) }

theorem take_fits (h : d.has RMD1_ERR = false) (hfits : t + d.adds t ≤ MAX_BUFFER_LENGTH)
    (s : Sink) :
    Copy.take mem ⟨some t, t, s⟩ d = ⟨some (t + d.adds t), t + d.adds t, stored mem s t d⟩ := by
  rw [take, if_neg (Bool.eq_false_iff.mp h)]
  exact if_neg (Int.not_lt.mpr hfits)

theorem dead (c : List Ringptr) {cp : Copy} (h : cp.rb = none) :
    (c.foldl (Copy.take mem) cp).rb = none ∧
      (c.foldl (Copy.take mem) cp).sink.up = cp.sink.up ∧
      (c.foldl (Copy.take mem) cp).sink.wild = cp.sink.wild := by
  induction c generalizing cp with
  | nil => exact ⟨h, rfl, rfl⟩
  | cons d c ih =>
      have htake : (cp.take mem d).rb = none ∧ (cp.take mem d).sink.up = cp.sink.up ∧
          (cp.take mem d).sink.wild = cp.sink.wild := by
        unfold Copy.take
        split
        · exact ⟨rfl, rfl, rfl⟩
        · rw [h]
          exact ⟨h, rfl, rfl⟩
      obtain ⟨hrb, hup, hwild⟩ := ih htake.1
      exact ⟨hrb, hup.trans htake.2.1, hwild.trans htake.2.2⟩

end Copy

theorem gathers_cons (t : ℤ) (d : Ringptr) (c : List Ringptr) :
    gathers t (d :: c) = true ↔ d.has RMD1_ERR = false ∧ t + d.adds t ≤ MAX_BUFFER_LENGTH ∧
      gathers (t + d.adds t) c = true := by
  rw [gathers, Bool.and_eq_true, Bool.and_eq_true, Bool.not_eq_true', decide_eq_true_eq, and_assoc]

theorem copiesWild_cons (t : ℤ) (d : Ringptr) (c : List Ringptr) :
    copiesWild t (d :: c) = true ↔ d.has RMD1_ERR = false ∧ t + d.adds t ≤ MAX_BUFFER_LENGTH ∧
      (d.adds t < 0 ∨ copiesWild (t + d.adds t) c = true) := by
  rw [copiesWild, Bool.and_eq_true, Bool.and_eq_true, Bool.not_eq_true', decide_eq_true_eq,
    Bool.or_eq_true, decide_eq_true_eq, and_assoc]

/-- The copy of a chain keeps its place if the chain can be gathered, sends
nothing, and goes wild where a buffer has a negative length. -/
theorem copied_spec (mem : ℕ → Byte) (c : List Ringptr) (t : ℤ) (s : Sink) :
    ((s.copied mem t c).rb.isSome = true ↔ gathers t c = true) ∧
      (s.copied mem t c).sink.up = s.up ∧
      ((s.copied mem t c).sink.wild = true ↔ s.wild = true ∨ copiesWild t c = true) := by
  induction c generalizing t s with
  | nil => exact ⟨Iff.rfl, rfl, by simp [Sink.copied, copiesWild]⟩
  | cons d c ih =>
      rw [gathers_cons, copiesWild_cons, Sink.copied, List.foldl_cons]
      cases herr : d.has RMD1_ERR with
      | true =>
          obtain ⟨hrb, hup, hwild⟩ := Copy.take_error mem (t := t) herr s
          obtain ⟨hrb', hup', hwild'⟩ := Copy.dead mem c hrb
          rw [hrb', hup', hwild', hup, hwild]
          simp
      | false =>
          by_cases hfits : t + d.adds t ≤ MAX_BUFFER_LENGTH
          · obtain ⟨hrb, hup, hwild⟩ := ih (t + d.adds t) (Copy.stored mem s t d)
            rw [Copy.take_fits mem herr hfits]
            refine ⟨hrb.trans ?_, hup, hwild.trans ?_⟩
            · simp only [hfits, true_and]
            · simp only [Copy.stored, Bool.or_eq_true, decide_eq_true_eq, hfits, true_and, or_assoc]
          · obtain ⟨hrb, hup, hwild⟩ := Copy.take_long mem herr hfits s
            obtain ⟨hrb', hup', hwild'⟩ := Copy.dead mem c hrb
            rw [hrb', hup', hwild', hup, hwild]
            simp [hfits]

/-- A gathered chain ends with the count of its last descriptor. -/
theorem copied_count (mem : ℕ → Byte) {c front : List Ringptr} {last : Ringptr}
    (hc : c = front ++ [last]) (hlast : last.enp = true) {t : ℤ} (s : Sink)
    (hg : gathers t c = true) : (s.copied mem t c).sink.count = last.count.toNat := by
  induction front generalizing c t s with
  | nil =>
      subst hc
      obtain ⟨herr, hfits, -⟩ := (gathers_cons t last []).mp hg
      rw [Sink.copied, List.nil_append, List.foldl_cons, Copy.take_fits mem herr hfits]
      exact if_pos hlast
  | cons d front ih =>
      subst hc
      obtain ⟨herr, hfits, hg⟩ := (gathers_cons t d (front ++ [last])).mp hg
      rw [Sink.copied, List.cons_append, List.foldl_cons, Copy.take_fits mem herr hfits]
      exact ih rfl _ hg

/-- Where nothing shrinks, the bytes of the chain stand one after another. -/
theorem copied_bytes (mem : ℕ → Byte) (c : List Ringptr) {t : ℤ} (s : Sink)
    (hg : gathers t c = true) (hn : copiesWild t c = false) (a : ℤ) :
    (s.copied mem t c).sink.rxbuff a =
      if t ≤ a then ((frameBytes mem t c)[(a - t).toNat]?).getD (s.rxbuff a) else s.rxbuff a := by
  induction c generalizing t s with
  | nil => simp [frameBytes, Sink.copied]
  | cons d c ih =>
      obtain ⟨herr, hfits, hg⟩ := (gathers_cons t d c).mp hg
      have hn' : ¬ (d.adds t < 0 ∨ copiesWild (t + d.adds t) c = true) := fun hor =>
        Bool.eq_false_iff.mp hn ((copiesWild_cons t d c).mpr ⟨herr, hfits, hor⟩)
      rw [not_or] at hn'
      have hlen : ((List.range (d.adds t).toNat).map fun k =>
          mem (d.loaddr.toNat + k)).length = (d.adds t).toNat := by
        rw [List.length_map, List.length_range]
      rw [Sink.copied, List.foldl_cons, Copy.take_fits mem herr hfits, frameBytes,
        show List.foldl _ _ c = (Copy.stored mem s t d).copied mem (t + d.adds t) c from rfl,
        ih _ hg (Bool.eq_false_iff.mpr hn'.2)]
      dsimp only [Copy.stored, bcopy]
      by_cases hta : t ≤ a
      · rw [if_pos hta]
        by_cases hin : a < t + d.adds t
        · have hk : (a - t).toNat < (d.adds t).toNat := by omega
          rw [if_neg (by omega), if_pos ⟨hta, hin⟩, List.getElem?_append_left (by rwa [hlen]),
            List.getElem?_map, List.getElem?_range hk]
          rfl
        · rw [if_pos (by omega), if_neg fun hc => hin hc.2,
            List.getElem?_append_right (by rw [hlen]; omega), hlen]
          congr 2
          omega
      · rw [if_neg (by omega), if_neg fun hc => hta hc.1, if_neg hta]

end
end HydraAmix.Aen
