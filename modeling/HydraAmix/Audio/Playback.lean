import HydraAmix.Audio.Channel

/-!
# What the audio driver plays

The buffer that `used` names is the one that the hardware does not have, so no
buffer is filled while it can be read. The samples come in the order of the
messages as long as no message is cut by the end of a buffer in the interrupt,
which keeps such a message as a whole and plays its beginning once more.
-/
namespace HydraAmix.Audio
open Word Schedule

/-- The buffers that the hardware has, oldest first. -/
def inFlight (used : Fin 3) : ℕ → List (Fin 3)
  | 0 => []
  | 1 => [before used]
  | _ => [before (before used), before used]

/-- The rotation of the buffers, also while one is being filled. -/
structure Rotates (s : Channel) : Prop where
  reading : s.reading = inFlight s.used s.pending
  few : s.pending ≤ 2
  free : ∀ b, b ∉ s.reading → b ≠ s.used → s.buffer b = []
  fresh : s.refilled = false

/-- Between the events the next buffer is empty. -/
structure Idle (s : Channel) : Prop extends Rotates s where
  empty : s.buffer s.used = []

/-- What was handed to the DMA, what is filled in and what waits make up what was
written, and everything comes in whole words. -/
structure Flows (s : Channel) (waiting : List (List Byte)) : Prop where
  order : played s.handed ++ played (s.buffer s.used) ++ waiting.flatten = s.written
  words : (s.buffer s.used).length % 2 = 0
  even : ∀ m ∈ waiting, m.length % 2 = 0

/-- What waits for a buffer. -/
def Channel.waiting (s : Channel) : List (List Byte) := s.mp.toList ++ s.q

/-- A message is cut where a buffer with this much room ends. -/
def straddles : ℕ → List (List Byte) → Bool
  | _, [] => false
  | room, m :: ms =>
      if m.length ≤ room then straddles (room - m.length) ms else decide (0 < room)

/-- The message has one block only; an interrupt for the client cuts no message. -/
def Whole (s : Channel) : Event → Prop
  | .put m => m.cont.flatten = []
  | .srv => True
  | .intr => s.attached = true → straddles AUDIO_BUFFER_SIZE s.waiting = false

section
variable {s : Channel} {w : List (List Byte)}

/-! ### The rotation -/

theorem used_notMem {used : Fin 3} {n : ℕ} (h : n ≤ 2) : used ∉ inFlight used n := by
  revert used n
  decide

theorem Rotates.fill (h : Rotates s) (d : List Sample) : Rotates (s.fillBuffer d).2 where
  reading := h.reading
  few := h.few
  free b hb hne := by
    dsimp only [Channel.fillBuffer] at hb hne ⊢
    rw [Function.update_of_ne hne]
    exact h.free b hb hne
  fresh := by
    have hn : s.used ∉ s.reading := by
      rw [h.reading]
      exact used_notMem h.few
    dsimp only [Channel.fillBuffer]
    rw [h.fresh, decide_eq_false fun hc => hn hc.2]
    rfl

theorem inFlight_succ (used : Fin 3) {n : ℕ} (h : n ≤ 1) :
    inFlight (if used = 2 then 0 else used + 1) (n + 1) = inFlight used n ++ [used] ∧
      (if used = 2 then 0 else used + 1) ∉ inFlight used n ∧
      (if used = 2 then 0 else used + 1) ≠ used := by
  revert used n
  decide

theorem Rotates.load (h : Rotates s) (hp : s.pending ≤ 1) : Idle s.loadupDma := by
  rw [Channel.loadupDma]
  split
  case isTrue hz => exact ⟨h, List.length_eq_zero_iff.mp hz⟩
  case isFalse =>
    obtain ⟨hflight, hnotin, hne⟩ := inFlight_succ s.used hp
    refine ⟨⟨?_, Nat.succ_le_succ hp, fun b hb hbne => ?_, h.fresh⟩, ?_⟩
    · dsimp only
      rw [hflight, h.reading]
    · rw [List.mem_append, List.mem_singleton, not_or] at hb
      exact h.free b hb.1 hb.2
    · exact h.free _ (by rw [h.reading]; exact hnotin) hne

theorem inFlight_tail (used : Fin 3) {n : ℕ} (h : n ≤ 2) :
    (inFlight used n).tail = inFlight used (n - 1) ∧
      (0 < n → ∀ b, b ∈ inFlight used n → b ∉ inFlight used (n - 1) →
        b = if 0 < n - 1 then before (before used) else before used) := by
  obtain rfl | rfl | rfl : n = 0 ∨ n = 1 ∨ n = 2 := by omega
  · exact ⟨rfl, fun hn => absurd hn (Nat.lt_irrefl 0)⟩
  · revert used
    decide
  · revert used
    decide

/-- The DMA is done with the oldest buffer, and the driver releases that one. -/
theorem Idle.release (h : Idle s) :
    Idle ({ s with reading := s.reading.tail }.releaseChannelBuffer) ∧
      ({ s with reading := s.reading.tail }.releaseChannelBuffer).pending ≤ 1 := by
  obtain ⟨htail, hold⟩ := inFlight_tail s.used h.few
  rw [Channel.releaseChannelBuffer]
  dsimp only
  split
  case isTrue hpos =>
    have hle := h.few
    have hfree : ∀ b, b ∉ inFlight s.used (s.pending - 1) → Function.update s.buffer
        (if 0 < s.pending - 1 then before (before s.used) else before s.used) [] b = [] := by
      intro b hb
      by_cases hbo : b = if 0 < s.pending - 1 then before (before s.used) else before s.used
      · rw [hbo, Function.update_self]
      · rw [Function.update_of_ne hbo]
        by_cases hbu : b = s.used
        · rw [hbu]
          exact h.empty
        · exact h.free b (fun hin => hbo (hold hpos b (h.reading ▸ hin) hb)) hbu
    refine ⟨⟨⟨?_, by dsimp only; omega, fun b hb _ => ?_, h.fresh⟩, ?_⟩, by dsimp only; omega⟩
    · dsimp only
      rw [h.reading, htail]
    · dsimp only at hb
      rw [h.reading, htail] at hb
      exact hfree b hb
    · exact hfree s.used (used_notMem (by omega))
  case isFalse hz =>
    have hp : s.pending = 0 := by omega
    have hr : s.reading = [] := by rw [h.reading, hp]; rfl
    refine ⟨⟨⟨?_, h.few, fun b _ hne => ?_, h.fresh⟩, h.empty⟩, by dsimp only; omega⟩
    · dsimp only
      rw [hr, hp]
      rfl
    · exact h.free b (by rw [hr]; exact List.not_mem_nil) hne

/-! ### The order of the samples -/

theorem played_append (l l' : List Sample) : played (l ++ l') = played l ++ played l' :=
  List.filterMap_append

theorem played_data (bs : List Byte) : played (bs.map Sample.data) = bs := by
  rw [played, List.filterMap_map]
  exact List.filterMap_some

theorem fill_size_even (h : (s.buffer s.used).length % 2 = 0) {d : List Sample}
    (hd : d.length % 2 = 0) : (s.fillBuffer d).1 % 2 = 0 := by
  change min d.length (8192 - (s.buffer s.used).length) % 2 = 0
  omega

theorem fill_used (s : Channel) (d : List Sample) :
    (s.fillBuffer d).2.buffer (s.fillBuffer d).2.used =
      s.buffer s.used ++ d.take (s.fillBuffer d).1 := Function.update_self ..

theorem fill_size_le (s : Channel) (d : List Sample) : (s.fillBuffer d).1 ≤ d.length :=
  Nat.min_le_left ..

/-- A part of the first message goes into the buffer. -/
theorem Flows.fill {m : List Byte} (h : Flows s (m :: w)) :
    Flows (s.fillBuffer (m.map Sample.data)).2
      (m.drop (s.fillBuffer (m.map Sample.data)).1 :: w) := by
  have hm := h.even m List.mem_cons_self
  have hsize := fill_size_even h.words (d := m.map Sample.data) (by rw [List.length_map]; exact hm)
  have hle := fill_size_le s (m.map Sample.data)
  rw [List.length_map] at hle
  refine ⟨?_, ?_, fun l hl => ?_⟩
  · rw [fill_used, played_append, ← List.map_take, played_data, List.flatten_cons]
    have ho := h.order
    rw [List.flatten_cons] at ho
    calc _ = played s.handed ++ played (s.buffer s.used) ++
            ((m.take _ ++ m.drop _) ++ w.flatten) := by
          simp only [List.append_assoc]
          rfl
      _ = s.written := by rw [List.take_append_drop, ho]
  · rw [fill_used, List.length_append, List.length_take, List.length_map, Nat.min_eq_left hle]
    have hw := h.words
    omega
  · rcases List.mem_cons.mp hl with rfl | hl
    · rw [List.length_drop]
      omega
    · exact h.even l (List.mem_cons_of_mem m hl)

theorem Flows.load (h : Flows s w) (hr : Rotates s) (hp : s.pending ≤ 1) :
    Flows s.loadupDma w := by
  have hempty := (hr.load hp).empty
  have hwords := h.words
  refine ⟨?_, by rw [hempty]; rfl, h.even⟩
  rw [hempty]
  rw [Channel.loadupDma]
  split
  case isTrue hz =>
    have ho := h.order
    rwa [List.length_eq_zero_iff.mp hz] at ho
  case isFalse =>
    dsimp only
    rw [List.take_of_length_le (by omega), played_append]
    simp only [played, List.filterMap_nil, List.append_nil]
    exact h.order

/-! ### The service procedure -/

theorem load_rest (s : Channel) : s.loadupDma.mp = s.mp ∧ s.loadupDma.q = s.q ∧
    s.loadupDma.attached = s.attached ∧ s.loadupDma.written = s.written := by
  rw [Channel.loadupDma]
  split <;> exact ⟨rfl, rfl, rfl, rfl⟩

theorem Idle.attach (h : Idle s) (b : Bool) : Idle { s with attached := b } :=
  ⟨⟨h.reading, h.few, h.free, h.fresh⟩, h.empty⟩

/-- `postaudio` takes a part of the message or nothing. -/
theorem Idle.postaudio (h : Idle s) (m : List Byte) :
    Idle (s.postaudio m).2 ∧
      (∀ w, Flows s (m :: w) → Flows (s.postaudio m).2 ((s.postaudio m).1 :: w)) ∧
      (s.postaudio m).2.mp = s.mp := by
  have ha := h.attach true
  rw [Channel.postaudio]
  dsimp only
  have hle := h.few
  have hfill : s.pending ≤ 1 →
      Idle ({ s with attached := true }.fillBuffer (m.map Sample.data)).2.loadupDma ∧
      (∀ w, Flows s (m :: w) →
        Flows ({ s with attached := true }.fillBuffer (m.map Sample.data)).2.loadupDma
          (m.drop ({ s with attached := true }.fillBuffer (m.map Sample.data)).1 :: w)) ∧
      ({ s with attached := true }.fillBuffer (m.map Sample.data)).2.loadupDma.mp = s.mp :=
    fun hp => by
      have hr := ha.toRotates.fill (m.map Sample.data)
      refine ⟨hr.load hp, fun w hw => ?_, (load_rest _).1⟩
      have hf : Flows { s with attached := true } (m :: w) := ⟨hw.order, hw.words, hw.even⟩
      exact hf.fill.load hr hp
  split
  case h_1 hp => exact hfill (by omega)
  case h_2 hp => exact hfill (by omega)
  case h_3 => exact ⟨ha, fun w hw => ⟨hw.order, hw.words, hw.even⟩, rfl⟩

theorem Rotates.wait (h : Rotates s) (mp : Option (List Byte)) (q : List (List Byte)) :
    Rotates { s with mp := mp, q := q } := ⟨h.reading, h.few, h.free, h.fresh⟩

theorem Idle.wait (h : Idle s) (mp : Option (List Byte)) (q : List (List Byte)) :
    Idle { s with mp := mp, q := q } := ⟨h.toRotates.wait mp q, h.empty⟩

theorem Flows.wait (h : Flows s w) (mp : Option (List Byte)) (q : List (List Byte)) :
    Flows { s with mp := mp, q := q } w := ⟨h.order, h.words, h.even⟩

/-- An empty message counts for nothing. -/
theorem Flows.rest (h : Flows s ([] :: w)) : Flows s w :=
  ⟨h.order, h.words, fun m hm => h.even m (List.mem_cons_of_mem [] hm)⟩

theorem postQueue_idle (h : Idle s) (q : List (List Byte)) : Idle (Channel.postQueue q s) := by
  induction q generalizing s with
  | nil => exact h.wait s.mp []
  | cons m q ih =>
      have hp := (h.postaudio m).1
      rw [Channel.postQueue]
      dsimp only
      split
      · exact hp.wait _ q
      · exact ih hp

theorem postQueue_flows (h : Idle s) {q : List (List Byte)} (hw : Flows s q) (hm : s.mp = none) :
    Flows (Channel.postQueue q s) (Channel.postQueue q s).waiting := by
  induction q generalizing s with
  | nil =>
      have hnil : (Channel.postQueue [] s).waiting = [] := by
        rw [Channel.waiting, Channel.postQueue, hm]
        rfl
      rw [hnil]
      exact hw.wait s.mp []
  | cons m q ih =>
      obtain ⟨hi, hf, hmp⟩ := h.postaudio m
      have hw' := hf q hw
      rw [Channel.postQueue]
      dsimp only
      split
      case isTrue => exact hw'.wait _ q
      case isFalse hleft =>
        rw [not_not.mp hleft] at hw'
        exact ih hi hw'.rest (hmp.trans hm)

theorem postaudio_q (s : Channel) (m : List Byte) : (s.postaudio m).2.q = s.q := by
  rw [Channel.postaudio]
  dsimp only
  split
  · exact (load_rest _).2.1
  · exact (load_rest _).2.1
  · rfl

theorem audiowsrv_idle (h : Idle s) : Idle s.audiowsrv := by
  rw [Channel.audiowsrv]
  split
  · exact postQueue_idle h s.q
  case h_2 m _ =>
    have hp := (h.postaudio m).1
    dsimp only
    split
    · exact hp.wait _ _
    · exact postQueue_idle (hp.wait none _) _

theorem audiowsrv_flows (h : Idle s) (hw : Flows s s.waiting) :
    Flows s.audiowsrv s.audiowsrv.waiting := by
  rw [Channel.waiting] at hw
  rw [Channel.audiowsrv]
  split
  case h_1 hm =>
    rw [hm] at hw
    exact postQueue_flows h hw hm
  case h_2 m hm =>
    obtain ⟨hi, hf, -⟩ := h.postaudio m
    rw [hm] at hw
    have hw' := hf s.q hw
    dsimp only
    split
    case isTrue =>
      rw [Channel.waiting, postaudio_q]
      exact hw'.wait _ _
    case isFalse hleft =>
      rw [not_not.mp hleft] at hw'
      rw [postaudio_q]
      exact postQueue_flows (hi.wait none _) (hw'.rest.wait none _) rfl

/-! ### The interrupt -/

theorem fillQueue_rotates (h : Rotates s) (q : List (List Byte)) :
    Rotates (Channel.fillQueue q s) ∧ (Channel.fillQueue q s).pending = s.pending ∧
      (Channel.fillQueue q s).attached = s.attached := by
  induction q generalizing s with
  | nil => exact ⟨h.wait s.mp [], rfl, rfl⟩
  | cons m q ih =>
      have hf := h.fill (m.map Sample.data)
      rw [Channel.fillQueue]
      dsimp only
      split
      · exact ⟨hf.wait _ q, rfl, rfl⟩
      · exact ih hf

theorem fillWaiting_rotates (h : Rotates s) :
    Rotates s.fillWaiting ∧ s.fillWaiting.pending = s.pending ∧
      s.fillWaiting.attached = s.attached := by
  rw [Channel.fillWaiting]
  split
  · exact fillQueue_rotates h s.q
  case h_2 m _ =>
    have hf := h.fill (m.map Sample.data)
    dsimp only
    split
    · exact fillQueue_rotates (hf.wait none _) _
    · exact ⟨hf, rfl, rfl⟩

/-- A message is filled in as a whole, or the buffer is full. -/
theorem fill_whole {m : List Byte} {q : List (List Byte)}
    (h : straddles (AUDIO_BUFFER_SIZE - (s.buffer s.used).length) (m :: q) = false) :
    ((s.fillBuffer (m.map Sample.data)).1 = m.length ∧
      straddles (AUDIO_BUFFER_SIZE - ((s.fillBuffer (m.map Sample.data)).2.buffer
        (s.fillBuffer (m.map Sample.data)).2.used).length) q = false) ∨
    ((s.fillBuffer (m.map Sample.data)).1 = 0 ∧ m.length ≠ 0) := by
  have hsize : (s.fillBuffer (m.map Sample.data)).1 =
      min m.length (AUDIO_BUFFER_SIZE - (s.buffer s.used).length) := by
    dsimp only [Channel.fillBuffer]
    rw [List.length_map]
  rw [straddles] at h
  split at h
  case isTrue hle =>
    refine .inl ⟨by rw [hsize, Nat.min_eq_left hle], ?_⟩
    rw [fill_used, hsize, Nat.min_eq_left hle, List.length_append, List.length_take,
      List.length_map, Nat.min_self, ← Nat.sub_sub]
    exact h
  case isFalse =>
    have hz := of_decide_eq_false h
    exact .inr ⟨by rw [hsize]; omega, by omega⟩

theorem fillQueue_flows {q : List (List Byte)} (hw : Flows s q) (hm : s.mp = none)
    (hcut : straddles (AUDIO_BUFFER_SIZE - (s.buffer s.used).length) q = false) :
    Flows (Channel.fillQueue q s) (Channel.fillQueue q s).waiting := by
  induction q generalizing s with
  | nil =>
      have hnil : (Channel.fillQueue [] s).waiting = [] := by
        rw [Channel.waiting, Channel.fillQueue, hm]
        rfl
      rw [hnil]
      exact hw.wait s.mp []
  | cons m q ih =>
      have hf := hw.fill
      rw [Channel.fillQueue]
      dsimp only
      rcases fill_whole hcut with ⟨hsize, hcut'⟩ | ⟨hsize, hne⟩
      · rw [hsize, List.drop_length] at hf
        rw [if_neg (not_not.mpr hsize)]
        exact ih hf.rest hm hcut'
      · rw [hsize, List.drop_zero] at hf
        rw [if_pos (hsize ▸ hne.symm)]
        exact hf.wait _ q

theorem fillWaiting_flows (hw : Flows s s.waiting)
    (hcut : straddles (AUDIO_BUFFER_SIZE - (s.buffer s.used).length) s.waiting = false) :
    Flows s.fillWaiting s.fillWaiting.waiting := by
  rw [Channel.waiting] at hw hcut
  rw [Channel.fillWaiting]
  split
  case h_1 hm =>
    rw [hm] at hw hcut
    exact fillQueue_flows hw hm hcut
  case h_2 m hm =>
    rw [hm] at hw hcut
    have hf := Flows.fill hw
    dsimp only
    rcases fill_whole hcut with ⟨hsize, hcut'⟩ | ⟨hsize, hne⟩
    · rw [hsize, List.drop_length] at hf
      rw [if_pos hsize]
      exact fillQueue_flows (hf.rest.wait none _) rfl hcut'
    · rw [hsize, List.drop_zero] at hf
      rw [if_neg (hsize ▸ hne.symm), Channel.waiting]
      have hmp : (s.fillBuffer (m.map Sample.data)).2.mp = some m := hm
      rw [hmp]
      exact hf

theorem search_idle (h : Idle s) : Idle s.search := by
  rw [Channel.search]
  split
  · exact h
  case h_2 m _ =>
    have hp := (h.postaudio m).1
    dsimp only
    split
    · exact h
    · split <;> exact hp.wait _ _

theorem search_flows (h : Idle s) (hw : Flows s s.waiting) : Flows s.search s.search.waiting := by
  rw [Channel.waiting] at hw
  rw [Channel.search]
  split
  case h_1 hm =>
    rw [Channel.waiting]
    exact hw
  case h_2 m hm =>
    rw [hm] at hw
    have hw' := (h.postaudio m).2.1 s.q hw
    dsimp only
    split
    case isTrue =>
      rw [Channel.waiting, hm]
      exact hw
    case isFalse =>
      split
      case isTrue =>
        rw [Channel.waiting, postaudio_q]
        exact hw'.wait _ _
      case isFalse hleft =>
        rw [not_not.mp hleft] at hw'
        rw [Channel.waiting, postaudio_q]
        exact hw'.rest.wait none _

/-- What the interrupt hands to the DMA, from a buffer that is filled in. -/
def Channel.next (s : Channel) : Channel :=
  if (s.buffer s.used).length ≠ 0 then s.loadupDma
  else if s.attached then
    { (s.fillBuffer [.silent, .silent]).2.loadupDma with attached := false }
  else s

theorem next_idle (h : Rotates s) (hp : s.pending ≤ 1) : Idle s.next := by
  rw [Channel.next]
  split
  case isTrue => exact h.load hp
  case isFalse hz =>
    split
    · exact ((h.fill _).load hp).attach false
    · exact ⟨h, List.length_eq_zero_iff.mp (not_not.mp hz)⟩

theorem next_flows (h : Rotates s) (hp : s.pending ≤ 1) (hw : Flows s s.waiting) :
    Flows s.next s.next.waiting := by
  have hload : ∀ {s : Channel}, Rotates s → s.pending ≤ 1 → Flows s s.waiting →
      Flows s.loadupDma s.loadupDma.waiting := fun {s} h hp hw => by
    obtain ⟨hmp, hq, -⟩ := load_rest s
    rw [Channel.waiting, hmp, hq]
    exact hw.load h hp
  rw [Channel.next]
  split
  case isTrue => exact hload h hp hw
  case isFalse hz =>
    split
    case isTrue =>
      have hempty := List.length_eq_zero_iff.mp (not_not.mp hz)
      have hs : Flows (s.fillBuffer [.silent, .silent]).2 s.waiting := by
        have hsize : (s.fillBuffer [.silent, .silent]).1 = 2 := by
          dsimp only [Channel.fillBuffer]
          rw [hempty]
          rfl
        have ho := hw.order
        rw [hempty] at ho
        refine ⟨?_, by rw [fill_used, hempty, hsize]; rfl, hw.even⟩
        rw [fill_used, hempty, hsize]
        exact ho
      have hl := hload (h.fill _) hp hs
      exact ⟨hl.order, hl.words, hl.even⟩
    case isFalse => exact hw

theorem audiointr_eq (s : Channel) : s.audiointr =
    (if s.releaseChannelBuffer.attached then s.releaseChannelBuffer.fillWaiting
      else s.releaseChannelBuffer).next.search := rfl

theorem release_rest (s : Channel) : s.releaseChannelBuffer.mp = s.mp ∧
    s.releaseChannelBuffer.q = s.q ∧ s.releaseChannelBuffer.attached = s.attached ∧
    s.releaseChannelBuffer.handed = s.handed ∧ s.releaseChannelBuffer.written = s.written := by
  rw [Channel.releaseChannelBuffer]
  split <;> exact ⟨rfl, rfl, rfl, rfl, rfl⟩

/-! ### The runs -/

theorem step_idle (h : Idle s) (e : Event) : Idle (s.step e) := by
  cases e with
  | put m => exact ⟨⟨h.reading, h.few, h.free, h.fresh⟩, h.empty⟩
  | srv => exact audiowsrv_idle h
  | intr =>
      obtain ⟨hi, hp⟩ := h.release
      rw [Channel.step, audiointr_eq]
      split
      · obtain ⟨hr, hpending, -⟩ := fillWaiting_rotates hi.toRotates
        exact search_idle (next_idle hr (hpending ▸ hp))
      · exact search_idle (next_idle hi.toRotates hp)

theorem step_flows (h : Idle s) (hw : Flows s s.waiting) (e : Event) (hg : Whole s e) :
    Flows (s.step e) (s.step e).waiting := by
  cases e with
  | put m =>
      have heven := m.even
      have ho := hw.order
      have hone : m.cont.flatten = [] := hg
      rw [hone, List.append_nil] at heven
      refine ⟨?_, hw.words, fun l hl => ?_⟩
      · dsimp only [Channel.step, Channel.waiting]
        rw [hone, List.append_nil, ← ho, Channel.waiting, ← List.append_assoc (s.mp.toList),
          List.flatten_append, List.flatten_singleton]
        simp only [List.append_assoc]
      · dsimp only [Channel.step, Channel.waiting] at hl
        rw [← List.append_assoc, List.mem_append, List.mem_singleton] at hl
        rcases hl with hl | rfl
        · exact hw.even l hl
        · exact heven
  | srv => exact audiowsrv_flows h hw
  | intr =>
      obtain ⟨hi, hp⟩ := h.release
      obtain ⟨hmp, hq, hatt, hhanded, hwritten⟩ :=
        release_rest { s with reading := s.reading.tail }
      have hwait : ({ s with reading := s.reading.tail }.releaseChannelBuffer).waiting =
          s.waiting := by
        rw [Channel.waiting, hmp, hq]
        rfl
      have hrel : Flows ({ s with reading := s.reading.tail }.releaseChannelBuffer)
          ({ s with reading := s.reading.tail }.releaseChannelBuffer).waiting := by
        have ho := hw.order
        rw [h.empty] at ho
        refine ⟨?_, by rw [hi.empty]; rfl, by rw [hwait]; exact hw.even⟩
        rw [hhanded, hwritten, hi.empty, hwait]
        exact ho
      rw [Channel.step, audiointr_eq]
      split
      case isTrue ha =>
        obtain ⟨hr, hpending, -⟩ := fillWaiting_rotates hi.toRotates
        have hf := fillWaiting_flows hrel (by
          rw [hi.empty, hwait]
          exact hg (hatt ▸ ha))
        exact search_flows (next_idle hr (hpending ▸ hp)) (next_flows hr (hpending ▸ hp) hf)
      case isFalse =>
        exact search_flows (next_idle hi.toRotates hp) (next_flows hi.toRotates hp hrel)

theorem run_flows {s : Channel} {es : List Event} (h : Idle s) (hw : Flows s s.waiting)
    (hg : Every Channel.step Whole s es) :
    Flows (final Channel.step s es) (final Channel.step s es).waiting :=
  (final_of_every (fun s => Idle s ∧ Flows s s.waiting)
    (fun _ e hs hg => ⟨step_idle hs.1 e, step_flows hs.1 hs.2 e hg⟩) ⟨h, hw⟩ hg).2

theorem opened_idle : Idle Channel.opened := ⟨⟨rfl, by decide, fun _ _ _ => rfl, rfl⟩, rfl⟩

theorem opened_flows : Flows Channel.opened Channel.opened.waiting := ⟨rfl, rfl, nofun⟩

end

/-! ### A message that is cut -/

/-- A message longer than a buffer waits for the one that is played. -/
structure Cutting (s : Channel) (d : List Byte) : Prop extends Idle s where
  attached : s.attached = true
  pending : s.pending = 1
  waiting : s.waiting = [d]

/-- The message is filled in up to the end of the buffer, and waits as a whole again. -/
theorem fillWaiting_cut {s : Channel} {d : List Byte} (hs : s.waiting = [d])
    (he : s.buffer s.used = []) (hd : AUDIO_BUFFER_SIZE < d.length) :
    s.fillWaiting = { (s.fillBuffer (d.map .data)).2 with mp := some d, q := [] } := by
  have hsize : (s.fillBuffer (d.map .data)).1 ≠ d.length := by
    simp only [Channel.fillBuffer, he, List.length_map, List.length_nil]
    omega
  unfold Channel.waiting at hs
  unfold Channel.fillWaiting
  cases hmp : s.mp with
  | none =>
      have hq : s.q = [d] := by simpa [hmp] using hs
      dsimp only
      rw [hq, Channel.fillQueue]
      dsimp only
      rw [if_pos hsize]
  | some e =>
      obtain ⟨rfl, hq⟩ : e = d ∧ s.q = [] := by simpa [hmp] using hs
      dsimp only
      rw [if_neg hsize, ← hmp, ← hq]
      rfl

/-- A full buffer is loaded as a whole. -/
theorem next_full {s : Channel} (h : (s.buffer s.used).length = AUDIO_BUFFER_SIZE) :
    s.next = { s with
      reading := s.reading ++ [s.used]
      handed := s.handed ++ s.buffer s.used
      used := if s.used = 2 then 0 else s.used + 1
      pending := s.pending + 1 } := by
  have hne : (s.buffer s.used).length ≠ 0 := by rw [h]; decide
  rw [Channel.next, if_pos hne, Channel.loadupDma, if_neg hne, List.take_of_length_le]
  rw [h]
  decide

theorem search_attached {s : Channel} (h : s.attached = true) : s.search = s := by
  rw [Channel.search]
  split
  · rfl
  · rw [if_pos h]

theorem Cutting.intr {s : Channel} {d : List Byte} (h : Cutting s d)
    (hd : AUDIO_BUFFER_SIZE < d.length) : Cutting (s.step .intr) d ∧
      (s.step .intr).handed = s.handed ++ (d.take AUDIO_BUFFER_SIZE).map .data ∧
      (s.step .intr).written = s.written := by
  have hidle := step_idle h.toIdle .intr
  have hrel := h.release.1
  have hpend : ({ s with reading := s.reading.tail }.releaseChannelBuffer).pending = 0 := by
    rw [Channel.releaseChannelBuffer, if_pos (h.pending ▸ Nat.one_pos)]
    exact congrArg (· - 1) h.pending
  obtain ⟨hmp, hq, hatt, hhanded, hwritten⟩ := release_rest { s with reading := s.reading.tail }
  have hstep : s.step .intr = _ := audiointr_eq { s with reading := s.reading.tail }
  revert hidle
  rw [hstep]
  generalize { s with reading := s.reading.tail }.releaseChannelBuffer = r at *
  have hwaiting : r.waiting = [d] := by rw [← h.waiting, Channel.waiting, hmp, hq]; rfl
  have hlen : min d.length AUDIO_BUFFER_SIZE = AUDIO_BUFFER_SIZE := Nat.min_eq_right (by omega)
  have hfilled := fillWaiting_cut hwaiting hrel.empty hd
  have hbuffer : r.fillWaiting.buffer r.fillWaiting.used =
      (d.take AUDIO_BUFFER_SIZE).map .data := by
    rw [hfilled]
    dsimp only [Channel.fillBuffer]
    rw [Function.update_self, hrel.empty, List.nil_append, List.length_nil, Nat.sub_zero,
      List.length_map, hlen, List.map_take]
  have hsize : (r.fillWaiting.buffer r.fillWaiting.used).length = AUDIO_BUFFER_SIZE := by
    rw [hbuffer, List.length_map, List.length_take, Nat.min_comm, hlen]
  have hattached : r.fillWaiting.attached = true := by
    rw [hfilled]
    exact hatt.trans h.attached
  rw [if_pos (hatt.trans h.attached), next_full hsize, search_attached (by exact hattached),
    hbuffer]
  refine fun hidle => ⟨⟨hidle, hattached, ?_, ?_⟩, ?_, ?_⟩
  all_goals rw [hfilled]
  · exact congrArg (· + 1) hpend
  · rfl
  · exact congrArg (· ++ _) hhanded
  · exact hwritten

/-! ### Whole runs -/

/-- No buffer is filled while the hardware may read it, and in a run without
messages of several blocks and without an interrupt that cuts a message, the DMA
gets the bytes of the messages in order. -/
theorem audio_plays (es : List Event) :
    (final Channel.step Channel.opened es).refilled = false ∧
      (Every Channel.step Whole Channel.opened es →
        played (final Channel.step Channel.opened es).handed <+:
          (final Channel.step Channel.opened es).written) := by
  have hidle := final_invariant Idle (fun s e h => step_idle h e) opened_idle es
  refine ⟨hidle.fresh, fun hg => ?_⟩
  have ho := (run_flows opened_idle opened_flows hg).order
  rw [hidle.empty, show played [] = [] from rfl, List.append_nil] at ho
  exact ⟨_, ho⟩

/-- A message of so many bytes, all of them 0. -/
def blankMessage (n : ℕ) : Message := ⟨List.replicate (2 * n) 0, [], by simp⟩

/-- The second of two messages is filled in by the interrupt. -/
theorem audio_plays_two :
    played (final Channel.step Channel.opened
      [.put (blankMessage 1), .srv, .put (blankMessage 2), .intr]).handed <+:
    (final Channel.step Channel.opened
      [.put (blankMessage 1), .srv, .put (blankMessage 2), .intr]).written :=
  (audio_plays [.put (blankMessage 1), .srv, .put (blankMessage 2), .intr]).2
    ⟨rfl, trivial, rfl, fun _ => by decide, trivial⟩

/-- The beginning of a message that is cut is played by each interrupt. -/
theorem cut_twice {m : Message} (hm : AUDIO_BUFFER_SIZE < m.first.length) :
    played (final Channel.step Channel.opened
        [.put (blankMessage 1), .srv, .put m, .intr, .intr]).handed =
      [0, 0] ++ m.first.take AUDIO_BUFFER_SIZE ++ m.first.take AUDIO_BUFFER_SIZE ∧
    (final Channel.step Channel.opened
        [.put (blankMessage 1), .srv, .put m, .intr, .intr]).written =
      [0, 0] ++ (m.first ++ m.cont.flatten) := by
  have hfirst : (final Channel.step Channel.opened
      [.put (blankMessage 1), .srv, .put m]).handed = [.data 0, .data 0] := rfl
  have hall : (final Channel.step Channel.opened
      [.put (blankMessage 1), .srv, .put m]).written = [0, 0] ++ (m.first ++ m.cont.flatten) := rfl
  have hstart : Cutting (final Channel.step Channel.opened
      [.put (blankMessage 1), .srv, .put m]) m.first :=
    ⟨final_invariant Idle (fun s e h => step_idle h e) opened_idle _, rfl, rfl, rfl⟩
  simp only [final_cons, final_nil] at hfirst hall hstart ⊢
  obtain ⟨hcut, hhanded, hwritten⟩ := hstart.intr hm
  obtain ⟨-, hhanded', hwritten'⟩ := hcut.intr hm
  rw [hhanded', hwritten', hhanded, hwritten, hfirst, hall, played_append, played_append,
    played_data]
  exact ⟨rfl, rfl⟩

/-- A message of 8194 bytes waits while one of two bytes is played: its first
8192 bytes are played twice. -/
def cutRun : List Event :=
  [.put (blankMessage 1), .srv, .put (blankMessage 4097), .intr, .intr]

theorem audio_plays_fails :
    ¬ ∀ es : List Event, (final Channel.step Channel.opened es).refilled = false ∧
      played (final Channel.step Channel.opened es).handed <+:
        (final Channel.step Channel.opened es).written := by
  intro h
  have hlength : (blankMessage 4097).first.length = 8194 := List.length_replicate
  obtain ⟨hplayed, hwritten⟩ := cut_twice (m := blankMessage 4097) (by rw [hlength]; decide)
  have hle := (h cutRun).2.length_le
  rw [cutRun, hplayed, hwritten] at hle
  simp only [List.length_append, List.length_take, hlength] at hle
  exact absurd hle (by decide)

end HydraAmix.Audio
