import HydraAmix.Library.Ring
import HydraAmix.Aen.Receive

/-!
# The receive loop of the LANCE driver as a walk over chains

The descriptors from `rx_buffer_index` on, once round the ring, are a list. Its
part that the host owns falls into chains, each up to a descriptor with ENP,
and a rest without ENP. The loop takes the chains in order and stops at the
rest: unless the whole ring is the host's and no descriptor but the last has
ENP. Then it never ends.
-/
namespace HydraAmix.Aen
open Word HydraAmix.Ring

namespace RxRing

/-- The first `n` descriptors from the index on. -/
def view (r : RxRing) (n : ℕ) : List Ringptr := fetch 0 RXCOUNT r.rxptr r.index n

/-- The descriptor `k` places behind the index. -/
def nth (r : RxRing) (k : ℕ) : Ringptr := r.rxptr ((r.index + k) % RXCOUNT)

/-- `n` descriptors handed back, one after another. -/
def gives (r : RxRing) : ℕ → RxRing
  | 0 => r
  | n + 1 => r.give.gives n

end RxRing

/-- A chain in the eyes of the loop: the host's, and the first ENP at its end. -/
structure IsChain (c : List Ringptr) : Prop where
  host : ∀ d ∈ c, d.own = false
  ends : ∃ front last, c = front ++ [last] ∧ last.enp = true ∧ ∀ d ∈ front, d.enp = false

/-- The chains of a list, and what stands behind its last ENP. -/
def cut : List Ringptr → List (List Ringptr) × List Ringptr
  | [] => ([], [])
  | x :: xs =>
      if x.enp then ([x] :: (cut xs).1, (cut xs).2)
      else
        match (cut xs).1 with
        | [] => ([], x :: (cut xs).2)
        | c :: cs => ((x :: c) :: cs, (cut xs).2)

/-- One turn of the loop, on a chain. -/
def Rx.chain (env : Env) (s : Rx) (c : List Ringptr) : Rx where
  ring := s.ring.gives c.length
  sink := (c.foldl (Copy.take env.mem) ⟨some 0, 0, s.sink⟩).handUp env

/-- What the loop finds: chains, and then descriptors without ENP up to one of
the chip, which the first descriptor is once it was handed back. -/
structure Walk (r : RxRing) (cs : List (List Ringptr)) (rest : List Ringptr) : Prop where
  index : r.index < RXCOUNT
  chains : ∀ c ∈ cs, IsChain c
  restHost : ∀ d ∈ rest, d.own = false
  restOpen : ∀ d ∈ rest, d.enp = false
  view : r.view (cs.flatten ++ rest).length = cs.flatten ++ rest
  stop : (cs.flatten ++ rest).length < RXCOUNT ∧
      (r.nth (cs.flatten ++ rest).length).own = true ∨
    (cs.flatten ++ rest).length = RXCOUNT ∧ ∃ c t, cs = c :: t ∧ c.length < RXCOUNT

section
variable {r : RxRing}

namespace Ringptr

/-- `!mode & bit` is false for every bit but the lowest. -/
theorem notHas_stp (d : Ringptr) : d.notHas RMD1_STP = false := by
  unfold notHas
  split <;> rfl

theorem own_handedBack (d : Ringptr) : d.handedBack.own = true := by
  change (RMD1_OWN &&& RMD1_OWN != 0) = true
  decide

end Ringptr

namespace RxRing

theorem nth_zero (h : r.index < RXCOUNT) : r.nth 0 = r.rxptr r.index := by
  rw [nth, Nat.add_zero, Nat.mod_eq_of_lt h]

/-- Every place of the ring is one from the index on. -/
theorem exists_place (r : RxRing) (hi : r.index < RXCOUNT) {a : ℕ} (ha : a < RXCOUNT) :
    ∃ k < RXCOUNT, (r.index + k) % RXCOUNT = a := by
  rcases Nat.lt_or_ge a r.index with hlt | hle
  · refine ⟨a + RXCOUNT - r.index, by omega, ?_⟩
    rw [show r.index + (a + RXCOUNT - r.index) = a + RXCOUNT by omega, Nat.add_mod_right,
      Nat.mod_eq_of_lt ha]
  · refine ⟨a - r.index, by omega, ?_⟩
    rw [Nat.add_sub_cancel' hle, Nat.mod_eq_of_lt ha]

theorem view_length (r : RxRing) (n : ℕ) : (r.view n).length = n := fetch_length ..

theorem nth_of_view {xs : List Ringptr} (h : r.view xs.length = xs) {k : ℕ}
    (hk : k < xs.length) : r.nth k = xs[k] := by
  have hg := getElem_of_fetch 0 RXCOUNT h hk
  rwa [cell, Nat.zero_add] at hg

theorem nth_mem_take (r : RxRing) {k m n : ℕ} (hk : k < m) (hm : m ≤ n) :
    r.nth k ∈ (r.view n).take m := by
  rw [view, fetch, ← List.map_take, List.take_range, Nat.min_eq_left hm]
  refine List.mem_map.mpr ⟨k, List.mem_range.mpr hk, ?_⟩
  rw [cell, Nat.zero_add]
  rfl

theorem gives_index (r : RxRing) (n : ℕ) (h : r.index < RXCOUNT) :
    (r.gives n).index = (r.index + n) % RXCOUNT := by
  induction n generalizing r with
  | zero => exact (Nat.mod_eq_of_lt h).symm
  | succ n ih =>
      rw [gives, ih r.give (Nat.mod_lt _ (by decide)), give, Nat.mod_add_mod, Nat.add_assoc,
        Nat.add_comm 1]

theorem gives_gives (r : RxRing) (m n : ℕ) : (r.gives m).gives n = r.gives (m + n) := by
  induction m generalizing r with
  | zero => rw [Nat.zero_add, gives]
  | succ m ih => rw [Nat.succ_add, gives, gives, ih]

theorem gives_succ (r : RxRing) (n : ℕ) : r.gives (n + 1) = (r.gives n).give := by
  rw [← gives_gives]
  rfl

theorem gives_returned (r : RxRing) (n : ℕ) (h : r.index < RXCOUNT) :
    (r.gives n).returned =
      r.returned ++ (List.range n).map fun k => (r.index + k) % RXCOUNT := by
  induction n with
  | zero => exact (List.append_nil _).symm
  | succ n ih =>
      rw [gives_succ, give, ih, gives_index r n h, List.range_succ, List.map_append,
        List.append_assoc]
      rfl

/-- What was handed back is the chip's, the rest is as it was. -/
theorem gives_rxptr (r : RxRing) (n a : ℕ) (h : r.index < RXCOUNT) :
    (r.gives n).rxptr a =
      if ∃ k < n, a = (r.index + k) % RXCOUNT then (r.rxptr a).handedBack else r.rxptr a := by
  induction n with
  | zero => rw [if_neg (by simp)]; rfl
  | succ n ih =>
      rw [gives_succ, give, gives_index r n h]
      dsimp only
      by_cases ha : a = (r.index + n) % RXCOUNT
      · rw [if_pos ⟨n, Nat.lt_succ_self n, ha⟩, ← ha, Function.update_self, ih]
        split <;> rfl
      · rw [Function.update_of_ne ha, ih]
        refine if_congr ⟨fun ⟨k, hk, hak⟩ => ⟨k, Nat.lt_succ_of_lt hk, hak⟩, ?_⟩ rfl rfl
        rintro ⟨k, hk, hak⟩
        rcases Nat.lt_succ_iff_lt_or_eq.mp hk with hk | rfl
        · exact ⟨k, hk, hak⟩
        · exact absurd hak ha

theorem gives_nth (r : RxRing) {m k : ℕ} (h : r.index < RXCOUNT) (hk : m + k < RXCOUNT) :
    (r.gives m).nth k = r.nth (m + k) := by
  rw [nth, gives_index r m h, Nat.mod_add_mod, Nat.add_assoc, gives_rxptr r m _ h, if_neg]
  · rfl
  · rintro ⟨l, hl, heq⟩
    have heq' : cell 0 RXCOUNT (r.index + l) = cell 0 RXCOUNT (r.index + (m + k)) := by
      rw [cell, cell, heq]
    have := cell_inj 0 RXCOUNT (Nat.add_le_add_left (by omega) r.index) (by omega) heq'
    omega

/-- Once round, the first descriptor is one of those handed back. -/
theorem gives_nth_round (r : RxRing) {m k : ℕ} (h : r.index < RXCOUNT) (hm : 0 < m)
    (hk : m + k = RXCOUNT) : ((r.gives m).nth k).own = true := by
  rw [nth, gives_index r m h, Nat.mod_add_mod, Nat.add_assoc, hk, Nat.add_mod_right,
    Nat.mod_eq_of_lt h, gives_rxptr r m _ h, if_pos ⟨0, hm, (Nat.mod_eq_of_lt h).symm⟩]
  exact Ringptr.own_handedBack _

theorem gives_view (r : RxRing) {m n : ℕ} (h : r.index < RXCOUNT) (hn : m + n ≤ RXCOUNT) :
    (r.gives m).view n = fetch 0 RXCOUNT r.rxptr (r.index + m) n := by
  unfold view fetch
  refine List.map_congr_left fun k hk => ?_
  have hk' := List.mem_range.mp hk
  have hnth := r.gives_nth (m := m) (k := k) h (by omega)
  rw [nth, nth, ← Nat.add_assoc] at hnth
  simpa only [cell, Nat.zero_add] using hnth

/-- No descriptor is handed back twice in one turn of the ring. -/
theorem gives_nodup (r : RxRing) {n : ℕ} (h : r.index < RXCOUNT) (hn : n ≤ RXCOUNT)
    (hr : r.returned = []) : (r.gives n).returned.Nodup := by
  rw [gives_returned r n h, hr, List.nil_append]
  refine (List.nodup_range).map_on fun k hk l hl heq => ?_
  have hk' := List.mem_range.mp hk
  have hl' := List.mem_range.mp hl
  rcases Nat.le_total k l with hle | hle
  · have := cell_inj 0 RXCOUNT (p := r.index + k) (q := r.index + l) (by omega) (by omega)
      (by rw [cell, cell, heq])
    omega
  · have := cell_inj 0 RXCOUNT (p := r.index + l) (q := r.index + k) (by omega) (by omega)
      (by rw [cell, cell, heq])
    omega

end RxRing

/-! ### The scan and the copy -/

/-- The scan stops at the first descriptor of the chip or with ENP. -/
theorem scan_first {rxptr : ℕ → Ringptr} {i m : ℕ}
    (hopen : ∀ k < m, (rxptr ((i + k) % RXCOUNT)).own = false ∧
      (rxptr ((i + k) % RXCOUNT)).enp = false)
    (hstop : (rxptr ((i + m) % RXCOUNT)).own = true ∨ (rxptr ((i + m) % RXCOUNT)).enp = true)
    {fuel : ℕ} (hf : m < fuel) (hi : i < RXCOUNT) :
    scan rxptr fuel i = some ((i + m) % RXCOUNT) := by
  induction m generalizing i fuel with
  | zero =>
      cases fuel with
      | zero => exact absurd hf (Nat.lt_irrefl 0)
      | succ fuel =>
          have hz : (i + 0) % RXCOUNT = i := Nat.mod_eq_of_lt hi
          rw [hz] at hstop ⊢
          rw [scan]
          by_cases ho : (rxptr i).own = true
          · rw [if_pos ho]
          · rw [if_neg ho, if_pos (hstop.resolve_left ho)]
  | succ m ih =>
      cases fuel with
      | zero => exact absurd hf (Nat.not_lt_zero _)
      | succ fuel =>
          obtain ⟨ho, he⟩ := hopen 0 (Nat.succ_pos m)
          rw [Nat.add_zero, Nat.mod_eq_of_lt hi] at ho he
          have hmod : ∀ k, ((i + 1) % RXCOUNT + k) % RXCOUNT = (i + (k + 1)) % RXCOUNT :=
            fun k => by rw [Nat.mod_add_mod, Nat.add_assoc, Nat.add_comm 1]
          rw [scan, if_neg (Bool.eq_false_iff.mp ho), if_neg (Bool.eq_false_iff.mp he),
            ih (fun k hk => by rw [hmod]; exact hopen (k + 1) (by omega)) (by rwa [hmod])
              (by omega) (Nat.mod_lt _ (by decide)), hmod]

/-- Where every descriptor is the host's and none has ENP, the scan goes on for
ever. -/
theorem scan_forever {rxptr : ℕ → Ringptr}
    (hopen : ∀ a < RXCOUNT, (rxptr a).own = false ∧ (rxptr a).enp = false) (fuel : ℕ) {i : ℕ}
    (hi : i < RXCOUNT) : scan rxptr fuel i = none := by
  induction fuel generalizing i with
  | zero => rfl
  | succ fuel ih =>
      obtain ⟨ho, he⟩ := hopen i hi
      rw [scan, if_neg (Bool.eq_false_iff.mp ho), if_neg (Bool.eq_false_iff.mp he),
        ih (Nat.mod_lt _ (by decide))]

/-- A supply too small for the descriptors before that ends first. -/
theorem scan_short {rxptr : ℕ → Ringptr} {i m : ℕ}
    (hopen : ∀ k < m, (rxptr ((i + k) % RXCOUNT)).own = false ∧
      (rxptr ((i + k) % RXCOUNT)).enp = false)
    {fuel : ℕ} (hf : fuel ≤ m) (hi : i < RXCOUNT) : scan rxptr fuel i = none := by
  induction fuel generalizing i m with
  | zero => rfl
  | succ fuel ih =>
      cases m with
      | zero => exact absurd hf (Nat.not_succ_le_zero _)
      | succ m =>
          obtain ⟨ho, he⟩ := hopen 0 (Nat.succ_pos m)
          have hz : (i + 0) % RXCOUNT = i := Nat.mod_eq_of_lt hi
          rw [hz] at ho he
          have hmod : ∀ k, ((i + 1) % RXCOUNT + k) % RXCOUNT = (i + (k + 1)) % RXCOUNT :=
            fun k => by rw [Nat.mod_add_mod, Nat.add_assoc, Nat.add_comm 1]
          rw [scan, if_neg (Bool.eq_false_iff.mp ho), if_neg (Bool.eq_false_iff.mp he)]
          exact ih (m := m) (fun k hk => by rw [hmod]; exact hopen (k + 1) (by omega)) (by omega)
            (Nat.mod_lt _ (by decide))

/-- The copy loop takes the buffers of a chain that is not the whole ring. -/
theorem copyLoop_chain (mem : ℕ → Byte) {r : RxRing} (c : Copy) {xs : List Ringptr}
    (hi : r.index < RXCOUNT) (hxs : r.view xs.length = xs) (hlen : xs.length < RXCOUNT)
    {fuel : ℕ} (hf : xs.length < fuel) :
    copyLoop mem ((r.index + xs.length) % RXCOUNT) fuel r c =
      some (r.gives xs.length, xs.foldl (Copy.take mem) c) := by
  induction xs generalizing r c fuel with
  | nil =>
      cases fuel with
      | zero => exact absurd hf (Nat.lt_irrefl 0)
      | succ fuel =>
          rw [List.length_nil, Nat.add_zero, Nat.mod_eq_of_lt hi, copyLoop, if_pos rfl]
          rfl
  | cons x xs ih =>
      rw [List.length_cons] at hf hlen
      cases fuel with
      | zero => exact absurd hf (Nat.not_lt_zero _)
      | succ fuel =>
          have hx : r.rxptr r.index = x := by
            rw [← RxRing.nth_zero hi, RxRing.nth_of_view hxs (Nat.succ_pos _)]
            rfl
          have hne : ¬ r.index = (r.index + (x :: xs).length) % RXCOUNT := fun heq => by
            have := cell_inj 0 RXCOUNT (p := r.index) (q := r.index + (x :: xs).length)
              (Nat.le_add_right _ _) (by rw [List.length_cons]; omega)
              (by rw [cell, cell, ← heq, Nat.mod_eq_of_lt hi])
            rw [List.length_cons] at this
            omega
          have hnext : (r.index + (x :: xs).length) % RXCOUNT =
              (r.give.index + xs.length) % RXCOUNT := by
            rw [RxRing.give, Nat.mod_add_mod, List.length_cons, Nat.add_assoc, Nat.add_comm 1]
          have hview : r.give.view xs.length = xs := by
            have hg := r.gives_view (m := 1) (n := xs.length) hi (by omega)
            have hsucc := hxs
            rw [RxRing.view, List.length_cons, fetch_succ] at hsucc
            exact hg.trans (List.cons_eq_cons.mp hsucc).2
          rw [copyLoop, if_neg hne, hx, hnext,
            ih (c.take mem x) (Nat.mod_lt _ (by decide)) hview (by omega) (by omega)]
          rfl

/-! ### One turn and the loop -/

theorem IsChain.length_pos {c : List Ringptr} (h : IsChain c) : 0 < c.length := by
  obtain ⟨front, last, rfl, -⟩ := h.ends
  rw [List.length_append]
  exact Nat.succ_pos _

/-- A chain shorter than the ring is taken in one turn. -/
theorem receiveTurn_chain (env : Env) (s : Rx) {c : List Ringptr} (hc : IsChain c)
    (hi : s.ring.index < RXCOUNT) (hview : s.ring.view c.length = c) (hlen : c.length < RXCOUNT)
    {fuel : ℕ} (hf : RXCOUNT ≤ fuel) :
    receiveTurn env fuel s = some (true, s.chain env c) := by
  obtain ⟨front, last, hcf, hlast, hfront⟩ := hc.ends
  have hl : c.length = front.length + 1 := by rw [hcf, List.length_append]; rfl
  have hnth : ∀ k (hk : k < c.length), s.ring.nth k = (c)[k] := fun k hk =>
    RxRing.nth_of_view hview hk
  have hhost : ∀ k < c.length, (s.ring.nth k).own = false := fun k hk =>
    hnth k hk ▸ hc.host _ (List.getElem_mem hk)
  have hlastk : s.ring.nth front.length = last := by
    rw [hnth front.length (by omega)]
    simp [hcf]
  have hscan := @scan_first s.ring.rxptr s.ring.index front.length
    (fun k hk => ⟨hhost k (by omega), by
      have hg := hnth k (by omega)
      rw [RxRing.nth] at hg
      rw [hg, List.getElem_of_eq hcf, List.getElem_append_left hk]
      exact hfront _ (List.getElem_mem hk)⟩)
    (.inr (by rw [← RxRing.nth, hlastk]; exact hlast)) fuel (by omega) hi
  have howns := hhost 0 (by omega)
  rw [RxRing.nth_zero hi] at howns
  have hcopy := copyLoop_chain env.mem ⟨some 0, 0, s.sink⟩ hi hview hlen
    (show c.length < fuel by omega)
  have hj : ((s.ring.index + front.length) % RXCOUNT + 1) % RXCOUNT =
      (s.ring.index + c.length) % RXCOUNT := by rw [Nat.mod_add_mod, Nat.add_assoc, hl]
  have hjo : ((s.ring.rxptr ((s.ring.index + front.length) % RXCOUNT)).own ||
      !(s.ring.rxptr ((s.ring.index + front.length) % RXCOUNT)).enp) = false := by
    have ho := hhost front.length (by omega)
    rw [← RxRing.nth, hlastk] at *
    rw [Bool.or_eq_false_iff, Bool.not_eq_false']
    exact ⟨ho, hlast⟩
  rw [receiveTurn]
  dsimp only
  rw [if_neg (Bool.eq_false_iff.mp howns), Ringptr.notHas_stp, if_neg Bool.false_ne_true, hscan]
  dsimp only
  rw [if_neg (Bool.eq_false_iff.mp hjo), hj, hcopy]
  rfl

/-- A rest without ENP ends the loop. -/
theorem receiveTurn_rest (env : Env) (s : Rx) {rest : List Ringptr}
    (hi : s.ring.index < RXCOUNT) (hview : s.ring.view rest.length = rest)
    (hlen : rest.length < RXCOUNT) (hhost : ∀ d ∈ rest, d.own = false)
    (hopen : ∀ d ∈ rest, d.enp = false) (hstop : (s.ring.nth rest.length).own = true)
    {fuel : ℕ} (hf : RXCOUNT ≤ fuel) : receiveTurn env fuel s = some (false, s) := by
  have hnth : ∀ k (hk : k < rest.length), s.ring.nth k = rest[k] := fun k hk =>
    RxRing.nth_of_view hview hk
  have hscan := @scan_first s.ring.rxptr s.ring.index rest.length
    (fun k hk => ⟨by rw [← RxRing.nth, hnth k hk]; exact hhost _ (List.getElem_mem hk),
      by rw [← RxRing.nth, hnth k hk]; exact hopen _ (List.getElem_mem hk)⟩)
    (.inl (by rw [← RxRing.nth]; exact hstop)) fuel (by omega) hi
  rw [receiveTurn]
  dsimp only
  by_cases hown : (s.ring.rxptr s.ring.index).own = true
  · rw [if_pos hown]
  · have hor : ((s.ring.rxptr ((s.ring.index + rest.length) % RXCOUNT)).own ||
        !(s.ring.rxptr ((s.ring.index + rest.length) % RXCOUNT)).enp) = true :=
      Bool.or_eq_true_iff.mpr (.inl hstop)
    rw [if_neg hown, Ringptr.notHas_stp, if_neg Bool.false_ne_true, hscan]
    dsimp only
    rw [if_pos hor]

theorem Walk.nil_length (h : Walk r [] rest) : rest.length < RXCOUNT ∧
    (r.nth rest.length).own = true := by
  rcases h.stop with hs | ⟨-, c, t, hc, -⟩
  · exact hs
  · exact absurd hc nofun

theorem Walk.first_length {c : List Ringptr} {cs : List (List Ringptr)} {rest : List Ringptr}
    (h : Walk r (c :: cs) rest) : c.length < RXCOUNT := by
  rcases h.stop with ⟨hs, -⟩ | ⟨-, c', t, hc, hlen⟩
  · refine Nat.lt_of_le_of_lt ?_ hs
    rw [List.flatten_cons, List.append_assoc, List.length_append]
    exact Nat.le_add_right _ _
  · obtain ⟨rfl, -⟩ := List.cons_eq_cons.mp hc
    exact hlen

theorem Walk.length_le {cs : List (List Ringptr)} {rest : List Ringptr} (h : Walk r cs rest) :
    (cs.flatten ++ rest).length ≤ RXCOUNT := by
  rcases h.stop with ⟨hs, -⟩ | ⟨hs, -⟩ <;> omega

theorem Walk.first_view {c : List Ringptr} {cs : List (List Ringptr)} {rest : List Ringptr}
    (h : Walk r (c :: cs) rest) : r.view c.length = c := by
  have hv := h.view
  rw [List.flatten_cons, List.append_assoc, List.length_append, RxRing.view, fetch_add] at hv
  exact (List.append_inj hv (by rw [fetch_length])).1

/-- What is left after the first chain. -/
theorem Walk.next {c : List Ringptr} {cs : List (List Ringptr)} {rest : List Ringptr}
    (h : Walk r (c :: cs) rest) : Walk (r.gives c.length) cs rest := by
  have hle := h.length_le
  have hv := h.view
  rw [List.flatten_cons, List.append_assoc, List.length_append] at hle
  rw [List.flatten_cons, List.append_assoc, List.length_append, RxRing.view, fetch_add] at hv
  have hpos := (h.chains c List.mem_cons_self).length_pos
  refine ⟨?_, fun d hd => h.chains d (List.mem_cons_of_mem c hd), h.restHost, h.restOpen, ?_, ?_⟩
  · rw [RxRing.gives_index r _ h.index]
    exact Nat.mod_lt _ (by decide)
  · rw [RxRing.gives_view r h.index hle]
    exact (List.append_inj hv (by rw [fetch_length])).2
  · rcases h.stop with ⟨hs, ho⟩ | ⟨hs, -⟩
    · rw [List.flatten_cons, List.append_assoc, List.length_append] at hs ho
      refine .inl ⟨by omega, ?_⟩
      rw [RxRing.gives_nth r h.index hs]
      exact ho
    · rw [List.flatten_cons, List.append_assoc, List.length_append] at hs
      exact .inl ⟨by omega, RxRing.gives_nth_round r h.index hpos hs⟩

/-- The loop takes the chains one after another and leaves the rest. -/
theorem receiveLoop_walk (env : Env) {cs : List (List Ringptr)} {rest : List Ringptr} {s : Rx}
    (h : Walk s.ring cs rest) {fuel : ℕ} (hf : RXCOUNT + cs.length < fuel) :
    receiveLoop env fuel s = some (cs.foldl (Rx.chain env) s) := by
  induction cs generalizing s fuel with
  | nil =>
      obtain ⟨hlen, hstop⟩ := h.nil_length
      cases fuel with
      | zero => exact absurd hf (Nat.not_lt_zero _)
      | succ fuel =>
          rw [receiveLoop, receiveTurn_rest env s h.index h.view hlen h.restHost h.restOpen hstop
            (by rw [List.length_nil] at hf; omega)]
          rfl
  | cons c cs ih =>
      cases fuel with
      | zero => exact absurd hf (Nat.not_lt_zero _)
      | succ fuel =>
          rw [List.length_cons] at hf
          rw [receiveLoop, receiveTurn_chain env s (h.chains c List.mem_cons_self) h.index
            h.first_view h.first_length (by omega)]
          exact ih (s := s.chain env c) h.next (by omega)

/-! ### A larger supply changes nothing -/

theorem scan_mono {rxptr : ℕ → Ringptr} {fuel i j : ℕ} (h : scan rxptr fuel i = some j) :
    scan rxptr (fuel + 1) i = some j := by
  induction fuel generalizing i with
  | zero => exact absurd h nofun
  | succ fuel ih =>
      rw [scan] at h ⊢
      split at h
      · rwa [if_pos ‹_›]
      · split at h
        · rwa [if_neg ‹_›, if_pos ‹_›]
        · rw [if_neg ‹_›, if_neg ‹_›]
          exact ih h

theorem copyLoop_mono {mem : ℕ → Byte} {j fuel : ℕ} {r : RxRing} {c : Copy} {p : RxRing × Copy}
    (h : copyLoop mem j fuel r c = some p) : copyLoop mem j (fuel + 1) r c = some p := by
  induction fuel generalizing r c with
  | zero => exact absurd h nofun
  | succ fuel ih =>
      rw [copyLoop] at h ⊢
      split at h
      · rwa [if_pos ‹_›]
      · rw [if_neg ‹_›]
        exact ih h

theorem receiveTurn_mono {env : Env} {fuel : ℕ} {s : Rx} {p : Bool × Rx}
    (h : receiveTurn env fuel s = some p) : receiveTurn env (fuel + 1) s = some p := by
  unfold receiveTurn at h ⊢
  dsimp only at h ⊢
  split at h
  · rwa [if_pos ‹_›]
  · rw [if_neg ‹_›]
    split at h
    · rwa [if_pos ‹_›]
    · rw [if_neg ‹_›]
      cases hscan : scan s.ring.rxptr fuel s.ring.index with
      | none => exact absurd (hscan ▸ h) nofun
      | some j =>
          rw [hscan] at h
          rw [scan_mono hscan]
          dsimp only at h ⊢
          split at h
          · rwa [if_pos ‹_›]
          · rw [if_neg ‹_›]
            cases hcopy : copyLoop env.mem ((j + 1) % RXCOUNT) fuel s.ring ⟨some 0, 0, s.sink⟩ with
            | none => exact absurd (hcopy ▸ h) nofun
            | some q =>
                rw [hcopy] at h
                rw [copyLoop_mono hcopy]
                exact h

theorem receiveLoop_mono {env : Env} {fuel : ℕ} {s s' : Rx}
    (h : receiveLoop env fuel s = some s') : receiveLoop env (fuel + 1) s = some s' := by
  induction fuel generalizing s with
  | zero => exact absurd h nofun
  | succ fuel ih =>
      rw [receiveLoop] at h ⊢
      cases hturn : receiveTurn env fuel s with
      | none => exact absurd (hturn ▸ h) nofun
      | some p =>
          rw [hturn] at h
          rw [receiveTurn_mono hturn]
          obtain ⟨_ | _, s⟩ := p
          · exact h
          · exact ih h

theorem receiveLoop_le {env : Env} {fuel fuel' : ℕ} (hle : fuel ≤ fuel') {s s' : Rx}
    (h : receiveLoop env fuel s = some s') : receiveLoop env fuel' s = some s' := by
  induction hle with
  | refl => exact h
  | step _ ih => exact receiveLoop_mono ih

/-- The chains are all that the loop hands back. -/
theorem foldl_chain_ring (env : Env) (cs : List (List Ringptr)) (s : Rx) :
    (cs.foldl (Rx.chain env) s).ring = s.ring.gives cs.flatten.length := by
  induction cs generalizing s with
  | nil => rfl
  | cons c cs ih =>
      rw [List.foldl_cons, ih, List.flatten_cons, List.length_append, Rx.chain, RxRing.gives_gives]

theorem cut_cons_enp {x : Ringptr} (h : x.enp = true) (xs : List Ringptr) :
    cut (x :: xs) = ([x] :: (cut xs).1, (cut xs).2) := if_pos h

/-- What is cut is the list, in chains and a rest. -/
theorem cut_spec (xs : List Ringptr) (h : ∀ d ∈ xs, d.own = false) :
    xs = (cut xs).1.flatten ++ (cut xs).2 ∧ (∀ c ∈ (cut xs).1, IsChain c) ∧
      ∀ d ∈ (cut xs).2, d.enp = false := by
  induction xs with
  | nil => exact ⟨rfl, nofun, nofun⟩
  | cons x xs ih =>
      have hx := h x List.mem_cons_self
      obtain ⟨heq, hcs, hrest⟩ := ih fun d hd => h d (List.mem_cons_of_mem x hd)
      cases hex : x.enp with
      | true =>
          rw [cut_cons_enp hex]
          refine ⟨congrArg (x :: ·) heq, fun c hc => ?_, hrest⟩
          rcases List.mem_cons.mp hc with rfl | hc
          · exact ⟨fun d hd => List.mem_singleton.mp hd ▸ hx, [], x, rfl, hex, nofun⟩
          · exact hcs c hc
      | false =>
          rw [cut, if_neg (Bool.eq_false_iff.mp hex)]
          cases hc : (cut xs).1 with
          | nil =>
              rw [hc] at heq
              refine ⟨congrArg (x :: ·) heq, nofun, fun d hd => ?_⟩
              rcases List.mem_cons.mp hd with rfl | hd
              · exact hex
              · exact hrest d hd
          | cons c cs =>
              rw [hc] at heq hcs
              have hchain := hcs c List.mem_cons_self
              refine ⟨congrArg (x :: ·) heq, fun e he => ?_, hrest⟩
              rcases List.mem_cons.mp he with rfl | he
              · obtain ⟨front, last, rfl, hlast, hfront⟩ := hchain.ends
                refine ⟨fun d hd => ?_, x :: front, last, rfl, hlast, fun d hd => ?_⟩
                · rcases List.mem_cons.mp hd with rfl | hd
                  · exact hx
                  · exact hchain.host d hd
                · rcases List.mem_cons.mp hd with rfl | hd
                  · exact hex
                  · exact hfront d hd
              · exact hcs e (List.mem_cons_of_mem c he)

/-- Where the loop ends: the chip owns a descriptor, or one other than the last
before the index ends a packet. -/
def RxRing.Ends (r : RxRing) : Prop :=
  ∃ k < RXCOUNT, (r.nth k).own = true ∨ (k + 1 < RXCOUNT ∧ (r.nth k).enp = true)

/-- The host's descriptors up to the first of the chip, at most once round. -/
theorem exists_host (r : RxRing) (n : ℕ) :
    ∃ m ≤ n, (∀ d ∈ r.view m, d.own = false) ∧ (m < n → (r.nth m).own = true) := by
  induction n with
  | zero => exact ⟨0, Nat.le_refl 0, nofun, fun h => absurd h (Nat.lt_irrefl 0)⟩
  | succ n ih =>
      obtain ⟨m, hm, hhost, hstop⟩ := ih
      rcases Nat.lt_or_eq_of_le hm with hlt | rfl
      · exact ⟨m, Nat.le_succ_of_le hm, hhost, fun _ => hstop hlt⟩
      · cases ho : (r.nth m).own with
        | true => exact ⟨m, Nat.le_succ m, hhost, fun _ => ho⟩
        | false =>
            refine ⟨m + 1, Nat.le_refl _, fun d hd => ?_, fun h => absurd h (Nat.lt_irrefl _)⟩
            rw [RxRing.view, fetch_add, List.mem_append] at hd
            rcases hd with hd | hd
            · exact hhost d hd
            · rw [fetch_succ, fetch_zero, List.mem_singleton, cell, Nat.zero_add] at hd
              exact hd ▸ ho

/-- The host's descriptors of a ring on which the loop ends, as a walk. -/
theorem RxRing.Ends.walk_of_view (h : r.Ends) (hi : r.index < RXCOUNT) {m : ℕ}
    (hm : m ≤ RXCOUNT) (hhost : ∀ d ∈ r.view m, d.own = false)
    (hstop : m < RXCOUNT → (r.nth m).own = true) :
    Walk r (cut (r.view m)).1 (cut (r.view m)).2 := by
  obtain ⟨hview, hcs, hrest⟩ := cut_spec (r.view m) hhost
  generalize (cut (r.view m)).1 = cs at hview hcs
  generalize (cut (r.view m)).2 = rest at hview hrest
  have hlen : (cs.flatten ++ rest).length = m := by rw [← hview, RxRing.view_length]
  refine ⟨hi, hcs, fun d hd => hhost d (hview ▸ List.mem_append_right _ hd), hrest,
    by rw [hlen, hview], ?_⟩
  rw [hlen]
  rcases Nat.lt_or_eq_of_le hm with hlt | rfl
  · exact .inl ⟨hlt, hstop hlt⟩
  · refine .inr ⟨rfl, ?_⟩
    obtain ⟨k, hk, hown | ⟨hk1, henp⟩⟩ := h
    · rw [hhost _ (List.mem_of_mem_take (r.nth_mem_take (Nat.lt_succ_self k) hk))] at hown
      exact absurd hown Bool.false_ne_true
    · have hmem := r.nth_mem_take (Nat.lt_succ_self k) hk
      rw [hview] at hmem
      cases cs with
      | nil =>
          rw [hrest _ (List.mem_of_mem_take hmem)] at henp
          exact absurd henp Bool.false_ne_true
      | cons c cs =>
          refine ⟨c, cs, rfl, ?_⟩
          by_contra hlong
          obtain ⟨front, last, rfl, -, hfront⟩ := (hcs c List.mem_cons_self).ends
          rw [List.length_append, List.length_singleton] at hlong
          rw [List.flatten_cons, List.append_assoc, List.append_assoc,
            List.take_append_of_le_length (by omega)] at hmem
          rw [hfront _ (List.mem_of_mem_take hmem)] at henp
          exact absurd henp Bool.false_ne_true

theorem RxRing.Ends.walk (h : r.Ends) (hi : r.index < RXCOUNT) :
    ∃ cs rest, Walk r cs rest := by
  obtain ⟨m, hm, hhost, hstop⟩ := exists_host r RXCOUNT
  exact ⟨_, _, h.walk_of_view hi hm hhost hstop⟩

/-- Where it does not end, every turn leaves the ring as it is. -/
theorem receiveTurn_forever (env : Env) {s : Rx} (hi : s.ring.index < RXCOUNT)
    (h : ¬ s.ring.Ends) (fuel : ℕ) :
    receiveTurn env fuel s = none ∨
      ∃ sink, receiveTurn env fuel s = some (true, ⟨s.ring, sink⟩) := by
  unfold RxRing.Ends at h
  push Not at h
  have hown : ∀ k < RXCOUNT, (s.ring.nth k).own = false := fun k hk =>
    Bool.eq_false_iff.mpr (h k hk).1
  have henp : ∀ k, k + 1 < RXCOUNT → (s.ring.nth k).enp = false := fun k hk =>
    Bool.eq_false_iff.mpr ((h k (by omega)).2 hk)
  have howns := hown 0 (by decide)
  rw [RxRing.nth_zero hi] at howns
  rw [receiveTurn]
  dsimp only
  rw [if_neg (Bool.eq_false_iff.mp howns), Ringptr.notHas_stp, if_neg Bool.false_ne_true]
  cases hscan : scan s.ring.rxptr fuel s.ring.index with
  | none => exact .inl rfl
  | some j =>
      dsimp only
      by_cases hlast : (s.ring.nth (RXCOUNT - 1)).enp = true
      · have hfirst : RXCOUNT - 1 < fuel → _ := fun hf => scan_first (m := RXCOUNT - 1)
          (fun k hk => ⟨hown k (by omega), henp k (by omega)⟩) (.inr hlast) hf hi
        have hj : j = (s.ring.index + (RXCOUNT - 1)) % RXCOUNT := by
          rcases Nat.lt_or_ge (RXCOUNT - 1) fuel with hf | hf
          · exact Option.some.inj (hscan.symm.trans (hfirst hf))
          · exact absurd hscan (scan_short (fun k hk => ⟨hown k (by omega), henp k (by omega)⟩)
              hf hi ▸ nofun)
        have hor : ((s.ring.rxptr j).own || !(s.ring.rxptr j).enp) = false := by
          rw [hj, Bool.or_eq_false_iff, Bool.not_eq_false']
          exact ⟨hown _ (by decide), hlast⟩
        have hback : (j + 1) % RXCOUNT = s.ring.index := by
          rw [hj, Nat.mod_add_mod, Nat.add_assoc]
          exact (Nat.add_mod_right _ _).trans (Nat.mod_eq_of_lt hi)
        rw [if_neg (Bool.eq_false_iff.mp hor), hback]
        cases fuel with
        | zero => exact absurd hscan nofun
        | succ fuel =>
            rw [copyLoop, if_pos rfl]
            exact .inr ⟨_, rfl⟩
      · refine absurd hscan (scan_forever (fun a ha => ?_) fuel hi ▸ nofun)
        obtain ⟨k, hk, rfl⟩ := s.ring.exists_place hi ha
        refine ⟨hown k hk, ?_⟩
        rcases Nat.lt_or_ge (k + 1) RXCOUNT with hk1 | hk1
        · exact henp k hk1
        · obtain rfl : k = RXCOUNT - 1 := by omega
          exact Bool.eq_false_iff.mpr hlast

theorem receiveLoop_forever (env : Env) (fuel : ℕ) {s : Rx} (hi : s.ring.index < RXCOUNT)
    (h : ¬ s.ring.Ends) : receiveLoop env fuel s = none := by
  induction fuel generalizing s with
  | zero => rfl
  | succ fuel ih =>
      rw [receiveLoop]
      rcases receiveTurn_forever env hi h fuel with hn | ⟨sink, hs⟩
      · rw [hn]
      · rw [hs]
        exact ih (s := ⟨s.ring, sink⟩) hi h

end

/-- The loop ends, no descriptor is handed back twice, those that were are the
chip's, and the index is one of the ring, exactly if the chip owns a descriptor
or one other than the last before the index ends a packet. -/
theorem receive_ends_iff (env : Env) (s : Rx) (hi : s.ring.index < RXCOUNT)
    (hr : s.ring.returned = []) :
    (∃ fuel s', receiveInterrupt env fuel s = some s' ∧ s'.ring.returned.Nodup ∧
      (∀ a ∈ s'.ring.returned, (s'.ring.rxptr a).own = true) ∧ s'.ring.index < RXCOUNT) ↔
    s.ring.Ends := by
  constructor
  · rintro ⟨fuel, s', hs', -⟩
    by_contra h
    exact absurd (hs'.symm.trans (receiveLoop_forever env fuel (s := s.counted) hi h)) nofun
  · intro h
    obtain ⟨cs, rest, hw⟩ := h.walk hi
    refine ⟨RXCOUNT + cs.length + 1, _,
      receiveLoop_walk env (s := s.counted) hw (Nat.lt_succ_self _), ?_⟩
    rw [foldl_chain_ring, show s.counted.ring = s.ring from rfl]
    have hle : cs.flatten.length ≤ RXCOUNT := by
      refine Nat.le_trans ?_ hw.length_le
      rw [List.length_append]
      exact Nat.le_add_right _ _
    refine ⟨RxRing.gives_nodup _ hi hle hr, fun a ha => ?_, ?_⟩
    · rw [RxRing.gives_returned _ _ hi, hr, List.nil_append] at ha
      obtain ⟨k, hk, rfl⟩ := List.mem_map.mp ha
      rw [RxRing.gives_rxptr _ _ _ hi, if_pos ⟨k, List.mem_range.mp hk, rfl⟩]
      exact Ringptr.own_handedBack _
    · rw [RxRing.gives_index _ _ hi]
      exact Nat.mod_lt _ (by decide)

/-- A board without streams. -/
def bareEnv : Env :=
  ⟨fun _ => 0, 0, [0, 0, 0, 0, 0, 0], fun _ => ⟨false, 0, 0⟩, none, fun _ => ⟨true, true, true⟩⟩

/-- The receive path with the same mode in every descriptor. -/
def uniformRx (mode : Byte) (index : ℕ) : Rx :=
  ⟨⟨fun _ => ⟨0, mode, 0, 0⟩, index, []⟩,
    fun _ => 0, 0, ⟨0, 0, 0, 0, 0, 0, 0, 0, 0, 0, 0, 0, 0, 0⟩, [], 0, false⟩

/-- Every descriptor ends a frame, and the walk starts at the last one. -/
theorem receive_ends_iff_frames :
    ∃ fuel s', receiveInterrupt bareEnv fuel (uniformRx 3 127) = some s' ∧
      s'.ring.returned.Nodup ∧ (∀ a ∈ s'.ring.returned, (s'.ring.rxptr a).own = true) ∧
      s'.ring.index < RXCOUNT :=
  (receive_ends_iff bareEnv (uniformRx 3 127) (by decide) rfl).mpr
    ⟨0, by decide, .inr ⟨by decide, rfl⟩⟩

/-- The host owns every descriptor, and no frame has an end. -/
theorem receive_ends_fails :
    ¬ ∀ (env : Env) (s : Rx), s.ring.index < RXCOUNT → s.ring.returned = [] →
      ∃ fuel s', receiveInterrupt env fuel s = some s' ∧ s'.ring.returned.Nodup ∧
        (∀ a ∈ s'.ring.returned, (s'.ring.rxptr a).own = true) ∧ s'.ring.index < RXCOUNT := by
  intro h
  obtain ⟨fuel, s', hs', -⟩ := h bareEnv (uniformRx 0 0) (by decide) rfl
  have hnever : ¬ (uniformRx 0 0).ring.Ends := by
    rintro ⟨k, -, hown | ⟨-, henp⟩⟩
    · exact absurd (show ((⟨0, 0, 0, 0⟩ : Ringptr).own = true) from hown) (by decide)
    · exact absurd (show ((⟨0, 0, 0, 0⟩ : Ringptr).enp = true) from henp) (by decide)
  exact absurd (hs'.symm.trans (receiveLoop_forever bareEnv fuel
    (s := (uniformRx 0 0).counted) (by decide) hnever)) nofun

end HydraAmix.Aen
