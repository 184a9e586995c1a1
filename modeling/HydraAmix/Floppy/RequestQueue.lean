import HydraAmix.Library.LinkedList
import HydraAmix.Library.Schedule
import HydraAmix.Floppy.Device

/-!
# The queue of floppy requests

`fdstrategy` appends a request through `tail`, the address of the link that
ends the queue; `getnext` looks for the first request whose track is in the
cache, takes the first one of all if there is none, and unlinks it. Appending
and unlinking run with interrupts off and are single steps. The scan does not:
every fetch of a link and every test is a step of its own, so that appends may
come between any two of them.

Only the servant calls `getnext`, and the cache does not change while it scans,
so `incache` is a parameter of each call. A buf belongs to its requester, who
does not request it again before it is returned; `busy` is that bookkeeping.
The two histories record what was appended and returned so far.
-/
namespace HydraAmix.Floppy
open LinkedList

abbrev BufId := ℕ

/-- The fields of a `buf` that `getnext` reads. -/
structure Buf where
  edev : ℕ
  blkno : ℕ
  deriving DecidableEq, Repr

/-- The drive and the track of a request. -/
def Buf.trk (b : Buf) : ℕ × ℕ := (dtodrv b.edev, b.blkno / (dtypes (dtotype b.edev)).nsecs)

/-- `incache(drv, trk) != NULL`. -/
abbrev Incache := ℕ × ℕ → Bool

/-- Where `getnext` stands. -/
inductive Getnext where
  | out
  | fetch (incache : Incache) (resp : Link BufId)
  | test (incache : Incache) (resp : Link BufId) (res : BufId)
  | unlink (resp : Link BufId) (res : BufId)

structure Queue where
  chain : Chain BufId
  tail : Link BufId
  buf : BufId → Buf
  getnext : Getnext
  busy : BufId → Bool
  appended : List (BufId × Buf)
  returned : List (BufId × Buf)

inductive QueueEvent where
  | fdstrategy (bp : BufId) (b : Buf)
  | getnext (incache : Incache)
  | next

namespace Queue

/-- The part of `fdstrategy` that queues a request for the servant. -/
def fdstrategy (s : Queue) (bp : BufId) (b : Buf) : Queue :=
  let chain := s.chain.set s.tail (some bp)
  let tail := .next bp
  { s with
    chain := chain.set tail none
    tail := tail
    buf := Function.update s.buf bp b
    busy := Function.update s.busy bp true
    appended := s.appended ++ [(bp, b)] }

/-- One statement of `getnext`. -/
def next (s : Queue) : Queue :=
  match s.getnext with
  | .out => s
  | .fetch incache resp =>
      match s.chain.get resp with
      | some res => { s with getnext := .test incache resp res }
      | none => { s with getnext := s.chain.head.elim .out (.unlink .head) }
  | .test incache resp res =>
      if incache (s.buf res).trk then { s with getnext := .unlink resp res }
      else { s with getnext := .fetch incache (.next res) }
  | .unlink resp res =>
      let after := s.chain.next res
      { s with
        chain := s.chain.set resp after
        tail := if after = none then resp else s.tail
        getnext := .out
        busy := Function.update s.busy res false
        returned := s.returned ++ [(res, s.buf res)] }

def step (s : Queue) : QueueEvent → Queue
  | .fdstrategy bp b => if s.busy bp then s else s.fdstrategy bp b
  | .getnext incache =>
      match s.getnext, s.chain.head with
      | .out, some _ => { s with getnext := .fetch incache .head }
      | _, _ => s
  | .next => s.next

/-- No request yet; the link fields of the bufs hold anything. -/
def start (av_forw : BufId → Option BufId) (buf : BufId → Buf) : Queue :=
  ⟨⟨none, av_forw⟩, .head, buf, .out, fun _ => false, [], []⟩

/-- The queued requests, given the bufs on the queue. -/
def requests (s : Queue) (l : List BufId) : List (BufId × Buf) := l.map fun b => (b, s.buf b)

/-- The requests for one track. -/
def forTrk (k : ℕ × ℕ) (rs : List (BufId × Buf)) : List (BufId × Buf) :=
  rs.filter fun r => r.2.trk = k

/-- No request before index `i` satisfies `P`. -/
def NoneBefore (s : Queue) (l : List BufId) (i : ℕ) (P : ℕ × ℕ → Prop) : Prop :=
  ∀ j < i, ∀ b, l[j]? = some b → ¬ P (s.buf b).trk

/-- What `getnext` knows where it stands. -/
def Scanned (s : Queue) (l : List BufId) : Prop :=
  match s.getnext with
  | .out => True
  | .fetch incache resp => ∃ i ≤ l.length, resp = linkAt l i ∧ l ≠ [] ∧
      s.NoneBefore l i fun k => incache k = true
  | .test incache resp res => ∃ i, l[i]? = some res ∧ resp = linkAt l i ∧
      s.NoneBefore l i fun k => incache k = true
  | .unlink resp res => ∃ i, l[i]? = some res ∧ resp = linkAt l i ∧
      s.NoneBefore l i fun k => k = (s.buf res).trk

/-- The queue consists of the bufs `l`: the pointers spell it, `tail` is the
link that ends it, nothing is lost or returned twice, and what was appended for
a track is what was returned for it followed by what is queued for it. -/
structure Holds (s : Queue) (l : List BufId) : Prop where
  spells : s.chain.Spells l
  nodup : l.Nodup
  tail : s.tail = linkAt l l.length
  busy : ∀ b, s.busy b = true ↔ b ∈ l
  once : s.appended.Perm (s.returned ++ s.requests l)
  order : ∀ k, forTrk k s.appended = forTrk k s.returned ++ forTrk k (s.requests l)
  scanned : s.Scanned l

section
variable {s : Queue} {l : List BufId} {bp : BufId} {b : Buf}

@[simp] theorem forTrk_append (k : ℕ × ℕ) (xs ys : List (BufId × Buf)) :
    forTrk k (xs ++ ys) = forTrk k xs ++ forTrk k ys := List.filter_append ..

theorem start_holds (av_forw : BufId → Option BufId) (buf : BufId → Buf) :
    (start av_forw buf).Holds [] where
  spells := ⟨rfl, fun i x h => by simp at h⟩
  nodup := List.nodup_nil
  tail := rfl
  busy b := by simp [start]
  once := .nil
  order k := rfl
  scanned := trivial

theorem requests_update (hb : bp ∉ l) : (s.fdstrategy bp b).requests l = s.requests l := by
  refine List.map_congr_left fun c hc => ?_
  have hne : c ≠ bp := fun h => hb (h ▸ hc)
  simp only [fdstrategy, Function.update_of_ne hne]

/-- What was scanned stays scanned when a request is appended. -/
theorem NoneBefore.append {i : ℕ} {P : ℕ × ℕ → Prop} (h : s.NoneBefore l i P) (hi : i ≤ l.length)
    (hb : bp ∉ l) : (s.fdstrategy bp b).NoneBefore (l ++ [bp]) i P := by
  intro j hj c hc
  rw [List.getElem?_append_left (by omega)] at hc
  have hne : c ≠ bp := fun he => hb (he ▸ List.mem_of_getElem? hc)
  simpa only [fdstrategy, Function.update_of_ne hne] using h j hj c hc

theorem Holds.append (h : s.Holds l) (hb : s.busy bp = false) :
    (s.fdstrategy bp b).Holds (l ++ [bp]) := by
  have hmem : bp ∉ l := fun hm => by rw [(h.busy bp).mpr hm] at hb; cases hb
  have hreq : (s.fdstrategy bp b).requests (l ++ [bp]) = s.requests l ++ [(bp, b)] := by
    rw [requests, List.map_append, ← requests, requests_update hmem]
    simp [fdstrategy]
  constructor
  · rw [fdstrategy, h.tail]
    exact h.spells.append h.nodup hmem
  · exact h.nodup.append (List.nodup_singleton bp) (by simpa using hmem)
  · rw [List.length_append, List.length_singleton, linkAt_append_self]
    rfl
  · intro c
    by_cases hc : c = bp
    · simp [fdstrategy, hc]
    · simp [fdstrategy, hc, h.busy]
  · rw [hreq, ← List.append_assoc]
    exact h.once.append_right _
  · intro k
    have happ : (s.fdstrategy bp b).appended = s.appended ++ [(bp, b)] := rfl
    have hret : (s.fdstrategy bp b).returned = s.returned := rfl
    rw [hreq, happ, hret, forTrk_append, forTrk_append, ← List.append_assoc, ← h.order k]
  · have hlt : ∀ {i res}, l[i]? = some res → i < l.length := fun hi =>
      (List.getElem?_eq_some_iff.mp hi).1
    have hsc := h.scanned
    have hpc : (s.fdstrategy bp b).getnext = s.getnext := rfl
    unfold Scanned at hsc ⊢
    rw [hpc]
    cases hg : s.getnext with
    | out => trivial
    | fetch incache resp =>
        rw [hg] at hsc
        obtain ⟨i, hi, hr, hne, hno⟩ := hsc
        refine ⟨i, by simp; omega, by rw [linkAt_append _ _ hi, hr], by simp, hno.append hi hmem⟩
    | test incache resp res =>
        rw [hg] at hsc
        obtain ⟨i, hi, hr, hno⟩ := hsc
        have hil := hlt hi
        exact ⟨i, by rw [List.getElem?_append_left hil, hi], by rw [linkAt_append _ _ hil.le, hr],
          hno.append hil.le hmem⟩
    | unlink resp res =>
        rw [hg] at hsc
        obtain ⟨i, hi, hr, hno⟩ := hsc
        have hil := hlt hi
        have hne : res ≠ bp := fun he => hmem (he ▸ List.mem_of_getElem? hi)
        refine ⟨i, by rw [List.getElem?_append_left hil, hi],
          by rw [linkAt_append _ _ hil.le, hr], ?_⟩
        have hbuf : (s.fdstrategy bp b).buf res = s.buf res := by
          simp only [fdstrategy, Function.update_of_ne hne]
        rw [hbuf]
        exact hno.append hil.le hmem

/-- The request that is unlinked is the first one for its track. -/
theorem Holds.unlink (h : s.Holds l) {resp : Link BufId} {res : BufId}
    (hg : s.getnext = .unlink resp res) : ∃ l', s.next.Holds l' := by
  have hsc := h.scanned
  rw [Scanned, hg] at hsc
  obtain ⟨i, hi, rfl, hno⟩ := hsc
  have hlt : i < l.length := (List.getElem?_eq_some_iff.mp hi).1
  have hafter : s.chain.next res = l[i + 1]? := h.spells.next i res hi
  have hnext : s.next = { s with
      chain := s.chain.set (linkAt l i) (s.chain.next res)
      tail := if s.chain.next res = none then linkAt l i else s.tail
      getnext := .out
      busy := Function.update s.busy res false
      returned := s.returned ++ [(res, s.buf res)] } := by
    rw [next, hg]
  obtain ⟨pre, post, rfl, rfl⟩ : ∃ pre post, l = pre ++ res :: post ∧ pre.length = i := by
    refine ⟨l.take i, l.drop (i + 1), ?_, by simp; omega⟩
    rw [← (List.getElem?_eq_some_iff.mp hi).2, List.getElem_cons_drop, List.take_append_drop]
  have herase : (pre ++ res :: post).eraseIdx pre.length = pre ++ post := by
    rw [List.eraseIdx_append_of_length_le le_rfl, Nat.sub_self]
    rfl
  have hmem : res ∉ pre ++ post ∧ (pre ++ post).Nodup :=
    List.nodup_cons.mp (List.nodup_middle.mp h.nodup)
  have hreq : s.requests (pre ++ res :: post) =
      s.requests pre ++ (res, s.buf res) :: s.requests post := by
    simp [requests]
  have hreq' : s.next.requests (pre ++ post) = s.requests pre ++ s.requests post := by
    rw [hnext]
    simp [requests]
  refine ⟨pre ++ post, ?_⟩
  constructor
  · rw [hnext, ← herase]
    exact h.spells.remove h.nodup hi
  · exact hmem.2
  · have hend := linkAt_eraseIdx_end hi
    rw [herase] at hend
    rw [hnext, hend, ← hafter, ← h.tail]
  · intro c
    rw [hnext]
    by_cases hc : c = res
    · subst hc
      simpa using hmem.1
    · simp [hc, h.busy]
  · have hp := h.once
    rw [hreq] at hp
    rw [hreq', hnext, List.append_assoc]
    exact hp.trans (List.Perm.append_left _ List.perm_middle)
  · intro k
    have ho := h.order k
    rw [hreq, forTrk_append] at ho
    rw [hreq', hnext, forTrk_append, forTrk_append, ho, List.append_assoc]
    by_cases hk : (s.buf res).trk = k
    · -- nothing for this track stands before the request
      have hpre : forTrk k (s.requests pre) = [] := by
        refine List.filter_eq_nil_iff.mpr fun r hr => ?_
        obtain ⟨c, hc, rfl⟩ := List.mem_map.mp hr
        obtain ⟨j, hj, rfl⟩ := List.mem_iff_getElem.mp hc
        have hb := hno j hj pre[j]
          (by rw [List.getElem?_append_left hj, List.getElem?_eq_getElem hj])
        simpa [← hk] using hb
      rw [hpre, List.nil_append, List.nil_append]
      simp [forTrk, hk]
    · simp [forTrk, hk]
  · rw [Scanned, hnext]
    trivial

/-- A statement of the scan moves on by one link, or stops. -/
theorem Holds.next (h : s.Holds l) : ∃ l', s.next.Holds l' := by
  have hsc := h.scanned
  rw [Scanned] at hsc
  cases hg : s.getnext with
  | out =>
      rw [Queue.next, hg]
      exact ⟨l, h⟩
  | fetch incache resp =>
      rw [hg] at hsc
      obtain ⟨i, hi, rfl, hne, hno⟩ := hsc
      rw [Queue.next, hg]
      simp only [h.spells.get_linkAt hi]
      cases hli : l[i]? with
      | some res => exact ⟨l, { h with scanned := ⟨i, hli, rfl, hno⟩ }⟩
      | none =>
          obtain ⟨a, l', rfl⟩ := List.exists_cons_of_ne_nil hne
          have hhead : s.chain.head = some a := h.spells.head
          refine ⟨a :: l', { h with scanned := ?_ }⟩
          rw [hhead]
          exact ⟨0, rfl, rfl, fun j hj => absurd hj (Nat.not_lt_zero j)⟩
  | test incache resp res =>
      rw [hg] at hsc
      obtain ⟨i, hi, rfl, hno⟩ := hsc
      have hlt : i < l.length := (List.getElem?_eq_some_iff.mp hi).1
      simp only [Queue.next, hg]
      by_cases hc : incache (s.buf res).trk = true
      · rw [if_pos hc]
        refine ⟨l, { h with scanned := ⟨i, hi, rfl, fun j hj b hb hk => ?_⟩ }⟩
        exact hno j hj b hb (hk ▸ hc)
      · rw [if_neg hc]
        refine ⟨l, { h with scanned := ⟨i + 1, hlt, (linkAt_succ hi).symm, ?_, ?_⟩ }⟩
        · exact List.ne_nil_of_length_pos (by omega)
        · intro j hj b hb
          rcases Nat.lt_succ_iff_lt_or_eq.mp hj with hj | rfl
          · exact hno j hj b hb
          · rw [hi, Option.some.injEq] at hb
            exact hb ▸ hc
  | unlink resp res => exact h.unlink hg

theorem Holds.step (h : s.Holds l) (e : QueueEvent) : ∃ l', (s.step e).Holds l' := by
  cases e with
  | fdstrategy bp b =>
      rw [Queue.step]
      split_ifs with hb
      · exact ⟨l, h⟩
      · exact ⟨_, h.append (Bool.eq_false_of_not_eq_true hb)⟩
  | getnext incache =>
      rw [Queue.step]
      split
      · next a hg ha =>
          refine ⟨l, { h with scanned := ⟨0, Nat.zero_le _, rfl, ?_, ?_⟩ }⟩
          · rintro rfl
            rw [h.spells.head] at ha
            cases ha
          · exact fun j hj => absurd hj (Nat.not_lt_zero j)
      · exact ⟨l, h⟩
  | next => exact h.next

end

end Queue
end HydraAmix.Floppy
