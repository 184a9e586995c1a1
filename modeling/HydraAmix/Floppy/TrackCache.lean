import HydraAmix.Library.LinkedList
import HydraAmix.Library.Schedule
import HydraAmix.Library.Word
import HydraAmix.Floppy.Device
import Mathlib.Data.Fintype.Card
import Mathlib.Data.List.Perm.Basic

/-!
# The cache of track buffers

`TBCLEN` track buffers on a linked list, the most recently used first. A track
is found by drive, track number and format; on a miss the last buffer is
written back if it is dirty, and the track is read into it. `flush` writes back
and forgets what belongs to one drive.

The disks are part of the state. A track is written and read through the `put`
and `get` of its format, which move its sectors to the disk and back; the
argument `got` is the outcome of the `get`, if there is one. Stopping and aging
the motors is not modeled.
-/
namespace HydraAmix.Floppy
open LinkedList Word

abbrev TBCLEN : ℕ := 10
abbrev NODRV : ℤ := -1
abbrev NOTRK : ℤ := -1

abbrev TrackId := Fin TBCLEN

/-- `track`, less the link. -/
structure Track where
  drv : ℤ
  trk : ℤ
  type : Fin NTYPES
  dirty : Bool
  check : Bool
  data : ℕ → Byte

/-- The cache and the disks: of each drive and track the bytes of its sectors. -/
structure Cache where
  chain : Chain TrackId
  track : TrackId → Track
  disk : ℕ → ℕ → ℕ → Byte

/-- The bytes of a track of a format. -/
def trackBytes (type : Fin NTYPES) : ℕ := (dtypes type).nsecs * BPSEC

namespace Cache

def setTrack (s : Cache) (p : TrackId) (t : Track) : Cache :=
  { s with track := Function.update s.track p t }

/-- `(*tp->type->put)(tp->drv, tp->trk, tp->data, tp->check)` -/
def put (s : Cache) (t : Track) : Cache :=
  { s with disk := Function.update s.disk t.drv.toNat (Function.update (s.disk t.drv.toNat)
      t.trk.toNat fun i =>
        if i < trackBytes t.type then t.data i else s.disk t.drv.toNat t.trk.toNat i) }

/-- What a successful `get` leaves in the buffer. -/
def get (s : Cache) (type : Fin NTYPES) (drv trk : ℕ) (data : ℕ → Byte) : ℕ → Byte := fun i =>
  if i < trackBytes type then s.disk drv trk i else data i

/-- The loop of `findtrk`: the buffer before the one it stops at, that one, and
whether it is the one looked for. As many steps as there are buffers do. -/
def search (s : Cache) (type : Fin NTYPES) (drv trk : ℕ) :
    ℕ → Option TrackId → TrackId → Option (Option TrackId × TrackId × Bool)
  | 0, _, _ => none
  | n + 1, father, probe =>
      let t := s.track probe
      if t.drv = drv ∧ t.trk = trk ∧ t.type = type then some (father, probe, true)
      else match s.chain.next probe with
        | none => some (father, probe, false)
        | some next => s.search type drv trk n (some probe) next

/-- `probe->next = tbc; tbc = probe`, once `father` has the successor `next`. -/
def relink (s : Cache) (father probe : TrackId) (next : Option TrackId) : Cache :=
  let chain := s.chain.set (.next father) next
  { s with chain := ⟨some probe, Function.update chain.next probe chain.head⟩ }

def findtrk (s : Cache) (dev trk : ℕ) (read got : Bool) : Option TrackId × Cache :=
  let type := dtotype dev
  let drv := dtodrv dev
  match s.chain.head.bind fun tbc => s.search type drv trk TBCLEN none tbc with
  | none => (none, s)
  | some (father, probe, true) =>
      (some probe, father.elim s fun f => s.relink f probe (s.chain.next probe))
  | some (father, probe, false) =>
      let s := father.elim s fun f => s.relink f probe none
      let t := s.track probe
      let s := if t.dirty ∧ t.drv ≠ NODRV ∧ t.trk ≠ NOTRK then s.put t else s
      if read ∧ ¬ got then (none, s.setTrack probe { t with drv := NODRV, trk := NOTRK })
      else
        let data := if read then s.get type drv trk t.data else fun _ => 0
        (some probe, s.setTrack probe ⟨drv, trk, type, !read, read, data⟩)

def read (s : Cache) (dev bno : ℕ) (got : Bool) : Option (ℕ → Byte) × Cache :=
  let dp := dtypes (dtotype dev)
  if bno ≥ dp.nblocks then (none, s)
  else
    let (tk, s) := s.findtrk dev (bno / dp.nsecs) true got
    (tk.map fun p => fun i => (s.track p).data (bno % dp.nsecs * BPSEC + i), s)

/-- A block copied into a track. -/
def patch (data : ℕ → Byte) (sec : ℕ) (buf : ℕ → Byte) : ℕ → Byte := fun i =>
  if i / BPSEC = sec then buf (i % BPSEC) else data i

def write (s : Cache) (dev : ℕ) (buf : ℕ → Byte) (bno : ℕ) (got : Bool) : Bool × Cache :=
  let dp := dtypes (dtotype dev)
  if bno ≥ dp.nblocks then (false, s)
  else
    let (tk, s) := s.findtrk dev (bno / dp.nsecs) true got
    match tk with
    | none => (false, s)
    | some p =>
        let t := s.track p
        (true, s.setTrack p { t with data := patch t.data (bno % dp.nsecs) buf, dirty := true })

/-- One turn of the loop of `flush`. -/
def flushTrack (s : Cache) (drv : ℕ) (tp : TrackId) : Cache :=
  let t := s.track tp
  if t.drv = drv then
    (if t.dirty then s.put t else s).setTrack tp { t with drv := NODRV, trk := NOTRK }
  else s

/-- The loop of `flush`, over as many buffers as there are. -/
def flushFrom (drv : ℕ) : ℕ → Option TrackId → Cache → Cache
  | 0, _, s => s
  | _, none, s => s
  | n + 1, some tp, s =>
      let s := s.flushTrack drv tp
      flushFrom drv n (s.chain.next tp) s

def flush (s : Cache) (drv : ℕ) : Cache := flushFrom drv TBCLEN s.chain.head s

/-- The buffers as `tbcinit` links them; what they hold is arbitrary. -/
def tbcinit (tracks : TrackId → Track) (disk : ℕ → ℕ → ℕ → Byte) : Cache where
  chain := ⟨some 0, fun p => if h : p.val + 1 < TBCLEN then some ⟨p.val + 1, h⟩ else none⟩
  track p := { tracks p with drv := NODRV, trk := NOTRK }
  disk := disk

/-! ### The list of buffers -/

/-- The list contains every buffer once. -/
def Listed (s : Cache) : Prop := ∃ l, s.chain.Spells l ∧ l.Nodup ∧ l.length = TBCLEN

/-- The buffer before an index. -/
def before (l : List TrackId) : ℕ → Option TrackId
  | 0 => none
  | j + 1 => l[j]?

/-- The buffer holds the track. -/
def Matches (s : Cache) (type : Fin NTYPES) (drv trk : ℕ) (p : TrackId) : Prop :=
  (s.track p).drv = drv ∧ (s.track p).trk = trk ∧ (s.track p).type = type

section
variable {s : Cache} {l : List TrackId} {type : Fin NTYPES} {drv trk : ℕ}

theorem Listed.mem (h : s.chain.Spells l ∧ l.Nodup ∧ l.length = TBCLEN) (p : TrackId) : p ∈ l := by
  have hcard : l.toFinset.card = Fintype.card TrackId := by
    rw [List.toFinset_card_of_nodup h.2.1, h.2.2, Fintype.card_fin]
  have huniv := Finset.eq_univ_of_card _ hcard
  rw [← List.mem_toFinset, huniv]
  exact Finset.mem_univ p

/-- The loop stops at the buffer of the track, or at the last one if there is
none. -/
theorem search_spec (hs : s.chain.Spells l) {n i : ℕ} {probe : TrackId}
    (hi : l[i]? = some probe) (hn : l.length ≤ i + n) :
    ∃ j a hit, s.search type drv trk n (before l i) probe = some (before l j, a, hit) ∧
      l[j]? = some a ∧ (hit = true → s.Matches type drv trk a) ∧
      (hit = false → l[j + 1]? = none ∧
        ∀ k b, i ≤ k → l[k]? = some b → ¬ s.Matches type drv trk b) := by
  induction n generalizing i probe with
  | zero =>
      have := (List.getElem?_eq_some_iff.mp hi).1
      omega
  | succ n ih =>
      by_cases hm : s.Matches type drv trk probe
      · refine ⟨i, probe, true, ?_, hi, fun _ => hm, nofun⟩
        rw [search]
        exact if_pos hm
      · have hnext := hs.next i probe hi
        cases hk : l[i + 1]? with
        | none =>
            refine ⟨i, probe, false, ?_, hi, nofun, fun _ => ⟨hk, fun k b hik hb => ?_⟩⟩
            · rw [search, hnext, hk]
              exact if_neg hm
            · have hlt := (List.getElem?_eq_some_iff.mp hb).1
              have hlen := List.getElem?_eq_none_iff.mp hk
              obtain rfl : k = i := by omega
              rw [hi, Option.some.injEq] at hb
              exact hb ▸ hm
        | some next =>
            obtain ⟨j, a, hit, hrun, hj, hyes, hno⟩ := ih hk (by omega)
            refine ⟨j, a, hit, ?_, hj, hyes, fun hf => ⟨(hno hf).1, fun k b hik hb => ?_⟩⟩
            · rw [search, hnext, hk]
              rw [before, hi] at hrun
              exact (if_neg hm).trans hrun
            · rcases Nat.eq_or_lt_of_le hik with rfl | hlt
              · rw [hi, Option.some.injEq] at hb
                exact hb ▸ hm
              · exact (hno hf).2 k b hlt hb

/-- Moving a buffer to the front of the list. -/
theorem relink_listed (hs : s.chain.Spells l) (hn : l.Nodup) (hl : l.length = TBCLEN) {j : ℕ}
    {a : TrackId} (hj : l[j]? = some a) {next : Option TrackId} (hnext : next = s.chain.next a) :
    ((before l j).elim s fun f => s.relink f a next).Listed := by
  cases j with
  | zero => exact ⟨l, hs, hn, hl⟩
  | succ k =>
      have hlt := (List.getElem?_eq_some_iff.mp hj).1
      have hk := List.getElem?_eq_getElem (l := l) (i := k) (by omega)
      have hperm : (a :: l.eraseIdx (k + 1)).Perm l := by
        rw [← (List.getElem?_eq_some_iff.mp hj).2]
        exact List.getElem_cons_eraseIdx_perm hlt
      have hnodup := hperm.nodup_iff.mpr hn
      refine ⟨a :: l.eraseIdx (k + 1), ?_, hnodup, hperm.length_eq.trans hl⟩
      have hrem := hs.remove hn hj
      rw [linkAt_succ hk] at hrem
      rw [before, hk, hnext]
      exact hrem.push (List.nodup_cons.mp hnodup).1

end

/-! ### What the cache and the disks hold -/

/-- A store of blocks: of each drive and block number the data. -/
abbrev Store := ℕ → ℕ → ℕ → Byte

/-- The bytes of a track of the store, in the format of the drive. -/
def content (fmt : ℕ → Fin NTYPES) (store : Store) (drv trk i : ℕ) : Byte :=
  store drv (trk * (dtypes (fmt drv)).nsecs + i / BPSEC) (i % BPSEC)

/-- The cache and the disks together hold the store: a buffer that belongs to a
track holds its bytes, the disk holds those of every track of which no dirty
buffer exists, and no track has two buffers. -/
structure Coherent (fmt : ℕ → Fin NTYPES) (s : Cache) (store : Store) : Prop where
  listed : s.Listed
  valid : ∀ p, (s.track p).drv ≠ NODRV → ∃ d t : ℕ, (s.track p).drv = d ∧ (s.track p).trk = t ∧
    (s.track p).type = fmt d
  distinct : ∀ p q, (s.track p).drv ≠ NODRV → (s.track p).drv = (s.track q).drv →
    (s.track p).trk = (s.track q).trk → p = q
  cached : ∀ p (d t : ℕ), (s.track p).drv = d → (s.track p).trk = t → ∀ i < trackBytes (fmt d),
    (s.track p).data i = content fmt store d t i
  disk : ∀ d t : ℕ, (∀ p, (s.track p).drv = d → (s.track p).trk = t → (s.track p).dirty = false) →
    ∀ i < trackBytes (fmt d), s.disk d t i = content fmt store d t i

section
variable {fmt : ℕ → Fin NTYPES} {s : Cache} {store : Store} {p : TrackId}

@[simp] theorem setTrack_self (s : Cache) (p : TrackId) (t : Track) :
    (s.setTrack p t).track p = t := Function.update_self ..

theorem setTrack_of_ne (s : Cache) {p q : TrackId} (h : q ≠ p) (t : Track) :
    (s.setTrack p t).track q = s.track q := Function.update_of_ne h ..

/-- Relinking touches neither the buffers nor the disks. -/
theorem Coherent.relisted (h : Coherent fmt s store) {t : Cache} (hl : t.Listed)
    (ht : t.track = s.track) (hd : t.disk = s.disk) : Coherent fmt t store where
  listed := hl
  valid := by rw [ht]; exact h.valid
  distinct := by rw [ht]; exact h.distinct
  cached := by rw [ht]; exact h.cached
  disk := by rw [ht, hd]; exact h.disk

theorem put_disk_self {t : Track} {d k : ℕ} (hd : t.drv = d) (hk : t.trk = k) {i : ℕ}
    (hi : i < trackBytes t.type) : (s.put t).disk d k i = t.data i := by
  have hd' : t.drv.toNat = d := by omega
  have hk' : t.trk.toNat = k := by omega
  simp only [put, hd', hk', Function.update_self, if_pos hi]

theorem put_disk_of_ne {t : Track} {d k d' k' : ℕ} (hd : t.drv = d) (hk : t.trk = k)
    (hne : ¬ (d' = d ∧ k' = k)) : (s.put t).disk d' k' = s.disk d' k' := by
  have hd' : t.drv.toNat = d := by omega
  have hk' : t.trk.toNat = k := by omega
  simp only [put, hd', hk']
  by_cases h : d' = d
  · subst h
    rw [Function.update_self, Function.update_of_ne fun he => hne ⟨rfl, he⟩]
  · rw [Function.update_of_ne h]

/-- Writing back what a buffer holds keeps the store, and puts it on the disk. -/
theorem Coherent.put (h : Coherent fmt s store) (hp : (s.track p).drv ≠ NODRV) :
    Coherent fmt (s.put (s.track p)) store ∧
      ∀ d t : ℕ, (s.track p).drv = d → (s.track p).trk = t → ∀ i < trackBytes (fmt d),
        (s.put (s.track p)).disk d t i = content fmt store d t i := by
  obtain ⟨d, t, hd, ht, htype⟩ := h.valid p hp
  have hwritten : ∀ i < trackBytes (fmt d),
      (s.put (s.track p)).disk d t i = content fmt store d t i := fun i hi => by
    rw [put_disk_self hd ht (by rwa [htype])]
    exact h.cached p d t hd ht i hi
  refine ⟨{ h with disk := fun d' t' hc i hi => ?_ }, fun d' t' hd' ht' => ?_⟩
  · by_cases hsame : d' = d ∧ t' = t
    · obtain ⟨rfl, rfl⟩ := hsame
      exact hwritten i hi
    · rw [put_disk_of_ne hd ht hsame]
      exact h.disk d' t' hc i hi
  · obtain rfl : d = d' := by omega
    obtain rfl : t = t' := by omega
    exact hwritten

/-- A buffer whose track is safe on the disk is given to another track, with
the bytes that track has, or to none. -/
theorem Coherent.replace (h : Coherent fmt s store) {t : Track}
    (hsafe : ∀ d k : ℕ, (s.track p).drv = d → (s.track p).trk = k → ∀ i < trackBytes (fmt d),
      s.disk d k i = content fmt store d k i)
    (hvalid : t.drv ≠ NODRV → ∃ d k : ℕ, t.drv = d ∧ t.trk = k ∧ t.type = fmt d)
    (hnew : ∀ q, q ≠ p → t.drv ≠ NODRV → (s.track q).drv = t.drv → (s.track q).trk ≠ t.trk)
    (hdata : ∀ d k : ℕ, t.drv = d → t.trk = k → ∀ i < trackBytes (fmt d),
      t.data i = content fmt store d k i) :
    Coherent fmt (s.setTrack p t) store where
  listed := h.listed
  valid q hq := by
    by_cases hqp : q = p
    · subst hqp
      rw [setTrack_self] at hq ⊢
      exact hvalid hq
    · rw [setTrack_of_ne _ hqp] at hq ⊢
      exact h.valid q hq
  distinct q r hq hd hk := by
    by_cases hqp : q = p
    · by_cases hrp : r = p
      · rw [hqp, hrp]
      · rw [hqp, setTrack_self] at hq hd hk
        rw [setTrack_of_ne _ hrp] at hd hk
        exact absurd hk.symm (hnew r hrp hq hd.symm)
    · rw [setTrack_of_ne _ hqp] at hq hd hk
      by_cases hrp : r = p
      · rw [hrp, setTrack_self] at hd hk
        exact absurd hk (hnew q hqp (hd ▸ hq) hd)
      · rw [setTrack_of_ne _ hrp] at hd hk
        exact h.distinct q r hq hd hk
  cached q d k hd hk := by
    by_cases hqp : q = p
    · subst hqp
      rw [setTrack_self] at hd hk ⊢
      exact hdata d k hd hk
    · rw [setTrack_of_ne _ hqp] at hd hk ⊢
      exact h.cached q d k hd hk
  disk d k hclean i hi := by
    by_cases hp : (s.track p).drv = d ∧ (s.track p).trk = k
    · exact hsafe d k hp.1 hp.2 i hi
    · refine h.disk d k (fun q hq hqk => ?_) i hi
      have hqp : q ≠ p := fun he => hp (he ▸ ⟨hq, hqk⟩)
      have := hclean q
      rw [setTrack_of_ne _ hqp] at this
      exact this hq hqk

theorem ne_nodrv {x : ℤ} {d : ℕ} (h : x = d) : x ≠ NODRV := by
  rw [NODRV]
  omega

/-- Before a buffer is given away it is written back if it has to be. -/
theorem Coherent.writeBack (h : Coherent fmt s store) (p : TrackId) {c : Prop} [Decidable c]
    (hc : c → (s.track p).drv ≠ NODRV)
    (hn : ¬ c → (s.track p).drv ≠ NODRV → (s.track p).dirty = false) :
    Coherent fmt (if c then s.put (s.track p) else s) store ∧
      ∀ d t : ℕ, (s.track p).drv = d → (s.track p).trk = t → ∀ i < trackBytes (fmt d),
        (if c then s.put (s.track p) else s).disk d t i = content fmt store d t i := by
  split_ifs with hcond
  · exact h.put (hc hcond)
  · refine ⟨h, fun d t hd ht i hi => h.disk d t (fun q hq hqt => ?_) i hi⟩
    have hp := ne_nodrv hd
    obtain rfl := h.distinct p q hp (hd.trans hq.symm) (ht.trans hqt.symm)
    exact hn hcond hp

/-- `findtrk` finds or loads the track and leaves everything coherent. -/
theorem Coherent.findtrk (h : Coherent fmt s store) {dev : ℕ}
    (hdev : dtotype dev = fmt (dtodrv dev)) (trk : ℕ) : ∃ p s',
    s.findtrk dev trk true true = (some p, s') ∧ Coherent fmt s' store ∧
      s'.Matches (dtotype dev) (dtodrv dev) trk p := by
  obtain ⟨l, hs, hn, hl⟩ := h.listed
  obtain ⟨tbc, hhead⟩ : ∃ tbc, l[0]? = some tbc :=
    ⟨_, List.getElem?_eq_getElem (hl ▸ Nat.succ_pos 9)⟩
  obtain ⟨j, a, hit, hrun, hj, hyes, hno⟩ :=
    @search_spec s l (dtotype dev) (dtodrv dev) trk hs TBCLEN 0 tbc hhead
      (hl.trans (Nat.zero_add _).symm).le
  have hsearch : (s.chain.head.bind fun tbc =>
      s.search (dtotype dev) (dtodrv dev) trk TBCLEN none tbc) = some (before l j, a, hit) := by
    rw [hs.head, hhead]
    exact hrun
  have htrack : ∀ next, ((before l j).elim s fun f => s.relink f a next).track = s.track ∧
      ((before l j).elim s fun f => s.relink f a next).disk = s.disk := fun next => by
    cases before l j <;> exact ⟨rfl, rfl⟩
  cases hit with
  | true =>
      refine ⟨a, _, by rw [Cache.findtrk, hsearch], h.relisted (relink_listed hs hn hl hj rfl)
        (htrack _).1 (htrack _).2, ?_⟩
      rw [Matches, (htrack _).1]
      exact hyes rfl
  | false =>
      obtain ⟨hlast, hnone⟩ := hno rfl
      have hnext : none = s.chain.next a := by rw [hs.next j a hj, hlast]
      have h₁ := h.relisted (relink_listed hs hn hl hj hnext) (htrack _).1 (htrack _).2
      have habsent : ∀ q, (s.track q).drv = dtodrv dev → (s.track q).trk ≠ trk := fun q hd ht => by
        obtain ⟨k, hk⟩ := List.mem_iff_getElem?.mp (Listed.mem ⟨hs, hn, hl⟩ q)
        obtain ⟨d, t, hd', -, htype⟩ := h.valid q (ne_nodrv hd)
        obtain rfl : d = dtodrv dev := by omega
        exact hnone k q (Nat.zero_le k) hk ⟨hd, ht, htype.trans hdev.symm⟩
      generalize hs₁ : ((before l j).elim s fun f => s.relink f a none) = s₁ at h₁
      have ht₁ : s₁.track = s.track := hs₁ ▸ (htrack none).1
      rw [← ht₁] at habsent
      obtain ⟨h₂, hsafe⟩ := h₁.writeBack a
        (c := (s₁.track a).dirty = true ∧ (s₁.track a).drv ≠ NODRV ∧ (s₁.track a).trk ≠ NOTRK)
        (fun hc => hc.2.1) fun hc hd => by
          obtain ⟨d, t, -, ht, -⟩ := h₁.valid a hd
          have hk : (s₁.track a).trk ≠ NOTRK := ne_nodrv ht
          simpa [hd, hk] using hc
      generalize hs₂ : (if (s₁.track a).dirty = true ∧ (s₁.track a).drv ≠ NODRV ∧
        (s₁.track a).trk ≠ NOTRK then s₁.put (s₁.track a) else s₁) = s₂ at h₂ hsafe
      have ht₂ : s₂.track = s₁.track := by
        rw [← hs₂]
        split_ifs <;> rfl
      refine ⟨a, s₂.setTrack a ⟨dtodrv dev, trk, dtotype dev, !true, true,
        s₂.get (dtotype dev) (dtodrv dev) trk (s₁.track a).data⟩, ?_, ?_, ?_⟩
      · rw [Cache.findtrk, hsearch]
        simp only [hs₁, hs₂]
        rfl
      · refine h₂.replace (by rwa [ht₂]) (fun _ => ⟨dtodrv dev, trk, rfl, rfl, hdev⟩)
          (fun q _ _ => by rw [ht₂]; exact habsent q) fun d k hd hk i hi => ?_
        obtain rfl : dtodrv dev = d := Int.ofNat.inj hd
        obtain rfl : trk = k := Int.ofNat.inj hk
        refine (if_pos (by rwa [hdev])).trans ?_
        refine h₂.disk _ _ (fun q hq hqk => ?_) i hi
        rw [ht₂] at hq hqk
        exact absurd hqk (habsent q hq)
      · rw [Matches, setTrack_self]
        exact ⟨rfl, rfl, rfl⟩

/-- The number of a block within its track, and back. -/
theorem content_block {drv bno i : ℕ} (hi : i < BPSEC) :
    content fmt store drv (bno / (dtypes (fmt drv)).nsecs)
      (bno % (dtypes (fmt drv)).nsecs * BPSEC + i) = store drv bno i := by
  have hdiv : (bno % (dtypes (fmt drv)).nsecs * BPSEC + i) / BPSEC =
      bno % (dtypes (fmt drv)).nsecs := by
    rw [Nat.mul_comm, Nat.mul_add_div (by decide), Nat.div_eq_of_lt hi, Nat.add_zero]
  have hmod : (bno % (dtypes (fmt drv)).nsecs * BPSEC + i) % BPSEC = i := by
    rw [Nat.mul_add_mod', Nat.mod_eq_of_lt hi]
  rw [content, hdiv, hmod, Nat.mul_comm, Nat.div_add_mod]

theorem block_lt {n bno i : ℕ} (hn : 0 < n) (hi : i < BPSEC) : bno % n * BPSEC + i < n * BPSEC := by
  have hmod := Nat.mod_lt bno hn
  have hmul := Nat.mul_le_mul_right BPSEC (Nat.succ_le_of_lt hmod)
  rw [Nat.succ_mul] at hmul
  exact lt_of_lt_of_le (Nat.add_lt_add_left hi _) hmul

/-- A format with a block has a sector on a track. -/
theorem nsecs_pos {type : Fin NTYPES} {bno : ℕ} (h : bno < (dtypes type).nblocks) :
    0 < (dtypes type).nsecs := by
  have hpos : ∀ t : Fin NTYPES, 0 < (dtypes t).nblocks → 0 < (dtypes t).nsecs := by decide
  exact hpos type (Nat.zero_lt_of_lt h)

/-- A read returns the block of the store. -/
theorem Coherent.read (h : Coherent fmt s store) {dev : ℕ}
    (hdev : dtotype dev = fmt (dtodrv dev)) (bno : ℕ) :
    Coherent fmt (s.read dev bno true).2 store ∧
      (bno < (dtypes (dtotype dev)).nblocks → ∃ buf, (s.read dev bno true).1 = some buf ∧
        ∀ i < BPSEC, buf i = store (dtodrv dev) bno i) := by
  rw [Cache.read]
  by_cases hb : bno ≥ (dtypes (dtotype dev)).nblocks
  · rw [if_pos hb]
    exact ⟨h, fun hlt => absurd hb (by omega)⟩
  · obtain ⟨p, s', hrun, h', hd, ht, -⟩ := h.findtrk hdev (bno / (dtypes (dtotype dev)).nsecs)
    rw [if_neg hb, hrun]
    refine ⟨h', fun hlt => ⟨_, rfl, fun i hi => ?_⟩⟩
    have hpos := nsecs_pos hlt
    rw [hdev] at ht hpos ⊢
    exact (h'.cached p _ _ hd ht _ (block_lt hpos hi)).trans (content_block hi)

/-- The store after one block was written. -/
def Store.write (store : Store) (drv bno : ℕ) (buf : ℕ → Byte) : Store :=
  Function.update store drv (Function.update (store drv) bno buf)

/-- In tracks, only the bytes of that block change. -/
theorem content_write {drv bno d t i : ℕ} (buf : ℕ → Byte) (hi : i < trackBytes (fmt d)) :
    content fmt (Store.write store drv bno buf) d t i =
      if d = drv ∧ t = bno / (dtypes (fmt drv)).nsecs ∧ i / BPSEC = bno % (dtypes (fmt drv)).nsecs
      then buf (i % BPSEC) else content fmt store d t i := by
  by_cases hd : d = drv
  swap
  · rw [if_neg fun h => hd h.1, content, Store.write, Function.update_of_ne hd]
    rfl
  subst hd
  have hsec : i / BPSEC < (dtypes (fmt d)).nsecs :=
    (Nat.div_lt_iff_lt_mul (by decide)).mpr hi
  have hiff : t * (dtypes (fmt d)).nsecs + i / BPSEC = bno ↔
      t = bno / (dtypes (fmt d)).nsecs ∧ i / BPSEC = bno % (dtypes (fmt d)).nsecs := by
    constructor
    · rintro rfl
      rw [Nat.mul_comm, Nat.mul_add_div (Nat.zero_lt_of_lt hsec), Nat.div_eq_of_lt hsec,
        Nat.mul_add_mod,
        Nat.mod_eq_of_lt hsec]
      exact ⟨rfl, rfl⟩
    · rintro ⟨rfl, he⟩
      rw [he, Nat.mul_comm, Nat.div_add_mod]
  rw [content, Store.write, Function.update_self]
  by_cases hb : t * (dtypes (fmt d)).nsecs + i / BPSEC = bno
  · rw [hb, Function.update_self, if_pos ⟨rfl, hiff.mp hb⟩]
  · rw [Function.update_of_ne hb, if_neg fun h => hb (hiff.mpr h.2)]
    rfl

theorem Coherent.write (h : Coherent fmt s store) {dev : ℕ}
    (hdev : dtotype dev = fmt (dtodrv dev)) (buf : ℕ → Byte) {bno : ℕ}
    (hb : bno < (dtypes (dtotype dev)).nblocks) :
    Coherent fmt (s.write dev buf bno true).2 (Store.write store (dtodrv dev) bno buf) := by
  obtain ⟨p, s', hrun, h', hd, ht, htype⟩ := h.findtrk hdev (bno / (dtypes (dtotype dev)).nsecs)
  rw [Cache.write, if_neg (by omega), hrun]
  rw [hdev] at ht htype ⊢
  have hp := ne_nodrv hd
  -- the bytes of every other track are as before
  have hother : ∀ d t : ℕ, ¬ ((s'.track p).drv = d ∧ (s'.track p).trk = t) →
      ∀ i < trackBytes (fmt d), content fmt store d t i =
        content fmt (Store.write store (dtodrv dev) bno buf) d t i := fun d t hne i hi => by
    rw [content_write buf hi, if_neg]
    rintro ⟨rfl, rfl, -⟩
    exact hne ⟨hd, ht⟩
  constructor
  · exact h'.listed
  · intro q hq
    by_cases hqp : q = p
    · subst hqp
      simp only [setTrack_self] at hq ⊢
      exact h'.valid q hq
    · simp only [setTrack_of_ne _ hqp] at hq ⊢
      exact h'.valid q hq
  · intro q r
    have hsame : ∀ x, ((s'.setTrack p { s'.track p with
        data := patch (s'.track p).data (bno % (dtypes (fmt (dtodrv dev))).nsecs) buf
        dirty := true }).track x).drv = (s'.track x).drv ∧ ((s'.setTrack p { s'.track p with
        data := patch (s'.track p).data (bno % (dtypes (fmt (dtodrv dev))).nsecs) buf
        dirty := true }).track x).trk = (s'.track x).trk := fun x => by
      by_cases hx : x = p
      · subst hx
        simp only [setTrack_self, and_self]
      · simp only [setTrack_of_ne _ hx, and_self]
    simp only [(hsame q).1, (hsame q).2, (hsame r).1, (hsame r).2]
    exact h'.distinct q r
  · intro q d t hqd hqt i hi
    by_cases hqp : q = p
    · subst hqp
      simp only [setTrack_self] at hqd hqt ⊢
      obtain rfl : dtodrv dev = d := Int.ofNat.inj (hd.symm.trans hqd)
      obtain rfl : bno / (dtypes (fmt (dtodrv dev))).nsecs = t := Int.ofNat.inj (ht.symm.trans hqt)
      rw [content_write buf hi, patch, h'.cached q _ _ hd ht i hi]
      simp only [true_and]
    · simp only [setTrack_of_ne _ hqp] at hqd hqt ⊢
      rw [h'.cached q d t hqd hqt i hi, hother d t _ i hi]
      rintro ⟨hpd, hpt⟩
      exact hqp (h'.distinct p q hp (hpd.trans hqd.symm) (hpt.trans hqt.symm)).symm
  · intro d t hclean i hi
    by_cases hpt : (s'.track p).drv = d ∧ (s'.track p).trk = t
    · have hdirty := hclean p (by simpa only [setTrack_self] using hpt.1)
        (by simpa only [setTrack_self] using hpt.2)
      simp only [setTrack_self, Bool.true_eq_false] at hdirty
    · rw [← hother d t hpt i hi]
      refine h'.disk d t (fun q hqd hqt => ?_) i hi
      have hqp : q ≠ p := fun he => hpt (he ▸ ⟨hqd, hqt⟩)
      have hq := hclean q
      simp only [setTrack_of_ne _ hqp] at hq
      exact hq hqd hqt

/-- A turn of `flush` writes back and forgets the buffer if it is of the drive. -/
theorem Coherent.flushTrack (h : Coherent fmt s store) (drv : ℕ) (p : TrackId) :
    Coherent fmt (s.flushTrack drv p) store ∧ (s.flushTrack drv p).chain = s.chain ∧
      ∀ q, ((s.flushTrack drv p).track q).drv = drv → (s.track q).drv = drv ∧ q ≠ p := by
  by_cases hd : (s.track p).drv = drv
  · obtain ⟨h₁, hsafe⟩ := @Coherent.writeBack fmt s store h p ((s.track p).dirty = true) _
      (fun _ => ne_nodrv hd) fun hn _ => by simpa using hn
    rw [Cache.flushTrack, if_pos hd]
    generalize hs₁ : (if (s.track p).dirty = true then s.put (s.track p) else s) = s₁ at h₁ hsafe
    have ht₁ : s₁.track = s.track ∧ s₁.chain = s.chain := by
      rw [← hs₁]
      split_ifs <;> exact ⟨rfl, rfl⟩
    refine ⟨h₁.replace (by rwa [ht₁.1]) (fun hn => absurd rfl hn) (fun _ _ hn => absurd rfl hn)
      fun d k hn => absurd rfl (ne_nodrv hn), ht₁.2, fun q hq => ?_⟩
    have hqp : q ≠ p := fun he => by
      rw [he, setTrack_self] at hq
      exact absurd rfl (ne_nodrv hq)
    rw [setTrack_of_ne _ hqp, ht₁.1] at hq
    exact ⟨hq, hqp⟩
  · rw [Cache.flushTrack, if_neg hd]
    exact ⟨h, rfl, fun q hq => ⟨hq, fun he => hd (he ▸ hq)⟩⟩

/-- The loop of `flush` leaves no buffer of the drive, if those already visited
are none. -/
theorem Coherent.flushFrom {l : List TrackId} {drv n i : ℕ} (h : Coherent fmt s store)
    (hs : s.chain.Spells l) (hn : l.length ≤ i + n)
    (hdone : ∀ k < i, ∀ q, l[k]? = some q → (s.track q).drv ≠ drv) :
    Coherent fmt (flushFrom drv n l[i]? s) store ∧
      ∀ (k : ℕ) (q : TrackId), l[k]? = some q → ((flushFrom drv n l[i]? s).track q).drv ≠ drv := by
  induction n generalizing i s with
  | zero =>
      refine ⟨h, fun k q hq => hdone k ?_ q hq⟩
      have := (List.getElem?_eq_some_iff.mp hq).1
      omega
  | succ n ih =>
      cases hi : l[i]? with
      | none =>
          refine ⟨h, fun k q hq => hdone k ?_ q hq⟩
          have hk := (List.getElem?_eq_some_iff.mp hq).1
          have hlen := List.getElem?_eq_none_iff.mp hi
          omega
      | some tp =>
          obtain ⟨h₁, hchain, hforget⟩ := h.flushTrack drv tp
          rw [Cache.flushFrom, hchain, hs.next i tp hi]
          refine ih h₁ (hchain ▸ hs) (by omega) fun k hk q hq hd => ?_
          obtain ⟨hdrv, hne⟩ := hforget q hd
          rcases Nat.lt_succ_iff_lt_or_eq.mp hk with hlt | rfl
          · exact hdone k hlt q hq hdrv
          · exact hne (Option.some.inj (hq.symm.trans hi))

/-- The blocks as the disks hold them, without the cache. -/
def blocks (fmt : ℕ → Fin NTYPES) (s : Cache) : Store := fun drv bno i =>
  s.disk drv (bno / (dtypes (fmt drv)).nsecs) (bno % (dtypes (fmt drv)).nsecs * BPSEC + i)

/-- After a flush the disk of the drive has everything and the cache nothing. -/
theorem Coherent.flush (h : Coherent fmt s store) (drv : ℕ) :
    Coherent fmt (s.flush drv) store ∧ (∀ q, ((s.flush drv).track q).drv ≠ drv) ∧
      ∀ bno < (dtypes (fmt drv)).nblocks, ∀ i < BPSEC,
        (s.flush drv).blocks fmt drv bno i = store drv bno i := by
  obtain ⟨l, hs, hn, hl⟩ := h.listed
  obtain ⟨h', hnone⟩ := @Coherent.flushFrom fmt s store l drv TBCLEN 0 h hs
    (hl.trans (Nat.zero_add _).symm).le fun k hk => absurd hk (Nat.not_lt_zero k)
  rw [← hs.head] at h' hnone
  have hgone : ∀ q, ((s.flush drv).track q).drv ≠ drv := fun q => by
    obtain ⟨k, hk⟩ := List.mem_iff_getElem?.mp (Listed.mem ⟨hs, hn, hl⟩ q)
    exact hnone k q hk
  refine ⟨h', hgone, fun bno hb i hi => ?_⟩
  have hdisk := h'.disk drv (bno / (dtypes (fmt drv)).nsecs) (fun q hq => absurd hq (hgone q))
  exact (hdisk _ (@block_lt _ bno i (nsecs_pos hb) hi)).trans (content_block hi)

end

/-! ### Whole runs -/

/-- What can be asked of the cache. -/
inductive CacheEvent
  | read (dev bno : ℕ)
  | write (dev : ℕ) (buf : ℕ → Byte) (bno : ℕ)
  | flush (drv : ℕ)

def step (s : Cache) : CacheEvent → Cache
  | .read dev bno => (s.read dev bno true).2
  | .write dev buf bno => (s.write dev buf bno true).2
  | .flush drv => s.flush drv

/-- What was last written to each block, whatever the cache does. -/
def Store.step (store : Store) : CacheEvent → Store
  | .write dev buf bno =>
      if bno < (dtypes (dtotype dev)).nblocks then store.write (dtodrv dev) bno buf else store
  | _ => store

/-- The drive is used in its one format. -/
def Fits (fmt : ℕ → Fin NTYPES) : CacheEvent → Prop
  | .read dev _ => dtotype dev = fmt (dtodrv dev)
  | .write dev _ _ => dtotype dev = fmt (dtodrv dev)
  | .flush _ => True

/-- What a request owes: a read the latest data, a flush a disk that is up to
date and a cache without the drive. -/
def Delivers (fmt : ℕ → Fin NTYPES) (s : Cache) (store : Store) : CacheEvent → Prop
  | .read dev bno => bno < (dtypes (dtotype dev)).nblocks →
      ∃ buf, (s.read dev bno true).1 = some buf ∧ ∀ i < BPSEC, buf i = store (dtodrv dev) bno i
  | .write _ _ _ => True
  | .flush drv => (∀ q, ((s.flush drv).track q).drv ≠ drv) ∧
      ∀ bno < (dtypes (fmt drv)).nblocks, ∀ i < BPSEC,
        (s.flush drv).blocks fmt drv bno i = store drv bno i

/-- No two buffers hold the same drive, track and format. -/
def OneEach (s : Cache) : Prop :=
  ∀ p q, (s.track p).drv ≠ NODRV → (s.track p).drv = (s.track q).drv →
    (s.track p).trk = (s.track q).trk → (s.track p).type = (s.track q).type → p = q

section
variable {fmt : ℕ → Fin NTYPES} {s : Cache} {store : Store}

theorem Coherent.oneEach (h : Coherent fmt s store) : s.OneEach :=
  fun p q hp hd ht _ => h.distinct p q hp hd ht

theorem Coherent.step (h : Coherent fmt s store) {e : CacheEvent} (he : Fits fmt e) :
    Coherent fmt (s.step e) (store.step e) := by
  cases e with
  | read dev bno => exact (h.read he bno).1
  | write dev buf bno =>
      rw [Cache.step, Store.step]
      split_ifs with hb
      · exact h.write he buf hb
      · rw [Cache.write, if_pos (Nat.le_of_not_lt hb)]
        exact h
  | flush drv => exact (h.flush drv).1

theorem Coherent.delivers (h : Coherent fmt s store) {e : CacheEvent} (he : Fits fmt e) :
    Delivers fmt s store e := by
  cases e with
  | read dev bno => exact (h.read he bno).2
  | write dev buf bno => trivial
  | flush drv => exact (h.flush drv).2

/-- A fresh cache and the disks as they are. -/
theorem tbcinit_coherent (fmt : ℕ → Fin NTYPES) (tracks : TrackId → Track)
    (disk : ℕ → ℕ → ℕ → Byte) :
    Coherent fmt (tbcinit tracks disk) ((tbcinit tracks disk).blocks fmt) where
  listed := by
    refine ⟨List.finRange TBCLEN, ⟨rfl, fun i p hp => ?_⟩, List.nodup_finRange _,
      List.length_finRange⟩
    obtain ⟨hlt, rfl⟩ := List.getElem?_eq_some_iff.mp hp
    rw [List.length_finRange] at hlt
    by_cases hnext : i + 1 < TBCLEN
    · rw [List.getElem?_eq_getElem (by rwa [List.length_finRange])]
      simp [tbcinit, hnext]
    · rw [List.getElem?_eq_none (by rw [List.length_finRange]; exact Nat.le_of_not_lt hnext)]
      simp [tbcinit, hnext]
  valid p hp := absurd rfl hp
  distinct p q hp := absurd rfl hp
  cached p d t hd := absurd rfl (ne_nodrv hd)
  disk d t _ i hi := by
    have hsec : i / BPSEC < (dtypes (fmt d)).nsecs := (Nat.div_lt_iff_lt_mul (by decide)).mpr hi
    have hdiv : (t * (dtypes (fmt d)).nsecs + i / BPSEC) / (dtypes (fmt d)).nsecs = t := by
      rw [Nat.mul_comm, Nat.mul_add_div (Nat.zero_lt_of_lt hsec), Nat.div_eq_of_lt hsec,
        Nat.add_zero]
    have hmod : (t * (dtypes (fmt d)).nsecs + i / BPSEC) % (dtypes (fmt d)).nsecs = i / BPSEC := by
      rw [Nat.mul_comm, Nat.mul_add_mod, Nat.mod_eq_of_lt hsec]
    rw [content, blocks, hdiv, hmod, Nat.mul_comm, Nat.div_add_mod]

end

/-- Over every run of requests, with one format for each drive, every read
returns what was last written to its block, or what the disk held, every flush
leaves the disk up to date and nothing of the drive in the cache, and the list
contains every buffer once, no two of them with the same track. -/
theorem track_cache (fmt : ℕ → Fin NTYPES) (tracks : TrackId → Track)
    (disk : ℕ → ℕ → ℕ → Byte) (es : List CacheEvent) (hfit : ∀ e ∈ es, Fits fmt e) :
    Schedule.Every (fun (s : Cache × Store) e => (s.1.step e, s.2.step e))
      (fun s e => Delivers fmt s.1 s.2 e ∧ (s.1.step e).Listed ∧ (s.1.step e).OneEach)
      (tbcinit tracks disk, (tbcinit tracks disk).blocks fmt) es := by
  refine Schedule.every_of_invariant (fun s : Cache × Store => Coherent fmt s.1 s.2)
    (fun s e h (he : Fits fmt e) => h.step he)
    (fun s e h he => ⟨h.delivers he, (h.step he).listed, (h.step he).oneEach⟩)
    (tbcinit_coherent fmt tracks disk) ?_
  exact Schedule.every_of_forall_mem hfit _

/-- A block is written, read back, and written to its disk. -/
theorem track_cache_one :
    Schedule.Every (fun (s : Cache × Store) e => (s.1.step e, s.2.step e))
      (fun s e => Delivers (fun _ => 0) s.1 s.2 e ∧ (s.1.step e).Listed ∧ (s.1.step e).OneEach)
      (tbcinit (fun _ => ⟨0, 0, 0, false, false, fun _ => 0⟩) fun _ _ _ => 0,
        (tbcinit (fun _ => ⟨0, 0, 0, false, false, fun _ => 0⟩) fun _ _ _ => 0).blocks fun _ => 0)
      [.write 32 (fun i => BitVec.ofNat 8 i) 7, .read 32 7, .flush 1] :=
  track_cache (fun _ => 0) _ _ _ (by
    simp only [List.mem_cons, List.not_mem_nil, or_false, forall_eq_or_imp, forall_eq]
    exact ⟨(by decide : dtotype 32 = 0), (by decide : dtotype 32 = 0), trivial⟩)

end Cache
end HydraAmix.Floppy
