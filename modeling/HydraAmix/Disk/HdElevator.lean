import HydraAmix.Disk.HdQueue

/-!
# What the queue of the ST506 driver keeps

The links of the queue are right in every run. `NTRY` is kept as long as `b_errcnt`,
which all requests share, counts the failures of the request that fails: it goes back to
0 when any request arrives and stays what it is when a request is completed.
-/
namespace HydraAmix.Disk.Hd
open Schedule Jb CircularList

namespace Hdctab

/-- One if the buffer is the one that a command is out for. -/
def flying (tp : Hdctab) (bp : ℕ) : ℕ := if tp.active ≠ 0 ∧ tp.acts = some bp then 1 else 0

/-- While every command for a buffer failed, they were fewer than `NTRY`. -/
def Tries (tp : Hdctab) (bp : ℕ) : Prop :=
  tp.failed bp + tp.flying bp ≤ tp.issued bp ∧
    (tp.issued bp = tp.failed bp + tp.flying bp → tp.failed bp < NTRY)

/-- The invariant; the part about the tries only where `R` says so. -/
structure Holds (R : Prop) (tp : Hdctab) (l : List ℕ) : Prop extends Queued tp l where
  room : l.length ≤ tp.qcnt
  busy : tp.active ≠ 0 → tp.acts ≠ none
  tries : R → ∀ bp ∈ l, tp.Tries bp

variable {R : Prop} {tp : Hdctab} {l : List ℕ} {bp : ℕ}

theorem flying_idle (h : tp.active = 0) (bp : ℕ) : tp.flying bp = 0 :=
  if_neg fun hf => hf.1 h

theorem flying_other (h : tp.acts ≠ some bp) : tp.flying bp = 0 := if_neg fun hf => h hf.2

theorem flying_congr {tq : Hdctab} (ha : tq.active = tp.active)
    (h : tq.acts = some bp ↔ tp.acts = some bp) : tq.flying bp = tp.flying bp :=
  if_congr (and_congr (by rw [ha]) h) rfl rfl

theorem Tries.of_same {tq : Hdctab} (h : tp.Tries bp) (hf : tq.failed bp = tp.failed bp)
    (hi : tq.issued bp = tp.issued bp) (hfly : tq.flying bp = tp.flying bp) : tq.Tries bp := by
  unfold Tries
  rwa [hf, hi, hfly]

theorem has_iff (h : Queued tp l) (bp : ℕ) : tp.Has bp ↔ bp ∈ l := by
  have honce := h.once bp
  rw [Has, ← List.count_pos_iff]
  omega

theorem Holds.hdstart (h : Holds R tp l) : Holds R tp.hdstart l := by
  unfold Hdctab.hdstart
  split
  · exact h
  case isFalse hidle =>
    have hidle : tp.active = 0 := not_not.mp hidle
    split
    · exact h
    case h_2 bp hacts =>
      refine ⟨⟨h.spells, h.nodup, h.header, h.acts, h.once⟩, h.room, ?_, ?_⟩
      · intro _ hnone
        exact Option.some_ne_none bp (hacts.symm.trans hnone)
      · intro hR x hx
        obtain ⟨hle, hlt⟩ := h.tries hR x hx
        rw [flying_idle hidle] at hle hlt
        by_cases hxb : x = bp
        · subst hxb
          have hfly : flying { tp with
              active := tp.active + 1, command := some (tp.buf x).hdcom
              issued := Function.update tp.issued x (tp.issued x + 1) } x = 1 :=
            if_pos ⟨Nat.succ_ne_zero _, hacts⟩
          rw [Tries, hfly]
          dsimp only
          rw [Function.update_self]
          refine ⟨by omega, fun he => hlt (by omega)⟩
        · apply (h.tries hR x hx).of_same
          · rfl
          · exact Function.update_of_ne hxb ..
          · rw [flying_idle hidle, flying_other]
            change tp.acts ≠ some x
            rw [hacts]
            exact fun he => hxb (Option.some.inj he).symm

theorem mem_middle_of_mem {l₁ l₂ : List ℕ} {x : ℕ} (h : x ∈ l₁ ++ l₂) : x ∈ l₁ ++ bp :: l₂ :=
  List.perm_middle.mem_iff.mpr (List.mem_cons_of_mem bp h)

/-- Only the new buffer can come to be at `acts`. -/
theorem first_acts {acts : Option ℕ} {x : ℕ} (hx : x ≠ bp) :
    (if acts = none then some bp else acts) = some x ↔ acts = some x := by
  split
  case isTrue hnone =>
    rw [hnone]
    exact ⟨fun he => absurd (Option.some.inj he).symm hx, fun he => absurd he.symm
      (Option.some_ne_none x)⟩
  case isFalse => exact Iff.rfl

/-- A buffer that the driver does not have goes before the first one that is not above it. -/
theorem Holds.hdinsq (h : Holds R tp l) (r : Request) (hnot : r.bp ∉ l) :
    ∃ l', Holds R (Hdctab.hdinsq { tp with
      qcnt := tp.qcnt + 1
      buf := Function.update tp.buf r.bp { r.buf with resid := r.buf.bcount }
      came := r.bp :: tp.came
      issued := Function.update tp.issued r.bp 0
      failed := Function.update tp.failed r.bp 0 } r.bp) l' := by
  unfold Hdctab.hdinsq
  dsimp only
  generalize hp : (fun xp => decide
    ((Function.update tp.buf r.bp { r.buf with resid := r.buf.bcount } r.bp).blkno <
      (Function.update tp.buf r.bp { r.buf with resid := r.buf.bcount } xp).blkno)) = p
  have hsplit : l.takeWhile p ++ l.dropWhile p = l := List.takeWhile_append_dropWhile
  have hsearch : tp.links.search p (tp.qcnt + 1 + 1) none = (l.dropWhile p).head? := by
    have hspells : tp.links.Spells ([] ++ l) := h.spells
    have hroom := h.room
    exact hspells.search p (by omega)
  rw [hsearch]
  have hmid : (r.bp :: (l.takeWhile p ++ l.dropWhile p)).Nodup := by
    rw [hsplit]
    exact List.nodup_cons.mpr ⟨hnot, h.nodup⟩
  have hnodup := List.nodup_middle.mpr hmid
  have hback : ∀ x ∈ l.takeWhile p ++ r.bp :: l.dropWhile p, x ≠ r.bp → x ∈ l := by
    intro x hx hxb
    rw [← hsplit]
    exact (List.mem_cons.mp (List.perm_middle.mem_iff.mp hx)).resolve_left hxb
  refine ⟨l.takeWhile p ++ r.bp :: l.dropWhile p, ⟨⟨?_, hnodup, ?_, ?_, ?_⟩, ?_, ?_, ?_⟩⟩
  · exact Links.Spells.insert (by rw [hsplit]; exact h.spells) hnodup
  · constructor
    · intro hnone
      split at hnone
      · exact absurd hnone (Option.some_ne_none r.bp)
      case isFalse hsome => exact absurd hnone hsome
    · intro hnil
      exact absurd (List.append_eq_nil_iff.mp hnil).2 (List.cons_ne_nil _ _)
  · intro x hx
    by_cases hxb : x = r.bp
    · rw [hxb]
      exact List.mem_append_right _ List.mem_cons_self
    · have hmem := h.acts x ((first_acts hxb).mp hx)
      rw [← hsplit] at hmem
      exact mem_middle_of_mem hmem
  · intro x
    have honce := h.once x
    rw [← hsplit, List.count_append] at honce
    dsimp only
    rw [List.count_append, List.count_cons, List.count_cons]
    omega
  · have hlen := congrArg List.length hsplit
    have hroom := h.room
    simp only [List.length_append, List.length_cons] at hlen ⊢
    omega
  · intro _
    split
    · exact Option.some_ne_none r.bp
    case isFalse hsome => exact hsome
  · intro hR x hx
    by_cases hxb : x = r.bp
    · subst hxb
      rw [Tries, flying]
      dsimp only
      rw [Function.update_self, Function.update_self, if_neg]
      · exact ⟨Nat.le_refl 0, fun _ => by decide⟩
      · rintro ⟨hbusy, he⟩
        rw [if_neg (h.busy hbusy)] at he
        exact hnot (h.acts r.bp he)
    · apply (h.tries hR x (hback x hx hxb)).of_same
      · exact Function.update_of_ne hxb ..
      · exact Function.update_of_ne hxb ..
      · exact flying_congr rfl (first_acts hxb)

theorem Holds.hdstrategy (h : Holds R tp l) (r : Request) : ∃ l', Holds R (tp.hdstrategy r) l' := by
  unfold Hdctab.hdstrategy
  split
  · exact ⟨l, h⟩
  case isFalse hhas =>
    obtain ⟨l', hl'⟩ := h.hdinsq r fun hb => hhas ((has_iff h.toQueued r.bp).mpr hb)
    dsimp only
    split
    · exact ⟨l', hl'.hdstart⟩
    · exact ⟨l', hl'⟩

theorem Holds.calls (h : Holds R tp l) (calls : List Request) :
    ∃ l', Holds R (calls.foldl Hdctab.hdstrategy tp) l' := by
  induction calls generalizing tp l with
  | nil => exact ⟨l, h⟩
  | cons r calls ih =>
      obtain ⟨l', hl'⟩ := h.hdstrategy r
      exact ih hl'

/-- `acts` moves to a neighbour of the buffer that leaves, if it has one. -/
theorem hdremq_acts {l₁ l₂ : List ℕ} (h : tp.links.Spells (l₁ ++ bp :: l₂))
    (hn : (l₁ ++ bp :: l₂).Nodup) :
    ((tp.hdremq bp).acts = none ↔ l₁ ++ l₂ = []) ∧
      ∀ x, (tp.hdremq bp).acts = some x → x ∈ l₁ ++ l₂ := by
  obtain ⟨hforw, hback⟩ := h.remove_self hn
  have hfirst : ∀ x, l₂.head? = some x → x ∈ l₁ ++ l₂ := fun x hx =>
    List.mem_append_right l₁ (List.mem_of_head? hx)
  have hlast : ∀ x, l₁.getLast? = some x → x ∈ l₁ ++ l₂ := fun x hx =>
    List.mem_append_left l₂ (List.mem_of_getLast? hx)
  have hnil : l₁ ++ l₂ = [] ↔ l₁.getLast? = none ∧ l₂.head? = none := by
    rw [List.append_eq_nil_iff, List.getLast?_eq_none_iff, List.head?_eq_none_iff]
  unfold hdremq next
  dsimp only
  rw [hforw, hback, hnil]
  cases hd : tp.dirn with
  | true =>
      cases hx : l₂.head? with
      | none => exact ⟨by simp, by simpa using hlast⟩
      | some x => exact ⟨by simp, by simpa [hx] using hfirst⟩
  | false =>
      cases hx : l₁.getLast? with
      | none => exact ⟨by simp, by simpa using hfirst⟩
      | some x => exact ⟨by simp, by simpa [hx] using hlast⟩

theorem hdremq_eq (tp : Hdctab) (bp : ℕ) : tp.hdremq bp = { tp with
    links := tp.links.remove bp
    acts := (tp.hdremq bp).acts
    dirn := (tp.hdremq bp).dirn } := by
  unfold hdremq
  dsimp only
  by_cases hnone : ({ tp with links := tp.links.remove bp }.next bp).acts = none
  · rw [if_pos hnone]
    rfl
  · rw [if_neg hnone]
    rfl

/-- `hdremq` and `hddone` of the request at `acts`. -/
theorem complete (h : Queued tp l) (hroom : l.length ≤ tp.qcnt) (hidle : tp.active = 0)
    (hacts : tp.acts = some bp) (htries : R → ∀ x ∈ l, x ≠ bp → tp.Tries x)
    (calls : List Request) : ∃ l', Holds R ((tp.hdremq bp).hddone bp calls) l' := by
  obtain ⟨l₁, l₂, rfl⟩ := List.append_of_mem (h.acts bp hacts)
  obtain ⟨hbp, hnodup⟩ := List.nodup_cons.mp (List.nodup_middle.mp h.nodup)
  obtain ⟨hnone, hsome⟩ := hdremq_acts h.spells h.nodup
  have hleft : Holds R { tp.hdremq bp with
      iodone := (bp, ((tp.hdremq bp).buf bp).error) :: (tp.hdremq bp).iodone } (l₁ ++ l₂) := by
    generalize ha : (tp.hdremq bp).acts = acts at hnone hsome
    rw [hdremq_eq, ha]
    refine ⟨⟨h.spells.remove h.nodup, hnodup, hnone, hsome, ?_⟩, ?_, ?_, ?_⟩
    · intro x
      have honce := h.once x
      rw [List.count_append, List.count_cons] at honce
      dsimp only
      rw [List.map_cons, List.count_cons, List.count_append]
      dsimp only
      omega
    · rw [List.length_append, List.length_cons] at hroom
      rw [List.length_append]
      dsimp only
      omega
    · exact fun hbusy => absurd hidle hbusy
    · intro hR x hx
      have hne : x ≠ bp := fun he => hbp (he ▸ hx)
      apply (htries hR x (mem_middle_of_mem hx) hne).of_same
      · rfl
      · rfl
      · rw [flying_idle hidle, flying_idle]
        exact hidle
  exact hleft.calls calls

/-- The command that was out has ended. -/
theorem Holds.landed (h : Holds R tp l) (hbusy : tp.active ≠ 0) (hacts : tp.acts = some bp) :
    (R → tp.failed bp + 1 ≤ tp.issued bp ∧
      (tp.issued bp = tp.failed bp + 1 → tp.failed bp < NTRY)) ∧
    (R → ∀ x ∈ l, x ≠ bp → tp.failed x ≤ tp.issued x ∧
      (tp.issued x = tp.failed x → tp.failed x < NTRY)) := by
  constructor
  · intro hR
    have htries := h.tries hR bp (h.acts bp hacts)
    rwa [Tries, flying, if_pos ⟨hbusy, hacts⟩] at htries
  · intro hR x hx hxb
    have htries := h.tries hR x hx
    rwa [Tries, flying_other] at htries
    rw [hacts]
    exact fun he => hxb (Option.some.inj he).symm

/-- The request of the command that has ended is completed, or is to go out again. -/
theorem Holds.hdend (h : Holds R tp l) (errs : Byte) (calls : List Request)
    (hown : R → OwnCount tp (.intr errs calls)) (hbusy : tp.active ≠ 0)
    (hacts : tp.acts = some bp) :
    ∃ l', Holds R ({ tp with active := 0 }.hdend bp errs calls) l' := by
  obtain ⟨hmine, hothers⟩ := h.landed hbusy hacts
  unfold Hdctab.hdend
  dsimp only
  split
  case isTrue =>
    generalize (if MAXTRAN * 512 ≤ (tp.buf bp).resid then MAXTRAN * 512
      else (tp.buf bp).resid) = nb
    split
    · apply complete (l := l)
      · exact ⟨h.spells, h.nodup, h.header, h.acts, h.once⟩
      · exact h.room
      · rfl
      · exact hacts
      · intro hR x hx hxb
        rw [Tries, flying_idle (by rfl)]
        exact hothers hR x hx hxb
    · refine ⟨l, ⟨h.spells, h.nodup, h.header, h.acts, h.once⟩, h.room, ?_, ?_⟩
      · exact fun hne => absurd rfl hne
      · intro hR x hx
        rw [Tries, flying_idle (by rfl)]
        by_cases hxb : x = bp
        · subst hxb
          obtain ⟨hle, -⟩ := hmine hR
          dsimp only
          exact ⟨by omega, fun he => by omega⟩
        · exact hothers hR x hx hxb
  case isFalse herr =>
    split
    case isTrue hretry =>
      refine ⟨l, ⟨h.spells, h.nodup, h.header, h.acts, h.once⟩, h.room, ?_, ?_⟩
      · exact fun hne => absurd rfl hne
      · intro hR x hx
        rw [Tries, flying_idle (by rfl)]
        dsimp only
        by_cases hxb : x = bp
        · subst hxb
          rw [Function.update_self]
          obtain ⟨hle, -⟩ := hmine hR
          refine ⟨by omega, fun he => ?_⟩
          have hcount := hown hR herr hbusy x hacts he
          change tp.failed x + 1 < NTRY
          rwa [← hcount]
        · rw [Function.update_of_ne hxb]
          exact hothers hR x hx hxb
    case isFalse =>
      apply complete (l := l)
      · exact ⟨h.spells, h.nodup, h.header, h.acts, h.once⟩
      · exact h.room
      · rfl
      · exact hacts
      · intro hR x hx hxb
        rw [Tries, flying_idle (by rfl)]
        dsimp only
        rw [Function.update_of_ne hxb]
        exact hothers hR x hx hxb

theorem Holds.hdintr (h : Holds R tp l) (errs : Byte) (calls : List Request)
    (hown : R → OwnCount tp (.intr errs calls)) : ∃ l', Holds R (tp.hdintr errs calls) l' := by
  unfold Hdctab.hdintr
  split
  · exact ⟨l, h⟩
  case isFalse hbusy =>
    dsimp only
    split
    case h_1 hnone => exact absurd hnone (h.busy hbusy)
    case h_2 bp hacts =>
      obtain ⟨l', hl'⟩ := h.hdend errs calls hown hbusy hacts
      exact ⟨l', hl'.hdstart⟩

/-! ### What an interrupt completes -/

theorem hdstart_iodone (tp : Hdctab) : tp.hdstart.iodone = tp.iodone := by
  unfold Hdctab.hdstart
  split
  · rfl
  · split <;> rfl

theorem hdstrategy_iodone (tp : Hdctab) (r : Request) : (tp.hdstrategy r).iodone = tp.iodone := by
  unfold Hdctab.hdstrategy
  split
  · rfl
  · dsimp only
    split
    · rw [hdstart_iodone]
      rfl
    · rfl

theorem hddone_iodone (tp : Hdctab) (bp : ℕ) (calls : List Request) :
    (tp.hddone bp calls).iodone = (bp, (tp.buf bp).error) :: tp.iodone := by
  unfold hddone
  generalize hs : { tp with iodone := (bp, (tp.buf bp).error) :: tp.iodone } = s
  have hlog : s.iodone = (bp, (tp.buf bp).error) :: tp.iodone := by rw [← hs]
  rw [← hlog]
  clear hs hlog
  induction calls generalizing s with
  | nil => rfl
  | cons r calls ih => rw [List.foldl_cons, ih, hdstrategy_iodone]

end Hdctab

/-! ### Runs -/

theorem opened_holds (R : Prop) (buf : ℕ → Jb.Buf) : Hdctab.Holds R (Hdctab.opened buf) [] := by
  refine ⟨⟨⟨?_, ?_⟩, List.nodup_nil, ?_, ?_, ?_⟩, Nat.zero_le _, ?_, ?_⟩
  · intro l₁ l₂ he
    obtain ⟨rfl, rfl⟩ := List.append_eq_nil_iff.mp he.symm
    rfl
  · intro l₁ l₂ he
    obtain ⟨rfl, rfl⟩ := List.append_eq_nil_iff.mp he.symm
    rfl
  · exact ⟨fun _ => rfl, fun _ => rfl⟩
  · intro bp hbp
    exact absurd hbp.symm (Option.some_ne_none bp)
  · exact fun _ => rfl
  · exact fun hne => absurd rfl hne
  · exact fun _ bp hbp => absurd hbp List.not_mem_nil

theorem step_holds {R : Prop} {tp : Hdctab} {e : Event} (h : ∃ l, Hdctab.Holds R tp l)
    (hown : R → OwnCount tp e) : ∃ l, Hdctab.Holds R (step tp e) l := by
  obtain ⟨l, h⟩ := h
  cases e with
  | strategy r => exact h.hdstrategy r
  | start => exact ⟨l, h.hdstart⟩
  | intr errs calls => exact h.hdintr errs calls hown

theorem tried_of_ownCount {tp : Hdctab} {e : Event} (h : ∃ l, Hdctab.Holds True tp l)
    (hown : OwnCount tp e) : Tried tp e := by
  obtain ⟨l, h⟩ := h
  cases e with
  | strategy => trivial
  | start => trivial
  | intr errs calls =>
      intro herr hbusy bp hacts htried
      have hcount := hown herr hbusy bp hacts htried
      have hfew := ((h.landed hbusy hacts).1 trivial).2 htried
      change (tp.hdintr errs calls).iodone = _
      unfold Hdctab.hdintr Hdctab.hdend
      rw [if_neg hbusy]
      dsimp only
      rw [hacts]
      dsimp only
      rw [if_neg herr, Hdctab.hdstart_iodone]
      split
      case isTrue hretry =>
        have hretry : tp.errcnt + 1 < 3 := hretry
        rw [if_neg (show tp.issued bp ≠ 3 by omega)]
      case isFalse hlast =>
        have hlast : ¬ tp.errcnt + 1 < 3 := hlast
        have hfew : tp.failed bp < 3 := hfew
        rw [if_pos (show tp.issued bp = 3 by omega), Hdctab.hddone_iodone, Hdctab.hdremq_eq]
        dsimp only
        rw [Function.update_self]

end HydraAmix.Disk.Hd
