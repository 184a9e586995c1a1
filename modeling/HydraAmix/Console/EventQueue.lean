import HydraAmix.Library.Ring
import HydraAmix.Library.Schedule
import HydraAmix.Library.Word

/-!
# The input events of a screen device

`scrkb` stores an event at interrupt level, `scrread` takes events out. The
copy to a reader's memory moves single bytes, because `uiomove` may sleep on a
page fault between any two of them and events arrive meanwhile. The state
records what `scrkb` stored, and for each event that left the ring whether it
was copied to a reader or dropped.
-/
namespace HydraAmix.Console
open Word HydraAmix.Ring Schedule

abbrev NIEVENT : ℕ := 100

structure Inputevent where
  type : Byte
  cls : Byte
  code : BitVec 16
  qualifiers : Long
  deriving DecidableEq

/-- The size of an event in memory. -/
abbrev EVENTSIZE : ℕ := 8

def Inputevent.bytes (e : Inputevent) : List Byte :=
  [e.type, e.cls, (e.code >>> 8).setWidth 8, e.code.setWidth 8, byte e.qualifiers 3,
    byte e.qualifiers 2, byte e.qualifiers 1, byte e.qualifiers 0]

/-- `IETYPE_MENU<<24`. -/
abbrev MENU_DATA : Long := 0x03000000

/-- The event that `scrkb` makes of its arguments. -/
def inputevent (data qual : Long) : Inputevent :=
  ⟨(data >>> 24).setWidth 8, (data >>> 16).setWidth 8, data.setWidth 16, qual⟩

/-- A call of `uiomove` under way: `nev` events from index `base` on, with the
bytes copied so far, those of whole events apart. -/
structure Transfer where
  base : ℕ
  nev : ℕ
  resid : ℕ
  done : List (List Byte)
  part : List Byte

structure EventQueue where
  ielist : ℕ → Inputevent
  ieh : ℕ
  iet : ℕ
  menupending : Bool
  /-- The calls of `uiomove`, by process. -/
  uio : ℕ → Option Transfer
  stored : List Inputevent
  /-- The events that left, those with `true` to a reader. -/
  gone : List (Bool × List Byte)

namespace EventQueue

def init : EventQueue := ⟨fun _ => ⟨0, 0, 0, 0⟩, 0, 0, false, fun _ => none, [], []⟩

def advance (i : ℕ) : ℕ := if NIEVENT ≤ i + 1 then 0 else i + 1

/-- `scrkb` ignores a menu event while another is waiting. -/
def Ignores (q : EventQueue) (data : Long) : Prop := data = MENU_DATA ∧ q.menupending = true

instance (q : EventQueue) (data : Long) : Decidable (q.Ignores data) := instDecidableAnd

def put (q : EventQueue) (e : Inputevent) : EventQueue :=
  let q' := { q with
    ielist := Function.update q.ielist q.ieh e
    ieh := advance q.ieh
    stored := q.stored ++ [e] }
  if q'.ieh = q'.iet then
    { q' with iet := advance q'.iet, gone := q'.gone ++ [(false, (q'.ielist q'.iet).bytes)] }
  else q'

def scrkb (q : EventQueue) (data qual : Long) : EventQueue :=
  if q.Ignores data then q
  else put { q with menupending := q.menupending || data == MENU_DATA } (inputevent data qual)

/-- The events of the next `uiomove`, those up to the end of the array at most. -/
def nev (q : EventQueue) : ℕ := if q.iet < q.ieh then q.ieh - q.iet else NIEVENT - q.iet

def setUio (q : EventQueue) (r : ℕ) (c : Option Transfer) : EventQueue :=
  { q with uio := Function.update q.uio r c }

/-- The head of the loop of `scrread`. -/
def readLoop (q : EventQueue) (r resid : ℕ) : EventQueue :=
  q.setUio r <|
    if q.ieh ≠ q.iet ∧ EVENTSIZE ≤ resid then
      some ⟨q.iet, min q.nev (resid / EVENTSIZE), resid, [], []⟩
    else none

/-- `scrread` up to the first `uiomove`; with nothing there it returns or sleeps. -/
def scrread (q : EventQueue) (r resid : ℕ) : EventQueue :=
  if q.ieh = q.iet then q else readLoop { q with menupending := false } r resid

/-- What follows a `uiomove` that succeeded. -/
def uiomoved (q : EventQueue) (r : ℕ) (c : Transfer) : EventQueue :=
  let iet := (q.iet + c.nev) % 256
  readLoop { q with
    iet := if NIEVENT ≤ iet then 0 else iet
    gone := q.gone ++ c.done.map (Prod.mk true) } r (c.resid - c.nev * EVENTSIZE)

/-- The next byte of a `uiomove`. -/
def uiomove (q : EventQueue) (r : ℕ) : EventQueue :=
  match q.uio r with
  | none => q
  | some c =>
      let part := c.part ++
        [((q.ielist (c.base + c.done.length)).bytes).getD c.part.length 0]
      if part.length < EVENTSIZE then q.setUio r (some { c with part := part })
      else
        let c := { c with done := c.done ++ [part], part := [] }
        if c.done.length < c.nev then q.setUio r (some c) else q.uiomoved r c

end EventQueue

/-- What happens: `scrkb` is called, a process that is not in `uiomove` calls
`scrread` or is woken in it, a byte is copied, or `uiomove` fails. -/
inductive QueueEvent where
  | kb (data qual : Long)
  | read (r resid : ℕ)
  | byte (r : ℕ)
  | fault (r : ℕ)

namespace EventQueue

def step (q : EventQueue) : QueueEvent → EventQueue
  | .kb data qual => q.scrkb data qual
  | .read r resid => if (q.uio r).isSome then q else q.scrread r resid
  | .byte r => q.uiomove r
  | .fault r => q.setUio r none

/-- The number of events in the ring, and the events. -/
def count (q : EventQueue) : ℕ := (q.ieh + NIEVENT - q.iet) % NIEVENT
def waiting (q : EventQueue) : List Inputevent := fetch 0 NIEVENT q.ielist q.iet q.count

/-- The indexes lie in the array, and the events that were stored are, in order
and once each, those that left, to a reader or dropped from the full ring, and
those that wait. -/
structure Delivers (q : EventQueue) : Prop where
  ieh : q.ieh < NIEVENT
  iet : q.iet < NIEVENT
  order : q.stored.map Inputevent.bytes = q.gone.map Prod.snd ++ q.waiting.map Inputevent.bytes

/-- No event is dropped during a `uiomove`, and no two of them overlap. -/
def Undisturbed (q : EventQueue) : QueueEvent → Prop
  | .kb data _ => q.Ignores data ∨ (advance q.ieh = q.iet → ∀ r, q.uio r = none)
  | .read r _ => ∀ r', r' ≠ r → q.uio r' = none
  | _ => True

/-- A `uiomove` has copied what stands in the ring. -/
structure Copying (q : EventQueue) (c : Transfer) : Prop where
  base : c.base = q.iet
  more : c.done.length < c.nev
  nev : c.nev ≤ q.count
  top : q.iet + c.nev ≤ NIEVENT
  done : c.done = (fetch 0 NIEVENT q.ielist q.iet c.done.length).map Inputevent.bytes
  part : c.part = (q.ielist (q.iet + c.done.length)).bytes.take c.part.length
  short : c.part.length < EVENTSIZE

structure Inv (q : EventQueue) : Prop extends q.Delivers where
  one : ∀ r r', q.uio r ≠ none → q.uio r' ≠ none → r = r'
  uio : ∀ r c, q.uio r = some c → q.Copying c

section
variable {q : EventQueue}

theorem advance_eq {i : ℕ} (h : i < NIEVENT) : advance i = (i + 1) % NIEVENT := by
  unfold advance
  split
  · rw [show i + 1 = NIEVENT by omega, Nat.mod_self]
  · rw [Nat.mod_eq_of_lt (by omega)]

theorem cell_of_lt {i : ℕ} (h : i < NIEVENT) : cell 0 NIEVENT i = i := by
  rw [cell, Nat.mod_eq_of_lt h, Nat.zero_add]

/-- The place of the next event is the one behind those that wait. -/
theorem cell_ieh (hh : q.ieh < NIEVENT) (ht : q.iet < NIEVENT) :
    cell 0 NIEVENT (q.iet + q.count) = q.ieh := by
  simp only [cell, count, NIEVENT] at *
  omega

/-- Storing behind the waiting events leaves them. -/
theorem fetch_put (hh : q.ieh < NIEVENT) (ht : q.iet < NIEVENT) (e : Inputevent) {k n : ℕ}
    (hk : k + n ≤ q.count) :
    fetch 0 NIEVENT (Function.update q.ielist q.ieh e) (q.iet + k) n =
      fetch 0 NIEVENT q.ielist (q.iet + k) n := by
  have hcount : q.count < NIEVENT := Nat.mod_lt _ (by decide)
  refine fetch_congr _ _ fun i hi => Function.update_of_ne (fun he => ?_) _ _
  rw [← cell_ieh hh ht] at he
  have := cell_inj 0 NIEVENT (by omega) (by omega) he
  omega

theorem fetch_put_all (hh : q.ieh < NIEVENT) (ht : q.iet < NIEVENT) (e : Inputevent) :
    fetch 0 NIEVENT (Function.update q.ielist q.ieh e) q.iet (q.count + 1) = q.waiting ++ [e] := by
  have hold := fetch_put hh ht e (k := 0) (n := q.count) (by omega)
  rw [Nat.add_zero] at hold
  rw [fetch_add, hold, fetch_succ, fetch_zero, cell_ieh hh ht, Function.update_self]
  rfl

theorem waiting_eq (q : EventQueue) : q.waiting =
    fetch 0 NIEVENT q.ielist q.iet ((q.ieh + NIEVENT - q.iet) % NIEVENT) := rfl

theorem put_delivers (h : q.Delivers) (e : Inputevent) : (q.put e).Delivers := by
  obtain ⟨hh, ht, ho⟩ := h
  have hall := fetch_put_all hh ht e
  have hadv := advance_eq hh
  have hlt : advance q.ieh < NIEVENT := hadv ▸ Nat.mod_lt _ (by decide)
  have hstored : (q.stored ++ [e]).map Inputevent.bytes =
      q.gone.map Prod.snd ++ (q.waiting ++ [e]).map Inputevent.bytes := by
    rw [List.map_append, List.map_append, ho, List.append_assoc]
  unfold put
  dsimp only
  split
  · rename_i hfull
    have hcount : q.count = 99 := by
      rw [hadv] at hfull
      simp only [count, NIEVENT] at *
      omega
    have hadv' := advance_eq ht
    have hlt' : advance q.iet < NIEVENT := hadv' ▸ Nat.mod_lt _ (by decide)
    refine ⟨hlt, hlt', ?_⟩
    have hnext : (advance q.ieh + NIEVENT - advance q.iet) % NIEVENT = 99 := by
      simp only [count, NIEVENT] at *
      omega
    have hpos : advance q.iet % NIEVENT = (q.iet + 1) % NIEVENT := by rw [hadv', Nat.mod_mod]
    rw [hcount, fetch_succ, cell_of_lt ht] at hall
    simp only [waiting, count]
    rw [hnext, hstored, ← hall, fetch_congr_pos 0 NIEVENT _ hpos, List.map_append, List.map_cons,
      List.append_assoc]
    rfl
  · rename_i hfull
    refine ⟨hlt, ht, ?_⟩
    have hnext : (advance q.ieh + NIEVENT - q.iet) % NIEVENT = q.count + 1 := by
      rw [hadv] at hfull ⊢
      simp only [count, NIEVENT] at *
      omega
    rw [waiting_eq]
    dsimp only
    rw [hnext, hall]
    exact hstored

/-- What does not drop an event leaves the copies valid. -/
theorem Copying.put {c : Transfer} (hc : q.Copying c) (hh : q.ieh < NIEVENT) (ht : q.iet < NIEVENT)
    (e : Inputevent) (hn : advance q.ieh ≠ q.iet) : (q.put e).Copying c := by
  have hadv := advance_eq hh
  have hle : c.done.length + 1 ≤ q.count := Nat.le_trans hc.more hc.nev
  have hnext : (advance q.ieh + NIEVENT - q.iet) % NIEVENT = q.count + 1 := by
    rw [hadv] at hn ⊢
    simp only [count, NIEVENT] at *
    omega
  have hfetch := fetch_put hh ht e (k := 0) (n := c.done.length) (by omega)
  have hcell := fetch_put hh ht e (k := c.done.length) (n := 1) hle
  have htop := hc.top
  have hmore := hc.more
  rw [fetch_succ, fetch_succ, fetch_zero, fetch_zero, List.cons.injEq,
    cell_of_lt (by omega)] at hcell
  have hput : q.put e = { q with
      ielist := Function.update q.ielist q.ieh e
      ieh := advance q.ieh
      stored := q.stored ++ [e] } := if_neg hn
  rw [hput]
  refine ⟨hc.base, hc.more, ?_, hc.top, hc.done.trans ?_, hc.part.trans ?_, hc.short⟩
  · have hnev := hc.nev
    rw [EventQueue.count]
    dsimp only
    omega
  · exact congrArg (List.map Inputevent.bytes) hfetch.symm
  · dsimp only
    rw [hcell.1]

theorem put_uio (q : EventQueue) (e : Inputevent) : (q.put e).uio = q.uio := by
  unfold EventQueue.put
  dsimp only
  split
  · rfl
  · rfl

theorem Inv.scrkb (h : q.Inv) {data : Long} (qual : Long)
    (hu : q.Ignores data ∨ (advance q.ieh = q.iet → ∀ r, q.uio r = none)) :
    (q.scrkb data qual).Inv := by
  unfold EventQueue.scrkb
  split
  · exact h
  · rename_i hig
    have hfull := hu.resolve_left hig
    have hq : Delivers { q with menupending := q.menupending || data == MENU_DATA } :=
      { h.toDelivers with }
    refine ⟨put_delivers hq _, fun r r' => ?_, fun r c hc => ?_⟩
    · rw [put_uio]
      exact h.one r r'
    · rw [put_uio] at hc
      have hcopy := h.uio r c hc
      refine Copying.put (q := { q with menupending := q.menupending || data == MENU_DATA })
        { hcopy with } h.ieh h.iet _ fun hfl => ?_
      rw [hfull hfl r] at hc
      exact Option.some_ne_none c hc.symm

theorem setUio_self (q : EventQueue) (r : ℕ) (t : Option Transfer) : (q.setUio r t).uio r = t := by
  simp [setUio]

theorem setUio_of_ne (q : EventQueue) {r r' : ℕ} (t : Option Transfer) (h : r' ≠ r) :
    (q.setUio r t).uio r' = q.uio r' := by
  simp [setUio, h]

/-- Setting one transfer while no other process has one. -/
theorem Inv.setUio (h : q.Delivers) {r : ℕ} {t : Option Transfer}
    (hone : ∀ r', r' ≠ r → q.uio r' = none) (ht : ∀ c, t = some c → q.Copying c) :
    (q.setUio r t).Inv := by
  have hnone : ∀ r', (q.setUio r t).uio r' ≠ none → r' = r := fun r' hr => by
    by_contra hne
    exact hr ((setUio_of_ne q t hne).trans (hone r' hne))
  refine { h with one := fun r' r'' h' h'' => (hnone r' h').trans (hnone r'' h'').symm, uio := ?_ }
  intro r' c hc
  obtain rfl := hnone r' (by rw [hc]; exact Option.some_ne_none c)
  rw [setUio_self] at hc
  exact { ht c hc with }

theorem nev_le (hh : q.ieh < NIEVENT) (ht : q.iet < NIEVENT) (hne : q.ieh ≠ q.iet) :
    0 < q.nev ∧ q.nev ≤ q.count ∧ q.iet + q.nev ≤ NIEVENT := by
  simp only [EventQueue.nev, count, NIEVENT] at *
  split <;> omega

theorem Inv.readLoop (h : q.Delivers) {r : ℕ} (resid : ℕ)
    (hone : ∀ r', r' ≠ r → q.uio r' = none) : (q.readLoop r resid).Inv := by
  refine Inv.setUio h hone fun c hc => ?_
  split at hc
  · rename_i hne
    obtain ⟨hpos, hle, htop⟩ := nev_le h.ieh h.iet hne.1
    rw [← Option.some.inj hc]
    have hevs : 0 < resid / EVENTSIZE := Nat.div_pos hne.2 (by decide)
    refine ⟨rfl, ?_, ?_, ?_, rfl, rfl, Nat.succ_pos 7⟩
    · exact Nat.lt_min.mpr ⟨hpos, hevs⟩
    · exact (Nat.min_le_left _ _).trans hle
    · exact (Nat.add_le_add_left (Nat.min_le_left _ _) _).trans htop
  · exact absurd hc.symm (Option.some_ne_none c)

theorem Inv.scrread (h : q.Inv) {r : ℕ} (resid : ℕ)
    (hone : ∀ r', r' ≠ r → q.uio r' = none) : (q.scrread r resid).Inv := by
  unfold EventQueue.scrread
  split
  · exact h
  · exact Inv.readLoop (q := { q with menupending := false }) { h.toDelivers with } resid hone

/-- The events of a transfer that ends have left the ring. -/
theorem Delivers.moved (h : q.Delivers) {n : ℕ} (hn : n ≤ q.count) (htop : q.iet + n ≤ NIEVENT)
    (hpos : 0 < n) : Delivers { q with
      iet := if NIEVENT ≤ (q.iet + n) % 256 then 0 else (q.iet + n) % 256
      gone := q.gone ++ ((fetch 0 NIEVENT q.ielist q.iet n).map Inputevent.bytes).map
        (Prod.mk true) } := by
  obtain ⟨hh, ht, ho⟩ := h
  have hmod : (q.iet + n) % 256 = q.iet + n := Nat.mod_eq_of_lt (by simp only [NIEVENT] at *; omega)
  have hiet : (if NIEVENT ≤ (q.iet + n) % 256 then 0 else (q.iet + n) % 256) =
      (q.iet + n) % NIEVENT := by
    rw [hmod]
    split
    · rw [show q.iet + n = NIEVENT by omega, Nat.mod_self]
    · rw [Nat.mod_eq_of_lt (by omega)]
  rw [hiet]
  refine ⟨hh, Nat.mod_lt _ (by decide), ?_⟩
  have hcount : (q.ieh + NIEVENT - (q.iet + n) % NIEVENT) % NIEVENT = q.count - n := by
    simp only [count, NIEVENT] at *
    omega
  have hsplit := fetch_add 0 NIEVENT q.ielist q.iet n (q.count - n)
  rw [Nat.add_sub_cancel' hn] at hsplit
  rw [ho, waiting, hsplit, waiting_eq]
  dsimp only
  rw [hcount, fetch_congr_pos 0 NIEVENT _ (Nat.mod_mod _ _)]
  simp [Function.comp_def]

theorem Inv.uiomove (h : q.Inv) (r : ℕ) : (q.uiomove r).Inv := by
  unfold EventQueue.uiomove
  cases hr : q.uio r with
  | none => exact h
  | some c =>
      have hc := h.uio r c hr
      have hone : ∀ r', r' ≠ r → q.uio r' = none := fun r' hne => by
        by_contra hsome
        exact hne (h.one r' r hsome (by rw [hr]; exact Option.some_ne_none c))
      have hlen : (q.ielist (q.iet + c.done.length)).bytes.length = EVENTSIZE := rfl
      have hpart : c.part ++ [((q.ielist (c.base + c.done.length)).bytes).getD c.part.length 0] =
          (q.ielist (q.iet + c.done.length)).bytes.take (c.part.length + 1) := by
        rw [hc.base, List.take_add_one, ← hc.part, List.getD_eq_getElem?_getD,
          List.getElem?_eq_getElem (hlen ▸ hc.short)]
        rfl
      have hpl := congrArg List.length hpart
      rw [List.length_take, hlen, List.length_append] at hpl
      have hshort := hc.short
      dsimp only
      rw [hpart]
      split
      · refine Inv.setUio h.toDelivers hone fun c' hc' => ?_
        rw [← Option.some.inj hc']
        rename_i hlt
        refine { hc with part := ?_, short := hlt }
        rw [List.length_take, hlen, Nat.min_eq_left (by omega)]
      · rename_i hfull
        rw [List.length_take, hlen] at hfull
        have hwhole : c.part.length + 1 = EVENTSIZE := by omega
        rw [hwhole, List.take_of_length_le (Nat.le_of_eq hlen)]
        have hdone : c.done ++ [(q.ielist (q.iet + c.done.length)).bytes] =
            (fetch 0 NIEVENT q.ielist q.iet (c.done.length + 1)).map Inputevent.bytes := by
          have htop := hc.top
          have hmore := hc.more
          rw [fetch_add, List.map_append, ← hc.done, fetch_succ, fetch_zero, cell_of_lt (by omega)]
          rfl
        split
        · rename_i hmore
          refine Inv.setUio h.toDelivers hone fun c' hc' => ?_
          rw [← Option.some.inj hc']
          refine ⟨hc.base, hmore, hc.nev, hc.top, ?_, rfl, Nat.succ_pos 7⟩
          dsimp only
          rw [hdone, List.length_map, fetch_length]
        · rename_i hmore
          have hall : c.done.length + 1 = c.nev := by
            have := hc.more
            simp only [List.length_append, List.length_singleton] at hmore
            omega
          rw [hall] at hdone
          unfold EventQueue.uiomoved
          dsimp only
          rw [hdone]
          refine Inv.readLoop ?_ _ hone
          exact h.toDelivers.moved hc.nev hc.top (Nat.lt_of_le_of_lt (Nat.zero_le _) hc.more)

theorem Inv.step (h : q.Inv) {e : QueueEvent} (hu : q.Undisturbed e) : (q.step e).Inv := by
  cases e with
  | kb data qual => exact h.scrkb qual hu
  | read r resid =>
      rw [EventQueue.step]
      split
      · exact h
      · exact h.scrread resid hu
  | byte r => exact h.uiomove r
  | fault r =>
      have hold : ∀ r' c, (q.setUio r none).uio r' = some c → q.uio r' = some c := fun r' c hc => by
        by_cases he : r' = r
        · rw [he, setUio_self] at hc
          exact absurd hc.symm (Option.some_ne_none c)
        · rwa [setUio_of_ne q none he] at hc
      have hne : ∀ r', (q.setUio r none).uio r' ≠ none → q.uio r' ≠ none := fun r' hr => by
        obtain ⟨c, hc⟩ := Option.ne_none_iff_exists'.mp hr
        rw [hold r' c hc]
        exact Option.some_ne_none c
      exact { h.toDelivers with
        one := fun r' r'' h' h'' => h.one r' r'' (hne r' h') (hne r'' h'')
        uio := fun r' c hc => { h.uio r' c (hold r' c hc) with } }

theorem inv_init : init.Inv where
  ieh := by decide
  iet := by decide
  order := rfl
  one _ _ h := absurd rfl h
  uio _ _ h := absurd h.symm (Option.some_ne_none _)

end

/-- In every run in which nothing is dropped from the ring during a `uiomove`
and no two of them overlap, what readers receive, what is dropped and what waits
are the events that were stored. -/
theorem delivers_events (es : List QueueEvent) (h : Every step Undisturbed init es) :
    (final step init es).Delivers :=
  (final_of_every Inv (fun _ _ hi hu => hi.step hu) inv_init h).toDelivers

theorem delivers_events_one :
    (final step init (.kb 5 6 :: .read 0 100 :: List.replicate 8 (.byte 0))).Delivers := by
  refine delivers_events _ ⟨.inr fun h => ?_, fun _ _ => rfl, ?_⟩
  · exact absurd h (by decide)
  · exact ⟨trivial, trivial, trivial, trivial, trivial, trivial, trivial, trivial, trivial⟩

/-- Ninety-nine events fill the ring; one more arrives during the read of one. -/
def overrun : List QueueEvent :=
  (List.range 99).map (fun i => .kb (BitVec.ofNat 32 i) 0) ++
    .read 0 8 :: .kb 99 0 :: List.replicate 8 (.byte 0)

theorem delivers_events_fails : ¬ ∀ es, (final step init es).Delivers := by
  intro h
  have ho := congrArg (List.drop 1 ∘ List.take 2) (h overrun).order
  exact absurd ho (by decide +kernel)

end EventQueue
end HydraAmix.Console
