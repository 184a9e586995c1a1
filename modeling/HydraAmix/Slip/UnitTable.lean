import HydraAmix.Library.Schedule
import HydraAmix.Slip.Line

/-!
# The table of the SLIP units

A unit joins two streams that come and go by themselves: the module that is
pushed on a tty, in whichever slot it finds free, and the interface that IP
opens, in the slot of its minor device. Either side uses the queue of the other
without asking whether it is there, and the search for a free slot looks at the
slot behind the last one before it sees that this is no slot.

STREAMS opens one stream for each minor device, so the queue of an interface
has the number of its minor device, and it closes and feeds open queues only. A
queue is open while it has a `q_ptr`; what `ttyclose` leaves in its goes away
with the queue.
-/
namespace HydraAmix.Slip
open Word Schedule

abbrev SLIP_MAXDEV : ℕ := 5

def EINVAL : ℕ := 22
def ENXIO : ℕ := 6

inductive Sflag where
  | MODOPEN
  | CLONEOPEN
  | other
  deriving DecidableEq, Repr

/-- A slot: the queues of both sides, and the fields of the routines. -/
structure SlipUnit where
  dlpiq : Option ℕ
  ttyq : Option ℕ
  dev : Slipdev

/-- `sliptab` with what lies behind it, and the `q_ptr` of the queues. -/
structure Sliptab where
  unit : ℕ → SlipUnit
  ttyPtr : ℕ → Option ℕ
  dlpiPtr : ℕ → Option ℕ

/-- What happens to the table. The answers of STREAMS to a message come with it,
to a request also whether others wait on its queue. -/
inductive TableEvent where
  | ttyopen (rq : ℕ) (sflag : Sflag)
  | ttyclose (rq : ℕ)
  | dlpiopen (mindev : ℕ) (sflag : Sflag)
  | dlpiclose (mindev : ℕ)
  | unitdataReq (mindev : ℕ) (first canput : Bool) (room : Option ℕ) (mp : List (List Byte))
  | ttyrput (q : ℕ) (inmp : List Input)

namespace Sliptab

/-- The loop of `ttyopen` from a slot on: the slots that it looks at, and the
one without a tty that it stops at. -/
def search (s : Sliptab) : ℕ → ℕ → List ℕ × Option ℕ
  | 0, _ => ([], none)
  | n + 1, slip =>
      if (s.unit slip).ttyq = none then ([slip], some slip)
      else if SLIP_MAXDEV ≤ slip then ([slip], none)
      else
        let r := s.search n (slip + 1)
        (slip :: r.1, r.2)

/-- All of the loop. -/
def searched (s : Sliptab) : List ℕ × Option ℕ := s.search (SLIP_MAXDEV + 1) 0

def setUnit (s : Sliptab) (i : ℕ) (u : SlipUnit) : Sliptab :=
  { s with unit := Function.update s.unit i u }

def setDev (s : Sliptab) (i : ℕ) (dev : Slipdev) : Sliptab :=
  s.setUnit i { s.unit i with dev := dev }

def ttyopen (s : Sliptab) (rq : ℕ) (sflag : Sflag) : Except ℕ Sliptab :=
  if sflag ≠ .MODOPEN then .error EINVAL
  else
    match s.ttyPtr rq with
    | some _ => .ok s
    | none =>
        match s.searched.2 with
        | none => .error ENXIO
        | some slip =>
            .ok { s.setUnit slip { s.unit slip with
                ttyq := some rq
                dev := (s.unit slip).dev.ttyopen } with
              ttyPtr := Function.update s.ttyPtr rq (some slip) }

def ttyclose (s : Sliptab) (rq : ℕ) : Sliptab :=
  match s.ttyPtr rq with
  | none => s
  | some slip =>
      { s.setUnit slip { s.unit slip with
          ttyq := none
          dev := (s.unit slip).dev.ttyclose } with
        ttyPtr := Function.update s.ttyPtr rq none }

def dlpiopen (s : Sliptab) (mindev : ℕ) (sflag : Sflag) : Except ℕ Sliptab :=
  if sflag = .MODOPEN then .error EINVAL
  else if sflag = .CLONEOPEN then .error EINVAL
  else if SLIP_MAXDEV ≤ mindev then .error EINVAL
  else
    match s.dlpiPtr mindev with
    | some _ => .ok s
    | none =>
        .ok { s.setUnit mindev { s.unit mindev with
            dlpiq := some mindev
            dev := { (s.unit mindev).dev with
              ipackets := 0, ierrors := 0, opackets := 0, oerrors := 0 } } with
          dlpiPtr := Function.update s.dlpiPtr mindev (some mindev) }

def dlpiclose (s : Sliptab) (mindev : ℕ) : Sliptab :=
  match s.dlpiPtr mindev with
  | none => s
  | some slip =>
      { s.setUnit slip { s.unit slip with
          dlpiq := none
          dev := { (s.unit slip).dev with
            ipackets := 0, ierrors := 0, opackets := 0, oerrors := 0 } } with
        dlpiPtr := Function.update s.dlpiPtr mindev none }

def step (s : Sliptab) : TableEvent → Sliptab
  | .ttyopen rq sflag => (s.ttyopen rq sflag).toOption.getD s
  | .ttyclose rq => s.ttyclose rq
  | .dlpiopen mindev sflag => (s.dlpiopen mindev sflag).toOption.getD s
  | .dlpiclose mindev => s.dlpiclose mindev
  | .unitdataReq mindev first canput room mp =>
      match s.dlpiPtr mindev with
      | none => s
      | some slip =>
          if first then s
          else s.setDev slip ((s.unit slip).dev.slipxmit canput room mp).1
  | .ttyrput q inmp =>
      match s.ttyPtr q with
      | none => s
      | some slip => s.setDev slip ((s.unit slip).dev.ttyrput inmp).1

/-- Nothing is open. What lies behind the table may be anything. -/
def init (behind : ℕ → SlipUnit) : Sliptab where
  unit := fun i =>
    if i < SLIP_MAXDEV then ⟨none, none, ⟨0, 0, 0, 0, none, false⟩⟩ else behind i
  ttyPtr := fun _ => none
  dlpiPtr := fun _ => none

end Sliptab

/-- The characters bring a packet that is handed up to its end. -/
def Slipdev.completes : Slipdev → List Input → Bool
  | _, [] => false
  | slip, x :: inmp =>
      (decide (x.1 = FRAME_END) && slip.curblk.any (fun outmp => decide (outmp.bytes ≠ [])) &&
        x.2.canput && x.2.header) || (slip.receive x).1.completes inmp

namespace Sliptab

/-- What the step should do: an open looks at slots of the table alone, hands
out one that has no tty or says that there is none, and a packet goes to a
queue that is open. -/
def Proper (s : Sliptab) : TableEvent → Prop
  | .ttyopen rq sflag => sflag = .MODOPEN → s.ttyPtr rq = none →
      (∀ slip ∈ s.searched.1, slip < SLIP_MAXDEV) ∧
      (∀ s', s.ttyopen rq sflag = .ok s' → ∃ slip < SLIP_MAXDEV,
        s'.ttyPtr rq = some slip ∧ (s.unit slip).ttyq = none) ∧
      ((∀ slip < SLIP_MAXDEV, (s.unit slip).ttyq ≠ none) → s.ttyopen rq sflag = .error ENXIO)
  | .unitdataReq mindev first canput room mp => ∀ slip, s.dlpiPtr mindev = some slip →
      first = false → ((s.unit slip).dev.slipxmit canput room mp).2 ≠ none →
      ∃ q, (s.unit slip).ttyq = some q ∧ s.ttyPtr q ≠ none
  | .ttyrput q inmp => ∀ slip, s.ttyPtr q = some slip → ((s.unit slip).dev.ttyrput inmp).2 ≠ [] →
      ∃ d, (s.unit slip).dlpiq = some d ∧ s.dlpiPtr d ≠ none
  | _ => True

/-- A module is pushed while there is a slot for it, a packet is sent while its
unit has a tty, and the last character of one comes while it has an interface. -/
def Careful (s : Sliptab) : TableEvent → Prop
  | .ttyopen rq sflag => sflag = .MODOPEN → s.ttyPtr rq = none →
      ∃ slip < SLIP_MAXDEV, (s.unit slip).ttyq = none
  | .unitdataReq mindev first canput room _ => ∀ slip, s.dlpiPtr mindev = some slip →
      first = false → canput = true → room ≠ none → (s.unit slip).ttyq ≠ none
  | .ttyrput q inmp => ∀ slip, s.ttyPtr q = some slip →
      (s.unit slip).dev.completes inmp = true → (s.unit slip).dlpiq ≠ none
  | _ => True

/-- The queues and the slots have each other. -/
structure Joined (s : Sliptab) : Prop where
  tty : ∀ q i, s.ttyPtr q = some i → i < SLIP_MAXDEV ∧ (s.unit i).ttyq = some q
  ttySlot : ∀ i < SLIP_MAXDEV, ∀ q, (s.unit i).ttyq = some q → s.ttyPtr q = some i
  dlpi : ∀ m i, s.dlpiPtr m = some i → i = m ∧ m < SLIP_MAXDEV ∧ (s.unit m).dlpiq = some m
  dlpiSlot : ∀ i < SLIP_MAXDEV, ∀ d, (s.unit i).dlpiq = some d → d = i ∧ s.dlpiPtr i = some i

section
variable {s : Sliptab} {e : TableEvent}

theorem setUnit_self (s : Sliptab) (i : ℕ) (u : SlipUnit) : (s.setUnit i u).unit i = u :=
  Function.update_self ..

theorem setUnit_ttyq {i : ℕ} {u : SlipUnit} (h : u.ttyq = (s.unit i).ttyq) (j : ℕ) :
    ((s.setUnit i u).unit j).ttyq = (s.unit j).ttyq := by
  by_cases hj : j = i
  · subst hj
    exact (congrArg SlipUnit.ttyq (Function.update_self ..)).trans h
  · exact congrArg SlipUnit.ttyq (Function.update_of_ne hj ..)

theorem setUnit_dlpiq {i : ℕ} {u : SlipUnit} (h : u.dlpiq = (s.unit i).dlpiq) (j : ℕ) :
    ((s.setUnit i u).unit j).dlpiq = (s.unit j).dlpiq := by
  by_cases hj : j = i
  · subst hj
    exact (congrArg SlipUnit.dlpiq (Function.update_self ..)).trans h
  · exact congrArg SlipUnit.dlpiq (Function.update_of_ne hj ..)

theorem joined_init (behind : ℕ → SlipUnit) : Joined (init behind) := by
  have hunit : ∀ i < SLIP_MAXDEV,
      (init behind).unit i = ⟨none, none, ⟨0, 0, 0, 0, none, false⟩⟩ := fun i hi => if_pos hi
  constructor
  · intro q i h
    exact absurd h.symm (Option.some_ne_none i)
  · intro i hi q h
    rw [hunit i hi] at h
    exact absurd h.symm (Option.some_ne_none q)
  · intro m i h
    exact absurd h.symm (Option.some_ne_none i)
  · intro i hi d h
    rw [hunit i hi] at h
    exact absurd h.symm (Option.some_ne_none d)

/-! ### The search -/

/-- The search finds the first slot without a tty, if there is one ahead. -/
theorem search_free {n slip : ℕ} (h : ∃ i, slip ≤ i ∧ i < SLIP_MAXDEV ∧ i < slip + n ∧
    (s.unit i).ttyq = none) :
    ∃ i, (s.search n slip).2 = some i ∧ i < SLIP_MAXDEV ∧ (s.unit i).ttyq = none ∧
      ∀ j ∈ (s.search n slip).1, j < SLIP_MAXDEV := by
  induction n generalizing slip with
  | zero =>
      obtain ⟨i, hi, -, hlt, -⟩ := h
      omega
  | succ n ih =>
      obtain ⟨i, hi, hmax, hlt, hfree⟩ := h
      rw [search]
      by_cases hslip : (s.unit slip).ttyq = none
      · rw [if_pos hslip]
        refine ⟨slip, rfl, by omega, hslip, fun j hj => ?_⟩
        rw [List.mem_singleton.mp hj]
        omega
      · have hne : slip ≠ i := fun he => hslip (he ▸ hfree)
        rw [if_neg hslip, if_neg (by omega)]
        obtain ⟨k, hk, hkmax, hkfree, hall⟩ := @ih (slip + 1) ⟨i, by omega, hmax, by omega, hfree⟩
        refine ⟨k, hk, hkmax, hkfree, fun j hj => ?_⟩
        rcases List.mem_cons.mp hj with rfl | hj
        · omega
        · exact hall j hj

/-- With a tty in every slot the search looks behind the table. -/
theorem search_full {n slip : ℕ} (hfull : ∀ i < SLIP_MAXDEV, (s.unit i).ttyq ≠ none)
    (hslip : slip ≤ SLIP_MAXDEV) (hn : SLIP_MAXDEV < slip + n) :
    SLIP_MAXDEV ∈ (s.search n slip).1 := by
  induction n generalizing slip with
  | zero => omega
  | succ n ih =>
      rw [search]
      by_cases hlast : slip = SLIP_MAXDEV
      · subst hlast
        split
        · exact List.mem_singleton.mpr rfl
        · exact List.mem_singleton.mpr rfl
      · rw [if_neg (hfull slip (by omega)), if_neg (by omega)]
        exact List.mem_cons_of_mem _ (ih (by omega) (by omega))

/-! ### What a step keeps -/

theorem Joined.setDev (h : Joined s) (i : ℕ) (dev : Slipdev) : Joined (s.setDev i dev) := by
  have htty := setUnit_ttyq (s := s) (i := i) (u := { s.unit i with dev := dev }) rfl
  have hdlpi := setUnit_dlpiq (s := s) (i := i) (u := { s.unit i with dev := dev }) rfl
  constructor
  · intro q j hq
    exact (h.tty q j hq).imp_right (htty j).trans
  · intro j hj q hq
    exact h.ttySlot j hj q ((htty j).symm.trans hq)
  · intro m j hm
    obtain ⟨rfl, hlt, hd⟩ := h.dlpi m j hm
    exact ⟨rfl, hlt, (hdlpi j).trans hd⟩
  · intro j hj d hd
    exact h.dlpiSlot j hj d ((hdlpi j).symm.trans hd)

theorem Joined.ttyopen {rq slip : ℕ} {dev : Slipdev} (h : Joined s) (hrq : s.ttyPtr rq = none)
    (hslip : slip < SLIP_MAXDEV) (hfree : (s.unit slip).ttyq = none) :
    Joined { s.setUnit slip { s.unit slip with ttyq := some rq, dev := dev } with
      ttyPtr := Function.update s.ttyPtr rq (some slip) } := by
  have hdlpi := setUnit_dlpiq (s := s) (i := slip)
    (u := { s.unit slip with ttyq := some rq, dev := dev }) rfl
  constructor
  · intro q i hq
    by_cases hqr : q = rq
    · subst hqr
      have hq' : Function.update s.ttyPtr q (some slip) q = some i := hq
      rw [Function.update_self] at hq'
      obtain rfl := Option.some.inj hq'
      exact ⟨hslip, congrArg SlipUnit.ttyq (s.setUnit_self slip _)⟩
    · have hold := h.tty q i ((Function.update_of_ne hqr ..).symm.trans hq)
      have hne : i ≠ slip := by
        rintro rfl
        rw [hfree] at hold
        exact absurd hold.2.symm (Option.some_ne_none q)
      exact ⟨hold.1, (congrArg SlipUnit.ttyq (Function.update_of_ne hne ..)).trans hold.2⟩
  · intro i hi q hq
    by_cases hne : i = slip
    · subst hne
      have hrq' : some rq = some q :=
        (congrArg SlipUnit.ttyq (Function.update_self ..)).symm.trans hq
      obtain rfl := Option.some.inj hrq'
      exact Function.update_self ..
    · have hold := h.ttySlot i hi q
        ((congrArg SlipUnit.ttyq (Function.update_of_ne hne ..)).symm.trans hq)
      have hqr : q ≠ rq := by
        rintro rfl
        rw [hrq] at hold
        exact absurd hold.symm (Option.some_ne_none i)
      exact (Function.update_of_ne hqr ..).trans hold
  · intro m i hm
    obtain ⟨rfl, hlt, hd⟩ := h.dlpi m i hm
    exact ⟨rfl, hlt, (hdlpi i).trans hd⟩
  · intro i hi d hd
    exact h.dlpiSlot i hi d ((hdlpi i).symm.trans hd)

theorem Joined.ttyclose (h : Joined s) (rq : ℕ) : Joined (s.ttyclose rq) := by
  unfold Sliptab.ttyclose
  split
  case h_1 => exact h
  case h_2 slip hptr =>
    obtain ⟨hslip, hown⟩ := h.tty rq slip hptr
    have hdlpi := setUnit_dlpiq (s := s) (i := slip)
      (u := { s.unit slip with ttyq := none, dev := (s.unit slip).dev.ttyclose }) rfl
    constructor
    · intro q i hq
      by_cases hqr : q = rq
      · subst hqr
        have hq' : Function.update s.ttyPtr q none q = some i := hq
        rw [Function.update_self] at hq'
        exact absurd hq'.symm (Option.some_ne_none i)
      · have hold := h.tty q i ((Function.update_of_ne hqr ..).symm.trans hq)
        have hne : i ≠ slip := by
          rintro rfl
          exact hqr (Option.some.inj (hold.2.symm.trans hown))
        exact ⟨hold.1, (congrArg SlipUnit.ttyq (Function.update_of_ne hne ..)).trans hold.2⟩
    · intro i hi q hq
      by_cases hne : i = slip
      · subst hne
        have hnone : none = some q :=
          (congrArg SlipUnit.ttyq (Function.update_self ..)).symm.trans hq
        exact absurd hnone.symm (Option.some_ne_none q)
      · have hold := h.ttySlot i hi q
          ((congrArg SlipUnit.ttyq (Function.update_of_ne hne ..)).symm.trans hq)
        have hqr : q ≠ rq := by
          rintro rfl
          exact hne (Option.some.inj (hold.symm.trans hptr))
        exact (Function.update_of_ne hqr ..).trans hold
    · intro m i hm
      obtain ⟨rfl, hlt, hd⟩ := h.dlpi m i hm
      exact ⟨rfl, hlt, (hdlpi i).trans hd⟩
    · intro i hi d hd
      exact h.dlpiSlot i hi d ((hdlpi i).symm.trans hd)

/-- The slot of an interface that is opened or closed. -/
theorem Joined.setDlpiq {m : ℕ} (h : Joined s) (hm : m < SLIP_MAXDEV) (dev : Slipdev)
    (v : Option ℕ) (hv : v = none ∨ v = some m) :
    Joined { s.setUnit m { s.unit m with dlpiq := v, dev := dev } with
      dlpiPtr := Function.update s.dlpiPtr m v } := by
  have htty := setUnit_ttyq (s := s) (i := m) (u := { s.unit m with dlpiq := v, dev := dev }) rfl
  constructor
  · intro q i hq
    exact (h.tty q i hq).imp_right (htty i).trans
  · intro i hi q hq
    exact h.ttySlot i hi q ((htty i).symm.trans hq)
  · intro k i hk
    by_cases hkm : k = m
    · subst hkm
      have hk' : Function.update s.dlpiPtr k v k = some i := hk
      rw [Function.update_self] at hk'
      subst hk'
      have hi : i = k := Option.some.inj (hv.resolve_left (Option.some_ne_none i))
      subst hi
      exact ⟨rfl, hm, congrArg SlipUnit.dlpiq (s.setUnit_self i _)⟩
    · obtain ⟨rfl, hlt, hd⟩ := h.dlpi k i ((Function.update_of_ne hkm ..).symm.trans hk)
      exact ⟨rfl, hlt, (congrArg SlipUnit.dlpiq (Function.update_of_ne hkm ..)).trans hd⟩
  · intro i hi d hd
    by_cases him : i = m
    · subst him
      obtain rfl : v = some d := (congrArg SlipUnit.dlpiq (Function.update_self ..)).symm.trans hd
      have hdi : d = i := Option.some.inj (hv.resolve_left (Option.some_ne_none d))
      exact ⟨hdi, (Function.update_self ..).trans (congrArg some hdi)⟩
    · obtain ⟨hdi, hp⟩ := h.dlpiSlot i hi d
        ((congrArg SlipUnit.dlpiq (Function.update_of_ne him ..)).symm.trans hd)
      exact ⟨hdi, (Function.update_of_ne him ..).trans hp⟩

theorem Joined.step (h : Joined s) (hc : s.Careful e) : Joined (s.step e) := by
  cases e with
  | ttyopen rq sflag =>
      change Joined ((s.ttyopen rq sflag).toOption.getD s)
      unfold Sliptab.ttyopen
      split
      case isTrue => exact h
      case isFalse hmod =>
        have hmod := not_not.mp hmod
        split
        case h_1 => exact h
        case h_2 hrq =>
          obtain ⟨i, hi, hfree⟩ := hc hmod hrq
          obtain ⟨slip, hslip, hmax, hfree, -⟩ :=
            @search_free s (SLIP_MAXDEV + 1) 0 ⟨i, Nat.zero_le i, hi, by omega, hfree⟩
          have hfound : s.searched.2 = some slip := hslip
          rw [hfound]
          exact h.ttyopen hrq hmax hfree
  | ttyclose rq => exact h.ttyclose rq
  | dlpiopen mindev sflag =>
      change Joined ((s.dlpiopen mindev sflag).toOption.getD s)
      unfold Sliptab.dlpiopen
      split
      case isTrue => exact h
      case isFalse =>
        split
        case isTrue => exact h
        case isFalse =>
          split
          case isTrue => exact h
          case isFalse hlt =>
            split
            case h_1 => exact h
            case h_2 => exact h.setDlpiq (Nat.not_le.mp hlt) _ (some mindev) (.inr rfl)
  | dlpiclose mindev =>
      change Joined (s.dlpiclose mindev)
      unfold Sliptab.dlpiclose
      split
      case h_1 => exact h
      case h_2 slip hptr =>
        obtain ⟨rfl, hlt, -⟩ := h.dlpi mindev slip hptr
        exact h.setDlpiq hlt _ none (.inl rfl)
  | unitdataReq mindev first canput room mp =>
      unfold Sliptab.step
      simp only
      split
      case h_1 => exact h
      case h_2 slip hptr =>
        split
        case isTrue => exact h
        case isFalse => exact h.setDev slip _
  | ttyrput q inmp =>
      unfold Sliptab.step
      simp only
      split
      case h_1 => exact h
      case h_2 slip hptr => exact h.setDev slip _

/-! ### What a step does -/

theorem slipxmit_sends_iff (slip : Slipdev) (canput : Bool) (room : Option ℕ)
    (mp : List (List Byte)) :
    (slip.slipxmit canput room mp).2 ≠ none ↔ canput = true ∧ room ≠ none := by
  unfold Slipdev.slipxmit
  cases canput with
  | false => simp
  | true => cases room <;> simp

theorem ttyrput_hands_iff (slip : Slipdev) (inmp : List Input) :
    (slip.ttyrput inmp).2 ≠ [] ↔ slip.completes inmp = true := by
  induction inmp generalizing slip with
  | nil => simp [Slipdev.ttyrput, Slipdev.completes]
  | cons x inmp ih =>
      have hhead : (slip.receive x).2 ≠ [] ↔ (decide (x.1 = FRAME_END) &&
          slip.curblk.any (fun outmp => decide (outmp.bytes ≠ [])) && x.2.canput &&
          x.2.header) = true := by
        unfold Slipdev.receive
        by_cases hend : x.1 = FRAME_END
        · rw [if_pos hend]
          unfold Slipdev.frameEnd
          cases hb : slip.curblk with
          | none => simp
          | some outmp =>
              by_cases hne : outmp.bytes = []
              · simp [hne]
              · cases hcan : x.2.canput <;> cases hhdr : x.2.header <;> simp [hne, hend]
        · rw [if_neg hend]
          split_ifs <;> simp [hend]
      rw [Slipdev.ttyrput, Slipdev.completes]
      simp only
      rw [Bool.or_eq_true, ← hhead, ← ih, ne_eq, List.append_eq_nil_iff, not_and_or]

/-- A step does what it should exactly if it is a careful one. -/
theorem proper_iff_careful (h : Joined s) (e : TableEvent) : s.Proper e ↔ s.Careful e := by
  cases e with
  | ttyopen rq sflag =>
      constructor
      · intro hp hmod hrq
        by_contra hno
        have hfull : ∀ i < SLIP_MAXDEV, (s.unit i).ttyq ≠ none := fun i hi hn => hno ⟨i, hi, hn⟩
        have hread := (hp hmod hrq).1 SLIP_MAXDEV
          (s.search_full hfull (Nat.zero_le _) (by omega))
        exact absurd hread (Nat.lt_irrefl _)
      · intro hc hmod hrq
        obtain ⟨i, hi, hfree⟩ := hc hmod hrq
        obtain ⟨slip, hslip, hmax, hfree', hall⟩ :=
          @search_free s (SLIP_MAXDEV + 1) 0 ⟨i, Nat.zero_le i, hi, by omega, hfree⟩
        have hfound : s.searched.2 = some slip := hslip
        refine ⟨hall, ?_, ?_⟩
        · intro s' hs'
          unfold Sliptab.ttyopen at hs'
          rw [if_neg (not_not.mpr hmod), hrq, hfound] at hs'
          obtain rfl := Except.ok.inj hs'
          exact ⟨slip, hmax, Function.update_self .., hfree'⟩
        · intro hfull
          exact absurd hfree (hfull i hi)
  | unitdataReq mindev first canput room mp =>
      constructor
      · intro hp slip hptr hfirst hcan hroom hnone
        obtain ⟨q, hq, -⟩ := hp slip hptr hfirst ((slipxmit_sends_iff _ _ _ _).mpr ⟨hcan, hroom⟩)
        rw [hnone] at hq
        exact absurd hq.symm (Option.some_ne_none q)
      · intro hc slip hptr hfirst hsends
        obtain ⟨hcan, hroom⟩ := (slipxmit_sends_iff _ _ _ _).mp hsends
        obtain ⟨q, hq⟩ := Option.ne_none_iff_exists'.mp (hc slip hptr hfirst hcan hroom)
        obtain ⟨rfl, hlt, -⟩ := h.dlpi mindev slip hptr
        refine ⟨q, hq, ?_⟩
        rw [h.ttySlot slip hlt q hq]
        exact Option.some_ne_none slip
  | ttyrput q inmp =>
      constructor
      · intro hp slip hptr hcomplete hnone
        obtain ⟨d, hd, -⟩ := hp slip hptr ((ttyrput_hands_iff _ _).mpr hcomplete)
        rw [hnone] at hd
        exact absurd hd.symm (Option.some_ne_none d)
      · intro hc slip hptr hhands
        obtain ⟨d, hd⟩ := Option.ne_none_iff_exists'.mp
          (hc slip hptr ((ttyrput_hands_iff _ _).mp hhands))
        obtain ⟨hlt, -⟩ := h.tty q slip hptr
        obtain ⟨rfl, hp⟩ := h.dlpiSlot slip hlt d hd
        refine ⟨d, hd, ?_⟩
        rw [hp]
        exact Option.some_ne_none d
  | ttyclose rq => exact Iff.rfl
  | dlpiopen mindev sflag => exact Iff.rfl
  | dlpiclose mindev => exact Iff.rfl

end
end Sliptab

/-- In every run the steps do what they should if and only if they are careful
ones, whatever lies behind the table. -/
theorem slip_table_iff (behind : ℕ → SlipUnit) (es : List TableEvent) :
    Every Sliptab.step Sliptab.Proper (Sliptab.init behind) es ↔
      Every Sliptab.step Sliptab.Careful (Sliptab.init behind) es :=
  every_iff Sliptab.Joined (fun _ _ h hc => h.step hc)
    (fun _ e h => Sliptab.proper_iff_careful h e) (Sliptab.joined_init behind) es

/-- Five modules fill the table; the sixth is looked for behind it. -/
theorem slip_table_fails : ¬ ∀ (behind : ℕ → SlipUnit) (es : List TableEvent),
    Every Sliptab.step Sliptab.Proper (Sliptab.init behind) es := by
  intro h
  have hall := h (fun _ => ⟨none, none, ⟨0, 0, 0, 0, none, false⟩⟩)
    [.ttyopen 0 .MODOPEN, .ttyopen 1 .MODOPEN, .ttyopen 2 .MODOPEN, .ttyopen 3 .MODOPEN,
      .ttyopen 4 .MODOPEN, .ttyopen 5 .MODOPEN]
  have hread := (hall.2.2.2.2.2.1 rfl rfl).1 5
  exact absurd (hread (by decide)) (by decide)

end HydraAmix.Slip
