import HydraAmix.Aen.IoctlOwnership

/-!
# Ioctl messages of the audio driver

`audioioctl` has the cases before the switch and the common end of `aenioctl`.
Its two commands take an int, and each gets to the common end after it answered.
-/
namespace HydraAmix.Audio
open Blocks Blocks.Heap Aen

/-- The commands of the switch. -/
inductive Cmd where
  | volume
  | period
  | other
  deriving DecidableEq, Repr

/-- `sizeof(*volume)` and `sizeof(*period)`. -/
abbrev INT_SIZE : ℕ := 4

/-- `AUDIO_VOLUME` and `AUDIO_PERIOD`. -/
def setInt (pullup : Bool) (kind : Kind) (h : Heap) : Option Heap :=
  if kind.transparent then
    match h.cont 0 with
    | [] => none
    | b :: _ => some (sendBack (h.touch b))
  else some (reply (setData pullup INT_SIZE h).2 0)

/-- The switch of `audioioctl`. -/
def audioCommand (pullup : Bool) (kind : Kind) (h : Heap) : Cmd → Option Heap
  | .volume | .period => setInt pullup kind h
  | .other => some (reply h 0)

def audioioctl (pullup : Bool) (m : Request Cmd) : Option Heap := ioctl (audioCommand pullup) m

/-- The condition for one command. -/
def AudioAllowed (kind : Kind) (lens : List ℕ) : Cmd → Prop
  | .volume | .period => kind.transparent = true ∧ lens ≠ []
  | .other => True

theorem audioCommand_iff (pullup : Bool) (kind : Kind) (lens : List ℕ) (c : Cmd) :
    Answered (audioCommand pullup kind (message lens) c) ↔ AudioAllowed kind lens c := by
  have h₀ := message_fresh lens
  have hint : Answered (setInt pullup kind (message lens)) ↔
      kind.transparent = true ∧ lens ≠ [] := by
    rw [setInt]
    split
    case isTrue ht =>
      rw [iff_true_intro ht, true_and]
      exact (copyin_iff h₀).trans (not_congr (message_cont lens))
    case isFalse hf =>
      refine iff_of_false (not_answered (reply_lost ?_)) fun hc => hf hc.1
      rw [(setData_spec h₀ pullup INT_SIZE).2.1]
      decide
  cases c with
  | volume => exact hint
  | period => exact hint
  | other => exact iff_true_intro (answered_reply h₀)

/-- Both drivers settle the requests that their commands allow, and no others. -/
theorem ioctl_settled_iff (env : IoctlEnv) (pullup : Bool) (m : Request Aen.Cmd)
    (m' : Request Cmd) :
    (Settled m (aenioctl env m) ↔ Allowed (AenAllowed env) m) ∧
      (Settled m' (audioioctl pullup m') ↔ Allowed AudioAllowed m') :=
  ⟨settled_iff (aenCommand_iff env) m, settled_iff (audioCommand_iff pullup) m'⟩

/-- AEN_CLEAR_STATUS with a data block frees it twice. -/
theorem ioctl_settled_fails :
    ¬ ((∀ (env : IoctlEnv) (m : Request Aen.Cmd), Settled m (aenioctl env m)) ∧
      ∀ (pullup : Bool) (m : Request Cmd), Settled m (audioioctl pullup m)) := by
  rintro ⟨haen, -⟩
  obtain ⟨h, hh, hb, -⟩ := haen ⟨fun _ => true, true, fun _ => false, 30⟩
    ⟨.ioctl false, .clearStatus, [1]⟩
  obtain rfl := Option.some.inj hh
  exact absurd hb (by decide)

end HydraAmix.Audio

