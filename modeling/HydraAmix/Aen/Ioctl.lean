import HydraAmix.Library.Blocks
import HydraAmix.Aen.Receive

/-!
# Ioctl messages of the LANCE driver

`aenioctl`, as far as the blocks of messages go: which blocks it touches, frees
and passes on. The message is block 0 with its data blocks behind it. A read
through a link that is NULL ends the machine: `none`. `pullupmsg` of no block
does nothing. What the commands read and change on the board is left out.
-/
namespace HydraAmix.Aen
open Blocks

/-- The commands of the switch; `ifFlags` is SIOCSIFFLAGS or SIOCGIFFLAGS. -/
inductive Cmd where
  | clearStatus
  | getStatus
  | getConfig
  | setConfig
  | numberOfBoards
  | ifFlags
  | other
  deriving DecidableEq, Repr

/-- M_IOCTL, or M_IOCDATA with what `copyresp` says. -/
inductive Kind where
  | ioctl (transparent : Bool)
  | iocdata (rval priv : Bool)
  deriving DecidableEq, Repr

/-- A request: its kind, its command, and the lengths of its data blocks. -/
structure Request (C : Type) where
  kind : Kind
  cmd : C
  lens : List ℕ

/-- What decides about blocks: the answers of `allocb` and of `pullupmsg`, which
streams are open and bound, and `sizeof(aen_config_t)`. -/
structure IoctlEnv where
  alloc : ℕ → Bool
  pullup : Bool
  bound : Fin AEN_MAXDEV → Bool
  configSize : ℕ

/-- `mp->b_datap->db_type == M_IOCTL && iocbp->ioc_count == TRANSPARENT`. -/
def Kind.transparent : Kind → Bool
  | .ioctl transparent => transparent
  | .iocdata _ _ => false

/-- The type of a message is set, its data is freed, `iocblk` is filled in and the
message goes back. `iocblk` is that of the request. -/
def reply (h : Heap) (mp : ℕ) : Heap :=
  let h := h.touch mp
  let bs := h.cont mp
  (((h.setCont mp []).freemsg bs).touch 0).putnext mp

/-- A copy request or a refusal, on the message of the request. -/
def sendBack (h : Heap) : Heap := (h.touch 0).putnext 0

def total (len : ℕ → ℕ) (bs : List ℕ) : ℕ := bs.foldr (fun b n => len b + n) 0

/-- `pullupmsg(mp->b_cont, -1)`: one block, or all as they were. -/
def pullupmsg (pullup : Bool) (h : Heap) : Heap :=
  match h.cont 0 with
  | b :: c :: bs =>
      if pullup then
        let h := { h with len := Function.update h.len b (total h.len (b :: c :: bs)) }
        (h.freemsg (c :: bs)).setCont 0 [b]
      else h
  | _ => h

/-- `AEN_GET_STATUS`, `AEN_GET_CONFIG` and `AEN_NUMBER_OF_BOARDS`. -/
def getData (env : IoctlEnv) (kind : Kind) (h : Heap) : Option Heap :=
  match h.cont 0 with
  | [] => none
  | b :: bs =>
      match ((h.touch b).freemsg (b :: bs)).allocb env.alloc with
      | (none, h) => some (reply (h.setCont 0 []) 0)
      | (some new, h) =>
          let h := (h.setCont 0 [new]).touch new
          if kind.transparent then some (sendBack h) else some (reply h 0)

/-- The loop of `AEN_SET_CONFIG` over the streams: whether it returned, the
message that `mp` points to, and the heap. -/
def acks (alloc : ℕ → Bool) : List Bool → ℕ → Heap → Bool × ℕ × Heap
  | [], mp, h => (false, mp, h)
  | false :: bound, mp, h => acks alloc bound mp h
  | true :: bound, _, h =>
      match h.allocb alloc with
      | (none, h) => (true, 0, h)
      | (some bind, h) =>
          match (h.pass bind).allocb alloc with
          | (none, h) => (true, 0, h)
          | (some info, h) => acks alloc bound info (h.pass info)

/-- Data that came with the message: whether it has the length that it should
have, and what is done with it up to the first answer. -/
def setData (pullup : Bool) (size : ℕ) (h : Heap) : Bool × Heap :=
  let h := pullupmsg pullup h
  match h.cont 0 with
  | [] => (false, sendBack h)
  | b :: _ =>
      if h.len b ≠ size then (false, sendBack h)
      else (true, (((h.touch b).setCont 0 []).freeb b).putnext 0)

/-- `AEN_SET_CONFIG` of a message that is not transparent. -/
def configure (env : IoctlEnv) (h : Heap) : Heap :=
  match setData env.pullup env.configSize h with
  | (false, h) => reply h 0
  | (true, h) =>
      match acks env.alloc (List.ofFn env.bound) 0 h with
      | (true, _, h) => h
      | (false, mp, h) => reply h mp

/-- The switch of `aenioctl`. -/
def aenCommand (env : IoctlEnv) (kind : Kind) (h : Heap) : Cmd → Option Heap
  | .clearStatus => some (reply (h.freemsg (h.cont 0)) 0)
  | .getStatus | .getConfig | .numberOfBoards => getData env kind h
  | .setConfig =>
      if kind.transparent then
        match h.cont 0 with
        | [] => none
        | b :: _ => some (sendBack (h.touch b))
      else some (configure env h)
  | .ifFlags => some (sendBack h)
  | .other => some (reply h 0)

/-- `aenioctl` and `audioioctl`: a failed copy and a finished copyout come first. -/
def ioctl {C : Type} (command : Kind → Heap → C → Option Heap) (m : Request C) : Option Heap :=
  let h := Heap.message m.lens
  match m.kind with
  | .iocdata true _ => some ((h.freemsg (h.cont 0)).freeb 0)
  | .iocdata false false => some (reply h 0)
  | kind => command kind h m.cmd

def aenioctl (env : IoctlEnv) (m : Request Cmd) : Option Heap := ioctl (aenCommand env) m

end HydraAmix.Aen
