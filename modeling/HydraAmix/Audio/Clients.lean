import HydraAmix.Audio.Channel
import HydraAmix.Library.Schedule
import Mathlib.Data.Fin.Basic
import Mathlib.Data.List.FinRange
import Mathlib.Logic.Function.Basic

/-!
# Channels and clients of the audio driver

`audioopen` puts a client on the list `audio_clients`, `postaudio` attaches it to
a channel, `audiointr` detaches it when nothing is left to play, and `audioclose`
takes it off the list and frees it. Clients, streams and messages are addresses; a
freed client stays as it was until its memory is used again. Of a message only
the bytes left in its first block count, and of the samples only how many there are.

All four run at `splaudio`, so one event is one of them as a whole; the few lines
of `audioopen` and `audioclose` after `splx` are taken with it. Where the driver
would read through a null pointer, as it can after the close of a stream that was
opened twice, the model does not go on.
-/
namespace HydraAmix.Audio.Clients
open Schedule

/-- `struct audio_client`. `AUD_CCLOSING` is never set. -/
structure Client where
  attached : Bool
  ports : Fin 4
  repeats : ℕ
  q : ℕ
  mp : Option ℕ

/-- `struct audio_channel`. -/
structure Channel where
  client : Option ℕ
  pending : ℕ
  used : Fin 3
  size : ℕ
  nbytes : Fin 3 → ℕ

/-- The list, the clients and channels, `q_ptr` and the messages of each stream,
the bytes left in each message, and how many buffers `AllocMem` has memory for. -/
structure State where
  clients : List ℕ
  client : ℕ → Client
  channel : Fin 4 → Channel
  qPtr : ℕ → Option ℕ
  queue : ℕ → List ℕ
  left : ℕ → ℕ
  chip : ℕ

section
variable {n : ℕ}

def first : Fin (n + 1) := 0

/-- `if (i == n) i = 0; else ++i`. -/
def next (i : Fin (n + 1)) : Fin (n + 1) := if i = Fin.last n then 0 else i + 1

/-- `if (i == 0) i = n; else --i`. -/
def prev (i : Fin (n + 1)) : Fin (n + 1) := if i = 0 then Fin.last n else i - 1

end

namespace State

/-- Before the first `audioopen`. -/
def init : State where
  clients := []
  client := fun _ => ⟨false, first, 0, 0, none⟩
  channel := fun _ => ⟨none, 0, first, 0, fun _ => 0⟩
  qPtr := fun _ => none
  queue := fun _ => []
  left := fun _ => 0
  chip := 0

def setClient (s : State) (acl : ℕ) (f : Client → Client) : State :=
  { s with client := Function.update s.client acl (f (s.client acl)) }

def setChannel (s : State) (i : Fin 4) (f : Channel → Channel) : State :=
  { s with channel := Function.update s.channel i (f (s.channel i)) }

/-- `acl->mp = mp`. -/
def setMp (s : State) (acl : ℕ) (mp : Option ℕ) : State :=
  s.setClient acl fun c => { c with mp := mp }

def setQueue (s : State) (q : ℕ) (l : List ℕ) : State :=
  { s with queue := Function.update s.queue q l }

/-- `audioopen`, where `kmem_alloc` gave `acl`, which no client has. -/
def audioopen (s : State) (q acl : ℕ) : State :=
  if acl ∈ s.clients then s
  else { s with
    client := Function.update s.client acl ⟨false, first, 0, q, none⟩
    clients := acl :: s.clients
    qPtr := Function.update s.qPtr q (some acl) }

/-- `audioclose`; what is left on the queue goes with the stream. -/
def audioclose (s : State) (q : ℕ) : State :=
  match s.qPtr q with
  | none => s
  | some acl => { s.setQueue q [] with
      clients := s.clients.erase acl
      qPtr := Function.update s.qPtr q none }

/-- `audiowput` of an M_DATA message at the address `mp`. -/
def audiowput (s : State) (q mp len : ℕ) : State :=
  { s.setQueue q (s.queue q ++ [mp]) with left := Function.update s.left mp len }

/-- `fill_buffer`: the size, and what it leaves. -/
def fillBuffer (s : State) (acl len : ℕ) : ℕ × State :=
  let i := (s.client acl).ports
  let ach := s.channel i
  let size := min len (ach.size - ach.nbytes ach.used)
  (size, s.setChannel i fun ach =>
    { ach with nbytes := Function.update ach.nbytes ach.used (ach.nbytes ach.used + size) })

/-- `loadup_dma`, also as `handfeed` calls it. -/
def loadupDma (s : State) (acl : ℕ) : State :=
  s.setChannel (s.client acl).ports fun ach =>
    if ach.nbytes ach.used = 0 then ach
    else { ach with used := next ach.used, pending := ach.pending + 1 }

/-- `release_channel_buffer`. -/
def releaseChannelBuffer (ach : Channel) : Channel :=
  if 0 < ach.pending then
    let old := prev ach.used
    let old := if 0 < ach.pending - 1 then prev old else old
    { ach with pending := ach.pending - 1, nbytes := Function.update ach.nbytes old 0 }
  else ach

/-- `allocate_channel_buffers`: whether it failed. A buffer that it got before it
failed is freed again. -/
def allocateChannelBuffers (s : State) (acl : ℕ) : Bool × State :=
  let i := (s.client acl).ports
  if (s.channel i).size = 0 then
    if s.chip < 3 then (true, s)
    else
      let s := { s with chip := s.chip - 3 }
      (false, s.setChannel i fun ach =>
        { ach with size := AUDIO_BUFFER_SIZE, nbytes := fun _ => 0, pending := 0 })
  else (false, s)

/-- The port that `grab_channel` finds: the old one, or the first that is free. -/
def freePort (s : State) (acl : ℕ) : Option (Fin 4) :=
  if (s.channel (s.client acl).ports).client = none then some (s.client acl).ports
  else (List.finRange 4).find? fun i => (s.channel i).client = none

/-- `grab_channel`: whether it failed. -/
def grabChannel (s : State) (acl : ℕ) : Bool × State :=
  let got (s : State) :=
    match s.allocateChannelBuffers acl with
    | (true, s) => (true, s.setClient acl fun c => { c with attached := false })
    | (false, s) => (false, s)
  if (s.client acl).attached then got s
  else
    match s.freePort acl with
    | none => (true, s)
    | some i => got (s.setClient acl fun c => { c with ports := i, attached := true })

/-- `postaudio`: whether something of the message is left. -/
def postaudio (s : State) (q mp : ℕ) : Bool × State :=
  match s.qPtr q with
  | none => (true, s)
  | some acl =>
      match s.grabChannel acl with
      | (true, s) => (true, s)
      | (false, s) =>
          let s := s.setChannel (s.client acl).ports fun ach => { ach with client := some acl }
          let s :=
            if (s.channel (s.client acl).ports).pending ≤ 1 then
              let (size, s) := s.fillBuffer acl (s.left mp)
              { s with left := Function.update s.left mp (s.left mp - size) }.loadupDma acl
            else s
          (s.left mp != 0, s)

/-- The loop of `audiowsrv` over the messages of the queue. -/
def postQueue (q acl : ℕ) : List ℕ → State → State
  | [], s => s.setQueue q []
  | mp :: l, s =>
      match s.postaudio q mp with
      | (true, s) => (s.setQueue q l).setMp acl (some mp)
      | (false, s) => postQueue q acl l s

/-- `audiowsrv`. -/
def audiowsrv (s : State) (q : ℕ) : State :=
  match s.qPtr q with
  | none => s
  | some acl =>
      match (s.client acl).mp with
      | none => postQueue q acl (s.queue q) s
      | some mp =>
          match s.postaudio q mp with
          | (true, s) => s
          | (false, s) => postQueue q acl (s.queue q) (s.setMp acl none)

/-- The loop of `audiointr` over the messages of the queue. -/
def fillQueue (q acl : ℕ) : List ℕ → State → State
  | [], s => s.setQueue q []
  | mp :: l, s =>
      let (size, s) := s.fillBuffer acl (s.left mp)
      if size ≠ s.left mp then (s.setQueue q l).setMp acl (some mp) else fillQueue q acl l s

/-- What `audiointr` fills in for the client of a channel. -/
def fillWaiting (s : State) (acl : ℕ) : State :=
  let q := (s.client acl).q
  match (s.client acl).mp with
  | none => fillQueue q acl (s.queue q) s
  | some mp =>
      let (size, s) := s.fillBuffer acl (s.left mp)
      if size = s.left mp then fillQueue q acl (s.queue q) (s.setMp acl none) else s

/-- `audiointr` gives up the port: two silent samples, and no client any more. -/
def giveUp (s : State) (i : Fin 4) (acl : ℕ) : State :=
  let s := (s.fillBuffer acl 2).2.loadupDma acl
  let s := s.setChannel i fun ach => { ach with client := none }
  s.setClient acl fun c => { c with attached := false }

/-- `audiointr` for one channel whose DMA is done. -/
def channelIntr (s : State) (i : Fin 4) : State :=
  match (s.channel i).client with
  | none => s.setChannel i releaseChannelBuffer
  | some acl =>
      if 0 < (s.client acl).repeats then
        s.setClient acl fun c => { c with repeats := c.repeats - 1 }
      else
        let s := (s.setChannel i releaseChannelBuffer).fillWaiting acl
        if (s.channel i).nbytes (s.channel i).used ≠ 0 then s.loadupDma acl else s.giveUp i acl

/-- `acl->mp = mp`, also for the head of the list. -/
def keepMp (s : State) : Option ℕ → ℕ → State
  | none, _ => s
  | some acl, mp => s.setMp acl (some mp)

/-- The search of the client list at the end of `audiointr`. What is left of the
message of a client is given to the one before it on the list. -/
def search : Option ℕ → List ℕ → State → State
  | _, [], s => s
  | prev, acl :: l, s =>
      match (s.client acl).attached, (s.client acl).mp with
      | false, some mp =>
          match s.postaudio (s.client acl).q mp with
          | (true, s) => search (some acl) l (s.keepMp prev mp)
          | (false, s) => search (some acl) l (s.setMp acl none)
      | _, _ => search (some acl) l s

/-- `audiointr`. -/
def audiointr (s : State) (reqbits : Fin 4 → Bool) : State :=
  let s := (List.finRange 4).foldl (fun s i => if reqbits i then s.channelIntr i else s) s
  search none s.clients s

end State

/-- What happens: a stream is opened or closed, a message is written, a service
procedure runs, the DMA of some channels is done, and others take and give memory. -/
inductive Event where
  | open (q acl : ℕ)
  | close (q : ℕ)
  | put (q mp len : ℕ)
  | srv (q : ℕ)
  | intr (reqbits : Fin 4 → Bool)
  | chip (n : ℕ)

def step (s : State) : Event → State
  | .open q acl => s.audioopen q acl
  | .close q => s.audioclose q
  | .put q mp len => s.audiowput q mp len
  | .srv q => s.audiowsrv q
  | .intr reqbits => s.audiointr reqbits
  | .chip n => { s with chip := n }

/-- A channel has no client or one that is on the list and whose stream is open,
and a client that is attached is the one of its channel. -/
structure Linked (s : State) : Prop where
  client : ∀ i acl, (s.channel i).client = some acl →
    acl ∈ s.clients ∧ (s.qPtr (s.client acl).q).isSome
  attached : ∀ acl ∈ s.clients, (s.client acl).attached = true →
    (s.channel (s.client acl).ports).client = some acl

end HydraAmix.Audio.Clients
