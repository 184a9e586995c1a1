import HydraAmix.Library.Word
import HydraAmix.Library.Schedule
import Mathlib.Logic.Function.Basic

/-!
# One client of the audio driver on its channel

The three buffers of a channel, filled by `audiowsrv` and by the DMA interrupt
and handed to the DMA by `loadup_dma`. The client is the only one, so it gets
the first channel, `AUD_CATTACHED` is set exactly while the channel has a
client, and both are one flag here. The buffers of the channel are allocated, and
`repeat` is 0 as `audioopen` left it.

Beside the state of the driver stand the buffers that the hardware was given and
may still read, oldest first, what it was given so far, what was written so far,
and whether a buffer was filled while it could be read. Volume and period, and
the hand-fed word, do not matter here.
-/
namespace HydraAmix.Audio
open Word

abbrev AUDIO_BUFFER_SIZE : ℕ := 8192

/-- A byte for the DMA: one of a message or one of `audio_silent_buffer`. -/
inductive Sample where
  | data (b : Byte)
  | silent
  deriving DecidableEq, Repr

/-- An M_DATA message of even length, in blocks. -/
structure Message where
  first : List Byte
  cont : List (List Byte)
  even : (first ++ cont.flatten).length % 2 = 0

/-- `audio_client` and `audio_channel`. Of a message only the first block is ever
read; `q` and `mp` hold what is left of it. -/
structure Channel where
  q : List (List Byte)
  mp : Option (List Byte)
  attached : Bool
  pending : ℕ
  used : Fin 3
  buffer : Fin 3 → List Sample
  reading : List (Fin 3)
  handed : List Sample
  written : List Byte
  refilled : Bool

/-- The buffer before, in the order of the rotation. -/
def before (b : Fin 3) : Fin 3 := if b = 0 then 2 else b - 1

namespace Channel

/-- `fill_buffer`: the size, and the channel. -/
def fillBuffer (s : Channel) (data : List Sample) : ℕ × Channel :=
  let size := min data.length (AUDIO_BUFFER_SIZE - (s.buffer s.used).length)
  (size, { s with
    buffer := Function.update s.buffer s.used (s.buffer s.used ++ data.take size)
    refilled := s.refilled || decide (0 < size ∧ s.used ∈ s.reading) })

/-- `loadup_dma`; the hardware takes whole words. -/
def loadupDma (s : Channel) : Channel :=
  if (s.buffer s.used).length = 0 then s
  else { s with
    reading := s.reading ++ [s.used]
    handed := s.handed ++ (s.buffer s.used).take (2 * ((s.buffer s.used).length / 2))
    used := if s.used = 2 then 0 else s.used + 1
    pending := s.pending + 1 }

/-- `release_channel_buffer`. -/
def releaseChannelBuffer (s : Channel) : Channel :=
  if 0 < s.pending then
    let old := before s.used
    let old := if 0 < s.pending - 1 then before old else old
    { s with pending := s.pending - 1, buffer := Function.update s.buffer old [] }
  else s

/-- `postaudio`: what is left of the message, and the channel. The hand-fed word
of `handfeed` comes before the buffer that it loads. -/
def postaudio (s : Channel) (mp : List Byte) : List Byte × Channel :=
  let s := { s with attached := true }
  match s.pending with
  | 0 | 1 =>
      let (size, s) := s.fillBuffer (mp.map Sample.data)
      (mp.drop size, s.loadupDma)
  | _ => (mp, s)

/-- The loop of `audiowsrv` over the messages of the queue. -/
def postQueue : List (List Byte) → Channel → Channel
  | [], s => { s with q := [] }
  | mp :: q, s =>
      let (left, s) := s.postaudio mp
      if left ≠ [] then { s with mp := some left, q := q } else postQueue q s

/-- `audiowsrv`. -/
def audiowsrv (s : Channel) : Channel :=
  match s.mp with
  | none => postQueue s.q s
  | some mp =>
      let (left, s) := s.postaudio mp
      if left ≠ [] then { s with mp := some left } else postQueue s.q { s with mp := none }

/-- The loop of `audiointr` over the messages of the queue. A message that does
not fit is kept as a whole, also if a part of it was filled in. -/
def fillQueue : List (List Byte) → Channel → Channel
  | [], s => { s with q := [] }
  | mp :: q, s =>
      let (size, s) := s.fillBuffer (mp.map Sample.data)
      if size ≠ mp.length then { s with mp := some mp, q := q } else fillQueue q s

/-- What `audiointr` fills in for its client. -/
def fillWaiting (s : Channel) : Channel :=
  match s.mp with
  | none => fillQueue s.q s
  | some mp =>
      let (size, s) := s.fillBuffer (mp.map Sample.data)
      if size = mp.length then fillQueue s.q { s with mp := none } else s

/-- The search of the client list at the end of `audiointr`. -/
def search (s : Channel) : Channel :=
  match s.mp with
  | none => s
  | some mp =>
      if s.attached then s
      else
        let (left, s) := s.postaudio mp
        if left ≠ [] then { s with mp := some left } else { s with mp := none }

/-- `audiointr` for the channel. -/
def audiointr (s : Channel) : Channel :=
  let s := s.releaseChannelBuffer
  let s := if s.attached then s.fillWaiting else s
  let s :=
    if (s.buffer s.used).length ≠ 0 then s.loadupDma
    else if s.attached then
      { (s.fillBuffer [.silent, .silent]).2.loadupDma with attached := false }
    else s
  s.search

end Channel

/-- What happens to the channel: a message is put on the queue, the service
procedure runs, or the DMA is done with its oldest buffer. -/
inductive Event where
  | put (m : Message)
  | srv
  | intr

def Channel.step (s : Channel) : Event → Channel
  | .put m => { s with q := s.q ++ [m.first], written := s.written ++ (m.first ++ m.cont.flatten) }
  | .srv => s.audiowsrv
  | .intr => { s with reading := s.reading.tail }.audiointr

/-- The channel after `audioopen`. -/
def Channel.opened : Channel where
  q := []
  mp := none
  attached := false
  pending := 0
  used := 0
  buffer := fun _ => []
  reading := []
  handed := []
  written := []
  refilled := false

/-- The bytes of messages among what the DMA was given. -/
def played (l : List Sample) : List Byte :=
  l.filterMap fun
    | .data b => some b
    | .silent => none

end HydraAmix.Audio
