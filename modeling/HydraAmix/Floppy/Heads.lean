import HydraAmix.Library.Schedule
import HydraAmix.Floppy.Device
import Mathlib.Data.List.FinRange
import Mathlib.Logic.Function.Basic

/-!
# Floppy heads and motors

The part of `floph.c` that selects drives, turns motors, moves heads and starts
disk DMA, over four drives behind one port. Every bit of the port is active
low. A drive latches its motor line when it becomes selected, and its head moves
when STEP goes low while it is selected. Whether a drive is ready and whether
its disk is protected comes from outside, anew for each time `pra` is read.
The end of a DMA transfer is not modelled, nor the delays.
-/
namespace HydraAmix.Floppy

/-- `uchar`. -/
abbrev Port := BitVec 8

abbrev DSKRDY : Port := 1 <<< 5
abbrev DSKTRACK0 : Port := 1 <<< 4
abbrev DSKPROT : Port := 1 <<< 3

abbrev DSKMOTOR : Port := 1 <<< 7
abbrev DSKSEL3 : Port := 1 <<< 6
abbrev DSKSEL2 : Port := 1 <<< 5
abbrev DSKSEL1 : Port := 1 <<< 4
abbrev DSKSEL0 : Port := 1 <<< 3
abbrev DSKSEL : Port := DSKSEL0 ||| DSKSEL1 ||| DSKSEL2 ||| DSKSEL3
abbrev DSKSIDE : Port := 1 <<< 2
abbrev DSKDIREC : Port := 1 <<< 1
abbrev DSKSTEP : Port := 1 <<< 0

abbrev DMAEN : BitVec 16 := 1 <<< 15
abbrev WRITE : BitVec 16 := 1 <<< 14
abbrev PRECOMP1 : BitVec 16 := 1 <<< 14
abbrev PRECOMP0 : BitVec 16 := 1 <<< 13
abbrev WORDSYNC : BitVec 16 := 1 <<< 10
abbrev MSBSYNC : BitVec 16 := 1 <<< 9
abbrev FAST : BitVec 16 := 1 <<< 8

abbrev TRKPCYL : ℕ := 2
abbrev RECSLOP : ℕ := 20
abbrev MOTOR_MAX_NAPS : ℕ := 10
abbrev PCOMP1 : ℕ := 80
abbrev PCOMP2 : ℕ := TRACKS + 1
abbrev PCOMP3 : ℕ := TRACKS + 1

def selbits : Fin NDRIVES → Port
  | 0 => DSKSEL0
  | 1 => DSKSEL1
  | 2 => DSKSEL2
  | 3 => DSKSEL3

/-- A bit of a port is high. -/
def high (v bit : Port) : Bool := v &&& bit != 0

/-- A value of `prb` selects a drive. -/
def selects (v : Port) (d : Fin NDRIVES) : Bool := !high v (selbits d)

/-! ### The drives -/

/-- What the drives answer at each reading of `pra`. -/
structure Env where
  ready : ℕ → Bool
  unprotected : ℕ → Bool

/-- The drives, and the port that they share. -/
structure Drives where
  prb : Port
  cyl : Fin NDRIVES → ℕ
  motor : Fin NDRIVES → Bool

/-- A disk DMA, with the drives at its start. -/
structure Dma where
  drives : Drives
  adkcon : BitVec 16
  dskpt : ℕ
  dsklen : BitVec 16

/-- The hardware: the drives, the readings of `pra`, the heads that were stepped
and the DMAs that were started. -/
structure Hw where
  drives : Drives
  adkcon : BitVec 16
  asked : ℕ
  stepped : List (Fin NDRIVES)
  started : List Dma

namespace Hw

/-- A write to `prb` steps the head of a drive. -/
def steps (h : Hw) (v : Port) (d : Fin NDRIVES) : Bool :=
  high h.drives.prb DSKSTEP && !high v DSKSTEP && selects v d

/-- `ACIAB->prb = v`. -/
def write (h : Hw) (v : Port) : Hw :=
  { h with
    drives :=
      { prb := v
        cyl := fun d =>
          if h.steps v d then
            if high v DSKDIREC then h.drives.cyl d - 1 else h.drives.cyl d + 1
          else h.drives.cyl d
        motor := fun d =>
          if !selects h.drives.prb d && selects v d then !high v DSKMOTOR else h.drives.motor d }
    stepped := h.stepped ++ (List.finRange NDRIVES).filter (h.steps v) }

/-- The drives pull TRACK0 low. -/
def track0 (h : Hw) : Bool :=
  (List.finRange NDRIVES).any fun d => selects h.drives.prb d && h.drives.cyl d == 0

/-- `ACIAA->pra`. -/
def pra (env : Env) (h : Hw) : Port :=
  (if env.ready h.asked then 0 else DSKRDY) ||| (if h.track0 then 0 else DSKTRACK0) |||
    (if env.unprotected h.asked then DSKPROT else 0)

/-- `pra` was read. -/
def polled (h : Hw) : Hw := { h with asked := h.asked + 1 }

/-- The wait for a drive to spin up. -/
def spinUp (env : Env) : ℕ → Hw → Bool × Hw
  | 0, h => (!high (h.pra env) DSKRDY, h.polled)
  | ncnt + 1, h =>
      if high (h.pra env) DSKRDY then spinUp env ncnt h.polled else (true, h.polled)

/-- STEP goes low and high again. -/
def pulse (h : Hw) (prb : Port) : Hw :=
  (h.write (prb &&& ~~~DSKSTEP)).write (prb &&& ~~~DSKSTEP ||| DSKSTEP)

/-- The loop of `seek`. -/
def stepTimes : ℕ → Port → Hw → Hw
  | 0, _, h => h
  | n + 1, prb, h => stepTimes n (prb &&& ~~~DSKSTEP ||| DSKSTEP) (h.pulse prb)

/-- The first loop of `recal`: in, while the drive claims to be at track 0. -/
def stepIn (env : Env) : ℕ → Port → Hw → Port × Hw
  | 0, prb, h => (prb, h)
  | n + 1, prb, h =>
      if high (h.pra env) DSKTRACK0 then (prb, h.polled)
      else stepIn env n (prb &&& ~~~DSKSTEP ||| DSKSTEP) (h.polled.pulse prb)

/-- The second loop of `recal`: out, until the drive is at track 0. -/
def stepOut (env : Env) : ℕ → Port → Hw → Bool × Hw
  | 0, _, h => (false, h)
  | n + 1, prb, h =>
      if !high ((h.pulse prb).pra env) DSKTRACK0 then (true, (h.pulse prb).polled)
      else stepOut env n (prb &&& ~~~DSKSTEP ||| DSKSTEP) (h.pulse prb).polled

end Hw

/-! ### `floph.c` -/

/-- `spin`; an unknown track is -1. -/
structure Spin where
  trk : ℤ
  on : Bool
  deriving DecidableEq, Repr

/-- The variables of `floph.c` and the hardware. -/
structure Fl where
  spindle : Fin NDRIVES → Spin
  selected : Option (Fin NDRIVES)
  hw : Hw

namespace Fl

/-- `flinit`, as far as the port goes. -/
def flinit (hw : Hw) : Fl where
  spindle := fun _ => ⟨-1, false⟩
  selected := none
  hw := (hw.write (hw.drives.prb ||| DSKSEL)).write (~~~0)

def out (s : Fl) (v : Port) : Fl := { s with hw := s.hw.write v }

/-- `spindle[drv].trk = trk`. -/
def setTrk (s : Fl) (drv : Fin NDRIVES) (trk : ℤ) : Fl :=
  { s with spindle := Function.update s.spindle drv { s.spindle drv with trk := trk } }

/-- `ACIAB->prb |= DSKSEL`, and no drive is selected. -/
def deselect (s : Fl) : Fl := { s.out (s.hw.drives.prb ||| DSKSEL) with selected := none }

/-- The three writes that select a drive, and its side before them. The
remainder of -1 is not 0 in C either. -/
def choose (s : Fl) (drv : Fin NDRIVES) (on : Bool) : Fl :=
  let prb := if on then ~~~0 &&& ~~~DSKMOTOR else ~~~0
  let prb := if (s.spindle drv).trk % TRKPCYL ≠ 0 then prb &&& ~~~DSKSIDE else prb
  { ((s.out (s.hw.drives.prb ||| DSKSEL)).out prb).out (prb &&& ~~~selbits drv) with
    selected := some drv }

/-- `motor(drv, on)` for a motor that is not as wanted, up to the wait. -/
def turn (s : Fl) (drv : Fin NDRIVES) (on : Bool) : Fl :=
  { s.choose drv on with
    spindle := Function.update s.spindle drv { s.spindle drv with on := on } }

/-- `motor(drv, FALSE)`. -/
def motorOff (s : Fl) (drv : Fin NDRIVES) : Fl :=
  if (s.spindle drv).on = false then
    if s.selected = some drv then s.deselect else s
  else (s.turn drv false).deselect

/-- `motor`. -/
def motor (env : Env) (s : Fl) (drv : Fin NDRIVES) (on : Bool) : Bool × Fl :=
  match on with
  | false => (true, s.motorOff drv)
  | true =>
      if (s.spindle drv).on = true then (true, s)
      else
        match (s.turn drv true).hw.spinUp env MOTOR_MAX_NAPS with
        | (true, hw) => (true, { s.turn drv true with hw := hw })
        | (false, hw) => (false, { s.turn drv true with hw := hw }.motorOff drv)

/-- `select`. -/
def select (s : Fl) (drv : Fin NDRIVES) : Fl :=
  if s.selected = some drv then s else s.choose drv (s.spindle drv).on

/-- `recal`. -/
def recal (env : Env) (s : Fl) (drv : Fin NDRIVES) : Bool × Fl :=
  match s.motor env drv true with
  | (false, s) => (false, s)
  | (true, s) =>
      let s := s.select drv
      let prb := (s.hw.drives.prb ||| DSKSIDE) &&& ~~~DSKDIREC
      let (prb, hw) := (s.hw.write prb).stepIn env (TRACKS / 4) prb
      match hw.stepOut env (TRACKS / TRKPCYL + RECSLOP) (prb ||| DSKDIREC) with
      | (false, hw) => (false, { s with hw := hw }.motorOff drv)
      | (true, hw) => (true, { s with hw := hw }.setTrk drv 0)

/-- The rest of `seek`, from a known track on. -/
def move (s : Fl) (drv : Fin NDRIVES) (trk : ℕ) : Fl :=
  let delta : ℤ := (s.spindle drv).trk / TRKPCYL - trk / TRKPCYL
  let prb := s.hw.drives.prb ||| (DSKSIDE ||| DSKDIREC)
  let prb := if trk % TRKPCYL ≠ 0 then prb &&& ~~~DSKSIDE else prb
  let prb := if delta < 0 then prb &&& ~~~DSKDIREC else prb
  { s with hw := (s.hw.write prb).stepTimes delta.natAbs prb }.setTrk drv trk

/-- `seek`. -/
def seek (env : Env) (s : Fl) (drv : Fin NDRIVES) (trk : ℕ) : Bool × Fl :=
  if (s.spindle drv).trk = trk then (true, s)
  else
    match s.motor env drv true with
    | (false, s) => (false, s)
    | (true, s) =>
        let s := s.select drv
        if (s.spindle drv).trk < 0 then
          match s.recal env drv with
          | (false, s) => (false, s)
          | (true, s) => (true, s.move drv trk)
        else (true, s.move drv trk)

/-- `fllost`. -/
def fllost (s : Fl) (drv : Fin NDRIVES) : Fl := s.setTrk drv (-1)

/-- `flwprot`. -/
def flwprot (env : Env) (s : Fl) (drv : Fin NDRIVES) : Bool × Fl :=
  let s := s.select drv
  (!high (s.hw.pra env) DSKPROT, { s with hw := s.hw.polled })

/-- What `flread` and `flwrite` assert about their buffer. -/
structure Buffer where
  buff : ℕ
  len : ℕ
  chip : buff < 2048 <<< 10
  aligned : buff % 2 = 0
  even : len % 2 = 0
  short : len < (1 <<< 14) * 2

/-- The registers for a disk DMA. -/
def start (s : Fl) (adkcon dsklen : BitVec 16) (b : Buffer) : Fl :=
  { s with hw := { s.hw with
      adkcon := adkcon
      started := s.hw.started ++ [⟨s.hw.drives, adkcon, b.buff, dsklen⟩] } }

/-- What `flread` and `flwrite` do first. -/
def approach (env : Env) (s : Fl) (drv : Fin NDRIVES) (trk : ℕ) : Bool × Fl :=
  match s.motor env drv true with
  | (false, s) => (false, s)
  | (true, s) => (s.select drv).seek env drv trk

/-- `flread`. -/
def flread (env : Env) (s : Fl) (drv : Fin NDRIVES) (trk : ℕ) (b : Buffer) : Bool × Fl :=
  match s.approach env drv trk with
  | (false, s) => (false, s)
  | (true, s) =>
      (true, s.start (s.hw.adkcon &&& ~~~(WORDSYNC ||| MSBSYNC) ||| FAST)
        (BitVec.ofNat 16 (b.len / 2) ||| DMAEN) b)

/-- `flwrite`. -/
def flwrite (env : Env) (s : Fl) (drv : Fin NDRIVES) (trk : ℕ) (b : Buffer) : Bool × Fl :=
  match s.approach env drv trk with
  | (false, s) => (false, s)
  | (true, s) =>
      if !high (s.hw.pra env) DSKPROT then (false, { s with hw := s.hw.polled })
      else
        let adkcon := s.hw.adkcon &&& ~~~(WORDSYNC ||| MSBSYNC ||| PRECOMP1 ||| PRECOMP0) |||
          (if trk ≥ PCOMP3 then FAST ||| PRECOMP1 ||| PRECOMP0
          else if trk ≥ PCOMP2 then FAST ||| PRECOMP1
          else if trk ≥ PCOMP1 then FAST ||| PRECOMP0
          else FAST)
        (true, { s with hw := s.hw.polled }.start adkcon
          (BitVec.ofNat 16 (b.len / 2) ||| DMAEN ||| WRITE) b)

end Fl

/-- The calls of the driver. -/
inductive Call where
  | flread (drv : Fin NDRIVES) (trk : Fin TRACKS) (b : Fl.Buffer)
  | flwrite (drv : Fin NDRIVES) (trk : Fin TRACKS) (b : Fl.Buffer)
  | flwprot (drv : Fin NDRIVES)
  | flok (drv : Fin NDRIVES)
  | flstop (drv : Fin NDRIVES)
  | fllost (drv : Fin NDRIVES)

def Fl.call (env : Env) (s : Fl) : Call → Fl
  | .flread drv trk b => (s.flread env drv trk b).2
  | .flwrite drv trk b => (s.flwrite env drv trk b).2
  | .flwprot drv => (s.flwprot env drv).2
  | .flok drv => (s.motor env drv true).2
  | .flstop drv => (s.motor env drv false).2
  | .fllost drv => s.fllost drv

end HydraAmix.Floppy
