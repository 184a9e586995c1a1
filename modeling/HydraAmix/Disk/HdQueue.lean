import HydraAmix.Disk.JbBus
import HydraAmix.Library.CircularList
import HydraAmix.Library.Schedule

/-!
# The queue of the ST506 driver

One controller of `hd.c` after `hdopen`, with its queue as the links that the code
keeps in `hdctab` and in the buffers: a buffer is its address, and `none` the header.
The bus is whoever's it is: a call of `hdstrategy` finds out whether `jbcall` starts the
controller at once, and `hdstart` may be called at any time, as `jbpass` does. All run
at the level of the interrupt; `iodone` may call `hdstrategy` again. A buffer is not
handed to the driver while the driver has it. `b_errcnt` is taken wide enough.

Beside the variables of the driver stand the buffers that came and those that `hddone`
completed, with `B_ERROR` or without, latest first, and of each buffer how often it was
issued and how often that failed since it came.
-/
namespace HydraAmix.Disk.Hd
open Schedule Jb CircularList

/-- `hdctab[0]`, the buffers, and the command that was last issued. -/
structure Hdctab where
  links : Links ℕ
  acts : Option ℕ
  dirn : Bool
  qcnt : ℕ
  active : ℕ
  errcnt : ℕ
  buf : ℕ → Jb.Buf
  command : Option Hdcom
  came : List ℕ
  iodone : List (ℕ × Bool)
  issued : ℕ → ℕ
  failed : ℕ → ℕ

/-- A call of `hdstrategy`: the buffer, what it asks for, and whether `jbcall` calls
`hdstart` at once. -/
structure Request where
  bp : ℕ
  buf : Jb.Buf
  now : Bool

namespace Hdctab

/-- After `hdopen`; the buffers are what they are. -/
def opened (buf : ℕ → Jb.Buf) : Hdctab where
  links := ⟨fun _ => none, fun _ => none⟩
  acts := none
  dirn := true
  qcnt := 0
  active := 0
  errcnt := 0
  buf := buf
  command := none
  came := []
  iodone := []
  issued := fun _ => 0
  failed := fun _ => 0

/-- The driver has the buffer. -/
def Has (tp : Hdctab) (bp : ℕ) : Prop := (tp.iodone.map Prod.fst).count bp < tp.came.count bp

instance (tp : Hdctab) (bp : ℕ) : Decidable (tp.Has bp) :=
  inferInstanceAs (Decidable (_ < _))

/-- `next`. -/
def next (tp : Hdctab) (bp : ℕ) : Hdctab :=
  { tp with acts := if tp.dirn then tp.links.forw (some bp) else tp.links.back (some bp) }

/-- `hdstart`; passing on the bus is left out. -/
def hdstart (tp : Hdctab) : Hdctab :=
  if tp.active ≠ 0 then tp
  else
    match tp.acts with
    | none => tp
    | some bp => { tp with
        active := tp.active + 1
        command := some (tp.buf bp).hdcom
        issued := Function.update tp.issued bp (tp.issued bp + 1) }

/-- `hdinsq`. The queue is never longer than `qcnt`, which counts every request twice. -/
def hdinsq (tp : Hdctab) (bp : ℕ) : Hdctab :=
  let tp := { tp with qcnt := tp.qcnt + 1, errcnt := 0 }
  let b := (tp.buf bp).blkno
  let xp := tp.links.search (fun xp => b < (tp.buf xp).blkno) tp.qcnt none
  { tp with
    links := tp.links.insert bp xp
    acts := if tp.acts = none then some bp else tp.acts }

/-- `hdremq`. -/
def hdremq (tp : Hdctab) (bp : ℕ) : Hdctab :=
  let tp := { tp with links := tp.links.remove bp }
  let tp := tp.next bp
  if tp.acts = none then { tp with dirn := !tp.dirn }.next bp else tp

/-- `hdstrategy`. -/
def hdstrategy (tp : Hdctab) (r : Request) : Hdctab :=
  if tp.Has r.bp then tp
  else
    let tp := { tp with
      qcnt := tp.qcnt + 1
      buf := Function.update tp.buf r.bp { r.buf with resid := r.buf.bcount }
      came := r.bp :: tp.came
      issued := Function.update tp.issued r.bp 0
      failed := Function.update tp.failed r.bp 0 }
    let tp := tp.hdinsq r.bp
    if tp.active = 0 ∧ r.now then tp.hdstart else tp

/-- `hddone`, and what the handler of the request hands in. -/
def hddone (tp : Hdctab) (bp : ℕ) (calls : List Request) : Hdctab :=
  calls.foldl hdstrategy { tp with iodone := (bp, (tp.buf bp).error) :: tp.iodone }

/-- The part of `hdintr` for the request at `acts`. -/
def hdend (tp : Hdctab) (bp : ℕ) (errs : Byte) (calls : List Request) : Hdctab :=
  if errs &&& 0x7f = 0 then
    let resid := (tp.buf bp).resid
    let nb := if MAXTRAN * 512 ≤ resid then MAXTRAN * 512 else resid
    let tp := { tp with
      buf := Function.update tp.buf bp { tp.buf bp with resid := resid - nb } }
    if resid - nb = 0 then (tp.hdremq bp).hddone bp calls else tp
  else
    let tp := { tp with
      errcnt := tp.errcnt + 1
      failed := Function.update tp.failed bp (tp.failed bp + 1) }
    if tp.errcnt < NTRY then tp
    else
      let tp := { tp with
        buf := Function.update tp.buf bp { tp.buf bp with error := true } }
      (tp.hdremq bp).hddone bp calls

/-- `hdintr`. While a command is out, `acts` is not the header. -/
def hdintr (tp : Hdctab) (errs : Byte) (calls : List Request) : Hdctab :=
  if tp.active = 0 then tp
  else
    let tp := { tp with active := 0 }
    match tp.acts with
    | none => tp.hdstart
    | some bp => (tp.hdend bp errs calls).hdstart

end Hdctab

/-- `hdstrategy`, a call of `hdstart`, and the interrupt with the errors that the
controller left and what the handler of the request hands in if it is completed. -/
inductive Event where
  | strategy (r : Request)
  | start
  | intr (errs : Byte) (calls : List Request)

def step (tp : Hdctab) : Event → Hdctab
  | .strategy r => tp.hdstrategy r
  | .start => tp.hdstart
  | .intr errs calls => tp.hdintr errs calls

/-- The links spell the buffers that the driver has, each once, `acts` is one of them, or
the header if there are none, and each was completed once for each other time it came. -/
structure Queued (tp : Hdctab) (l : List ℕ) : Prop where
  spells : tp.links.Spells l
  nodup : l.Nodup
  header : tp.acts = none ↔ l = []
  acts : ∀ bp, tp.acts = some bp → bp ∈ l
  once : ∀ bp, (tp.iodone.map Prod.fst).count bp + l.count bp = tp.came.count bp

/-- A failing interrupt for a buffer whose every command failed completes it with
`B_ERROR` if it was issued `NTRY` times, and completes nothing otherwise. -/
def Tried (tp : Hdctab) : Event → Prop
  | .intr errs calls => errs &&& 0x7f ≠ 0 → tp.active ≠ 0 → ∀ bp, tp.acts = some bp →
      tp.issued bp = tp.failed bp + 1 →
      (step tp (.intr errs calls)).iodone =
        if tp.issued bp = NTRY then (bp, true) :: tp.iodone else tp.iodone
  | _ => True

/-- At such an interrupt `b_errcnt` counts the failures of this very buffer. -/
def OwnCount (tp : Hdctab) : Event → Prop
  | .intr errs _ => errs &&& 0x7f ≠ 0 → tp.active ≠ 0 → ∀ bp, tp.acts = some bp →
      tp.issued bp = tp.failed bp + 1 → tp.errcnt = tp.failed bp
  | _ => True

end HydraAmix.Disk.Hd
