import HydraAmix.Library.Ring
import HydraAmix.Library.Word

/-!
# The DP8390 of the Hydra board, as the driver programs it

Register offsets and bits are those of `ne2000.h`. The command register is
kept as its last written value without TXP (`cmd`, whose top two bits select
the register page) and the transmitter flag `txp`: writing TXP sets it,
writing a command without TXP leaves it alone, and only the end of a
transmission clears it. Interrupt bits are cleared by writing ones.

`deposit` is the receiver storing one frame in the ring between PSTART and
PSTOP, `txEnd` the transmitter finishing. The reset bit of ISR is not modeled:
`hydra_reset` polls it a bounded number of times and discards what it read.
Registers without a role in the driver's logic are plain storage.
-/
namespace HydraAmix.Hydra
open Word

/-! ### Registers -/

abbrev NE_CR : ℕ := 0x00
abbrev NE_PSTART : ℕ := 0x01
abbrev NE_PSTOP : ℕ := 0x02
abbrev NE_BNRY : ℕ := 0x03
abbrev NE_TSR : ℕ := 0x04
abbrev NE_TPSR : ℕ := 0x04
abbrev NE_TBCNT0 : ℕ := 0x05
abbrev NE_TBCNT0_W : ℕ := 0x05
abbrev NE_FIFO : ℕ := 0x06
abbrev NE_TBCNT1 : ℕ := 0x06
abbrev NE_TBCNT1_W : ℕ := 0x06
abbrev NE_ISR : ℕ := 0x07
abbrev NE_RBCNT0 : ℕ := 0x0a
abbrev NE_RBCNT1 : ℕ := 0x0b
abbrev NE_RCR : ℕ := 0x0c
abbrev NE_TCR : ℕ := 0x0d
abbrev NE_CNTR0 : ℕ := 0x0d
abbrev NE_DCR : ℕ := 0x0e
abbrev NE_IMR : ℕ := 0x0f
abbrev NE_PAR0 : ℕ := 0x01
abbrev NE_CURR : ℕ := 0x07
abbrev NE_MAR0 : ℕ := 0x08

/-! ### Register bits -/

abbrev NE_CR_P0 : Byte := 0x00#8
abbrev NE_CR_P1 : Byte := 0x40#8
abbrev NE_CR_STP : Byte := 0x01#8
abbrev NE_CR_STA : Byte := 0x02#8
abbrev NE_CR_TXP : Byte := 0x04#8
abbrev NE_CR_RDMA_ABORT : Byte := 0x20#8
abbrev NE_CR_NODMA : Byte := 0x20#8
abbrev NE_ISR_PRX : Byte := 0x01#8
abbrev NE_ISR_PTX : Byte := 0x02#8
abbrev NE_ISR_RXE : Byte := 0x04#8
abbrev NE_ISR_TXE : Byte := 0x08#8
abbrev NE_ISR_OVW : Byte := 0x10#8
abbrev NE_ISR_CNT : Byte := 0x20#8
abbrev NE_ISR_RST : Byte := 0x80#8
abbrev NE_TSR_COL : Byte := 0x04#8
abbrev NE_TSR_ABT : Byte := 0x08#8
abbrev NE_TSR_CRS : Byte := 0x10#8
abbrev NE_TSR_CDH : Byte := 0x40#8
abbrev NE_RSR_PRX : Byte := 0x01#8
abbrev NE_RSR_CRC : Byte := 0x02#8
abbrev NE_RSR_FAE : Byte := 0x04#8
abbrev NE_RSR_FO : Byte := 0x08#8
abbrev NE_DCR_WTS : Byte := 0x01#8
abbrev NE_DCR_BOS : Byte := 0x02#8
abbrev NE_DCR_LS : Byte := 0x08#8
abbrev NE_DCR_FT0 : Byte := 0x20#8
abbrev NE_TCR_NORMAL : Byte := 0x00#8
abbrev NE_RCR_AB : Byte := 0x04#8
abbrev NE_RCR_AM : Byte := 0x08#8
abbrev NE_IMR_PRXE : Byte := 0x01#8
abbrev NE_IMR_PTXE : Byte := 0x02#8
abbrev NE_IMR_RXEE : Byte := 0x04#8
abbrev NE_IMR_TXEE : Byte := 0x08#8
abbrev NE_IMR_OVWE : Byte := 0x10#8
abbrev NE_IMR_CNTE : Byte := 0x20#8

attribute [simp] NE_CR_P0 NE_CR_P1 NE_CR_STP NE_CR_STA NE_CR_TXP NE_CR_RDMA_ABORT NE_CR_NODMA

/-! ### Board constants -/

abbrev NE8390_NIC_OFFSET : ℕ := 0xffe1
abbrev NE8390_START_PG : ℤ := 0x00
abbrev NE8390_STOP_PG : ℤ := 0x40
abbrev NE8390_TX_PAGES : ℤ := 8
abbrev NE8390_RX_START_PG : ℤ := NE8390_START_PG + NE8390_TX_PAGES

/-- The chip and the buffer RAM of one board. `sent` is the wire: the bytes
of every transmission started so far. -/
structure Nic where
  cmd : Byte
  txp : Bool
  isr : Byte
  tsr : Byte
  cntr0 : Byte
  pstart : Byte
  pstop : Byte
  bnry : Byte
  curr : Byte
  tpsr : Byte
  tbcnt0 : Byte
  tbcnt1 : Byte
  plain : ℕ → Byte
  ram : ℕ → Byte
  sent : List (List Byte)

namespace Nic

/-- The register page selected by the last command. -/
def page (n : Nic) : ℕ := (n.cmd >>> 6).toNat

/-- `n` bytes of buffer RAM in address order. -/
def bytes (n : Nic) (offset len : ℕ) : List Byte :=
  (List.range len).map fun i => n.ram (offset + i)

/-- What the transmitter puts on the wire when it is started. -/
def txFrame (n : Nic) : List Byte :=
  n.bytes (n.tpsr.toNat * 256) (n.tbcnt1.toNat * 256 + n.tbcnt0.toNat)

/-- A write to the command register. -/
def command (n : Nic) (v : Byte) : Nic :=
  { n with
    cmd := v &&& ~~~NE_CR_TXP
    txp := n.txp || v &&& NE_CR_TXP != 0
    sent := if v &&& NE_CR_TXP != 0 then n.sent ++ [n.txFrame] else n.sent }

def inb (n : Nic) (reg : ℕ) : Byte :=
  if reg = NE_CR then n.cmd ||| (if n.txp then NE_CR_TXP else 0)
  else if n.page = 0 ∧ reg = NE_BNRY then n.bnry
  else if n.page = 0 ∧ reg = NE_TSR then n.tsr
  else if n.page = 0 ∧ reg = NE_ISR then n.isr
  else if n.page = 0 ∧ reg = NE_CNTR0 then n.cntr0
  else if n.page = 1 ∧ reg = NE_CURR then n.curr
  else n.plain (16 * n.page + reg)

def outb (n : Nic) (reg : ℕ) (v : Byte) : Nic :=
  if reg = NE_CR then n.command v
  else if n.page = 0 ∧ reg = NE_PSTART then { n with pstart := v }
  else if n.page = 0 ∧ reg = NE_PSTOP then { n with pstop := v }
  else if n.page = 0 ∧ reg = NE_BNRY then { n with bnry := v }
  else if n.page = 0 ∧ reg = NE_TPSR then { n with tpsr := v }
  else if n.page = 0 ∧ reg = NE_TBCNT0 then { n with tbcnt0 := v }
  else if n.page = 0 ∧ reg = NE_TBCNT1 then { n with tbcnt1 := v }
  else if n.page = 0 ∧ reg = NE_ISR then { n with isr := n.isr &&& ~~~v }
  else if n.page = 1 ∧ reg = NE_CURR then { n with curr := v }
  else { n with plain := Function.update n.plain (16 * n.page + reg) v }

section
variable (n : Nic) (v : Byte)

/-- A command without TXP only selects what the registers mean. -/
@[simp] theorem outb_command {v : Byte} (h : v &&& NE_CR_TXP = 0) :
    n.outb NE_CR v = { n with cmd := v } := by
  have hv : ∀ v : Byte, v &&& 4#8 = 0 → v &&& 251#8 = v := by decide +kernel
  simp [outb, command, hv v h, show v &&& 4#8 = 0 from h]

@[simp] theorem outb_pstart (h : n.page = 0) : n.outb NE_PSTART v = { n with pstart := v } := by
  simp [outb, h]

@[simp] theorem outb_pstop (h : n.page = 0) : n.outb NE_PSTOP v = { n with pstop := v } := by
  simp [outb, h]

@[simp] theorem outb_bnry (h : n.page = 0) : n.outb NE_BNRY v = { n with bnry := v } := by
  simp [outb, h]

@[simp] theorem outb_tpsr (h : n.page = 0) : n.outb NE_TPSR v = { n with tpsr := v } := by
  simp [outb, h]

@[simp] theorem outb_tbcnt0 (h : n.page = 0) : n.outb NE_TBCNT0 v = { n with tbcnt0 := v } := by
  simp [outb, h]

@[simp] theorem outb_tbcnt1 (h : n.page = 0) : n.outb NE_TBCNT1 v = { n with tbcnt1 := v } := by
  simp [outb, h]

@[simp] theorem outb_isr (h : n.page = 0) :
    n.outb NE_ISR v = { n with isr := n.isr &&& ~~~v } := by
  simp [outb, h]

@[simp] theorem outb_curr (h : n.page = 1) : n.outb NE_CURR v = { n with curr := v } := by
  simp [outb, h]

/-- The registers from RBCNT0 on hold nothing the driver depends on. -/
@[simp] theorem outb_plain {reg : ℕ} (h : 0x08 ≤ reg) :
    n.outb reg v = { n with plain := Function.update n.plain (16 * n.page + reg) v } := by
  unfold outb NE_CR NE_PSTART NE_PSTOP NE_BNRY NE_TPSR NE_TBCNT0 NE_TBCNT1 NE_ISR NE_CURR
  iterate 9 rw [if_neg (by omega)]

@[simp] theorem inb_bnry (h : n.page = 0) : n.inb NE_BNRY = n.bnry := by simp [inb, h]

@[simp] theorem inb_tsr (h : n.page = 0) : n.inb NE_TSR = n.tsr := by simp [inb, h]

@[simp] theorem inb_isr (h : n.page = 0) : n.inb NE_ISR = n.isr := by simp [inb, h]

@[simp] theorem inb_curr (h : n.page = 1) : n.inb NE_CURR = n.curr := by simp [inb, h]

end

/-- A longword read of the buffer RAM. -/
def readl (n : Nic) (offset : ℤ) : Long :=
  long (n.ram offset.toNat) (n.ram (offset.toNat + 1)) (n.ram (offset.toNat + 2))
    (n.ram (offset.toNat + 3))

/-- A longword write to the buffer RAM. -/
def writel (n : Nic) (offset : ℤ) (v : Long) : Nic :=
  let m := Function.update n.ram offset.toNat (byte v 3)
  let m := Function.update m (offset.toNat + 1) (byte v 2)
  let m := Function.update m (offset.toNat + 2) (byte v 1)
  { n with ram := Function.update m (offset.toNat + 3) (byte v 0) }

/-- The end of a transmission: TXP falls and ISR tells how it went. -/
def txEnd (n : Nic) (done : Bool) (tsr : Byte) : Nic :=
  if n.txp then
    { n with
      txp := false
      tsr := tsr
      isr := n.isr ||| (if done then NE_ISR_PTX else NE_ISR_TXE) }
  else n

/-- The ring page `k` pages after page `p`. -/
def advance (n : Nic) (p : Byte) (k : ℕ) : Byte :=
  BitVec.ofNat 8 (n.pstart.toNat +
    (p.toNat - n.pstart.toNat + k) % (n.pstop.toNat - n.pstart.toNat))

/-- The pages taken by a frame of `len` bytes behind its four header bytes. -/
def pages (len : ℕ) : ℕ := (4 + len + 255) / 256

/-- The header the receiver puts before a frame. -/
def header (next status : Byte) (len : ℕ) : List Byte :=
  [next, status, BitVec.ofNat 8 (len + 4), BitVec.ofNat 8 ((len + 4) / 256)]

/-- A frame fits when none of the pages it is written to is BNRY. -/
def Fits (n : Nic) (len : ℕ) : Prop := ∀ k < pages len, n.advance n.curr k ≠ n.bnry

instance (n : Nic) (len : ℕ) : Decidable (n.Fits len) := by
  unfold Fits
  infer_instance

/-- The receiver stores a frame at CURR, wrapping from PSTOP to PSTART, and
moves CURR to the page the header names. Without room nothing is stored. -/
def deposit (n : Nic) (status : Byte) (frame : List Byte) : Nic :=
  if n.Fits frame.length then
    let next := n.advance n.curr (pages frame.length)
    { n with
      ram := Ring.store (n.pstart.toNat * 256) ((n.pstop.toNat - n.pstart.toNat) * 256) n.ram
        ((n.curr.toNat - n.pstart.toNat) * 256) (header next status frame.length ++ frame)
      curr := next }
  else n

end Nic
end HydraAmix.Hydra
