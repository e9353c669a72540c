import CamkesVm.Machine.Memory

/-!
# The register file of the controller

The controller's registers are one file of octets, and each driver command of `spi_cmd.c` is
its effect on that file. The addresses are those of the driver's header. By that header the
registers of filter 3 are `0x0C` to `0x0F`, the last two of which are also CANSTAT and CANCTRL.

Loading a transmit buffer reaches the buffer of its number. Reading a receive buffer does not have to:
which registers it returns and which flag it clears depends on the instruction byte, so it is part of
the model of the bus.
-/

namespace CamkesVm.Can

open CamkesVm.Machine

/-- The contents of every register. -/
abbrev Regs := Byte → Byte

/-- The control register of a transmit buffer. -/
def txbctrl (n : ℕ) : Byte := BitVec.ofNat 8 ((n + 0x3) <<< 4)

/-- The first register behind the control register of a transmit buffer. -/
def txbsidh (n : ℕ) : Byte := txbctrl n + 0x1

/-- The control register of a receive buffer. -/
def rxbctrl (n : ℕ) : Byte := BitVec.ofNat 8 ((n + 0x6) <<< 4)

/-- The first register behind the control register of a receive buffer. -/
def rxbsidh (n : ℕ) : Byte := rxbctrl n + 0x1

/-- The first register of a receive filter. -/
def rxfsidh (n : ℕ) : Byte := BitVec.ofNat 8 (n <<< 2)

/-- The first register of a receive mask. -/
def rxmsidh (n : ℕ) : Byte := BitVec.ofNat 8 (n <<< 2 + 0x20)

/-- The state of the controller. -/
def canstat : Byte := 0xE

/-- The control register of the controller. -/
def canctrl : Byte := 0xF

/-- The interrupt enable bits. -/
def caninte : Byte := 0x2B

/-- The interrupt flags: message error, wake-up, error, then the transmit buffers 2 to 0 and the
receive buffers 1 and 0. -/
def canintf : Byte := 0x2C

/-- The error flags. -/
def eflg : Byte := 0x2D

/-- The bit of a position. -/
def bit (n : ℕ) : Byte := 1#8 <<< n

/-- The transmit request bit of a transmit buffer's control register. -/
def txbctrlTxreq : Byte := 0x08

/-- The operation mode bits of the control register. -/
def canctrlReqopMask : Byte := 0xE0

/-- The position of the operation mode. -/
def canctrlReqopShf : ℕ := 5

/-- The position of the operation mode in the state register. -/
def canstatOpmodShf : ℕ := 5

/-- Read a register. -/
def mcp2515ReadReg (regs : Regs) (reg : Byte) : Byte := regs reg

/-- Read registers in series. -/
def mcp2515ReadNregs (regs : Regs) (reg : Byte) (count : ℕ) : Bytes count :=
  fun i => regs (reg + BitVec.ofNat 8 i)

/-- Write a register. -/
def mcp2515WriteReg (regs : Regs) (reg val : Byte) : Regs := Function.update regs reg val

/-- Write registers in series. -/
def mcp2515WriteNregs {count : ℕ} (regs : Regs) (reg : Byte) (buf : Bytes count) : Regs := fun a =>
  if h : (a - reg).toNat < count then buf ⟨(a - reg).toNat, h⟩ else regs a

/-- Set or clear individual bits of a register. -/
def mcp2515BitModify (regs : Regs) (reg mask val : Byte) : Regs :=
  Function.update regs reg ((regs reg &&& ~~~mask) ||| (val &&& mask))

/-- Request transmission of the buffers in a mask of three bits. -/
def mcp2515Rts (regs : Regs) (mask : Byte) : Regs := fun a =>
  if ∃ n : Fin 3, a = txbctrl n ∧ mask.getLsbD n = true then regs a ||| txbctrlTxreq else regs a

/-- Load the first `len` bytes into a transmit buffer, behind its control register. -/
def mcp2515LoadTxb {count : ℕ} (regs : Regs) (buf : Bytes count) (len idx : ℕ) : Regs := fun a =>
  if h : (a - txbsidh idx).toNat < min len count then
    buf ⟨(a - txbsidh idx).toNat, Nat.lt_of_lt_of_le h (Nat.min_le_right _ _)⟩
  else regs a

variable {count other : ℕ} (regs : Regs) (reg : Byte)

/-- A written series reads back. -/
theorem mcp2515ReadNregs_writeNregs (buf : Bytes count) (hcount : count ≤ 256) :
    mcp2515ReadNregs (mcp2515WriteNregs regs reg buf) reg count = buf := by
  funext i
  have hi : i.val < 256 := Nat.lt_of_lt_of_le i.isLt hcount
  have hoffset : (reg + BitVec.ofNat 8 i - reg).toNat = i := by bv_omega
  rw [mcp2515ReadNregs, mcp2515WriteNregs, dif_pos (hoffset.trans_lt i.isLt)]
  congr 1
  exact Fin.ext hoffset

/-- A write elsewhere leaves a series as it was. -/
theorem mcp2515ReadNregs_writeNregs_of_disjoint (buf : Bytes other) (elsewhere : Byte)
    (h : ∀ i : Fin count, other ≤ (reg + BitVec.ofNat 8 i - elsewhere).toNat) :
    mcp2515ReadNregs (mcp2515WriteNregs regs elsewhere buf) reg count =
      mcp2515ReadNregs regs reg count := by
  funext i
  exact dif_neg (Nat.not_lt.mpr (h i))

/-- A bit modification elsewhere leaves a series as it was. -/
theorem mcp2515ReadNregs_bitModify_of_ne {elsewhere mask val : Byte}
    (h : ∀ i : Fin count, reg + BitVec.ofNat 8 i ≠ elsewhere) :
    mcp2515ReadNregs (mcp2515BitModify regs elsewhere mask val) reg count =
      mcp2515ReadNregs regs reg count := by
  funext i
  exact Function.update_of_ne (h i) _ _

end CamkesVm.Can
