import CamkesVm.Can.Registers

/-!
# Bit timing

The driver turns a baud rate into the bit timing registers of the controller. A bit lasts a number of
time quanta, and a quantum lasts twice the prescaler in periods of the crystal. The search over the
number of quanta takes the first one whose quantum, in nanoseconds, is closest to a multiple of the
period of the crystal. That is half of what a quantum is a multiple of, and the prescaler is not asked to
fit its six bits.

A rate that can be had exactly takes a whole number of base quanta a bit. The registers hold it exactly
when the search stops at eight quanta and that number is a multiple of eight, or when the search goes on
to ten; and when the prescaler fits.
-/

namespace CamkesVm.Can

open CamkesVm.Machine

/-- The register `CNF1`. -/
def cnf1 : Byte := 0x2A

/-- The register `CNF2`. -/
def cnf2 : Byte := 0x29

/-- The register `CNF3`. -/
def cnf3 : Byte := 0x28

/-- The flag `CNF2_BTLMODE`. -/
def cnf2Btlmode : Byte := 0x80

/-- The constant `OSC_FREQ`. -/
def oscFreq : BitVec 32 := 20000000

/-- The constant `NS_IN_SEC`. -/
def nsInSec : BitVec 32 := 1000000000

/-- The constant `MIN_TQ_NUM`. -/
def minTqNum : ℕ := 8

/-- The constant `MAX_TQ_NUM`. -/
def maxTqNum : ℕ := 25

/-- The constant `SAMPLE_POINT`. -/
def samplePoint : BitVec 32 := 30

/-- The macro `DIV_ROUND`. -/
def divRound (n d : BitVec 32) : BitVec 32 := (n + d / 2) / d

/-- The constant `TIME_PER_TICK`. -/
def timePerTick : BitVec 32 := divRound nsInSec oscFreq

/-- The error of a quantum against the crystal. -/
def tickError (tqTime : BitVec 32) : BitVec 32 :=
  let error := tqTime % timePerTick
  if timePerTick < 2 * error then timePerTick - error else error

/-- The search for the number of quanta with the smallest error, the first one of them. -/
def findTqNum (bitTime : BitVec 32) : Byte :=
  ((List.range' minTqNum (maxTqNum + 1 - minTqNum)).foldl
    (fun (best : BitVec 32 × Byte) i =>
      let error := tickError (divRound bitTime (BitVec.ofNat 32 i))
      if error < best.1 then (error, BitVec.ofNat 8 i) else best)
    (0xFFFFFFFF, BitVec.ofNat 8 minTqNum)).2

/-- The function `hw_set_bit_timing`. -/
def hwSetBitTiming (regs : Regs) (sjw brp propseg phseg1 phseg2 : Byte) : Regs :=
  mcp2515WriteNregs regs cnf3
    ![phseg2 - 1, cnf2Btlmode ||| (phseg1 - 1) <<< 3 ||| (propseg - 1), (sjw - 1) <<< 6 ||| (brp - 1)]

/-- The function `set_baudrate`. -/
def setBaudrate (regs : Regs) (baudrate : BitVec 32) : Regs :=
  let tqNum := findTqNum (divRound nsInSec baudrate)
  let brp := (divRound oscFreq (2 * baudrate * tqNum.setWidth 32)).setWidth 8
  let phseg2 := (divRound (tqNum.setWidth 32 * samplePoint) 100).setWidth 8
  let phseg1 := phseg2
  let propseg := tqNum - 1 - phseg1 - phseg2
  if 2 < propseg then hwSetBitTiming regs 1 brp 2 (phseg1 + (propseg - 2)) phseg2
  else hwSetBitTiming regs 1 brp propseg phseg1 phseg2

/-- The prescaler in the registers. -/
def brpOf (regs : Regs) : ℕ := (regs cnf1 &&& 0x3F).toNat + 1

/-- The number of quanta a bit in the registers: the fixed one and the three segments. -/
def tqCountOf (regs : Regs) : ℕ :=
  1 + ((regs cnf2 &&& 0x07).toNat + 1) + ((regs cnf2 >>> 3 &&& 0x07).toNat + 1) +
    ((regs cnf3 &&& 0x07).toNat + 1)

/-- The registers hold the rate exactly. -/
def HoldsRate (regs : Regs) (rate : ℕ) : Prop := 2 * brpOf regs * tqCountOf regs * rate = oscFreq.toNat

instance (regs : Regs) (rate : ℕ) : Decidable (HoldsRate regs rate) :=
  inferInstanceAs (Decidable (_ = _))

/-- The base quanta a bit: half the periods of the crystal. -/
def baseQuanta (rate : ℕ) : ℕ := 10000000 / rate

/-- A rate that the search hits: eight quanta with a prescaler, or ten. -/
def Hits (rate : ℕ) : Prop :=
  (8 ∣ baseQuanta rate ∧ baseQuanta rate ≤ 8 * 64) ∨
    (baseQuanta rate % 4 = 2 ∧ baseQuanta rate ≤ 10 * 64)

instance (rate : ℕ) : Decidable (Hits rate) := inferInstanceAs (Decidable (_ ∨ _))

/-- The write covers the three bit timing registers. -/
theorem hwSetBitTiming_cnf (regs blank : Regs) (sjw brp propseg phseg1 phseg2 : Byte) :
    mcp2515ReadNregs (hwSetBitTiming regs sjw brp propseg phseg1 phseg2) cnf3 3 =
      mcp2515ReadNregs (hwSetBitTiming blank sjw brp propseg phseg1 phseg2) cnf3 3 := by
  unfold hwSetBitTiming
  rw [mcp2515ReadNregs_writeNregs regs cnf3 _ (by decide),
    mcp2515ReadNregs_writeNregs blank cnf3 _ (by decide)]

/-- The bit timing does not depend on what the registers held before. -/
theorem setBaudrate_cnf (regs blank : Regs) (baudrate : BitVec 32) :
    mcp2515ReadNregs (setBaudrate regs baudrate) cnf3 3 =
      mcp2515ReadNregs (setBaudrate blank baudrate) cnf3 3 := by
  unfold setBaudrate
  dsimp only
  split
  · exact hwSetBitTiming_cnf regs blank _ _ _ _ _
  · exact hwSetBitTiming_cnf regs blank _ _ _ _ _

/-- The rate is read from the three registers. -/
theorem holdsRate_congr {regs regs' : Regs} (rate : ℕ)
    (h : mcp2515ReadNregs regs cnf3 3 = mcp2515ReadNregs regs' cnf3 3) :
    HoldsRate regs rate ↔ HoldsRate regs' rate := by
  have hcnf3 : regs cnf3 = regs' cnf3 := congrFun h 0
  have hcnf2 : regs cnf2 = regs' cnf2 := congrFun h 1
  have hcnf1 : regs cnf1 = regs' cnf1 := congrFun h 2
  unfold HoldsRate brpOf tqCountOf
  rw [hcnf1, hcnf2, hcnf3]

/-- The search over all rates that take a whole number of base quanta. -/
theorem holdsRate_iff_hits_of_dvd : ∀ n < 1601, 10 ≤ n → n ∣ 10000000 →
    (HoldsRate (setBaudrate (fun _ => 0) (BitVec.ofNat 32 (10000000 / n))) (10000000 / n) ↔
      Hits (10000000 / n)) := by
  decide +kernel

/-- For a rate that the registers can hold exactly, the driver finds it exactly when the search hits. -/
theorem setBaudrate_exact_iff (regs : Regs) (baudrate : BitVec 32)
    (hmax : baudrate.toNat ≤ 1000000)
    (hexact : ∃ t p : ℕ, (8 ≤ t ∧ t ≤ 25) ∧ (1 ≤ p ∧ p ≤ 64) ∧ 2 * p * t * baudrate.toNat = 20000000) :
    2 * brpOf (setBaudrate regs baudrate) * tqCountOf (setBaudrate regs baudrate) * baudrate.toNat =
        20000000 ↔ Hits baudrate.toNat := by
  obtain ⟨t, p, ⟨_, ht⟩, ⟨_, hp⟩, hrate⟩ := hexact
  have hquanta : p * t * baudrate.toNat = 10000000 := by
    rw [Nat.mul_assoc 2 p t, Nat.mul_assoc 2 (p * t)] at hrate
    omega
  have hmost : p * t < 1601 := Nat.lt_succ_of_le (Nat.mul_le_mul hp ht)
  have hleast : 10 ≤ p * t := by
    by_contra hless
    have := Nat.mul_le_mul (Nat.le_of_lt_succ (Nat.lt_of_not_le hless)) hmax
    omega
  have hdiv : 10000000 / (p * t) = baudrate.toNat := by
    rw [← hquanta, Nat.mul_div_cancel_left _ (by omega)]
  have htable := holdsRate_iff_hits_of_dvd (p * t) hmost hleast ⟨_, hquanta.symm⟩
  rw [hdiv, BitVec.ofNat_toNat, BitVec.setWidth_eq] at htable
  exact (holdsRate_congr _ (setBaudrate_cnf regs _ baudrate)).trans htable

/-- The rate of the test is programmed exactly. -/
theorem setBaudrate_125000_exact :
    2 * brpOf (setBaudrate (fun _ => 0) 125000) * tqCountOf (setBaudrate (fun _ => 0) 125000) * 125000 =
      20000000 :=
  (setBaudrate_exact_iff (fun _ => 0) 125000 (by decide) ⟨8, 10, by decide⟩).mpr (by decide)

/-- Half a megabit can be had with ten quanta and a prescaler of two. The driver takes eight quanta and
a prescaler of three. -/
theorem setBaudrate_500000_inexact :
    2 * 2 * 10 * 500000 = 20000000 ∧ brpOf (setBaudrate (fun _ => 0) 500000) = 3 ∧
      tqCountOf (setBaudrate (fun _ => 0) 500000) = 8 ∧
      2 * brpOf (setBaudrate (fun _ => 0) 500000) * tqCountOf (setBaudrate (fun _ => 0) 500000) *
        500000 ≠ 20000000 := by
  decide +kernel

end CamkesVm.Can
