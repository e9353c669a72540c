import CamkesVm.Machine.Checked
import CamkesVm.Can.BitTiming

/-!
# The limits of the bit timing

The comment above `set_baudrate` gives the range of each segment, and the registers the width of each
field. Here the same function is written in checked operations, which have no result where the machine
would wrap; erasing the checks gives the function of the driver.

For a rate that the crystal covers, only the decrement of a prescaler of zero can wrap. The timing is
legal exactly when the search ends at no more than sixteen quanta and the prescaler fits its six bits:
the quanta beyond the recommended propagation segment are moved into the first phase segment, which is
too long for seventeen quanta or more, and nothing bounds the prescaler.
-/

namespace CamkesVm.Can

open CamkesVm.Machine

/-- The parameters that `set_baudrate` computes. -/
structure BitTiming where
  tqNum : Byte
  brp : Byte
  propseg : Byte
  phseg1 : Byte
  phseg2 : Byte

section Checked

variable (regs : Regs) (baudrate : BitVec 32) (tqNum : Byte)

/-- The macro `DIV_ROUND`, checked. -/
def divRoundC (n d : BitVec 32) : Option (BitVec 32) := do
  let sum ← addC n (d / 2)
  some (sum / d)

/-- The error of a quantum, checked. -/
def tickErrorC (tqTime : BitVec 32) : Option (BitVec 32) := do
  let error := tqTime % timePerTick
  let twice ← mulC 2 error
  if timePerTick < twice then subC timePerTick error else some error

/-- A round of the search, checked. -/
def tqRoundC (bitTime : BitVec 32) (best : BitVec 32 × Byte) (i : ℕ) : Option (BitVec 32 × Byte) := do
  let tqTime ← divRoundC bitTime (BitVec.ofNat 32 i)
  let error ← tickErrorC tqTime
  if error < best.1 then
    let tqNum ← narrowC 8 (BitVec.ofNat 32 i)
    some (error, tqNum)
  else some best

/-- The search for the number of quanta, checked. -/
def findTqNumC (bitTime : BitVec 32) : Option Byte := do
  let best ← (List.range' minTqNum (maxTqNum + 1 - minTqNum)).foldlM (tqRoundC bitTime)
    (0xFFFFFFFF, BitVec.ofNat 8 minTqNum)
  some best.2

/-- The prescaler, checked. -/
def prescalerC : Option Byte := do
  let twice ← mulC 2 baudrate
  let rate ← mulC twice (tqNum.setWidth 32)
  let brp ← divRoundC oscFreq rate
  narrowC 8 brp

/-- The segments `propseg`, `phseg1` and `phseg2`, checked. -/
def segmentsC : Option (Byte × Byte × Byte) := do
  let percents ← mulC (tqNum.setWidth 32) samplePoint
  let quotient ← divRoundC percents 100
  let phseg2 ← narrowC 8 quotient
  let phseg1 := phseg2
  let propseg ← subC tqNum 1
  let propseg ← subC propseg phseg1
  let propseg ← subC propseg phseg2
  if 2 < propseg then
    let spare ← subC propseg 2
    let phseg1 ← addC phseg1 spare
    some (2, phseg1, phseg2)
  else some (propseg, phseg1, phseg2)

/-- The function `hw_set_bit_timing`, checked. -/
def hwSetBitTimingC (sjw brp propseg phseg1 phseg2 : Byte) : Option Regs := do
  let sjw ← subC sjw 1
  let brp ← subC brp 1
  let propseg ← subC propseg 1
  let phseg1 ← subC phseg1 1
  let phseg2 ← subC phseg2 1
  let sjwField ← shlC sjw 6
  let phseg1Field ← shlC phseg1 3
  some (mcp2515WriteNregs regs cnf3
    ![phseg2, cnf2Btlmode ||| phseg1Field ||| propseg, sjwField ||| brp])

/-- The function `set_baudrate`, checked, with the parameters that it computes. -/
def setBaudrateC : Option (BitTiming × Regs) := do
  let bitTime ← divRoundC nsInSec baudrate
  let tqNum ← findTqNumC bitTime
  let brp ← prescalerC baudrate tqNum
  let (propseg, phseg1, phseg2) ← segmentsC tqNum
  let regs ← hwSetBitTimingC regs 1 brp propseg phseg1 phseg2
  some (⟨tqNum, brp, propseg, phseg1, phseg2⟩, regs)

end Checked

section Erasure

variable {regs regs' : Regs} {baudrate : BitVec 32} {tqNum : Byte}

/-- A rounded division without wrap returns what the code computes. -/
theorem divRoundC_eq {n d r : BitVec 32} (h : divRoundC n d = some r) : divRound n d = r := by
  obtain ⟨sum, hsum, hr⟩ := Option.bind_eq_some_iff.mp h
  rw [divRound, addC_eq hsum]
  exact Option.some.inj hr

/-- A tick error without wrap is the one the code computes. -/
theorem tickErrorC_eq {tqTime r : BitVec 32} (h : tickErrorC tqTime = some r) :
    tickError tqTime = r := by
  obtain ⟨twice, htwice, hr⟩ := Option.bind_eq_some_iff.mp h
  unfold tickError
  dsimp only
  rw [mulC_eq htwice]
  split at hr
  · rw [if_pos ‹_›]
    exact subC_eq hr
  · rw [if_neg ‹_›]
    exact Option.some.inj hr

/-- A search without wrap finds the number of quanta that the code finds. -/
theorem findTqNumC_eq {bitTime : BitVec 32} (h : findTqNumC bitTime = some tqNum) :
    findTqNum bitTime = tqNum := by
  obtain ⟨best, hbest, htq⟩ := Option.bind_eq_some_iff.mp h
  obtain rfl := Option.some.inj htq
  refine congrArg Prod.snd (foldl_eq_of_foldlM (fun acc i next hround => ?_) hbest)
  obtain ⟨tqTime, htime, hround⟩ := Option.bind_eq_some_iff.mp hround
  obtain ⟨error, herror, hround⟩ := Option.bind_eq_some_iff.mp hround
  dsimp only
  rw [divRoundC_eq htime, tickErrorC_eq herror]
  split at hround
  · obtain ⟨num, hnum, hnext⟩ := Option.bind_eq_some_iff.mp hround
    rw [if_pos ‹_›, ← BitVec.setWidth_ofNat_of_le (show 8 ≤ 32 by decide), narrowC_eq hnum]
    exact Option.some.inj hnext
  · rw [if_neg ‹_›]
    exact Option.some.inj hround

/-- A prescaler without wrap is the one the code computes. -/
theorem prescalerC_eq {brp : Byte} (h : prescalerC baudrate tqNum = some brp) :
    (divRound oscFreq (2 * baudrate * tqNum.setWidth 32)).setWidth 8 = brp := by
  obtain ⟨twice, htwice, h⟩ := Option.bind_eq_some_iff.mp h
  obtain ⟨rate, hrate, h⟩ := Option.bind_eq_some_iff.mp h
  obtain ⟨wide, hwide, h⟩ := Option.bind_eq_some_iff.mp h
  rw [mulC_eq htwice, mulC_eq hrate, divRoundC_eq hwide]
  exact narrowC_eq h

/-- A register write without wrap writes what the code writes. -/
theorem hwSetBitTimingC_eq {sjw brp propseg phseg1 phseg2 : Byte}
    (h : hwSetBitTimingC regs sjw brp propseg phseg1 phseg2 = some regs') :
    hwSetBitTiming regs sjw brp propseg phseg1 phseg2 = regs' := by
  obtain ⟨sjw', hsjw, h⟩ := Option.bind_eq_some_iff.mp h
  obtain ⟨brp', hbrp, h⟩ := Option.bind_eq_some_iff.mp h
  obtain ⟨propseg', hpropseg, h⟩ := Option.bind_eq_some_iff.mp h
  obtain ⟨phseg1', hphseg1, h⟩ := Option.bind_eq_some_iff.mp h
  obtain ⟨phseg2', hphseg2, h⟩ := Option.bind_eq_some_iff.mp h
  obtain ⟨sjwField, hsjwField, h⟩ := Option.bind_eq_some_iff.mp h
  obtain ⟨phseg1Field, hphseg1Field, h⟩ := Option.bind_eq_some_iff.mp h
  rw [hwSetBitTiming, subC_eq hsjw, subC_eq hbrp, subC_eq hpropseg, subC_eq hphseg1, subC_eq hphseg2,
    shlC_eq hsjwField, shlC_eq hphseg1Field]
  exact Option.some.inj h

/-- The driver's function, with the number of quanta, the prescaler and the segments named. -/
theorem setBaudrate_eq {brp propseg phseg1 phseg2 : Byte}
    (htq : findTqNum (divRound nsInSec baudrate) = tqNum)
    (hbrp : (divRound oscFreq (2 * baudrate * tqNum.setWidth 32)).setWidth 8 = brp)
    (hsegments : segmentsC tqNum = some (propseg, phseg1, phseg2)) :
    setBaudrate regs baudrate = hwSetBitTiming regs 1 brp propseg phseg1 phseg2 := by
  obtain ⟨percents, hpercents, h⟩ := Option.bind_eq_some_iff.mp hsegments
  obtain ⟨quotient, hquotient, h⟩ := Option.bind_eq_some_iff.mp h
  obtain ⟨segment, hsegment, h⟩ := Option.bind_eq_some_iff.mp h
  obtain ⟨rest, hrest, h⟩ := Option.bind_eq_some_iff.mp h
  obtain ⟨rest', hrest', h⟩ := Option.bind_eq_some_iff.mp h
  obtain ⟨prop, hprop, h⟩ := Option.bind_eq_some_iff.mp h
  unfold setBaudrate
  dsimp only
  rw [htq, hbrp, mulC_eq hpercents, divRoundC_eq hquotient, narrowC_eq hsegment, subC_eq hrest,
    subC_eq hrest', subC_eq hprop]
  split at h
  · obtain ⟨spare, hspare, h⟩ := Option.bind_eq_some_iff.mp h
    obtain ⟨longer, hlonger, h⟩ := Option.bind_eq_some_iff.mp h
    rw [if_pos ‹_›, subC_eq hspare, addC_eq hlonger]
    obtain ⟨rfl, rfl, rfl⟩ : 2 = propseg ∧ longer = phseg1 ∧ segment = phseg2 := by simpa using h
    rfl
  · rw [if_neg ‹_›]
    obtain ⟨rfl, rfl, rfl⟩ : prop = propseg ∧ segment = phseg1 ∧ segment = phseg2 := by simpa using h
    rfl

/-- A result of the checked function is what the driver writes. -/
theorem setBaudrateC_eq {timing : BitTiming} (h : setBaudrateC regs baudrate = some (timing, regs')) :
    setBaudrate regs baudrate = regs' := by
  obtain ⟨bitTime, hbit, h⟩ := Option.bind_eq_some_iff.mp h
  obtain ⟨num, hnum, h⟩ := Option.bind_eq_some_iff.mp h
  obtain ⟨brp, hbrp, h⟩ := Option.bind_eq_some_iff.mp h
  obtain ⟨⟨propseg, phseg1, phseg2⟩, hsegments, h⟩ := Option.bind_eq_some_iff.mp h
  obtain ⟨written, hwritten, h⟩ := Option.bind_eq_some_iff.mp h
  have htq : findTqNum (divRound nsInSec baudrate) = num := by
    rw [divRoundC_eq hbit, findTqNumC_eq hnum]
  rw [setBaudrate_eq htq (prescalerC_eq hbrp) hsegments, hwSetBitTimingC_eq hwritten]
  exact congrArg Prod.snd (Option.some.inj h)

end Erasure

/-- The rounded quotient of two numbers. -/
def roundDiv (n d : ℕ) : ℕ := (n + d / 2) / d

/-- The distance of a time in nanoseconds to a multiple of the crystal's period. -/
def tickDistance (time : ℕ) : ℕ := min (time % 50) (50 - time % 50)

/-- The error of a quantum for a rate and a number of quanta a bit. -/
def quantumError (rate quanta : ℕ) : ℕ := tickDistance (roundDiv (roundDiv 1000000000 rate) quanta)

section Values

/-- The rounded division does not wrap when the dividend and half the divisor fit a word together. -/
theorem divRoundC_some {n d : BitVec 32} (h : n.toNat + d.toNat / 2 < 2 ^ 32) :
    ∃ r, divRoundC n d = some r ∧ r.toNat = roundDiv n.toNat d.toNat := by
  have hhalf : (d / 2).toNat = d.toNat / 2 := BitVec.toNat_udiv
  obtain ⟨hsome, hsum⟩ := addC_of_lt (a := n) (b := d / 2) (by rwa [hhalf])
  refine ⟨(n + d / 2) / d, by rw [divRoundC, hsome]; rfl, ?_⟩
  rw [BitVec.toNat_udiv, hsum, hhalf, roundDiv]

/-- The tick error never wraps. -/
theorem tickErrorC_some (tqTime : BitVec 32) :
    ∃ r, tickErrorC tqTime = some r ∧ r.toNat = tickDistance tqTime.toNat := by
  have htick : timePerTick = 50 := by decide
  have herror : (tqTime % 50).toNat = tqTime.toNat % 50 := BitVec.toNat_umod
  have hsmall : tqTime.toNat % 50 < 50 := Nat.mod_lt _ (by decide)
  obtain ⟨hsome, htwice⟩ := mulC_of_lt (a := (2 : BitVec 32)) (b := tqTime % 50)
    (by rw [herror]; change 2 * _ < _; omega)
  change _ = 2 * _ at htwice
  unfold tickErrorC tickDistance
  rw [htick]
  dsimp only
  rw [hsome, Option.bind_eq_bind, Option.bind_some]
  by_cases hover : (50 : BitVec 32) < 2 * (tqTime % 50)
  · rw [if_pos hover]
    rw [BitVec.lt_def, htwice, herror] at hover
    change 50 < _ at hover
    obtain ⟨hsome, hvalue⟩ := subC_of_le (a := (50 : BitVec 32)) (b := tqTime % 50)
      (by rw [herror]; exact hsmall.le)
    refine ⟨_, hsome, ?_⟩
    rw [hvalue, herror]
    change 50 - _ = _
    omega
  · rw [if_neg hover]
    rw [BitVec.lt_def, htwice, herror] at hover
    change ¬ 50 < _ at hover
    exact ⟨_, rfl, by omega⟩

variable {bitTime : BitVec 32}

/-- The best candidate of the search, in numbers. -/
def SameBest (best : BitVec 32 × Byte) (best' : ℕ × ℕ) : Prop :=
  best.1.toNat = best'.1 ∧ best.2 = BitVec.ofNat 8 best'.2

/-- A round of the search does not wrap and follows the search over numbers. -/
theorem tqRoundC_follows (hbit : bitTime.toNat < 2 ^ 31) {i : ℕ} (hi : i < 26) {best : BitVec 32 × Byte}
    {best' : ℕ × ℕ} (h : SameBest best best') :
    ∃ next, tqRoundC bitTime best i = some next ∧
      SameBest next (keepFirst (fun i => tickDistance (roundDiv bitTime.toNat i)) best' i) := by
  have hindex : (BitVec.ofNat 32 i).toNat = i := by
    rw [BitVec.toNat_ofNat, Nat.mod_eq_of_lt (by omega)]
  obtain ⟨tqTime, htime, htimeval⟩ := divRoundC_some (n := bitTime) (d := BitVec.ofNat 32 i) (by omega)
  obtain ⟨error, herror, herrorval⟩ := tickErrorC_some tqTime
  rw [htimeval, hindex] at herrorval
  obtain ⟨hnum, _⟩ := narrowC_of_lt (v := 8) (a := BitVec.ofNat 32 i) (by omega)
  rw [BitVec.setWidth_ofNat_of_le (show 8 ≤ 32 by decide)] at hnum
  have hless : error < best.1 ↔ tickDistance (roundDiv bitTime.toNat i) < best'.1 := by
    rw [BitVec.lt_def, herrorval, h.1]
  unfold tqRoundC keepFirst
  rw [htime, Option.bind_eq_bind, Option.bind_some, herror, Option.bind_eq_bind, Option.bind_some]
  by_cases hbetter : error < best.1
  · rw [if_pos hbetter, if_pos (hless.mp hbetter), hnum]
    exact ⟨_, rfl, herrorval, rfl⟩
  · rw [if_neg hbetter, if_neg (mt hless.mpr hbetter)]
    exact ⟨best, rfl, h⟩

/-- The rounds over any candidates follow the search in numbers. -/
theorem foldlM_tqRoundC (hbit : bitTime.toNat < 2 ^ 31) {candidates : List ℕ}
    (hless : ∀ i ∈ candidates, i < 26) {best : BitVec 32 × Byte} {best' : ℕ × ℕ}
    (h : SameBest best best') :
    ∃ last, candidates.foldlM (tqRoundC bitTime) best = some last ∧ SameBest last
      (candidates.foldl (keepFirst fun i => tickDistance (roundDiv bitTime.toNat i)) best') :=
  foldlM_follows (fun i hi _ _ => tqRoundC_follows hbit (hless i hi)) h

/-- The search finds the first number of quanta with the least error. -/
theorem findTqNumC_some (hbit : bitTime.toNat < 2 ^ 31) :
    ∃ t, FirstLeast (fun i => tickDistance (roundDiv bitTime.toNat i)) 8 18 t ∧
      findTqNumC bitTime = some (BitVec.ofNat 8 t) := by
  have hlimit : ∀ i, tickDistance (roundDiv bitTime.toNat i) < 0xFFFFFFFF := by
    intro i
    unfold tickDistance
    omega
  have hless : ∀ i ∈ List.range' minTqNum (maxTqNum + 1 - minTqNum), i < 26 := by decide
  have hstart : SameBest (0xFFFFFFFF, BitVec.ofNat 8 minTqNum) (0xFFFFFFFF, minTqNum) :=
    ⟨by decide, rfl⟩
  obtain ⟨t, hfold, hleast⟩ := foldl_keepFirst hlimit minTqNum minTqNum 17
  obtain ⟨best, hbest, hsame⟩ := foldlM_tqRoundC hbit hless hstart
  rw [show maxTqNum + 1 - minTqNum = 17 + 1 from rfl, hfold] at hsame
  refine ⟨t, hleast, ?_⟩
  rw [findTqNumC, hbest]
  exact congrArg some hsame.2

/-- The rounded prescaler is a byte. It is not zero unless a quantum is shorter than the crystal's
period, and it fits six bits unless a quantum is too long. -/
theorem prescaler_bounds {rate : ℕ} (h : 50000 ≤ rate) :
    roundDiv 20000000 (2 * rate) < 201 ∧ (1 ≤ roundDiv 20000000 (2 * rate) ↔ rate ≤ 20000000) ∧
      (roundDiv 20000000 (2 * rate) ≤ 64 ↔ 20000000 < 129 * rate) := by
  have hpos : 0 < 2 * rate := by omega
  rw [roundDiv, Nat.mul_div_cancel_left _ (by decide)]
  refine ⟨?_, ?_, ?_⟩
  · rw [Nat.div_lt_iff_lt_mul hpos]
    omega
  · rw [Nat.le_div_iff_mul_le hpos]
    omega
  · rw [← Nat.lt_succ_iff, Nat.div_lt_iff_lt_mul hpos]
    omega

/-- The prescaler of a rate that the crystal covers. -/
theorem prescalerC_some {baudrate : BitVec 32} (hmin : 6250 ≤ baudrate.toNat)
    (hmax : baudrate.toNat ≤ 1000000) {t : ℕ} (ht : 8 ≤ t) (ht' : t < 26) :
    ∃ brp, prescalerC baudrate (BitVec.ofNat 8 t) = some brp ∧
      brp.toNat = roundDiv 20000000 (2 * (baudrate.toNat * t)) := by
  have htq : ((BitVec.ofNat 8 t).setWidth 32).toNat = t := by
    rw [BitVec.toNat_setWidth, BitVec.toNat_ofNat, Nat.mod_eq_of_lt (by omega),
      Nat.mod_eq_of_lt (by omega)]
  have hleast : 50000 ≤ baudrate.toNat * t := Nat.mul_le_mul hmin ht
  have hmost : baudrate.toNat * t ≤ 25000000 := Nat.mul_le_mul hmax (Nat.le_of_lt_succ ht')
  obtain ⟨htwice, htwiceval⟩ := mulC_of_lt (a := (2 : BitVec 32)) (b := baudrate)
    (by change 2 * _ < _; omega)
  have hprod : (2 * baudrate).toNat * ((BitVec.ofNat 8 t).setWidth 32).toNat =
      2 * (baudrate.toNat * t) := by
    rw [htwiceval, htq]
    exact Nat.mul_assoc 2 _ _
  obtain ⟨hrate, hrateval⟩ := mulC_of_lt (a := 2 * baudrate) (b := (BitVec.ofNat 8 t).setWidth 32)
    (by rw [hprod]; omega)
  rw [hprod] at hrateval
  have hosc : oscFreq.toNat = 20000000 := rfl
  obtain ⟨wide, hwide, hwideval⟩ := divRoundC_some (n := oscFreq)
    (d := 2 * baudrate * (BitVec.ofNat 8 t).setWidth 32) (by rw [hrateval, hosc]; omega)
  rw [hrateval, hosc] at hwideval
  have hbyte := (prescaler_bounds hleast).1
  obtain ⟨hbrp, hbrpval⟩ := narrowC_of_lt (v := 8) (a := wide) (by omega)
  refine ⟨wide.setWidth 8, ?_, hbrpval.trans hwideval⟩
  simp only [prescalerC, htwice, hrate, hwide, hbrp, Option.bind_eq_bind, Option.bind_some]

/-- The segments of each number of quanta that the search can find. -/
theorem segmentsC_some : ∀ t < 26, 8 ≤ t → segmentsC (BitVec.ofNat 8 t) =
    some (2, BitVec.ofNat 8 (t - 3 - roundDiv (t * 30) 100),
      BitVec.ofNat 8 (roundDiv (t * 30) 100)) := by
  decide +kernel

end Values

/-- The parameters are in the ranges that the specification gives, and the segments make up the bit. -/
structure Legal (timing : BitTiming) : Prop where
  brp : 1 ≤ timing.brp.toNat ∧ timing.brp.toNat ≤ 64
  propseg : 1 ≤ timing.propseg.toNat ∧ timing.propseg.toNat ≤ 8
  phseg1 : 1 ≤ timing.phseg1.toNat ∧ timing.phseg1.toNat ≤ 8
  phseg2 : 2 ≤ timing.phseg2.toNat ∧ timing.phseg2.toNat ≤ 8
  order : timing.phseg2.toNat ≤ timing.phseg1.toNat
  total : 1 + timing.propseg.toNat + timing.phseg1.toNat + timing.phseg2.toNat = timing.tqNum.toNat

/-- The fields of the registers hold the parameters, and a jump width of one. The mode is set, and the
flags `SAM`, `SOF` and `WAKFIL` are not. -/
structure ReadsBack (regs : Regs) (timing : BitTiming) : Prop where
  sjw : (regs cnf1 >>> 6).toNat + 1 = 1
  brp : brpOf regs = timing.brp.toNat
  btlmode : regs cnf2 &&& cnf2Btlmode = cnf2Btlmode
  sam : regs cnf2 &&& 0x40 = 0
  phseg1 : (regs cnf2 >>> 3 &&& 0x07).toNat + 1 = timing.phseg1.toNat
  propseg : (regs cnf2 &&& 0x07).toNat + 1 = timing.propseg.toNat
  sof : regs cnf3 &&& 0x80 = 0
  wakfil : regs cnf3 &&& 0x40 = 0
  phseg2 : (regs cnf3 &&& 0x07).toNat + 1 = timing.phseg2.toNat

/-- The fields of `CNF1`. -/
theorem cnf1_fields : ∀ brp : Byte, 1 ≤ brp.toNat ∧ brp.toNat ≤ 64 →
    (((1 - 1 : Byte) <<< 6 ||| (brp - 1)) >>> 6).toNat + 1 = 1 ∧
      (((1 - 1 : Byte) <<< 6 ||| (brp - 1)) &&& 0x3F).toNat + 1 = brp.toNat := by
  decide +kernel

/-- The fields of `CNF2`. -/
theorem cnf2_fields : ∀ phseg1 : Byte, 1 ≤ phseg1.toNat ∧ phseg1.toNat ≤ 8 →
    ∀ propseg : Byte, 1 ≤ propseg.toNat ∧ propseg.toNat ≤ 8 →
      shlC (phseg1 - 1) 3 = some ((phseg1 - 1) <<< 3) ∧
      (cnf2Btlmode ||| (phseg1 - 1) <<< 3 ||| (propseg - 1)) &&& cnf2Btlmode = cnf2Btlmode ∧
      (cnf2Btlmode ||| (phseg1 - 1) <<< 3 ||| (propseg - 1)) &&& 0x40 = 0 ∧
      ((cnf2Btlmode ||| (phseg1 - 1) <<< 3 ||| (propseg - 1)) >>> 3 &&& 0x07).toNat + 1 = phseg1.toNat ∧
      ((cnf2Btlmode ||| (phseg1 - 1) <<< 3 ||| (propseg - 1)) &&& 0x07).toNat + 1 = propseg.toNat := by
  decide +kernel

/-- The fields of `CNF3`. -/
theorem cnf3_fields : ∀ phseg2 : Byte, 2 ≤ phseg2.toNat ∧ phseg2.toNat ≤ 8 →
    (phseg2 - 1) &&& 0x80 = 0 ∧ (phseg2 - 1) &&& 0x40 = 0 ∧
      ((phseg2 - 1) &&& 0x07).toNat + 1 = phseg2.toNat := by
  decide +kernel

section Limits

variable (regs : Regs) {timing : BitTiming}

/-- Legal parameters are written without a wrap, and read back. -/
theorem hwSetBitTimingC_some (h : Legal timing) :
    ∃ regs', hwSetBitTimingC regs 1 timing.brp timing.propseg timing.phseg1 timing.phseg2 = some regs' ∧
      ReadsBack regs' timing := by
  obtain ⟨hsjw, hbrp⟩ := cnf1_fields timing.brp h.brp
  obtain ⟨hshift, hmode, hsam, hphseg1, hpropseg⟩ :=
    cnf2_fields timing.phseg1 h.phseg1 timing.propseg h.propseg
  obtain ⟨hsof, hwakfil, hphseg2⟩ := cnf3_fields timing.phseg2 h.phseg2
  have hdec (value : Byte) (hvalue : 1 ≤ value.toNat) : subC value 1 = some (value - 1) :=
    (subC_of_le (a := value) (b := 1) hvalue).1
  have hwritten : hwSetBitTimingC regs 1 timing.brp timing.propseg timing.phseg1 timing.phseg2 =
      some (mcp2515WriteNregs regs cnf3 ![timing.phseg2 - 1,
        cnf2Btlmode ||| (timing.phseg1 - 1) <<< 3 ||| (timing.propseg - 1),
        (1 - 1 : Byte) <<< 6 ||| (timing.brp - 1)]) := by
    simp only [hwSetBitTimingC, hdec 1 (by decide), hdec _ h.brp.1, hdec _ h.propseg.1,
      hdec _ h.phseg1.1, hdec _ (Nat.le_of_succ_le h.phseg2.1), hshift,
      show shlC (1 - 1 : Byte) 6 = some ((1 - 1 : Byte) <<< 6) by decide,
      Option.bind_eq_bind, Option.bind_some]
  have hread := mcp2515ReadNregs_writeNregs regs cnf3 ![timing.phseg2 - 1,
    cnf2Btlmode ||| (timing.phseg1 - 1) <<< 3 ||| (timing.propseg - 1),
    (1 - 1 : Byte) <<< 6 ||| (timing.brp - 1)] (by decide)
  refine ⟨_, hwritten, ?_⟩
  generalize mcp2515WriteNregs regs cnf3 _ = regs' at hread
  have hcnf3 : regs' cnf3 = timing.phseg2 - 1 := congrFun hread 0
  have hcnf2 : regs' cnf2 = cnf2Btlmode ||| (timing.phseg1 - 1) <<< 3 ||| (timing.propseg - 1) :=
    congrFun hread 1
  have hcnf1 : regs' cnf1 = (1 - 1 : Byte) <<< 6 ||| (timing.brp - 1) := congrFun hread 2
  rw [← hcnf1] at hsjw hbrp
  rw [← hcnf2] at hmode hsam hphseg1 hpropseg
  rw [← hcnf3] at hsof hwakfil hphseg2
  exact ⟨hsjw, hbrp, hmode, hsam, hphseg1, hpropseg, hsof, hwakfil, hphseg2⟩

/-- The parameters for a number of quanta: the propagation segment has the recommended length, and the
first phase segment has the rest. -/
def timingOf (t : ℕ) (brp : Byte) : BitTiming where
  tqNum := BitVec.ofNat 8 t
  brp := brp
  propseg := 2
  phseg1 := BitVec.ofNat 8 (t - 3 - roundDiv (t * 30) 100)
  phseg2 := BitVec.ofNat 8 (roundDiv (t * 30) 100)

/-- The first phase segment is in its range up to sixteen quanta. -/
theorem timingOf_legal_iff {t : ℕ} (hmin : 8 ≤ t) (hmax : t < 26) (brp : Byte) :
    Legal (timingOf t brp) ↔ t ≤ 16 ∧ 1 ≤ brp.toNat ∧ brp.toNat ≤ 64 := by
  have htq : (timingOf t brp).tqNum.toNat = t := Nat.mod_eq_of_lt (by omega)
  have hphseg2 : (timingOf t brp).phseg2.toNat = roundDiv (t * 30) 100 :=
    Nat.mod_eq_of_lt (by unfold roundDiv; omega)
  have hphseg1 : (timingOf t brp).phseg1.toNat = t - 3 - roundDiv (t * 30) 100 :=
    Nat.mod_eq_of_lt (by omega)
  have hpropseg : (timingOf t brp).propseg.toNat = 2 := rfl
  constructor
  · intro h
    have hmost := h.phseg1.2
    rw [hphseg1, roundDiv] at hmost
    exact ⟨by omega, h.brp⟩
  · rintro ⟨hmost, hbrp⟩
    rw [roundDiv] at hphseg1 hphseg2
    exact ⟨hbrp, by omega, by omega, by omega, by omega, by omega⟩

/-- For a rate that the crystal covers, the parameters are those of the first number of quanta with the
least error, and only the write can fail. -/
theorem setBaudrateC_timingOf {baudrate : BitVec 32} (hmin : 6250 ≤ baudrate.toNat)
    (hmax : baudrate.toNat ≤ 1000000) :
    ∃ t brp, FirstLeast (quantumError baudrate.toNat) 8 18 t ∧
      brp.toNat = roundDiv 20000000 (2 * (baudrate.toNat * t)) ∧
      setBaudrateC regs baudrate =
        (hwSetBitTimingC regs 1 brp (timingOf t brp).propseg (timingOf t brp).phseg1
          (timingOf t brp).phseg2).map fun regs' => (timingOf t brp, regs') := by
  have hsec : nsInSec.toNat = 1000000000 := rfl
  obtain ⟨bitTime, hbit, hbitval⟩ := divRoundC_some (n := nsInSec) (d := baudrate)
    (by rw [hsec]; omega)
  rw [hsec] at hbitval
  have hshort : bitTime.toNat < 2 ^ 31 := by
    rw [hbitval, roundDiv, Nat.div_lt_iff_lt_mul (by omega)]
    omega
  obtain ⟨t, hleast, htq⟩ := findTqNumC_some hshort
  rw [hbitval] at hleast
  obtain ⟨brp, hbrp, hbrpval⟩ := prescalerC_some hmin hmax hleast.ge hleast.lt
  refine ⟨t, brp, hleast, hbrpval, ?_⟩
  rw [Option.map_eq_bind]
  simp only [setBaudrateC, hbit, htq, hbrp, segmentsC_some t hleast.lt hleast.ge, Option.bind_eq_bind,
    Option.bind_some]
  rfl

/-- For a rate that the crystal covers, `set_baudrate` computes a legal timing without a wrap and the
registers hold it, exactly when the least error is reached first by no more than sixteen quanta, with
which the prescaler fits its six bits. -/
theorem setBaudrate_legal_iff (baudrate : BitVec 32) (hmin : 6250 ≤ baudrate.toNat)
    (hmax : baudrate.toNat ≤ 1000000) :
    (∃ timing regs', setBaudrateC regs baudrate = some (timing, regs') ∧ Legal timing ∧
        ReadsBack (setBaudrate regs baudrate) timing) ↔
      ∃ t ≤ 16, FirstLeast (quantumError baudrate.toNat) 8 18 t ∧
        20000000 < 129 * (baudrate.toNat * t) := by
  obtain ⟨t, brp, hleast, hbrp, hrun⟩ := setBaudrateC_timingOf regs hmin hmax
  have hrate : 50000 ≤ baudrate.toNat * t := Nat.mul_le_mul hmin hleast.ge
  obtain ⟨-, hpos, hfits⟩ := prescaler_bounds hrate
  rw [← hbrp] at hpos hfits
  constructor
  · rintro ⟨timing, regs', h, hlegal, -⟩
    rw [hrun] at h
    obtain ⟨_, -, heq⟩ := Option.map_eq_some_iff.mp h
    obtain rfl : timingOf t brp = timing := congrArg Prod.fst heq
    obtain ⟨hmost, -, hbrp'⟩ := (timingOf_legal_iff hleast.ge hleast.lt brp).mp hlegal
    exact ⟨t, hmost, hleast, hfits.mp hbrp'⟩
  · rintro ⟨t', hmost, hleast', hlong⟩
    obtain rfl := hleast.unique hleast'
    have hshort : baudrate.toNat * t ≤ 20000000 := (Nat.mul_le_mul hmax hmost).trans (by decide)
    have hlegal : Legal (timingOf t brp) :=
      (timingOf_legal_iff hleast.ge hleast.lt brp).mpr ⟨hmost, hpos.mpr hshort, hfits.mpr hlong⟩
    obtain ⟨regs', hwritten, hread⟩ := hwSetBitTimingC_some regs hlegal
    have hdone : setBaudrateC regs baudrate = some (timingOf t brp, regs') := by
      rw [hrun]
      exact Option.map_eq_some_iff.mpr ⟨regs', hwritten, rfl⟩
    refine ⟨timingOf t brp, regs', hdone, hlegal, ?_⟩
    rw [setBaudrateC_eq hdone]
    exact hread

end Limits

/-- The rate of the test is legal: a bit of eight quanta of exactly a microsecond. -/
theorem setBaudrate_125000_legal :
    ∃ timing regs', setBaudrateC (fun _ => 0) 125000 = some (timing, regs') ∧ Legal timing ∧
      ReadsBack (setBaudrate (fun _ => 0) 125000) timing :=
  (setBaudrate_legal_iff (fun _ => 0) 125000 (by decide) (by decide)).mpr
    ⟨8, by decide, ⟨by decide, by decide, fun i hge hi => absurd hge (Nat.not_le.mpr hi),
      fun _ _ _ => Nat.zero_le _⟩, by decide⟩

/-- The lowest rate has a prescaler of 200, which spills into the jump width. -/
theorem setBaudrate_6250_not_legal :
    ¬ (∃ timing regs', setBaudrateC (fun _ => 0) 6250 = some (timing, regs') ∧ Legal timing ∧
        ReadsBack (setBaudrate (fun _ => 0) 6250) timing) ∧
      (setBaudrateC (fun _ => 0) 6250).map (fun result => result.1.brp) = some 200 ∧
      (setBaudrate (fun _ => 0) 6250 cnf1 >>> 6).toNat + 1 = 4 := by
  have hbrp : (setBaudrateC (fun _ => 0) 6250).map (fun result => result.1.brp) = some 200 := by
    decide +kernel
  refine ⟨?_, hbrp, by decide +kernel⟩
  rintro ⟨timing, regs', h, hlegal, -⟩
  rw [h] at hbrp
  have hlarge : timing.brp = 200 := Option.some.inj hbrp
  have hmost := hlegal.brp.2
  rw [hlarge] at hmost
  exact absurd hmost (by decide)

end CamkesVm.Can
