import Mathlib.Tactic.FinCases
import Mathlib.Tactic.IntervalCases
import CamkesVm.Can.Frame

/-!
# Frames in the controller's buffer registers

`load_txb` spreads a frame over the thirteen registers of a transmit buffer and `recv_rxb`
collects one from the thirteen registers of a receive buffer. Both sides use the order SIDH,
SIDL, EID8, EID0, DLC, data. SIDL holds the low three bits of the standard part, the extended
flag in bit 3 and the top two bits of the extended part, and `recv_rxb` shifts the whole of it
into the extended part. The bits that this adds to an extended identifier decide when a frame
survives the way through the registers.
-/

namespace CamkesVm.Can

open CamkesVm.Machine

/-- Shifts of the identifier parts, the flags and the data length code in their registers. -/
@[simp] def sidhShf : ℕ := 3
@[simp] def sidlShf : ℕ := 5
@[simp] def exideShf : ℕ := 3
@[simp] def sidlEidShf : ℕ := 16
@[simp] def eid8Shf : ℕ := 8
@[simp] def rtrShf : ℕ := 6

/-- Mask of the low register byte. -/
@[simp] def byteMask : BitVec 32 := 0xFF

/-- The maximum length of a frame in the buffer registers. -/
abbrev maxBufLen : ℕ := 13

/-- The index of the first payload register. -/
abbrev dat : ℕ := 5

/-- Separate the standard and the extended part of a 32-bit identifier or mask. -/
def splitId (exide : BitVec 1) (value : BitVec 32) : BitVec 32 × BitVec 32 :=
  if exide ≠ 0 then (value >>> canEidBits, value &&& canEidMask) else (value, 0)

/-- The SIDH, SIDL, EID8 and EID0 registers of the separated parts. -/
def idRegs (flag : BitVec 1) (parts : BitVec 32 × BitVec 32) : Bytes 4 :=
  ![(parts.1 >>> sidhShf).setWidth 8,
    (parts.1 <<< sidlShf ||| flag.setWidth 32 <<< exideShf ||| parts.2 >>> sidlEidShf).setWidth 8,
    (parts.2 >>> eid8Shf).setWidth 8,
    (parts.2 &&& byteMask).setWidth 8]

/-- The standard part that is read back from the four registers. -/
def regsSid (buf : Bytes 4) : BitVec 32 :=
  (buf 0).setWidth 32 <<< sidhShf ||| (buf 1).setWidth 32 >>> sidlShf

/-- The extended part that is read back, with all of SIDL shifted in. -/
def regsEid (buf : Bytes 4) : BitVec 32 :=
  (buf 1).setWidth 32 <<< sidlEidShf ||| (buf 2).setWidth 32 <<< eid8Shf ||| (buf 3).setWidth 32

/-- Bit `k` of the standard part in the four identifier registers. -/
def sidBit (buf : Bytes 4) (k : ℕ) : Bool :=
  if k < 3 then (buf 1).getLsbD (k + 5) else (buf 0).getLsbD (k - 3)

/-- Bit `k` of the extended part. -/
def eidBit (buf : Bytes 4) (k : ℕ) : Bool :=
  if k < 8 then (buf 3).getLsbD k
  else if k < 16 then (buf 2).getLsbD (k - 8) else (buf 1).getLsbD (k - 16)

/-- The extended flag. -/
def exideBit (buf : Bytes 4) : Bool := (buf 1).getLsbD 3

/-- The register image of an identifier. -/
def CanId.regs (ident : CanId) : Bytes 4 :=
  idRegs ident.exide (splitId ident.exide (ident.id.setWidth 32))

/-- The DLC register of a frame. -/
def CanFrame.dlcReg (frame : CanFrame) : Byte :=
  (frame.ident.rtr.setWidth 32 <<< rtrShf ||| frame.dlc.setWidth 32).setWidth 8

/-- The buffer that `load_txb` fills, unless the payload copy leaves the arrays. -/
def loadTxbBuf (frame : CanFrame) : Option (Bytes maxBufLen) :=
  let regs := frame.ident.regs
  copy ![regs 0, regs 1, regs 2, regs 3, frame.dlcReg, 0, 0, 0, 0, 0, 0, 0, 0] dat
    frame.data 0 frame.dlc.toNat

/-- The identifier registers of a receive buffer. -/
def rxbIdRegs (buf : Bytes maxBufLen) : Bytes 4 := ![buf 0, buf 1, buf 2, buf 3]

/-- The standard part of the identifier in a receive buffer. -/
def rxbSid (buf : Bytes maxBufLen) : BitVec 32 := regsSid (rxbIdRegs buf)

/-- The extended flag in a receive buffer. -/
def rxbExide (buf : Bytes maxBufLen) : BitVec 1 := (buf 1 >>> exideShf).setWidth 1

/-- The extended part of the identifier in a receive buffer, with all of SIDL shifted in. -/
def rxbEid (buf : Bytes maxBufLen) : BitVec 32 := regsEid (rxbIdRegs buf)

/-- The identifier in a receive buffer. -/
def rxbId (buf : Bytes maxBufLen) : BitVec 29 :=
  if rxbExide buf ≠ 0 then (rxbSid buf <<< canEidBits ||| rxbEid buf).setWidth 29
  else (rxbSid buf).setWidth 29

/-- The remote transmission request flag in a receive buffer. -/
def rxbRtr (buf : Bytes maxBufLen) : BitVec 1 := (buf 4 >>> rtrShf).setWidth 1

/-- The data length code in a receive buffer; remote frames have no payload. -/
def rxbDlc (buf : Bytes maxBufLen) : BitVec 4 :=
  if rxbRtr buf ≠ 0 then 0 else (buf 4).setWidth 4

/-- Receive a frame from a buffer image. Fields and payload bytes that the source does not
assign keep the caller's values; a payload copy that leaves the arrays has no result. -/
def recvRxb (frame : CanFrame) (buf : Bytes maxBufLen) : Option CanFrame :=
  (copy frame.data 0 buf dat (rxbDlc buf).toNat).map fun data =>
    { frame with
      ident := { frame.ident with id := rxbId buf, exide := rxbExide buf, rtr := rxbRtr buf }
      dlc := rxbDlc buf
      data := data }

/-- The copy of a legal payload into the transmit buffer stays inside the arrays. -/
theorem loadTxbBuf_eq_some {frame : CanFrame} (hdlc : frame.dlc.toNat ≤ canMaxDlc) :
    ∃ buf, loadTxbBuf frame = some buf ∧
      (∀ i : Fin 4, buf (i.castLE (by decide)) = frame.ident.regs i) ∧ buf 4 = frame.dlcReg ∧
      ∀ i : Fin canMaxDlc, i.val < frame.dlc.toNat → buf (i.natAdd dat) = frame.data i := by
  change frame.dlc.toNat ≤ 8 at hdlc
  refine ⟨_, copy_eq_some _ _ (by change 5 + _ ≤ 13; omega) (by change 0 + _ ≤ 8; omega), ?_, ?_, ?_⟩
  · intro i
    fin_cases i <;> rfl
  · rfl
  · intro i hi
    simp [hi]

/-- The receive buffer starts with the bytes that `load_txb` builds for the frame. -/
def Carries (image : Bytes maxBufLen) (frame : CanFrame) : Prop :=
  ∃ buf, loadTxbBuf frame = some buf ∧
    ∀ i : Fin maxBufLen, i.val < frame.dlc.toNat + dat → image i = buf i

/-- The five header registers and the payload of a buffer that carries a frame. -/
theorem Carries.registers {image : Bytes maxBufLen} {frame : CanFrame} (h : Carries image frame)
    (hdlc : frame.dlc.toNat ≤ canMaxDlc) :
    (image 0 = frame.ident.regs 0 ∧ image 1 = frame.ident.regs 1 ∧
      image 2 = frame.ident.regs 2 ∧ image 3 = frame.ident.regs 3) ∧ image 4 = frame.dlcReg ∧
      ∀ i : Fin canMaxDlc, i.val < frame.dlc.toNat → image (i.natAdd dat) = frame.data i := by
  obtain ⟨buf, hbuf, hsame⟩ := h
  obtain ⟨buf', hbuf', hid, hdlcReg, hdata⟩ := loadTxbBuf_eq_some hdlc
  obtain rfl : buf = buf' := Option.some.inj (hbuf.symm.trans hbuf')
  have header (i : Fin maxBufLen) (hi : i.val < dat) : image i = buf i := hsame i (by omega)
  refine ⟨⟨?_, ?_, ?_, ?_⟩, ?_, ?_⟩
  · exact (header 0 (by decide)).trans (hid 0)
  · exact (header 1 (by decide)).trans (hid 1)
  · exact (header 2 (by decide)).trans (hid 2)
  · exact (header 3 (by decide)).trans (hid 3)
  · exact (header 4 (by decide)).trans hdlcReg
  · intro i hi
    exact (hsame _ (by simp only [Fin.val_natAdd]; omega)).trans (hdata i hi)

/-- The bits that shifting all of SIDL adds to an extended identifier are set in it anyway:
the flag lands on bit 19 and the low bits 18, 19 and 20 of the standard part on bits 21, 22
and 23. -/
def SidlShiftCovered (id : BitVec 29) : Prop :=
  id.getLsbD 19 = true ∧ id.getLsbD 22 = true ∧
    (id.getLsbD 18 = true → id.getLsbD 21 = true) ∧ (id.getLsbD 20 = true → id.getLsbD 23 = true)

/-- The extended flag survives the registers. -/
theorem rxbExide_of_regs {buf : Bytes maxBufLen} {ident : CanId} (h1 : buf 1 = ident.regs 1) :
    rxbExide buf = ident.exide := by
  obtain ⟨id, exide, rtr, err⟩ := ident
  apply BitVec.eq_of_getLsbD_eq
  intro i hi
  interval_cases i
  obtain rfl | rfl := flag_eq_zero_or_one exide <;>
    simp [rxbExide, h1, CanId.regs, idRegs, splitId]

/-- The remote flag survives the registers. -/
theorem rxbRtr_of_dlcReg {buf : Bytes maxBufLen} {frame : CanFrame} (h4 : buf 4 = frame.dlcReg) :
    rxbRtr buf = frame.ident.rtr := by
  apply BitVec.eq_of_getLsbD_eq
  intro i hi
  interval_cases i
  simp [rxbRtr, h4, CanFrame.dlcReg]

/-- The data length code survives the registers in a data frame and is dropped in a remote one. -/
theorem rxbDlc_of_dlcReg {buf : Bytes maxBufLen} {frame : CanFrame} (h4 : buf 4 = frame.dlcReg) :
    rxbDlc buf = if frame.ident.rtr = 0 then frame.dlc else 0 := by
  rw [rxbDlc, rxbRtr_of_dlcReg h4]
  by_cases hrtr : frame.ident.rtr = 0
  · rw [if_neg (by simpa using hrtr), if_pos hrtr]
    apply BitVec.eq_of_getLsbD_eq
    intro i hi
    interval_cases i <;> simp [h4, CanFrame.dlcReg, hrtr]
  · rw [if_pos hrtr, if_neg hrtr]

/-- The standard part that is read back has eleven bits. -/
theorem rxbSid_getLsbD_of_ge (buf : Bytes maxBufLen) {i : ℕ} (hi : 11 ≤ i) :
    (rxbSid buf).getLsbD i = false := by
  have hsidh : (buf 0).getLsbD (i - 3) = false := BitVec.getLsbD_of_ge _ _ (by omega)
  have hsidl : (buf 1).getLsbD (5 + i) = false := BitVec.getLsbD_of_ge _ _ (by omega)
  simp [rxbSid, regsSid, rxbIdRegs, hsidh, hsidl]

/-- A standard identifier survives the registers. -/
theorem rxbId_of_standard {buf : Bytes maxBufLen} {ident : CanId} (h0 : buf 0 = ident.regs 0)
    (h1 : buf 1 = ident.regs 1) (hstd : ident.exide = 0) (hfits : ident.Fits) :
    rxbId buf = ident.id := by
  obtain ⟨id, exide, rtr, err⟩ := ident
  obtain rfl : exide = 0 := hstd
  have hhigh (i : ℕ) (hi : 11 ≤ i) : id.getLsbD i = false :=
    Nat.testBit_lt_two_pow ((hfits rfl).trans_le (Nat.pow_le_pow_right (by decide) hi))
  rw [rxbId, rxbExide_of_regs h1, if_neg (by simp)]
  apply BitVec.eq_of_getLsbD_eq
  intro i hi
  rcases Nat.lt_or_ge i 11 with hlow | hge
  · have hregs : (⟨id, 0, rtr, err⟩ : CanId).regs = idRegs 0 (id.setWidth 32, 0) := rfl
    simp only [rxbSid, regsSid, rxbIdRegs, h0, h1, hregs, idRegs, Matrix.cons_val, BitVec.getLsbD_or,
      BitVec.getLsbD_setWidth, BitVec.getLsbD_shiftLeft, BitVec.getLsbD_ushiftRight]
    interval_cases i <;> simp
  · rw [hhigh i hge, BitVec.getLsbD_setWidth, rxbSid_getLsbD_of_ge buf hge, Bool.and_false]

/-- Bit by bit, an extended identifier comes back with the shifted SIDL bits added. -/
theorem rxbId_getLsbD_of_extended {buf : Bytes maxBufLen} {ident : CanId}
    (h0 : buf 0 = ident.regs 0) (h1 : buf 1 = ident.regs 1) (h2 : buf 2 = ident.regs 2)
    (h3 : buf 3 = ident.regs 3) (hext : ident.exide = 1) (i : ℕ) (hi : i < 29) :
    (rxbId buf).getLsbD i = (ident.id.getLsbD i || decide (i = 19) ||
      (decide (21 ≤ i ∧ i ≤ 23) && ident.id.getLsbD (i - 3))) := by
  obtain ⟨id, exide, rtr, err⟩ := ident
  obtain rfl : exide = 1 := hext
  rw [rxbId, rxbExide_of_regs h1, if_pos (by simp)]
  have hregs : (⟨id, 1, rtr, err⟩ : CanId).regs =
      idRegs 1 (id.setWidth 32 >>> canEidBits, id.setWidth 32 &&& canEidMask) := rfl
  -- The registers are taken apart once for all bits; what is left for each bit is arithmetic.
  simp only [rxbSid, rxbEid, regsSid, regsEid, rxbIdRegs, h0, h1, h2, h3, hregs, idRegs,
    Matrix.cons_val, BitVec.getLsbD_or, BitVec.getLsbD_setWidth, BitVec.getLsbD_shiftLeft,
    BitVec.getLsbD_ushiftRight, BitVec.getLsbD_and]
  interval_cases i <;> simp

/-- An extended identifier survives the registers exactly when the added bits are set anyway. -/
theorem rxbId_eq_iff_of_extended {buf : Bytes maxBufLen} {ident : CanId}
    (h0 : buf 0 = ident.regs 0) (h1 : buf 1 = ident.regs 1) (h2 : buf 2 = ident.regs 2)
    (h3 : buf 3 = ident.regs 3) (hext : ident.exide = 1) :
    rxbId buf = ident.id ↔ SidlShiftCovered ident.id := by
  have hbit := rxbId_getLsbD_of_extended h0 h1 h2 h3 hext
  constructor
  · intro h
    rw [h] at hbit
    have h19 := hbit 19 (by decide)
    have h21 := hbit 21 (by decide)
    have h22 := hbit 22 (by decide)
    have h23 := hbit 23 (by decide)
    clear hbit
    simp_all [SidlShiftCovered]
  · rintro ⟨h19, h22, h21, h23⟩
    apply BitVec.eq_of_getLsbD_eq
    intro i hi
    rw [hbit i hi]
    cases hid : ident.id.getLsbD i with
    | true => rw [Bool.true_or, Bool.true_or]
    | false =>
      -- No added bit falls on a bit that is not set.
      have hflag : i ≠ 19 := by
        rintro rfl
        exact Bool.false_ne_true (hid.symm.trans h19)
      have hshifted : 21 ≤ i ∧ i ≤ 23 → ident.id.getLsbD (i - 3) = false := by
        rintro ⟨hge, hle⟩
        rw [Bool.eq_false_iff]
        intro hlow
        obtain rfl | rfl | rfl : i = 21 ∨ i = 22 ∨ i = 23 := by omega
        · exact Bool.false_ne_true (hid.symm.trans (h21 hlow))
        · exact Bool.false_ne_true (hid.symm.trans h22)
        · exact Bool.false_ne_true (hid.symm.trans (h23 hlow))
      rw [Bool.false_or, decide_eq_false hflag, Bool.false_or]
      by_cases hrange : 21 ≤ i ∧ i ≤ 23
      · rw [hshifted hrange, Bool.and_false]
      · rw [decide_eq_false hrange, Bool.false_and]

/-- A legal payload length can be received, whatever the caller's frame held. -/
theorem recvRxb_eq_some (old : CanFrame) {buf : Bytes maxBufLen}
    (hdlc : (rxbDlc buf).toNat ≤ canMaxDlc) :
    ∃ got, recvRxb old buf = some got ∧ got.ident.id = rxbId buf ∧
      got.ident.exide = rxbExide buf ∧ got.ident.rtr = rxbRtr buf ∧ got.dlc = rxbDlc buf ∧
      ∀ i : Fin canMaxDlc, i.val < (rxbDlc buf).toNat → got.data i = buf (i.natAdd dat) := by
  change (rxbDlc buf).toNat ≤ 8 at hdlc
  have hdst : 0 + (rxbDlc buf).toNat ≤ canMaxDlc := by
    change 0 + _ ≤ 8
    omega
  have hsrc : dat + (rxbDlc buf).toNat ≤ maxBufLen := by
    change 5 + _ ≤ 13
    omega
  have hcopy := copy_eq_some old.data buf hdst hsrc
  refine ⟨_, by rw [recvRxb, hcopy, Option.map_some], rfl, rfl, rfl, rfl, ?_⟩
  intro i hi
  simp only [Nat.zero_le, Nat.zero_add, true_and, Nat.sub_zero, dif_pos hi]
  rfl

/-- The frames of the controller's registers: no error flag, a legal length, an identifier that
fits its kind. -/
structure CanFrame.Valid (frame : CanFrame) : Prop where
  err : frame.ident.err = 0
  dlc : frame.dlc.toNat ≤ canMaxDlc
  fits : frame.ident.Fits

/-- Receiving the image into `old` gives the frame back: the same identifier and flags, with the
same length and payload for a data frame and length zero for a remote one. -/
def RoundTrips (old : CanFrame) (image : Bytes maxBufLen) (frame : CanFrame) : Prop :=
  ∃ got, recvRxb old image = some got ∧ got.ident.id = frame.ident.id ∧
    got.ident.exide = frame.ident.exide ∧ got.ident.rtr = frame.ident.rtr ∧
    (frame.ident.rtr = 0 → got.dlc = frame.dlc ∧
      ∀ i : Fin canMaxDlc, i.val < frame.dlc.toNat → got.data i = frame.data i) ∧
    (frame.ident.rtr = 1 → got.dlc = 0)

/-- Everything but the identifier of an extended frame always survives the registers. -/
theorem roundTrips_iff_rxbId {old frame : CanFrame} {image : Bytes maxBufLen} (hvalid : frame.Valid)
    (himage : Carries image frame) :
    RoundTrips old image frame ↔ rxbId image = frame.ident.id := by
  obtain ⟨⟨_, h1, _, _⟩, h4, hdata⟩ := himage.registers hvalid.dlc
  have hrxbDlc := rxbDlc_of_dlcReg h4
  have hlegal : (rxbDlc image).toNat ≤ canMaxDlc := by
    rw [hrxbDlc]
    split
    · exact hvalid.dlc
    · exact Nat.zero_le _
  obtain ⟨got, hgot, hid, hexide, hrtr, hdlc, hpayload⟩ := recvRxb_eq_some old hlegal
  constructor
  · rintro ⟨got', hgot', hid', -⟩
    obtain rfl : got = got' := Option.some.inj (hgot.symm.trans hgot')
    exact hid.symm.trans hid'
  · intro hsame
    refine ⟨got, hgot, hid.trans hsame, hexide.trans (rxbExide_of_regs h1),
      hrtr.trans (rxbRtr_of_dlcReg h4), ?_, ?_⟩
    · intro hdataFrame
      rw [if_pos hdataFrame] at hrxbDlc
      refine ⟨hdlc.trans hrxbDlc, fun i hi => ?_⟩
      exact (hpayload i (by rwa [hrxbDlc])).trans (hdata i hi)
    · intro hremote
      rw [hdlc, hrxbDlc, hremote]
      rfl

/-- A frame survives the way through the buffer registers exactly when it is standard or the
bits that the shifted SIDL adds to its identifier are set in it anyway. -/
theorem recvRxb_loadTxb_iff (old frame : CanFrame) (image : Bytes maxBufLen)
    (hvalid : frame.Valid) (himage : Carries image frame) :
    RoundTrips old image frame ↔ frame.ident.exide = 0 ∨ SidlShiftCovered frame.ident.id := by
  obtain ⟨⟨h0, h1, h2, h3⟩, _, _⟩ := himage.registers hvalid.dlc
  rw [roundTrips_iff_rxbId hvalid himage]
  obtain hstd | hext := flag_eq_zero_or_one frame.ident.exide
  · have hid := rxbId_of_standard h0 h1 hstd hvalid.fits
    exact iff_of_true hid (Or.inl hstd)
  · have hnot : frame.ident.exide ≠ 0 := by rw [hext]; decide
    rw [rxbId_eq_iff_of_extended h0 h1 h2 h3 hext, or_iff_right hnot]

/-- The frame of the repository's test program. -/
def testFrame : CanFrame := ⟨⟨0x123, 0, 0, 0⟩, 0, 8, ![8, 7, 6, 5, 4, 3, 2, 1]⟩

/-- The receive image of the test program's frame. -/
def testImage : Bytes maxBufLen := ![0x24, 0x60, 0, 0, 8, 8, 7, 6, 5, 4, 3, 2, 1]

/-- The test program's standard frame survives the registers. -/
theorem testFrame_roundTrips : RoundTrips testFrame testImage testFrame :=
  (recvRxb_loadTxb_iff testFrame testFrame testImage
    ⟨rfl, by decide, fun _ => by decide⟩ ⟨_, rfl, by decide⟩).mpr (Or.inl rfl)

/-- An extended frame with identifier one and no payload. -/
def extendedFrame : CanFrame := ⟨⟨1, 1, 0, 0⟩, 0, 0, ![0, 0, 0, 0, 0, 0, 0, 0]⟩

/-- The receive image of the extended frame. -/
def extendedImage : Bytes maxBufLen := ![0, 8, 0, 1, 0, 0, 0, 0, 0, 0, 0, 0, 0]

/-- The extended frame comes back with identifier 0x80001: its own flag was shifted into it. -/
theorem extendedFrame_not_roundTrips :
    extendedFrame.Valid ∧ Carries extendedImage extendedFrame ∧
      ¬ RoundTrips extendedFrame extendedImage extendedFrame := by
  refine ⟨⟨rfl, by decide, fun h => absurd h (by decide)⟩, ⟨_, rfl, by decide⟩, ?_⟩
  rintro ⟨got, hgot, hid, -⟩
  have hread : (recvRxb extendedFrame extendedImage).map (fun f => f.ident.id) = some 0x80001 := by
    decide
  rw [hgot, Option.map_some, hid] at hread
  exact absurd hread (by decide)

end CamkesVm.Can
