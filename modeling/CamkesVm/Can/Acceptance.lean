import CamkesVm.Can.Filter

/-!
# Which frames a filter accepts

The controller compares a frame with a filter bit by bit, where the mask has a bit. Frame, filter and
mask lie in registers of the same layout: eight bits of the standard part in SIDH and three in SIDL,
the extended flag in SIDL, and the extended part in the low bits of SIDL, in EID8 and in EID0.

The driver writes the three images separately and truncates each shift to a byte. Bit by bit they all are
the image of the value they are given, restricted to the width of its kind, so the comparison is the one
that the caller asked for.
-/

namespace CamkesVm.Can

open CamkesVm.Machine

/-- The controller accepts a frame on a filter: the extended flags agree, and so do all identifier bits
that are set in the mask. -/
def Accepts (frame filter mask : Bytes 4) : Prop :=
  exideBit frame = exideBit filter ∧
    (∀ k < 11, sidBit mask k = true → sidBit filter k = sidBit frame k) ∧
    ∀ k < 18, eidBit mask k = true → eidBit filter k = eidBit frame k

instance (frame filter mask : Bytes 4) : Decidable (Accepts frame filter mask) :=
  inferInstanceAs (Decidable (_ ∧ _ ∧ _))

/-- The identifier registers of a transmit buffer. -/
def idBytes (buf : Bytes maxBufLen) : Bytes 4 := fun i => buf (i.castLE (by decide))

/-- The bits that an identifier of the kind has. -/
def idWidth (exide : BitVec 1) : BitVec 29 := if exide = 0 then 0x7FF else BitVec.allOnes 29

section Layout

variable {flag : BitVec 1} {sid eid : BitVec 32} {k : ℕ}

/-- The standard part is at its place in the image of the two parts. -/
theorem sidBit_idRegs (heid : ∀ i, 18 ≤ i → eid.getLsbD i = false) (hk : k < 11) :
    sidBit (idRegs flag (sid, eid)) k = sid.getLsbD k := by
  unfold sidBit
  split
  next hlow =>
    have htop : eid.getLsbD (16 + (k + 5)) = false := heid _ (by omega)
    simp [idRegs, htop, show k + 5 < 8 by omega, show k + 5 < 32 by omega]
  next hhigh => simp [idRegs, show k - 3 < 8 by omega, show 3 + (k - 3) = k by omega]

/-- So is the extended part. -/
theorem eidBit_idRegs (hk : k < 18) : eidBit (idRegs flag (sid, eid)) k = eid.getLsbD k := by
  unfold eidBit
  split_ifs with hlow hmid
  · have hbyte : byteMask.getLsbD k = true := by
      interval_cases k <;> rfl
    change ((eid &&& byteMask).setWidth 8).getLsbD k = _
    rw [BitVec.getLsbD_setWidth, BitVec.getLsbD_and, hbyte, decide_eq_true hlow, Bool.true_and,
      Bool.and_true]
  · simp [idRegs, show k - 8 < 8 by omega, show 8 + (k - 8) = k by omega]
  · simp [idRegs, show k - 16 < 8 by omega, show k - 16 < 5 by omega, show k - 16 < 3 by omega,
      show 16 + (k - 16) = k by omega]

/-- And the flag. -/
theorem exideBit_idRegs (heid : ∀ i, 18 ≤ i → eid.getLsbD i = false) :
    exideBit (idRegs flag (sid, eid)) = flag.getLsbD 0 := by
  have hsid : (sid <<< sidlShf).getLsbD 3 = false := by
    rw [BitVec.getLsbD_shiftLeft, decide_eq_true (by decide : 3 < sidlShf), Bool.not_true,
      Bool.and_false, Bool.false_and]
  have htop : (eid >>> sidlEidShf).getLsbD 3 = false := by
    rw [BitVec.getLsbD_ushiftRight]
    exact heid _ (by decide)
  have hflag : (flag.setWidth 32 <<< exideShf).getLsbD 3 = flag.getLsbD 0 := by
    simp
  change ((sid <<< sidlShf ||| flag.setWidth 32 <<< exideShf |||
    eid >>> sidlEidShf).setWidth 8).getLsbD 3
    = flag.getLsbD 0
  rw [BitVec.getLsbD_setWidth, BitVec.getLsbD_or, BitVec.getLsbD_or, hsid, htop, hflag,
    decide_eq_true (by decide : 3 < 8), Bool.true_and, Bool.false_or, Bool.or_false]

end Layout

section Image

/-- The extended part of a value has eighteen bits. -/
theorem splitId_eid_getLsbD (exide : BitVec 1) (value : BitVec 32) {i : ℕ} (hi : 18 ≤ i) :
    (splitId exide value).2.getLsbD i = false := by
  have hmask : canEidMask.getLsbD i = false := by
    have hlt : canEidMask.toNat < 2 ^ i := by
      calc canEidMask.toNat < 2 ^ 18 := by decide
        _ ≤ 2 ^ i := Nat.pow_le_pow_right (by decide) hi
    exact Nat.testBit_lt_two_pow hlt
  unfold splitId
  split
  · rw [BitVec.getLsbD_and, hmask, Bool.and_false]
  · exact BitVec.getLsbD_zero

/-- The image of a standard value holds its low eleven bits, and no extended ones. -/
theorem idRegs_standard (flag : BitVec 1) (value : BitVec 32) {k : ℕ} :
    (k < 11 → sidBit (idRegs flag (splitId 0 value)) k = value.getLsbD k) ∧
      (k < 18 → eidBit (idRegs flag (splitId 0 value)) k = false) := by
  refine ⟨fun hk => sidBit_idRegs (fun i hi => splitId_eid_getLsbD 0 value hi) hk, fun hk => ?_⟩
  exact (eidBit_idRegs hk).trans BitVec.getLsbD_zero

/-- The image of an extended value holds its low eighteen bits and the eleven above them. -/
theorem idRegs_extended (flag : BitVec 1) (value : BitVec 32) {k : ℕ} :
    (k < 11 → sidBit (idRegs flag (splitId 1 value)) k = value.getLsbD (18 + k)) ∧
      (k < 18 → eidBit (idRegs flag (splitId 1 value)) k = value.getLsbD k) := by
  refine ⟨fun hk => ?_, fun hk => ?_⟩
  · refine (sidBit_idRegs (fun i hi => splitId_eid_getLsbD 1 value hi) hk).trans ?_
    exact BitVec.getLsbD_ushiftRight ..
  · refine (eidBit_idRegs hk).trans ?_
    have hmask : canEidMask.getLsbD k = true := by
      interval_cases k <;> rfl
    change (value &&& canEidMask).getLsbD k = value.getLsbD k
    rw [BitVec.getLsbD_and, hmask, Bool.and_true]

/-- The flag of an identifier is in its image. -/
theorem exideBit_regs (ident : CanId) : exideBit ident.regs = ident.exide.getLsbD 0 :=
  exideBit_idRegs fun _ hi => splitId_eid_getLsbD _ _ hi

end Image

/-- The comparison of two bits where a third one is set, as an exclusive or. -/
theorem masked_eq_iff (x f m : Bool) : (m = true → f = x) ↔ ((x ^^ f) && m) = false := by
  revert x f m
  decide

section Filters

variable {frame filter : CanId} (mask : BitVec 32)

/-- Two identifiers differ nowhere under a mask exactly when no bit of their kind says so. -/
theorem differ_eq_zero_iff {width : BitVec 29} :
    (frame.id ^^^ filter.id) &&& mask.setWidth 29 &&& width = 0 ↔
      ∀ i < 29, width.getLsbD i = true → mask.getLsbD i = true →
        filter.id.getLsbD i = frame.id.getLsbD i := by
  constructor
  · intro hzero i hi hwidth
    have hbit := congrArg (BitVec.getLsbD · i) hzero
    simp only [BitVec.getLsbD_and, BitVec.getLsbD_xor, BitVec.getLsbD_setWidth, hi, hwidth, decide_true,
      Bool.true_and, Bool.and_true, BitVec.ofNat_eq_ofNat, BitVec.getLsbD_zero] at hbit
    exact (masked_eq_iff _ _ _).mpr hbit
  · intro hbits
    apply BitVec.eq_of_getLsbD_eq
    intro i hi
    simp only [BitVec.getLsbD_and, BitVec.getLsbD_xor, BitVec.getLsbD_setWidth, hi, decide_true,
      Bool.true_and, BitVec.ofNat_eq_ofNat, BitVec.getLsbD_zero]
    cases hwidth : width.getLsbD i with
    | false => rw [Bool.and_false]
    | true =>
      rw [Bool.and_true]
      exact (masked_eq_iff _ _ _).mp (hbits i hi hwidth)

/-- Standard identifiers are compared on their eleven bits. -/
theorem accepts_standard (hframe : frame.exide = 0) (hfilter : filter.exide = 0) :
    Accepts frame.regs filter.regs (maskImage 0 mask) ↔
      (frame.id ^^^ filter.id) &&& mask.setWidth 29 &&& idWidth 0 = 0 := by
  have hwidth : ∀ i < 29, (idWidth 0).getLsbD i = true ↔ i < 11 := by decide
  have hregs (ident : CanId) (h : ident.exide = 0) :
      ident.regs = idRegs 0 (splitId 0 (ident.id.setWidth 32)) := by rw [CanId.regs, h]
  have hbit (id : BitVec 29) {k : ℕ} (hk : k < 11) : (id.setWidth 32).getLsbD k = id.getLsbD k := by
    rw [BitVec.getLsbD_setWidth, decide_eq_true (by omega), Bool.true_and]
  rw [differ_eq_zero_iff, Accepts, exideBit_regs, exideBit_regs, hframe, hfilter, hregs frame hframe,
    hregs filter hfilter]
  constructor
  · rintro ⟨-, hsid, -⟩ i hi hin hmask
    have hk := (hwidth i hi).mp hin
    have hsame := hsid i hk (((idRegs_standard 0 mask).1 hk).trans hmask)
    rwa [(idRegs_standard _ _).1 hk, (idRegs_standard _ _).1 hk, hbit _ hk, hbit _ hk] at hsame
  · intro hbits
    refine ⟨rfl, fun k hk hmask => ?_, fun k hk hmask => ?_⟩
    · rw [(idRegs_standard _ _).1 hk, (idRegs_standard _ _).1 hk, hbit _ hk, hbit _ hk]
      have hset : mask.getLsbD k = true := ((idRegs_standard 0 mask).1 hk).symm.trans hmask
      exact hbits k (by omega) ((hwidth k (by omega)).mpr hk) hset
    · have hclear : eidBit (maskImage 0 mask) k = false := (idRegs_standard 0 mask).2 hk
      exact absurd (hclear.symm.trans hmask) Bool.false_ne_true

/-- Extended identifiers are compared on all bits. -/
theorem accepts_extended (hframe : frame.exide = 1) (hfilter : filter.exide = 1) :
    Accepts frame.regs filter.regs (maskImage 1 mask) ↔
      (frame.id ^^^ filter.id) &&& mask.setWidth 29 &&& idWidth 1 = 0 := by
  have hwidth : ∀ i < 29, (idWidth 1).getLsbD i = true := by decide
  have hregs (ident : CanId) (h : ident.exide = 1) :
      ident.regs = idRegs 1 (splitId 1 (ident.id.setWidth 32)) := by rw [CanId.regs, h]
  have hbit (id : BitVec 29) {k : ℕ} (hk : k < 29) : (id.setWidth 32).getLsbD k = id.getLsbD k := by
    rw [BitVec.getLsbD_setWidth, decide_eq_true (by omega), Bool.true_and]
  rw [differ_eq_zero_iff, Accepts, exideBit_regs, exideBit_regs, hframe, hfilter, hregs frame hframe,
    hregs filter hfilter]
  constructor
  · rintro ⟨-, hsid, heid⟩ i hi _ hmask
    rcases Nat.lt_or_ge i 18 with hlow | hhigh
    · have hsame := heid i hlow (((idRegs_extended 0 mask).2 hlow).trans hmask)
      rwa [(idRegs_extended _ _).2 hlow, (idRegs_extended _ _).2 hlow, hbit _ hi, hbit _ hi] at hsame
    · have hk : i - 18 < 11 := by omega
      have hi18 : 18 + (i - 18) = i := by omega
      have hread := (idRegs_extended 0 mask).1 hk
      rw [hi18, hmask] at hread
      have hsame := hsid (i - 18) hk hread
      rwa [(idRegs_extended _ _).1 hk, (idRegs_extended _ _).1 hk, hi18, hbit _ hi, hbit _ hi] at hsame
  · intro hbits
    refine ⟨rfl, fun k hk hmask => ?_, fun k hk hmask => ?_⟩
    · rw [(idRegs_extended _ _).1 hk, (idRegs_extended _ _).1 hk, hbit _ (by omega), hbit _ (by omega)]
      have hset : mask.getLsbD (18 + k) = true := ((idRegs_extended 0 mask).1 hk).symm.trans hmask
      exact hbits _ (by omega) (hwidth _ (by omega)) hset
    · rw [(idRegs_extended _ _).2 hk, (idRegs_extended _ _).2 hk, hbit _ (by omega), hbit _ (by omega)]
      have hset : mask.getLsbD k = true := ((idRegs_extended 0 mask).2 hk).symm.trans hmask
      exact hbits k (by omega) (hwidth k (by omega)) hset

end Filters

/-- A filter means what its caller says: the registers that the driver writes for a filter and a mask
accept the frames that it loads exactly when their identifiers agree under the mask. -/
theorem writeToFilter_accepts_iff (regs : Regs) {idx : ℕ} (hidx : idx < 6) (filter : CanId)
    {mask : BitVec 32} (hmask : mask ≠ 0) (frame : CanFrame) (hdlc : frame.dlc.toNat ≤ canMaxDlc)
    (hkind : frame.ident.exide = filter.exide) :
    ∃ buf, loadTxbBuf frame = some buf ∧
      (Accepts (idBytes buf) (filterRegs (writeToFilter regs idx filter mask) idx)
          (maskRegs (writeToFilter regs idx filter mask) (maskOf idx)) ↔
        (frame.ident.id ^^^ filter.id) &&& mask.setWidth 29 &&& idWidth filter.exide = 0) := by
  obtain ⟨buf, hbuf, hid, -⟩ := loadTxbBuf_eq_some hdlc
  have hbytes : idBytes buf = frame.ident.regs := funext hid
  refine ⟨buf, hbuf, ?_⟩
  rw [hbytes, filterRegs_writeToFilter_self, maskRegs_writeToFilter_self regs hidx filter hmask]
  obtain hstd | hext := flag_eq_zero_or_one filter.exide
  · rw [hstd]
    exact accepts_standard mask (hkind.trans hstd) hstd
  · rw [hext]
    exact accepts_extended mask (hkind.trans hext) hext

/-- The frame of the test program passes a filter that differs from it outside the mask. -/
theorem testFrame_accepted :
    ∃ buf, loadTxbBuf testFrame = some buf ∧
      Accepts (idBytes buf) (filterRegs (writeToFilter (fun _ => 0) 1 ⟨0x023, 0, 0, 0⟩ 0x0FF) 1)
        (maskRegs (writeToFilter (fun _ => 0) 1 ⟨0x023, 0, 0, 0⟩ 0x0FF) (maskOf 1)) := by
  obtain ⟨buf, hbuf, haccepts⟩ := writeToFilter_accepts_iff (fun _ => 0) (by decide : 1 < 6)
    ⟨0x023, 0, 0, 0⟩ (by decide : (0x0FF : BitVec 32) ≠ 0) testFrame (by decide) rfl
  exact ⟨buf, hbuf, haccepts.mpr (by decide)⟩

end CamkesVm.Can
