import CamkesVm.Can.FrameCodec

/-!
# The layout of a transmit buffer

`load_txb` hands the header and the payload of a frame to `mcp2515_load_txb`. Each header register is an
or of shifted fields, cut off to a byte. For a frame whose identifier fits its kind the fields do not
overlap and nothing is cut off that another register does not hold, so the registers are sums of
multiples of the fields. Then the fields can be computed back, and different frames are sent as different
bytes.
-/

namespace CamkesVm.Can

open CamkesVm.Machine

/-- The standard part of an identifier. -/
def CanId.sid (ident : CanId) : ℕ := if ident.exide = 0 then ident.id.toNat else ident.id.toNat / 2 ^ 18

/-- The extended part of an identifier. -/
def CanId.eid (ident : CanId) : ℕ := if ident.exide = 0 then 0 else ident.id.toNat % 2 ^ 18

/-- The bytes that `load_txb` hands to `mcp2515_load_txb`. -/
def loadedBytes (frame : CanFrame) : Option (List Byte) :=
  (loadTxbBuf frame).map fun buf => (List.ofFn buf).take (frame.dlc.toNat + dat)

/-- The header registers of a buffer. -/
structure TxHeader where
  sidh : Byte
  sidl : Byte
  eid8 : Byte
  eid0 : Byte
  dlc : Byte

/-- The header registers in their order. -/
def TxHeader.bytes (header : TxHeader) : List Byte :=
  [header.sidh, header.sidl, header.eid8, header.eid0, header.dlc]

/-- A header takes the five bytes in front of the data. -/
theorem TxHeader.length_bytes (header : TxHeader) : header.bytes.length = 5 := rfl

/-- The header registers have the layout of the controller, with the fields of the frame. -/
structure TxHeader.Describes (header : TxHeader) (frame : CanFrame) : Prop where
  sid : header.sidh.toNat * 8 + header.sidl.toNat / 32 = frame.ident.sid
  eid : header.sidl.toNat % 4 * 2 ^ 16 + header.eid8.toNat * 2 ^ 8 + header.eid0.toNat = frame.ident.eid
  exide : header.sidl.getLsbD 3 = decide (frame.ident.exide = 1)
  bit4 : header.sidl.getLsbD 4 = false
  bit2 : header.sidl.getLsbD 2 = false
  dlc : header.dlc.toNat = frame.ident.rtr.toNat * 64 + frame.dlc.toNat

section Fields

variable {sid eid : BitVec 32} {flag : BitVec 1}

/-- A field below a shifted one adds to it. -/
theorem shiftLeft_or (a : ℕ) {b i : ℕ} (h : b < 2 ^ i) : a <<< i ||| b = a * 2 ^ i + b := by
  rw [← Nat.shiftLeft_add_eq_or_of_lt h, Nat.shiftLeft_eq]

/-- The register SIDL as a sum. -/
theorem toNat_sidl (hsid : sid.toNat < 2 ^ 11) (heid : eid.toNat < 2 ^ 18) :
    ((sid <<< sidlShf ||| flag.setWidth 32 <<< exideShf ||| eid >>> sidlEidShf).setWidth 8).toNat =
      sid.toNat % 8 * 32 + flag.toNat * 8 + eid.toNat / 2 ^ 16 := by
  have hflag := flag.isLt
  have htop : eid.toNat / 2 ^ 16 < 2 ^ 3 := by omega
  have hlow : flag.toNat * 2 ^ 3 + eid.toNat / 2 ^ 16 < 2 ^ 5 := by omega
  have hsidShift : (sid <<< sidlShf).toNat = sid.toNat <<< 5 := by
    rw [BitVec.toNat_shiftLeft, sidlShf, Nat.shiftLeft_eq]
    omega
  have hflagShift : (flag.setWidth 32 <<< exideShf).toNat = flag.toNat <<< 3 := by
    rw [BitVec.toNat_shiftLeft, exideShf, BitVec.toNat_setWidth, Nat.shiftLeft_eq, Nat.shiftLeft_eq]
    omega
  rw [BitVec.toNat_setWidth, BitVec.toNat_or, BitVec.toNat_or, hsidShift, hflagShift,
    BitVec.toNat_ushiftRight, sidlEidShf, Nat.shiftRight_eq_div_pow, Nat.or_assoc, shiftLeft_or _ htop,
    shiftLeft_or _ hlow]
  omega

/-- The registers of the two parts of an identifier, in numbers. -/
theorem toNat_idRegs {parts : BitVec 32 × BitVec 32} (hsid : parts.1.toNat < 2 ^ 11)
    (heid : parts.2.toNat < 2 ^ 18) :
    (idRegs flag parts 0).toNat = parts.1.toNat / 8 ∧
      (idRegs flag parts 1).toNat =
        parts.1.toNat % 8 * 32 + flag.toNat * 8 + parts.2.toNat / 2 ^ 16 ∧
      (idRegs flag parts 2).toNat = parts.2.toNat / 2 ^ 8 % 2 ^ 8 ∧
      (idRegs flag parts 3).toNat = parts.2.toNat % 2 ^ 8 := by
  refine ⟨?_, toNat_sidl hsid heid, ?_, ?_⟩
  · change ((parts.1 >>> sidhShf).setWidth 8).toNat = _
    rw [BitVec.toNat_setWidth, BitVec.toNat_ushiftRight, sidhShf, Nat.shiftRight_eq_div_pow]
    omega
  · change ((parts.2 >>> eid8Shf).setWidth 8).toNat = _
    rw [BitVec.toNat_setWidth, BitVec.toNat_ushiftRight, eid8Shf, Nat.shiftRight_eq_div_pow]
  · change ((parts.2 &&& byteMask).setWidth 8).toNat = _
    rw [BitVec.toNat_setWidth, BitVec.toNat_and]
    change (parts.2.toNat &&& 2 ^ 8 - 1) % 2 ^ 8 = _
    rw [Nat.and_two_pow_sub_one_eq_mod, Nat.mod_mod]

/-- The parts into which `load_txb` separates an identifier. -/
theorem toNat_splitId (ident : CanId) :
    (splitId ident.exide (ident.id.setWidth 32)).1.toNat = ident.sid ∧
      (splitId ident.exide (ident.id.setWidth 32)).2.toNat = ident.eid := by
  have hid : (ident.id.setWidth 32).toNat = ident.id.toNat := BitVec.toNat_setWidth_of_le (by decide)
  unfold splitId CanId.sid CanId.eid
  by_cases hexide : ident.exide = 0
  · rw [if_neg (not_not_intro hexide), if_pos hexide, if_pos hexide]
    exact ⟨hid, rfl⟩
  · rw [if_pos hexide, if_neg hexide, if_neg hexide]
    constructor
    · rw [BitVec.toNat_ushiftRight, hid, canEidBits, Nat.shiftRight_eq_div_pow]
    · rw [BitVec.toNat_and, hid]
      exact Nat.and_two_pow_sub_one_eq_mod ident.id.toNat 18

/-- The parts of an identifier that fits its kind have 11 and 18 bits. -/
theorem CanId.Fits.parts_lt {ident : CanId} (h : ident.Fits) :
    ident.sid < 2 ^ 11 ∧ ident.eid < 2 ^ 18 := by
  have hid := ident.id.isLt
  unfold CanId.sid CanId.eid
  by_cases hexide : ident.exide = 0
  · rw [if_pos hexide, if_pos hexide]
    exact ⟨h hexide, by decide⟩
  · rw [if_neg hexide, if_neg hexide]
    omega

/-- The parts determine an identifier of a known kind. -/
theorem CanId.id_eq_of_parts {ident ident' : CanId} (hexide : ident.exide = ident'.exide)
    (hsid : ident.sid = ident'.sid) (heid : ident.eid = ident'.eid) : ident.id = ident'.id := by
  apply BitVec.eq_of_toNat_eq
  unfold CanId.sid at hsid
  unfold CanId.eid at heid
  rw [← hexide] at hsid heid
  split at hsid
  · exact hsid
  · next hne =>
    rw [if_neg hne, if_neg hne] at heid
    omega

/-- The register DLC as a sum. -/
theorem toNat_dlcReg (frame : CanFrame) :
    frame.dlcReg.toNat = frame.ident.rtr.toNat * 64 + frame.dlc.toNat := by
  have hrtr := frame.ident.rtr.isLt
  have hdlc := frame.dlc.isLt
  have hrtrShift : (frame.ident.rtr.setWidth 32 <<< rtrShf).toNat = frame.ident.rtr.toNat <<< 6 := by
    rw [BitVec.toNat_shiftLeft, rtrShf, BitVec.toNat_setWidth, Nat.shiftLeft_eq, Nat.shiftLeft_eq]
    omega
  have hdlcLow : frame.dlc.toNat < 2 ^ 6 := by omega
  rw [CanFrame.dlcReg, BitVec.toNat_setWidth, BitVec.toNat_or, hrtrShift,
    BitVec.toNat_setWidth_of_le (by decide), shiftLeft_or _ hdlcLow]
  omega

/-- The registers of an identifier that fits its kind, in numbers. -/
theorem CanId.Fits.toNat_regs {ident : CanId} (h : ident.Fits) :
    (ident.regs 0).toNat = ident.sid / 8 ∧
      (ident.regs 1).toNat = ident.sid % 8 * 32 + ident.exide.toNat * 8 + ident.eid / 2 ^ 16 ∧
      (ident.regs 2).toNat = ident.eid / 2 ^ 8 % 2 ^ 8 ∧ (ident.regs 3).toNat = ident.eid % 2 ^ 8 := by
  obtain ⟨hsid, heid⟩ := toNat_splitId ident
  obtain ⟨hsidLt, heidLt⟩ := h.parts_lt
  rw [← hsid, ← heid]
  exact toNat_idRegs (by rwa [hsid]) (by rwa [heid])

end Fields

/-- A bit in numbers. -/
theorem getLsbD_eq_decide {w : ℕ} (x : BitVec w) (i : ℕ) :
    x.getLsbD i = decide (x.toNat / 2 ^ i % 2 = 1) :=
  Nat.testBit_eq_decide_div_mod_eq

/-- The registers of a frame whose identifier fits its kind have the layout of the controller. -/
theorem describes_regs {frame : CanFrame} (hfits : frame.ident.Fits) :
    TxHeader.Describes ⟨frame.ident.regs 0, frame.ident.regs 1, frame.ident.regs 2, frame.ident.regs 3,
      frame.dlcReg⟩ frame := by
  obtain ⟨hsidh, hsidl, heid8, heid0⟩ := hfits.toNat_regs
  obtain ⟨hsid, heid⟩ := hfits.parts_lt
  have hflag := frame.ident.exide.isLt
  constructor
  · change (frame.ident.regs 0).toNat * 8 + (frame.ident.regs 1).toNat / 32 = _
    omega
  · change (frame.ident.regs 1).toNat % 4 * 2 ^ 16 + (frame.ident.regs 2).toNat * 2 ^ 8 +
      (frame.ident.regs 3).toNat = _
    omega
  · change (frame.ident.regs 1).getLsbD 3 = _
    rw [getLsbD_eq_decide, decide_eq_decide, ← BitVec.toNat_inj]
    change _ ↔ frame.ident.exide.toNat = 1
    omega
  · change (frame.ident.regs 1).getLsbD 4 = false
    rw [getLsbD_eq_decide, decide_eq_false_iff_not]
    omega
  · change (frame.ident.regs 1).getLsbD 2 = false
    rw [getLsbD_eq_decide, decide_eq_false_iff_not]
    omega
  · exact toNat_dlcReg frame

/-- The bytes of a frame that fits the buffer are its registers and its payload. -/
theorem loadedBytes_eq {frame : CanFrame} (hdlc : frame.dlc.toNat ≤ canMaxDlc) :
    loadedBytes frame = some ([frame.ident.regs 0, frame.ident.regs 1, frame.ident.regs 2,
      frame.ident.regs 3, frame.dlcReg] ++ (List.ofFn frame.data).take frame.dlc.toNat) := by
  obtain ⟨buf, hbuf, hid, hdlcReg, hdata⟩ := loadTxbBuf_eq_some hdlc
  have hsplit : List.ofFn buf = [buf 0, buf 1, buf 2, buf 3, buf 4] ++
      List.ofFn fun i : Fin canMaxDlc => buf (i.natAdd dat) := rfl
  have hheader : [buf 0, buf 1, buf 2, buf 3, buf 4] = [frame.ident.regs 0, frame.ident.regs 1,
      frame.ident.regs 2, frame.ident.regs 3, frame.dlcReg] := by
    have h0 : buf 0 = frame.ident.regs 0 := hid 0
    have h1 : buf 1 = frame.ident.regs 1 := hid 1
    have h2 : buf 2 = frame.ident.regs 2 := hid 2
    have h3 : buf 3 = frame.ident.regs 3 := hid 3
    rw [h0, h1, h2, h3, hdlcReg]
  have hpayload : (List.ofFn fun i : Fin canMaxDlc => buf (i.natAdd dat)).take frame.dlc.toNat =
      (List.ofFn frame.data).take frame.dlc.toNat := by
    apply List.ext_getElem
    · simp
    · intro k hk _
      simp only [List.getElem_take, List.getElem_ofFn]
      exact hdata _ (by simpa using (List.length_take_le _ _).trans_lt' hk)
  rw [loadedBytes, hbuf, Option.map_some, hsplit, hheader, ← hpayload]
  rfl

/-- A frame that can be sent is handed over as a header of the layout of the controller and the payload.
-/
theorem exists_header {frame : CanFrame} (hdlc : frame.dlc.toNat ≤ canMaxDlc)
    (hfits : frame.ident.Fits) :
    ∃ header : TxHeader, header.Describes frame ∧ loadedBytes frame =
      some (header.bytes ++ (List.ofFn frame.data).take frame.dlc.toNat) :=
  ⟨_, describes_regs hfits, loadedBytes_eq hdlc⟩

/-- A header is determined by its bytes. -/
theorem TxHeader.bytes_injective {header header' : TxHeader} (h : header.bytes = header'.bytes) :
    header = header' := by
  cases header
  cases header'
  simpa [TxHeader.bytes] using h

/-- Two frames that have the same header agree in what the header describes. -/
theorem TxHeader.Describes.unique {header : TxHeader} {frame frame' : CanFrame}
    (h : header.Describes frame) (h' : header.Describes frame') :
    frame.ident.id = frame'.ident.id ∧ frame.ident.exide = frame'.ident.exide ∧
      frame.ident.rtr = frame'.ident.rtr ∧ frame.dlc = frame'.dlc := by
  have hexide : frame.ident.exide = frame'.ident.exide := by
    have hflag := decide_eq_decide.mp (h.exide.symm.trans h'.exide)
    obtain hzero | hone := flag_eq_zero_or_one frame.ident.exide
    · obtain hzero' | hone' := flag_eq_zero_or_one frame'.ident.exide
      · rw [hzero, hzero']
      · rw [hflag.mpr hone', hone']
    · rw [hone, hflag.mp hone]
  have hdlc := h.dlc.symm.trans h'.dlc
  have hlt := frame.dlc.isLt
  have hlt' := frame'.dlc.isLt
  refine ⟨CanId.id_eq_of_parts hexide (h.sid.symm.trans h'.sid) (h.eid.symm.trans h'.eid), hexide,
    ?_, ?_⟩
  · apply BitVec.eq_of_toNat_eq
    omega
  · apply BitVec.eq_of_toNat_eq
    omega

/-- A frame that can be sent is handed over as a header of the layout of the controller and the payload,
and no other frame is handed over as the same bytes. -/
theorem loadTxb_layout (frame : CanFrame) (hdlc : frame.dlc.toNat ≤ canMaxDlc)
    (hfits : frame.ident.Fits) :
    (∃ header : TxHeader, header.Describes frame ∧ loadedBytes frame =
        some (header.bytes ++ (List.ofFn frame.data).take frame.dlc.toNat)) ∧
      (loadedBytes frame).map List.length = some (frame.dlc.toNat + 5) ∧
      ∀ other : CanFrame, other.dlc.toNat ≤ canMaxDlc → other.ident.Fits →
        loadedBytes frame = loadedBytes other →
        frame.ident.id = other.ident.id ∧ frame.ident.exide = other.ident.exide ∧
          frame.ident.rtr = other.ident.rtr ∧ frame.dlc = other.dlc ∧
          (List.ofFn frame.data).take frame.dlc.toNat = (List.ofFn other.data).take other.dlc.toNat := by
  obtain ⟨header, hdescribes, hbytes⟩ := exists_header hdlc hfits
  refine ⟨⟨header, hdescribes, hbytes⟩, ?_, ?_⟩
  · rw [hbytes, Option.map_some, List.length_append, List.length_take, List.length_ofFn,
      Nat.min_eq_left hdlc, TxHeader.length_bytes, Nat.add_comm]
  · intro other hdlc' hfits' hsame
    obtain ⟨header', hdescribes', hbytes'⟩ := exists_header hdlc' hfits'
    rw [hbytes, hbytes', Option.some_inj] at hsame
    obtain ⟨hheader, hdata⟩ := List.append_inj hsame
      (header.length_bytes.trans header'.length_bytes.symm)
    rw [← TxHeader.bytes_injective hheader] at hdescribes'
    obtain ⟨hid, hexide, hrtr, hlen⟩ := hdescribes.unique hdescribes'
    exact ⟨hid, hexide, hrtr, hlen, hdata⟩

/-- The test program's frame is handed over with its eight bytes of payload. -/
theorem testFrame_layout :
    ∃ header : TxHeader, header.Describes testFrame ∧
      loadedBytes testFrame = some (header.bytes ++ [8, 7, 6, 5, 4, 3, 2, 1]) :=
  (loadTxb_layout testFrame (by decide) fun _ => by decide).1

end CamkesVm.Can
