import CamkesVm.Can.FrameCodec
import CamkesVm.Can.Registers

/-!
# Receive filters

The filter functions of `controller.c` and `dev.c`. The driver keeps no table of its filters: a
bank of filters is free when its mask registers read back as zero, and a filter is free when its
four registers are zero. The mask is read back through two variables of eight bits, so only the
low eight bits of its standard part and of its extended part are compared.
-/

namespace CamkesVm.Can

open CamkesVm.Machine

/-- The length of a receive filter. -/
abbrev filterBytes : ℕ := 4

/-- The number of filter masks. -/
abbrev numOfMasks : ℕ := 2

/-- The number of filters of the first mask. -/
abbrev filtsOfMask0 : ℕ := 2

/-- The number of filters of the second mask. -/
abbrev filtsOfMask1 : ℕ := 4

/-- The operation modes, in the order of their values. -/
inductive OpMode
  | normal
  | sleep
  | loop
  | listen
  | config
  deriving DecidableEq

/-- The value of an operation mode. -/
def OpMode.value : OpMode → Byte
  | .normal => 0
  | .sleep => 1
  | .loop => 2
  | .listen => 3
  | .config => 4

/-- The value of the current operation mode. -/
def getMode (regs : Regs) : Byte := mcp2515ReadReg regs canstat >>> canstatOpmodShf

/-- Request an operation mode. -/
def setMode (regs : Regs) (mode : OpMode) : Regs :=
  mcp2515BitModify regs canctrl canctrlReqopMask (mode.value <<< canctrlReqopShf)

/-- The registers of a filter. -/
def filterRegs (regs : Regs) (idx : ℕ) : Bytes filterBytes :=
  mcp2515ReadNregs regs (rxfsidh idx) filterBytes

/-- The registers of a mask. -/
def maskRegs (regs : Regs) (mask : ℕ) : Bytes filterBytes :=
  mcp2515ReadNregs regs (rxmsidh mask) filterBytes

/-- Check if a filter is empty. -/
def isFilterEmpty (regs : Regs) (idx : ℕ) : Bool :=
  (List.ofFn (filterRegs regs idx)).foldl (fun ret b => ret ||| b) 0 == 0

/-- The register image of a mask for identifiers of the given kind. -/
def maskImage (exide : BitVec 1) (mask : BitVec 32) : Bytes filterBytes :=
  idRegs 0 (splitId exide mask)

/-- The mask that a filter uses. -/
def maskOf (idx : ℕ) : ℕ := if idx < filtsOfMask0 then 0 else 1

/-- Write a filter, and its mask unless that is zero. -/
def writeToFilter (regs : Regs) (idx : ℕ) (canId : CanId) (mask : BitVec 32) : Regs :=
  let regs := if mask ≠ 0 then
    mcp2515WriteNregs regs (rxmsidh (maskOf idx)) (maskImage canId.exide mask) else regs
  mcp2515WriteNregs regs (rxfsidh idx) canId.regs

/-- The standard part of a mask as it is read back, into eight bits. -/
def curSid (buf : Bytes filterBytes) : BitVec 8 := (regsSid buf).setWidth 8

/-- The extended part of a mask as it is read back, into eight bits. -/
def curEid (buf : Bytes filterBytes) : BitVec 8 := (regsEid buf).setWidth 8

/-- The mask that is compared with the requested one. -/
def curMask (exide : BitVec 1) (buf : Bytes filterBytes) : BitVec 32 :=
  let cur := (curSid buf).setWidth 32 <<< canEidBits ||| (curEid buf).setWidth 32
  if exide = 0 then cur >>> canEidBits else cur

/-- The filters of a mask. -/
def filtersOf (mask : ℕ) : List ℕ :=
  List.range' (mask * filtsOfMask0) (mask * filtsOfMask1 + filtsOfMask0 - mask * filtsOfMask0)

/-- Look for a place for a filter among those of one mask. -/
def tryMask (regs : Regs) (canId : CanId) (mask : BitVec 32) (i : ℕ) : Option (ℕ × Regs) :=
  let buf := maskRegs regs i
  if curMask canId.exide buf = 0 ∧ curEid buf = 0 then
    some (i * filtsOfMask0, writeToFilter regs (i * filtsOfMask0) canId mask)
  else if curMask canId.exide buf = mask then
    ((filtersOf i).find? (isFilterEmpty regs)).map fun j => (j, writeToFilter regs j canId 0)
  else none

/-- Set a receive filter, returning its index or `-1`. -/
def setRxFilter (regs : Regs) (canId : CanId) (mask : BitVec 32) : ℤ × Regs :=
  match (List.range numOfMasks).findSome? (tryMask regs canId mask) with
  | some (j, regs') => (j, regs')
  | none => (-1, regs)

/-- Clear a receive filter, and its mask when all filters of the mask are empty. -/
def clearRxFilter (regs : Regs) (idx : ℕ) : Regs :=
  let regs := mcp2515WriteNregs regs (rxfsidh idx) (fun _ : Fin filterBytes => 0)
  if (filtersOf (maskOf idx)).all (isFilterEmpty regs) then
    mcp2515WriteNregs regs (rxmsidh (maskOf idx)) (fun _ : Fin filterBytes => 0)
  else regs

/-- Clear the mask of one receive buffer, or both masks. -/
def clearFilterMask (regs : Regs) (rxbIdx : ℕ) : Regs :=
  if rxbIdx ≥ 2 then mcp2515WriteNregs regs (rxmsidh 0) (fun _ : Fin (filterBytes * 2) => 0)
  else mcp2515WriteNregs regs (rxmsidh rxbIdx) (fun _ : Fin filterBytes => 0)

/-- Set a filter in configuration mode. -/
def canSetFilter (regs : Regs) (id : CanId) (mask : BitVec 32) : ℤ × Regs :=
  let r := setRxFilter (setMode regs .config) id mask
  (r.1, setMode r.2 .normal)

/-- Clear a filter in configuration mode. -/
def canClearFilter (regs : Regs) (filterId : ℕ) : Regs :=
  setMode (clearRxFilter (setMode regs .config) filterId) .normal

/-- Clear both masks in configuration mode. -/
def canDisableFiltering (regs : Regs) : Regs :=
  setMode (clearFilterMask (setMode regs .config) 2) .normal

/-- A filter is empty exactly when its registers are zero. -/
theorem isFilterEmpty_iff (regs : Regs) (idx : ℕ) :
    isFilterEmpty regs idx = true ↔ filterRegs regs idx = fun _ => 0 := by
  rw [isFilterEmpty, beq_iff_eq]
  simp [List.ofFn_succ, funext_iff, Fin.forall_fin_succ, BitVec.or_eq_zero_iff, and_assoc]

/-- Every filter uses one of the two masks. -/
theorem maskOf_lt (idx : ℕ) : maskOf idx < numOfMasks := by
  unfold maskOf
  split <;> decide

/-- The filters of a mask start at its first one. -/
theorem first_mem_filtersOf {i : ℕ} (hi : i < numOfMasks) : i * filtsOfMask0 ∈ filtersOf i := by
  revert i
  decide

/-- The filters of a mask are those that use it. -/
theorem mem_filtersOf {i j : ℕ} (hi : i < numOfMasks) (hj : j ∈ filtersOf i) :
    maskOf j = i ∧ j < 6 := by
  revert j
  revert i
  decide

/-- Every filter is among those of the mask it uses. -/
theorem mem_filtersOf_maskOf {j : ℕ} (hj : j < 6) : j ∈ filtersOf (maskOf j) := by
  revert j
  decide

/-- Setting a filter either fails and changes nothing, or takes a place: the first one of a mask
that reads back as zero, or an empty one of a mask that reads back as the requested one. -/
theorem setRxFilter_cases (regs : Regs) (canId : CanId) (mask : BitVec 32) :
    setRxFilter regs canId mask = (-1, regs) ∨
    ∃ i < numOfMasks, ∃ j ∈ filtersOf i,
      (setRxFilter regs canId mask = (↑j, writeToFilter regs j canId mask) ∧
        j = i * filtsOfMask0 ∧ curMask canId.exide (maskRegs regs i) = 0 ∧
        curEid (maskRegs regs i) = 0) ∨
      (setRxFilter regs canId mask = (↑j, writeToFilter regs j canId 0) ∧
        curMask canId.exide (maskRegs regs i) = mask ∧ isFilterEmpty regs j = true) := by
  cases hfound : (List.range numOfMasks).findSome? (tryMask regs canId mask) with
  | none => exact Or.inl (by rw [setRxFilter, hfound])
  | some place =>
    obtain ⟨j, regs'⟩ := place
    have hset : setRxFilter regs canId mask = (↑j, regs') := by rw [setRxFilter, hfound]
    obtain ⟨i, hi, htry⟩ := List.exists_of_findSome?_eq_some hfound
    rw [hset]
    refine Or.inr ⟨i, List.mem_range.mp hi, j, ?_⟩
    simp only [tryMask] at htry
    split_ifs at htry with hzero hsame
    · obtain ⟨rfl, rfl⟩ := Prod.mk.inj (Option.some.inj htry)
      exact ⟨first_mem_filtersOf (List.mem_range.mp hi), Or.inl ⟨rfl, rfl, hzero⟩⟩
    · obtain ⟨j', hfind, hj⟩ := Option.map_eq_some_iff.mp htry
      obtain ⟨rfl, rfl⟩ := Prod.mk.inj hj
      exact ⟨List.mem_of_find?_eq_some hfind, Or.inr ⟨rfl, hsame, List.find?_some hfind⟩⟩

section Registers

variable (regs : Regs)

/-- Writing the registers of another filter leaves a filter as it was. -/
theorem filterRegs_writeFilter_of_ne {idx other : ℕ} (hidx : idx < 6) (hother : other < 6)
    (hne : other ≠ idx) (buf : Bytes filterBytes) :
    filterRegs (mcp2515WriteNregs regs (rxfsidh idx) buf) other = filterRegs regs other := by
  apply mcp2515ReadNregs_writeNregs_of_disjoint
  revert other
  revert idx
  decide

/-- Writing the registers of a filter leaves the masks as they were. -/
theorem maskRegs_writeFilter {idx mask : ℕ} (hidx : idx < 6) (hmask : mask < numOfMasks)
    (buf : Bytes filterBytes) :
    maskRegs (mcp2515WriteNregs regs (rxfsidh idx) buf) mask = maskRegs regs mask := by
  apply mcp2515ReadNregs_writeNregs_of_disjoint
  revert mask
  revert idx
  decide

/-- Writing the registers of a mask leaves the filters as they were. -/
theorem filterRegs_writeMask {idx mask : ℕ} (hidx : idx < 6) (hmask : mask < numOfMasks)
    (buf : Bytes filterBytes) :
    filterRegs (mcp2515WriteNregs regs (rxmsidh mask) buf) idx = filterRegs regs idx := by
  apply mcp2515ReadNregs_writeNregs_of_disjoint
  revert mask
  revert idx
  decide

/-- Writing the registers of one mask leaves the other as it was. -/
theorem maskRegs_writeMask_of_ne {mask other : ℕ} (hmask : mask < numOfMasks)
    (hother : other < numOfMasks) (hne : other ≠ mask) (buf : Bytes filterBytes) :
    maskRegs (mcp2515WriteNregs regs (rxmsidh mask) buf) other = maskRegs regs other := by
  apply mcp2515ReadNregs_writeNregs_of_disjoint
  revert other
  revert mask
  decide

/-- A mode change leaves the filters as they were, except the one that overlaps CANCTRL. -/
theorem filterRegs_setMode {idx : ℕ} (hidx : idx < 6) (hne : idx ≠ 3) (mode : OpMode) :
    filterRegs (setMode regs mode) idx = filterRegs regs idx := by
  apply mcp2515ReadNregs_bitModify_of_ne
  revert idx
  decide

/-- A mode change leaves the masks as they were. -/
theorem maskRegs_setMode {mask : ℕ} (hmask : mask < numOfMasks) (mode : OpMode) :
    maskRegs (setMode regs mode) mask = maskRegs regs mask := by
  apply mcp2515ReadNregs_bitModify_of_ne
  revert mask
  decide

/-- In configuration mode the filter that overlaps CANCTRL never looks empty. -/
theorem isFilterEmpty_config_three : isFilterEmpty (setMode regs .config) 3 = false := by
  rw [Bool.eq_false_iff, ne_eq, isFilterEmpty_iff]
  intro hzero
  have hctrl : (regs canctrl &&& ~~~canctrlReqopMask |||
      OpMode.config.value <<< canctrlReqopShf &&& canctrlReqopMask) = 0 := by
    simpa [filterRegs, mcp2515ReadNregs, setMode, mcp2515BitModify, rxfsidh, canctrl] using
      congrFun hzero 3
  have hbit := congrArg (fun b : Byte => b.getLsbD 7) hctrl
  simp [canctrlReqopMask, canctrlReqopShf, OpMode.value] at hbit

/-- A written filter holds the image of its identifier. -/
theorem filterRegs_writeToFilter_self (idx : ℕ) (canId : CanId) (mask : BitVec 32) :
    filterRegs (writeToFilter regs idx canId mask) idx = canId.regs :=
  mcp2515ReadNregs_writeNregs _ _ _ (by decide)

/-- Writing a filter leaves the others as they were. -/
theorem filterRegs_writeToFilter_of_ne {idx other : ℕ} (hidx : idx < 6) (hother : other < 6)
    (hne : other ≠ idx) (canId : CanId) (mask : BitVec 32) :
    filterRegs (writeToFilter regs idx canId mask) other = filterRegs regs other := by
  rw [writeToFilter, filterRegs_writeFilter_of_ne _ hidx hother hne]
  split
  · exact filterRegs_writeMask regs hother (maskOf_lt idx) _
  · rfl

/-- A filter that is written with a mask sets the mask it uses. -/
theorem maskRegs_writeToFilter_self {idx : ℕ} (hidx : idx < 6) (canId : CanId) {mask : BitVec 32}
    (hmask : mask ≠ 0) :
    maskRegs (writeToFilter regs idx canId mask) (maskOf idx) = maskImage canId.exide mask := by
  rw [writeToFilter, maskRegs_writeFilter _ hidx (maskOf_lt idx), if_pos hmask]
  exact mcp2515ReadNregs_writeNregs _ _ _ (by decide)

/-- A filter that is written without a mask, or uses the other one, leaves a mask as it was. -/
theorem maskRegs_writeToFilter_of_ne {idx other : ℕ} (hidx : idx < 6) (hother : other < numOfMasks)
    (canId : CanId) {mask : BitVec 32} (h : mask = 0 ∨ other ≠ maskOf idx) :
    maskRegs (writeToFilter regs idx canId mask) other = maskRegs regs other := by
  rw [writeToFilter, maskRegs_writeFilter _ hidx hother]
  split
  next hmask =>
    exact maskRegs_writeMask_of_ne regs (maskOf_lt idx) hother (h.resolve_left hmask) _
  · rfl

end Registers

end CamkesVm.Can
