import CamkesVm.Can.BitTiming
import CamkesVm.Can.FilterTable

/-!
# The effect of a filter operation

Which registers a filter operation writes, and which filters it hands out. Setting a filter writes the
four registers of one filter and at most the four of its mask, or nothing at all.

The registers of filter 3 are by the header also CANSTAT and CANCTRL. Clearing that filter clears the
operation mode with it. No other operation writes there: in configuration mode filter 3 never looks
empty, so it is never handed out, and no mask has more than five filters to give.
-/

namespace CamkesVm.Can

open CamkesVm.Machine

/-- The address is among the registers of a filter or a mask that start at `reg`. -/
def InBlock (reg a : Byte) : Prop := (a - reg).toNat < filterBytes

instance (reg a : Byte) : Decidable (InBlock reg a) := inferInstanceAs (Decidable (_ < _))

/-- The driver reads the mask of a bank as empty. -/
def MaskReadsEmpty (regs : Regs) (exide : BitVec 1) (i : ℕ) : Prop :=
  curMask exide (maskRegs regs i) = 0 ∧ curEid (maskRegs regs i) = 0

/-- A set of filter `j` writes the mask of its bank: the filter is the first one of the bank, a mask is
requested, and that of the bank was read as empty. -/
def WritesMask (regs : Regs) (canId : CanId) (mask : BitVec 32) (j : ℕ) : Prop :=
  j = maskOf j * filtsOfMask0 ∧ mask ≠ 0 ∧ MaskReadsEmpty regs canId.exide (maskOf j)

/-- What a successful set leaves in the registers: its filter holds the identifier, its mask is the
requested one where the set writes it and as before where it does not, and nothing else has changed. -/
structure SetsFilter (regs regs' : Regs) (canId : CanId) (mask : BitVec 32) (j : ℕ) : Prop where
  filter : filterRegs regs' j = canId.regs
  bankSet : WritesMask regs canId mask j → maskRegs regs' (maskOf j) = maskImage canId.exide mask
  bankKept : ¬ WritesMask regs canId mask j → maskRegs regs' (maskOf j) = maskRegs regs (maskOf j)
  otherBank : ∀ i < numOfMasks, i ≠ maskOf j → maskRegs regs' i = maskRegs regs i
  otherFilters : ∀ k < 6, k ≠ j → filterRegs regs' k = filterRegs regs k
  elsewhere : ∀ a, ¬ InBlock (rxfsidh j) a → ¬ InBlock (rxmsidh (maskOf j)) a → regs' a = regs a

section Writes

variable {regs : Regs} {a : Byte}

/-- Writing a series leaves the registers outside it. -/
theorem mcp2515WriteNregs_outside {reg : Byte} (buf : Bytes filterBytes) (h : ¬ InBlock reg a) :
    mcp2515WriteNregs regs reg buf a = regs a :=
  dif_neg h

/-- Writing a filter leaves the registers outside the filter and outside the mask that is set. -/
theorem writeToFilter_outside {idx : ℕ} (canId : CanId) {mask : BitVec 32}
    (hfilter : ¬ InBlock (rxfsidh idx) a) (hmask : mask = 0 ∨ ¬ InBlock (rxmsidh (maskOf idx)) a) :
    writeToFilter regs idx canId mask a = regs a := by
  rw [writeToFilter, mcp2515WriteNregs_outside _ hfilter]
  split
  next hset => exact mcp2515WriteNregs_outside _ (hmask.resolve_left hset)
  · rfl

/-- Clearing a filter leaves the registers outside the filter and outside its mask. -/
theorem clearRxFilter_outside {idx : ℕ} (hfilter : ¬ InBlock (rxfsidh idx) a)
    (hmask : ¬ InBlock (rxmsidh (maskOf idx)) a) : clearRxFilter regs idx a = regs a := by
  unfold clearRxFilter
  split
  · rw [mcp2515WriteNregs_outside _ hmask, mcp2515WriteNregs_outside _ hfilter]
  · exact mcp2515WriteNregs_outside _ hfilter

/-- Writing a filter without its mask, which was read as the requested one. -/
theorem SetsFilter.of_filter {j : ℕ} (hj : j < 6) (canId : CanId) {mask : BitVec 32}
    (hsame : curMask canId.exide (maskRegs regs (maskOf j)) = mask) :
    SetsFilter regs (writeToFilter regs j canId 0) canId mask j where
  filter := filterRegs_writeToFilter_self regs j canId 0
  bankSet hwrites := by
    obtain ⟨-, hmask, hempty, -⟩ := hwrites
    exact absurd (hsame.symm.trans hempty) hmask
  bankKept _ := maskRegs_writeToFilter_of_ne regs hj (maskOf_lt j) canId (Or.inl rfl)
  otherBank _ hi _ := maskRegs_writeToFilter_of_ne regs hj hi canId (Or.inl rfl)
  otherFilters _ hk hne := filterRegs_writeToFilter_of_ne regs hj hk hne canId 0
  elsewhere _ hfilter _ := writeToFilter_outside canId hfilter (Or.inl rfl)

/-- Writing the first filter of a bank whose mask was read as empty. -/
theorem SetsFilter.of_first {j : ℕ} (hj : j < 6) (hfirst : j = maskOf j * filtsOfMask0) (canId : CanId)
    (mask : BitVec 32) (hempty : MaskReadsEmpty regs canId.exide (maskOf j)) :
    SetsFilter regs (writeToFilter regs j canId mask) canId mask j where
  filter := filterRegs_writeToFilter_self regs j canId mask
  bankSet hwrites := maskRegs_writeToFilter_self regs hj canId hwrites.2.1
  bankKept hkept := by
    have hmask : mask = 0 := by
      by_contra hmask
      exact hkept ⟨hfirst, hmask, hempty⟩
    exact maskRegs_writeToFilter_of_ne regs hj (maskOf_lt j) canId (Or.inl hmask)
  otherBank _ hi hne := maskRegs_writeToFilter_of_ne regs hj hi canId (Or.inr hne)
  otherFilters _ hk hne := filterRegs_writeToFilter_of_ne regs hj hk hne canId mask
  elsewhere _ hfilter hmask := writeToFilter_outside canId hfilter (Or.inr hmask)

end Writes

/-- Setting a filter is atomic and local: it fails and changes no register, or it returns an index and
changes the registers of that filter, and those of its mask to the requested one exactly if it is the
first of a bank whose mask was read as empty and a mask is requested. -/
theorem setRxFilter_atomic (regs : Regs) (canId : CanId) (mask : BitVec 32) :
    setRxFilter regs canId mask = (-1, regs) ∨
      ∃ j < 6, (setRxFilter regs canId mask).1 = (j : ℕ) ∧
        SetsFilter regs (setRxFilter regs canId mask).2 canId mask j := by
  obtain hfail | ⟨i, hi, j, hj, hplace⟩ := setRxFilter_cases regs canId mask
  · exact Or.inl hfail
  · obtain ⟨rfl, hj6⟩ := mem_filtersOf hi hj
    refine Or.inr ⟨j, hj6, ?_⟩
    obtain ⟨hset, hfirst, hempty⟩ | ⟨hset, hsame, -⟩ := hplace
    · rw [hset]
      exact ⟨rfl, .of_first hj6 hfirst canId mask hempty⟩
    · rw [hset]
      exact ⟨rfl, .of_filter hj6 canId hsame⟩

/-- In configuration mode filter 3 is never handed out. -/
theorem setRxFilter_config_ne_three (regs : Regs) (canId : CanId) (mask : BitVec 32) :
    (setRxFilter (setMode regs .config) canId mask).1 ≠ 3 := by
  obtain hfail | ⟨i, hi, j, hj, hplace⟩ := setRxFilter_cases (setMode regs .config) canId mask
  · rw [hfail]
    exact (by decide : (-1 : ℤ) ≠ 3)
  · have hj3 : (j : ℤ) ≠ 3 := by
      intro h
      obtain rfl : j = 3 := by exact_mod_cast h
      obtain ⟨-, hfirst, -⟩ | ⟨-, -, hempty⟩ := hplace
      · change 3 = i * 2 at hfirst
        omega
      · rw [isFilterEmpty_config_three] at hempty
        exact Bool.false_ne_true hempty
    obtain ⟨hset, -⟩ | ⟨hset, -⟩ := hplace
    · rw [hset]
      exact hj3
    · rw [hset]
      exact hj3

/-- The control registers: state, control, interrupts, error flags and bit timing. -/
def controlRegs : List Byte := [canstat, canctrl, caninte, canintf, eflg, cnf1, cnf2, cnf3]

/-- The part of an operation between its two mode changes. -/
def filterPart (regs : Regs) : FilterOp → Regs
  | .canSetFilter id mask => (setRxFilter regs id mask).2
  | .canClearFilter filterId => clearRxFilter regs filterId
  | .canDisableFiltering => clearFilterMask regs 2

/-- That part of the operation leaves the control registers. -/
def KeepsControl (regs : Regs) (op : FilterOp) : Prop :=
  ∀ a ∈ controlRegs, filterPart (setMode regs .config) op a = setMode regs .config a

/-- No control register is among those of a mask, or of a filter other than filter 3. -/
theorem controlRegs_layout : ∀ a ∈ controlRegs,
    (∀ i < numOfMasks, ¬ InBlock (rxmsidh i) a) ∧ ∀ j < 6, j ≠ 3 → ¬ InBlock (rxfsidh j) a := by
  decide

section Control

variable (regs : Regs)

/-- Setting a filter leaves the control registers, since it does not set filter 3. -/
theorem keepsControl_canSetFilter (id : CanId) (mask : BitVec 32) :
    KeepsControl regs (.canSetFilter id mask) := by
  intro a ha
  obtain ⟨hmasks, hfilters⟩ := controlRegs_layout a ha
  have hne := setRxFilter_config_ne_three regs id mask
  obtain hfail | ⟨j, hj, hret, hset⟩ := setRxFilter_atomic (setMode regs .config) id mask
  · rw [filterPart, hfail]
  · have hj3 : j ≠ 3 := by
      rintro rfl
      exact hne hret
    exact hset.elsewhere a (hfilters j hj hj3) (hmasks _ (maskOf_lt j))

/-- Clearing a filter other than filter 3 leaves the control registers. -/
theorem keepsControl_canClearFilter {filterId : Fin 6} (hne : filterId.val ≠ 3) :
    KeepsControl regs (.canClearFilter filterId) := by
  intro a ha
  obtain ⟨hmasks, hfilters⟩ := controlRegs_layout a ha
  exact clearRxFilter_outside (hfilters filterId filterId.isLt hne) (hmasks _ (maskOf_lt _))

/-- Clearing both masks leaves the control registers. -/
theorem keepsControl_canDisableFiltering : KeepsControl regs .canDisableFiltering := by
  have hlayout : ∀ a ∈ controlRegs, ¬ (a - rxmsidh 0).toNat < filterBytes * 2 := by decide
  intro a ha
  exact dif_neg (hlayout a ha)

/-- In configuration mode CANCTRL is not zero. -/
theorem setMode_config_canctrl : setMode regs .config canctrl ≠ 0 := by
  have hmode : ∀ old : Byte, (old &&& ~~~canctrlReqopMask) |||
      (OpMode.config.value <<< canctrlReqopShf &&& canctrlReqopMask) ≠ 0 := by decide
  rw [setMode, mcp2515BitModify, Function.update_self]
  exact hmode _

/-- Clearing filter 3 clears CANCTRL. -/
theorem clearRxFilter_three_canctrl : clearRxFilter regs 3 canctrl = 0 := by
  have hfilter : mcp2515WriteNregs regs (rxfsidh 3) (fun _ : Fin filterBytes => 0) canctrl = 0 := rfl
  unfold clearRxFilter
  split
  · rw [mcp2515WriteNregs_outside _ (by decide), hfilter]
  · exact hfilter

/-- An operation leaves the control registers unless it clears filter 3. -/
theorem keepsControl_iff (op : FilterOp) : KeepsControl regs op ↔ op ≠ .canClearFilter 3 := by
  constructor
  · rintro hkeeps rfl
    have hctrl : clearRxFilter (setMode regs .config) 3 canctrl = setMode regs .config canctrl :=
      hkeeps canctrl (by decide)
    rw [clearRxFilter_three_canctrl] at hctrl
    exact setMode_config_canctrl regs hctrl.symm
  · intro hne
    cases op with
    | canSetFilter id mask => exact keepsControl_canSetFilter regs id mask
    | canClearFilter filterId =>
      refine keepsControl_canClearFilter regs fun h3 => hne ?_
      rw [show filterId = 3 from Fin.ext h3]
    | canDisableFiltering => exact keepsControl_canDisableFiltering regs

end Control

/-- In a sequence of filter operations, from any registers, every operation leaves the control registers
between its mode changes exactly when filter 3 is never cleared. -/
theorem filterParts_keep_control_iff (s : FilterState) (ops : List FilterOp) :
    StepsMeet filterStep (fun s op => KeepsControl s.regs op) s ops ↔ .canClearFilter 3 ∉ ops := by
  induction ops generalizing s with
  | nil => simp [StepsMeet]
  | cons op ops ih =>
    have hstep : ∃ ret t, filterStep s op = some (ret, t) := by
      cases op <;> exact ⟨_, _, rfl⟩
    obtain ⟨ret, t, hstep⟩ := hstep
    rw [StepsMeet, keepsControl_iff, List.mem_cons, not_or]
    refine and_congr ne_comm ⟨fun h => (ih t).mp (h ret t hstep), fun h ret' t' hstep' => ?_⟩
    obtain ⟨-, rfl⟩ := Prod.mk.inj (Option.some.inj (hstep.symm.trans hstep'))
    exact (ih t).mpr h

/-- Clearing filter 3 in configuration mode changes the requested mode from configuration to normal
before the driver does. -/
theorem clearThree_changes_mode :
    setMode (fun _ => 0) .config canctrl = 0x80 ∧
      filterPart (setMode (fun _ => 0) .config) (.canClearFilter 3) canctrl = 0 ∧
      ¬ StepsMeet filterStep (fun s op => KeepsControl s.regs op) ⟨fun _ => 0, fun _ => none⟩
        [.canClearFilter 3] := by
  refine ⟨by decide, by decide, fun h => ?_⟩
  exact absurd (h.1 canctrl (by decide)) (by decide)

/-- The results of setting filters one after the other under one mask. -/
def setFilters (mask : BitVec 32) : Regs → List CanId → List ℤ
  | _, [] => []
  | regs, id :: ids =>
    (canSetFilter regs id mask).1 :: setFilters mask (canSetFilter regs id mask).2 ids

/-- No filter is ever set at index 3. -/
theorem three_notMem_setFilters (mask : BitVec 32) (regs : Regs) (ids : List CanId) :
    3 ∉ setFilters mask regs ids := by
  induction ids generalizing regs with
  | nil => exact List.not_mem_nil
  | cons id ids ih =>
    rw [setFilters, List.mem_cons, not_or]
    exact ⟨(setRxFilter_config_ne_three regs id mask).symm, ih _⟩

/-- From any registers, for any mask and any seven identifiers, the results are not the six indices in
order and then a failure. -/
theorem setFilters_never_six (regs : Regs) (mask : BitVec 32) (ids : Fin 7 → CanId) :
    setFilters mask regs (List.ofFn ids) ≠ [0, 1, 2, 3, 4, 5, -1] := by
  intro hsix
  have hthree := three_notMem_setFilters mask regs (List.ofFn ids)
  rw [hsix] at hthree
  exact hthree (by decide)

/-- Seven standard identifiers. Under a mask of eight bits five are set and index 3 is left out; the full
mask of eleven bits does not read back as itself, and only the first filter of each bank is set. -/
theorem setFilters_standard :
    setFilters 0x0FF (fun _ => 0) (List.ofFn fun i : Fin 7 => stdId (BitVec.ofNat 29 (i + 1))) =
        [0, 1, 2, 4, 5, -1, -1] ∧
      setFilters 0x7FF (fun _ => 0) (List.ofFn fun i : Fin 7 => stdId (BitVec.ofNat 29 (i + 1))) =
        [0, 2, -1, -1, -1, -1, -1] := by
  decide +kernel

end CamkesVm.Can
