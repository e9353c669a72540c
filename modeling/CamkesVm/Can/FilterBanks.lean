import CamkesVm.Can.FilterTable

/-!
# Empty masks and unused banks

The driver takes a mask whose registers are zero for a bank none of whose filters is in use. That
a mask is zero exactly when all filters of its bank are has to be restored by every operation.

Three operations may fail to. Disabling the filtering clears the masks and leaves the filters. An
identifier whose registers are all zero sets a mask and no filter. And clearing the last filter of
the second bank leaves the mask, because filter 3 overlaps CANCTRL and does not look empty in
configuration mode, unless filter 3 is the one that is cleared.
-/

namespace CamkesVm.Can

open CamkesVm.Machine

/-- All registers of all filters of a bank are zero. -/
def BankUnused (regs : Regs) (i : ℕ) : Prop := ∀ j ∈ filtersOf i, filterRegs regs j = fun _ => 0

/-- The mask of a bank is zero exactly when the bank is unused. -/
def MaskTellsUse (regs : Regs) (i : ℕ) : Prop := maskRegs regs i = (fun _ => 0) ↔ BankUnused regs i

/-- When an operation keeps masks and filters in step. -/
def KeepsBanks (s : FilterState) : FilterOp → Prop
  | .canSetFilter id _ => id.regs ≠ fun _ => 0
  | .canClearFilter filterId =>
    maskOf filterId = 1 → filterId.val ≠ 3 → maskRegs s.regs 1 = (fun _ => 0) ∨
      ∃ j ∈ filtersOf 1, j ≠ filterId ∧ filterRegs s.regs j ≠ fun _ => 0
  | .canDisableFiltering => ∀ j < 6, filterRegs s.regs j = fun _ => 0

/-- The invariant of the registers between two operations. -/
structure BanksInv (regs : Regs) : Prop where
  tells : ∀ i < numOfMasks, MaskTellsUse regs i
  three : filterRegs regs 3 = fun _ => 0

/-- The registers of filter 3 after a mode change, given what they were. -/
def modeImage (mode : OpMode) (buf : Bytes filterBytes) : Bytes filterBytes := fun i =>
  if rxfsidh 3 + BitVec.ofNat 8 i = canctrl then
    (buf i &&& ~~~canctrlReqopMask) ||| (mode.value <<< canctrlReqopShf &&& canctrlReqopMask)
  else buf i

section Registers

variable {regs regs' : Regs}

/-- A mode change shows in filter 3. -/
theorem filterRegs_setMode_three (regs : Regs) (mode : OpMode) :
    filterRegs (setMode regs mode) 3 = modeImage mode (filterRegs regs 3) := by
  funext i
  simp only [filterRegs, mcp2515ReadNregs, modeImage, setMode, mcp2515BitModify,
    Function.update_apply]
  split
  next h => rw [h]
  · rfl

/-- A filter that an operation in configuration mode leaves is back in normal mode. -/
theorem filterRegs_of_config (hthree : filterRegs regs 3 = fun _ => 0) {k : ℕ} (hk : k < 6)
    (hsame : filterRegs regs' k = filterRegs (setMode regs .config) k) :
    filterRegs (setMode regs' .normal) k = filterRegs regs k := by
  by_cases hk3 : k = 3
  · subst hk3
    rw [filterRegs_setMode_three, hsame, filterRegs_setMode_three, hthree]
    decide
  · rw [filterRegs_setMode _ hk hk3, hsame, filterRegs_setMode _ hk hk3]

/-- An image of a mask that fits its kind is zero only for the mask zero. -/
theorem maskImage_ne_zero {exide : BitVec 1} {mask : BitVec 32} (hmask : mask ≠ 0)
    (hfits : mask.toNat < if exide = 0 then 2 ^ 11 else 2 ^ 29) :
    maskImage exide mask ≠ fun _ => 0 := by
  intro hzero
  apply hmask
  apply BitVec.eq_of_toNat_eq
  have heid : mask.toNat &&& 262143 = mask.toNat % 262144 := Nat.and_two_pow_sub_one_eq_mod _ 18
  have hbyte : ∀ value : ℕ, value &&& 255 = value % 256 := fun value =>
    Nat.and_two_pow_sub_one_eq_mod value 8
  have h0 := congrArg BitVec.toNat (congrFun hzero 0)
  have h1 := congrFun hzero 1
  have h2 := congrArg BitVec.toNat (congrFun hzero 2)
  have h3 := congrArg BitVec.toNat (congrFun hzero 3)
  change mask.toNat = 0
  obtain rfl | rfl := flag_eq_zero_or_one exide
  · simp [maskImage, idRegs, splitId, BitVec.toNat_eq, Nat.shiftRight_eq_div_pow, Nat.shiftLeft_eq]
      at h0 h1
    simp at hfits
    omega
  · simp [maskImage, idRegs, splitId, BitVec.setWidth_or, BitVec.toNat_eq,
      Nat.shiftRight_eq_div_pow, Nat.shiftLeft_eq, heid, hbyte] at h0 h1 h2 h3
    simp at hfits
    omega

/-- The mask that is read back from zero registers is zero. -/
theorem maskRegs_ne_zero_of_curMask {exide : BitVec 1} {i : ℕ}
    (h : curMask exide (maskRegs regs i) ≠ 0) : maskRegs regs i ≠ fun _ => 0 := by
  intro hzero
  have hread : ∀ exide : BitVec 1, curMask exide (fun _ => 0) = 0 := by decide
  exact h (hzero ▸ hread exide)

/-- A bank with a filter and a mask in use is in step. -/
theorem maskTellsUse_of_used {i j : ℕ} (hj : j ∈ filtersOf i) (hfilter : filterRegs regs j ≠ fun _ => 0)
    (hmask : maskRegs regs i ≠ fun _ => 0) : MaskTellsUse regs i :=
  iff_of_false hmask fun hunused => hfilter (hunused j hj)

/-- A bank stays in step when its registers stay as they were. -/
theorem MaskTellsUse.of_eq {i : ℕ} (h : MaskTellsUse regs i)
    (hmask : maskRegs regs' i = maskRegs regs i)
    (hfilters : ∀ j ∈ filtersOf i, filterRegs regs' j = filterRegs regs j) : MaskTellsUse regs' i := by
  unfold MaskTellsUse BankUnused at *
  rw [hmask, h]
  exact forall₂_congr fun j hj => by rw [hfilters j hj]

end Registers

section Steps

variable {regs regs' : Regs}

/-- An operation in configuration mode that leaves the filters and the masks. -/
theorem BanksInv.of_config (h : BanksInv regs)
    (hfilters : ∀ k < 6, filterRegs regs' k = filterRegs (setMode regs .config) k)
    (hmasks : ∀ i < numOfMasks, maskRegs regs' i = maskRegs regs i) :
    BanksInv (setMode regs' .normal) := by
  have hback : ∀ k < 6, filterRegs (setMode regs' .normal) k = filterRegs regs k := fun k hk =>
    filterRegs_of_config h.three hk (hfilters k hk)
  refine ⟨fun i hi => ?_, (hback 3 (by decide)).trans h.three⟩
  exact (h.tells i hi).of_eq ((maskRegs_setMode _ hi _).trans (hmasks i hi)) fun k hk =>
    hback k (mem_filtersOf hi hk).2

/-- An operation on one filter and the mask of its bank leaves the other bank. -/
theorem BanksInv.of_bank (h : BanksInv regs) {j : ℕ}
    (hfilters : ∀ k < 6, k ≠ j → filterRegs (setMode regs' .normal) k = filterRegs regs k)
    (hthree : filterRegs (setMode regs' .normal) 3 = fun _ => 0)
    (hmasks : ∀ i < numOfMasks, i ≠ maskOf j → maskRegs regs' i = maskRegs regs i)
    (hown : MaskTellsUse (setMode regs' .normal) (maskOf j)) : BanksInv (setMode regs' .normal) := by
  refine ⟨fun i hi => ?_, hthree⟩
  by_cases hbank : i = maskOf j
  · exact hbank ▸ hown
  · refine (h.tells i hi).of_eq ((maskRegs_setMode _ hi _).trans (hmasks i hi hbank)) ?_
    intro k hk
    obtain ⟨hki, hk6⟩ := mem_filtersOf hi hk
    have hne : k ≠ j := by
      rintro rfl
      exact hbank hki.symm
    exact hfilters k hk6 hne

/-- Setting a filter keeps the banks in step, unless its registers are zero. -/
theorem BanksInv.canSetFilter (h : BanksInv regs) {id : CanId} {mask : BitVec 32}
    (hid : id.regs ≠ fun _ => 0) (hvalid : (FilterOp.canSetFilter id mask).Valid) :
    BanksInv (canSetFilter regs id mask).2 := by
  have hplaced {j : ℕ} {written : BitVec 32} (hj : j < 6) (hj3 : j ≠ 3)
      (hown : maskRegs (writeToFilter (setMode regs .config) j id written) (maskOf j) ≠ fun _ => 0)
      (hmasks : ∀ i < numOfMasks, i ≠ maskOf j →
        maskRegs (writeToFilter (setMode regs .config) j id written) i = maskRegs regs i) :
      BanksInv (setMode (writeToFilter (setMode regs .config) j id written) .normal) := by
    have hothers : ∀ k < 6, k ≠ j → filterRegs
        (setMode (writeToFilter (setMode regs .config) j id written) .normal) k = filterRegs regs k :=
      fun k hk hne => filterRegs_of_config h.three hk
        (filterRegs_writeToFilter_of_ne _ hj hk hne id written)
    refine h.of_bank hothers ((hothers 3 (by decide) (Ne.symm hj3)).trans h.three) hmasks ?_
    refine maskTellsUse_of_used (mem_filtersOf_maskOf hj) ?_ ?_
    · rw [filterRegs_setMode _ hj hj3, filterRegs_writeToFilter_self]
      exact hid
    · rwa [maskRegs_setMode _ (maskOf_lt j)]
  dsimp only [Can.canSetFilter]
  obtain hfail | ⟨i, hi, j, hj, hplace⟩ := setRxFilter_cases (setMode regs .config) id mask
  · rw [hfail]
    exact h.of_config (fun _ _ => rfl) fun i hi => maskRegs_setMode _ hi _
  · obtain ⟨rfl, hj6⟩ := mem_filtersOf hi hj
    obtain ⟨hset, hfirst, _⟩ | ⟨hset, hsame, hempty⟩ := hplace
    · have hj3 : j ≠ 3 := by
        rintro rfl
        exact absurd hfirst (by decide)
      rw [hset]
      refine hplaced hj6 hj3 ?_ fun i hi hbank => ?_
      · rw [maskRegs_writeToFilter_self _ hj6 id hvalid.1]
        exact maskImage_ne_zero hvalid.1 hvalid.2
      · rw [maskRegs_writeToFilter_of_ne _ hj6 hi id (Or.inr hbank), maskRegs_setMode _ hi]
    · have hj3 : j ≠ 3 := by
        rintro rfl
        rw [isFilterEmpty_config_three] at hempty
        exact Bool.false_ne_true hempty
      rw [hset]
      refine hplaced hj6 hj3 ?_ fun i hi _ => ?_
      · rw [maskRegs_writeToFilter_of_ne _ hj6 hi id (Or.inl rfl)]
        exact maskRegs_ne_zero_of_curMask (hsame.trans_ne hvalid.1)
      · rw [maskRegs_writeToFilter_of_ne _ hj6 hi id (Or.inl rfl), maskRegs_setMode _ hi]

/-- The registers in configuration mode with one filter cleared. -/
def filterCleared (regs : Regs) (j : ℕ) : Regs :=
  mcp2515WriteNregs (setMode regs .config) (rxfsidh j) (fun _ : Fin filterBytes => 0)

/-- The filters after one of them has been cleared. -/
theorem filterRegs_cleared (h : BanksInv regs) {j k : ℕ} (hj : j < 6) (hk : k < 6)
    (hregs : ∀ m < 6, filterRegs regs' m = filterRegs (filterCleared regs j) m) :
    filterRegs (setMode regs' .normal) k = if k = j then fun _ => 0 else filterRegs regs k := by
  split
  next hsame =>
    subst hsame
    have hzero : filterRegs regs' k = fun _ => 0 :=
      (hregs k hk).trans (mcp2515ReadNregs_writeNregs _ _ _ (by decide))
    by_cases hk3 : k = 3
    · subst hk3
      rw [filterRegs_setMode_three, hzero]
      decide
    · rw [filterRegs_setMode _ hk hk3, hzero]
  next hne =>
    exact filterRegs_of_config h.three hk
      ((hregs k hk).trans (filterRegs_writeFilter_of_ne _ hj hk hne _))

/-- Clearing a filter leaves the masks. -/
theorem maskRegs_cleared {i j : ℕ} (hj : j < 6) (hi : i < numOfMasks) :
    maskRegs (filterCleared regs j) i = maskRegs regs i :=
  (maskRegs_writeFilter _ hj hi _).trans (maskRegs_setMode _ hi _)

/-- What the test for empty filters says about another filter than 3. -/
theorem isFilterEmpty_cleared {j k : ℕ} (hj : j < 6) (hk : k < 6) (hne : k ≠ j) (hk3 : k ≠ 3) :
    isFilterEmpty (filterCleared regs j) k = true ↔ filterRegs regs k = fun _ => 0 := by
  rw [isFilterEmpty_iff, filterCleared, filterRegs_writeFilter_of_ne _ hj hk hne,
    filterRegs_setMode _ hk hk3]

/-- Clearing a filter touches its own bank only. -/
theorem BanksInv.of_cleared (h : BanksInv regs) {j : ℕ}
    (hfilters : ∀ k < 6, filterRegs (setMode regs' .normal) k =
      if k = j then fun _ => 0 else filterRegs regs k)
    (hmasks : ∀ i < numOfMasks, i ≠ maskOf j → maskRegs regs' i = maskRegs regs i)
    (hown : MaskTellsUse (setMode regs' .normal) (maskOf j)) : BanksInv (setMode regs' .normal) := by
  refine h.of_bank (fun k hk hne => ?_) ?_ hmasks hown
  · rw [hfilters k hk, if_neg hne]
  · rw [hfilters 3 (by decide), h.three]
    split <;> rfl

/-- A clear tests the bank of the filter behind it, and clears the mask if all filters look empty. -/
theorem canClearFilter_eq (regs : Regs) (j : ℕ) :
    canClearFilter regs j =
      setMode (if (filtersOf (maskOf j)).all (isFilterEmpty (filterCleared regs j)) then
        mcp2515WriteNregs (filterCleared regs j) (rxmsidh (maskOf j)) (fun _ : Fin filterBytes => 0)
        else filterCleared regs j) .normal := rfl

/-- In the second bank the test fails on filter 3, whose registers hold the mode, so that the mask is
never cleared with another filter. -/
theorem maskRegs_canClearFilter (regs : Regs) {j : ℕ} (hj : j < 6) (hbank : maskOf j = 1)
    (hj3 : j ≠ 3) : maskRegs (canClearFilter regs j) 1 = maskRegs regs 1 := by
  have hthree : isFilterEmpty (filterCleared regs j) 3 = false := by
    rw [← isFilterEmpty_config_three regs, Bool.eq_iff_iff, isFilterEmpty_iff, isFilterEmpty_iff,
      filterCleared, filterRegs_writeFilter_of_ne _ hj (by decide) (Ne.symm hj3)]
  have hsome : ¬ (filtersOf (maskOf j)).all (isFilterEmpty (filterCleared regs j)) = true := by
    intro hall
    rw [hbank] at hall
    exact Bool.false_ne_true (hthree.symm.trans (List.all_eq_true.mp hall 3 (by decide)))
  rw [canClearFilter_eq, if_neg hsome, maskRegs_setMode _ (by decide), maskRegs_cleared hj (by decide)]

/-- When all filters of the bank look empty, they are, and the mask is cleared with them. -/
theorem BanksInv.of_mask_cleared (h : BanksInv regs) {j : ℕ} (hj : j < 6)
    (hall : (filtersOf (maskOf j)).all (isFilterEmpty (filterCleared regs j)) = true) :
    BanksInv (setMode (mcp2515WriteNregs (filterCleared regs j) (rxmsidh (maskOf j))
      (fun _ : Fin filterBytes => 0)) .normal) := by
  have hmask := maskOf_lt j
  have hfilters := fun k hk => filterRegs_cleared (k := k) h hj hk fun m hm =>
    filterRegs_writeMask (filterCleared regs j) hm hmask (fun _ => 0)
  refine h.of_cleared hfilters (fun i hi hbank => ?_) (iff_of_true ?_ fun k hk => ?_)
  · rw [maskRegs_writeMask_of_ne _ hmask hi hbank, maskRegs_cleared hj hi]
  · rw [maskRegs_setMode _ hmask]
    exact mcp2515ReadNregs_writeNregs _ _ _ (by decide)
  · have hk6 := (mem_filtersOf hmask hk).2
    rw [hfilters k hk6]
    split
    · rfl
    next hne =>
      by_cases hk3 : k = 3
      · exact hk3 ▸ h.three
      · exact (isFilterEmpty_cleared hj hk6 hne hk3).mp (List.all_eq_true.mp hall k hk)

/-- When a filter of the bank looks full, the mask stays. The bank is in use, unless the filter is
filter 3, which tells nothing about it. -/
theorem BanksInv.of_mask_kept (h : BanksInv regs) {j : ℕ} (hj : j < 6)
    (hlast : maskOf j = 1 → j ≠ 3 → maskRegs regs 1 = (fun _ => 0) ∨
      ∃ k ∈ filtersOf 1, k ≠ j ∧ filterRegs regs k ≠ fun _ => 0)
    (hsome : ¬ (filtersOf (maskOf j)).all (isFilterEmpty (filterCleared regs j)) = true) :
    BanksInv (setMode (filterCleared regs j) .normal) := by
  have hmask := maskOf_lt j
  have hfilters := fun k hk => filterRegs_cleared (k := k) h hj hk fun _ _ => rfl
  refine h.of_cleared hfilters (fun i hi _ => maskRegs_cleared hj hi) ?_
  have hused {k : ℕ} (hk : k ∈ filtersOf (maskOf j)) (hne : k ≠ j)
      (hfilter : filterRegs regs k ≠ fun _ => 0) :
      MaskTellsUse (setMode (filterCleared regs j) .normal) (maskOf j) := by
    refine maskTellsUse_of_used hk ?_ ?_
    · rwa [hfilters k (mem_filtersOf hmask hk).2, if_neg hne]
    · rw [maskRegs_setMode _ hmask, maskRegs_cleared hj hmask]
      exact fun hzero => hfilter ((h.tells _ hmask).mp hzero k hk)
  obtain ⟨k, hk, hfull⟩ : ∃ k ∈ filtersOf (maskOf j), ¬ isFilterEmpty (filterCleared regs j) k := by
    simpa using hsome
  obtain ⟨hkbank, hk6⟩ := mem_filtersOf hmask hk
  have hne : k ≠ j := by
    rintro rfl
    exact hfull ((isFilterEmpty_iff _ _).mpr (mcp2515ReadNregs_writeNregs _ _ _ (by decide)))
  by_cases hk3 : k = 3
  · subst hk3
    have hbank : maskOf j = 1 := hkbank.symm
    obtain hzero | ⟨m, hm, hother, hfilter⟩ := hlast hbank hne.symm
    · rw [hbank] at hmask ⊢
      have hunused := (h.tells 1 hmask).mp hzero
      refine iff_of_true ?_ fun m hm => ?_
      · rw [maskRegs_setMode _ hmask, maskRegs_cleared hj hmask, hzero]
      · rw [hfilters m (mem_filtersOf hmask hm).2, hunused m hm]
        split <;> rfl
    · exact hused (hbank ▸ hm) hother hfilter
  · exact hused hk hne fun hzero => hfull ((isFilterEmpty_cleared hj hk6 hne hk3).mpr hzero)

/-- Clearing a filter keeps the banks in step, unless it is the last one of the second bank. -/
theorem BanksInv.canClearFilter (h : BanksInv regs) {j : Fin 6}
    (hlast : maskOf j = 1 → j.val ≠ 3 → maskRegs regs 1 = (fun _ => 0) ∨
      ∃ k ∈ filtersOf 1, k ≠ j ∧ filterRegs regs k ≠ fun _ => 0) :
    BanksInv (canClearFilter regs j) := by
  rw [canClearFilter_eq]
  split
  next hall => exact h.of_mask_cleared j.isLt hall
  next hsome => exact h.of_mask_kept j.isLt hlast hsome

/-- Disabling the filtering keeps the banks in step when no filter is in use. -/
theorem BanksInv.canDisableFiltering (h : BanksInv regs)
    (hunused : ∀ k < 6, filterRegs regs k = fun _ => 0) : BanksInv (canDisableFiltering regs) := by
  have hlayout : ∀ k < 6, ∀ i : Fin filterBytes,
      filterBytes * 2 ≤ (rxfsidh k + BitVec.ofNat 8 i - rxmsidh 0).toNat := by decide
  have hmask : ∀ i < numOfMasks, ∀ m : Fin filterBytes,
      (rxmsidh i + BitVec.ofNat 8 m - rxmsidh 0).toNat < filterBytes * 2 := by decide
  have hboth : clearFilterMask (setMode regs .config) 2 = mcp2515WriteNregs (setMode regs .config)
      (rxmsidh 0) (fun _ : Fin (filterBytes * 2) => 0) := if_pos (by decide)
  rw [Can.canDisableFiltering, hboth]
  have hfilters : ∀ k < 6, filterRegs (setMode (mcp2515WriteNregs (setMode regs .config)
      (rxmsidh 0) (fun _ : Fin (filterBytes * 2) => 0)) .normal) k = fun _ => 0 := by
    intro k hk
    rw [← hunused k hk]
    exact filterRegs_of_config h.three hk
      (mcp2515ReadNregs_writeNregs_of_disjoint _ _ _ _ (hlayout k hk))
  refine ⟨fun i hi => iff_of_true ?_ fun k hk => hfilters k (mem_filtersOf hi hk).2,
    hfilters 3 (by decide)⟩
  rw [maskRegs_setMode _ hi]
  funext m
  exact dif_pos (hmask i hi m)

/-- Every valid operation that keeps masks and filters in step keeps the invariant. -/
theorem filterStep_banksInv {s t : FilterState} {op : FilterOp} {ret : Option ℤ}
    (h : BanksInv s.regs) (hvalid : op.Valid) (hkeeps : KeepsBanks s op)
    (hstep : filterStep s op = some (ret, t)) : BanksInv t.regs := by
  cases op with
  | canSetFilter id mask =>
    obtain ⟨_, rfl⟩ := Prod.mk.inj (Option.some.inj hstep)
    exact h.canSetFilter hkeeps hvalid
  | canClearFilter filterId =>
    obtain ⟨_, rfl⟩ := Prod.mk.inj (Option.some.inj hstep)
    exact h.canClearFilter hkeeps
  | canDisableFiltering =>
    obtain ⟨_, rfl⟩ := Prod.mk.inj (Option.some.inj hstep)
    exact h.canDisableFiltering hkeeps

end Steps

/-- From zero registers, after every sequence of valid operations that all keep masks and filters
in step, a mask is zero exactly when its bank is unused. -/
theorem mask_zero_iff_bank_unused {regs : Regs} {ops : List FilterOp} {rets : List (Option ℤ)}
    {reached : FilterState} (hfilters : ∀ j < 6, filterRegs regs j = fun _ => 0)
    (hmasks : ∀ i < numOfMasks, maskRegs regs i = fun _ => 0)
    (hops : StepsMeet filterStep (fun s op => op.Valid ∧ KeepsBanks s op) ⟨regs, fun _ => none⟩ ops)
    (hrun : run filterStep ⟨regs, fun _ => none⟩ ops = some (rets, reached)) :
    ∀ i < numOfMasks, maskRegs reached.regs i = (fun _ => 0) ↔
      ∀ j ∈ filtersOf i, filterRegs reached.regs j = fun _ => 0 := by
  have hstart : BanksInv regs :=
    ⟨fun i hi => iff_of_true (hmasks i hi) fun j hj => hfilters j (mem_filtersOf hi hj).2,
      hfilters 3 (by decide)⟩
  have hreached : BanksInv reached.regs := run_state_invariant (fun s => BanksInv s.regs)
    (fun _ _ _ _ h hop hstep => filterStep_banksInv h hop.1 hop.2 hstep) hstart hops hrun
  exact hreached.tells

/-- A filter that is set and cleared again leaves its bank unused. -/
theorem setClear_bank_unused :
    ∃ rets reached,
      run filterStep ⟨fun _ => 0, fun _ => none⟩ [.canSetFilter (stdId 1) 0x7FF, .canClearFilter 0] =
        some (rets, reached) ∧
      (maskRegs reached.regs 0 = (fun _ => 0) ↔
        ∀ j ∈ filtersOf 0, filterRegs reached.regs j = fun _ => 0) := by
  have hfilters : ∀ j < 6, filterRegs (fun _ => 0) j = fun _ => 0 := by decide
  have hmasks : ∀ i < numOfMasks, maskRegs (fun _ => 0) i = fun _ => 0 := by decide
  have hops : StepsMeet filterStep (fun s op => op.Valid ∧ KeepsBanks s op)
      ⟨fun _ => 0, fun _ => none⟩ [.canSetFilter (stdId 1) 0x7FF, .canClearFilter 0] := by
    refine ⟨⟨⟨by decide, by decide⟩, (by decide : (stdId 1).regs ≠ fun _ => 0)⟩, fun _ _ _ => ?_⟩
    exact ⟨⟨trivial, fun h => absurd h (by decide)⟩, fun _ _ _ => trivial⟩
  exact ⟨[some 0, none], _, rfl, mask_zero_iff_bank_unused hfilters hmasks hops rfl 0 (by decide)⟩

/-- A filter is set, then the filtering is disabled: the mask is zero and the filter is not. -/
theorem setDisable_bank_used :
    ∃ rets reached,
      run filterStep ⟨fun _ => 0, fun _ => none⟩ [.canSetFilter (stdId 1) 0x7FF, .canDisableFiltering] =
        some (rets, reached) ∧
      (FilterOp.canSetFilter (stdId 1) 0x7FF).Valid ∧
      maskRegs reached.regs 0 = (fun _ => 0) ∧
      ¬ ∀ j ∈ filtersOf 0, filterRegs reached.regs j = fun _ => 0 := by
  exact ⟨[some 0, none], _, rfl, ⟨by decide, by decide⟩, by decide, by decide⟩

end CamkesVm.Can
