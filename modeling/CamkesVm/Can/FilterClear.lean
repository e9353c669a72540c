import CamkesVm.Can.FilterEffects
import CamkesVm.Machine.Loop

/-!
# Clearing a filter

`clear_rx_filter` clears the registers of a filter and then looks through the filters of its bank for one
in use. The index at which that loop was left tells whether the mask of the bank is cleared too: it is
compared with the bound of the loop, which depends on the bank.

The loop is modelled here with its index. It decides as the model of the filter table does, so the effect
on the registers follows from the writes.
-/

namespace CamkesVm.Can

open CamkesVm.Machine

/-- The index at which the loop of `clear_rx_filter` is left. -/
def clearExitIndex (regs : Regs) (maskIdx : ℕ) : ℕ :=
  breakIndex (fun i => !isFilterEmpty regs i) (maskIdx * filtsOfMask0)
    (maskIdx * filtsOfMask1 + filtsOfMask0 - maskIdx * filtsOfMask0)

/-- The function `clear_rx_filter` with the index of its loop. -/
def clearRxFilterLoop (regs : Regs) (idx : ℕ) : Regs :=
  let regs := mcp2515WriteNregs regs (rxfsidh idx) (fun _ : Fin filterBytes => 0)
  let maskIdx := if idx < filtsOfMask0 then 0 else 1
  let i := clearExitIndex regs maskIdx
  if (maskIdx = 0 ∧ i = filtsOfMask0) ∨ (maskIdx = 1 ∧ i = filtsOfMask1 + filtsOfMask0) then
    mcp2515WriteNregs regs (rxmsidh maskIdx) (fun _ : Fin filterBytes => 0)
  else regs

/-- What clearing a filter does to the registers: those of the filter are zero, those of its mask are
zero if all filters of the bank are and as before otherwise, and no other register has changed. The bank
of a filter is the first two filters or the other four. -/
structure ClearsFilter (regs regs' : Regs) (idx : ℕ) : Prop where
  filter : filterRegs regs' idx = fun _ => 0
  mask_zero : (∀ j < 6, (j < 2 ↔ idx < 2) → filterRegs regs' j = fun _ => 0) →
    maskRegs regs' (maskOf idx) = fun _ => 0
  mask_kept : ¬ (∀ j < 6, (j < 2 ↔ idx < 2) → filterRegs regs' j = fun _ => 0) →
    maskRegs regs' (maskOf idx) = maskRegs regs (maskOf idx)
  otherFilters : ∀ j < 6, j ≠ idx → filterRegs regs' j = filterRegs regs j
  otherMask : ∀ i < numOfMasks, i ≠ maskOf idx → maskRegs regs' i = maskRegs regs i
  elsewhere : ∀ a, ¬ InBlock (rxfsidh idx) a → ¬ InBlock (rxmsidh (maskOf idx)) a → regs' a = regs a

section Clear

variable {idx : ℕ}

/-- The filters of a mask are the indices of the loop. -/
theorem mem_filtersOf_iff {mask j : ℕ} :
    j ∈ filtersOf mask ↔ mask * filtsOfMask0 ≤ j ∧
      j < mask * filtsOfMask0 + (mask * filtsOfMask1 + filtsOfMask0 - mask * filtsOfMask0) := by
  rw [filtersOf, List.mem_range'_1]

/-- The loop runs to its bound exactly when all filters of the mask are empty. -/
theorem clearExitIndex_iff (regs : Regs) (mask : ℕ) :
    clearExitIndex regs mask =
        mask * filtsOfMask0 + (mask * filtsOfMask1 + filtsOfMask0 - mask * filtsOfMask0) ↔
      (filtersOf mask).all (isFilterEmpty regs) = true := by
  rw [clearExitIndex, breakIndex_eq_bound_iff, List.all_eq_true]
  constructor
  · intro h j hj
    obtain ⟨hle, hlt⟩ := mem_filtersOf_iff.mp hj
    simpa using h j hle hlt
  · intro h j hle hlt
    simpa using h j (mem_filtersOf_iff.mpr ⟨hle, hlt⟩)

/-- The comparison of the exit index decides as the model of the filter table does. -/
theorem clearRxFilterLoop_eq (regs : Regs) (idx : ℕ) :
    clearRxFilterLoop regs idx = clearRxFilter regs idx := by
  unfold clearRxFilterLoop clearRxFilter
  dsimp only
  generalize mcp2515WriteNregs regs (rxfsidh idx) (fun _ : Fin filterBytes => 0) = cleared
  rw [show (if idx < filtsOfMask0 then 0 else 1) = maskOf idx from rfl]
  have hexit := clearExitIndex_iff cleared (maskOf idx)
  have hcond : ((maskOf idx = 0 ∧ clearExitIndex cleared (maskOf idx) = filtsOfMask0) ∨
      (maskOf idx = 1 ∧ clearExitIndex cleared (maskOf idx) = filtsOfMask1 + filtsOfMask0)) ↔
        (filtersOf (maskOf idx)).all (isFilterEmpty cleared) = true := by
    rw [← hexit]
    have hmask : maskOf idx = 0 ∨ maskOf idx = 1 := by
      have hlt : maskOf idx < 2 := maskOf_lt idx
      omega
    obtain hmask | hmask := hmask
    · simp [hmask]
    · simp [hmask, Nat.add_comm filtsOfMask1]
  by_cases hall : (filtersOf (maskOf idx)).all (isFilterEmpty cleared) = true
  · rw [if_pos (hcond.mpr hall), if_pos hall]
  · rw [if_neg (mt hcond.mp hall), if_neg hall]

/-- The filters after the first write are also those at the end. -/
theorem filterRegs_clearRxFilter (regs : Regs) (idx : ℕ) {j : ℕ} (hj : j < 6) :
    filterRegs (clearRxFilter regs idx) j =
      filterRegs (mcp2515WriteNregs regs (rxfsidh idx) (fun _ : Fin filterBytes => 0)) j := by
  unfold clearRxFilter
  dsimp only
  split
  · exact filterRegs_writeMask _ hj (maskOf_lt idx) _
  · rfl

/-- The filters of the bank, by the order of the filters. -/
theorem mem_bank_iff {j : ℕ} (hidx : idx < 6) :
    j ∈ filtersOf (maskOf idx) ↔ j < 6 ∧ (j < 2 ↔ idx < 2) := by
  rw [mem_filtersOf_iff]
  unfold maskOf
  split
  · next h =>
    change 0 ≤ j ∧ j < 2 ↔ _
    change idx < 2 at h
    omega
  · next h =>
    change 2 ≤ j ∧ j < 6 ↔ _
    change ¬ idx < 2 at h
    omega

/-- The mask is cleared exactly when the bank is empty at the end. -/
theorem all_isFilterEmpty_iff (regs : Regs) (hidx : idx < 6) :
    (filtersOf (maskOf idx)).all
        (isFilterEmpty (mcp2515WriteNregs regs (rxfsidh idx) (fun _ : Fin filterBytes => 0))) = true ↔
      ∀ j < 6, (j < 2 ↔ idx < 2) → filterRegs (clearRxFilter regs idx) j = fun _ => 0 := by
  rw [List.all_eq_true]
  constructor
  · intro h j hj hbank
    rw [filterRegs_clearRxFilter regs idx hj]
    exact (isFilterEmpty_iff _ j).mp (h j ((mem_bank_iff hidx).mpr ⟨hj, hbank⟩))
  · intro h j hmem
    obtain ⟨hj, hbank⟩ := (mem_bank_iff hidx).mp hmem
    rw [isFilterEmpty_iff, ← filterRegs_clearRxFilter regs idx hj]
    exact h j hj hbank

end Clear

/-- Clearing a filter clears what it should: its registers, the mask of its bank if that is empty now,
and nothing else. -/
theorem clearRxFilter_clears (regs : Regs) (idx : ℕ) (hidx : idx < 6) :
    ClearsFilter regs (clearRxFilterLoop regs idx) idx := by
  rw [clearRxFilterLoop_eq]
  have hall := all_isFilterEmpty_iff regs hidx
  constructor
  · rw [filterRegs_clearRxFilter regs idx hidx]
    exact mcp2515ReadNregs_writeNregs _ _ _ (by decide)
  · intro hempty
    unfold clearRxFilter
    dsimp only
    rw [if_pos (hall.mpr hempty)]
    exact mcp2515ReadNregs_writeNregs _ _ _ (by decide)
  · intro hused
    unfold clearRxFilter
    dsimp only
    rw [if_neg (mt hall.mp hused)]
    exact maskRegs_writeFilter regs hidx (maskOf_lt idx) _
  · intro j hj hne
    rw [filterRegs_clearRxFilter regs idx hj]
    exact filterRegs_writeFilter_of_ne regs hidx hj hne _
  · intro i hi hne
    have hkept := maskRegs_writeFilter regs hidx hi (fun _ => 0)
    unfold clearRxFilter
    dsimp only
    split
    · rw [maskRegs_writeMask_of_ne _ (maskOf_lt idx) hi hne, hkept]
    · exact hkept
  · intro a hfilter hmask
    exact clearRxFilter_outside hfilter hmask

/-- With a second filter in use in the bank, the mask stays. -/
theorem clearRxFilter_clears_second :
    ClearsFilter (fun _ => 0xFF) (clearRxFilterLoop (fun _ => 0xFF) 4) 4 :=
  clearRxFilter_clears (fun _ => 0xFF) 4 (by decide)

end CamkesVm.Can
