import Mathlib.Data.Finset.Max
import CamkesVm.Machine.Loop

/-!
# The scan of the I2C bus

On start-up `pwm__init` asks the bus for the responding slaves, one address at a time, until the address
of the PWM controller turns up or no slave is left. Every call of `i2c_scan` starts at the same address,
so a slave with a lower address than the controller is reported again and again.
-/

namespace CamkesVm.Pwm

open CamkesVm.Machine

/-- The constant `I2C_PWM_ADDR`. -/
def i2cPwmAddr : ℕ := 0x8E

/-- What `i2c_scan` finds with room for one address: the smallest responding address from `start` on. -/
def i2cScan (responding : Finset ℕ) (start : ℕ) : Option ℕ :=
  if h : (responding.filter (start ≤ ·)).Nonempty then
    some ((responding.filter (start ≤ ·)).min' h)
  else none

/-- The variables of the scan that live across its iterations. -/
structure ScanState where
  start : ℕ
  found : Bool
  deriving DecidableEq

/-- The variables before the loop. -/
def scanInit : ScanState := { start := 0, found := false }

/-- An iteration of the loop: `break` and the failing loop condition leave it. -/
def scanBody (responding : Finset ℕ) (s : ScanState) : ScanState ⊕ ScanState :=
  match i2cScan responding s.start with
  | some addr => if addr = i2cPwmAddr then .inr { s with found := true } else .inl s
  | none => .inr s

section

variable {responding : Finset ℕ}

/-- The scan reports nothing exactly when no slave responds from the start address on. -/
theorem i2cScan_eq_none_iff {start : ℕ} :
    i2cScan responding start = none ↔ ∀ a ∈ responding, a < start := by
  unfold i2cScan
  split
  · next h =>
    obtain ⟨a, ha⟩ := h
    obtain ⟨hmem, hle⟩ := Finset.mem_filter.mp ha
    constructor
    · intro hnone
      cases hnone
    · intro hall
      exact absurd (hall a hmem) (Nat.not_lt.mpr hle)
  · next h =>
    rw [Finset.not_nonempty_iff_eq_empty, Finset.filter_eq_empty_iff] at h
    constructor
    · intro _ a ha
      exact Nat.not_le.mp (h ha)
    · intro _
      rfl

/-- The scan reports the least of the responding addresses from the start address on. -/
theorem i2cScan_eq_some_iff {start addr : ℕ} :
    i2cScan responding start = some addr ↔
      addr ∈ responding ∧ start ≤ addr ∧ ∀ a ∈ responding, start ≤ a → addr ≤ a := by
  have hmin : ∀ h, (responding.filter (start ≤ ·)).min' h = addr ↔
      addr ∈ responding ∧ start ≤ addr ∧ ∀ a ∈ responding, start ≤ a → addr ≤ a := by
    intro h
    rw [Finset.min'_eq_iff, Finset.mem_filter, and_assoc]
    simp only [Finset.mem_filter, and_imp]
  unfold i2cScan
  split
  · next h => rw [Option.some_inj, hmin h]
  · next h =>
    rw [Finset.not_nonempty_iff_eq_empty, Finset.filter_eq_empty_iff] at h
    constructor
    · intro hnone
      cases hnone
    · intro hleast
      exact absurd hleast.2.1 (h hleast.1)

/-- Once the scan meets a slave other than the controller, the loop stays in its state. -/
theorem scanBody_of_other {s : ScanState} {addr : ℕ} (hscan : i2cScan responding s.start = some addr)
    (hne : addr ≠ i2cPwmAddr) : scanBody responding s = .inl s := by
  simp only [scanBody, hscan]
  rw [if_neg hne]

/-- So the loop never ends. -/
theorem loop_scanBody_of_other {s : ScanState} {addr : ℕ}
    (hscan : i2cScan responding s.start = some addr) (hne : addr ≠ i2cPwmAddr) (fuel : ℕ) :
    loop (scanBody responding) fuel s = none := by
  have hstays : ∀ t, t = s → ∃ next, scanBody responding t = .inl next ∧ next = s := by
    intro t ht
    exact ⟨s, by rw [ht, scanBody_of_other hscan hne], rfl⟩
  exact loop_eq_none_of_invariant hstays fuel s rfl

end

/-- The scan ends, and says whether the controller is there, exactly when no slave responds or the
controller is there and has the least address. -/
theorem scan_ends_iff (responding : Finset ℕ) :
    (∃ fuel s, loop (scanBody responding) fuel scanInit = some s ∧
        (s.found = true ↔ i2cPwmAddr ∈ responding)) ↔
      responding = ∅ ∨ (i2cPwmAddr ∈ responding ∧ ∀ a ∈ responding, i2cPwmAddr ≤ a) := by
  cases hscan : i2cScan responding scanInit.start with
  | none =>
    have hempty : responding = ∅ := by
      rw [Finset.eq_empty_iff_forall_notMem]
      intro a ha
      exact Nat.not_lt_zero a (i2cScan_eq_none_iff.mp hscan a ha)
    have hbody : scanBody responding scanInit = .inr scanInit := by
      simp only [scanBody, hscan]
    constructor
    · intro _
      exact .inl hempty
    · intro _
      refine ⟨1, scanInit, loop_of_leaves hbody 0, ?_⟩
      rw [hempty]
      simp [scanInit]
  | some addr =>
    obtain ⟨hmem, _, hleast⟩ := i2cScan_eq_some_iff.mp hscan
    by_cases haddr : addr = i2cPwmAddr
    · subst haddr
      have hbody : scanBody responding scanInit = .inr { scanInit with found := true } := by
        simp only [scanBody, hscan]
        rfl
      constructor
      · intro _
        exact .inr ⟨hmem, fun a ha => hleast a ha (Nat.zero_le a)⟩
      · intro _
        exact ⟨1, _, loop_of_leaves hbody 0, iff_of_true rfl hmem⟩
    · constructor
      · intro ⟨fuel, s, hloop, _⟩
        rw [loop_scanBody_of_other hscan haddr] at hloop
        cases hloop
      · rintro (hempty | ⟨hpwm, hall⟩)
        · rw [hempty] at hmem
          exact absurd hmem (Finset.notMem_empty addr)
        · exact absurd (Nat.le_antisymm (hleast _ hpwm (Nat.zero_le _)) (hall addr hmem)) haddr

/-- A slave with a lower address than the controller keeps the scan from ending. -/
theorem scan_lower_slave :
    ¬ ∃ fuel s, loop (scanBody {0x40, i2cPwmAddr}) fuel scanInit = some s ∧
        (s.found = true ↔ i2cPwmAddr ∈ ({0x40, i2cPwmAddr} : Finset ℕ)) := by
  intro ⟨fuel, s, hloop, _⟩
  have hscan : i2cScan {0x40, i2cPwmAddr} scanInit.start = some 0x40 := by decide
  rw [loop_scanBody_of_other hscan (by decide)] at hloop
  cases hloop

end CamkesVm.Pwm
