import Mathlib.Data.Option.Basic
import CamkesVm.Machine.Memory

/-!
# Filling buffers field by field

A program that assembles a record in a buffer assigns its fields one after the other, each
assignment checked against the arrays it touches. It is a list of partial steps on the buffer, and
what is asked about the whole follows from the single steps: whether all of them stay inside, which
entries they leave, and which entries of the result depend on what the buffer held before.

For the last question two runs from different contents are compared. They agree on the indices
that have been assigned so far; a copy of the same entries adds its range, and a read inside the
known indices gives the same entries in both.
-/

namespace CamkesVm.Machine

variable {α β γ : Type*} {m n : ℕ}

/-- A computation succeeds if its first part does and the rest does for every result. -/
theorem isSome_bind_of {x : Option β} {rest : β → Option γ} (hx : x.isSome = true)
    (hrest : ∀ a, (rest a).isSome = true) : (x.bind rest).isSome = true := by
  obtain ⟨a, rfl⟩ := Option.isSome_iff_exists.mp hx
  exact hrest a

/-- A list of computations succeeds if each of them does. -/
theorem isSome_mapM_of {f : β → Option γ} {xs : List β} (h : ∀ x ∈ xs, (f x).isSome = true) :
    (xs.mapM f).isSome = true := by
  induction xs with
  | nil => rfl
  | cons x xs ih =>
    rw [List.forall_mem_cons] at h
    rw [List.mapM_cons]
    exact isSome_bind_of h.1 fun _ => isSome_bind_of (ih h.2) fun _ => rfl

/-- Read `count` entries from `off` on, inside the array. -/
def slice (src : Fin n → α) (off count : ℕ) : Option (Fin count → α) :=
  if h : off + count ≤ n then some fun i => src ⟨off + i, by omega⟩ else none

/-- A read inside the array succeeds. -/
theorem isSome_slice (src : Fin n → α) {off count : ℕ} (h : off + count ≤ n) :
    (slice src off count).isSome = true := by
  rw [slice, dif_pos h]
  rfl

/-- A read that succeeds stays inside the array. -/
theorem slice_bounds {src : Fin n → α} {off count : ℕ} {vals : Fin count → α}
    (h : slice src off count = some vals) : off + count ≤ n := by
  by_contra hlong
  rw [slice, dif_neg hlong] at h
  exact absurd h (by simp)

/-- A copy inside its arrays succeeds. -/
theorem isSome_copy {dst : Fin m → α} {src : Fin n → α} {dstOff srcOff count : ℕ}
    (hdst : dstOff + count ≤ m) (hsrc : srcOff + count ≤ n) :
    (copy dst dstOff src srcOff count).isSome = true := by
  rw [copy_eq_some dst src hdst hsrc]
  rfl

/-- A copy that succeeds stays inside both arrays. -/
theorem copy_bounds {dst r : Fin m → α} {src : Fin n → α} {dstOff srcOff count : ℕ}
    (h : copy dst dstOff src srcOff count = some r) : dstOff + count ≤ m ∧ srcOff + count ≤ n := by
  by_contra hlong
  rw [copy, dif_neg hlong] at h
  exact absurd h (by simp)

/-- A copy leaves the entries outside its range. -/
theorem copy_outside {dst r : Fin m → α} {src : Fin n → α} {dstOff srcOff count : ℕ}
    (h : copy dst dstOff src srcOff count = some r) (i : Fin m)
    (hi : ¬ (dstOff ≤ i.val ∧ i.val < dstOff + count)) : r i = dst i := by
  obtain ⟨hdst, hsrc⟩ := copy_bounds h
  rw [copy_eq_some dst src hdst hsrc] at h
  obtain rfl := Option.some.inj h
  exact dif_neg hi

/-- Run the steps of a filling program one after the other. -/
def fill : List ((Fin m → α) → Option (Fin m → α)) → (Fin m → α) → Option (Fin m → α)
  | [], b => some b
  | step :: steps, b => (step b).bind (fill steps)

variable {step : (Fin m → α) → Option (Fin m → α)} {steps : List ((Fin m → α) → Option (Fin m → α))}

/-- A program whose steps all succeed succeeds. -/
theorem isSome_fill (h : ∀ step ∈ steps, ∀ b, (step b).isSome = true) (b : Fin m → α) :
    (fill steps b).isSome = true := by
  induction steps generalizing b with
  | nil => rfl
  | cons step steps ih =>
    rw [List.forall_mem_cons] at h
    exact isSome_bind_of (h.1 b) (ih h.2)

/-- A program that succeeds has taken all its steps. -/
theorem step_of_fill {b r : Fin m → α} (h : fill steps b = some r) (hmem : step ∈ steps) :
    ∃ before after, step before = some after := by
  induction steps generalizing b with
  | nil => exact absurd hmem List.not_mem_nil
  | cons first steps ih =>
    obtain ⟨u, hfirst, hrest⟩ := Option.bind_eq_some_iff.mp h
    obtain rfl | hlater := List.mem_cons.mp hmem
    · exact ⟨b, u, hfirst⟩
    · exact ih hrest hlater

/-- The two arrays agree on the known indices. -/
def AgreeOn (known : ℕ → Prop) (b b' : Fin m → α) : Prop := ∀ i : Fin m, known i → b i = b' i

/-- Arrays that agree on the first indices agree on the second ones after the step. -/
def Spreads (known known' : ℕ → Prop) (step : (Fin m → α) → Option (Fin m → α)) : Prop :=
  ∀ b b', AgreeOn known b b' → Option.Rel (AgreeOn known') (step b) (step b')

variable {known known' known'' : ℕ → Prop}

/-- The first step makes known what the rest needs. -/
theorem Spreads.bind {rest : (Fin m → α) → Option (Fin m → α)} (hstep : Spreads known known' step)
    (hrest : Spreads known' known'' rest) : Spreads known known'' fun b => (step b).bind rest := by
  intro b b' h
  have hrel := hstep b b' h
  dsimp only
  generalize step b = r at hrel
  generalize step b' = r' at hrel
  cases hrel with
  | none => exact .none
  | some hr => exact hrest _ _ hr

/-- A program without steps makes nothing known. -/
theorem Spreads.fill_nil : Spreads known known (fill ([] : List ((Fin m → α) → Option (Fin m → α)))) :=
  fun _ _ h => .some h

/-- A program makes known what its first step does and the others add. -/
theorem Spreads.fill_cons (known' : ℕ → Prop) (hstep : Spreads known known' step)
    (hsteps : Spreads known' known'' (fill steps)) : Spreads known known'' (fill (step :: steps)) :=
  hstep.bind hsteps

/-- Copying entries on which the sources agree makes their range known. -/
theorem AgreeOn.copy {dst dst' : Fin m → α} {src src' : Fin n → α}
    {dstOff srcOff count : ℕ} (h : AgreeOn known dst dst')
    (hsrc : AgreeOn (fun i => srcOff ≤ i ∧ i < srcOff + count) src src')
    (hknown : ∀ i, known' i → known i ∨ dstOff ≤ i ∧ i < dstOff + count) :
    Option.Rel (AgreeOn known') (copy dst dstOff src srcOff count)
      (copy dst' dstOff src' srcOff count) := by
  by_cases hbounds : dstOff + count ≤ m ∧ srcOff + count ≤ n
  · rw [copy_eq_some dst src hbounds.1 hbounds.2, copy_eq_some dst' src' hbounds.1 hbounds.2]
    refine .some fun i hi => ?_
    split
    next hrange => exact hsrc _ ⟨Nat.le_add_right _ _, by dsimp only; omega⟩
    next hrange => exact h i ((hknown i hi).resolve_right hrange)
  · rw [Machine.copy, Machine.copy, dif_neg hbounds, dif_neg hbounds]
    exact .none

/-- A read inside the known indices gives the same entries. -/
theorem AgreeOn.slice {b b' : Fin m → α} (h : AgreeOn known b b') {off count : ℕ}
    (hknown : ∀ i, off ≤ i ∧ i < off + count → known i) :
    slice b off count = slice b' off count := by
  unfold Machine.slice
  split
  · congr 1
    funext i
    exact h _ (hknown _ ⟨Nat.le_add_right _ _, by dsimp only; omega⟩)
  · rfl

/-- Copying from the outside makes the assigned range known. -/
theorem Spreads.copy {src : Fin n → α} {dstOff srcOff count : ℕ}
    (hknown : ∀ i, known' i → known i ∨ dstOff ≤ i ∧ i < dstOff + count) :
    Spreads known known' fun b : Fin m → α => copy b dstOff src srcOff count :=
  fun _ _ h => h.copy (fun _ _ => rfl) hknown

/-- Copying known entries inside the buffer makes the assigned range known. -/
theorem Spreads.copy_self {dstOff srcOff count : ℕ}
    (hsrc : ∀ i, srcOff ≤ i ∧ i < srcOff + count → known i)
    (hknown : ∀ i, known' i → known i ∨ dstOff ≤ i ∧ i < dstOff + count) :
    Spreads known known' fun b : Fin m → α => Machine.copy b dstOff b srcOff count :=
  fun _ _ h => h.copy (fun i hi => h i (hsrc i hi)) hknown

/-- Assigning what is computed from known entries makes the assigned range known. -/
theorem Spreads.copy_slice {dstOff srcOff count taken : ℕ} (compute : (Fin count → α) → Fin taken → α)
    (hsrc : ∀ i, srcOff ≤ i ∧ i < srcOff + count → known i)
    (hknown : ∀ i, known' i → known i ∨ dstOff ≤ i ∧ i < dstOff + taken) :
    Spreads known known' fun b : Fin m → α => (Machine.slice b srcOff count).bind fun vals =>
      Machine.copy b dstOff (compute vals) 0 taken := by
  intro b b' h
  dsimp only
  rw [h.slice hsrc]
  cases Machine.slice b' srcOff count with
  | none => exact .none
  | some vals => exact h.copy (fun _ _ => rfl) hknown

end CamkesVm.Machine
