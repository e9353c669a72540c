import Mathlib.Data.List.Basic

/-!
# Runs of labelled machines

A machine is a step function on explicit states. Total machines answer every label with an
output; partial machines may also refuse a label, which models a blocked thread or an
operation whose precondition does not hold. A run is the list of its labels, so it can be
evaluated, and every invariant rule below is an induction over that list.

The invariants may mention the outputs produced so far. Conditions on a run are stated step
by step, on the state in which the step is taken and on its label.
-/

namespace CamkesVm.Machine

variable {σ τ ℓ ω : Type*}

section Total

variable (step : σ → ℓ → ω × σ)

/-- Feed the labels to a total machine, collecting its outputs and its last state. -/
def exec : σ → List ℓ → List ω × σ
  | s, [] => ([], s)
  | s, a :: rest => ((step s a).1 :: (exec (step s a).2 rest).1, (exec (step s a).2 rest).2)

/-- The outputs of a run, one for each label. -/
def outputs (s : σ) (labels : List ℓ) : List ω := (exec step s labels).1

/-- The state in which a run ends. -/
def final (s : σ) (labels : List ℓ) : σ := (exec step s labels).2

/-- A run without labels has no outputs. -/
@[simp] theorem outputs_nil (s : σ) : outputs step s [] = [] := rfl

/-- The outputs of a run begin with that of its first step. -/
@[simp] theorem outputs_cons (s : σ) (a : ℓ) (rest : List ℓ) :
    outputs step s (a :: rest) = (step s a).1 :: outputs step (step s a).2 rest := rfl

/-- A run ends where the rest of it ends after the first step. -/
@[simp] theorem final_cons (s : σ) (a : ℓ) (rest : List ℓ) :
    final step s (a :: rest) = final step (step s a).2 rest := rfl

/-- A run over two lists of labels goes on where the first one ends. -/
theorem outputs_append (s : σ) (labels later : List ℓ) :
    outputs step s (labels ++ later) =
      outputs step s labels ++ outputs step (final step s labels) later := by
  induction labels generalizing s with
  | nil => rfl
  | cons a rest ih => simp [ih]

/-- A run over two lists of labels ends where the second one ends. -/
theorem final_append (s : σ) (labels later : List ℓ) :
    final step s (labels ++ later) = final step (final step s labels) later := by
  induction labels generalizing s with
  | nil => rfl
  | cons a rest ih => simp [ih]

variable {step}

/-- Two machines that answer alike in related states have the same outputs in every run. -/
theorem simulation {step' : τ → ℓ → ω × τ} {related : σ → τ → Prop}
    (hstep : ∀ s t a, related s t →
      (step s a).1 = (step' t a).1 ∧ related (step s a).2 (step' t a).2)
    (s : σ) (t : τ) (labels : List ℓ) (h : related s t) :
    outputs step s labels = outputs step' t labels ∧
      related (final step s labels) (final step' t labels) := by
  induction labels generalizing s t with
  | nil => exact ⟨rfl, h⟩
  | cons a rest ih =>
    obtain ⟨hout, hrel⟩ := hstep s t a h
    obtain ⟨houts, hfinal⟩ := ih _ _ hrel
    exact ⟨by rw [outputs_cons, outputs_cons, hout, houts], hfinal⟩

/-- The form of `simulation` for machines that answer alike only on the labels of the run. -/
theorem simulation_of_mem {step' : τ → ℓ → ω × τ} {related : σ → τ → Prop} {labels : List ℓ}
    (hstep : ∀ s t, ∀ a ∈ labels, related s t →
      (step s a).1 = (step' t a).1 ∧ related (step s a).2 (step' t a).2)
    {s : σ} {t : τ} (h : related s t) :
    outputs step s labels = outputs step' t labels ∧
      related (final step s labels) (final step' t labels) := by
  induction labels generalizing s t with
  | nil => exact ⟨rfl, h⟩
  | cons a rest ih =>
    obtain ⟨hout, hrel⟩ := hstep s t a List.mem_cons_self h
    obtain ⟨houts, hfinal⟩ := ih (fun s t b hb => hstep s t b (List.mem_cons_of_mem a hb)) hrel
    exact ⟨by rw [outputs_cons, outputs_cons, hout, houts], hfinal⟩

end Total

section Partial

variable (step : σ → ℓ → Option (ω × σ))

/-- Feed the labels to a partial machine; a refused label refuses the run. -/
def run : σ → List ℓ → Option (List ω × σ)
  | s, [] => some ([], s)
  | s, a :: rest => do
    let first ← step s a
    let later ← run first.2 rest
    some (first.1 :: later.1, later.2)

/-- Every step of the run is taken in a state in which `allowed` holds of its label. -/
def StepsMeet (allowed : σ → ℓ → Prop) : σ → List ℓ → Prop
  | _, [] => True
  | s, a :: rest => allowed s a ∧ ∀ o t, step s a = some (o, t) → StepsMeet allowed t rest

/-- Whether a run meets a decidable condition can be evaluated. -/
instance decidableStepsMeet (allowed : σ → ℓ → Prop) [∀ s a, Decidable (allowed s a)] :
    ∀ s labels, Decidable (StepsMeet step allowed s labels)
  | _, [] => isTrue trivial
  | s, a :: rest =>
    match h : step s a with
    | none => decidable_of_iff (allowed s a) (by simp [StepsMeet, h])
    | some (o, t) =>
      haveI := decidableStepsMeet allowed t rest
      decidable_of_iff (allowed s a ∧ StepsMeet step allowed t rest) (by simp [StepsMeet, h])

variable {step}

/-- A condition that the labels meet in every state is met by the run. -/
theorem stepsMeet_of_forall {allowed : σ → ℓ → Prop} {labels : List ℓ}
    (h : ∀ a ∈ labels, ∀ s, allowed s a) (s : σ) : StepsMeet step allowed s labels := by
  induction labels generalizing s with
  | nil => trivial
  | cons a rest ih =>
    rw [List.forall_mem_cons] at h
    exact ⟨h.1 s, fun _ t _ => ih h.2 t⟩

/-- A run that takes a first step consists of that step and a run of the rest. -/
theorem run_cons_eq_some {s : σ} {a : ℓ} {rest : List ℓ} {os : List ω} {t : σ} :
    run step s (a :: rest) = some (os, t) ↔
      ∃ o u os', step s a = some (o, u) ∧ run step u rest = some (os', t) ∧ os = o :: os' := by
  constructor
  · intro h
    obtain ⟨⟨o, u⟩, hfirst, h⟩ := Option.bind_eq_some_iff.mp h
    obtain ⟨⟨os', t'⟩, hlater, h⟩ := Option.bind_eq_some_iff.mp h
    simp only [Option.some.injEq, Prod.mk.injEq] at h
    obtain ⟨rfl, rfl⟩ := h
    exact ⟨o, u, os', hfirst, hlater, rfl⟩
  · rintro ⟨o, u, os', hfirst, hlater, rfl⟩
    simp [run, hfirst, hlater]

/-- A total machine that answers as a partial one does wherever that one takes a step has its outputs
in every run that the partial machine takes. -/
theorem run_simulation {step' : τ → ℓ → ω × τ} {related : σ → τ → Prop}
    (hstep : ∀ s t a o u, related s t → step s a = some (o, u) →
      (step' t a).1 = o ∧ related u (step' t a).2)
    {s : σ} {t : τ} {labels : List ℓ} {os : List ω} {u : σ} (h : related s t)
    (hrun : run step s labels = some (os, u)) :
    outputs step' t labels = os ∧ related u (final step' t labels) := by
  induction labels generalizing s t os with
  | nil =>
    obtain ⟨rfl, rfl⟩ : [] = os ∧ s = u := by simpa [run] using hrun
    exact ⟨rfl, h⟩
  | cons a rest ih =>
    obtain ⟨o, v, os', hfirst, hlater, rfl⟩ := run_cons_eq_some.mp hrun
    obtain ⟨hout, hrel⟩ := hstep s t a o v h hfirst
    obtain ⟨houts, hfinal⟩ := ih hrel hlater
    exact ⟨by rw [outputs_cons, hout, houts], hfinal⟩

/-- What every allowed step preserves, of the outputs so far and the state, holds after every
run of allowed steps. -/
theorem run_invariant {allowed : σ → ℓ → Prop} (inv : List ω → σ → Prop)
    (hstep : ∀ os s a o t, inv os s → allowed s a → step s a = some (o, t) → inv (os ++ [o]) t)
    (before : List ω) {s : σ} {labels : List ℓ} {os : List ω} {t : σ} (hs : inv before s)
    (hallowed : StepsMeet step allowed s labels) (hrun : run step s labels = some (os, t)) :
    inv (before ++ os) t := by
  induction labels generalizing before s os with
  | nil =>
    obtain ⟨rfl, rfl⟩ : [] = os ∧ s = t := by simpa [run] using hrun
    simpa using hs
  | cons a rest ih =>
    obtain ⟨o, u, os', hfirst, hlater, rfl⟩ := run_cons_eq_some.mp hrun
    obtain ⟨hfirstAllowed, hrest⟩ := hallowed
    have hu := hstep before s a o u hs hfirstAllowed hfirst
    simpa using ih _ hu (hrest o u hfirst) hlater

/-- The state-only form of `run_invariant`. -/
theorem run_state_invariant {allowed : σ → ℓ → Prop} (inv : σ → Prop)
    (hstep : ∀ s a o t, inv s → allowed s a → step s a = some (o, t) → inv t)
    {s : σ} {labels : List ℓ} {os : List ω} {t : σ} (hs : inv s)
    (hallowed : StepsMeet step allowed s labels) (hrun : run step s labels = some (os, t)) :
    inv t :=
  run_invariant (fun _ s => inv s) (fun _ => hstep) [] hs hallowed hrun

end Partial

end CamkesVm.Machine
