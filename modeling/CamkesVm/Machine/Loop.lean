import Mathlib.Data.Nat.Init

/-!
# Loops

The body of an unbounded loop either goes on with a new state or leaves the loop with a result. Running
it takes fuel, one unit for each iteration, so that the loop ends when some amount of fuel gives a result
and never ends when no amount does.

A counted loop that looks for an index and breaks at it needs no fuel. What its caller can tell from the
index afterwards is whether the loop was left early.
-/

namespace CamkesVm.Machine

section Unbounded

variable {σ ρ : Type*} {body : σ → σ ⊕ ρ}

/-- Run at most `fuel` iterations of a loop. -/
def loop (body : σ → σ ⊕ ρ) : ℕ → σ → Option ρ
  | 0, _ => none
  | fuel + 1, s =>
    match body s with
    | .inl next => loop body fuel next
    | .inr result => some result

/-- A body that leaves the loop at once gives its result. -/
theorem loop_of_leaves {s : σ} {result : ρ} (h : body s = .inr result) (fuel : ℕ) :
    loop body (fuel + 1) s = some result := by
  rw [loop, h]

/-- A loop whose body goes on from every state of an invariant, and keeps it, never ends. -/
theorem loop_eq_none_of_invariant {inv : σ → Prop}
    (hstep : ∀ s, inv s → ∃ next, body s = .inl next ∧ inv next) (fuel : ℕ) (s : σ) (hs : inv s) :
    loop body fuel s = none := by
  induction fuel generalizing s with
  | zero => rfl
  | succ fuel ih =>
    obtain ⟨next, hbody, hnext⟩ := hstep s hs
    rw [loop, hbody]
    exact ih next hnext

end Unbounded

section Counted

/-- The index at which a loop over `count` indices from `i` on is left: the first one at which it breaks,
or the bound of the loop. -/
def breakIndex (stop : ℕ → Bool) : ℕ → ℕ → ℕ
  | i, 0 => i
  | i, count + 1 => if stop i then i else breakIndex stop (i + 1) count

variable {stop : ℕ → Bool}

/-- The loop runs to its bound exactly when it breaks at no index. -/
theorem breakIndex_eq_bound_iff (i count : ℕ) :
    breakIndex stop i count = i + count ↔ ∀ j, i ≤ j → j < i + count → stop j = false := by
  induction count generalizing i with
  | zero =>
    constructor
    · intro _ j hle hlt
      omega
    · intro _
      rfl
  | succ count ih =>
    rw [breakIndex]
    cases hstop : stop i with
    | true =>
      rw [if_pos rfl]
      constructor
      · intro hi
        omega
      · intro hall
        have hi := hall i (Nat.le_refl i) (by omega)
        rw [hstop] at hi
        cases hi
    | false =>
      rw [if_neg (by decide), show i + (count + 1) = i + 1 + count by omega, ih (i + 1)]
      constructor
      · intro hall j hle hlt
        obtain heq | hgt := Nat.eq_or_lt_of_le hle
        · rw [← heq, hstop]
        · exact hall j hgt hlt
      · intro hall j hle hlt
        exact hall j (by omega) hlt

end Counted

end CamkesVm.Machine
