import Mathlib.Data.List.Basic

/-!
# Loops that use up a buffer

A loop takes pieces of a fixed length off the front of a buffer, as long as enough is left and a
condition on its state holds. Code that works through a buffer byte by byte, word by word and block by
block is a row of such loops. Its invariant relates the state to the part of the buffer that is done:
when each body extends that part by its piece, so does the whole row, and the loops differ only in why
they end.
-/

namespace CamkesVm.Machine

variable {α σ : Type*}

/-- Take pieces of `n` items while enough is left and `more` holds of the state. -/
def drain (n : ℕ) (more : σ → Bool) (body : σ → List α → σ) (s : σ) (data : List α) : σ × List α :=
  if 0 < n ∧ n ≤ data.length ∧ more s then drain n more body (body s (data.take n)) (data.drop n)
  else (s, data)
  termination_by data.length
  decreasing_by
    rw [List.length_drop]
    omega

variable {n : ℕ} {more : σ → Bool} {body : σ → List α → σ}

/-- One round of the loop. -/
theorem drain_of_more (hn : 0 < n) {s : σ} {data : List α} (hdata : n ≤ data.length)
    (hmore : more s = true) :
    drain n more body s data = drain n more body (body s (data.take n)) (data.drop n) := by
  rw [drain, if_pos ⟨hn, hdata, hmore⟩]

/-- The loop ends. -/
theorem drain_of_not_more {s : σ} {data : List α} (h : ¬ (n ≤ data.length ∧ more s = true)) :
    drain n more body s data = (s, data) := by
  rw [drain, if_neg fun hcond => h hcond.2]

/-- An invariant of the state and the part that is done, which each body extends by its piece, holds
when the loop ends. -/
theorem drain_invariant (inv : List α → σ → Prop) (hn : 0 < n)
    (hbody : ∀ done s piece, inv done s → more s = true → piece.length = n →
      inv (done ++ piece) (body s piece))
    {done : List α} {s : σ} (hs : inv done s) (data : List α) :
    let r := drain n more body s data
    ∃ done', done' ++ r.2 = done ++ data ∧ inv done' r.1 ∧ (r.2.length < n ∨ more r.1 = false) := by
  induction hlen : data.length using Nat.strongRecOn generalizing done s data with
  | ind len ih =>
    by_cases hcond : n ≤ data.length ∧ more s = true
    · obtain ⟨hdata, hmore⟩ := hcond
      have hpiece : (data.take n).length = n := by rw [List.length_take]; omega
      have hkeep := hbody done s (data.take n) hs hmore hpiece
      have hrest := ih (data.drop n).length (by rw [List.length_drop]; omega) hkeep (data.drop n) rfl
      rw [drain_of_more hn hdata hmore]
      rwa [List.append_assoc, List.take_append_drop] at hrest
    · rw [drain_of_not_more hcond]
      refine ⟨done, rfl, hs, ?_⟩
      rw [not_and_or, Nat.not_le, Bool.not_eq_true] at hcond
      exact hcond

/-- A loop over single items without a condition uses up the buffer. -/
theorem drain_one (body : σ → List α → σ) (s : σ) (data : List α) :
    drain 1 (fun _ => true) body s data = (data.foldl (fun s a => body s [a]) s, []) := by
  induction data generalizing s with
  | nil => exact drain_of_not_more (by simp)
  | cons a rest ih =>
    rw [drain_of_more Nat.one_pos (by simp) rfl]
    exact ih (body s [a])

end CamkesVm.Machine
