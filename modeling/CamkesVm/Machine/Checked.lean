import Mathlib.Data.Option.Basic
import Mathlib.Data.Nat.ModEq

/-!
# Arithmetic that does not wrap, and searches

A checked operation on machine words has the result of the machine's own one, and no result where that
one would wrap: a sum or product that leaves the width, a difference below zero, a shift that loses bits
and a conversion to a narrower type that changes the value. A program in checked operations that has a
result computes what the machine computes, without a wrap on the way.

A search over consecutive candidates keeps the one with the smallest key so far, and so ends with the
first of those with the least key.
-/

namespace CamkesVm.Machine

section Words

variable {v w : ℕ} {a b c : BitVec w}

/-- A sum that stays in the width. -/
def addC (a b : BitVec w) : Option (BitVec w) := if BitVec.uaddOverflow a b then none else some (a + b)

/-- A difference that is not below zero. -/
def subC (a b : BitVec w) : Option (BitVec w) := if BitVec.usubOverflow a b then none else some (a - b)

/-- A product that stays in the width. -/
def mulC (a b : BitVec w) : Option (BitVec w) := if BitVec.umulOverflow a b then none else some (a * b)

/-- A shift that loses no bits. -/
def shlC (a : BitVec w) (k : ℕ) : Option (BitVec w) :=
  if (a <<< k) >>> k ≠ a then none else some (a <<< k)

/-- A conversion that keeps the value. -/
def narrowC (v : ℕ) (a : BitVec w) : Option (BitVec v) :=
  if (a.setWidth v).toNat ≠ a.toNat then none else some (a.setWidth v)

/-- What passes a check is the result. -/
theorem eq_of_check {α : Type*} {p : Prop} [Decidable p] {x y : α}
    (h : (if p then none else some x) = some y) : x = y := by
  split at h
  · exact absurd h (by simp)
  · exact Option.some.inj h

/-- A checked sum is the sum. -/
theorem addC_eq (h : addC a b = some c) : a + b = c := eq_of_check h

/-- A checked difference is the difference. -/
theorem subC_eq (h : subC a b = some c) : a - b = c := eq_of_check h

/-- A checked product is the product. -/
theorem mulC_eq (h : mulC a b = some c) : a * b = c := eq_of_check h

/-- A checked shift is the shift. -/
theorem shlC_eq {k : ℕ} (h : shlC a k = some c) : a <<< k = c := eq_of_check h

/-- A checked narrowing is the narrowing. -/
theorem narrowC_eq {c : BitVec v} (h : narrowC v a = some c) : a.setWidth v = c := eq_of_check h

/-- A sum that fits. -/
theorem addC_of_lt (h : a.toNat + b.toNat < 2 ^ w) :
    addC a b = some (a + b) ∧ (a + b).toNat = a.toNat + b.toNat := by
  refine ⟨if_neg ?_, by rw [BitVec.toNat_add, Nat.mod_eq_of_lt h]⟩
  simpa [BitVec.uaddOverflow] using h

/-- A product that fits. -/
theorem mulC_of_lt (h : a.toNat * b.toNat < 2 ^ w) :
    mulC a b = some (a * b) ∧ (a * b).toNat = a.toNat * b.toNat := by
  refine ⟨if_neg ?_, by rw [BitVec.toNat_mul, Nat.mod_eq_of_lt h]⟩
  simpa [BitVec.umulOverflow] using h

/-- A difference that is not negative. -/
theorem subC_of_le (h : b.toNat ≤ a.toNat) :
    subC a b = some (a - b) ∧ (a - b).toNat = a.toNat - b.toNat := by
  refine ⟨if_neg ?_, BitVec.toNat_sub_of_le (BitVec.le_def.mpr h)⟩
  simpa [BitVec.usubOverflow] using h

/-- A value that the narrower type has. -/
theorem narrowC_of_lt (h : a.toNat < 2 ^ v) :
    narrowC v a = some (a.setWidth v) ∧ (a.setWidth v).toNat = a.toNat := by
  have hsame : (a.setWidth v).toNat = a.toNat := by rw [BitVec.toNat_setWidth, Nat.mod_eq_of_lt h]
  exact ⟨if_neg (not_not_intro hsame), hsame⟩

end Words

section Loops

variable {α β γ : Type*}

/-- A checked loop that has a result computes what the loop without checks does. -/
theorem foldl_eq_of_foldlM {step : β → α → Option β} {plain : β → α → β}
    (hstep : ∀ acc x next, step acc x = some next → plain acc x = next) {xs : List α} {acc result : β}
    (h : xs.foldlM step acc = some result) : xs.foldl plain acc = result := by
  induction xs generalizing acc with
  | nil => exact Option.some.inj h
  | cons x xs ih =>
    rw [List.foldlM_cons] at h
    obtain ⟨next, hnext, hrest⟩ := Option.bind_eq_some_iff.mp h
    rw [List.foldl_cons, hstep acc x next hnext]
    exact ih hrest

/-- A checked loop has a result, and follows another loop, if each of its rounds does. -/
theorem foldlM_follows {r : β → γ → Prop} {step : β → α → Option β} {plain : γ → α → γ} {xs : List α}
    (hstep : ∀ x ∈ xs, ∀ acc acc', r acc acc' → ∃ next, step acc x = some next ∧ r next (plain acc' x))
    {acc : β} {acc' : γ} (hacc : r acc acc') :
    ∃ result, xs.foldlM step acc = some result ∧ r result (xs.foldl plain acc') := by
  induction xs generalizing acc acc' with
  | nil => exact ⟨acc, rfl, hacc⟩
  | cons x xs ih =>
    rw [List.forall_mem_cons] at hstep
    obtain ⟨next, hnext, hr⟩ := hstep.1 acc acc' hacc
    rw [List.foldlM_cons, List.foldl_cons, hnext]
    exact ih hstep.2 hr

end Loops

section Search

variable {key : ℕ → ℕ} {start count t u : ℕ}

/-- Keep the candidate with the smaller key, and of two with the same one the earlier. -/
def keepFirst (key : ℕ → ℕ) (best : ℕ × ℕ) (i : ℕ) : ℕ × ℕ := if key i < best.1 then (key i, i) else best

/-- The first of `count` candidates with the least key. -/
structure FirstLeast (key : ℕ → ℕ) (start count t : ℕ) : Prop where
  ge : start ≤ t
  lt : t < start + count
  before : ∀ i, start ≤ i → i < t → key t < key i
  after : ∀ i, t ≤ i → i < start + count → key t ≤ key i

/-- There is only one first candidate with the least key. -/
theorem FirstLeast.unique (h : FirstLeast key start count t) (h' : FirstLeast key start count u) :
    t = u := by
  by_contra hne
  obtain hlt | hgt := Nat.lt_or_gt_of_ne hne
  · exact absurd (h'.before t h.ge hlt) (Nat.not_lt.mpr (h.after u hlt.le h'.lt))
  · exact absurd (h.before u h'.ge hgt) (Nat.not_lt.mpr (h'.after t hgt.le h.lt))

/-- A later candidate with a smaller key takes the place of the first one with the least key. -/
theorem FirstLeast.next (h : FirstLeast key start count t) (hless : key (start + count) < key t) :
    FirstLeast key start (count + 1) (start + count) where
  ge := Nat.le_add_right start count
  lt := Nat.lt_succ_self (start + count)
  before i hge hi := by
    obtain hlt | hle := Nat.lt_or_ge i t
    · exact hless.trans (h.before i hge hlt)
    · exact hless.trans_le (h.after i hle hi)
  after i hge hi := by
    obtain rfl : i = start + count := by omega
    exact Nat.le_refl _

/-- A later candidate with no smaller key does not. -/
theorem FirstLeast.keep (h : FirstLeast key start count t) (hless : ¬ key (start + count) < key t) :
    FirstLeast key start (count + 1) t where
  ge := h.ge
  lt := Nat.lt_succ_of_lt h.lt
  before := h.before
  after i hge hi := by
    obtain hlt | rfl : i < start + count ∨ i = start + count := by omega
    · exact h.after i hge hlt
    · exact Nat.not_lt.mp hless

/-- The search keeps the first candidate with the least key, if every key is below the limit that it
starts with. -/
theorem foldl_keepFirst {limit : ℕ} (hlimit : ∀ i, key i < limit) (default start count : ℕ) :
    ∃ t, (List.range' start (count + 1)).foldl (keepFirst key) (limit, default) = (key t, t) ∧
      FirstLeast key start (count + 1) t := by
  induction count with
  | zero =>
    refine ⟨start, if_pos (hlimit start), Nat.le_refl _, Nat.lt_succ_self _, ?_, ?_⟩
    · intro i hge hi
      omega
    · intro i hge hi
      obtain rfl : i = start := by omega
      exact Nat.le_refl _
  | succ count ih =>
    obtain ⟨t, hfold, hleast⟩ := ih
    rw [List.range'_1_concat, List.foldl_append, hfold]
    change ∃ u, keepFirst key (key t, t) (start + (count + 1)) = (key u, u) ∧ _
    by_cases hless : key (start + (count + 1)) < key t
    · exact ⟨_, if_pos hless, hleast.next hless⟩
    · exact ⟨t, if_neg hless, hleast.keep hless⟩

end Search

end CamkesVm.Machine
