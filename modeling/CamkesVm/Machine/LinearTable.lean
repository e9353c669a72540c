import Mathlib.Algebra.Group.Defs
import Mathlib.Algebra.Group.Nat.Defs
import Mathlib.Logic.Function.Iterate
import Mathlib.Tactic.Ring

/-!
# Tables of an additive function

A table with an entry for every number below `2 ^ n` is filled in two passes. The first one starts
from the entry of `2 ^ n` and halves the index, one step of a given map for each entry. The second
one fills the entries between the powers of two with sums: the entry of `2 ^ e + k` is the sum of
those of `2 ^ e` and `k`. A function that is additive in this sense is then tabulated everywhere.
-/

namespace CamkesVm.Machine

/-- A table of entries. -/
structure Table (α : Type*) where
  get : ℕ → α

variable {α : Type*}

/-- Store an entry. -/
def Table.put (t : Table α) (i : ℕ) (a : α) : Table α := ⟨Function.update t.get i a⟩

/-- The written entry is read back. -/
theorem Table.get_put_self (t : Table α) (i : ℕ) (a : α) : (t.put i a).get i = a :=
  Function.update_self ..

/-- Other entries are unchanged. -/
theorem Table.get_put_of_ne (t : Table α) {i j : ℕ} (h : j ≠ i) (a : α) :
    (t.put i a).get j = t.get j :=
  Function.update_of_ne h ..

/-- The first pass: `t[j] = step t[j + j]` for the powers of two below `2 ^ n`, the largest first. -/
def halveIndex (step : α → α) : ℕ → Table α → Table α
  | 0, t => t
  | e + 1, t => halveIndex step e (t.put (2 ^ e) (step (t.get (2 ^ e + 2 ^ e))))

/-- The inner loop of the second pass: `t[j + k] = t[j] + t[k]` for `0 < k < j`. -/
def combineRow (add : α → α → α) (t : Table α) (j : ℕ) : Table α :=
  (List.range' 1 (j - 1)).foldl (fun t k => t.put (j + k) (add (t.get j) (t.get k))) t

/-- The second pass: the rows of `2, 4, …` below `2 ^ n`. -/
def combineTable (add : α → α → α) (n : ℕ) (t : Table α) : Table α :=
  (List.range' 1 (n - 1)).foldl (fun t e => combineRow add t (2 ^ e)) t

/-- The first pass changes the powers of two only. -/
theorem halveIndex_of_ne (step : α → α) (n : ℕ) (t : Table α) {i : ℕ} (hi : ∀ e < n, i ≠ 2 ^ e) :
    (halveIndex step n t).get i = t.get i := by
  induction n generalizing t with
  | zero => rfl
  | succ n ih =>
    rw [halveIndex, ih _ fun e he => hi e (by omega), t.get_put_of_ne (hi n n.lt_succ_self)]

/-- Each halving of the index is one step. -/
theorem halveIndex_pow (step : α → α) (n : ℕ) (t : Table α) (d e : ℕ) (hn : d + e = n) :
    (halveIndex step n t).get (2 ^ e) = step^[d] (t.get (2 ^ n)) := by
  induction n generalizing t d with
  | zero =>
    obtain ⟨rfl, rfl⟩ : d = 0 ∧ e = 0 := by omega
    rfl
  | succ n ih =>
    cases d with
    | zero =>
      have hother : ∀ k < n + 1, 2 ^ e ≠ 2 ^ k := fun k hk h => by
        have := Nat.pow_right_injective (le_refl 2) h
        omega
      rw [halveIndex_of_ne _ _ _ hother, ← hn]
      simp
    | succ d =>
      rw [halveIndex, ih _ d (by omega), t.get_put_self, Function.iterate_succ_apply,
        ← two_mul, ← pow_succ']

/-- One row: the entries strictly between `j` and `2 * j`. -/
theorem get_combineRow (add : α → α → α) (t : Table α) (j i : ℕ) :
    (combineRow add t j).get i =
      if j < i ∧ i < j + j then add (t.get j) (t.get (i - j)) else t.get i := by
  have hprefix (m : ℕ) (hm : m ≤ j - 1) (i : ℕ) :
      ((List.range' 1 m).foldl (fun t k => t.put (j + k) (add (t.get j) (t.get k))) t).get i =
        if j < i ∧ i ≤ j + m then add (t.get j) (t.get (i - j)) else t.get i := by
    induction m generalizing i with
    | zero => simp
    | succ m ih =>
      rw [List.range'_concat, List.foldl_append, List.foldl_cons, List.foldl_nil]
      by_cases hi : i = j + (1 + 1 * m)
      · subst hi
        rw [Table.get_put_self, ih (by omega), ih (by omega), if_neg (by omega), if_neg (by omega),
          if_pos (by omega)]
        congr 2
        omega
      · rw [Table.get_put_of_ne _ hi, ih (by omega)]
        congr 1
        apply propext
        omega
  rw [combineRow, hprefix _ le_rfl]
  congr 1
  apply propext
  omega

/-- Both passes tabulate an additive function whose values at the powers of two the first one
stores. -/
theorem get_combineTable {A : Type*} [Add A] (add : α → α → α) (val : α → A) (L : ℕ → A)
    (hadd : ∀ a b, val (add a b) = val a + val b)
    (hL : ∀ e k, k < 2 ^ e → L (2 ^ e + k) = L (2 ^ e) + L k) (n : ℕ) (t : Table α)
    (hzero : val (t.get 0) = L 0) (hpow : ∀ e < n, val (t.get (2 ^ e)) = L (2 ^ e)) {i : ℕ}
    (hi : i < 2 ^ n) : val ((combineTable add n t).get i) = L i := by
  -- After `m` rows the table is right below `2 ^ (m + 1)` and still right at the powers of two.
  have hrows (m : ℕ) (hm : m ≤ n - 1) :
      let filled := (List.range' 1 m).foldl (fun t e => combineRow add t (2 ^ e)) t
      (∀ e < n, val (filled.get (2 ^ e)) = L (2 ^ e)) ∧
        ∀ i < 2 ^ (m + 1), i < 2 ^ n → val (filled.get i) = L i := by
    induction m with
    | zero =>
      refine ⟨hpow, fun i hi hn => ?_⟩
      obtain rfl | rfl : i = 0 ∨ i = 1 := by omega
      · exact hzero
      · exact hpow 0 (Nat.pos_of_ne_zero fun h => by simp [h] at hn)
    | succ m ih =>
      obtain ⟨hpowers, hbelow⟩ := ih (by omega)
      dsimp only
      rw [List.range'_concat, List.foldl_append, List.foldl_cons, List.foldl_nil, one_mul,
        Nat.add_comm 1 m]
      refine ⟨fun e he => ?_, fun i hi hn => ?_⟩
      · have hgap : ¬ (2 ^ (m + 1) < 2 ^ e ∧ 2 ^ e < 2 ^ (m + 1) + 2 ^ (m + 1)) := by
          rw [← two_mul, ← pow_succ', Nat.pow_lt_pow_iff_right (by decide),
            Nat.pow_lt_pow_iff_right (by decide)]
          omega
        rw [get_combineRow, if_neg hgap]
        exact hpowers e he
      · rw [get_combineRow]
        rw [pow_succ, mul_two] at hi
        split
        next hrow =>
          rw [hadd, hpowers (m + 1) (by omega), hbelow (i - 2 ^ (m + 1)) (by omega) (by omega),
            ← hL _ _ (by omega), Nat.add_sub_cancel' (by omega)]
        next hrow =>
          by_cases hpower : i = 2 ^ (m + 1)
          · rw [hpower]
            exact hpowers (m + 1) (by omega)
          · exact hbelow i (by omega) hn
  refine (hrows (n - 1) le_rfl).2 i (lt_of_lt_of_le hi ?_) hi
  exact Nat.pow_le_pow_right (by decide) (by omega)

end CamkesVm.Machine
