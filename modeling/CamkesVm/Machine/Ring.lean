import Mathlib.Data.List.Range
import Mathlib.Data.Nat.ModEq
import Mathlib.Logic.Function.Basic

/-!
# Ring buffers with one reserved slot

A ring is a pair of wrapping cursors into `size` slots. It is empty when the cursors agree and
full when the tail is one slot behind the head, so one slot always stays unused. Its contents
are the slots from the head up to the tail, read through any function on slots.

Appending to a ring that is not full and removing from one that is not empty act on the
contents as on a list. Nothing here keeps a caller from doing either in the wrong state: the
cursors then stay in range, but the contents are no longer those of a list operation.
-/

namespace CamkesVm.Machine

/-- The cursors of a ring, inside its slots. -/
structure Ring where
  size : ℕ
  head : ℕ
  tail : ℕ
  head_lt : head < size
  tail_lt : tail < size

namespace Ring

variable {α : Type*} (r : Ring)

/-- A ring has at least one slot. -/
theorem size_pos : 0 < r.size := Nat.zero_lt_of_lt r.head_lt

/-- The number of occupied slots. -/
def count : ℕ := (r.tail + r.size - r.head) % r.size

/-- The slot `k` places behind the head. -/
def index (k : ℕ) : ℕ := (r.head + k) % r.size

/-- The occupied slots in order, through a reading function. -/
def contents (read : ℕ → α) : List α := (List.range r.count).map fun k => read (r.index k)

/-- Occupy the slot at the tail. -/
def advanceTail : Ring :=
  { r with tail := (r.tail + 1) % r.size, tail_lt := Nat.mod_lt _ r.size_pos }

/-- Free the slot at the head. -/
def advanceHead : Ring :=
  { r with head := (r.head + 1) % r.size, head_lt := Nat.mod_lt _ r.size_pos }

/-- The count without a division. -/
theorem count_eq : r.count = if r.head ≤ r.tail then r.tail - r.head else r.tail + r.size - r.head := by
  have hhead := r.head_lt
  have htail := r.tail_lt
  unfold count
  split
  next h => rw [Nat.sub_add_comm h, Nat.add_mod_right, Nat.mod_eq_of_lt (by omega)]
  next h => exact Nat.mod_eq_of_lt (by omega)

/-- A cursor advances by one or wraps to zero. -/
theorem succ_mod {n i : ℕ} (h : i < n) : (i + 1) % n = if i + 1 = n then 0 else i + 1 := by
  split
  next hn => rw [hn, Nat.mod_self]
  next hn => exact Nat.mod_eq_of_lt (by omega)

/-- One slot always stays unused. -/
theorem count_lt : r.count < r.size := Nat.mod_lt _ r.size_pos

/-- The slots are inside the ring. -/
theorem index_lt (k : ℕ) : r.index k < r.size := Nat.mod_lt _ r.size_pos

/-- A ring is empty exactly when its cursors agree. -/
theorem count_eq_zero_iff : r.count = 0 ↔ r.tail = r.head := by
  have hhead := r.head_lt
  have htail := r.tail_lt
  rw [count_eq]
  split <;> omega

/-- A ring is full exactly when the tail is one slot behind the head. -/
theorem count_add_one_eq_size_iff : r.count + 1 = r.size ↔ (r.tail + 1) % r.size = r.head := by
  have hhead := r.head_lt
  have htail := r.tail_lt
  rw [count_eq, succ_mod htail]
  split <;> split <;> omega

/-- The first free slot is the one at the tail. -/
theorem index_count : r.index r.count = r.tail := by
  have hhead := r.head_lt
  have htail := r.tail_lt
  rw [index, count_eq]
  split
  next h => rw [Nat.add_sub_cancel' h, Nat.mod_eq_of_lt htail]
  next h =>
    have hsum : r.head + (r.tail + r.size - r.head) = r.tail + r.size := by omega
    rw [hsum, Nat.add_mod_right, Nat.mod_eq_of_lt htail]

/-- The first slot is the one at the head. -/
theorem index_zero : r.index 0 = r.head := Nat.mod_eq_of_lt r.head_lt

/-- An occupied slot is not the one at the tail. -/
theorem index_ne_tail {k : ℕ} (hk : k < r.count) : r.index k ≠ r.tail := by
  have hcount := r.count_lt
  rw [← index_count]
  intro heq
  have hmod : k % r.size = r.count % r.size := Nat.ModEq.add_left_cancel' r.head heq
  rw [Nat.mod_eq_of_lt (by omega), Nat.mod_eq_of_lt hcount] at hmod
  omega

/-- Appending occupies one more slot, unless the ring is full. -/
theorem count_advanceTail (hfull : (r.tail + 1) % r.size ≠ r.head) :
    r.advanceTail.count = r.count + 1 := by
  have hhead := r.head_lt
  have htail := r.tail_lt
  have hfixed : r.advanceTail.head = r.head ∧ r.advanceTail.size = r.size := ⟨rfl, rfl⟩
  have hmoved : r.advanceTail.tail = _ := succ_mod htail
  rw [succ_mod htail] at hfull
  rw [count_eq, count_eq]
  split_ifs at hfull hmoved ⊢ <;> omega

/-- Removing frees one slot, unless the ring is empty. -/
theorem count_advanceHead (hempty : r.tail ≠ r.head) : r.count = r.advanceHead.count + 1 := by
  have hhead := r.head_lt
  have htail := r.tail_lt
  have hfixed : r.advanceHead.tail = r.tail ∧ r.advanceHead.size = r.size := ⟨rfl, rfl⟩
  have hmoved : r.advanceHead.head = _ := succ_mod hhead
  rw [count_eq, count_eq]
  split_ifs at hmoved ⊢ <;> omega

/-- Behind the removed slot the order is as before. -/
theorem index_advanceHead (k : ℕ) : r.advanceHead.index k = r.index (k + 1) := by
  simp only [index, advanceHead, Nat.mod_add_mod]
  congr 1
  omega

/-- The contents only depend on the slots. -/
theorem contents_congr {read read' : ℕ → α} (h : ∀ i < r.size, read i = read' i) :
    r.contents read = r.contents read' := by
  apply List.map_congr_left
  intro k _
  exact h _ (r.index_lt k)

/-- The contents are as long as the count says. -/
@[simp] theorem contents_length (read : ℕ → α) : (r.contents read).length = r.count := by
  simp [contents]

/-- Appending to a ring that is not full appends to its contents. -/
theorem contents_advanceTail (read : ℕ → α) (x : α) (hfull : (r.tail + 1) % r.size ≠ r.head) :
    r.advanceTail.contents (Function.update read r.tail x) = r.contents read ++ [x] := by
  rw [contents, count_advanceTail r hfull, List.range_succ, List.map_append, List.map_singleton]
  congr 1
  · apply List.map_congr_left
    intro k hk
    exact Function.update_of_ne (r.index_ne_tail (List.mem_range.mp hk)) _ _
  · change [Function.update read r.tail x (r.index r.count)] = [x]
    rw [index_count, Function.update_self]

/-- The contents of a ring that is not empty start at the head. -/
theorem contents_advanceHead (read : ℕ → α) (hempty : r.tail ≠ r.head) :
    r.contents read = read r.head :: r.advanceHead.contents read := by
  rw [contents, count_advanceHead r hempty, List.range_succ_eq_map, List.map_cons, index_zero,
    List.map_map, contents]
  congr 1
  apply List.map_congr_left
  intro k _
  rw [index_advanceHead]
  rfl

end Ring

end CamkesVm.Machine
