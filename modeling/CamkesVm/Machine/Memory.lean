import Mathlib.Data.Fin.VecNotation
import Mathlib.Data.List.Basic

/-!
# Byte buffers and flat memory

A C array of fixed length is a function on its indices. Copying between two arrays is
checked: a copy that would leave either array has no result, so that an out-of-bounds access
is an absent value and never an invented one.

A flat memory is a function on all addresses. Reading and writing a range of it is total, and
the order in which overlapping ranges are written is kept.
-/

namespace CamkesVm.Machine

/-- An octet. -/
abbrev Byte := BitVec 8

/-- A byte array of fixed length. -/
abbrev Bytes (n : ℕ) := Fin n → Byte

section Arrays

variable {α : Type*} {m n : ℕ}

/-- Copy `count` entries of `src` from `srcOff` to `dst` at `dstOff`, inside both arrays. -/
def copy (dst : Fin m → α) (dstOff : ℕ) (src : Fin n → α) (srcOff count : ℕ) : Option (Fin m → α) :=
  if h : dstOff + count ≤ m ∧ srcOff + count ≤ n then
    some fun i =>
      if hi : dstOff ≤ i.val ∧ i.val < dstOff + count then src ⟨srcOff + (i.val - dstOff), by omega⟩
      else dst i
  else none

/-- The entries of a copy: the source inside the range, the old destination outside. -/
theorem copy_eq_some (dst : Fin m → α) {dstOff : ℕ} (src : Fin n → α) {srcOff count : ℕ}
    (hdst : dstOff + count ≤ m) (hsrc : srcOff + count ≤ n) :
    copy dst dstOff src srcOff count = some fun i =>
      if hi : dstOff ≤ i.val ∧ i.val < dstOff + count then src ⟨srcOff + (i.val - dstOff), by omega⟩
      else dst i := by
  rw [copy, dif_pos ⟨hdst, hsrc⟩]

end Arrays

section Flat

variable {α : Type*}

/-- The `count` values stored from address `start` on. -/
def readRange (mem : ℕ → α) (start count : ℕ) : List α :=
  (List.range count).map fun k => mem (start + k)

/-- Store the values one after the other from address `start` on. -/
def writeRange (mem : ℕ → α) (start : ℕ) (values : List α) : ℕ → α := fun a =>
  if h : start ≤ a ∧ a < start + values.length then values.get ⟨a - start, by omega⟩ else mem a

/-- As many bytes are read as were asked for. -/
@[simp] theorem readRange_length (mem : ℕ → α) (start count : ℕ) :
    (readRange mem start count).length = count := by
  simp [readRange]

/-- Ranges that agree address by address read alike. -/
theorem readRange_congr {mem mem' : ℕ → α} {start count : ℕ}
    (h : ∀ k < count, mem (start + k) = mem' (start + k)) :
    readRange mem start count = readRange mem' start count := by
  apply List.map_congr_left
  intro k hk
  exact h k (List.mem_range.mp hk)

/-- A range splits into two consecutive ranges. -/
theorem readRange_add (mem : ℕ → α) (start first second : ℕ) :
    readRange mem start (first + second) =
      readRange mem start first ++ readRange mem (start + first) second := by
  simp only [readRange, List.range_add, List.map_append, List.map_map]
  congr 1
  apply List.map_congr_left
  intro k _
  simp only [Function.comp_apply, Nat.add_assoc]

/-- A written range reads back. -/
theorem readRange_writeRange (mem : ℕ → α) (start : ℕ) (values : List α) :
    readRange (writeRange mem start values) start values.length = values := by
  apply List.ext_getElem
  · simp
  · intro k hk hk'
    simp [readRange, writeRange, hk']

/-- A write elsewhere leaves a range as it was. -/
theorem readRange_writeRange_of_disjoint (mem : ℕ → α) (start count other : ℕ) (values : List α)
    (h : start + count ≤ other ∨ other + values.length ≤ start) :
    readRange (writeRange mem other values) start count = readRange mem start count := by
  apply readRange_congr
  intro k hk
  rw [writeRange, dif_neg (by omega)]

end Flat

end CamkesVm.Machine
