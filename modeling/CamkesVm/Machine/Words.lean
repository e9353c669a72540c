import CamkesVm.Machine.Memory
import Mathlib.Algebra.Ring.Nat
import Mathlib.Data.Fintype.Fin
import Mathlib.Tactic.FinCases

/-!
# Little-endian 32-bit words

A word lies in memory with its least significant byte first. A block of sixteen bytes is read and
written as four such words.
-/

namespace CamkesVm.Machine

/-- The numerals of `Fin 4` are those of this instance in every module. -/
instance neZero_four : NeZero 4 := Nat.instNeZeroSucc

/-- The numerals of `Fin 16` are those of this instance in every module. -/
instance neZero_sixteen : NeZero 16 := Nat.instNeZeroSucc

/-- Byte `k` of a word, the least significant one first. -/
def byteAt (w : BitVec 32) (k : ℕ) : Byte := (w >>> (8 * k)).setWidth 8

/-- The word with the given bytes, the least significant one first. -/
def leWord (b₀ b₁ b₂ b₃ : Byte) : BitVec 32 :=
  b₃.setWidth 32 <<< 24 ||| b₂.setWidth 32 <<< 16 ||| b₁.setWidth 32 <<< 8 ||| b₀.setWidth 32

/-- The bits of a byte of a word. -/
theorem getLsbD_byteAt (w : BitVec 32) (k : ℕ) {j : ℕ} (hj : j < 8) :
    (byteAt w k).getLsbD j = w.getLsbD (8 * k + j) := by
  simp [byteAt, hj]

/-- The bytes of the zero word are zero. -/
@[simp] theorem byteAt_zero (k : ℕ) : byteAt 0#32 k = 0#8 := by
  simp [byteAt]

/-- The bytes of an exclusive or are those of the words combined. -/
@[simp] theorem byteAt_xor (v w : BitVec 32) (k : ℕ) :
    byteAt (v ^^^ w) k = byteAt v k ^^^ byteAt w k := by
  simp [byteAt, BitVec.ushiftRight_xor_distrib]

/-- Words with the same bytes are equal. -/
theorem eq_of_byteAt_eq {v w : BitVec 32} (h : ∀ k < 4, byteAt v k = byteAt w k) : v = w := by
  apply BitVec.eq_of_getLsbD_eq
  intro i hi
  have hbit := congrArg (·.getLsbD (i % 8)) (h (i / 8) (by omega))
  simp only [getLsbD_byteAt _ _ (Nat.mod_lt i (by decide : 8 > 0))] at hbit
  rwa [Nat.div_add_mod] at hbit

section Bytes

variable (b₀ b₁ b₂ b₃ : Byte)

/-- The bits of a word that is put together from bytes. -/
theorem getLsbD_leWord (i : ℕ) :
    (leWord b₀ b₁ b₂ b₃).getLsbD i =
      if i < 8 then b₀.getLsbD i else if i < 16 then b₁.getLsbD (i - 8)
      else if i < 24 then b₂.getLsbD (i - 16) else b₃.getLsbD (i - 24) := by
  have hout (b : Byte) (k : ℕ) (hk : 8 ≤ k) : b.getLsbD k = false := BitVec.getLsbD_of_ge _ _ hk
  simp only [leWord, BitVec.getLsbD_or, BitVec.getLsbD_shiftLeft, BitVec.getLsbD_setWidth]
  grind

/-- The bytes of a word made from bytes. -/
theorem byteAt_leWord (k : Fin 4) : byteAt (leWord b₀ b₁ b₂ b₃) k = ![b₀, b₁, b₂, b₃] k := by
  apply BitVec.eq_of_getLsbD_eq
  intro j hj
  rw [getLsbD_byteAt _ _ hj, getLsbD_leWord]
  fin_cases k
  all_goals
    dsimp only [Fin.isValue, Fin.zero_eta, Fin.mk_one, Fin.reduceFinMk, Matrix.cons_val]
    grind

end Bytes

section Vectors

variable {α : Type*} {n : ℕ}

/-- The entries of a vector given by a function. -/
@[simp] theorem get_ofFn (f : Fin n → α) (i : Fin n) : (Vector.ofFn f).get i = f i := by
  change (Vector.ofFn f)[(i : ℕ)] = f i
  rw [Vector.getElem_ofFn]

/-- Vectors with the same entries are equal. -/
theorem vector_ext {a b : Vector α n} (h : ∀ i, a.get i = b.get i) : a = b := by
  apply Vector.ext
  intro i hi
  exact h ⟨i, hi⟩

/-- Store an entry. -/
def put (v : Vector α n) (i : Fin n) (a : α) : Vector α n := v.set i a i.isLt

/-- The written entry is read back and the others are unchanged. -/
@[simp] theorem get_put (v : Vector α n) (i j : Fin n) (a : α) :
    (put v i a).get j = if j = i then a else v.get j := by
  change (v.set i a i.isLt)[(j : ℕ)] = if j = i then a else v[(j : ℕ)]
  rw [Vector.getElem_set]
  exact if_congr (by rw [Fin.ext_iff, eq_comm]) rfl rfl

/-- A written array is found in memory. -/
theorem writeRange_ofFn (mem : ℕ → α) (start : ℕ) (f : Fin n → α) (i : Fin n) :
    writeRange mem start (List.ofFn f) (start + i) = f i := by
  rw [writeRange, dif_pos ⟨Nat.le_add_right _ _, by simp⟩]
  simp only [Nat.add_sub_cancel_left, List.get_ofFn]
  rfl

end Vectors

section Units

/-- A block of sixteen bytes. -/
abbrev Block := Vector Byte 16

/-- The four words of a block. -/
abbrev Units := Vector (BitVec 32) 4

/-- The place of byte `k` of word `n` in a block. -/
def unitIx (n k : Fin 4) : Fin 16 := ⟨4 * n + k, by omega⟩

/-- The word of a place. -/
def unitOf (i : Fin 16) : Fin 4 := ⟨i / 4, by omega⟩

/-- The byte of a place in its word. -/
def byteOf (i : Fin 16) : Fin 4 := ⟨i % 4, by omega⟩

/-- An index is put together from its word and its byte. -/
@[simp] theorem unitIx_unitOf (i : Fin 16) : unitIx (unitOf i) (byteOf i) = i :=
  Fin.ext (Nat.div_add_mod _ _)

/-- The word of an index that is put together. -/
@[simp] theorem unitOf_unitIx (n k : Fin 4) : unitOf (unitIx n k) = n :=
  Fin.ext (by simp only [unitOf, unitIx]; omega)

/-- The byte of an index that is put together. -/
@[simp] theorem byteOf_unitIx (n k : Fin 4) : byteOf (unitIx n k) = k :=
  Fin.ext (by simp only [byteOf, unitIx]; omega)

/-- Word `n` of a block. -/
def unit (b : Block) (n : Fin 4) : BitVec 32 :=
  leWord (b.get (unitIx n 0)) (b.get (unitIx n 1)) (b.get (unitIx n 2)) (b.get (unitIx n 3))

/-- The words of a block. -/
def units (b : Block) : Units := Vector.ofFn (unit b)

/-- The block with the given words. -/
def ofUnits (u : Units) : Block := Vector.ofFn fun i => byteAt (u.get (unitOf i)) (byteOf i)

/-- Blocks with the same bytes in every word are equal. -/
theorem block_ext {a b : Block} (h : ∀ n k, a.get (unitIx n k) = b.get (unitIx n k)) : a = b := by
  apply vector_ext
  intro i
  rw [← unitIx_unitOf i]
  exact h _ _

/-- The bytes of a word of a block are bytes of the block. -/
theorem byteAt_unit (b : Block) (n k : Fin 4) : byteAt (unit b n) k = b.get (unitIx n k) := by
  rw [unit, byteAt_leWord]
  fin_cases k <;> rfl

/-- The words of a block, by number. -/
@[simp] theorem get_units (b : Block) (n : Fin 4) : (units b).get n = unit b n := get_ofFn _ n

/-- The bytes of a block that is put together from words. -/
theorem get_ofUnits (u : Units) (n k : Fin 4) :
    (ofUnits u).get (unitIx n k) = byteAt (u.get n) k := by
  rw [ofUnits, get_ofFn, unitOf_unitIx, byteOf_unitIx]

end Units

section Places

/-- A byte position in a block. -/
def place (p : ℕ) : Fin 16 := Fin.ofNat 16 p

/-- A position inside the block is its own place. -/
theorem val_place {p : ℕ} (hp : p < 16) : (place p : ℕ) = p := Nat.mod_eq_of_lt hp

/-- An index is the place of its number. -/
theorem place_val (i : Fin 16) : place i = i := Fin.ext (val_place i.isLt)

/-- The word at a byte position. -/
def loadWord (b : Block) (p : ℕ) : BitVec 32 :=
  leWord (b.get (place p)) (b.get (place (p + 1))) (b.get (place (p + 2))) (b.get (place (p + 3)))

/-- Store a word at a byte position. -/
def storeWord (b : Block) (p : ℕ) (w : BitVec 32) : Block :=
  let b := put b (place p) (byteAt w 0)
  let b := put b (place (p + 1)) (byteAt w 1)
  let b := put b (place (p + 2)) (byteAt w 2)
  put b (place (p + 3)) (byteAt w 3)

/-- The first four bytes of a buffer as a word. -/
def listWord (l : List Byte) : BitVec 32 :=
  leWord (l.getD 0 0) (l.getD 1 0) (l.getD 2 0) (l.getD 3 0)

/-- The first sixteen bytes of a buffer as a block, with zeros where the buffer ends. -/
def listBlock (l : List Byte) : Block := Vector.ofFn fun i => l.getD i 0

/-- The bytes of a word loaded at a position. -/
theorem byteAt_loadWord (b : Block) (p : ℕ) (k : Fin 4) :
    byteAt (loadWord b p) k = b.get (place (p + k)) := by
  rw [loadWord, byteAt_leWord]
  fin_cases k <;> rfl

/-- The bytes of a word read from a list, zero behind its end. -/
theorem byteAt_listWord (l : List Byte) (k : Fin 4) : byteAt (listWord l) k = l.getD k 0 := by
  rw [listWord, byteAt_leWord]
  fin_cases k <;> rfl

/-- The bytes of a block after a word is stored. -/
theorem get_storeWord (b : Block) {p : ℕ} (hp : p ≤ 12) (w : BitVec 32) (i : Fin 16) :
    (storeWord b p w).get i = if p ≤ i ∧ i < p + 4 then byteAt w (i - p) else b.get i := by
  have hplace (k : ℕ) (hk : k < 4) : i = place (p + k) ↔ (i : ℕ) = p + k := by
    rw [Fin.ext_iff, val_place (by omega)]
  have h0 := hplace 0 (by decide)
  rw [Nat.add_zero] at h0
  simp only [storeWord, get_put, h0, hplace 1 (by decide), hplace 2 (by decide), hplace 3 (by decide)]
  by_cases hin : p ≤ i ∧ i < p + 4
  · rw [if_pos hin]
    obtain h | h | h | h : (i : ℕ) = p ∨ (i : ℕ) = p + 1 ∨ (i : ℕ) = p + 2 ∨ (i : ℕ) = p + 3 := by omega
    all_goals simp [h]
  · rw [if_neg hin, if_neg (by omega), if_neg (by omega), if_neg (by omega), if_neg (by omega)]

end Places

end CamkesVm.Machine
