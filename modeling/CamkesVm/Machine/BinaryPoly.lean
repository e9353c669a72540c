import CamkesVm.Machine.Memory
import Mathlib.Algebra.CharP.Algebra
import Mathlib.Algebra.CharP.Two
import Mathlib.Algebra.Field.ZMod
import Mathlib.RingTheory.AdjoinRoot

/-!
# Bytes as binary polynomials

A byte array stands for a polynomial over the field with two elements, evaluated at a point `x`
of a ring of characteristic two: the coefficients of the first byte come first, and within a byte
the most significant bit comes first. Exclusive or of arrays is then addition, and shifting a byte
multiplies by a power of `x` with the bits shifted out as a carry.

Modulo a monic polynomial of the right degree the arrays are exactly the elements of the quotient,
whether or not the polynomial is irreducible.
-/

namespace CamkesVm.Machine

section Values

variable {R : Type*} [CommRing R] (x : R)

/-- The element with the given coefficients below `x ^ n`. -/
def bitsVal (n : ℕ) (c : ℕ → Bool) : R := ∑ i ∈ Finset.range n, if c i then x ^ i else 0

/-- The element of a number below `2 ^ n`, whose highest bit is the first coefficient. -/
def indexVal (n i : ℕ) : R := bitsVal x n fun k => i.testBit (n - 1 - k)

/-- The element of a byte. -/
def byteVal (b : Byte) : R := bitsVal x 8 b.getMsbD

/-- The element of a byte array. -/
def bytesVal {n : ℕ} (b : Bytes n) : R := ∑ j : Fin n, x ^ (8 * (j : ℕ)) * byteVal x (b j)

/-- The value depends on the coefficients below `x ^ n` only. -/
theorem bitsVal_congr {n : ℕ} {c d : ℕ → Bool} (h : ∀ i < n, c i = d i) :
    bitsVal x n c = bitsVal x n d := by
  apply Finset.sum_congr rfl
  intro i hi
  rw [h i (Finset.mem_range.mp hi)]

/-- The coefficients split at any power. -/
theorem bitsVal_add (m n : ℕ) (c : ℕ → Bool) :
    bitsVal x (m + n) c = bitsVal x m c + x ^ m * bitsVal x n fun i => c (m + i) := by
  rw [bitsVal, Finset.sum_range_add]
  congr 1
  rw [bitsVal, Finset.mul_sum]
  apply Finset.sum_congr rfl
  intro i _
  split
  · rw [pow_add]
  · rw [mul_zero]

/-- Zero coefficients have value zero. -/
theorem bitsVal_eq_zero {n : ℕ} {c : ℕ → Bool} (h : ∀ i < n, c i = false) : bitsVal x n c = 0 := by
  apply Finset.sum_eq_zero
  intro i hi
  rw [h i (Finset.mem_range.mp hi)]
  rfl

/-- The zero byte stands for zero. -/
@[simp] theorem byteVal_zero : byteVal x 0#8 = 0 := bitsVal_eq_zero x fun i _ => by simp

/-- Zero bytes stand for zero. -/
@[simp] theorem bytesVal_zero {n : ℕ} : bytesVal x (fun _ : Fin n => 0#8) = 0 := by
  simp only [bytesVal, byteVal_zero, mul_zero, Finset.sum_const_zero]

/-- The index zero stands for zero. -/
@[simp] theorem indexVal_zero (n : ℕ) : indexVal x n 0 = 0 := bitsVal_eq_zero x fun i _ => by simp

/-- A power of two is a power of `x`. -/
theorem indexVal_two_pow {n d e : ℕ} (hn : d + e + 1 = n) : indexVal x n (2 ^ e) = x ^ d := by
  rw [indexVal, bitsVal, Finset.sum_eq_single_of_mem d (Finset.mem_range.mpr (by omega))]
  · rw [if_pos]
    rw [Nat.testBit_two_pow, decide_eq_true_iff]
    omega
  · intro k hk hne
    rw [if_neg]
    rw [Nat.testBit_two_pow, decide_eq_true_iff]
    have := Finset.mem_range.mp hk
    omega

/-- A byte is a number below 256. -/
theorem indexVal_toNat (b : Byte) : indexVal x 8 b.toNat = byteVal x b := by
  apply bitsVal_congr
  intro i hi
  rw [BitVec.testBit_toNat, BitVec.getMsbD]
  simp [hi]

/-- Multiplying a byte by a power of `x` shifts it; the bits shifted out are carried to the next
byte. -/
theorem byteVal_shift {s : ℕ} (hs : s ≤ 8) (b : Byte) :
    x ^ s * byteVal x b = byteVal x (b >>> s) + x ^ 8 * byteVal x (b <<< (8 - s)) := by
  have hlow : byteVal x (b >>> s) = x ^ s * bitsVal x (8 - s) b.getMsbD := by
    have hsplit := bitsVal_add x s (8 - s) (b >>> s).getMsbD
    rw [Nat.add_sub_cancel' hs] at hsplit
    rw [byteVal, hsplit, bitsVal_eq_zero x (n := s), zero_add]
    · congr 1
      apply bitsVal_congr
      intro i hi
      rw [BitVec.getMsbD_ushiftRight]
      have hlt : s + i < 8 := by omega
      simp [hlt]
    · intro i hi
      rw [BitVec.getMsbD_ushiftRight]
      simp [hi]
  have hhigh : byteVal x (b <<< (8 - s)) = bitsVal x s fun i => b.getMsbD (8 - s + i) := by
    have hsplit := bitsVal_add x s (8 - s) (b <<< (8 - s)).getMsbD
    rw [Nat.add_sub_cancel' hs] at hsplit
    rw [byteVal, hsplit, bitsVal_eq_zero x (n := 8 - s), mul_zero, add_zero]
    · apply bitsVal_congr
      intro i hi
      rw [BitVec.getMsbD_shiftLeft, Nat.add_comm]
    · intro i hi
      rw [BitVec.getMsbD_shiftLeft]
      exact BitVec.getMsbD_of_ge _ _ (by omega)
  have hsplit := bitsVal_add x (8 - s) s b.getMsbD
  rw [Nat.sub_add_cancel hs] at hsplit
  rw [hlow, hhigh, byteVal, hsplit, mul_add, ← mul_assoc, ← pow_add, Nat.add_sub_cancel' hs]

/-- Evaluation from the highest index down, one multiplication by `y` before each coefficient. -/
theorem foldr_horner {α : Type*} {n : ℕ} (val : α → R) (y : R) (w : Fin n → R)
    (step : Fin n → α → α) (hstep : ∀ i a, val (step i a) = y * val a + w i) (a : α) :
    val (Fin.foldr n step a) = y ^ n * val a + ∑ i : Fin n, y ^ (i : ℕ) * w i := by
  induction n with
  | zero => simp
  | succ n ih =>
    rw [Fin.foldr_succ, hstep, ih (fun i => w i.succ) (fun i => step i.succ) fun i a => hstep i.succ a,
      Fin.sum_univ_succ, mul_add, ← mul_assoc, ← pow_succ', Finset.mul_sum]
    simp only [Fin.val_zero, pow_zero, one_mul, Fin.val_succ, pow_succ', mul_assoc]
    ring

end Values

section CharTwo

variable {R : Type*} [CommRing R] [CharP R 2] (x : R)

/-- Exclusive or of coefficients is addition. -/
theorem bitsVal_xor (n : ℕ) (c d : ℕ → Bool) :
    bitsVal x n (fun i => c i ^^ d i) = bitsVal x n c + bitsVal x n d := by
  rw [bitsVal, bitsVal, bitsVal, ← Finset.sum_add_distrib]
  apply Finset.sum_congr rfl
  intro i _
  cases c i <;> cases d i <;> simp [CharTwo.add_self_eq_zero]

/-- Adding a smaller number to a power of two is addition. -/
theorem indexVal_two_pow_add (n e k : ℕ) (hk : k < 2 ^ e) :
    indexVal x n (2 ^ e + k) = indexVal x n (2 ^ e) + indexVal x n k := by
  rw [indexVal, indexVal, indexVal, ← bitsVal_xor]
  apply bitsVal_congr
  intro i _
  generalize n - 1 - i = m
  obtain hlt | rfl | hgt := lt_trichotomy m e
  · rw [Nat.testBit_two_pow_add_gt hlt, Nat.testBit_two_pow_of_ne (Nat.ne_of_gt hlt), Bool.false_xor]
  · rw [Nat.testBit_two_pow_add_eq, Nat.testBit_two_pow_self, Bool.true_xor]
  · have hpow : 2 ^ e + k < 2 ^ m := by
      have := Nat.pow_le_pow_right (n := 2) (by decide) hgt
      omega
    rw [Nat.testBit_lt_two_pow hpow, Nat.testBit_two_pow_of_ne (Nat.ne_of_lt hgt),
      Nat.testBit_lt_two_pow (by omega), Bool.xor_false]

/-- Exclusive or of bytes is addition. -/
theorem byteVal_xor (a b : Byte) : byteVal x (a ^^^ b) = byteVal x a + byteVal x b := by
  rw [byteVal, byteVal, byteVal, ← bitsVal_xor]
  apply bitsVal_congr
  intro i _
  exact BitVec.getMsbD_xor

/-- Exclusive or of byte arrays is addition. -/
theorem bytesVal_xor {n : ℕ} (a b : Bytes n) :
    bytesVal x (fun j => a j ^^^ b j) = bytesVal x a + bytesVal x b := by
  simp only [bytesVal, byteVal_xor, mul_add, Finset.sum_add_distrib]

/-- Multiplying a byte array by a power of `x` up to the eighth shifts every byte and takes in what
the byte before it carries; what the last byte carries is left over. -/
theorem bytesVal_shift {n s : ℕ} (hs : s ≤ 8) (a : Bytes (n + 1)) (b : Bytes (n + 1))
    (hzero : b 0 = a 0 >>> s)
    (hsucc : ∀ j : Fin n, b j.succ = a j.succ >>> s ^^^ a j.castSucc <<< (8 - s)) :
    x ^ s * bytesVal x a =
      bytesVal x b + x ^ (8 * (n + 1)) * byteVal x (a (Fin.last n) <<< (8 - s)) := by
  have hterm (j : Fin (n + 1)) : x ^ s * (x ^ (8 * (j : ℕ)) * byteVal x (a j)) =
      x ^ (8 * (j : ℕ)) * byteVal x (a j >>> s) +
        x ^ (8 * ((j : ℕ) + 1)) * byteVal x (a j <<< (8 - s)) := by
    rw [mul_left_comm, byteVal_shift x hs, mul_add, ← mul_assoc, ← pow_add, Nat.mul_succ]
  have hb : bytesVal x b = ∑ j : Fin (n + 1), x ^ (8 * (j : ℕ)) * byteVal x (a j >>> s) +
      ∑ j : Fin n, x ^ (8 * ((j : ℕ) + 1)) * byteVal x (a j.castSucc <<< (8 - s)) := by
    rw [bytesVal, Fin.sum_univ_succ, hzero, Fin.sum_univ_succ, add_assoc,
      ← Finset.sum_add_distrib]
    congr 1
    apply Finset.sum_congr rfl
    intro j _
    rw [hsucc, byteVal_xor, mul_add, Fin.val_succ]
  rw [bytesVal, Finset.mul_sum, Finset.sum_congr rfl fun j _ => hterm j, Finset.sum_add_distrib, hb,
    Fin.sum_univ_castSucc fun j : Fin (n + 1) =>
      x ^ (8 * ((j : ℕ) + 1)) * byteVal x (a j <<< (8 - s)), add_assoc]
  rfl

end CharTwo

section Quotient

open Polynomial

variable {f : (ZMod 2)[X]} {n : ℕ}

/-- The coefficients of a byte array as elements of the field. -/
def coeffs (b : Bytes n) (p : Fin n × Fin 8) : ZMod 2 := if (b p.1).getMsbD p.2 then 1 else 0

/-- Every choice of coefficients is a byte array. -/
theorem coeffs_bijective : Function.Bijective (coeffs (n := n)) := by
  have hbit : (0 : ZMod 2) ≠ 1 := by decide
  constructor
  · intro a b h
    funext j
    apply BitVec.eq_of_getMsbD_eq
    intro k hk
    have hjk := congrFun h (j, ⟨k, hk⟩)
    simp only [coeffs] at hjk
    revert hjk
    cases (a j).getMsbD k <;> cases (b j).getMsbD k <;> simp [hbit, hbit.symm]
  · intro c
    have hcases (z : ZMod 2) : (if z = 1 then (1 : ZMod 2) else 0) = z := by
      revert z
      decide
    refine ⟨fun j => (BitVec.ofBoolListBE (List.ofFn fun k => decide (c (j, k) = 1))).cast
      List.length_ofFn, ?_⟩
    funext p
    rw [coeffs, BitVec.getMsbD_cast, BitVec.getMsbD_ofBoolListBE, List.getD_eq_getElem?_getD,
      List.getElem?_ofFn, dif_pos p.2.isLt]
    simpa using hcases (c p)

/-- The arrays of `n` bytes are the elements of the quotient by a monic polynomial of degree
`n * 8`. -/
theorem bytesVal_bijective (hf : f.Monic) (hdegree : f.natDegree = n * 8) :
    Function.Bijective (bytesVal (n := n) (AdjoinRoot.root f)) := by
  let basis := (AdjoinRoot.powerBasis' hf).basis.reindex
    ((finCongr ((AdjoinRoot.powerBasis'_dim hf).trans hdegree)).trans finProdFinEquiv.symm)
  have hbasis (p : Fin n × Fin 8) : basis p = AdjoinRoot.root f ^ (8 * (p.1 : ℕ) + p.2) := by
    dsimp only [basis]
    rw [Module.Basis.reindex_apply, PowerBasis.basis_eq_pow, AdjoinRoot.powerBasis'_gen]
    simp [Nat.add_comm]
  have hval : bytesVal (n := n) (AdjoinRoot.root f) = basis.equivFun.symm ∘ coeffs := by
    funext b
    rw [Function.comp_apply, Module.Basis.equivFun_symm_apply, Fintype.sum_prod_type, bytesVal]
    apply Finset.sum_congr rfl
    intro j _
    rw [byteVal, bitsVal, Finset.sum_range, Finset.mul_sum]
    apply Finset.sum_congr rfl
    intro k _
    rw [hbasis, coeffs, pow_add]
    split
    · rw [one_smul]
    · rw [mul_zero, zero_smul]
  rw [hval]
  exact basis.equivFun.symm.bijective.comp coeffs_bijective

end Quotient

end CamkesVm.Machine
