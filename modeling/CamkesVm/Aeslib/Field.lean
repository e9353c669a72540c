import CamkesVm.Machine.BinaryPoly
import CamkesVm.Machine.Words
import Mathlib.Algebra.Field.ZMod
import Mathlib.Tactic.ComputeDegree

/-!
# Multiplication by powers of x

The model of the parts of `gf_mul_lo.h` and `mode_hdr.h` that a little-endian machine with 32-bit
units compiles. A field element is a block of sixteen bytes; its coefficients run through the bytes
in order and through the bits of a byte from the most significant one down. Multiplication by `x`,
`x ^ 4` and `x ^ 8` shifts the four words of a block and folds what is shifted out back in through
the table `gf_tab`.
-/

namespace CamkesVm.Aeslib

open CamkesVm.Machine Polynomial

/-- The block of zeros. -/
def zeroBlock : Block := Vector.replicate 16 0

/-- Exclusive or byte by byte. -/
def xorBlock (p q : Block) : Block := Vector.ofFn fun i => p.get i ^^^ q.get i

/-- Exclusive or word by word. -/
def xorBlockAligned (p q : Block) : Block := ofUnits (Vector.ofFn fun n => unit p n ^^^ unit q n)

/-- A byte repeated in all four bytes of a word. -/
def mask (x : BitVec 32) : BitVec 32 := x * (0xFFFFFFFF / 0xFF)

/-- The bit of a byte that holds a coefficient, `X_0` to `X_7`. -/
def xBit : Fin 8 → Byte := ![0x80, 0x40, 0x20, 0x10, 0x08, 0x04, 0x02, 0x01]

/-- The two bytes to add for an overflow byte, the first one in the lower half. -/
def gfUint16Xor (i : Byte) : BitVec 16 :=
  (if i &&& 0x80 ≠ 0 then 0x00E1 else 0) ^^^ (if i &&& 0x40 ≠ 0 then 0x8070 else 0) ^^^
    (if i &&& 0x20 ≠ 0 then 0x4038 else 0) ^^^ (if i &&& 0x10 ≠ 0 then 0x201C else 0) ^^^
    (if i &&& 0x08 ≠ 0 then 0x100E else 0) ^^^ (if i &&& 0x04 ≠ 0 then 0x0807 else 0) ^^^
    (if i &&& 0x02 ≠ 0 then 0x8403 else 0) ^^^ (if i &&& 0x01 ≠ 0 then 0xC201 else 0)

/-- The table of overflow bytes. -/
def gfTab (i : Byte) : BitVec 16 := gfUint16Xor i

/-- The word before word `n`, shifted to the right, or zero before the first one. -/
def carryIn (n : Fin 4) (x : Units) (s : ℕ) : BitVec 32 := if n ≠ 0 then x.get (n - 1) >>> s else 0

/-- Word `n` of a block shifted by one bit. -/
def f1Lb (n : Fin 4) (x : Units) : BitVec 32 :=
  x.get n >>> 1 &&& ~~~mask 0x80 ||| (x.get n <<< 15 ||| carryIn n x 17) &&& mask 0x80

/-- Word `n` of a block shifted by four bits. -/
def f4Lb (n : Fin 4) (x : Units) : BitVec 32 :=
  x.get n >>> 4 &&& ~~~mask 0xF0 ||| (x.get n <<< 12 ||| carryIn n x 20) &&& mask 0xF0

/-- Word `n` of a block shifted by a byte. -/
def f8Lb (n : Fin 4) (x : Units) : BitVec 32 := x.get n <<< 8 ||| carryIn n x 24

/-- Compute the four words from the last to the first into another block. -/
def rep2D4 (f : Fin 4 → Units → BitVec 32) (x : Units) : Units := Vector.ofFn fun n => f n x

/-- Compute the four words from the last to the first in place. -/
def rep2D4InPlace (f : Fin 4 → Units → BitVec 32) (x : Units) : Units :=
  let x := put x 3 (f 3 x)
  let x := put x 2 (f 2 x)
  let x := put x 1 (f 1 x)
  put x 0 (f 0 x)

section Masks

/-- The bits of a byte are its coefficients. -/
theorem and_xBit_ne_zero (b : Byte) (i : Fin 8) : b &&& xBit i ≠ 0 ↔ b.getMsbD i = true := by
  have hmask : xBit i = BitVec.twoPow 8 (7 - i) := by fin_cases i <;> rfl
  have hne : BitVec.twoPow 8 (7 - i) ≠ 0#8 := by fin_cases i <;> decide
  rw [hmask, BitVec.and_twoPow, BitVec.getMsbD]
  simp [hne]

/-- The mask of the top bit of every byte. -/
theorem getLsbD_mask80 (i : ℕ) : (mask 0x80).getLsbD i = decide (i < 32 ∧ 8 - 1 ≤ i % 8) := by
  by_cases hi : i < 32
  · revert i
    decide
  · rw [BitVec.getLsbD_of_ge _ _ (by omega), decide_eq_false (by omega)]

/-- The mask of the top four bits of every byte. -/
theorem getLsbD_maskF0 (i : ℕ) : (mask 0xF0).getLsbD i = decide (i < 32 ∧ 8 - 4 ≤ i % 8) := by
  by_cases hi : i < 32
  · revert i
    decide
  · rw [BitVec.getLsbD_of_ge _ _ (by omega), decide_eq_false (by omega)]

/-- What the last byte of a word carries, when `M` selects the `s` highest bits of each byte. -/
theorem carryOut_eq {s : ℕ} (hs : s ≤ 8) {M : BitVec 32}
    (hM : ∀ i, M.getLsbD i = decide (i < 32 ∧ 8 - s ≤ i % 8)) (w : BitVec 32) :
    w >>> (16 + s) &&& M = (byteAt w 3 <<< (8 - s)).setWidth 32 := by
  apply BitVec.eq_of_getLsbD_eq
  intro i hi
  have hout : 32 ≤ 16 + s + i → w.getLsbD (16 + s + i) = false := BitVec.getLsbD_of_ge _ _
  simp only [BitVec.getLsbD_and, BitVec.getLsbD_ushiftRight, hM, BitVec.getLsbD_setWidth,
    BitVec.getLsbD_shiftLeft, byteAt]
  grind

/-- Shifting all bytes of a word, when `M` selects the `s` highest bits of each byte: a byte takes in
what the byte before it carries, the first one from the word before. -/
theorem byteAt_shifted {s : ℕ} (hs : s ≤ 8) {M : BitVec 32}
    (hM : ∀ i, M.getLsbD i = decide (i < 32 ∧ 8 - s ≤ i % 8)) (w before : BitVec 32) {k : ℕ}
    (hk : k < 4) :
    byteAt (w >>> s &&& ~~~M ||| (w <<< (16 - s) ||| before >>> (16 + s)) &&& M) k =
      byteAt w k >>> s ^^^ (if k = 0 then byteAt before 3 else byteAt w (k - 1)) <<< (8 - s) := by
  apply BitVec.eq_of_getLsbD_eq
  intro j hj
  have hout (v : BitVec 32) (i : ℕ) (hi : 32 ≤ i) : v.getLsbD i = false :=
    BitVec.getLsbD_of_ge _ _ hi
  obtain rfl | rfl | rfl | rfl : k = 0 ∨ k = 1 ∨ k = 2 ∨ k = 3 := by omega
  all_goals
    simp only [byteAt, BitVec.getLsbD_or, BitVec.getLsbD_and, BitVec.getLsbD_not, hM,
      BitVec.getLsbD_shiftLeft, BitVec.getLsbD_ushiftRight, BitVec.getLsbD_xor,
      BitVec.getLsbD_setWidth, if_true, if_false, OfNat.ofNat_ne_zero, one_ne_zero]
    grind

/-- All bits of a word are selected when whole bytes are shifted. -/
theorem getLsbD_allOnes_byte (i : ℕ) :
    (BitVec.allOnes 32).getLsbD i = decide (i < 32 ∧ 8 - 8 ≤ i % 8) := by
  simp only [BitVec.getLsbD_allOnes, Nat.sub_self, Nat.zero_le, and_true]

/-- The index of `gf_mulx1` into the table is what the last byte carries. -/
theorem mulx1Index_eq (w : BitVec 32) :
    w >>> 17 &&& mask 0x80 = (byteAt w 3 <<< (8 - 1)).setWidth 32 :=
  carryOut_eq (by decide) getLsbD_mask80 w

/-- The index of `gf_mulx4` into the table is what the last byte carries. -/
theorem mulx4Index_eq (w : BitVec 32) :
    w >>> 20 &&& mask 0xF0 = (byteAt w 3 <<< (8 - 4)).setWidth 32 :=
  carryOut_eq (by decide) getLsbD_maskF0 w

/-- The index of `gf_mulx8` into the table is the last byte. -/
theorem mulx8Index_eq (w : BitVec 32) : w >>> 24 = (byteAt w 3 <<< (8 - 8)).setWidth 32 := by
  have h := carryOut_eq (by decide) getLsbD_allOnes_byte w
  rwa [BitVec.and_allOnes] at h

/-- A word that is a byte is a valid index. -/
theorem index_lt {w : BitVec 32} {b : Byte} (h : w = b.setWidth 32) : w.toNat < 2 ^ 8 := by
  rw [h, BitVec.toNat_setWidth]
  exact lt_of_le_of_lt (Nat.mod_le _ _) b.isLt

/-- The entry at a valid index. -/
theorem ofNatLT_index {w : BitVec 32} {b : Byte} (h : w = b.setWidth 32) :
    BitVec.ofNatLT w.toNat (index_lt h) = b := by
  subst h
  apply BitVec.eq_of_toNat_eq
  rw [BitVec.toNat_ofNatLT, BitVec.toNat_setWidth, Nat.mod_eq_of_lt (by omega)]

end Masks

/-- Add a table entry to the first word. -/
def addOverflow (x : Units) (tt : BitVec 16) : Units := put x 0 (x.get 0 ^^^ tt.setWidth 32)

/-- Multiplication by `x`. -/
def gfMulx1Lb (x : Block) : Block :=
  let tt := gfTab (BitVec.ofNatLT _ (index_lt (mulx1Index_eq (unit x 3))))
  ofUnits (addOverflow (rep2D4 f1Lb (units x)) tt)

/-- Multiplication by `x ^ 4`. -/
def gfMulx4Lb (x : Block) : Block :=
  let tt := gfTab (BitVec.ofNatLT _ (index_lt (mulx4Index_eq (unit x 3))))
  ofUnits (addOverflow (rep2D4InPlace f4Lb (units x)) tt)

/-- Multiplication by `x ^ 8`. -/
def gfMulx8Lb (x : Block) : Block :=
  let tt := gfTab (BitVec.ofNatLT _ (index_lt (mulx8Index_eq (unit x 3))))
  ofUnits (addOverflow (rep2D4InPlace f8Lb (units x)) tt)

section Ring

/-- The polynomial of the field. -/
noncomputable def gcmPoly : (ZMod 2)[X] := X ^ 128 + X ^ 7 + X ^ 2 + X + 1

/-- The modulus has degree 128. -/
theorem gcmPoly_natDegree : gcmPoly.natDegree = 16 * 8 := by
  unfold gcmPoly
  compute_degree!

/-- The modulus is monic. -/
theorem gcmPoly_monic : gcmPoly.Monic := by
  unfold gcmPoly
  monicity!

/-- The ring in which blocks are added and multiplied. -/
abbrev GF128 := AdjoinRoot gcmPoly

/-- The modulus is no unit. -/
instance : Nontrivial GF128 :=
  AdjoinRoot.nontrivial gcmPoly (by
    rw [Polynomial.degree_eq_natDegree gcmPoly_monic.ne_zero, gcmPoly_natDegree]
    decide)

/-- The coefficients are bits. -/
instance : CharP GF128 2 :=
  charP_of_injective_algebraMap (algebraMap (ZMod 2) GF128).injective 2

/-- The element `x` of the ring. -/
noncomputable def gx : GF128 := AdjoinRoot.root gcmPoly

/-- The power of `x` behind the last coefficient. -/
theorem gx_pow_128 : gx ^ 128 = gx ^ 7 + gx ^ 2 + gx + 1 := by
  have hmk (p : (ZMod 2)[X]) (hp : p = X ^ 128 + X ^ 7 + X ^ 2 + X + 1) :
      AdjoinRoot.mk gcmPoly p = gx ^ 128 + (gx ^ 7 + gx ^ 2 + gx + 1) := by
    simp only [hp, map_add, map_pow, map_one, AdjoinRoot.mk_X, add_assoc, gx]
  have hself : AdjoinRoot.mk gcmPoly gcmPoly = 0 := AdjoinRoot.mk_self
  rw [hmk gcmPoly (by unfold gcmPoly; with_reducible rfl)] at hself
  exact CharTwo.add_eq_zero.mp hself

/-- The element of a block. -/
noncomputable def blockVal (b : Block) : GF128 := bytesVal gx b.get

/-- Every element is the element of exactly one block. -/
theorem blockVal_bijective : Function.Bijective blockVal := by
  have hget : Function.Bijective fun (b : Block) i => b.get i :=
    ⟨fun _ _ h => vector_ext (congrFun h), fun f => ⟨Vector.ofFn f, funext (get_ofFn f)⟩⟩
  exact (bytesVal_bijective gcmPoly_monic gcmPoly_natDegree).comp hget

/-- Every byte of the zero block is zero. -/
theorem get_zeroBlock (i : Fin 16) : zeroBlock.get i = 0#8 := Vector.getElem_replicate i.isLt

/-- The zero block stands for zero. -/
@[simp] theorem blockVal_zeroBlock : blockVal zeroBlock = 0 := by
  have hget : zeroBlock.get = fun _ => 0#8 := funext get_zeroBlock
  rw [blockVal, hget, bytesVal_zero]

/-- The exclusive or of blocks is the sum. -/
@[simp] theorem blockVal_xorBlock (p q : Block) :
    blockVal (xorBlock p q) = blockVal p + blockVal q := by
  have hget : (xorBlock p q).get = fun i => p.get i ^^^ q.get i := funext (get_ofFn _)
  rw [blockVal, hget, bytesVal_xor]
  rfl

/-- Both ways of combining blocks agree. -/
theorem xorBlockAligned_eq (p q : Block) : xorBlockAligned p q = xorBlock p q := by
  apply block_ext
  intro n k
  rw [xorBlockAligned, get_ofUnits, get_ofFn, byteAt_xor, byteAt_unit, byteAt_unit, xorBlock, get_ofFn]

/-- The aligned exclusive or of blocks is the sum of their elements. -/
@[simp] theorem blockVal_xorBlockAligned (p q : Block) :
    blockVal (xorBlockAligned p q) = blockVal p + blockVal q := by
  rw [xorBlockAligned_eq, blockVal_xorBlock]

/-- The element of two bytes, the first one in the lower half. -/
noncomputable def pairVal (v : BitVec 16) : GF128 :=
  byteVal gx (v.setWidth 8) + gx ^ 8 * byteVal gx ((v >>> 8).setWidth 8)

/-- The exclusive or of byte pairs is the sum of their elements. -/
theorem pairVal_xor (v w : BitVec 16) : pairVal (v ^^^ w) = pairVal v + pairVal w := by
  simp only [pairVal, BitVec.ushiftRight_xor_distrib, BitVec.setWidth_xor, byteVal_xor]
  ring

/-- The two bytes that stand for `x ^ (128 + i)`. -/
def overflowPair : Fin 8 → BitVec 16 :=
  ![0x00E1, 0x8070, 0x4038, 0x201C, 0x100E, 0x0807, 0x8403, 0xC201]

/-- The pair for bit `i` of the byte that is shifted out stands for that bit beyond the block. -/
theorem pairVal_overflowPair (i : Fin 8) : pairVal (overflowPair i) = gx ^ 128 * gx ^ (i : ℕ) := by
  rw [gx_pow_128]
  fin_cases i
  all_goals
    simp [overflowPair, pairVal, byteVal, bitsVal, Finset.sum_range_succ]
    ring

/-- One summand of a table entry. -/
theorem pairVal_ite (b : Byte) (i : Fin 8) :
    pairVal (if b &&& xBit i ≠ 0 then overflowPair i else 0) =
      gx ^ 128 * if b.getMsbD i then gx ^ (i : ℕ) else 0 := by
  simp only [and_xBit_ne_zero]
  split
  · rw [pairVal_overflowPair]
  · simp [pairVal]

/-- A table entry is the overflow byte times the power of `x` behind the last coefficient. -/
theorem pairVal_gfTab (b : Byte) : pairVal (gfTab b) = gx ^ 128 * byteVal gx b := by
  rw [byteVal, bitsVal, Finset.sum_range, Finset.mul_sum,
    ← Finset.sum_congr rfl fun i _ => pairVal_ite b i]
  simp only [gfTab, gfUint16Xor, pairVal_xor, Fin.sum_univ_eight]
  rfl

end Ring

section Shifts

/-- The words of `x` shifted by `s` bits, as the three macros compute them. -/
def Shifted (s : ℕ) (x : Block) (r : Units) : Prop :=
  ∀ n k : Fin 4, byteAt (r.get n) k = x.get (unitIx n k) >>> s ^^^
    (if k = 0 then if n = 0 then 0 else x.get (unitIx (n - 1) 3) else x.get (unitIx n (k - 1))) <<<
      (8 - s)

/-- Words shifted under a mask that selects the `s` highest bits of each byte. -/
theorem shifted_of_mask {s : ℕ} (hs : s ≤ 8) {M : BitVec 32}
    (hM : ∀ i, M.getLsbD i = decide (i < 32 ∧ 8 - s ≤ i % 8)) {x : Block} {r : Units}
    (hr : ∀ n, r.get n = unit x n >>> s &&& ~~~M |||
      (unit x n <<< (16 - s) ||| carryIn n (units x) (16 + s)) &&& M) : Shifted s x r := by
  intro n k
  have hcarry : carryIn n (units x) (16 + s) = (if n = 0 then 0 else unit x (n - 1)) >>> (16 + s) := by
    by_cases hn : n = 0 <;> simp [carryIn, hn]
  rw [hr, hcarry, byteAt_shifted hs hM _ _ k.isLt, byteAt_unit]
  congr 2
  by_cases hk : k = 0
  · have hval : (k : ℕ) = 0 := by rw [hk]; rfl
    rw [if_pos hval, if_pos hk]
    split
    · exact byteAt_zero 3
    · exact byteAt_unit x (n - 1) 3
  · have hval : (k : ℕ) ≠ 0 := fun h => hk (Fin.ext h)
    have hpred : (k : ℕ) - 1 = (k - 1 : Fin 4) := by omega
    rw [if_neg hval, if_neg hk, hpred, byteAt_unit]

/-- The place before a place, word by word. -/
theorem exists_unitIx_succ (j : Fin 15) : ∃ n k : Fin 4, j.succ = unitIx n k ∧
    (k = 0 → n ≠ 0 ∧ unitIx (n - 1) 3 = j.castSucc) ∧
      (k ≠ 0 → unitIx n (k - 1) = j.castSucc) := by
  revert j
  decide

/-- The shifted block stands for the product less what the last byte carries. -/
theorem blockVal_shifted {s : ℕ} (hs : s ≤ 8) {x : Block} {r : Units} (hr : Shifted s x r) :
    gx ^ s * blockVal x = blockVal (ofUnits r) + gx ^ 128 * byteVal gx (x.get 15 <<< (8 - s)) := by
  refine bytesVal_shift gx hs x.get (ofUnits r).get ?_ fun j => ?_
  · have hfirst := hr 0 0
    simp only [if_true, BitVec.ofNat_eq_ofNat, BitVec.zero_shiftLeft, BitVec.xor_zero] at hfirst
    exact (get_ofUnits r 0 0).trans hfirst
  · obtain ⟨n, k, hj, hword, hbyte⟩ := exists_unitIx_succ j
    rw [hj, get_ofUnits, hr]
    congr 2
    by_cases hk : k = 0
    · rw [if_pos hk, if_neg (hword hk).1, (hword hk).2]
    · rw [if_neg hk, hbyte hk]

/-- A table entry by itself, in the first word. -/
def overflowUnits (tt : BitVec 16) : Units := Vector.ofFn fun n => if n = 0 then tt.setWidth 32 else 0#32

/-- A table entry by itself fills the first two bytes of a block. -/
theorem blockVal_overflowUnits (tt : BitVec 16) :
    blockVal (ofUnits (overflowUnits tt)) = pairVal tt := by
  have hlow : (ofUnits (overflowUnits tt)).get 0 = tt.setWidth 8 := by
    refine (get_ofUnits _ 0 0).trans ?_
    simp [overflowUnits, byteAt]
  have hhigh : (ofUnits (overflowUnits tt)).get 1 = (tt >>> 8).setWidth 8 := by
    refine (get_ofUnits _ 0 1).trans ?_
    apply BitVec.eq_of_getLsbD_eq
    intro j hj
    simp [overflowUnits, byteAt, hj]
    omega
  have hrest (j : Fin 14) : (ofUnits (overflowUnits tt)).get j.succ.succ = 0#8 := by
    have hplace : ∃ n k : Fin 4, j.succ.succ = unitIx n k ∧ (n = 0 → 2 ≤ k.val) := by
      revert j
      decide
    obtain ⟨n, k, hj, hk⟩ := hplace
    rw [hj, get_ofUnits, overflowUnits, get_ofFn]
    split
    next hn =>
      have hout := hk hn
      rw [byteAt]
      apply BitVec.eq_of_getLsbD_eq
      intro i hi
      have hzero : tt.getLsbD (8 * k + i) = false := BitVec.getLsbD_of_ge _ _ (by omega)
      simp [hzero]
    · exact byteAt_zero k
  rw [blockVal, bytesVal, Fin.sum_univ_succ, Fin.sum_univ_succ, Finset.sum_eq_zero, add_zero, pairVal,
    ← hlow, ← hhigh]
  · rw [Fin.val_zero, Nat.mul_zero, pow_zero, one_mul]
    rfl
  · intro j _
    rw [hrest, byteVal_zero, mul_zero]

/-- A table entry is added to the first two bytes. -/
theorem blockVal_addOverflow (r : Units) (tt : BitVec 16) :
    blockVal (ofUnits (addOverflow r tt)) = blockVal (ofUnits r) + pairVal tt := by
  have hsplit : ofUnits (addOverflow r tt) = xorBlock (ofUnits r) (ofUnits (overflowUnits tt)) := by
    apply block_ext
    intro n k
    rw [xorBlock, get_ofFn, get_ofUnits, get_ofUnits, get_ofUnits, addOverflow, get_put, overflowUnits,
      get_ofFn]
    split
    next hn => rw [hn, byteAt_xor]
    · rw [byteAt_zero, BitVec.xor_zero]
  rw [hsplit, blockVal_xorBlock, blockVal_overflowUnits]

/-- Words shifted by `s` bits with the table entry of what the last byte carries are the product by
`x ^ s`. -/
theorem blockVal_mulx {s : ℕ} (hs : s ≤ 8) {x : Block} {r : Units} (hr : Shifted s x r) :
    blockVal (ofUnits (addOverflow r (gfTab (x.get 15 <<< (8 - s))))) = gx ^ s * blockVal x := by
  rw [blockVal_addOverflow, pairVal_gfTab, blockVal_shifted hs hr]

/-- Computing the words in place from the last to the first reads the old words only. -/
theorem get_rep2D4InPlace {f : Fin 4 → Units → BitVec 32}
    (hf : ∀ n x y, (∀ m ≤ n, x.get m = y.get m) → f n x = f n y) (x : Units) (n : Fin 4) :
    (rep2D4InPlace f x).get n = f n x := by
  have hskip (x : Units) (v : BitVec 32) {m n : Fin 4} (hmn : m < n) : f m (put x n v) = f m x := by
    refine hf m _ _ fun k hk => ?_
    rw [get_put, if_neg (ne_of_lt (lt_of_le_of_lt hk hmn))]
  fin_cases n
  all_goals simp [rep2D4InPlace, hskip]

/-- A word is computed from itself and the word before it. -/
theorem carryIn_congr {n : Fin 4} {x y : Units} (h : ∀ m ≤ n, x.get m = y.get m) (s : ℕ) :
    carryIn n x s = carryIn n y s := by
  rw [carryIn, carryIn]
  split
  next hn => rw [h (n - 1) (by omega)]
  · rfl

/-- The shift by one bit multiplies by the generator. -/
@[simp] theorem blockVal_gfMulx1Lb (x : Block) : blockVal (gfMulx1Lb x) = gx * blockVal x := by
  have hr : Shifted 1 x (rep2D4 f1Lb (units x)) :=
    shifted_of_mask (by decide) getLsbD_mask80 fun n => by
      rw [rep2D4, get_ofFn, f1Lb, get_units]
  have hlast : byteAt (unit x 3) 3 = x.get 15 := byteAt_unit x 3 3
  rw [gfMulx1Lb, ofNatLT_index (mulx1Index_eq (unit x 3)), hlast]
  exact (blockVal_mulx (by decide) hr).trans (by rw [pow_one])

/-- The shift by four bits multiplies by the fourth power of the generator. -/
@[simp] theorem blockVal_gfMulx4Lb (x : Block) : blockVal (gfMulx4Lb x) = gx ^ 4 * blockVal x := by
  have hwords (n : Fin 4) : (rep2D4InPlace f4Lb (units x)).get n = f4Lb n (units x) := by
    refine get_rep2D4InPlace (fun n x y h => ?_) _ n
    rw [f4Lb, f4Lb, h n le_rfl, carryIn_congr h]
  have hr : Shifted 4 x (rep2D4InPlace f4Lb (units x)) :=
    shifted_of_mask (by decide) getLsbD_maskF0 fun n => by rw [hwords, f4Lb, get_units]
  have hlast : byteAt (unit x 3) 3 = x.get 15 := byteAt_unit x 3 3
  rw [gfMulx4Lb, ofNatLT_index (mulx4Index_eq (unit x 3)), hlast]
  exact blockVal_mulx (by decide) hr

/-- The shift by a byte multiplies by the eighth power of the generator. -/
@[simp] theorem blockVal_gfMulx8Lb (x : Block) : blockVal (gfMulx8Lb x) = gx ^ 8 * blockVal x := by
  have hwords (n : Fin 4) : (rep2D4InPlace f8Lb (units x)).get n = f8Lb n (units x) := by
    refine get_rep2D4InPlace (fun n x y h => ?_) _ n
    rw [f8Lb, f8Lb, h n le_rfl, carryIn_congr h]
  have hr : Shifted 8 x (rep2D4InPlace f8Lb (units x)) :=
    shifted_of_mask le_rfl getLsbD_allOnes_byte fun n => by
      rw [hwords, BitVec.not_allOnes, BitVec.and_zero, BitVec.zero_or, BitVec.and_allOnes, f8Lb,
        get_units]
  have hlast : byteAt (unit x 3) 3 = x.get 15 := byteAt_unit x 3 3
  rw [gfMulx8Lb, ofNatLT_index (mulx8Index_eq (unit x 3)), hlast]
  exact blockVal_mulx le_rfl hr

end Shifts

end CamkesVm.Aeslib
