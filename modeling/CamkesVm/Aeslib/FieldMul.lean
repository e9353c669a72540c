import CamkesVm.Aeslib.Field
import CamkesVm.Machine.LinearTable

/-!
# The field multipliers

The model of `gf128mul.c`: the plain multiplier, and the multiplier by a fixed element with a table
of the products of that element and every byte. Both are the product of the ring, so that they are
the same function of the blocks, and the table may replace the plain multiplier anywhere.
-/

namespace CamkesVm.Aeslib

open CamkesVm.Machine

/-- Add the products of `p` by the coefficients of a byte to the accumulator. -/
def addRow (ch : Byte) (p : Fin 8 → Block) (a : Block) : Block :=
  (List.finRange 8).foldl (fun a k => if ch &&& xBit k ≠ 0 then xorBlockAligned a (p k) else a) a

/-- The plain multiplier, which overwrites its first argument. The second one is absent when it is
the same buffer. -/
def gfMulTMD (a : Block) (b : Option Block) : Block :=
  let p := fun k : Fin 8 => gfMulx1Lb^[k] a
  let q := b.getD (p 0)
  addRow (q.get 0) p
    (Fin.foldr 15 (fun i a => gfMulx8Lb (addRow (q.get i.succ) p a)) zeroBlock)

/-- Fill a table of the products of `g` and the numbers of `n` bits. -/
def initTable (n : ℕ) (g : Block) (t : Table Block) : Table Block :=
  let t := t.put 0 zeroBlock
  let t := t.put (2 ^ (n - 1)) g
  combineTable xorBlockAligned n (halveIndex gfMulx1Lb (n - 1) t)

/-- The table of the products by a byte. -/
def init4kTable (g : Block) (t : Table Block) : Table Block := initTable 8 g t

/-- The table of the products by half a byte. -/
def init256Table (g : Block) (t : Table Block) : Table Block := initTable 4 g t

/-- Fill a row whose entries are those of another row times `x ^ 8`. -/
def nextRow (n : ℕ) (below row : Table Block) : Table Block :=
  let row := row.put 0 zeroBlock
  combineTable xorBlockAligned n
    ((List.range n).reverse.foldl
      (fun row e => row.put (2 ^ e) (gfMulx8Lb (below.get (2 ^ e)))) row)

/-- The rows of the products by a byte in each of the sixteen places. -/
def init64kTable (g : Block) (t : ℕ → Table Block) : ℕ → Table Block
  | 0 => initTable 8 g (t 0)
  | i + 1 => nextRow 8 (init64kTable g t i) (t (i + 1))

/-- The rows of the products by half a byte in each of the 32 places. The second row is the first
one to be set up. -/
def init8kTable (g : Block) (t : ℕ → Table Block) : ℕ → Table Block
  | 0 =>
    let first := halveIndex gfMulx1Lb 3 (((t 1).put 0 zeroBlock).put 8 g)
    initTable 4 (gfMulx1Lb (first.get 1)) (t 0)
  | 1 => initTable 4 g (t 1)
  | i + 2 => nextRow 4 (init8kTable g t i) (t (i + 2))

/-- The multiplier with a table of the products by a byte. -/
def gfMul4k (a : Block) (t : Table Block) : Block :=
  Fin.foldr 16 (fun i r => xorBlockAligned (gfMulx8Lb r) (t.get (a.get i).toNat)) zeroBlock

/-- The multiplier with a table of the products by half a byte. -/
def gfMul256 (a : Block) (t : Table Block) : Block :=
  Fin.foldr 16 (fun i r =>
    let r := xorBlockAligned (gfMulx4Lb r) (t.get (a.get i &&& 0x0F).toNat)
    xorBlockAligned (gfMulx4Lb r) (t.get (a.get i >>> 4).toNat)) zeroBlock

/-- The multiplier with a row for each byte. -/
def gfMul64k (a : Block) (t : ℕ → Table Block) : Block :=
  Fin.foldr 16 (fun i r => xorBlockAligned r ((t i).get (a.get i).toNat)) zeroBlock

/-- The multiplier with a row for each half of a byte. -/
def gfMul8k (a : Block) (t : ℕ → Table Block) : Block :=
  Fin.foldr 16 (fun i r =>
    let r := xorBlockAligned r ((t (i + i)).get (a.get i &&& 15).toNat)
    xorBlockAligned r ((t (i + i + 1)).get (a.get i >>> 4).toNat)) zeroBlock

/-- Repeated shifts by one bit multiply by the power. -/
theorem blockVal_iterate_gfMulx1Lb (n : ℕ) (a : Block) :
    blockVal (gfMulx1Lb^[n] a) = gx ^ n * blockVal a := by
  induction n with
  | zero => simp
  | succ n ih => rw [Function.iterate_succ_apply', blockVal_gfMulx1Lb, ih, pow_succ', mul_assoc]

/-- A row adds the product by a byte. -/
theorem blockVal_addRow (ch : Byte) {p : Fin 8 → Block} {v : GF128}
    (hp : ∀ k, blockVal (p k) = gx ^ (k : ℕ) * v) (a : Block) :
    blockVal (addRow ch p a) = blockVal a + byteVal gx ch * v := by
  have hfold (ks : List (Fin 8)) (a : Block) :
      blockVal (ks.foldl (fun a k => if ch &&& xBit k ≠ 0 then xorBlockAligned a (p k) else a) a) =
        blockVal a + (ks.map fun k : Fin 8 => if ch.getMsbD k then gx ^ (k : ℕ) * v else 0).sum := by
    induction ks generalizing a with
    | nil => simp
    | cons k ks ih =>
      rw [List.foldl_cons, ih, List.map_cons, List.sum_cons, ← add_assoc]
      simp only [and_xBit_ne_zero]
      split
      · rw [blockVal_xorBlockAligned, hp]
      · rw [add_zero]
  rw [addRow, hfold, ← Fin.sum_univ_def, byteVal, bitsVal, Finset.sum_range, Finset.sum_mul]
  simp only [ite_mul, zero_mul]

/-- The plain multiplier is the product of the ring. -/
theorem blockVal_gfMulTMD (a : Block) (b : Option Block) :
    blockVal (gfMulTMD a b) = blockVal a * blockVal (b.getD a) := by
  have hp (k : Fin 8) : blockVal (gfMulx1Lb^[k] a) = gx ^ (k : ℕ) * blockVal a :=
    blockVal_iterate_gfMulx1Lb k a
  have hstep (i : Fin 15) (r : Block) :
      blockVal (gfMulx8Lb (addRow ((b.getD a).get i.succ) (fun k : Fin 8 => gfMulx1Lb^[k] a) r)) =
        gx ^ 8 * blockVal r + gx ^ 8 * (byteVal gx ((b.getD a).get i.succ) * blockVal a) := by
    rw [blockVal_gfMulx8Lb, blockVal_addRow _ hp, mul_add]
  have hterm (i : Fin 15) :
      (gx ^ 8) ^ (i : ℕ) * (gx ^ 8 * (byteVal gx ((b.getD a).get i.succ) * blockVal a)) =
        gx ^ (8 * (i.succ : ℕ)) * byteVal gx ((b.getD a).get i.succ) * blockVal a := by
    rw [← mul_assoc, ← pow_succ, ← pow_mul, Fin.val_succ, mul_assoc]
  have hsum (q : Block) : blockVal q = ∑ j : Fin 16, gx ^ (8 * (j : ℕ)) * byteVal gx (q.get j) := rfl
  rw [mul_comm (blockVal a), hsum (b.getD a), Finset.sum_mul, Fin.sum_univ_succ,
    ← Finset.sum_congr rfl fun i _ => hterm i, Fin.val_zero, Nat.mul_zero, pow_zero, one_mul]
  dsimp only [gfMulTMD]
  rw [blockVal_addRow _ hp, add_comm]
  refine congrArg _ ?_
  refine (foldr_horner blockVal (gx ^ 8) _ _ hstep zeroBlock).trans ?_
  rw [blockVal_zeroBlock, mul_zero, zero_add]

section Tables

/-- A table is right when entry `i` is the product of `v` and the number `i` of `n` bits. -/
def Tabulates (n : ℕ) (v : GF128) (t : Table Block) : Prop :=
  ∀ i < 2 ^ n, blockVal (t.get i) = indexVal gx n i * v

/-- A table whose entries at zero and at the powers of two are right is right once combined. -/
theorem tabulates_combineTable {n : ℕ} {v : GF128} {t : Table Block} (hzero : blockVal (t.get 0) = 0)
    (hpow : ∀ e < n, blockVal (t.get (2 ^ e)) = indexVal gx n (2 ^ e) * v) :
    Tabulates n v (combineTable xorBlockAligned n t) := by
  intro i hi
  refine get_combineTable xorBlockAligned blockVal (fun i => indexVal gx n i * v)
    blockVal_xorBlockAligned (fun e k hk => ?_) n t ?_ hpow hi
  · rw [indexVal_two_pow_add gx n e k hk, add_mul]
  · rw [hzero, indexVal_zero, zero_mul]

/-- The filled table holds the multiples of the block by the indices of `n` bits. -/
theorem initTable_tabulates {n : ℕ} (hn : 0 < n) (g : Block) (t : Table Block) :
    Tabulates n (blockVal g) (initTable n g t) := by
  have hpos (e : ℕ) : 0 ≠ 2 ^ e := (Nat.two_pow_pos e).ne
  refine tabulates_combineTable ?_ fun e he => ?_
  · rw [halveIndex_of_ne _ _ _ fun e _ => hpos e, Table.get_put_of_ne _ (hpos _), Table.get_put_self,
      blockVal_zeroBlock]
  · have hsplit : n - 1 - e + e = n - 1 := by omega
    rw [halveIndex_pow _ _ _ _ _ hsplit, Table.get_put_self, blockVal_iterate_gfMulx1Lb,
      indexVal_two_pow gx (d := n - 1 - e) (by omega)]

/-- The row made from the one below tabulates the value times the eighth power of the generator. -/
theorem nextRow_tabulates {n : ℕ} {v : GF128} {below : Table Block} (hbelow : Tabulates n v below)
    (row : Table Block) : Tabulates n (gx ^ 8 * v) (nextRow n below row) := by
  have hfold (es : List ℕ) (t : Table Block) (i : ℕ) :
      (es.foldl (fun row e => row.put (2 ^ e) (gfMulx8Lb (below.get (2 ^ e)))) t).get i =
        if ∃ e ∈ es, i = 2 ^ e then gfMulx8Lb (below.get i) else t.get i := by
    induction es generalizing t with
    | nil => simp
    | cons e es ih =>
      rw [List.foldl_cons, ih]
      by_cases hi : i = 2 ^ e
      · simp [hi, Table.get_put_self]
      · simp [hi, Table.get_put_of_ne]
  refine tabulates_combineTable ?_ fun e he => ?_
  · rw [hfold, if_neg, Table.get_put_self, blockVal_zeroBlock]
    rintro ⟨e, -, he⟩
    exact (Nat.two_pow_pos e).ne he
  · rw [hfold, if_pos ⟨e, by simpa using he, rfl⟩, blockVal_gfMulx8Lb,
      hbelow _ (Nat.pow_lt_pow_right (by decide) he)]
    ring

/-- Row `i` of the largest table tabulates byte `i` of a block. -/
theorem init64kTable_tabulates (g : Block) (t : ℕ → Table Block) (i : ℕ) :
    Tabulates 8 (gx ^ (8 * i) * blockVal g) (init64kTable g t i) := by
  induction i with
  | zero =>
    rw [Nat.mul_zero, pow_zero, one_mul]
    exact initTable_tabulates (by decide) g (t 0)
  | succ i ih =>
    rw [Nat.mul_succ, Nat.add_comm, pow_add, mul_assoc]
    exact nextRow_tabulates ih _

/-- The rows of the halves of byte `i`, the second half first. -/
theorem init8kTable_tabulates (g : Block) (t : ℕ → Table Block) (i : ℕ) :
    Tabulates 4 (gx ^ (8 * i + 4) * blockVal g) (init8kTable g t (i + i)) ∧
      Tabulates 4 (gx ^ (8 * i) * blockVal g) (init8kTable g t (i + i + 1)) := by
  induction i with
  | zero =>
    constructor
    · have hfirst : blockVal (gfMulx1Lb ((halveIndex gfMulx1Lb 3
          (((t 1).put 0 zeroBlock).put 8 g)).get 1)) = gx ^ 4 * blockVal g := by
        have hone := halveIndex_pow gfMulx1Lb 3 (((t 1).put 0 zeroBlock).put 8 g) 3 0 rfl
        rw [pow_zero] at hone
        rw [hone, blockVal_gfMulx1Lb, blockVal_iterate_gfMulx1Lb, ← mul_assoc, ← pow_succ']
        rfl
      have hrow := initTable_tabulates (n := 4) (by decide) (gfMulx1Lb ((halveIndex gfMulx1Lb 3
        (((t 1).put 0 zeroBlock).put 8 g)).get 1)) (t 0)
      rw [hfirst] at hrow
      exact hrow
    · rw [Nat.mul_zero, pow_zero, one_mul]
      exact initTable_tabulates (by decide) g (t 1)
  | succ i ih =>
    have hsucc : i + 1 + (i + 1) = i + i + 2 := by omega
    have hpow (k : ℕ) : gx ^ (8 * (i + 1) + k) = gx ^ 8 * gx ^ (8 * i + k) := by
      rw [← pow_add]
      congr 1
      omega
    rw [hsucc, hpow, mul_assoc, ← Nat.add_zero (8 * (i + 1)), hpow, mul_assoc]
    exact ⟨nextRow_tabulates ih.1 _, nextRow_tabulates ih.2 _⟩

end Tables

section Multipliers

/-- A byte as its two halves. -/
theorem byteVal_halves (b : Byte) :
    byteVal gx b = indexVal gx 4 (b >>> 4).toNat + gx ^ 4 * indexVal gx 4 (b &&& 0x0F).toNat := by
  have hhigh : indexVal gx 4 (b >>> 4).toNat = bitsVal gx 4 b.getMsbD := by
    apply bitsVal_congr
    intro i hi
    have hplace : 8 - 1 - i = 4 + (4 - 1 - i) := by omega
    rw [BitVec.testBit_toNat, BitVec.getLsbD_ushiftRight, BitVec.getMsbD, hplace,
      decide_eq_true (by omega : i < 8), Bool.true_and]
  have hlow : indexVal gx 4 (b &&& 0x0F).toNat = bitsVal gx 4 fun i => b.getMsbD (4 + i) := by
    have hmask (i : ℕ) (hi : i < 4) : (0x0F : Byte).getLsbD i = true := by
      revert i
      decide
    apply bitsVal_congr
    intro i hi
    have hplace : 8 - 1 - (4 + i) = 4 - 1 - i := by omega
    rw [BitVec.testBit_toNat, BitVec.getLsbD_and, hmask _ (by omega), Bool.and_true, BitVec.getMsbD,
      hplace, decide_eq_true (by omega : 4 + i < 8), Bool.true_and]
  rw [hhigh, hlow]
  exact bitsVal_add gx 4 4 b.getMsbD

/-- The entries of a table of bytes. -/
theorem Tabulates.byte {v : GF128} {t : Table Block} (h : Tabulates 8 v t) (b : Byte) :
    blockVal (t.get b.toNat) = byteVal gx b * v := by
  rw [h _ b.isLt, indexVal_toNat]

/-- The entries of a table of half bytes. -/
theorem Tabulates.high {v : GF128} {t : Table Block} (h : Tabulates 4 v t) (b : Byte) :
    blockVal (t.get (b >>> 4).toNat) = indexVal gx 4 (b >>> 4).toNat * v := by
  apply h
  rw [BitVec.toNat_ushiftRight, Nat.shiftRight_eq_div_pow]
  omega

/-- An entry at the low half of a byte. -/
theorem Tabulates.low {v : GF128} {t : Table Block} (h : Tabulates 4 v t) (b : Byte) :
    blockVal (t.get (b &&& 0x0F).toNat) = indexVal gx 4 (b &&& 0x0F).toNat * v := by
  apply h
  rw [BitVec.toNat_and]
  exact lt_of_le_of_lt Nat.and_le_right (by decide)

/-- A multiplier that adds up the products of the bytes in their places. -/
theorem blockVal_foldr {step : Fin 16 → Block → Block} {w : Fin 16 → GF128}
    (hstep : ∀ i r, blockVal (step i r) = blockVal r + w i) :
    blockVal (Fin.foldr 16 step zeroBlock) = ∑ i, w i := by
  rw [foldr_horner blockVal 1 w step fun i r => by rw [hstep, one_mul]]
  simp

/-- A multiplier that multiplies by `x ^ 8` before it adds the product of a byte. -/
theorem blockVal_foldr_shift {step : Fin 16 → Block → Block} {a : Block} {v : GF128}
    (hstep : ∀ i r, blockVal (step i r) = gx ^ 8 * blockVal r + byteVal gx (a.get i) * v) :
    blockVal (Fin.foldr 16 step zeroBlock) = blockVal a * v := by
  have hterm (i : Fin 16) : (gx ^ 8) ^ (i : ℕ) * (byteVal gx (a.get i) * v) =
      gx ^ (8 * (i : ℕ)) * byteVal gx (a.get i) * v := by
    rw [← pow_mul, mul_assoc]
  rw [foldr_horner blockVal (gx ^ 8) _ _ hstep, blockVal_zeroBlock, mul_zero, zero_add,
    Finset.sum_congr rfl fun i _ => hterm i, ← Finset.sum_mul]
  rfl

/-- The product through a table of 256 entries. -/
theorem blockVal_gfMul4k (a : Block) {t : Table Block} {v : GF128} (ht : Tabulates 8 v t) :
    blockVal (gfMul4k a t) = blockVal a * v := by
  refine blockVal_foldr_shift fun i r => ?_
  rw [blockVal_xorBlockAligned, blockVal_gfMulx8Lb, ht.byte]

/-- The product through a table of 16 entries. -/
theorem blockVal_gfMul256 (a : Block) {t : Table Block} {v : GF128} (ht : Tabulates 4 v t) :
    blockVal (gfMul256 a t) = blockVal a * v := by
  refine blockVal_foldr_shift fun i r => ?_
  simp only [blockVal_xorBlockAligned, blockVal_gfMulx4Lb, ht.low, ht.high, byteVal_halves (a.get i)]
  ring

/-- The product through one table for each byte. -/
theorem blockVal_gfMul64k (a : Block) {t : ℕ → Table Block} {v : GF128}
    (ht : ∀ i : Fin 16, Tabulates 8 (gx ^ (8 * (i : ℕ)) * v) (t i)) :
    blockVal (gfMul64k a t) = blockVal a * v := by
  rw [gfMul64k, blockVal_foldr fun i r => by rw [blockVal_xorBlockAligned, (ht i).byte]]
  rw [blockVal, bytesVal, Finset.sum_mul]
  apply Finset.sum_congr rfl
  intro i _
  ring

/-- The product through one table for each half byte. -/
theorem blockVal_gfMul8k (a : Block) {t : ℕ → Table Block} {v : GF128}
    (ht : ∀ i : Fin 16, Tabulates 4 (gx ^ (8 * (i : ℕ) + 4) * v) (t (i + i)) ∧
      Tabulates 4 (gx ^ (8 * (i : ℕ)) * v) (t (i + i + 1))) :
    blockVal (gfMul8k a t) = blockVal a * v := by
  have hstep (i : Fin 16) (r : Block) :
      blockVal (xorBlockAligned (xorBlockAligned r ((t (i + i)).get (a.get i &&& 15).toNat))
        ((t (i + i + 1)).get (a.get i >>> 4).toNat)) =
        blockVal r + gx ^ (8 * (i : ℕ)) * byteVal gx (a.get i) * v := by
    rw [blockVal_xorBlockAligned, blockVal_xorBlockAligned, (ht i).1.low, (ht i).2.high,
      byteVal_halves, pow_add]
    ring
  rw [gfMul8k]
  refine (blockVal_foldr hstep).trans ?_
  rw [← Finset.sum_mul]
  rfl

/-- The plain multiplier and those over every table size give the product of the field, whatever the
table held before. So they agree, since a block is determined by its value. -/
theorem multipliers_give_product (a g : Block) (t : Table Block) (tt : ℕ → Table Block) :
    blockVal (gfMulTMD a (some g)) = blockVal a * blockVal g ∧
      blockVal (gfMul4k a (init4kTable g t)) = blockVal a * blockVal g ∧
      blockVal (gfMul256 a (init256Table g t)) = blockVal a * blockVal g ∧
      blockVal (gfMul64k a (init64kTable g tt)) = blockVal a * blockVal g ∧
      blockVal (gfMul8k a (init8kTable g tt)) = blockVal a * blockVal g ∧
      Function.Bijective blockVal := by
  refine ⟨blockVal_gfMulTMD a (some g), ?_, ?_, ?_, ?_, blockVal_bijective⟩
  · exact blockVal_gfMul4k a (initTable_tabulates (by decide) g t)
  · exact blockVal_gfMul256 a (initTable_tabulates (by decide) g t)
  · exact blockVal_gfMul64k a fun i => init64kTable_tabulates g tt i
  · exact blockVal_gfMul8k a fun i => init8kTable_tabulates g tt i

end Multipliers

end CamkesVm.Aeslib
