import CamkesVm.Aeslib.Field
import CamkesVm.Machine.BigEndian
import Mathlib.Data.List.GetD

/-!
# The Galois counter mode of the standard

The mode for an arbitrary block cipher, on byte strings. The hash is the value of a polynomial at the
hash key, with the blocks of the header, of the ciphertext and of their lengths as coefficients. The
counter stream encrypts successive counter blocks from the one behind the first, which the tag uses.

Messages with different initialisation vectors of twelve bytes have no counter block in common.
-/

namespace CamkesVm.Aeslib

open CamkesVm.Machine

section Hash

/-- The block of an element of the field. -/
noncomputable def valBlock : GF128 → Block := Function.surjInv blockVal_bijective.2

/-- The block of an element stands for it. -/
@[simp] theorem blockVal_valBlock (v : GF128) : blockVal (valBlock v) = v :=
  Function.surjInv_eq blockVal_bijective.2 v

/-- A block is that of an element when it has its value. -/
theorem eq_valBlock {b : Block} {v : GF128} (h : blockVal b = v) : b = valBlock v :=
  blockVal_bijective.1 (h.trans (blockVal_valBlock v).symm)

/-- Block `k` of a byte string, with zeros behind its end. -/
def padBlock (data : List Byte) (k : ℕ) : Block := listBlock (data.drop (16 * k))

/-- The bytes of a padded block, zero behind the data. -/
theorem get_padBlock (data : List Byte) (k : ℕ) (i : Fin 16) :
    (padBlock data k).get i = data.getD (16 * k + i) 0 := by
  rw [padBlock, listBlock, get_ofFn, List.getD_eq_getElem?_getD, List.getElem?_drop,
    List.getD_eq_getElem?_getD]

/-- Blocks behind the end are zero. -/
theorem padBlock_of_le {data : List Byte} {k : ℕ} (hk : data.length ≤ 16 * k) :
    padBlock data k = zeroBlock := by
  apply vector_ext
  intro i
  rw [get_padBlock, List.getD_eq_default _ _ (by omega), get_zeroBlock]
  rfl

/-- The block with a single byte. -/
def byteBlock (i : Fin 16) (b : Byte) : Block := put zeroBlock i b

/-- A byte added to a block. -/
theorem put_xor_eq (g : Block) (i : Fin 16) (b : Byte) :
    put g i (g.get i ^^^ b) = xorBlock g (byteBlock i b) := by
  apply vector_ext
  intro j
  rw [get_put, xorBlock, get_ofFn, byteBlock, get_put]
  split_ifs with hj
  · rw [hj]
  · rw [get_zeroBlock]
    exact BitVec.xor_zero.symm

/-- Blocks before the end are not changed by a further byte. -/
theorem padBlock_concat_of_lt {data : List Byte} {k : ℕ} (hk : k < data.length / 16) (b : Byte) :
    padBlock (data ++ [b]) k = padBlock data k := by
  apply vector_ext
  intro i
  rw [get_padBlock, get_padBlock, List.getD_append _ _ _ _ (by omega)]

/-- A further byte is added to the block at the end. -/
theorem padBlock_concat (data : List Byte) (b : Byte) :
    padBlock (data ++ [b]) (data.length / 16) =
      xorBlock (padBlock data (data.length / 16)) (byteBlock (place data.length) b) := by
  have hplace : (place data.length : ℕ) = data.length % 16 := rfl
  apply vector_ext
  intro i
  rw [xorBlock, get_ofFn, get_padBlock, get_padBlock, byteBlock, get_put]
  obtain hlt | heq | hgt := Nat.lt_trichotomy i (data.length % 16)
  · rw [if_neg (by rw [Fin.ext_iff]; omega), get_zeroBlock, List.getD_append _ _ _ _ (by omega)]
    exact BitVec.xor_zero.symm
  · have hend : 16 * (data.length / 16) + i = data.length := by omega
    rw [if_pos (Fin.ext heq), hend, List.getD_append_right _ _ _ _ le_rfl, Nat.sub_self,
      List.getD_eq_default _ _ le_rfl]
    exact BitVec.zero_xor.symm
  · rw [if_neg (by rw [Fin.ext_iff]; omega), get_zeroBlock,
      List.getD_append_right _ _ _ _ (by omega), List.getD_eq_default _ _ (by rw [List.length_singleton]; omega),
      List.getD_eq_default _ _ (by omega)]
    exact BitVec.xor_zero.symm

/-- The blocks of a byte string. -/
def toBlocks (data : List Byte) : List Block :=
  (List.range ((data.length + 15) / 16)).map (padBlock data)

/-- Whole blocks in front of a byte string are blocks of their own. -/
theorem toBlocks_append {done : List Byte} (hdone : done.length % 16 = 0) (rest : List Byte) :
    toBlocks (done ++ rest) = toBlocks done ++ toBlocks rest := by
  have hcount : ((done ++ rest).length + 15) / 16 = (done.length + 15) / 16 + (rest.length + 15) / 16 := by
    rw [List.length_append]
    omega
  have hfront : (List.range ((done.length + 15) / 16)).map (padBlock (done ++ rest)) = toBlocks done := by
    apply List.map_congr_left
    intro k hk
    rw [List.mem_range] at hk
    apply vector_ext
    intro i
    rw [get_padBlock, get_padBlock, List.getD_append _ _ _ _ (by omega)]
  have hback (k : ℕ) : padBlock (done ++ rest) ((done.length + 15) / 16 + k) = padBlock rest k := by
    apply vector_ext
    intro i
    rw [get_padBlock, get_padBlock, List.getD_append_right _ _ _ _ (by omega)]
    exact congrArg (rest.getD · 0) (by omega)
  rw [toBlocks, hcount, List.range_add, List.map_append, hfront, List.map_map, toBlocks]
  exact congrArg _ (List.map_congr_left fun k _ => hback k)

/-- A byte string of at most one block. -/
theorem toBlocks_of_le {data : List Byte} (hpos : 0 < data.length) (hle : data.length ≤ 16) :
    toBlocks data = [listBlock data] := by
  have hcount : (data.length + 15) / 16 = 1 := by omega
  rw [toBlocks, hcount]
  rfl

/-- The number of blocks, the last one padded. -/
@[simp] theorem length_toBlocks (data : List Byte) : (toBlocks data).length = (data.length + 15) / 16 := by
  rw [toBlocks, List.length_map, List.length_range]

/-- Two lengths in bits, each in eight bytes. -/
def lenBlock (a c : ℕ) : Block := Vector.ofFn fun i =>
  if (i : ℕ) < 8 then BitVec.ofNat 8 ((a * 8) >>> (8 * (7 - (i : ℕ))))
  else BitVec.ofNat 8 ((c * 8) >>> (8 * (15 - (i : ℕ))))

/-- The hash of a list of blocks. -/
noncomputable def ghash (h : GF128) (xs : List Block) : GF128 :=
  xs.foldl (fun y x => (y + blockVal x) * h) 0

/-- The hash of no blocks. -/
@[simp] theorem ghash_nil (h : GF128) : ghash h [] = 0 := rfl

/-- One more block is added and the sum multiplied. -/
@[simp] theorem ghash_concat (h : GF128) (xs : List Block) (x : Block) :
    ghash h (xs ++ [x]) = (ghash h xs + blockVal x) * h := by
  rw [ghash, List.foldl_append]
  rfl

/-- The hash of two lists one behind the other. -/
theorem ghash_append (h : GF128) (xs ys : List Block) :
    ghash h (xs ++ ys) = ghash h xs * h ^ ys.length + ghash h ys := by
  induction ys using List.reverseRecOn with
  | nil => simp
  | append_singleton ys y ih =>
    rw [← List.append_assoc, ghash_concat, ghash_concat, ih, List.length_append, List.length_singleton,
      pow_succ]
    ring

end Hash

section Counter

/-- The counter in the last four bytes of a block. -/
def ctrWord (x : Block) : BitVec 32 := ofWordBytes (x.get 12) (x.get 13) (x.get 14) (x.get 15)

/-- Replace the counter. -/
def withCtr (x : Block) (w : BitVec 32) : Block :=
  Vector.ofFn fun i => if i < 12 then x.get i else (wordBytes w).getD (i - 12) 0

/-- The next counter block. -/
def inc32 (x : Block) : Block := withCtr x (ctrWord x + 1)

/-- Setting the counter keeps the first twelve bytes. -/
theorem get_withCtr_of_lt (x : Block) (w : BitVec 32) {i : Fin 16} (hi : i < 12) :
    (withCtr x w).get i = x.get i := by
  rw [withCtr, get_ofFn, if_pos hi]

/-- The counter that was set is read back. -/
@[simp] theorem ctrWord_withCtr (x : Block) (w : BitVec 32) : ctrWord (withCtr x w) = w := by
  have hbyte (i : Fin 16) (hi : ¬ i < 12) : (withCtr x w).get i = (wordBytes w).getD (i - 12) 0 := by
    rw [withCtr, get_ofFn, if_neg hi]
  rw [ctrWord, hbyte 12 (by decide), hbyte 13 (by decide), hbyte 14 (by decide), hbyte 15 (by decide)]
  exact ofWordBytes_wordBytes w

/-- Of two counters the later one stays. -/
@[simp] theorem withCtr_withCtr (x : Block) (v w : BitVec 32) :
    withCtr (withCtr x v) w = withCtr x w := by
  apply vector_ext
  intro i
  by_cases hi : i < 12
  · rw [get_withCtr_of_lt _ _ hi, get_withCtr_of_lt _ _ hi, get_withCtr_of_lt _ _ hi]
  · rw [withCtr, get_ofFn, if_neg hi, withCtr, get_ofFn, if_neg hi]

/-- Counter block `k`, for `k` above zero, from the first one. -/
theorem iterate_inc32 (x : Block) (k : ℕ) :
    inc32^[k + 1] x = withCtr x (ctrWord x + BitVec.ofNat 32 (k + 1)) := by
  induction k with
  | zero => rfl
  | succ k ih =>
    rw [Function.iterate_succ_apply', ih, inc32, ctrWord_withCtr, withCtr_withCtr, BitVec.add_assoc,
      BitVec.ofNat_add (k + 1) 1]
    rfl

/-- The counter blocks of messages with different vectors of twelve bytes are different. -/
theorem withCtr_listBlock_ne {iv iv' : List Byte} (hiv : iv.length = 12) (hiv' : iv'.length = 12)
    (hne : iv ≠ iv') (v w : BitVec 32) : withCtr (listBlock iv) v ≠ withCtr (listBlock iv') w := by
  intro h
  apply hne
  apply List.ext_getElem (hiv.trans hiv'.symm)
  intro i hi hi'
  have hlt : (⟨i, by omega⟩ : Fin 16) < 12 := Fin.lt_def.mpr (by rwa [hiv] at hi)
  have hbyte := congrArg (Vector.get · ⟨i, by omega⟩) h
  rw [get_withCtr_of_lt _ _ hlt, get_withCtr_of_lt _ _ hlt, listBlock, listBlock, get_ofFn, get_ofFn,
    List.getD_eq_getElem _ _ hi, List.getD_eq_getElem _ _ hi'] at hbyte
  exact hbyte

end Counter

section Mode

variable (E : Block → Block)

/-- The hash key. -/
noncomputable def hashKey : GF128 := blockVal (E zeroBlock)

/-- The first counter block: a vector of twelve bytes with the counter one, or the hash of a vector of
any other length. -/
noncomputable def j0 (iv : List Byte) : Block :=
  if iv.length = 12 then withCtr (listBlock iv) 1
  else valBlock (ghash (hashKey E) (toBlocks iv ++ [lenBlock 0 iv.length]))

/-- Byte `k` of the counter stream behind a counter block. -/
def keyByte (j : Block) (k : ℕ) : Byte := (E (inc32^[k / 16 + 1] j)).get (place k)

/-- Encryption and decryption with the counter stream. -/
def gctr (j : Block) (data : List Byte) : List Byte := data.mapIdx fun k b => b ^^^ keyByte E j k

/-- The hash of a header and a ciphertext. -/
noncomputable def messageHash (hdr text : List Byte) : GF128 :=
  ghash (hashKey E) (toBlocks hdr ++ toBlocks text ++ [lenBlock hdr.length text.length])

/-- The tag of a header and a ciphertext, before it is shortened. -/
noncomputable def fullTag (iv hdr text : List Byte) : Block :=
  xorBlock (valBlock (messageHash E hdr text)) (E (j0 E iv))

/-- Counter mode keeps the length. -/
@[simp] theorem length_gctr (j : Block) (data : List Byte) : (gctr E j data).length = data.length :=
  List.length_mapIdx

/-- The counter stream undoes itself. -/
@[simp] theorem gctr_gctr (j : Block) (data : List Byte) : gctr E j (gctr E j data) = data := by
  apply List.ext_getElem
  · simp
  · intro k _ _
    simp only [gctr, List.getElem_mapIdx, BitVec.xor_assoc, BitVec.xor_self, BitVec.xor_zero]

variable {E} {E' : Block → Block}

/-- A vector of twelve bytes is not hashed. -/
theorem j0_congr {iv : List Byte} (hiv : iv.length = 12) : j0 E iv = j0 E' iv := by
  rw [j0, j0, if_pos hiv, if_pos hiv]

/-- The counter stream reads the cipher at one counter block for each block of the data. -/
theorem gctr_congr {j : Block} {data : List Byte}
    (h : ∀ k, 16 * k < data.length → E (inc32^[k + 1] j) = E' (inc32^[k + 1] j)) :
    gctr E j data = gctr E' j data := by
  apply List.ext_getElem
  · simp
  · intro k hk _
    rw [length_gctr] at hk
    simp only [gctr, List.getElem_mapIdx, keyByte]
    rw [h (k / 16) (by omega)]

/-- The tag under a vector of twelve bytes reads the cipher at the zero block and the first counter
block. -/
theorem fullTag_congr {iv : List Byte} (hiv : iv.length = 12) (hzero : E zeroBlock = E' zeroBlock)
    (hfirst : E (j0 E iv) = E' (j0 E iv)) (hdr text : List Byte) :
    fullTag E iv hdr text = fullTag E' iv hdr text := by
  have hhash : hashKey E = hashKey E' := by rw [hashKey, hashKey, hzero]
  rw [fullTag, fullTag, messageHash, messageHash, hhash, hfirst, j0_congr hiv]

end Mode

end CamkesVm.Aeslib
