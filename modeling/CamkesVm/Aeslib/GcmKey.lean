import CamkesVm.Aeslib.AesCipher
import CamkesVm.Aeslib.GcmCounter
import CamkesVm.Aeslib.GcmHash

/-!
# Keys, first counter blocks and tags of the Galois counter mode

Setting a key leaves a context with the standard's cipher and a table of the hash key, and every
later call keeps both. From there the first counter block is the standard's, and the last step of a
tag, a power of the hash key by squaring and the two lengths byte by byte, adds what the standard
adds.
-/

namespace CamkesVm.Aeslib

open CamkesVm.Machine

/-- The context holds this key: its cipher is the standard's and its table is that of the hash key. -/
structure Keyed (key : Block) (ctx : GcmCtx) : Prop where
  cipher : ∀ inp out, (aesEncrypt inp out ctx.aes).2 = aes128 sBox key inp
  hash : ctx.ghashH = aes128 sBox key zeroBlock
  table : Tabulates 8 (blockVal ctx.ghashH) ctx.gfT4k

section Setup

variable {key : Block} {ctx : GcmCtx}

/-- Only a new key changes the fields of the key. -/
theorem Keyed.of_eq {ctx' : GcmCtx} (h : Keyed key ctx) (haes : ctx'.aes = ctx.aes)
    (hhash : ctx'.ghashH = ctx.ghashH) (htable : ctx'.gfT4k = ctx.gfT4k) : Keyed key ctx' := by
  refine ⟨?_, ?_, ?_⟩
  · rw [haes]
    exact h.cipher
  · rw [hhash]
    exact h.hash
  · rw [hhash, htable]
    exact h.table

/-- Setting a key, whatever the context held before. -/
theorem gcmInitAndKey_keyed (key : Block) (ctx : GcmCtx) : Keyed key (gcmInitAndKey key ctx) := by
  have hencrypt (inp out : Block) := congrArg Prod.snd (aesEncrypt_keyed key inp out ctx.aes)
  have htable (g : Block) : Tabulates 8 (blockVal g) (init4kTable g ctx.gfT4k) :=
    initTable_tabulates (by decide) g ctx.gfT4k
  refine ⟨hencrypt, hencrypt zeroBlock zeroBlock, ?_⟩
  dsimp only [gcmInitAndKey]
  exact htable _

/-- The multiplier of a context with a key. -/
theorem Keyed.blockVal_gfMulHh (h : Keyed key ctx) (a : Block) :
    blockVal (gfMulHh a ctx) = blockVal a * hashKey (aes128 sBox key) := by
  rw [gfMulHh, blockVal_gfMul4k a h.table, h.hash]
  rfl

/-- Multiplication by the hash key of a key. -/
noncomputable def hashMul (key a : Block) : Block := valBlock (blockVal a * hashKey (aes128 sBox key))

/-- The multiplication of a keyed context is the one by the hash key. -/
theorem blockVal_hashMul (key a : Block) :
    blockVal (hashMul key a) = blockVal a * hashKey (aes128 sBox key) :=
  blockVal_valBlock _

/-- Contexts with the same key multiply alike. -/
theorem Keyed.gfMulHh_eq (h : Keyed key ctx) (a : Block) : gfMulHh a ctx = hashMul key a :=
  eq_valBlock (h.blockVal_gfMulHh a)

/-- The bytes of a number added from a place down. -/
theorem get_xorLength (n : ℕ) (x : Block) {i : ℕ} (hi : i < 16) (hn : n < 2 ^ (8 * (i + 1))) (k : Fin 16) :
    (xorLength x i n).get k = x.get k ^^^ if k ≤ i then BitVec.ofNat 8 (n >>> (8 * (i - k))) else 0 := by
  induction n using Nat.strongRecOn generalizing x i with
  | ind n ih =>
    rw [xorLength]
    by_cases hzero : n = 0
    · rw [if_pos hzero, hzero, Nat.zero_shiftRight]
      simp
    · have hless : n >>> 8 < n := by
        rw [Nat.shiftRight_eq_div_pow]
        omega
      have hbound : n >>> 8 < 2 ^ (8 * (i - 1 + 1)) := by
        rw [Nat.shiftRight_eq_div_pow]
        apply Nat.div_lt_of_lt_mul
        rw [← pow_add]
        exact hn.trans_le (Nat.pow_le_pow_right (by decide) (by omega))
      have hk : k = place i ↔ (k : ℕ) = i := by rw [Fin.ext_iff, val_place hi]
      rw [if_neg hzero, ih _ hless _ (by omega) hbound, get_put]
      obtain hlt | heq | hgt := Nat.lt_trichotomy k i
      · have hshift : 8 + 8 * (i - 1 - k) = 8 * (i - k) := by omega
        rw [if_neg (by omega), if_pos (by omega), if_pos (by omega), ← Nat.shiftRight_add, hshift]
      · have hlast : (if k ≤ i - 1 then BitVec.ofNat 8 (n >>> 8 >>> (8 * (i - 1 - k))) else 0) = 0 := by
          split_ifs with hle
          · have hi0 : i = 0 := by omega
            have hshift : n >>> 8 = 0 := by
              rw [hi0] at hn
              rw [Nat.shiftRight_eq_div_pow]
              exact Nat.div_eq_of_lt hn
            rw [hshift, Nat.zero_shiftRight]
            rfl
          · rfl
        rw [hlast, if_pos (hk.mpr heq), if_pos (by omega), heq, Nat.sub_self, hk.mpr heq]
        exact BitVec.xor_zero
      · rw [if_neg (by omega), if_neg (by omega), if_neg (by omega)]

/-- A length in bits added to the end of a block. -/
theorem xorLength_eq (x : Block) {n : ℕ} (hn : n * 8 < 2 ^ 32) :
    xorLength x 15 (n <<< 3 % 2 ^ 32) = xorBlock x (lenBlock 0 n) := by
  have hbits : n <<< 3 % 2 ^ 32 = n * 8 := by
    rw [Nat.shiftLeft_eq]
    exact Nat.mod_eq_of_lt hn
  rw [hbits]
  apply vector_ext
  intro k
  have hbound : n * 8 < 2 ^ (8 * (15 + 1)) := hn.trans (Nat.pow_lt_pow_right (by decide) (by decide))
  rw [get_xorLength (n * 8) x (by decide) hbound, if_pos (by omega), xorBlock, get_ofFn, lenBlock, get_ofFn]
  split_ifs with hk
  · have hzero : (n * 8) >>> (8 * (15 - (k : ℕ))) = 0 := by
      rw [Nat.shiftRight_eq_div_pow]
      apply Nat.div_eq_of_lt
      exact hn.trans_le (Nat.pow_le_pow_right (by decide) (by omega))
    rw [hzero, Nat.zero_mul, Nat.zero_shiftRight]
  · rfl

/-- A vector of twelve bytes with the counter one. -/
theorem initCtr_twelve (iv : List Byte) :
    put (Vector.ofFn fun i : Fin 16 => if i < 12 then iv.getD i 0 else 0) 15 0x01 =
      withCtr (listBlock iv) 1 := by
  have hone : wordBytes 1 = [0, 0, 0, 1] := rfl
  apply vector_ext
  intro i
  rw [get_put, get_ofFn, withCtr, get_ofFn, listBlock, get_ofFn, hone]
  by_cases hi : i < 12
  · rw [if_neg (by omega), if_pos hi, if_pos hi]
  · rw [if_neg hi, if_neg hi]
    obtain rfl | rfl | rfl | rfl : i = 12 ∨ i = 13 ∨ i = 14 ∨ i = 15 := by omega
    all_goals rfl

/-- The whole blocks of a vector of another length. -/
theorem Keyed.drain_blocks (h : Keyed key ctx) (iv : List Byte) :
    let whole := drain 16 (fun _ => true)
      (fun ctr piece => gfMulHh (xorBlockAligned ctr (listBlock piece)) ctx) zeroBlock iv
    ∃ done, done ++ whole.2 = iv ∧ done.length % 16 = 0 ∧
      blockVal whole.1 = ghash (hashKey (aes128 sBox key)) (toBlocks done) ∧ whole.2.length < 16 := by
  have hblock (done : List Byte) (ctr : Block) (piece : List Byte)
      (hs : done.length % 16 = 0 ∧ blockVal ctr = ghash (hashKey (aes128 sBox key)) (toBlocks done))
      (_ : true = true) (hlen : piece.length = 16) :
      (done ++ piece).length % 16 = 0 ∧
        blockVal (gfMulHh (xorBlockAligned ctr (listBlock piece)) ctx) =
          ghash (hashKey (aes128 sBox key)) (toBlocks (done ++ piece)) := by
    have hpiece : toBlocks piece = [listBlock piece] := toBlocks_of_le (by omega) (by omega)
    refine ⟨by rw [List.length_append]; omega, ?_⟩
    rw [h.blockVal_gfMulHh, blockVal_xorBlockAligned, hs.2, toBlocks_append hs.1, hpiece, ghash_concat]
  have hstart : ([] : List Byte).length % 16 = 0 ∧
      blockVal zeroBlock = ghash (hashKey (aes128 sBox key)) (toBlocks []) := ⟨rfl, blockVal_zeroBlock⟩
  obtain ⟨done, hdone, ⟨hmod, hval⟩, hstop⟩ := drain_invariant
    (fun done ctr => done.length % 16 = 0 ∧
      blockVal ctr = ghash (hashKey (aes128 sBox key)) (toBlocks done)) (by decide) hblock hstart iv
  exact ⟨done, hdone, hmod, hval, by simpa using hstop⟩

/-- The first counter block is the standard's. -/
theorem Keyed.initCtr_eq (h : Keyed key ctx) {iv : List Byte} (hiv : iv.length * 8 < 2 ^ 32) :
    initCtr iv ctx = j0 (aes128 sBox key) iv := by
  rw [initCtr, j0]
  by_cases h12 : iv.length = 12
  · rw [if_pos h12, if_pos h12, initCtr_twelve]
  · obtain ⟨done, hdone, hmod, hval, hrest⟩ := h.drain_blocks iv
    rw [if_neg h12, if_neg h12]
    generalize drain 16 (fun _ => true)
      (fun ctr piece => gfMulHh (xorBlockAligned ctr (listBlock piece)) ctx) zeroBlock iv = whole at *
    have hctr : blockVal (if whole.2.length ≠ 0 then
          gfMulHh (drain 1 (fun _ => true) xorByte ⟨whole.1, 0⟩ whole.2).1.buf ctx else whole.1) =
        ghash (hashKey (aes128 sBox key)) (toBlocks iv) := by
      split_ifs with hlen
      · have hpiece : toBlocks whole.2 = [listBlock whole.2] := toBlocks_of_le (by omega) (by omega)
        rw [drain_one, foldl_xorByte _ _ (by omega), overlay_zero, h.blockVal_gfMulHh, blockVal_xorBlock, hval,
          ← hdone, toBlocks_append hmod, hpiece, ghash_concat]
      · rw [hval, ← hdone, List.length_eq_zero_iff.mp (not_not.mp hlen), List.append_nil]
    apply eq_valBlock
    rw [h.blockVal_gfMulHh, xorLength_eq _ hiv, blockVal_xorBlock, hctr, ghash_concat]

end Setup

section Tag

variable {key : Block} {ctx : GcmCtx}

/-- The power computed by squaring. -/
theorem blockVal_mulPower (a base : Block) (ln : ℕ) :
    blockVal (mulPower a base ln) = blockVal a * blockVal base ^ ln := by
  induction ln using Nat.strongRecOn generalizing a base with
  | ind ln ih =>
    have hhalf : ln >>> 1 = ln / 2 := Nat.shiftRight_eq_div_pow ln 1
    have hbit : ln &&& 1 = ln % 2 := Nat.and_one_is_mod ln
    have hodd : blockVal (if ln &&& 1 ≠ 0 then gfMulTMD a (some base) else a) =
        blockVal a * blockVal base ^ (ln % 2) := by
      rw [hbit]
      split_ifs with h
      · rw [blockVal_gfMulTMD, Nat.mod_two_ne_zero.mp h, pow_one]
        rfl
      · rw [not_not.mp h, pow_zero, mul_one]
    rw [mulPower]
    by_cases hlast : ln >>> 1 = 0
    · have hsmall : ln % 2 = ln := by omega
      rw [if_pos hlast, hodd, hsmall]
    · have hsplit : ln % 2 + 2 * (ln / 2) = ln := Nat.mod_add_div ln 2
      have hsquare : blockVal (gfMulTMD base none) = blockVal base ^ 2 := by
        rw [blockVal_gfMulTMD, pow_two]
        rfl
      rw [if_neg hlast, ih _ (by omega), hodd, hsquare, hhalf, ← pow_mul, mul_assoc, ← pow_add, hsplit]

/-- The loop over the bytes of a block, where `T i` is the number that it holds at byte `i`. -/
theorem get_foldl_lengths (txt : Block) (next : Fin 16 → BitVec 64 → BitVec 64) {T : Fin 16 → BitVec 64}
    {is : List (Fin 16)} (hnodup : is.Nodup) (hchain : is.IsChain fun i i' => next i (T i) = T i')
    {t : BitVec 64} (ht : ∀ i ∈ is.head?, t = T i) (g : Block) (k : Fin 16) :
    (is.foldl (fun (s : Block × BitVec 64) i =>
      (put s.1 i (s.1.get i ^^^ (txt.get i ^^^ s.2.setWidth 8)), next i s.2)) (g, t)).1.get k =
      if k ∈ is then g.get k ^^^ (txt.get k ^^^ (T k).setWidth 8) else g.get k := by
  induction is generalizing g t with
  | nil => rfl
  | cons i rest ih =>
    obtain ⟨hi, hrest⟩ := List.nodup_cons.mp hnodup
    obtain rfl : t = T i := ht i rfl
    obtain ⟨hhead, hchain⟩ := List.isChain_cons.mp hchain
    rw [List.foldl_cons, ih hrest hchain hhead, get_put]
    by_cases hk : k = i
    · rw [hk, if_neg hi, if_pos rfl, if_pos List.mem_cons_self]
    · simp only [List.mem_cons, hk, false_or, if_false]

/-- The number that the loop over the lengths holds at a byte. -/
def lengthAt (hdrCnt txtAcnt : BitVec 32) (i : Fin 16) : BitVec 64 :=
  if (i : ℕ) < 8 then hdrCnt.setWidth 64 <<< 3 >>> (8 * (7 - (i : ℕ)))
  else txtAcnt.setWidth 64 <<< 3 >>> (8 * (15 - (i : ℕ)))

/-- One round of the loop goes on to the next number. -/
theorem lengthAt_next (hdrCnt txtAcnt : BitVec 32) {i i' : Fin 16} (hi : (i : ℕ) = i' + 1) :
    (if i = 8 then hdrCnt.setWidth 64 <<< 3 else lengthAt hdrCnt txtAcnt i >>> 8) =
      lengthAt hdrCnt txtAcnt i' := by
  simp only [lengthAt]
  obtain hlt | h8 | hgt := Nat.lt_trichotomy i 8
  · have hshift : 8 * (7 - (i' : ℕ)) = 8 * (7 - (i : ℕ)) + 8 := by omega
    rw [if_neg (by rintro rfl; exact absurd hlt (by decide)), if_pos hlt, if_pos (by omega), hshift,
      BitVec.shiftRight_add]
  · have hshift : 8 * (7 - (i' : ℕ)) = 0 := by omega
    rw [if_pos (Fin.ext h8), if_pos (by omega), hshift, BitVec.ushiftRight_zero]
  · have hshift : 8 * (15 - (i' : ℕ)) = 8 * (15 - (i : ℕ)) + 8 := by omega
    rw [if_neg (by rintro rfl; exact absurd hgt (by decide)), if_neg (by omega), if_neg (by omega), hshift,
      BitVec.shiftRight_add]

/-- The bytes written for the lengths are those of the length block. -/
theorem setWidth_lengthAt (hdrCnt txtAcnt : BitVec 32) (i : Fin 16) :
    (lengthAt hdrCnt txtAcnt i).setWidth 8 = (lenBlock hdrCnt.toNat txtAcnt.toNat).get i := by
  have hbyte (n : BitVec 32) (d : ℕ) : (n.setWidth 64 <<< 3 >>> d).setWidth 8 =
      BitVec.ofNat 8 ((n.toNat * 8) >>> d) := by
    have hbits : (n.setWidth 64 <<< 3).toNat = n.toNat * 8 := by
      have hn := n.isLt
      rw [BitVec.toNat_shiftLeft, BitVec.toNat_setWidth, Nat.shiftLeft_eq]
      omega
    apply BitVec.eq_of_toNat_eq
    rw [BitVec.toNat_setWidth, BitVec.toNat_ushiftRight, hbits, BitVec.toNat_ofNat]
  rw [lengthAt, lenBlock, get_ofFn]
  split_ifs
  · exact hbyte hdrCnt _
  · exact hbyte txtAcnt _

/-- Both lengths are added as the standard writes them. -/
theorem addLengths_eq (hdrGhv txtGhv : Block) (hdrCnt txtAcnt : BitVec 32) :
    addLengths hdrGhv txtGhv hdrCnt txtAcnt =
      xorBlock (xorBlock hdrGhv txtGhv) (lenBlock hdrCnt.toNat txtAcnt.toNat) := by
  have hdown : (List.finRange 16).reverse.IsChain fun i i' : Fin 16 => (i : ℕ) = i' + 1 := by decide
  have hchain : (List.finRange 16).reverse.IsChain fun i i' : Fin 16 =>
      (if i = 8 then hdrCnt.setWidth 64 <<< 3 else lengthAt hdrCnt txtAcnt i >>> 8) =
        lengthAt hdrCnt txtAcnt i' :=
    hdown.imp fun _ _ hi => lengthAt_next hdrCnt txtAcnt hi
  have hstart : ∀ i ∈ (List.finRange 16).reverse.head?,
      txtAcnt.setWidth 64 <<< 3 = lengthAt hdrCnt txtAcnt i := by
    have hhead : (List.finRange 16).reverse.head? = some 15 := by decide
    rw [hhead]
    rintro i ⟨⟩
    exact (BitVec.ushiftRight_zero _).symm
  apply vector_ext
  intro k
  have hmem : k ∈ (List.finRange 16).reverse := by simp
  have hnodup := List.nodup_reverse.mpr (List.nodup_finRange 16)
  have hget := get_foldl_lengths txtGhv
    (fun i t => if i = 8 then hdrCnt.setWidth 64 <<< 3 else t >>> 8) hnodup hchain hstart hdrGhv k
  rw [addLengths, hget, if_pos hmem, setWidth_lengthAt, xorBlock, get_ofFn, xorBlock, get_ofFn,
    BitVec.xor_assoc]

/-- The counter of a block replaced by that of another with the same first bytes. -/
theorem storeWord_loadWord {x y : Block} (h : ∀ i < 12, x.get i = y.get i) :
    storeWord x 12 (loadWord y 12) = y := by
  apply vector_ext
  intro i
  rw [get_storeWord x le_rfl]
  split_ifs with hi
  · have hbyte := byteAt_loadWord y 12 ⟨i - 12, by omega⟩
    have hplace : 12 + ((i : ℕ) - 12) = i := by omega
    dsimp only at hbyte
    rw [hbyte, hplace, place_val]
  · exact h i (by omega)

/-- Contexts with the same key and the same state of a message compute the same tag. -/
theorem Keyed.gcmComputeTag_congr {ctx' : GcmCtx} (h : Keyed key ctx) (h' : Keyed key ctx')
    (hhdr : ctx.hdrGhv = ctx'.hdrGhv ∧ ctx.hdrCnt = ctx'.hdrCnt)
    (htxt : ctx.txtGhv = ctx'.txtGhv ∧ ctx.txtAcnt = ctx'.txtAcnt ∧ ctx.txtCcnt = ctx'.txtCcnt)
    (hctr : ctx.ctrVal = ctx'.ctrVal ∧ ctx.y0Val = ctx'.y0Val) (tag : List Byte) (tagLen : TagLen) :
    (gcmComputeTag tag tagLen ctx).1 = (gcmComputeTag tag tagLen ctx').1 ∧
      (gcmComputeTag tag tagLen ctx).2.1 = (gcmComputeTag tag tagLen ctx').2.1 := by
  have hmul (a : Block) : gfMulHh a ctx = gfMulHh a ctx' := (h.gfMulHh_eq a).trans (h'.gfMulHh_eq a).symm
  have hcipher (inp out : Block) : (aesEncrypt inp out ctx.aes).2 = (aesEncrypt inp out ctx'.aes).2 :=
    (h.cipher inp out).trans (h'.cipher inp out).symm
  have hhash : ctx.ghashH = ctx'.ghashH := h.hash.trans h'.hash.symm
  simp only [gcmComputeTag, hhdr, htxt, hctr, hmul, hcipher, hhash]
  split_ifs
  all_goals exact ⟨rfl, rfl⟩

end Tag

end CamkesVm.Aeslib
