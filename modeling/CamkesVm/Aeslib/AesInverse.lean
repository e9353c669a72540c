import CamkesVm.Aeslib.AesCipher

/-!
# Decryption undoes encryption

The decryption key is computed without the encryption key. The source keeps four sums of the words of
a round key from which one substitution gives those of the next, and stores the words from the last
round key to the first, those between multiplied by the inverse matrix. The schedule so built is the
encryption schedule in the form the decryption rounds need, so that decryption is the standard's
inverse cipher and gives every block back.
-/

namespace CamkesVm.Aeslib

open CamkesVm.Machine

section InverseColumns

/-- The two boxes of the source undo each other. -/
theorem iBox_sBox : ∀ b : Byte, iBox (sBox b) = b := by decide +kernel

/-- A word is determined by its column. -/
theorem wordColumn_injective : Function.Injective wordColumn := by
  intro v w h
  apply eq_of_byteAt_eq
  intro k hk
  exact congrFun h ⟨k, hk⟩

/-- The inverse mixing of a word. -/
theorem wordColumn_invMcol (x : BitVec 32) :
    wordColumn (invMcol x) = mixColumn invMatrix (wordColumn x) :=
  wordColumn_fourTables id invMatrix tIm_eq fun _ => x

/-- The mixing of a key word is linear. -/
theorem invMcol_xor (x y : BitVec 32) : invMcol (x ^^^ y) = invMcol x ^^^ invMcol y := by
  apply wordColumn_injective
  funext r
  have hsum : wordColumn (x ^^^ y) = fun r => wordColumn x r ^^^ wordColumn y r :=
    funext (wordColumn_xor x y)
  rw [wordColumn_xor, wordColumn_invMcol, wordColumn_invMcol, wordColumn_invMcol, hsum, mixColumn_xor]

/-- A column of a normal inverse round. -/
theorem columns_invRnd (x : Units) (k : Fin 4 → BitVec 32) : columns (invRnd x k) =
    addRoundKey (columns k) (mixColumns invMatrix (invShiftRows (subBytes iBox (columns x.get)))) := by
  funext c j
  have hcol := wordColumn_fourTables iBox invMatrix tIn_eq fun r => x.get (c - r)
  simp only [columns, invRnd, wordColumn_xor, hcol]
  rfl

/-- A column of the last inverse round. -/
theorem columns_invLrnd (x : Units) (k : Fin 4 → BitVec 32) : columns (invLrnd x k) =
    addRoundKey (columns k) (invShiftRows (subBytes iBox (columns x.get))) := by
  funext c j
  have hcol := wordColumn_fourTables_single iBox tIl_eq (fun r => x.get (c - r)) id
  simp only [columns, invLrnd, wordColumn_xor, hcol]
  rfl

end InverseColumns

section DecryptionSchedule

/-- The recurrence of the words of a schedule. -/
structure Schedule (w : ℕ → BitVec 32) : Prop where
  first : ∀ i < 10, w (4 * i + 4) = w (4 * i) ^^^ (lsBox (w (4 * i + 3)) 3 ^^^ tRc i)
  second : ∀ i < 10, w (4 * i + 5) = w (4 * i + 1) ^^^ w (4 * i + 4)
  third : ∀ i < 10, w (4 * i + 6) = w (4 * i + 2) ^^^ w (4 * i + 5)
  fourth : ∀ i < 10, w (4 * i + 7) = w (4 * i + 3) ^^^ w (4 * i + 6)

/-- The words of an encryption key follow the recurrence. -/
theorem schedule_aesEncryptKey128 (key : Block) (cx : AesCtx) :
    Schedule (aesEncryptKey128 key cx).ks := by
  set w := (aesEncryptKey128 key cx).ks
  have hword {j : ℕ} (hj : j < 44) : wordColumn (w j) = scheduleWord key j :=
    wordColumn_aesEncryptKey128 key cx hj
  have hnext {i : ℕ} (hi : i < 10) :=
    nextWords key hi (fun c : Fin 4 => hword (by omega : 4 * i + c < 44))
  have hfirst (i : ℕ) (hi : i < 10) :
      w (4 * i + 4) = w (4 * i) ^^^ (lsBox (w (4 * i + 3)) 3 ^^^ tRc i) :=
    wordColumn_injective ((hword (by omega)).trans (hnext hi).1.symm)
  have hsecond (i : ℕ) (hi : i < 10) : w (4 * i + 5) = w (4 * i + 1) ^^^ w (4 * i + 4) := by
    rw [hfirst i hi]
    exact wordColumn_injective ((hword (by omega)).trans (hnext hi).2.1.symm)
  have hthird (i : ℕ) (hi : i < 10) : w (4 * i + 6) = w (4 * i + 2) ^^^ w (4 * i + 5) := by
    rw [hsecond i hi, hfirst i hi]
    exact wordColumn_injective ((hword (by omega)).trans (hnext hi).2.2.1.symm)
  refine ⟨hfirst, hsecond, hthird, fun i hi => ?_⟩
  rw [hthird i hi, hsecond i hi, hfirst i hi]
  exact wordColumn_injective ((hword (by omega)).trans (hnext hi).2.2.2.symm)

/-- The four sums kept before cycle `i`. -/
structure Sums (w : ℕ → BitVec 32) (i : ℕ) (ss : ℕ → BitVec 32) : Prop where
  all : ss (i % 4) = w (4 * i) ^^^ w (4 * i + 2) ^^^ w (4 * i + 1) ^^^ w (4 * i + 3)
  second : ss ((i + 1) % 4) = w (4 * i + 1) ^^^ w (4 * i + 3)
  third : ss ((i + 2) % 4) = w (4 * i + 2) ^^^ w (4 * i + 3)
  fourth : ss ((i + 3) % 4) = w (4 * i + 3)

/-- What cycle `i` substitutes and adds. -/
def cycleGain (ss : ℕ → BitVec 32) (i : ℕ) : BitVec 32 := lsBox (ss ((i + 3) % 4)) 3 ^^^ tRc i

/-- One update gives the sums of the next cycle. -/
theorem sums_next {w : ℕ → BitVec 32} (hw : Schedule w) {i : ℕ} (hi : i < 10) {ss : ℕ → BitVec 32}
    (h : Sums w i ss) :
    Sums w (i + 1) (Function.update ss (i % 4) (ss (i % 4) ^^^ cycleGain ss i)) := by
  have hgain : cycleGain ss i = w (4 * i) ^^^ w (4 * i + 4) := by
    rw [cycleGain, h.fourth, hw.first i hi, ← BitVec.xor_assoc, BitVec.xor_self, BitVec.zero_xor]
  have hself : (i + 1 + 3) % 4 = i % 4 := by omega
  have h2 := hw.second i hi
  have h3 := hw.third i hi
  have h4 := hw.fourth i hi
  constructor
  · rw [Function.update_of_ne (by omega), h.second]
    grind
  · rw [show (i + 1 + 1) % 4 = (i + 2) % 4 from rfl, Function.update_of_ne (by omega), h.third]
    grind
  · rw [show (i + 1 + 2) % 4 = (i + 3) % 4 from rfl, Function.update_of_ne (by omega), h.fourth]
    grind
  · rw [hself, Function.update_self, h.all, hgain]
    grind

/-- The reversed index keeps the place in a round and counts the rounds from the end. -/
theorem vIx_eq {a b : ℕ} (ha : a ≤ 10) (hb : b < 4) : vIx (4 * a + b) = 4 * (10 - a) + b := by
  have hmod : (4 * a + b) &&& 3 = b := by
    have hand : (4 * a + b) &&& 3 = (4 * a + b) % 4 := Nat.and_two_pow_sub_one_eq_mod _ 2
    omega
  rw [vIx, hmod]
  omega

/-- The reversed index is injective on the schedule. -/
theorem vIx_ne {i j : ℕ} (hi : i < 44) (hj : j < 44) (hne : i ≠ j) : vIx i ≠ vIx j := by
  have hplace (i : ℕ) (hi : i < 44) : vIx i = 4 * (10 - i / 4) + i % 4 := by
    have heq := vIx_eq (by omega : i / 4 ≤ 10) (by omega : i % 4 < 4)
    rwa [Nat.div_add_mod] at heq
  rw [hplace i hi, hplace j hj]
  omega

/-- Storing a round key adds its words to those stored. -/
theorem storeKey_stored {D k : ℕ → BitVec 32} {i : ℕ} (hi : i < 10)
    (h : ∀ j < 4 * i + 4, k (vIx j) = D j) {W : Fin 4 → BitVec 32}
    (hW : ∀ c : Fin 4, W c = D (4 * i + 4 + c)) :
    ∀ j < 4 * (i + 1) + 4, storeKey k i W (vIx j) = D j := by
  intro j hj
  have hvne {m : ℕ} (hm : j ≠ 4 * i + m) (hm8 : m < 8) : vIx j ≠ vIx (4 * i + m) :=
    vIx_ne (by omega) (by omega) hm
  rw [storeKey]
  by_cases h7 : j = 4 * i + 7
  · rw [h7, Function.update_self]
    exact hW 3
  rw [Function.update_of_ne (hvne h7 (by decide))]
  by_cases h6 : j = 4 * i + 6
  · rw [h6, Function.update_self]
    exact hW 2
  rw [Function.update_of_ne (hvne h6 (by decide))]
  by_cases h5 : j = 4 * i + 5
  · rw [h5, Function.update_self]
    exact hW 1
  rw [Function.update_of_ne (hvne h5 (by decide))]
  by_cases h4 : j = 4 * i + 4
  · rw [h4, Function.update_self]
    exact hW 0
  rw [Function.update_of_ne (hvne h4 (by decide))]
  exact h j (by omega)

/-- The words of a decryption schedule, in the order of the encryption schedule. -/
def decWord (w : ℕ → BitVec 32) (j : ℕ) : BitVec 32 := if j < 4 ∨ 40 ≤ j then w j else invMcol (w j)

/-- The words of the inner rounds are mixed. -/
theorem decWord_middle (w : ℕ → BitVec 32) {j : ℕ} (hj : 4 ≤ j) (hj' : j < 40) :
    decWord w j = invMcol (w j) :=
  if_neg (by omega)

/-- The words of the first and the last round are kept. -/
theorem decWord_end (w : ℕ → BitVec 32) {j : ℕ} (hj : j < 4 ∨ 40 ≤ j) : decWord w j = w j := if_pos hj

/-- The state of the decryption schedule before cycle `i`. -/
structure Unwound (w : ℕ → BitVec 32) (i : ℕ) (st : (ℕ → BitVec 32) × (ℕ → BitVec 32)) : Prop where
  sums : Sums w i st.1
  stored : ∀ j < 4 * i + 4, st.2 (vIx j) = decWord w j

/-- The sums that close a cycle are the words of the new round key under any additive map that the
stored words are taken through. -/
theorem runningWords_eq {w k : ℕ → BitVec 32} (hw : Schedule w) {i : ℕ} (hi : i < 10)
    {f : BitVec 32 → BitVec 32} (hf : ∀ x y, f (x ^^^ y) = f x ^^^ f y)
    (hk : ∀ c < 4, k (vIx (4 * i + c)) = f (w (4 * i + c))) (c : Fin 4) :
    runningWords k i (f (lsBox (w (4 * i + 3)) 3 ^^^ tRc i)) c = f (w (4 * i + 4 + c)) := by
  have h0 : f (w (4 * i + 4)) = f (w (4 * i)) ^^^ f (lsBox (w (4 * i + 3)) 3 ^^^ tRc i) := by
    rw [hw.first i hi, hf]
  have h1 : f (w (4 * i + 5)) = f (w (4 * i + 1)) ^^^ f (w (4 * i + 4)) := by
    rw [hw.second i hi, hf]
  have h2 : f (w (4 * i + 6)) = f (w (4 * i + 2)) ^^^ f (w (4 * i + 5)) := by
    rw [hw.third i hi, hf]
  have h3 : f (w (4 * i + 7)) = f (w (4 * i + 3)) ^^^ f (w (4 * i + 6)) := by
    rw [hw.fourth i hi, hf]
  have hk0 := hk 0 (by decide)
  have hk1 := hk 1 (by decide)
  have hk2 := hk 2 (by decide)
  have hk3 := hk 3 (by decide)
  fin_cases c
  · change _ ^^^ _ = f (w (4 * i + 4))
    grind
  · change _ ^^^ _ ^^^ _ = f (w (4 * i + 5))
    grind
  · change _ ^^^ _ ^^^ _ ^^^ _ = f (w (4 * i + 6))
    grind
  · change _ ^^^ _ ^^^ _ ^^^ _ ^^^ _ = f (w (4 * i + 7))
    grind

/-- A middle cycle. -/
theorem kd4_unwound {w : ℕ → BitVec 32} (hw : Schedule w) {i : ℕ} (hpos : 0 < i) (hi : i < 9)
    {st : (ℕ → BitVec 32) × (ℕ → BitVec 32)} (h : Unwound w i st) : Unwound w (i + 1) (kd4 st i) := by
  refine ⟨sums_next hw (by omega) h.sums, storeKey_stored (by omega) h.stored fun c => ?_⟩
  have hmiddle (c : ℕ) (hc : c < 4) : st.2 (vIx (4 * i + c)) = invMcol (w (4 * i + c)) := by
    rw [h.stored _ (by omega), decWord_middle w (by omega) (by omega)]
  rw [h.sums.fourth, runningWords_eq hw (by omega) invMcol_xor hmiddle,
    decWord_middle w (by omega) (by omega)]

/-- The words of the key turned into the sums of the first cycle. -/
def keySums (ss : ℕ → BitVec 32) : ℕ → BitVec 32 :=
  Function.update (Function.update (Function.update ss 0 (ss 0 ^^^ ss 2 ^^^ ss 1 ^^^ ss 3)) 1
    (ss 1 ^^^ ss 3)) 2 (ss 2 ^^^ ss 3)

/-- The partial sums of the first key words, before any round. -/
theorem sums_keySums {w ss : ℕ → BitVec 32} (hss : ∀ c < 4, ss c = w c) : Sums w 0 (keySums ss) := by
  have h0 := hss 0 (by decide)
  have h1 := hss 1 (by decide)
  have h2 := hss 2 (by decide)
  have h3 := hss 3 (by decide)
  constructor <;> simp [keySums, h0, h1, h2, h3]

/-- The first cycle. -/
theorem kdf4_unwound {w : ℕ → BitVec 32} (hw : Schedule w) {st : (ℕ → BitVec 32) × (ℕ → BitVec 32)}
    (hss : ∀ c < 4, st.1 c = w c) (hk : ∀ c < 4, st.2 (vIx c) = w c) : Unwound w 1 (kdf4 st 0) := by
  have hsums := sums_keySums hss
  have hstart (c : ℕ) (hc : c < 4) : st.2 (vIx (4 * 0 + c)) = id (w (4 * 0 + c)) := by
    rw [Nat.mul_zero, Nat.zero_add, hk c hc, id]
  have hwords (c : Fin 4) : runningWords st.2 0 (cycleGain (keySums st.1) 0) c = w (4 * 0 + 4 + c) := by
    rw [cycleGain, hsums.fourth]
    exact runningWords_eq hw (by decide : 0 < 10) (fun _ _ => rfl) hstart c
  have hend (j : ℕ) (hj : j < 4 * 0 + 4) : st.2 (vIx j) = decWord w j := by
    rw [hk j (by omega), decWord_end w (by omega)]
  have hmiddle (c : Fin 4) : invMcol (runningWords st.2 0 (cycleGain (keySums st.1) 0) c) =
      decWord w (4 * 0 + 4 + c) := by
    rw [decWord_middle w (by omega) (by omega), hwords]
  exact ⟨sums_next hw (by decide : 0 < 10) hsums, storeKey_stored (by decide) hend hmiddle⟩

/-- The last cycle takes the words of the last round key from the sums. -/
theorem kdl4_unwound {w : ℕ → BitVec 32} (hw : Schedule w) {st : (ℕ → BitVec 32) × (ℕ → BitVec 32)}
    (h : Unwound w 9 st) : ∀ j < 44, (kdl4 st 9).2 (vIx j) = decWord w j := by
  -- the sums are already those of the tenth round key
  have hsums := sums_next hw (by decide) h.sums
  set ss := Function.update st.1 (9 % 4) (st.1 (9 % 4) ^^^ cycleGain st.1 9)
  have h0 : ss 2 = w 40 ^^^ w 42 ^^^ w 41 ^^^ w 43 := hsums.all
  have h1 : ss 3 = w 41 ^^^ w 43 := hsums.second
  have h2 : ss 0 = w 42 ^^^ w 43 := hsums.third
  have h3 : ss 1 = w 43 := hsums.fourth
  refine storeKey_stored (by decide) h.stored fun c => ?_
  rw [decWord_end w (by omega)]
  fin_cases c
  · change (ss 0 ^^^ ss 1) ^^^ ss 2 ^^^ ss 3 = w 40
    grind
  · change ss 1 ^^^ ss 3 = w 41
    grind
  · change ss 0 ^^^ ss 1 = w 42
    grind
  · exact h3

/-- The decryption schedule holds the words of the encryption schedule, the last round key first and
those between the ends mixed. -/
theorem aesDecryptKey128_ks (key : Block) (cx cx' : AesCtx) {i : ℕ} (hi : i ≤ 10) (c : Fin 4) :
    (aesDecryptKey128 key cx).ks (4 * (10 - i) + c) =
      decWord (aesEncryptKey128 key cx').ks (4 * i + c) := by
  have hw := schedule_aesEncryptKey128 key cx'
  have hkey (c : ℕ) (hc : c < 4) : (aesEncryptKey128 key cx').ks c = unit key ⟨c, hc⟩ := by
    apply wordColumn_injective
    rw [wordColumn_aesEncryptKey128 key cx' (by omega)]
    exact scheduleWord_lt key ⟨c, hc⟩
  have hfirst : Unwound (aesEncryptKey128 key cx').ks 1 (kdf4
      (writeRange (fun _ => 0) 0 (List.ofFn (unit key)),
        writeRange cx.ks (vIx 0) (List.ofFn (unit key))) 0) := by
    refine kdf4_unwound hw (fun c hc => ?_) fun c hc => ?_
    · have hword := writeRange_ofFn (fun _ => 0) 0 (unit key) ⟨c, hc⟩
      rwa [Nat.zero_add, ← hkey c hc] at hword
    · have hword := writeRange_ofFn cx.ks (vIx 0) (unit key) ⟨c, hc⟩
      have hplace : vIx c = vIx 0 + c := by
        have heq := vIx_eq (by decide : 0 ≤ 10) hc
        rwa [Nat.mul_zero, Nat.zero_add] at heq
      rwa [← hkey c hc, ← hplace] at hword
  have hmiddle (n : ℕ) (hn : n ≤ 8) : Unwound (aesEncryptKey128 key cx').ks (n + 1)
      ((List.range' 1 n).foldl kd4 (kdf4 (writeRange (fun _ => 0) 0 (List.ofFn (unit key)),
        writeRange cx.ks (vIx 0) (List.ofFn (unit key))) 0)) := by
    induction n with
    | zero => exact hfirst
    | succ n ih =>
      rw [List.range'_concat, List.foldl_append, List.foldl_cons, List.foldl_nil, Nat.one_mul,
        Nat.add_comm 1 n]
      exact kd4_unwound hw (by omega) (by omega) (ih (by omega))
  rw [← vIx_eq hi c.isLt]
  exact kdl4_unwound hw (hmiddle 8 le_rfl) _ (by omega)

end DecryptionSchedule

section Decryption

/-- A round of the source on a mixed round key is a round of the inverse cipher. -/
theorem invCipherRound_eq (inv : Byte → Byte) (n : Bytes 4) (k s : State) : invCipherRound inv n k s =
    addRoundKey (mixColumns n k) (mixColumns n (invShiftRows (subBytes inv s))) := by
  rw [invCipherRound, mixColumns_addRoundKey, subBytes_invShiftRows]

/-- The round keys of a decryption schedule. -/
theorem columns_rndKey_aesDecryptKey128 (key : Block) (cx : AesCtx) {i : ℕ} (hi : i ≤ 10) :
    columns (rndKey (aesDecryptKey128 key cx).ks (4 * (10 - i))) =
      if i = 0 ∨ i = 10 then roundKey (scheduleWord key) i
      else mixColumns invMatrix (roundKey (scheduleWord key) i) := by
  have hword (c : Fin 4) := wordColumn_aesEncryptKey128 key cx (by omega : 4 * i + c < 44)
  funext c
  rw [columns, rndKey, aesDecryptKey128_ks key cx cx hi c]
  split_ifs with hend
  · rw [decWord_end _ (by omega), hword]
    rfl
  · rw [decWord_middle _ (by omega) (by omega), wordColumn_invMcol, hword]
    rfl

/-- Decryption after setting a key is the standard's inverse cipher. -/
theorem aesDecrypt_keyed (key inp out : Block) (cx : AesCtx) :
    aesDecrypt inp out (aesDecryptKey128 key cx) = (0, aes128Inverse sBox iBox key inp) := by
  have hkey {i : ℕ} (hi : i ≤ 10) := columns_rndKey_aesDecryptKey128 key cx hi
  have hreverse : (List.range' 1 9).reverse = (List.range' 1 9).map (10 - ·) := by decide
  have hrounds (s : State) :
      (List.range' 1 9).foldl (fun s r => addRoundKey
        (columns (rndKey (aesDecryptKey128 key cx).ks (4 * r)))
        (mixColumns invMatrix (invShiftRows (subBytes iBox s)))) s =
      (List.range' 1 9).reverse.foldl
        (fun s i => invCipherRound iBox invMatrix (roundKey (scheduleWord key) i) s) s := by
    rw [hreverse, List.foldl_map]
    apply List.foldl_ext
    intro s r hr
    rw [List.mem_range'_1] at hr
    have hround := hkey (by omega : 10 - r ≤ 10)
    rw [if_neg (by omega), show 10 - (10 - r) = r by omega] at hround
    rw [invCipherRound_eq, hround]
  have hfirst : columns (rndKey (aesDecryptKey128 key cx).ks 0) = roundKey (scheduleWord key) 10 :=
    (hkey (le_refl 10)).trans (if_pos (Or.inr rfl))
  have hlast : columns (rndKey (aesDecryptKey128 key cx).ks 40) = roundKey (scheduleWord key) 0 :=
    (hkey (Nat.zero_le 10)).trans (if_pos (Or.inl rfl))
  rw [aesDecrypt, crypt_eq (fun k s => addRoundKey k (mixColumns invMatrix (invShiftRows (subBytes iBox s))))
    (fun k s => addRoundKey k (invShiftRows (subBytes iBox s))) columns_invRnd columns_invLrnd inp out rfl]
  simp only [hrounds, hfirst, hlast]
  rfl

/-- Decryption gives back what was encrypted with the same key. -/
theorem aes128Inverse_aes128 (key inp : Block) :
    aes128Inverse sBox iBox key (aes128 sBox key inp) = inp := by
  rw [aes128Inverse, aes128, blockState_stateBlock, invCipher_cipher iBox_sBox mixColumn_invMatrix,
    stateBlock_blockState]

/-- The decryption schedule against the encryption schedule of the same key: round key `i` is stored in
place of round key `10 - i`, and its columns are mixed with the inverse matrix unless it is the first or
the last. -/
theorem aes_decryption_schedule (key : Block) (cx cx' : AesCtx) (i : Fin 11) (c : Fin 4) :
    wordColumn ((aesDecryptKey128 key cx).ks (4 * (10 - i) + c)) =
      if i = 0 ∨ i = 10 then wordColumn ((aesEncryptKey128 key cx').ks (4 * i + c))
      else mixColumn invMatrix (wordColumn ((aesEncryptKey128 key cx').ks (4 * i + c))) := by
  rw [aesDecryptKey128_ks key cx cx' (by omega) c]
  split_ifs with hend
  · rw [decWord_end _ (by omega)]
  · rw [decWord_middle _ (by omega) (by omega), wordColumn_invMcol]

/-- Every block comes back when it is encrypted and decrypted with the same key, whatever the contexts
and the output buffers held before. -/
theorem aes_round_trip (key inp out out' : Block) (cx cx' : AesCtx) :
    aesDecrypt (aesEncrypt inp out (aesEncryptKey128 key cx)).2 out' (aesDecryptKey128 key cx') =
      (0, inp) := by
  rw [aesEncrypt_keyed, aesDecrypt_keyed, aes128Inverse_aes128]

end Decryption

end CamkesVm.Aeslib
