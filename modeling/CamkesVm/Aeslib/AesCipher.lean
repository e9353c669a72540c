import CamkesVm.Aeslib.Aes
import CamkesVm.Aeslib.Rijndael

/-!
# The block cipher is the standard's

A table entry holds the products of a box entry by one column of the matrix, so that four entries
add up to a column of a round of the standard. The unrolled key schedule stores the words of the
standard's key expansion. The optimised encryption is then the standard's cipher for every key and
every block.
-/

namespace CamkesVm.Aeslib

open CamkesVm.Machine

section TableEntries

/-- The box of the source is the substitution of the standard. -/
theorem sBox_isSubstitution : IsSubstitution sBox := by
  -- the inverse is read off the box by the inverse of the affine map
  have hinverse : ∀ b : Byte,
      let c := (sBox b).rotateLeft 1 ^^^ (sBox b).rotateLeft 3 ^^^ (sBox b).rotateLeft 6 ^^^ 0x05
      (if b = 0 then c = 0 else gmul b c = 1) ∧ sBox b = affine c := by
    decide +kernel
  intro b
  exact ⟨_, hinverse b⟩

/-- The multiples of a byte that the tables hold. -/
theorem multiples_eq : ∀ p : Byte, gmul 0x01 p = p ∧
    f2 (p.setWidth 32) = (gmul 0x02 p).setWidth 32 ∧ f3 (p.setWidth 32) = (gmul 0x03 p).setWidth 32 ∧
    f9 (p.setWidth 32) = (gmul 0x09 p).setWidth 32 ∧ fb (p.setWidth 32) = (gmul 0x0B p).setWidth 32 ∧
    fd (p.setWidth 32) = (gmul 0x0D p).setWidth 32 ∧ fe (p.setWidth 32) = (gmul 0x0E p).setWidth 32 := by
  decide +kernel

/-- The word of a column of the circulant matrix with first row `m`, times a byte. -/
def matrixWord (m : Bytes 4) (p : Byte) (r : Fin 4) : BitVec 32 :=
  leWord (gmul (m (r - 0)) p) (gmul (m (r - 1)) p) (gmul (m (r - 2)) p) (gmul (m (r - 3)) p)

/-- Byte `j` of the word is the product with the matrix entry of its rotation. -/
theorem byteAt_matrixWord (m : Bytes 4) (p : Byte) (r j : Fin 4) :
    byteAt (matrixWord m p r) j = gmul (m (r - j)) p := by
  rw [matrixWord, byteAt_leWord]
  fin_cases j <;> rfl

/-- The words of the encryption tables hold the products with the forward matrix. -/
theorem uWord_eq (p : Byte) (r : Fin 4) : uWord (p.setWidth 32) r = matrixWord fwdMatrix p r := by
  have hwords : uWord (p.setWidth 32) =
      ![leWord (gmul 0x02 p) (gmul 0x01 p) (gmul 0x01 p) (gmul 0x03 p),
        leWord (gmul 0x03 p) (gmul 0x02 p) (gmul 0x01 p) (gmul 0x01 p),
        leWord (gmul 0x01 p) (gmul 0x03 p) (gmul 0x02 p) (gmul 0x01 p),
        leWord (gmul 0x01 p) (gmul 0x01 p) (gmul 0x03 p) (gmul 0x02 p)] := by
    obtain ⟨hone, h2, h3, -⟩ := multiples_eq p
    rw [hone, uWord, h2, h3]
    rfl
  rw [hwords]
  fin_cases r <;> rfl

/-- The words of the decryption tables hold the products with the inverse matrix. -/
theorem vWord_eq (p : Byte) (r : Fin 4) : vWord (p.setWidth 32) r = matrixWord invMatrix p r := by
  obtain ⟨-, -, -, h9, hb, hd, he⟩ := multiples_eq p
  simp only [vWord, h9, hb, hd, he]
  fin_cases r <;> rfl

/-- The bytes of a word with one byte. -/
theorem byteAt_wWord (p : Byte) (r j : Fin 4) :
    byteAt (wWord (p.setWidth 32) r) j = if j = r then p else 0 := by
  have hword : wWord (p.setWidth 32) r =
      leWord (if 0 = r then p else 0) (if 1 = r then p else 0) (if 2 = r then p else 0)
        (if 3 = r then p else 0) := by
    fin_cases r <;> rfl
  rw [hword, byteAt_leWord]
  fin_cases j <;> rfl

/-- The encryption round table substitutes and multiplies by the forward matrix. -/
theorem tFn_eq (r : Fin 4) (i : Byte) : tFn r i = matrixWord fwdMatrix (sBox i) r := uWord_eq (sBox i) r

/-- The decryption round table substitutes and multiplies by the inverse matrix. -/
theorem tIn_eq (r : Fin 4) (i : Byte) : tIn r i = matrixWord invMatrix (iBox i) r := vWord_eq (iBox i) r

/-- The table for the decryption keys multiplies by the inverse matrix without a substitution. -/
theorem tIm_eq (r : Fin 4) (i : Byte) : tIm r i = matrixWord invMatrix i r := vWord_eq i r

/-- The table of the last encryption round substitutes only. -/
theorem tFl_eq (r : Fin 4) (i : Byte) : tFl r i = wWord ((sBox i).setWidth 32) r := rfl

/-- The table of the last decryption round substitutes only. -/
theorem tIl_eq (r : Fin 4) (i : Byte) : tIl r i = wWord ((iBox i).setWidth 32) r := rfl

end TableEntries

section Rounds

/-- The bytes of a word. -/
def wordColumn (w : BitVec 32) : Bytes 4 := fun r => byteAt w r

/-- The state that four words hold. -/
def columns (u : Fin 4 → BitVec 32) : State := fun c => wordColumn (u c)

/-- Four tables of matrix columns add up to a column of the product. -/
theorem wordColumn_fourTables {tab : Fin 4 → Byte → BitVec 32} (box : Byte → Byte) (m : Bytes 4)
    (htab : ∀ r i, tab r i = matrixWord m (box i) r) (vf : Fin 4 → BitVec 32) :
    wordColumn (fourTables tab vf id) = mixColumn m fun r => box (byteAt (vf r) r) := by
  funext j
  simp only [wordColumn, fourTables, byteAt_xor, htab, byteAt_matrixWord, id]
  rfl

/-- Four tables with one byte each put their bytes together. -/
theorem wordColumn_fourTables_single {tab : Fin 4 → Byte → BitVec 32} (box : Byte → Byte)
    (htab : ∀ r i, tab r i = wWord ((box i).setWidth 32) r) (vf : Fin 4 → BitVec 32)
    (rf : Fin 4 → Fin 4) :
    wordColumn (fourTables tab vf rf) = fun r => box (byteAt (vf r) (rf r)) := by
  funext j
  simp only [wordColumn, fourTables, byteAt_xor, htab, byteAt_wWord]
  fin_cases j <;> simp

/-- The column of a sum is the sum of the columns. -/
@[simp] theorem wordColumn_xor (v w : BitVec 32) (r : Fin 4) :
    wordColumn (v ^^^ w) r = wordColumn v r ^^^ wordColumn w r :=
  byteAt_xor v w r

/-- A column of a normal round. -/
theorem columns_fwdRnd (x : Units) (k : Fin 4 → BitVec 32) :
    columns (fwdRnd x k) = cipherRound sBox fwdMatrix (columns k) (columns x.get) := by
  funext c j
  have hcol := wordColumn_fourTables sBox fwdMatrix tFn_eq fun r => x.get (c + r)
  simp only [columns, fwdRnd, wordColumn_xor, hcol]
  rfl

/-- A column of the last round. -/
theorem columns_fwdLrnd (x : Units) (k : Fin 4 → BitVec 32) :
    columns (fwdLrnd x k) = addRoundKey (columns k) (shiftRows (subBytes sBox (columns x.get))) := by
  funext c j
  have hcol := wordColumn_fourTables_single sBox tFl_eq (fun r => x.get (c + r)) id
  simp only [columns, fwdLrnd, wordColumn_xor, hcol]
  rfl

/-- The four words of a block hold the columns of its state. -/
theorem columns_unit (b : Block) : columns (unit b) = blockState b := by
  funext c r
  exact byteAt_unit b c r

/-- A block made from words is the block of their state. -/
theorem ofUnits_ofFn (u : Fin 4 → BitVec 32) : ofUnits (Vector.ofFn u) = stateBlock (columns u) := by
  have hget : (Vector.ofFn u).get = u := funext (get_ofFn u)
  exact congrArg (fun u => stateBlock (columns u)) hget

/-- Adding the first round key. -/
theorem columns_ofFn_xor (u k : Fin 4 → BitVec 32) :
    columns (Vector.ofFn fun c => u c ^^^ k c).get = addRoundKey (columns k) (columns u) := by
  funext c r
  rw [columns, get_ofFn, wordColumn_xor, BitVec.xor_comm]
  rfl

end Rounds

section KeySchedule

/-- The words of the standard's key expansion. -/
def scheduleWord (key : Block) (i : ℕ) : Bytes 4 := keyExpansion sBox (blockState key) i

/-- The first four words of the schedule are the key. -/
theorem scheduleWord_lt (key : Block) (c : Fin 4) : scheduleWord key c = wordColumn (unit key c) := by
  rw [scheduleWord, keyExpansion, dif_pos c.isLt, ← columns_unit]
  rfl

/-- The first word of a round key. -/
theorem scheduleWord_first (key : Block) (i : ℕ) :
    scheduleWord key (4 * i + 4) = fun r => scheduleWord key (4 * i) r ^^^
      (sBox (scheduleWord key (4 * i + 3) (r + 1)) ^^^ if r = 0 then xtime^[i] 1 else 0) := by
  have hdiv : (4 * i + 4) / 4 - 1 = i := by omega
  rw [scheduleWord, keyExpansion, dif_neg (by omega)]
  simp only [Nat.add_sub_cancel, Nat.reduceSubDiff, if_pos (by omega : (4 * i + 4) % 4 = 0), hdiv]
  rfl

/-- The other words of a round key. -/
theorem scheduleWord_next (key : Block) (i : ℕ) {k : ℕ} (hk : 0 < k) (hk' : k < 4) :
    scheduleWord key (4 * i + 4 + k) = fun r =>
      scheduleWord key (4 * i + k) r ^^^ scheduleWord key (4 * i + 4 + k - 1) r := by
  have hback : 4 * i + 4 + k - 4 = 4 * i + k := by omega
  rw [scheduleWord, keyExpansion, dif_neg (by omega)]
  simp only [if_neg (by omega : ¬ (4 * i + 4 + k) % 4 = 0), hback]
  rfl

/-- The bytes of a round constant. -/
theorem wordColumn_tRc {i : ℕ} (hi : i < 10) (r : Fin 4) :
    wordColumn (tRc i) r = if r = 0 then xtime^[i] 1 else 0 := by
  have hconst : ∀ i < 10, rcData.getD i 0 = xtime^[i] 1 := by decide
  rw [wordColumn, tRc, byteAt_wWord, hconst i hi]

/-- The word of the key schedule step is rotated by one byte and substituted. -/
theorem wordColumn_lsBox (x : BitVec 32) (r : Fin 4) :
    wordColumn (lsBox x 3) r = sBox (wordColumn x (r + 1)) := by
  have hrot : r - 3 = r + 1 := by omega
  have hcol := wordColumn_fourTables_single sBox tFl_eq (fun _ => x) fun r => r - 3
  rw [lsBox, hcol]
  simp only [hrot]
  rfl

/-- The words of round key `i + 1` from those of round key `i`. -/
theorem nextWords (key : Block) {i : ℕ} (hi : i < 10) {ss : Fin 4 → BitVec 32}
    (hss : ∀ c : Fin 4, wordColumn (ss c) = scheduleWord key (4 * i + c)) :
    let ss0 := ss 0 ^^^ (lsBox (ss 3) 3 ^^^ tRc i)
    let ss1 := ss 1 ^^^ ss0
    let ss2 := ss 2 ^^^ ss1
    wordColumn ss0 = scheduleWord key (4 * i + 4) ∧ wordColumn ss1 = scheduleWord key (4 * i + 5) ∧
      wordColumn ss2 = scheduleWord key (4 * i + 6) ∧
      wordColumn (ss 3 ^^^ ss2) = scheduleWord key (4 * i + 7) := by
  have h0 : wordColumn (ss 0 ^^^ (lsBox (ss 3) 3 ^^^ tRc i)) = scheduleWord key (4 * i + 4) := by
    rw [scheduleWord_first]
    funext r
    simp only [wordColumn_xor, wordColumn_lsBox, wordColumn_tRc hi, hss]
    rfl
  have hnext (c : Fin 4) (hc : 0 < c.val) {before : BitVec 32}
      (hbefore : wordColumn before = scheduleWord key (4 * i + 4 + c - 1)) :
      wordColumn (ss c ^^^ before) = scheduleWord key (4 * i + 4 + c) := by
    rw [scheduleWord_next key i hc c.isLt]
    funext r
    rw [wordColumn_xor, hss, hbefore]
  have h1 := hnext 1 (by decide) h0
  have h2 := hnext 2 (by decide) h1
  exact ⟨h0, h1, h2, hnext 3 (by decide) h2⟩

/-- The running words are round key `i` and the schedule is filled up to it. -/
structure Expanded (key : Block) (i : ℕ) (st : Units × (ℕ → BitVec 32)) : Prop where
  running : ∀ c : Fin 4, wordColumn (st.1.get c) = scheduleWord key (4 * i + c)
  stored : ∀ j < 4 * i + 4, wordColumn (st.2 j) = scheduleWord key j

/-- One round of the expansion extends the schedule by four words. -/
theorem ke4_expanded {key : Block} {i : ℕ} (hi : i < 10) {st : Units × (ℕ → BitVec 32)}
    (h : Expanded key i st) : Expanded key (i + 1) (ke4 st i) := by
  obtain ⟨h0, h1, h2, h3⟩ := nextWords key hi h.running
  constructor
  · intro c
    fin_cases c
    · exact h0
    · exact h1
    · exact h2
    · exact h3
  · intro j hj
    simp only [ke4, Function.update_apply]
    split_ifs with h7 h6 h5 h4
    · rw [h7]
      exact h3
    · rw [h6]
      exact h2
    · rw [h5]
      exact h1
    · rw [h4]
      exact h0
    · exact h.stored j (by omega)

/-- The encryption schedule holds the words of the standard's key expansion. -/
theorem wordColumn_aesEncryptKey128 (key : Block) (cx : AesCtx) {j : ℕ} (hj : j < 44) :
    wordColumn ((aesEncryptKey128 key cx).ks j) = scheduleWord key j := by
  have hcycles (n : ℕ) (hn : n ≤ 10) : Expanded key n ((List.range n).foldl ke4
      (units key, writeRange cx.ks 0 (List.ofFn (unit key)))) := by
    induction n with
    | zero =>
      refine ⟨fun c => ?_, fun j hj => ?_⟩
      · rw [List.range_zero, List.foldl_nil, get_units, Nat.mul_zero, Nat.zero_add, scheduleWord_lt]
      · have hword := writeRange_ofFn cx.ks 0 (unit key) ⟨j, hj⟩
        rw [Nat.zero_add] at hword
        exact (congrArg wordColumn hword).trans (scheduleWord_lt key ⟨j, hj⟩).symm
    | succ n ih =>
      rw [List.range_succ, List.foldl_append, List.foldl_cons, List.foldl_nil]
      exact ke4_expanded (by omega) (ih (by omega))
  exact (hcycles 10 le_rfl).stored j hj

end KeySchedule

section Encryption

/-- Rounds on words are rounds on states. -/
theorem columns_foldl {rnd : Units → (Fin 4 → BitVec 32) → Fin 4 → BitVec 32}
    (round : State → State → State)
    (hrnd : ∀ x k, columns (rnd x k) = round (columns k) (columns x.get)) (ks : ℕ → BitVec 32)
    (rs : List ℕ) (b : Units) :
    columns (rs.foldl (fun b r => Vector.ofFn (rnd b (rndKey ks (4 * r)))) b).get =
      rs.foldl (fun s r => round (columns (rndKey ks (4 * r))) s) (columns b.get) := by
  induction rs generalizing b with
  | nil => rfl
  | cons r rs ih =>
    have hget : (Vector.ofFn (rnd b (rndKey ks (4 * r)))).get = rnd b (rndKey ks (4 * r)) :=
      funext (get_ofFn _)
    rw [List.foldl_cons, List.foldl_cons, ih, hget, hrnd]

/-- The rounds of a context with a 128-bit key, on states. -/
theorem crypt_eq {rnd lrnd : Units → (Fin 4 → BitVec 32) → Fin 4 → BitVec 32}
    (round last : State → State → State)
    (hrnd : ∀ x k, columns (rnd x k) = round (columns k) (columns x.get))
    (hlrnd : ∀ x k, columns (lrnd x k) = last (columns k) (columns x.get)) (inp out : Block)
    {cx : AesCtx} (hinf : cx.inf = 10 * 16) :
    crypt rnd lrnd inp out cx = (0, stateBlock (last (columns (rndKey cx.ks 40))
      ((List.range' 1 9).foldl (fun s r => round (columns (rndKey cx.ks (4 * r))) s)
        (addRoundKey (columns (rndKey cx.ks 0)) (blockState inp))))) := by
  have hvalid : cx.valid = true := by
    rw [AesCtx.valid, hinf]
    rfl
  have hrounds : cx.inf.toNat / 16 = 10 := by
    rw [hinf]
    rfl
  rw [crypt, if_pos hvalid, hrounds]
  simp only [ofUnits_ofFn, hlrnd, columns_foldl round hrnd, columns_ofFn_xor, columns_unit]

/-- Encryption after setting a key is the standard's cipher, whatever the context and the output
buffer held before. -/
theorem aesEncrypt_keyed (key inp out : Block) (cx : AesCtx) :
    aesEncrypt inp out (aesEncryptKey128 key cx) = (0, aes128 sBox key inp) := by
  have hcipher := cipher_congr sBox fwdMatrix (by decide : 0 < 10)
    (fun j hj => wordColumn_aesEncryptKey128 key cx hj) (blockState inp)
  rw [aesEncrypt, crypt_eq (cipherRound sBox fwdMatrix)
    (fun k s => addRoundKey k (shiftRows (subBytes sBox s))) columns_fwdRnd columns_fwdLrnd inp out rfl]
  exact congrArg (fun s => ((0 : ℤ), stateBlock s)) hcipher

/-- The optimised encryption is the cipher of the standard with the standard's substitution, for every
key and block and whatever the context and the output buffer held before. -/
theorem aes_encrypt_standard (key inp out : Block) (cx : AesCtx) :
    IsSubstitution sBox ∧
      aesEncrypt inp out (aesEncryptKey128 key cx) = (0, aes128 sBox key inp) :=
  ⟨sBox_isSubstitution, aesEncrypt_keyed key inp out cx⟩

end Encryption

end CamkesVm.Aeslib
