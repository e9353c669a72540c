import Mathlib.Data.Nat.ModEq
import Mathlib.Data.List.OfFn

/-!
# One's complement sums

The checksum of the Internet protocols is a sum of words in which a carry out of the top bit is added
again at the bottom. Such a sum of `w`-bit words is their total modulo `2 ^ w - 1`, where of the two
names of zero the sum takes the all-zero word only if every word is zero. So a sequence verifies, that
is sums to the all-ones word, when its total is a multiple of `2 ^ w - 1` and not zero.

The words of a byte sequence can be read in either byte order. Exchanging the bytes of every word
multiplies the total by 256 modulo 65535, so a checksum that is computed and stored in the one order
verifies in the other.
-/

namespace CamkesVm.Machine

section Sums

variable {w : ℕ}

/-- Add two words, and a carry out of the top bit at the bottom. -/
def onesAdd (a b : BitVec w) : BitVec w :=
  if BitVec.uaddOverflow a b then a + b + 1#w else a + b

/-- The one's complement sum of a sequence of words. -/
def onesSum (words : List (BitVec w)) : BitVec w := words.foldl onesAdd 0#w

/-- The sum of the words as numbers. -/
def total : List (BitVec w) → ℕ
  | [] => 0
  | word :: words => word.toNat + total words

/-- The totals of two sequences add up. -/
theorem total_append (xs ys : List (BitVec w)) : total (xs ++ ys) = total xs + total ys := by
  induction xs with
  | nil => exact (Nat.zero_add _).symm
  | cons x xs ih => rw [List.cons_append, total, total, ih, Nat.add_assoc]

/-- A total is bounded by the number of its words. -/
theorem total_le (words : List (BitVec w)) : total words ≤ words.length * (2 ^ w - 1) := by
  induction words with
  | nil => exact Nat.zero_le _
  | cons word words ih =>
    have hword := word.isLt
    rw [total, List.length_cons, Nat.add_mul, Nat.one_mul]
    omega

/-- The end-around carry takes `2 ^ w - 1` off the sum. -/
theorem onesAdd_toNat (a b : BitVec w) : (onesAdd a b).toNat =
    if 2 ^ w ≤ a.toNat + b.toNat then a.toNat + b.toNat - (2 ^ w - 1) else a.toNat + b.toNat := by
  have ha := a.isLt
  have hb := b.isLt
  unfold onesAdd BitVec.uaddOverflow
  by_cases hcarry : 2 ^ w ≤ a.toNat + b.toNat
  · -- With a carry both words are not zero, so there is at least one bit.
    have hone : 1 % 2 ^ w = 1 := Nat.mod_eq_of_lt (by omega)
    rw [if_pos hcarry, if_pos (decide_eq_true hcarry), BitVec.toNat_add, BitVec.toNat_add,
      BitVec.toNat_ofNat, hone, Nat.mod_eq_sub_mod hcarry, Nat.mod_add_mod, Nat.mod_eq_of_lt (by omega)]
    omega
  · rw [if_neg hcarry, if_neg (by simpa using hcarry), BitVec.toNat_add, Nat.mod_eq_of_lt (by omega)]

/-- It changes the sum by a multiple of `2 ^ w - 1`. -/
theorem onesAdd_modEq (a b : BitVec w) : (onesAdd a b).toNat ≡ a.toNat + b.toNat [MOD 2 ^ w - 1] := by
  rw [onesAdd_toNat]
  split_ifs with hcarry
  · exact (Nat.modEq_iff_dvd' (Nat.sub_le _ _)).mpr ⟨1, by omega⟩
  · rfl

/-- A sum is the zero word only if both words are. -/
theorem eq_zero_of_onesAdd {a b : BitVec w} (h : (onesAdd a b).toNat = 0) :
    a.toNat = 0 ∧ b.toNat = 0 := by
  rw [onesAdd_toNat] at h
  split_ifs at h with hcarry
  all_goals omega

/-- Summing up adds the total modulo `2 ^ w - 1`. -/
theorem foldl_onesAdd_modEq (words : List (BitVec w)) (sum : BitVec w) :
    (words.foldl onesAdd sum).toNat ≡ sum.toNat + total words [MOD 2 ^ w - 1] := by
  induction words generalizing sum with
  | nil => rfl
  | cons word words ih =>
    calc ((word :: words).foldl onesAdd sum).toNat
        ≡ (onesAdd sum word).toNat + total words [MOD 2 ^ w - 1] := ih _
      _ ≡ sum.toNat + word.toNat + total words [MOD 2 ^ w - 1] := (onesAdd_modEq sum word).add_right _
      _ ≡ sum.toNat + total (word :: words) [MOD 2 ^ w - 1] := by rw [total, Nat.add_assoc]

/-- Summing up gives the zero word only if all words are zero. -/
theorem eq_zero_of_foldl_onesAdd {words : List (BitVec w)} {sum : BitVec w}
    (h : (words.foldl onesAdd sum).toNat = 0) : sum.toNat = 0 ∧ total words = 0 := by
  induction words generalizing sum with
  | nil => exact ⟨h, rfl⟩
  | cons word words ih =>
    obtain ⟨hsum, hwords⟩ := ih h
    obtain ⟨hsum, hword⟩ := eq_zero_of_onesAdd hsum
    exact ⟨hsum, by rw [total, hword, hwords]⟩

/-- Summing up never exceeds the total. -/
theorem foldl_onesAdd_le (words : List (BitVec w)) (sum : BitVec w) :
    (words.foldl onesAdd sum).toNat ≤ sum.toNat + total words := by
  induction words generalizing sum with
  | nil => exact Nat.le_refl _
  | cons word words ih =>
    have hrest := ih (onesAdd sum word)
    have hadd : (onesAdd sum word).toNat ≤ sum.toNat + word.toNat := by
      rw [onesAdd_toNat]
      split_ifs
      all_goals omega
    rw [List.foldl_cons, total]
    omega

/-- The sum of a sequence is the word that is its total modulo `2 ^ w - 1` and is zero only with it. -/
theorem eq_onesSum {words : List (BitVec w)} {word : BitVec w}
    (hmod : word.toNat ≡ total words [MOD 2 ^ w - 1]) (hzero : word.toNat = 0 ↔ total words = 0) :
    word = onesSum words := by
  have hsum := foldl_onesAdd_modEq words 0#w
  have hle := foldl_onesAdd_le words 0#w
  rw [BitVec.toNat_ofNat, Nat.zero_mod, Nat.zero_add] at hsum hle
  apply BitVec.eq_of_toNat_eq
  change (onesSum words).toNat ≤ total words at hle
  by_cases htotal : total words = 0
  · rw [hzero.mpr htotal]
    omega
  · -- Both words lie between one and `2 ^ w - 1`.
    have hword : word.toNat ≠ 0 := mt hzero.mp htotal
    have hne : (onesSum words).toNat ≠ 0 := fun h => htotal (eq_zero_of_foldl_onesAdd h).2
    have hlt := word.isLt
    have hlt' := (onesSum words).isLt
    have hcongr : word.toNat - 1 ≡ (onesSum words).toNat - 1 [MOD 2 ^ w - 1] := by
      apply Nat.ModEq.add_right_cancel' 1
      rw [Nat.sub_add_cancel (Nat.pos_of_ne_zero hword), Nat.sub_add_cancel (Nat.pos_of_ne_zero hne)]
      exact hmod.trans hsum.symm
    have heq := hcongr.eq_of_lt_of_lt (by omega) (by omega)
    omega

/-- A sequence verifies when its total is a multiple of `2 ^ w - 1` other than zero. -/
theorem onesSum_eq_allOnes {words : List (BitVec w)} (hdvd : 2 ^ w - 1 ∣ total words)
    (hpos : 0 < total words) : onesSum words = BitVec.allOnes w := by
  have hmod := foldl_onesAdd_modEq words 0#w
  rw [BitVec.toNat_ofNat, Nat.zero_mod, Nat.zero_add] at hmod
  have hsum : 2 ^ w - 1 ∣ (onesSum words).toNat := hmod.dvd_iff (dvd_refl _) |>.mpr hdvd
  have hne : (onesSum words).toNat ≠ 0 := fun h => hpos.ne' (eq_zero_of_foldl_onesAdd h).2
  have hge : 2 ^ w - 1 ≤ (onesSum words).toNat := Nat.le_of_dvd (Nat.pos_of_ne_zero hne) hsum
  have hlt := (onesSum words).isLt
  apply BitVec.eq_of_toNat_eq
  rw [BitVec.toNat_allOnes]
  omega

/-- The complement of the sum of a sequence is the negative of its total, and not zero for the total
zero. -/
theorem dvd_total_add_not (hw : 0 < w) (words : List (BitVec w)) :
    2 ^ w - 1 ∣ total words + (~~~onesSum words).toNat ∧ 0 < total words + (~~~onesSum words).toNat := by
  have hsum := foldl_onesAdd_modEq words 0#w
  have hle := foldl_onesAdd_le words 0#w
  rw [BitVec.toNat_ofNat, Nat.zero_mod, Nat.zero_add] at hsum hle
  change (onesSum words).toNat ≤ total words at hle
  have hlt := (onesSum words).isLt
  have hone : 1 < 2 ^ w := Nat.one_lt_two_pow hw.ne'
  rw [BitVec.toNat_not]
  refine ⟨?_, by omega⟩
  obtain ⟨c, hc⟩ := (Nat.modEq_iff_dvd' hle).mp hsum
  exact ⟨c + 1, by rw [Nat.mul_add, Nat.mul_one]; omega⟩

end Sums

section Pairs

variable {α β : Type*} (word : α → α → β) (pad : α)

/-- The words that two neighbouring entries make. An odd last entry is padded. -/
def pairs : List α → List β
  | first :: second :: rest => word first second :: pairs rest
  | [first] => [word first pad]
  | [] => []

/-- Words do not reach over the end of an even sequence. -/
theorem pairs_append (xs ys : List α) (heven : xs.length % 2 = 0) :
    pairs word pad (xs ++ ys) = pairs word pad xs ++ pairs word pad ys := by
  fun_induction pairs word pad xs with
  | case1 first second rest ih =>
    simp only [List.length_cons] at heven
    rw [List.cons_append, List.cons_append, pairs, ih (by omega), List.cons_append]
  | case2 first => exact absurd heven (by simp)
  | case3 => rfl

/-- The words of a sequence by their indices. -/
theorem getElem?_pairs (xs : List α) (k : ℕ) :
    (pairs word pad xs)[k]? = xs[2 * k]?.map fun first => word first (xs[2 * k + 1]?.getD pad) := by
  fun_induction pairs word pad xs generalizing k with
  | case1 first second rest ih =>
    cases k with
    | zero => rfl
    | succ k => exact ih k
  | case2 first =>
    cases k with
    | zero => rfl
    | succ k => rfl
  | case3 => rfl

/-- The words of an array of even length. -/
theorem pairs_ofFn {n : ℕ} (data : Fin n → α) (heven : n % 2 = 0) :
    pairs word pad (List.ofFn data) = List.ofFn fun k : Fin (n / 2) =>
      word (data ⟨2 * k, by omega⟩) (data ⟨2 * k + 1, by omega⟩) := by
  apply List.ext_getElem?
  intro k
  rw [getElem?_pairs]
  simp only [List.getElem?_ofFn]
  by_cases hk : k < n / 2
  · rw [dif_pos hk, dif_pos (show 2 * k < n by omega), dif_pos (show 2 * k + 1 < n by omega)]
    rfl
  · rw [dif_neg hk, dif_neg (show ¬ 2 * k < n by omega)]
    rfl

/-- The words of an array of odd length, the last entry padded. -/
theorem pairs_ofFn_odd {n : ℕ} (data : Fin n → α) (last : Fin n) (hodd : n % 2 = 1)
    (hlast : last.val + 1 = n) :
    pairs word pad (List.ofFn data) = (List.ofFn fun k : Fin (n / 2) =>
      word (data ⟨2 * k, by omega⟩) (data ⟨2 * k + 1, by omega⟩)) ++ [word (data last) pad] := by
  apply List.ext_getElem?
  intro k
  rw [getElem?_pairs]
  obtain hk | hk | hk := Nat.lt_trichotomy k (n / 2)
  · rw [List.getElem?_append_left (by rwa [List.length_ofFn])]
    simp only [List.getElem?_ofFn]
    rw [dif_pos hk, dif_pos (show 2 * k < n by omega), dif_pos (show 2 * k + 1 < n by omega)]
    rfl
  · have hindex : (⟨2 * k, by omega⟩ : Fin n) = last := Fin.ext (show 2 * k = last.val by omega)
    rw [List.getElem?_append_right (by rw [List.length_ofFn]; omega), List.length_ofFn, hk, Nat.sub_self]
    simp only [List.getElem?_ofFn]
    rw [← hk, dif_pos (show 2 * k < n by omega), dif_neg (show ¬ 2 * k + 1 < n by omega), hindex]
    rfl
  · rw [List.getElem?_append_right (by rw [List.length_ofFn]; omega), List.length_ofFn]
    simp only [List.getElem?_ofFn]
    rw [dif_neg (show ¬ 2 * k < n by omega)]
    exact (List.getElem?_eq_none (Nat.sub_pos_of_lt hk)).symm

end Pairs

section Bytes

/-- The words of a byte sequence in network order, the upper byte first. -/
def networkWords (bytes : List (BitVec 8)) : List (BitVec 16) :=
  pairs (fun upper lower => upper ++ lower) 0#8 bytes

/-- The words of a byte sequence in the order of a little-endian machine, the lower byte first. -/
def storedWords (bytes : List (BitVec 8)) : List (BitVec 16) :=
  pairs (fun lower upper => upper ++ lower) 0#8 bytes

/-- The number of a word of two bytes. -/
theorem toNat_append_bytes (upper lower : BitVec 8) :
    (upper ++ lower).toNat = 256 * upper.toNat + lower.toNat := by
  rw [BitVec.toNat_append, ← Nat.shiftLeft_add_eq_or_of_lt lower.isLt, Nat.shiftLeft_eq]
  omega

/-- Exchanging the bytes of a word multiplies it by 256 modulo 65535. -/
theorem exchange_modEq (lower upper : BitVec 8) :
    256 * (upper ++ lower).toNat ≡ (lower ++ upper).toNat [MOD 2 ^ 16 - 1] := by
  rw [toNat_append_bytes, toNat_append_bytes]
  exact ((Nat.modEq_iff_dvd' (by omega)).mpr ⟨upper.toNat, by omega⟩).symm

/-- The two byte orders give totals that differ by the factor 256 modulo 65535. -/
theorem total_storedWords_modEq (bytes : List (BitVec 8)) :
    256 * total (storedWords bytes) ≡ total (networkWords bytes) [MOD 2 ^ 16 - 1] := by
  unfold storedWords networkWords
  fun_induction pairs (fun lower upper : BitVec 8 => upper ++ lower) 0#8 bytes with
  | case1 lower upper rest ih =>
    rw [total, Nat.mul_add]
    exact (exchange_modEq lower upper).add ih
  | case2 lower => exact exchange_modEq lower 0#8
  | case3 => rfl

/-- Neither order has a zero total alone. -/
theorem total_storedWords_le (bytes : List (BitVec 8)) :
    total (storedWords bytes) ≤ 256 * total (networkWords bytes) := by
  have hword (lower upper : BitVec 8) : (upper ++ lower).toNat ≤ 256 * (lower ++ upper).toNat := by
    rw [toNat_append_bytes, toNat_append_bytes]
    omega
  unfold storedWords networkWords
  fun_induction pairs (fun lower upper : BitVec 8 => upper ++ lower) 0#8 bytes with
  | case1 lower upper rest ih =>
    rw [total, pairs, total, Nat.mul_add]
    exact Nat.add_le_add (hword lower upper) ih
  | case2 lower => exact hword lower 0#8
  | case3 => exact Nat.le_refl 0

/-- The bytes of a word as a little-endian machine stores it. -/
def storedBytes (value : BitVec 16) : List (BitVec 8) := [value.setWidth 8, (value >>> 8).setWidth 8]

/-- A stored word adds itself to the total of the sequence in whose even place it is put. -/
theorem total_insert (before after : List (BitVec 8)) (heven : before.length % 2 = 0)
    (value : BitVec 16) :
    total (storedWords (before ++ storedBytes value ++ after)) =
      total (storedWords before) + value.toNat + total (storedWords after) := by
  have hvalue : ((value >>> 8).setWidth 8 ++ value.setWidth 8).toNat = value.toNat := by
    have hlt := value.isLt
    rw [toNat_append_bytes, BitVec.toNat_setWidth, BitVec.toNat_setWidth, BitVec.toNat_ushiftRight,
      Nat.shiftRight_eq_div_pow]
    omega
  have hwords : storedWords (storedBytes value ++ after) =
      ((value >>> 8).setWidth 8 ++ value.setWidth 8) :: storedWords after := rfl
  rw [List.append_assoc, storedWords, pairs_append _ _ _ _ heven, total_append, ← storedWords,
    ← storedWords, hwords, total, hvalue, Nat.add_assoc]

/-- A sequence verifies in network order when the checksum that is stored in it in little-endian order
is the negative of the total that the sequence has without it. -/
theorem onesSum_insert {before after : List (BitVec 8)} (heven : before.length % 2 = 0)
    {check : BitVec 16}
    (hdvd : 2 ^ 16 - 1 ∣ total (storedWords (before ++ storedBytes 0#16 ++ after)) + check.toNat)
    (hpos : 0 < total (storedWords (before ++ storedBytes 0#16 ++ after)) + check.toNat) :
    onesSum (networkWords (before ++ storedBytes check ++ after)) = BitVec.allOnes 16 := by
  have htotal : total (storedWords (before ++ storedBytes check ++ after)) =
      total (storedWords (before ++ storedBytes 0#16 ++ after)) + check.toNat := by
    rw [total_insert before after heven, total_insert before after heven, BitVec.toNat_ofNat]
    omega
  rw [← htotal] at hdvd hpos
  generalize before ++ storedBytes check ++ after = bytes at hdvd hpos
  apply onesSum_eq_allOnes
  · exact ((total_storedWords_modEq bytes).dvd_iff (dvd_refl _)).mp (hdvd.mul_left 256)
  · have hle := total_storedWords_le bytes
    omega

end Bytes

end CamkesVm.Machine
