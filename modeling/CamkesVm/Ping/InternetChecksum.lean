import Mathlib.Data.List.FinRange
import CamkesVm.Machine.OnesComplement
import CamkesVm.Machine.Window
import CamkesVm.Ping.Packet

/-!
# The Internet checksum

`one_comp_checksum` adds the shorts of a byte string in 32 bits and folds the carries into the low half
twice at the end. For the lengths that a packet can have the accumulator does not overflow and two folds
are enough, so the result is the complement of the one's complement sum. A string in which the checksum
has been stored sums up to the all-ones word.
-/

namespace CamkesVm.Ping

open CamkesVm.Machine

section Sum

/-- Adding words into a wider accumulator adds their total, as long as it fits. -/
theorem foldl_add_toNat (words : List (BitVec 16)) (sum : BitVec 32)
    (hfits : sum.toNat + total words < 2 ^ 32) :
    (words.foldl (fun sum word => sum + word.setWidth 32) sum).toNat = sum.toNat + total words := by
  induction words generalizing sum with
  | nil => rfl
  | cons word words ih =>
    rw [total] at hfits
    have hword : (word.setWidth 32).toNat = word.toNat := by
      rw [BitVec.toNat_setWidth]
      omega
    have hsum : (sum + word.setWidth 32).toNat = sum.toNat + word.toNat := by
      rw [BitVec.toNat_add, hword]
      omega
    rw [List.foldl_cons, ih _ (by omega), hsum, total]
    omega

/-- Folding the carries of a total twice gives the one's complement sum. -/
theorem foldCarries_eq {words : List (BitVec 16)} {sum first second : BitVec 32}
    (hsum : sum.toNat = total words) (hfirst : first = (sum >>> 16) + (sum &&& 0xFFFF))
    (hsecond : second = first + (first >>> 16)) : second.setWidth 16 = onesSum words := by
  have hlt := sum.isLt
  have hlow : (sum &&& 0xFFFF).toNat = sum.toNat % 2 ^ 16 := by
    rw [BitVec.toNat_and]
    exact Nat.and_two_pow_sub_one_eq_mod sum.toNat 16
  have hfirst : first.toNat = sum.toNat / 2 ^ 16 + sum.toNat % 2 ^ 16 := by
    rw [hfirst, BitVec.toNat_add, BitVec.toNat_ushiftRight, Nat.shiftRight_eq_div_pow, hlow]
    omega
  have hsecond : second.toNat = first.toNat + first.toNat / 2 ^ 16 := by
    rw [hsecond, BitVec.toNat_add, BitVec.toNat_ushiftRight, Nat.shiftRight_eq_div_pow]
    omega
  -- The second fold adds the carry of the first one, if there is one.
  have hvalue : second.toNat % 2 ^ 16 =
      if first.toNat < 2 ^ 16 then first.toNat else first.toNat - (2 ^ 16 - 1) := by
    split
    · omega
    · have hquot : first.toNat / 2 ^ 16 = 1 := by omega
      omega
  apply eq_onesSum
  · rw [BitVec.toNat_setWidth, hvalue, ← hsum]
    split
    · exact (Nat.modEq_iff_dvd' (by omega)).mpr ⟨sum.toNat / 2 ^ 16, by omega⟩
    · exact (Nat.modEq_iff_dvd' (by omega)).mpr ⟨sum.toNat / 2 ^ 16 + 1, by omega⟩
  · rw [BitVec.toNat_setWidth, hvalue, ← hsum]
    split
    · omega
    · omega

/-- A short as the machine reads it. -/
theorem short_eq_append (lower upper : Byte) :
    lower.setWidth 32 + upper.setWidth 32 <<< 8 = (upper ++ lower).setWidth 32 := by
  apply BitVec.eq_of_toNat_eq
  rw [BitVec.toNat_setWidth, toNat_append_bytes, BitVec.toNat_add, BitVec.toNat_shiftLeft,
    BitVec.toNat_setWidth, BitVec.toNat_setWidth, Nat.shiftLeft_eq]
  omega

/-- The loop adds the words of its pairs of bytes. -/
theorem foldl_shorts {count : ℕ} (lower upper : Fin count → Byte) :
    (List.finRange count).foldl (fun (sum : BitVec 32) k =>
        sum + ((lower k).setWidth 32 + (upper k).setWidth 32 <<< 8)) 0 =
      (List.ofFn fun k => upper k ++ lower k).foldl (fun sum word => sum + word.setWidth 32) 0 := by
  rw [List.ofFn_eq_map, List.foldl_map]
  simp only [short_eq_append]

/-- The accumulator after the loop. -/
theorem loop_toNat (words : List (BitVec 16)) (hcount : words.length < 2 ^ 15) :
    (words.foldl (fun (sum : BitVec 32) word => sum + word.setWidth 32) 0).toNat = total words := by
  have hbound := total_le words
  have hfold := foldl_add_toNat words 0 (by
    change 0 + _ < _
    omega)
  rwa [show (0 : BitVec 32).toNat = 0 from rfl, Nat.zero_add] at hfold

/-- The odd byte adds itself as a word. -/
theorem add_odd_toNat (words : List (BitVec 16)) (last : Byte) (hcount : words.length < 2 ^ 15) :
    (words.foldl (fun (sum : BitVec 32) word => sum + word.setWidth 32) 0 + last.setWidth 32).toNat =
      total (words ++ [0#8 ++ last]) := by
  have hbound := total_le words
  have hlast := last.isLt
  rw [BitVec.toNat_add, loop_toNat words hcount, BitVec.toNat_setWidth, total_append, total, total,
    toNat_append_bytes, BitVec.toNat_ofNat]
  omega

/-- The checksum is the complement of the one's complement sum of the words. -/
theorem oneCompChecksum_eq {length : ℕ} (data : Bytes length) (hshort : length ≤ 65535) :
    oneCompChecksum data = ~~~onesSum (storedWords (List.ofFn data)) := by
  unfold oneCompChecksum
  dsimp only
  rw [BitVec.setWidth_not (by decide), foldl_shorts]
  congr 1
  apply foldCarries_eq _ rfl rfl
  by_cases hodd : length % 2 = 1
  · have hlast : length - 1 + 1 = length := by omega
    rw [dif_pos hodd, add_odd_toNat _ _ (by rw [List.length_ofFn]; omega), storedWords,
      pairs_ofFn_odd _ _ data ⟨length - 1, by omega⟩ hodd hlast]
  · rw [dif_neg hodd, loop_toNat _ (by rw [List.length_ofFn]; omega), storedWords,
      pairs_ofFn _ _ data (by omega)]

end Sum

section Stored

variable {m : ℕ} {b r : Bytes m} {field start length : ℕ} {value : BitVec 16}

/-- A stored short replaces the two bytes of its field in every part of the buffer that covers it. -/
theorem window_stored (hstart : start ≤ field) (hinside : field + 2 ≤ start + length)
    (hfit : start + length ≤ m) (h : copy b field (shortBytes value) 0 2 = some r) :
    ∃ before after : List Byte, before.length = field - start ∧
      window (List.ofFn b) start length = before ++ window (List.ofFn b) field 2 ++ after ∧
      window (List.ofFn r) start length = before ++ storedBytes value ++ after := by
  obtain ⟨left, hleft⟩ := Nat.exists_eq_add_of_le hstart
  obtain ⟨right, hright⟩ := Nat.exists_eq_add_of_le hinside
  obtain rfl : length = left + 2 + right := by omega
  have hparts (c : Bytes m) : window (List.ofFn c) start (left + 2 + right) =
      window (List.ofFn c) start left ++ window (List.ofFn c) field 2 ++
        window (List.ofFn c) (field + 2) right := by
    rw [window_add, window_add, hleft, Nat.add_assoc]
  refine ⟨window (List.ofFn b) start left, window (List.ofFn b) (field + 2) right, ?_, hparts b, ?_⟩
  · rw [length_window (by rw [List.length_ofFn]; omega)]
    omega
  · have hbefore : window (List.ofFn r) start left = window (List.ofFn b) start left :=
      window_congr (fun i _ hi => copy_outside h i (by omega)) (by omega)
    have hafter : window (List.ofFn r) (field + 2) right = window (List.ofFn b) (field + 2) right :=
      window_congr (fun i hi _ => copy_outside h i (by omega)) (by omega)
    have hfield : window (List.ofFn r) field 2 = storedBytes value := window_of_copy h
    rw [hparts r, hbefore, hafter, hfield]

end Stored

/-- The checksum of a string that is not empty is the Internet checksum: the complement of the one's
complement sum of the words, an odd last byte padded. Stored in a zero word of an even string, it makes
the checksum of the string zero. -/
theorem oneCompChecksum_internet {n : ℕ} (data : Bytes n) (_hpos : 1 ≤ n) (hshort : n ≤ 65535) :
    oneCompChecksum data = ~~~onesSum (storedWords (List.ofFn data)) ∧
      ∀ off, n % 2 = 0 → off % 2 = 0 → slice data off 2 = some (shortBytes 0) →
        ∃ stored, copy data off (shortBytes (oneCompChecksum data)) 0 2 = some stored ∧
          oneCompChecksum stored = 0 := by
  refine ⟨oneCompChecksum_eq data hshort, ?_⟩
  intro off heven hoff hzero
  have hfit : off + 2 ≤ n := slice_bounds hzero
  have hsome : (copy data off (shortBytes (oneCompChecksum data)) 0 2).isSome = true :=
    isSome_copy hfit (Nat.le_refl 2)
  obtain ⟨stored, hstored⟩ := Option.isSome_iff_exists.mp hsome
  refine ⟨stored, hstored, ?_⟩
  have hall (c : Bytes n) : window (List.ofFn c) 0 n = List.ofFn c :=
    List.take_of_length_le (Nat.le_of_eq List.length_ofFn)
  have hfield : window (List.ofFn data) off 2 = storedBytes 0 := (ofFn_of_slice hzero).symm
  obtain ⟨before, after, hbefore, hdata, hnew⟩ :=
    window_stored (Nat.zero_le off) (by omega) (Nat.le_of_eq (Nat.zero_add n)) hstored
  rw [hall, hfield] at hdata
  rw [hall] at hnew
  have htotal : total (storedWords (List.ofFn stored)) =
      total (storedWords (List.ofFn data)) + (oneCompChecksum data).toNat := by
    rw [hnew, hdata, total_insert before after (by omega), total_insert before after (by omega)]
    change _ = _ + 0 + _ + _
    omega
  obtain ⟨hdvd, hnonzero⟩ := dvd_total_add_not (by decide) (storedWords (List.ofFn data))
  rw [← oneCompChecksum_eq data hshort, ← htotal] at hdvd hnonzero
  rw [oneCompChecksum_eq stored hshort, onesSum_eq_allOnes hdvd hnonzero]
  rfl

/-- Three bytes are two words. -/
theorem oneCompChecksum_three :
    oneCompChecksum (![0x12, 0x34, 0x56] : Bytes 3) = ~~~onesSum [0x3412#16, 0x0056#16] :=
  (oneCompChecksum_internet ![0x12, 0x34, 0x56] (by decide) (by decide)).1

end CamkesVm.Ping
