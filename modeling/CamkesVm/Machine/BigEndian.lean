import CamkesVm.Machine.Memory

/-!
# Big-endian 32-bit words

A word is packed into four octets, the most significant one first, with the shifts and masks
that C code writes out, and it is unpacked by adding the shifted octets.
-/

namespace CamkesVm.Machine

/-- The octets of a word, most significant first. -/
def wordBytes (w : BitVec 32) : List Byte :=
  [((w >>> 24) &&& 0xFF).setWidth 8, ((w >>> 16) &&& 0xFF).setWidth 8,
    ((w >>> 8) &&& 0xFF).setWidth 8, (w &&& 0xFF).setWidth 8]

/-- The word with the given octets, accumulated from the most significant one. -/
def ofWordBytes (b₀ b₁ b₂ b₃ : Byte) : BitVec 32 :=
  (0 : BitVec 32) + (b₀.setWidth 32 <<< 24) + (b₁.setWidth 32 <<< 16) + (b₂.setWidth 32 <<< 8) +
    b₃.setWidth 32

/-- A word has four bytes. -/
@[simp] theorem wordBytes_length (w : BitVec 32) : (wordBytes w).length = 4 := rfl

/-- The octets of a word accumulate to it. -/
theorem ofWordBytes_wordBytes (w : BitVec 32) :
    ofWordBytes (((w >>> 24) &&& 0xFF).setWidth 8) (((w >>> 16) &&& 0xFF).setWidth 8)
      (((w >>> 8) &&& 0xFF).setWidth 8) ((w &&& 0xFF).setWidth 8) = w := by
  have hbyte (n : ℕ) : n &&& 255 = n % 256 := Nat.and_two_pow_sub_one_eq_mod n 8
  have hw := w.isLt
  apply BitVec.eq_of_toNat_eq
  simp only [ofWordBytes, BitVec.toNat_add, BitVec.toNat_setWidth, BitVec.toNat_shiftLeft,
    BitVec.toNat_and, BitVec.toNat_ushiftRight, BitVec.reduceToNat, Nat.shiftLeft_eq,
    Nat.shiftRight_eq_div_pow, hbyte, Nat.reducePow]
  omega

/-- Different words have different octets. -/
theorem wordBytes_injective : Function.Injective wordBytes := by
  intro v w h
  simp only [wordBytes, List.cons.injEq, and_true] at h
  obtain ⟨h₀, h₁, h₂, h₃⟩ := h
  rw [← ofWordBytes_wordBytes v, ← ofWordBytes_wordBytes w, h₀, h₁, h₂, h₃]

end CamkesVm.Machine
