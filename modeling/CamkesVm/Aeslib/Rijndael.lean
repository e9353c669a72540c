import CamkesVm.Machine.Words
import Mathlib.Logic.Function.Iterate

/-!
# The cipher of the standard

The block cipher as its standard describes it. A state has four columns of four bytes. A round
substitutes every byte, moves the rows, multiplies every column by a fixed circulant matrix over the
field of bytes and adds a round key; the last round does not multiply. The inverse cipher undoes the
steps one by one.

The substitution box and the matrices of the cipher are parameters. A box with an inverse and a
matrix with an inverse give a cipher that the inverse cipher inverts, for any number of rounds and
any round keys. The standard's box is the affine image of the inverse in the field of bytes.
-/

namespace CamkesVm.Aeslib

open CamkesVm.Machine

section ByteField

/-- The product of a byte by `x` modulo the polynomial of the byte field. -/
def xtime (b : Byte) : Byte := b <<< 1 ^^^ if b.msb then 0x1B else 0

/-- The product of two bytes. -/
def gmul (a b : Byte) : Byte :=
  (List.range 8).foldl (fun acc i => if a.getLsbD i then acc ^^^ xtime^[i] b else acc) 0

/-- Doubling is linear. -/
theorem xtime_xor (a b : Byte) : xtime (a ^^^ b) = xtime a ^^^ xtime b := by
  have hcarry : (if (a ^^^ b).msb then (0x1B : Byte) else 0) =
      (if a.msb then 0x1B else 0) ^^^ if b.msb then 0x1B else 0 := by
    rw [BitVec.msb_xor]
    cases a.msb <;> cases b.msb <;> rfl
  simp only [xtime, BitVec.shiftLeft_xor_distrib]
  rw [hcarry]
  ac_rfl

/-- Multiplication distributes over addition. -/
theorem gmul_xor (a b c : Byte) : gmul a (b ^^^ c) = gmul a b ^^^ gmul a c := by
  have hiterate (i : ℕ) (b c : Byte) : xtime^[i] (b ^^^ c) = xtime^[i] b ^^^ xtime^[i] c := by
    induction i generalizing b c with
    | zero => rfl
    | succ i ih => simp only [Function.iterate_succ_apply, xtime_xor, ih]
  have hfold (is : List ℕ) (u v : Byte) :
      is.foldl (fun acc i => if a.getLsbD i then acc ^^^ xtime^[i] (b ^^^ c) else acc) (u ^^^ v) =
        is.foldl (fun acc i => if a.getLsbD i then acc ^^^ xtime^[i] b else acc) u ^^^
          is.foldl (fun acc i => if a.getLsbD i then acc ^^^ xtime^[i] c else acc) v := by
    induction is generalizing u v with
    | nil => rfl
    | cons i is ih =>
      simp only [List.foldl_cons]
      rw [← ih]
      congr 1
      split
      · rw [hiterate]
        ac_rfl
      · rfl
  exact hfold (List.range 8) 0 0

/-- The affine map of the standard's substitution. -/
def affine (c : Byte) : Byte :=
  c ^^^ c.rotateLeft 1 ^^^ c.rotateLeft 2 ^^^ c.rotateLeft 3 ^^^ c.rotateLeft 4 ^^^ 0x63

/-- The substitution of the standard: the affine image of the inverse, zero being its own. -/
def IsSubstitution (box : Byte → Byte) : Prop :=
  ∀ b, ∃ c, (if b = 0 then c = 0 else gmul b c = 1) ∧ box b = affine c

end ByteField

section Steps

/-- The columns of a state, each with its four bytes. -/
abbrev State := Fin 4 → Bytes 4

/-- The state of a block, column by column. -/
def blockState (b : Block) : State := fun c r => b.get (unitIx c r)

/-- The block of a state. -/
def stateBlock (s : State) : Block := Vector.ofFn fun i => s (unitOf i) (byteOf i)

/-- A block is read back from its state. -/
@[simp] theorem stateBlock_blockState (b : Block) : stateBlock (blockState b) = b := by
  apply vector_ext
  intro i
  rw [stateBlock, get_ofFn, blockState, unitIx_unitOf]

/-- A state is read back from its block. -/
@[simp] theorem blockState_stateBlock (s : State) : blockState (stateBlock s) = s := by
  funext c r
  rw [stateBlock, blockState, get_ofFn, unitOf_unitIx, byteOf_unitIx]

/-- Substitute every byte. -/
def subBytes (box : Byte → Byte) (s : State) : State := fun c r => box (s c r)

/-- Move row `r` by `r` columns. -/
def shiftRows (s : State) : State := fun c r => s (c + r) r

/-- Move row `r` back by `r` columns. -/
def invShiftRows (s : State) : State := fun c r => s (c - r) r

/-- Multiply a column by the circulant matrix with first row `m`. -/
def mixColumn (m col : Bytes 4) : Bytes 4 := fun j =>
  gmul (m (0 - j)) (col 0) ^^^ gmul (m (1 - j)) (col 1) ^^^ gmul (m (2 - j)) (col 2) ^^^
    gmul (m (3 - j)) (col 3)

/-- Multiply every column. -/
def mixColumns (m : Bytes 4) (s : State) : State := fun c => mixColumn m (s c)

/-- Add a round key. -/
def addRoundKey (k s : State) : State := fun c r => k c r ^^^ s c r

variable (box inv : Byte → Byte) (m n : Bytes 4)

/-- Shifting the rows back undoes the shift. -/
@[simp] theorem invShiftRows_shiftRows (s : State) : invShiftRows (shiftRows s) = s := by
  funext c r
  have hback : c - r + r = c := by omega
  rw [invShiftRows, shiftRows, hback]

/-- Adding a round key twice undoes it. -/
@[simp] theorem addRoundKey_addRoundKey (k s : State) : addRoundKey k (addRoundKey k s) = s := by
  funext c r
  rw [addRoundKey, addRoundKey, ← BitVec.xor_assoc, BitVec.xor_self, BitVec.zero_xor]

/-- Substitution commutes with moving the rows back. -/
theorem subBytes_invShiftRows (s : State) :
    subBytes box (invShiftRows s) = invShiftRows (subBytes box s) := rfl

/-- Multiplication of a column is additive. -/
theorem mixColumn_xor (u v : Bytes 4) (j : Fin 4) :
    mixColumn m (fun r => u r ^^^ v r) j = mixColumn m u j ^^^ mixColumn m v j := by
  simp only [mixColumn, gmul_xor]
  ac_rfl

/-- Mixing the columns distributes over the addition of a key. -/
theorem mixColumns_addRoundKey (k s : State) :
    mixColumns m (addRoundKey k s) = addRoundKey (mixColumns m k) (mixColumns m s) := by
  funext c j
  exact mixColumn_xor m (k c) (s c) j

/-- A sum over the four rows may start at any row. -/
theorem xor_rotate (f : Bytes 4) :
    ∀ j, f 0 ^^^ f 1 ^^^ f 2 ^^^ f 3 = f j ^^^ f (j + 1) ^^^ f (j + 2) ^^^ f (j + 3)
  | 0 => rfl
  | 1 => (by ac_rfl : _ = f 1 ^^^ f 2 ^^^ f 3 ^^^ f 0)
  | 2 => (by ac_rfl : _ = f 2 ^^^ f 3 ^^^ f 0 ^^^ f 1)
  | 3 => (by ac_rfl : _ = f 3 ^^^ f 0 ^^^ f 1 ^^^ f 2)

/-- The product of two circulant matrices is the unit matrix when its first row is that of the unit
matrix. -/
theorem mixColumn_inverse {m n : Bytes 4}
    (h : ∀ d x, gmul (n 0) (gmul (m d) x) ^^^ gmul (n 1) (gmul (m (d - 1)) x) ^^^
      gmul (n 2) (gmul (m (d - 2)) x) ^^^ gmul (n 3) (gmul (m (d - 3)) x) = if d = 0 then x else 0)
    (col : Bytes 4) : mixColumn n (mixColumn m col) = col := by
  funext j
  have hself : j - j = 0 := by omega
  have hback (k : Fin 4) : j + k - j = k := by omega
  have hfrom (v : Bytes 4) : mixColumn n v j = gmul (n 0) (v j) ^^^ gmul (n 1) (v (j + 1)) ^^^
      gmul (n 2) (v (j + 2)) ^^^ gmul (n 3) (v (j + 3)) := by
    have hrow := xor_rotate (fun r => gmul (n (r - j)) (v r)) j
    simp only [hback, hself] at hrow
    exact hrow
  have hcol (r k : Fin 4) : r - (j + k) = r - j - k := by omega
  have hterms : mixColumn n (mixColumn m col) j =
      (if (0 : Fin 4) - j = 0 then col 0 else 0) ^^^ (if (1 : Fin 4) - j = 0 then col 1 else 0) ^^^
        (if (2 : Fin 4) - j = 0 then col 2 else 0) ^^^ if (3 : Fin 4) - j = 0 then col 3 else 0 := by
    rw [← h, ← h, ← h, ← h, hfrom]
    simp only [mixColumn, gmul_xor, hcol]
    ac_rfl
  rw [hterms]
  fin_cases j <;> simp

end Steps

section Cipher

/-- Round key `i` of a list of words. -/
def roundKey (w : ℕ → Bytes 4) (i : ℕ) : State := fun c => w (4 * i + c)

/-- A normal round. -/
def cipherRound (box : Byte → Byte) (m : Bytes 4) (k s : State) : State :=
  addRoundKey k (mixColumns m (shiftRows (subBytes box s)))

/-- The cipher with the given number of rounds. -/
def cipher (box : Byte → Byte) (m : Bytes 4) (w : ℕ → Bytes 4) (rounds : ℕ) (s : State) : State :=
  let s := addRoundKey (roundKey w 0) s
  let s := (List.range' 1 (rounds - 1)).foldl (fun s i => cipherRound box m (roundKey w i) s) s
  addRoundKey (roundKey w rounds) (shiftRows (subBytes box s))

/-- The cipher depends on the words of its round keys only. -/
theorem cipher_congr (box : Byte → Byte) (m : Bytes 4) {w w' : ℕ → Bytes 4} {rounds : ℕ}
    (hrounds : 0 < rounds) (h : ∀ i < 4 * rounds + 4, w i = w' i) (s : State) :
    cipher box m w rounds s = cipher box m w' rounds s := by
  have hkey (i : ℕ) (hi : i ≤ rounds) : roundKey w i = roundKey w' i := by
    funext c
    exact h _ (by omega)
  have hmiddle (s : State) :
      (List.range' 1 (rounds - 1)).foldl (fun s i => cipherRound box m (roundKey w i) s) s =
        (List.range' 1 (rounds - 1)).foldl (fun s i => cipherRound box m (roundKey w' i) s) s := by
    apply List.foldl_ext
    intro s i hi
    rw [List.mem_range'_1] at hi
    rw [hkey i (by omega)]
  simp only [cipher]
  rw [hkey 0 (by omega), hkey rounds le_rfl, hmiddle]

/-- A normal round of the inverse cipher. -/
def invCipherRound (inv : Byte → Byte) (n : Bytes 4) (k s : State) : State :=
  mixColumns n (addRoundKey k (subBytes inv (invShiftRows s)))

/-- The inverse cipher with the given number of rounds. -/
def invCipher (inv : Byte → Byte) (n : Bytes 4) (w : ℕ → Bytes 4) (rounds : ℕ) (s : State) : State :=
  let s := addRoundKey (roundKey w rounds) s
  let s := (List.range' 1 (rounds - 1)).reverse.foldl
    (fun s i => invCipherRound inv n (roundKey w i) s) s
  addRoundKey (roundKey w 0) (subBytes inv (invShiftRows s))

/-- The inverse cipher undoes the cipher. -/
theorem invCipher_cipher {box inv : Byte → Byte} {m n : Bytes 4} (hbox : ∀ b, inv (box b) = b)
    (hmix : ∀ col, mixColumn n (mixColumn m col) = col) (w : ℕ → Bytes 4) (rounds : ℕ) (s : State) :
    invCipher inv n w rounds (cipher box m w rounds s) = s := by
  have hsub (s : State) : subBytes inv (invShiftRows (shiftRows (subBytes box s))) = s := by
    rw [invShiftRows_shiftRows]
    funext c r
    exact hbox (s c r)
  have hround (k s : State) :
      invCipherRound inv n k (shiftRows (subBytes box (cipherRound box m k s))) =
        shiftRows (subBytes box s) := by
    rw [invCipherRound, hsub, cipherRound, addRoundKey_addRoundKey]
    funext c
    exact hmix _
  -- The middle rounds are undone from the last one to the first.
  have hrounds (is : List ℕ) (s : State) :
      is.reverse.foldl (fun s i => invCipherRound inv n (roundKey w i) s)
        (shiftRows (subBytes box (is.foldl (fun s i => cipherRound box m (roundKey w i) s) s))) =
        shiftRows (subBytes box s) := by
    induction is using List.reverseRecOn with
    | nil => rfl
    | append_singleton is i ih =>
      rw [List.reverse_append, List.foldl_append, List.foldl_append]
      simp only [List.reverse_singleton, List.foldl_cons, List.foldl_nil]
      rw [hround, ih]
  dsimp only [invCipher, cipher]
  rw [addRoundKey_addRoundKey, hrounds, hsub, addRoundKey_addRoundKey]

end Cipher

section KeyExpansion

/-- The words of the key schedule for a key of four words. -/
def keyExpansion (box : Byte → Byte) (key : State) (i : ℕ) : Bytes 4 :=
  if h : i < 4 then key ⟨i, h⟩
  else
    let temp := keyExpansion box key (i - 1)
    let temp := if i % 4 = 0 then
        fun r => box (temp (r + 1)) ^^^ if r = 0 then xtime^[i / 4 - 1] 1 else 0
      else temp
    fun r => keyExpansion box key (i - 4) r ^^^ temp r
  termination_by i
  decreasing_by all_goals omega

/-- The first row of the mixing matrix. -/
def fwdMatrix : Bytes 4 := ![0x02, 0x03, 0x01, 0x01]

/-- The first row of the inverse mixing matrix. -/
def invMatrix : Bytes 4 := ![0x0E, 0x0B, 0x0D, 0x09]

/-- The column multiplications undo each other. -/
theorem mixColumn_invMatrix (col : Bytes 4) : mixColumn invMatrix (mixColumn fwdMatrix col) = col := by
  have hconstants (x : Byte) : gmul 0x01 x = x ∧ gmul 0x02 x = xtime x ∧
      gmul 0x03 x = x ^^^ xtime x ∧ gmul 0x09 x = x ^^^ xtime (xtime (xtime x)) ∧
      gmul 0x0B x = x ^^^ xtime x ^^^ xtime (xtime (xtime x)) ∧
      gmul 0x0D x = x ^^^ xtime (xtime x) ^^^ xtime (xtime (xtime x)) ∧
      gmul 0x0E x = xtime x ^^^ xtime (xtime x) ^^^ xtime (xtime (xtime x)) := by
    simp [gmul, List.range, List.range.loop]
  apply mixColumn_inverse
  intro d x
  fin_cases d
  · change gmul 0x0E (gmul 0x02 x) ^^^ gmul 0x0B (gmul 0x01 x) ^^^ gmul 0x0D (gmul 0x01 x) ^^^
      gmul 0x09 (gmul 0x03 x) = x
    simp only [hconstants, xtime_xor]
    grind
  · change gmul 0x0E (gmul 0x03 x) ^^^ gmul 0x0B (gmul 0x02 x) ^^^ gmul 0x0D (gmul 0x01 x) ^^^
      gmul 0x09 (gmul 0x01 x) = 0
    simp only [hconstants, xtime_xor]
    grind
  · change gmul 0x0E (gmul 0x01 x) ^^^ gmul 0x0B (gmul 0x03 x) ^^^ gmul 0x0D (gmul 0x02 x) ^^^
      gmul 0x09 (gmul 0x01 x) = 0
    simp only [hconstants, xtime_xor]
    grind
  · change gmul 0x0E (gmul 0x01 x) ^^^ gmul 0x0B (gmul 0x01 x) ^^^ gmul 0x0D (gmul 0x03 x) ^^^
      gmul 0x09 (gmul 0x02 x) = 0
    simp only [hconstants, xtime_xor]
    grind

/-- Encryption of a block with a 128-bit key. -/
def aes128 (box : Byte → Byte) (key inp : Block) : Block :=
  stateBlock (cipher box fwdMatrix (keyExpansion box (blockState key)) 10 (blockState inp))

/-- Decryption of a block with a 128-bit key. -/
def aes128Inverse (box inv : Byte → Byte) (key inp : Block) : Block :=
  stateBlock (invCipher inv invMatrix (keyExpansion box (blockState key)) 10 (blockState inp))

end KeyExpansion

end CamkesVm.Aeslib
