import CamkesVm.Aeslib.Gcm
import CamkesVm.Aeslib.GcmMode

/-!
# Encryption in pieces

A call that goes on encrypting combines its data with the counter stream from where the last call
stopped: the rest of the last encrypted counter block first, then the next ones. The loops over words
and blocks change neither the bytes nor the place in the stream, for either alignment, so that any
sequence of calls encrypts as one call over all the data.
-/

namespace CamkesVm.Aeslib

open CamkesVm.Machine

section Increment

/-- The number of a word in terms of its bytes. -/
theorem ofWordBytes_toNat (a b c d : Byte) : (ofWordBytes a b c d).toNat =
    a.toNat * 2 ^ 24 + b.toNat * 2 ^ 16 + c.toNat * 2 ^ 8 + d.toNat := by
  have ha := a.isLt
  have hb := b.isLt
  have hc := c.isLt
  have hd := d.isLt
  simp only [ofWordBytes, BitVec.toNat_add, BitVec.toNat_setWidth, BitVec.toNat_shiftLeft,
    BitVec.reduceToNat, Nat.shiftLeft_eq, Nat.reducePow]
  omega

/-- The bytes of a word in terms of its number. -/
theorem wordBytes_eq (w : BitVec 32) : wordBytes w =
    [BitVec.ofNat 8 (w.toNat / 2 ^ 24), BitVec.ofNat 8 (w.toNat / 2 ^ 16),
      BitVec.ofNat 8 (w.toNat / 2 ^ 8), BitVec.ofNat 8 w.toNat] := by
  have hbyte (n : ℕ) : n &&& 255 = n % 256 := Nat.and_two_pow_sub_one_eq_mod n 8
  simp only [wordBytes, List.cons.injEq, ← BitVec.toNat_inj, BitVec.toNat_setWidth, BitVec.toNat_and,
    BitVec.toNat_ushiftRight, BitVec.toNat_ofNat, BitVec.reduceToNat,
    Nat.shiftRight_eq_div_pow, hbyte, Nat.reducePow, Nat.mod_mod, and_self]

/-- The octets of the next word, with the carries written out. -/
theorem wordBytes_succ (a b c d : Byte) :
    wordBytes (ofWordBytes a b c d + 1) =
      if d + 1 = 0 then
        if c + 1 = 0 then
          if b + 1 = 0 then [a + 1, 0, 0, 0] else [a, b + 1, 0, 0]
        else [a, b, c + 1, 0]
      else [a, b, c, d + 1] := by
  have ha := a.isLt
  have hb := b.isLt
  have hc := c.isLt
  have hd := d.isLt
  have hzero (x : Byte) : x + 1 = 0 ↔ x.toNat = 255 := by
    have hx := x.isLt
    rw [← BitVec.toNat_inj, BitVec.toNat_add]
    simp only [BitVec.reduceToNat]
    omega
  have hnext : (ofWordBytes a b c d + 1).toNat =
      (a.toNat * 2 ^ 24 + b.toNat * 2 ^ 16 + c.toNat * 2 ^ 8 + d.toNat + 1) % 2 ^ 32 := by
    rw [BitVec.toNat_add, ofWordBytes_toNat]
    rfl
  rw [wordBytes_eq, hnext]
  simp only [hzero]
  split_ifs <;>
    simp only [List.cons.injEq, and_true, ← BitVec.toNat_inj, BitVec.toNat_ofNat, BitVec.toNat_add,
      BitVec.reduceToNat] <;>
    omega

/-- A counter written byte by byte, from the last one. -/
theorem withCtr_eq_put (x : Block) {w : BitVec 32} {a b c d : Byte} (hw : wordBytes w = [a, b, c, d]) :
    withCtr x w = put (put (put (put x 15 d) 14 c) 13 b) 12 a := by
  apply vector_ext
  intro i
  rw [withCtr, get_ofFn, hw, get_put, get_put, get_put, get_put]
  by_cases hi : i < 12
  · rw [if_pos hi, if_neg (by omega), if_neg (by omega), if_neg (by omega), if_neg (by omega)]
  · obtain rfl | rfl | rfl | rfl : i = 12 ∨ i = 13 ∨ i = 14 ∨ i = 15 := by omega
    all_goals rfl

/-- Writing the byte that is there changes nothing. -/
theorem put_eq_self {v : Block} {i : Fin 16} {b : Byte} (h : v.get i = b) : put v i b = v := by
  apply vector_ext
  intro j
  rw [get_put]
  split_ifs with hj
  · rw [hj, h]
  · rfl

/-- One step of the increment: a byte that wraps carries into the next. -/
theorem incBytes_cons (i : Fin 16) (rest : List (Fin 16)) (x : Block) : incBytes (i :: rest) x =
    if x.get i + 1 = 0 then incBytes rest (put x i 0) else put x i (x.get i + 1) := by
  rw [incBytes]
  simp only [get_put, if_true]
  split_ifs with h
  · rw [h]
  · rfl

/-- The loop over the last bytes steps the counter. -/
theorem incCtr_eq (x : Block) : incCtr x = inc32 x := by
  have hbytes := wordBytes_succ (x.get 12) (x.get 13) (x.get 14) (x.get 15)
  have hkeep (v : Block) (b : Byte) {i j : Fin 16} (hij : j ≠ i) : (put v i b).get j = v.get j := by
    rw [get_put, if_neg hij]
  -- the bytes in front of the last carry are those of the counter before
  have h14 (b : Byte) : (put x 15 b).get 14 = x.get 14 := hkeep x b (by decide)
  have h13 (b c : Byte) : (put (put x 15 b) 14 c).get 13 = x.get 13 := by
    rw [hkeep _ _ (by decide), hkeep _ _ (by decide)]
  have h12 (b c d : Byte) : (put (put (put x 15 b) 14 c) 13 d).get 12 = x.get 12 := by
    rw [hkeep _ _ (by decide), hkeep _ _ (by decide), hkeep _ _ (by decide)]
  rw [inc32, ctrWord, incCtr, incBytes_cons]
  split_ifs at hbytes ⊢ with hd hc hb
  · rw [incBytes_cons, h14, if_pos hc, incBytes_cons, h13, if_pos hb, incBytes_cons, h12, incBytes,
      withCtr_eq_put x hbytes]
    split_ifs with ha
    · rw [ha]
    · rfl
  · rw [incBytes_cons, h14, if_pos hc, incBytes_cons, h13, if_neg hb, withCtr_eq_put x hbytes,
      put_eq_self (h12 _ _ _)]
  · rw [incBytes_cons, h14, if_neg hc, withCtr_eq_put x hbytes, put_eq_self (h13 _ _),
      put_eq_self ((hkeep _ _ (by decide)).trans (hkeep x _ (by decide)))]
  · rw [withCtr_eq_put x hbytes, put_eq_self (h14 _), put_eq_self (hkeep x _ (by decide)),
      put_eq_self (hkeep x _ (by decide))]

end Increment

section Stream

/-- Data combined with the counter stream from byte `c` on. -/
def streamFrom (E : Block → Block) (j : Block) (c : ℕ) (data : List Byte) : List Byte :=
  data.mapIdx fun k b => b ^^^ keyByte E j (c + k)

/-- From the start of the stream the data are encrypted as the standard says. -/
theorem streamFrom_zero (E : Block → Block) (j : Block) (data : List Byte) :
    streamFrom E j 0 data = gctr E j data := by
  simp only [streamFrom, gctr, Nat.zero_add]

/-- Encryption keeps the length. -/
@[simp] theorem length_streamFrom (E : Block → Block) (j : Block) (c : ℕ) (data : List Byte) :
    (streamFrom E j c data).length = data.length :=
  List.length_mapIdx

/-- A second piece goes on in the stream where the first one ends. -/
theorem streamFrom_append (E : Block → Block) (j : Block) (c : ℕ) (data more : List Byte) :
    streamFrom E j c (data ++ more) = streamFrom E j c data ++ streamFrom E j (c + data.length) more := by
  simp only [streamFrom, List.mapIdx_append, Nat.add_assoc, Nat.add_comm data.length]

variable {aes : AesCtx} {E : Block → Block} {j : Block}

/-- The state in front of byte `c` of the stream. -/
structure InStream (E : Block → Block) (j : Block) (c : ℕ) (s : CryptState) : Prop where
  ctr_eq : s.ctrVal = inc32^[(c + 15) / 16] j
  enc_eq : c ≠ 0 → s.encCtr = E s.ctrVal
  pos_mod : s.bPos % 16 = c % 16
  pos_le : s.bPos ≤ 16

/-- A byte of the block that is in use. -/
theorem cryptByte_inStream {c : ℕ} {s : CryptState} (h : InStream E j c s) (hpos : s.bPos ≠ 0)
    (hlt : s.bPos < 16) (b : Byte) :
    InStream E j (c + 1) (cryptByte s [b]) ∧
      (cryptByte s [b]).done = s.done ++ streamFrom E j c [b] := by
  have hmod := h.pos_mod
  have hblock : (c + 15) / 16 = c / 16 + 1 := by omega
  have hplace : place s.bPos = place c := Fin.ext hmod
  have hkey : s.encCtr.get (place s.bPos) = keyByte E j c := by
    rw [keyByte, h.enc_eq (by omega), h.ctr_eq, hblock, hplace]
  refine ⟨⟨?_, fun _ => h.enc_eq (by omega), ?_, ?_⟩, ?_⟩
  · have hnext : (c + 1 + 15) / 16 = (c + 15) / 16 := by omega
    rw [hnext]
    exact h.ctr_eq
  · change (s.bPos + 1) % 16 = (c + 1) % 16
    omega
  · exact hlt
  · rw [cryptByte, hkey]
    rfl

/-- The next block at the end of the one in use. -/
theorem nextCtr_inStream (hE : ∀ inp out, (aesEncrypt inp out aes).2 = E inp) {c : ℕ} {s : CryptState}
    (h : InStream E j c s) (hc : c % 16 = 0) :
    (nextCtr aes s).ctrVal = inc32^[c / 16 + 1] j ∧ (nextCtr aes s).encCtr = E (inc32^[c / 16 + 1] j) := by
  have hblock : (c + 15) / 16 = c / 16 := by omega
  have hctr : incCtr s.ctrVal = inc32^[c / 16 + 1] j := by
    rw [incCtr_eq, h.ctr_eq, hblock, Function.iterate_succ_apply']
  exact ⟨hctr, (hE _ _).trans (congrArg E hctr)⟩

/-- A byte at any place of the stream. -/
theorem cryptNext_inStream (hE : ∀ inp out, (aesEncrypt inp out aes).2 = E inp) {c : ℕ} {s : CryptState}
    (h : InStream E j c s) (b : Byte) :
    let s' := cryptByte
      (if s.bPos = 16 ∨ s.bPos = 0 then { nextCtr aes s with bPos := 0 } else s) [b]
    InStream E j (c + 1) s' ∧ s'.done = s.done ++ streamFrom E j c [b] := by
  have hmod := h.pos_mod
  have hle := h.pos_le
  split_ifs with hnew
  · obtain ⟨hctr, henc⟩ := nextCtr_inStream hE h (by omega)
    have hplace : place 0 = place c := Fin.ext (by change 0 % 16 = c % 16; omega)
    have hnext : (c + 1 + 15) / 16 = c / 16 + 1 := by omega
    refine ⟨⟨?_, fun _ => ?_, ?_, ?_⟩, ?_⟩
    · rw [hnext]
      exact hctr
    · exact henc.trans (congrArg E hctr.symm)
    · change (0 + 1) % 16 = (c + 1) % 16
      omega
    · exact Nat.le_of_lt (by decide : 0 + 1 < 16)
    · change s.done ++ [b ^^^ (nextCtr aes s).encCtr.get (place 0)] = s.done ++ [b ^^^ keyByte E j c]
      rw [henc, hplace]
      rfl
  · exact cryptByte_inStream h (by omega) (by omega) b

/-- A word is four bytes. -/
theorem cryptUnit_eq (s : CryptState) (b₀ b₁ b₂ b₃ : Byte) : cryptUnit s [b₀, b₁, b₂, b₃] =
    cryptByte (cryptByte (cryptByte (cryptByte s [b₀]) [b₁]) [b₂]) [b₃] := by
  have hbyte (k : Fin 4) : byteAt (listWord [b₀, b₁, b₂, b₃] ^^^ loadWord s.encCtr s.bPos) k =
      [b₀, b₁, b₂, b₃].getD k 0 ^^^ s.encCtr.get (place (s.bPos + k)) := by
    rw [byteAt_xor, byteAt_listWord, byteAt_loadWord]
  have h0 : byteAt (listWord [b₀, b₁, b₂, b₃] ^^^ loadWord s.encCtr s.bPos) 0 =
      b₀ ^^^ s.encCtr.get (place s.bPos) := hbyte 0
  have h1 : byteAt (listWord [b₀, b₁, b₂, b₃] ^^^ loadWord s.encCtr s.bPos) 1 =
      b₁ ^^^ s.encCtr.get (place (s.bPos + 1)) := hbyte 1
  have h2 : byteAt (listWord [b₀, b₁, b₂, b₃] ^^^ loadWord s.encCtr s.bPos) 2 =
      b₂ ^^^ s.encCtr.get (place (s.bPos + 2)) := hbyte 2
  have h3 : byteAt (listWord [b₀, b₁, b₂, b₃] ^^^ loadWord s.encCtr s.bPos) 3 =
      b₃ ^^^ s.encCtr.get (place (s.bPos + 3)) := hbyte 3
  simp only [cryptUnit, h0, h1, h2, h3, cryptByte, List.append_assoc, List.singleton_append,
    List.getD_cons_zero]
  rfl

/-- A whole block of the stream. -/
theorem toList_xorBlock {c : ℕ} (hc : c % 16 = 0) {piece : List Byte} (hlen : piece.length = 16) :
    (xorBlock (listBlock piece) (E (inc32^[c / 16 + 1] j))).toList = streamFrom E j c piece := by
  apply List.ext_getElem
  · rw [Vector.length_toList, streamFrom, List.length_mapIdx, hlen]
  · intro k hk _
    have hk16 : k < 16 := by rwa [Vector.length_toList] at hk
    have hblock : (c + k) / 16 = c / 16 := by omega
    have hplace : place (c + k) = ⟨k, hk16⟩ := Fin.ext (by change (c + k) % 16 = k; omega)
    have hkp : k < piece.length := by omega
    have hget : (listBlock piece).get ⟨k, hk16⟩ = piece[k] := by
      rw [listBlock, get_ofFn, List.getD_eq_getElem]
    have hxor : (xorBlock (listBlock piece) (E (inc32^[c / 16 + 1] j))).get ⟨k, hk16⟩ =
        piece[k] ^^^ keyByte E j (c + k) := by
      rw [xorBlock, get_ofFn, hget, keyByte, hblock, hplace]
    rw [Vector.getElem_toList]
    simp only [streamFrom, List.getElem_mapIdx]
    exact hxor

/-- What the calls of one message keep, as the part of the data of this call that is done grows. -/
def Crypted (E : Block → Block) (j : Block) (c : ℕ) (done : List Byte) (s : CryptState) : Prop :=
  InStream E j (c + done.length) s ∧ s.done = streamFrom E j c done

/-- A further piece of the stream extends what has been encrypted. -/
theorem Crypted.extend {c : ℕ} {done piece : List Byte} {s s' : CryptState} (h : Crypted E j c done s)
    (hs' : InStream E j (c + done.length + piece.length) s' ∧
      s'.done = s.done ++ streamFrom E j (c + done.length) piece) :
    Crypted E j c (done ++ piece) s' := by
  refine ⟨?_, ?_⟩
  · rw [List.length_append, ← Nat.add_assoc]
    exact hs'.1
  · rw [hs'.2, h.2, streamFrom_append]

/-- A byte inside a block extends what has been encrypted. -/
theorem Crypted.byte {c : ℕ} {done : List Byte} {s : CryptState} (h : Crypted E j c done s)
    (hpos : s.bPos ≠ 0) (hlt : s.bPos < 16) (b : Byte) :
    Crypted E j c (done ++ [b]) (cryptByte s [b]) :=
  h.extend (cryptByte_inStream h.1 hpos hlt b)

/-- Bytes of the block in use, up to a place that stops the loop. -/
theorem drain_cryptBytes (more : CryptState → Bool)
    (hmore : ∀ s : CryptState, s.bPos ≤ 16 → more s = true → s.bPos < 16) {c : ℕ} {s : CryptState}
    (hs : Crypted E j c [] s) (hpos : s.bPos ≠ 0) (data : List Byte) :
    let r := drain 1 more cryptByte s data
    ∃ done, done ++ r.2 = data ∧ Crypted E j c done r.1 ∧ r.1.bPos ≠ 0 ∧
      (r.2.length < 1 ∨ more r.1 = false) := by
  have hbyte (done : List Byte) (s : CryptState) (piece : List Byte)
      (hs : Crypted E j c done s ∧ s.bPos ≠ 0) (hm : more s = true) (hlen : piece.length = 1) :
      Crypted E j c (done ++ piece) (cryptByte s piece) ∧ (cryptByte s piece).bPos ≠ 0 := by
    obtain ⟨b, rfl⟩ := List.length_eq_one_iff.mp hlen
    exact ⟨hs.1.byte hs.2 (hmore s hs.1.1.pos_le hm) b, Nat.succ_ne_zero _⟩
  obtain ⟨done, hdone, ⟨hcrypted, hpos⟩, hstop⟩ := drain_invariant
    (fun done s => Crypted E j c done s ∧ s.bPos ≠ 0) (by decide) hbyte ⟨hs, hpos⟩ data
  exact ⟨done, hdone, hcrypted, hpos, hstop⟩

/-- Words of the block in use, from a place divisible by four up to its end. -/
theorem drain_cryptWords {c : ℕ} {done : List Byte} {s : CryptState} (hs : Crypted E j c done s)
    (hpos : s.bPos ≠ 0) (hmod : s.bPos % 4 = 0) (data : List Byte) :
    let r := drain 4 (fun s => s.bPos ≤ 12) cryptUnit s data
    ∃ done', done' ++ r.2 = done ++ data ∧ Crypted E j c done' r.1 ∧
      (r.2.length < 16 ∨ r.1.bPos % 16 = 0) := by
  have hword (done : List Byte) (s : CryptState) (piece : List Byte)
      (hs : Crypted E j c done s ∧ s.bPos ≠ 0 ∧ s.bPos % 4 = 0) (hm : decide (s.bPos ≤ 12) = true)
      (hlen : piece.length = 4) :
      Crypted E j c (done ++ piece) (cryptUnit s piece) ∧ (cryptUnit s piece).bPos ≠ 0 ∧
        (cryptUnit s piece).bPos % 4 = 0 := by
    obtain ⟨hcrypted, hpos, hmod⟩ := hs
    have hle : s.bPos ≤ 12 := of_decide_eq_true hm
    have hend : (cryptUnit s piece).bPos = s.bPos + 4 := rfl
    refine ⟨?_, by omega, by omega⟩
    match piece, hlen with
    | [b₀, b₁, b₂, b₃], _ =>
      have h0 := hcrypted.byte hpos (by omega) b₀
      have h1 := h0.byte (Nat.succ_ne_zero _) (by change s.bPos + 1 < 16; omega) b₁
      have h2 := h1.byte (Nat.succ_ne_zero _) (by change s.bPos + 2 < 16; omega) b₂
      have h3 := h2.byte (Nat.succ_ne_zero _) (by change s.bPos + 3 < 16; omega) b₃
      rw [cryptUnit_eq]
      simpa only [List.append_assoc, List.cons_append, List.nil_append] using h3
  obtain ⟨done', hdone, ⟨hcrypted, hpos, hmod⟩, hstop⟩ := drain_invariant
    (fun done s => Crypted E j c done s ∧ s.bPos ≠ 0 ∧ s.bPos % 4 = 0) (by decide) hword
    ⟨hs, hpos, hmod⟩ data
  rw [decide_eq_false_iff_not] at hstop
  have hle := hcrypted.1.pos_le
  exact ⟨done', hdone, hcrypted, by omega⟩

/-- Whole blocks at the end of a block. -/
theorem drain_cryptBlocks (hE : ∀ inp out, (aesEncrypt inp out aes).2 = E inp)
    (body : CryptState → List Byte → CryptState)
    (hbody : ∀ s piece, body s piece = { nextCtr aes s with
      done := (nextCtr aes s).done ++ (xorBlock (listBlock piece) (nextCtr aes s).encCtr).toList })
    {c : ℕ} {done : List Byte} {s : CryptState} (hs : Crypted E j c done s) (data : List Byte)
    (hready : data.length < 16 ∨ s.bPos % 16 = 0) :
    let r := drain 16 (fun _ => true) body s data
    ∃ done', done' ++ r.2 = done ++ data ∧ Crypted E j c done' r.1 := by
  by_cases hfull : s.bPos % 16 = 0
  · have hblock (done : List Byte) (s : CryptState) (piece : List Byte)
        (hs : Crypted E j c done s ∧ s.bPos % 16 = 0) (_ : true = true) (hlen : piece.length = 16) :
        Crypted E j c (done ++ piece) (body s piece) ∧ (body s piece).bPos % 16 = 0 := by
      obtain ⟨hcrypted, hzero⟩ := hs
      have hmod := hcrypted.1.pos_mod
      obtain ⟨hctr, henc⟩ := nextCtr_inStream hE hcrypted.1 (by omega)
      have hnext : (c + done.length + piece.length + 15) / 16 = (c + done.length) / 16 + 1 := by omega
      rw [hbody]
      refine ⟨hcrypted.extend ⟨⟨?_, fun _ => ?_, ?_, hcrypted.1.pos_le⟩, ?_⟩, hzero⟩
      · rw [hnext]
        exact hctr
      · exact henc.trans (congrArg E hctr.symm)
      · change s.bPos % 16 = _
        omega
      · rw [henc, toList_xorBlock (by omega) hlen]
        rfl
    obtain ⟨done', hdone, ⟨hcrypted, _⟩, _⟩ := drain_invariant
      (fun done s => Crypted E j c done s ∧ s.bPos % 16 = 0) (by decide) hblock ⟨hs, hfull⟩ data
    exact ⟨done', hdone, hcrypted⟩
  · rw [drain_of_not_more (by omega)]
    exact ⟨done, rfl, hs⟩

/-- The loop over unaligned data encrypts what it takes. -/
theorem cryptUnaligned_crypted (hE : ∀ inp out, (aesEncrypt inp out aes).2 = E inp) {c : ℕ}
    {s : CryptState} (hs : Crypted E j c [] s) (data : List Byte) :
    let r := cryptUnaligned aes s data
    ∃ done, done ++ r.2 = data ∧ Crypted E j c done r.1 := by
  rw [cryptUnaligned]
  split_ifs with hpos
  · obtain ⟨done, hdone, hcrypted, _, hstop⟩ := drain_cryptBytes (fun s => s.bPos < 16)
      (fun _ _ hm => of_decide_eq_true hm) hs hpos data
    rw [decide_eq_false_iff_not] at hstop
    have hle := hcrypted.1.pos_le
    generalize drain 1 (fun s => decide (s.bPos < 16)) cryptByte s data = head at *
    rw [← hdone]
    exact drain_cryptBlocks hE _ (fun _ _ => rfl) hcrypted head.2 (by omega)
  · exact drain_cryptBlocks hE _ (fun _ _ => rfl) hs data (by omega)

/-- The loops over aligned data encrypt what they take. -/
theorem cryptAligned_crypted (hE : ∀ inp out, (aesEncrypt inp out aes).2 = E inp) {c : ℕ}
    {s : CryptState} (hs : Crypted E j c [] s) (data : List Byte) :
    let r := cryptAligned aes s data
    ∃ done, done ++ r.2 = data ∧ Crypted E j c done r.1 := by
  have hand (p : ℕ) : p &&& 3 = p % 4 := Nat.and_two_pow_sub_one_eq_mod p 2
  have hblocks {done rest : List Byte} {s : CryptState} (hs : Crypted E j c done s)
      (hready : rest.length < 16 ∨ s.bPos % 16 = 0) :=
    drain_cryptBlocks hE
      (fun s piece =>
        let s := nextCtr aes s
        { s with done := s.done ++ (xorBlockAligned (listBlock piece) s.encCtr).toList })
      (fun _ _ => by simp only [xorBlockAligned_eq]) hs rest hready
  rw [cryptAligned]
  split_ifs with hpos
  · obtain ⟨done, hdone, hcrypted, hne, hstop⟩ := drain_cryptBytes (fun s => s.bPos &&& 3 != 0)
      (fun s hs hm => by rw [bne_iff_ne, hand] at hm; omega) hs hpos data
    rw [bne_eq_false_iff_eq, hand] at hstop
    generalize drain 1 (fun s => s.bPos &&& 3 != 0) cryptByte s data = head at *
    rw [← hdone]
    obtain hend | hmod := hstop
    · rw [drain_of_not_more (n := 4) (by omega)]
      exact hblocks hcrypted (by dsimp only; omega)
    · obtain ⟨done', hdone', hcrypted', hready⟩ := drain_cryptWords hcrypted hne hmod head.2
      rw [← hdone']
      exact hblocks hcrypted' hready
  · exact hblocks hs (by omega)

/-- The context in front of byte `c` of the stream. -/
structure Encrypting (E : Block → Block) (j : Block) (c : ℕ) (ctx : GcmCtx) : Prop where
  ctr_eq : ctx.ctrVal = inc32^[(c + 15) / 16] j
  enc_eq : c ≠ 0 → ctx.encCtr = E ctx.ctrVal
  count_eq : ctx.txtCcnt = BitVec.ofNat 32 c

/-- A call combines its data with the stream from where the last one stopped, whatever the
alignment. -/
theorem gcmCryptData_spec {ctx : GcmCtx} (hE : ∀ inp out, (aesEncrypt inp out ctx.aes).2 = E inp) {c : ℕ}
    (h : Encrypting E j c ctx) (ptr : BitVec 32) (data : List Byte) :
    (gcmCryptData ptr data ctx).1 = streamFrom E j c data ∧
      Encrypting E j (c + data.length) (gcmCryptData ptr data ctx).2 := by
  have hpos : (ctx.txtCcnt &&& 15).toNat = c % 16 := by
    have hmod : (ctx.txtCcnt &&& 15).toNat = ctx.txtCcnt.toNat % 16 :=
      Nat.and_two_pow_sub_one_eq_mod ctx.txtCcnt.toNat 4
    rw [hmod, h.count_eq, BitVec.toNat_ofNat]
    omega
  have hstart : Crypted E j c [] ⟨ctx.ctrVal, ctx.encCtr, (ctx.txtCcnt &&& 15).toNat, []⟩ :=
    ⟨⟨h.ctr_eq, h.enc_eq, by rw [hpos]; exact Nat.mod_mod c 16,
      by rw [hpos]; exact Nat.le_of_lt (Nat.mod_lt c (by decide))⟩, rfl⟩
  have hnext (done : List Byte) (s : CryptState) (piece : List Byte) (hs : Crypted E j c done s)
      (_ : true = true) (hlen : piece.length = 1) : Crypted E j c (done ++ piece) (cryptByte
        (if s.bPos = 16 ∨ s.bPos = 0 then { nextCtr ctx.aes s with bPos := 0 } else s) piece) := by
    obtain ⟨b, rfl⟩ := List.length_eq_one_iff.mp hlen
    exact hs.extend (cryptNext_inStream hE hs.1 b)
  -- the last loop uses up what the others leave
  have hlast (whole : CryptState × List Byte)
      (hwhole : ∃ done, done ++ whole.2 = data ∧ Crypted E j c done whole.1) :
      let last := drain 1 (fun _ => true) (fun s piece => cryptByte
        (if s.bPos = 16 ∨ s.bPos = 0 then { nextCtr ctx.aes s with bPos := 0 } else s) piece)
        whole.1 whole.2
      last.2 = [] ∧ Crypted E j c data last.1 := by
    obtain ⟨done, hdone, hcrypted⟩ := hwhole
    obtain ⟨done', hdone', hcrypted', hstop⟩ :=
      drain_invariant (Crypted E j c) (by decide) hnext hcrypted whole.2
    have hend := List.length_eq_zero_iff.mp (by simpa using hstop)
    rw [hdone, hend, List.append_nil] at hdone'
    exact ⟨hend, hdone' ▸ hcrypted'⟩
  rw [gcmCryptData]
  by_cases hdata : data.length = 0
  · rw [if_pos hdata, List.length_eq_zero_iff.mp hdata]
    exact ⟨rfl, h⟩
  · have hwhole := hlast (if (ptr - encCtrAt - BitVec.ofNat 32 (ctx.txtCcnt &&& 15).toNat) &&& 3 = 0
      then cryptAligned ctx.aes ⟨ctx.ctrVal, ctx.encCtr, (ctx.txtCcnt &&& 15).toNat, []⟩ data
      else cryptUnaligned ctx.aes ⟨ctx.ctrVal, ctx.encCtr, (ctx.txtCcnt &&& 15).toNat, []⟩ data) (by
        split_ifs
        · exact cryptAligned_crypted hE hstart data
        · exact cryptUnaligned_crypted hE hstart data)
    obtain ⟨hend, hcrypted⟩ := hwhole
    rw [if_neg hdata]
    refine ⟨hcrypted.2, hcrypted.1.ctr_eq, hcrypted.1.enc_eq, ?_⟩
    dsimp only
    rw [hend, List.length_nil, Nat.sub_zero, h.count_eq, ← BitVec.ofNat_add]

end Stream

end CamkesVm.Aeslib
