import CamkesVm.Aeslib.GcmKey

/-!
# Messages in the Galois counter mode

A context with a key encrypts and authenticates as the standard's mode does with the standard's
cipher. Within a message the context stands for the header and the ciphertext authenticated so far
and for the number of bytes that went through the counter stream, however they were handed over.
From this follow the calls on whole messages: decryption restores what was encrypted and succeeds
exactly for the tag that belongs to the ciphertext.
-/

namespace CamkesVm.Aeslib

open CamkesVm.Machine

section Calls

variable {key J : Block} {ctx : GcmCtx} {hdr text : List Byte} {count : ℕ}

/-- The context within a message behind the first counter block `J`: a header and a ciphertext were
authenticated and a number of bytes encrypted or decrypted. -/
structure MidMessage (key J : Block) (hdr text : List Byte) (count : ℕ) (ctx : GcmCtx) : Prop where
  keyed : Keyed key ctx
  hashed_hdr : Hashed (hashMul key) hdr ctx.hdrGhv ctx.hdrCnt
  hashed_text : Hashed (hashMul key) text ctx.txtGhv ctx.txtAcnt
  stream : Encrypting (aes128 sBox key) J count ctx
  y0 : ctx.y0Val = loadWord J 12

/-- `gcm_init_message` starts a message with nothing authenticated or encrypted. -/
theorem gcmInitMessage_spec (h : Keyed key ctx) (iv : List Byte) :
    MidMessage key (initCtr iv ctx) [] [] 0 (gcmInitMessage iv ctx) where
  keyed := ⟨h.cipher, h.hash, h.table⟩
  hashed_hdr := hashed_nil _
  hashed_text := hashed_nil _
  stream := ⟨rfl, fun hne => absurd rfl hne, rfl⟩
  y0 := rfl

/-- `gcm_auth_header` appends to the authenticated header. -/
theorem gcmAuthHeader_spec (h : MidMessage key J hdr text count ctx) (hfits : hdr.length < 2 ^ 32)
    (ptr : BitVec 32) (more : List Byte) :
    MidMessage key J (hdr ++ more) text count (gcmAuthHeader ptr more ctx) where
  keyed := ⟨h.keyed.cipher, h.keyed.hash, h.keyed.table⟩
  hashed_hdr := gcmAuth_hashed h.keyed.gfMulHh_eq _ h.hashed_hdr hfits more
  hashed_text := h.hashed_text
  stream := ⟨h.stream.ctr_eq, h.stream.enc_eq, h.stream.count_eq⟩
  y0 := h.y0

/-- `gcm_auth_data` appends to the authenticated text. -/
theorem gcmAuthData_spec (h : MidMessage key J hdr text count ctx) (hfits : text.length < 2 ^ 32)
    (ptr : BitVec 32) (more : List Byte) :
    MidMessage key J hdr (text ++ more) count (gcmAuthData ptr more ctx) where
  keyed := ⟨h.keyed.cipher, h.keyed.hash, h.keyed.table⟩
  hashed_hdr := h.hashed_hdr
  hashed_text := gcmAuth_hashed h.keyed.gfMulHh_eq _ h.hashed_text hfits more
  stream := ⟨h.stream.ctr_eq, h.stream.enc_eq, h.stream.count_eq⟩
  y0 := h.y0

/-- What encryption leaves as it was. -/
structure CryptFrame (ctx ctx' : GcmCtx) : Prop where
  aes_eq : ctx'.aes = ctx.aes
  hash_eq : ctx'.ghashH = ctx.ghashH
  table_eq : ctx'.gfT4k = ctx.gfT4k
  hdr_eq : ctx'.hdrGhv = ctx.hdrGhv ∧ ctx'.hdrCnt = ctx.hdrCnt
  txt_eq : ctx'.txtGhv = ctx.txtGhv ∧ ctx'.txtAcnt = ctx.txtAcnt
  y0_eq : ctx'.y0Val = ctx.y0Val

/-- `gcm_crypt_data` touches only what encryption uses. -/
theorem gcmCryptData_frame (ptr : BitVec 32) (data : List Byte) (ctx : GcmCtx) :
    CryptFrame ctx (gcmCryptData ptr data ctx).2 := by
  rw [gcmCryptData]
  split
  all_goals exact ⟨rfl, rfl, rfl, ⟨rfl, rfl⟩, ⟨rfl, rfl⟩, rfl⟩

/-- `gcm_crypt_data` goes on in the counter stream. -/
theorem gcmCryptData_midMessage (h : MidMessage key J hdr text count ctx) (ptr : BitVec 32)
    (data : List Byte) :
    (gcmCryptData ptr data ctx).1 = streamFrom (aes128 sBox key) J count data ∧
      MidMessage key J hdr text (count + data.length) (gcmCryptData ptr data ctx).2 := by
  obtain ⟨hdata, hstream⟩ := gcmCryptData_spec h.keyed.cipher h.stream ptr data
  have hframe := gcmCryptData_frame ptr data ctx
  generalize (gcmCryptData ptr data ctx).2 = next at hstream hframe ⊢
  refine ⟨hdata, h.keyed.of_eq hframe.aes_eq hframe.hash_eq hframe.table_eq, ?_, ?_, hstream, ?_⟩
  · rw [hframe.hdr_eq.1, hframe.hdr_eq.2]
    exact h.hashed_hdr
  · rw [hframe.txt_eq.1, hframe.txt_eq.2]
    exact h.hashed_text
  · rw [hframe.y0_eq]
    exact h.y0

/-- `gcm_encrypt` encrypts the data and authenticates what it wrote. -/
theorem gcmEncrypt_spec (h : MidMessage key J hdr text count ctx) (hfits : text.length < 2 ^ 32)
    (ptr : BitVec 32) (data : List Byte) :
    (gcmEncrypt ptr data ctx).1 = streamFrom (aes128 sBox key) J count data ∧
      MidMessage key J hdr (text ++ streamFrom (aes128 sBox key) J count data) (count + data.length)
        (gcmEncrypt ptr data ctx).2 := by
  obtain ⟨hdata, hnext⟩ := gcmCryptData_midMessage h ptr data
  refine ⟨hdata, ?_⟩
  rw [← hdata]
  exact gcmAuthData_spec hnext hfits ptr _

/-- `gcm_decrypt` authenticates the data and decrypts them. -/
theorem gcmDecrypt_spec (h : MidMessage key J hdr text count ctx) (hfits : text.length < 2 ^ 32)
    (ptr : BitVec 32) (data : List Byte) :
    (gcmDecrypt ptr data ctx).1 = streamFrom (aes128 sBox key) J count data ∧
      MidMessage key J hdr (text ++ data) (count + data.length) (gcmDecrypt ptr data ctx).2 :=
  gcmCryptData_midMessage (gcmAuthData_spec h hfits ptr data) ptr data

end Calls

section Tag

variable {key J : Block} {ctx : GcmCtx} {hdr text : List Byte} {count : ℕ}

/-- The tag of a header and a ciphertext behind a first counter block. -/
noncomputable def tagBlock (key J : Block) (hdr text : List Byte) : Block :=
  xorBlock (valBlock (messageHash (aes128 sBox key) hdr text)) (aes128 sBox key J)

/-- The tag uses the first counter block again. -/
theorem MidMessage.first_ctr (h : MidMessage key J hdr text count ctx) :
    storeWord ctx.ctrVal 12 ctx.y0Val = J := by
  rw [h.y0, h.stream.ctr_eq]
  apply storeWord_loadWord
  intro i hi
  cases (count + 15) / 16 with
  | zero => rfl
  | succ k => rw [iterate_inc32, get_withCtr_of_lt _ _ hi]

/-- The number of blocks of a text, as the code rounds its count. -/
theorem blockCount_eq {n : BitVec 32} (hfits : n.toNat + 15 < 2 ^ 32) :
    ((n + 16 - 1) / 16).toNat = (n.toNat + 15) / 16 := by
  have hround : n + 16 - 1 = n + 15 := by grind
  rw [hround, BitVec.toNat_udiv, BitVec.toNat_add]
  exact congrArg (· / 16) (Nat.mod_eq_of_lt hfits)

/-- The hash of the header, moved in front of the blocks of the text. -/
theorem MidMessage.header_power (h : MidMessage key J hdr text count ctx) (hfits : hdr.length < 2 ^ 32)
    (ln : ℕ) :
    blockVal (if ctx.hdrCnt ≠ 0 then
        if ln ≠ 0 then mulPower (gfMulHh ctx.hdrGhv ctx) ctx.ghashH ln else gfMulHh ctx.hdrGhv ctx
      else gfMulHh ctx.hdrGhv ctx) =
      ghash (hashKey (aes128 sBox key)) (toBlocks hdr) * hashKey (aes128 sBox key) ^ ln := by
  have hhdr : blockVal (gfMulHh ctx.hdrGhv ctx) = ghash (hashKey (aes128 sBox key)) (toBlocks hdr) := by
    rw [h.keyed.gfMulHh_eq, h.hashed_hdr.ghv_eq, blockVal_mul_hashed (blockVal_hashMul key)]
  split_ifs with hcnt hln
  · rw [blockVal_mulPower, hhdr, h.keyed.hash]
    rfl
  · rw [hhdr, not_not.mp hln, pow_zero, mul_one]
  · -- without a header there is nothing to move
    have hlen : hdr.length = 0 := by
      have hzero := congrArg BitVec.toNat (h.hashed_hdr.count_eq.symm.trans (not_not.mp hcnt))
      rw [BitVec.toNat_ofNat, Nat.mod_eq_of_lt hfits] at hzero
      exact hzero
    rw [hhdr, List.length_eq_zero_iff.mp hlen]
    exact (zero_mul _).symm

/-- The context after a tag still has its key. -/
theorem Keyed.gcmComputeTag (h : Keyed key ctx) (tag : List Byte) (tagLen : TagLen) :
    Keyed key (gcmComputeTag tag tagLen ctx).2.2 := by
  rw [Aeslib.gcmComputeTag]
  split
  · exact h
  · exact ⟨h.cipher, h.hash, h.table⟩

/-- The counts of the context tell whether all ciphertext that went through the stream was
authenticated. -/
theorem MidMessage.counts_eq (h : MidMessage key J hdr text count ctx) (htext : text.length < 2 ^ 32)
    (hcount : count < 2 ^ 32) :
    (ctx.txtCcnt = ctx.txtAcnt ↔ text.length = count) ∧
      (ctx.txtAcnt ≠ ctx.txtCcnt ∧ ctx.txtCcnt > 0 ↔ text.length ≠ count ∧ count ≠ 0) := by
  have hccnt : ctx.txtCcnt.toNat = count := by
    rw [h.stream.count_eq, BitVec.toNat_ofNat, Nat.mod_eq_of_lt hcount]
  have hacnt : ctx.txtAcnt.toNat = text.length := by
    rw [h.hashed_text.count_eq, BitVec.toNat_ofNat, Nat.mod_eq_of_lt htext]
  have hsame : ctx.txtCcnt = ctx.txtAcnt ↔ text.length = count := by
    rw [← BitVec.toNat_inj, hccnt, hacnt, eq_comm]
  have hpos : ctx.txtCcnt > 0 ↔ count ≠ 0 := by
    rw [gt_iff_lt, BitVec.lt_def, hccnt]
    exact Nat.pos_iff_ne_zero
  exact ⟨hsame, by rw [ne_comm, ne_eq, hsame, hpos]⟩

/-- A tag is refused when other bytes were authenticated than went through the stream, unless none
did. -/
theorem MidMessage.gcmComputeTag_ret (h : MidMessage key J hdr text count ctx)
    (htext : text.length < 2 ^ 32) (hcount : count < 2 ^ 32) (tag : List Byte) (tagLen : TagLen) :
    (gcmComputeTag tag tagLen ctx).1 =
      if text.length = count then returnGood else if count = 0 then returnWarn else returnError := by
  obtain ⟨hsame, hrefused⟩ := h.counts_eq htext hcount
  rw [gcmComputeTag]
  by_cases heq : text.length = count
  · rw [if_neg (fun hne => (hrefused.mp hne).1 heq), if_pos heq]
    exact if_pos (hsame.mpr heq)
  · by_cases hzero : count = 0
    · rw [if_neg (fun hne => (hrefused.mp hne).2 hzero), if_neg heq, if_pos hzero]
      exact if_neg (hsame.not.mpr heq)
    · rw [if_pos (hrefused.mpr ⟨heq, hzero⟩), if_neg heq, if_neg hzero]

/-- The tag that the code computes. -/
theorem MidMessage.gcmComputeTag_tag (h : MidMessage key J hdr text count ctx) (hhdr : hdr.length < 2 ^ 32)
    (htext : text.length + 15 < 2 ^ 32) (hcount : text.length = count ∨ count = 0) (tag : List Byte)
    (tagLen : TagLen) :
    (gcmComputeTag tag tagLen ctx).2.1 = (tagBlock key J hdr text).toList.take tagLen ++ tag.drop tagLen := by
  have hacnt : ctx.txtAcnt.toNat = text.length := by
    rw [h.hashed_text.count_eq, BitVec.toNat_ofNat, Nat.mod_eq_of_lt (by omega)]
  have hcnt : ctx.hdrCnt.toNat = hdr.length := by
    rw [h.hashed_hdr.count_eq, BitVec.toNat_ofNat, Nat.mod_eq_of_lt hhdr]
  have hln : ((ctx.txtAcnt + 16 - 1) / 16).toNat = (toBlocks text).length := by
    rw [blockCount_eq (by omega), hacnt, length_toBlocks]
  have htextVal : blockVal (gfMulHh ctx.txtGhv ctx) = ghash (hashKey (aes128 sBox key)) (toBlocks text) := by
    rw [h.keyed.gfMulHh_eq, h.hashed_text.ghv_eq, blockVal_mul_hashed (blockVal_hashMul key)]
  have hhash (g : Block) (hg : blockVal g =
      ghash (hashKey (aes128 sBox key)) (toBlocks hdr) * hashKey (aes128 sBox key) ^ (toBlocks text).length) :
      gfMulHh (addLengths g (gfMulHh ctx.txtGhv ctx) ctx.hdrCnt ctx.txtAcnt) ctx =
        valBlock (messageHash (aes128 sBox key) hdr text) := by
    apply eq_valBlock
    rw [h.keyed.blockVal_gfMulHh, addLengths_eq, blockVal_xorBlock, blockVal_xorBlock, htextVal, hacnt, hcnt,
      hg, messageHash, ghash_concat, ghash_append]
  have hpower := h.header_power hhdr (toBlocks text).length
  have hallowed : ¬ (ctx.txtAcnt ≠ ctx.txtCcnt ∧ ctx.txtCcnt > 0) := by
    rw [(h.counts_eq (by omega) (by omega)).2]
    omega
  rw [gcmComputeTag, if_neg hallowed]
  dsimp only
  rw [hln, hhash _ hpower, h.first_ctr, h.keyed.cipher]
  rfl

end Tag

section Messages

variable {key : Block} {ctx : GcmCtx}

/-- The context of an encryption of a whole message before its tag. -/
theorem gcmEncrypt_message (h : Keyed key ctx) (hdrPtr msgPtr : BitVec 32) (iv hdr msg : List Byte) :
    let E := aes128 sBox key
    let r := gcmEncrypt msgPtr msg (gcmAuthHeader hdrPtr hdr (gcmInitMessage iv ctx))
    r.1 = gctr E (initCtr iv ctx) msg ∧
      MidMessage key (initCtr iv ctx) hdr (gctr E (initCtr iv ctx) msg) msg.length r.2 := by
  have hhdr := gcmAuthHeader_spec (gcmInitMessage_spec h iv) (by simp) hdrPtr hdr
  obtain ⟨hmsg, hmid⟩ := gcmEncrypt_spec hhdr (by simp) msgPtr msg
  rw [streamFrom_zero] at hmsg hmid
  rw [Nat.zero_add] at hmid
  exact ⟨hmsg, hmid⟩

/-- The context of a decryption of a whole message before its tag. -/
theorem gcmDecrypt_message (h : Keyed key ctx) (hdrPtr msgPtr : BitVec 32) (iv hdr msg : List Byte) :
    let r := gcmDecrypt msgPtr msg (gcmAuthHeader hdrPtr hdr (gcmInitMessage iv ctx))
    r.1 = gctr (aes128 sBox key) (initCtr iv ctx) msg ∧
      MidMessage key (initCtr iv ctx) hdr msg msg.length r.2 := by
  have hhdr := gcmAuthHeader_spec (gcmInitMessage_spec h iv) (by simp) hdrPtr hdr
  obtain ⟨hmsg, hmid⟩ := gcmDecrypt_spec hhdr (by simp) msgPtr msg
  rw [streamFrom_zero] at hmsg
  rw [Nat.zero_add] at hmid
  exact ⟨hmsg, hmid⟩

/-- Encryption of a whole message is the standard's. -/
theorem gcmEncryptMessage_spec (h : Keyed key ctx) (hdrPtr msgPtr : BitVec 32) {iv hdr msg : List Byte}
    (hiv : iv.length * 8 < 2 ^ 32) (hhdr : hdr.length < 2 ^ 32) (hmsg : msg.length + 15 < 2 ^ 32)
    (tag : List Byte) (tagLen : TagLen) :
    let E := aes128 sBox key
    let r := gcmEncryptMessage hdrPtr msgPtr iv hdr msg tag tagLen ctx
    r.ret = returnGood ∧ r.msg = gctr E (j0 E iv) msg ∧
      r.tag = (fullTag E iv hdr (gctr E (j0 E iv) msg)).toList.take tagLen ++ tag.drop tagLen ∧
      Keyed key r.ctx := by
  obtain ⟨hdata, hmid⟩ := gcmEncrypt_message h hdrPtr msgPtr iv hdr msg
  rw [h.initCtr_eq hiv] at hdata hmid
  have hlen := length_gctr (aes128 sBox key) (j0 (aes128 sBox key) iv) msg
  have hret := hmid.gcmComputeTag_ret (by omega) (by omega) tag tagLen
  rw [if_pos hlen] at hret
  refine ⟨?_, hdata, hmid.gcmComputeTag_tag hhdr (by omega) (Or.inl hlen) tag tagLen,
    hmid.keyed.gcmComputeTag tag tagLen⟩
  rw [gcmEncryptMessage]
  exact if_neg (not_not.mpr hret)

/-- Decryption of a whole message is the standard's: it succeeds exactly for the right tag. -/
theorem gcmDecryptMessage_spec (h : Keyed key ctx) (hdrPtr msgPtr : BitVec 32) {iv hdr msg : List Byte}
    (hiv : iv.length * 8 < 2 ^ 32) (hhdr : hdr.length < 2 ^ 32) (hmsg : msg.length + 15 < 2 ^ 32)
    (tag : List Byte) (tagLen : TagLen) :
    let E := aes128 sBox key
    let r := gcmDecryptMessage hdrPtr msgPtr iv hdr msg tag tagLen ctx
    r.ret = (if tag.take tagLen = (fullTag E iv hdr msg).toList.take tagLen then returnGood else returnError) ∧
      r.msg = gctr E (j0 E iv) msg ∧ r.tag = tag ∧ Keyed key r.ctx := by
  obtain ⟨hdata, hmid⟩ := gcmDecrypt_message h hdrPtr msgPtr iv hdr msg
  rw [h.initCtr_eq hiv] at hdata hmid
  have hret := hmid.gcmComputeTag_ret (by omega) (by omega) zeroBlock.toList tagLen
  have htag := hmid.gcmComputeTag_tag hhdr hmsg (Or.inl rfl) zeroBlock.toList tagLen
  rw [if_pos rfl] at hret
  have htake : ((fullTag (aes128 sBox key) iv hdr msg).toList.take tagLen).length = tagLen := by
    rw [List.length_take, Vector.length_toList]
    exact Nat.min_eq_left tagLen.is_le
  refine ⟨?_, hdata, rfl, hmid.keyed.gcmComputeTag zeroBlock.toList tagLen⟩
  rw [gcmDecryptMessage]
  dsimp only
  rw [hret, htag]
  change (if returnGood ≠ returnGood ∨ tag.take tagLen ≠
    ((fullTag (aes128 sBox key) iv hdr msg).toList.take tagLen ++ zeroBlock.toList.drop tagLen).take tagLen
    then returnError else returnGood) = _
  rw [List.take_left' htake]
  by_cases heq : tag.take tagLen = (fullTag (aes128 sBox key) iv hdr msg).toList.take tagLen
  · rw [if_neg (by simp [heq]), if_pos heq]
  · rw [if_pos (Or.inr heq), if_neg heq]

/-- Contexts with the same key start a message with the same counter block. -/
theorem Keyed.initCtr_congr {ctx' : GcmCtx} (h : Keyed key ctx) (h' : Keyed key ctx') (iv : List Byte) :
    initCtr iv ctx = initCtr iv ctx' := by
  have hmul (a : Block) : gfMulHh a ctx = gfMulHh a ctx' := (h.gfMulHh_eq a).trans (h'.gfMulHh_eq a).symm
  simp only [initCtr, hmul]

/-- A tag over all ciphertext that went through the stream, whatever the lengths. -/
theorem MidMessage.gcmComputeTag_good {J : Block} {hdr text : List Byte}
    (h : MidMessage key J hdr text text.length ctx) :
    ∃ T : Block, ∀ tag tagLen, (gcmComputeTag tag tagLen ctx).1 = returnGood ∧
      (gcmComputeTag tag tagLen ctx).2.1 = T.toList.take tagLen ++ tag.drop tagLen := by
  have hcounts : ctx.txtAcnt = ctx.txtCcnt := h.hashed_text.count_eq.trans h.stream.count_eq.symm
  simp only [gcmComputeTag, if_neg (fun hne : ctx.txtAcnt ≠ ctx.txtCcnt ∧ ctx.txtCcnt > 0 => hne.1 hcounts)]
  exact ⟨_, fun _ _ => ⟨if_pos hcounts.symm, rfl⟩⟩

/-- Contexts in the same state of a message compute the same tag. -/
theorem MidMessage.gcmComputeTag_congr {ctx' : GcmCtx} {J : Block} {hdr text : List Byte} {count : ℕ}
    (h : MidMessage key J hdr text count ctx) (h' : MidMessage key J hdr text count ctx') (tag : List Byte)
    (tagLen : TagLen) : (gcmComputeTag tag tagLen ctx).2.1 = (gcmComputeTag tag tagLen ctx').2.1 :=
  (h.keyed.gcmComputeTag_congr h'.keyed
    ⟨h.hashed_hdr.ghv_eq.trans h'.hashed_hdr.ghv_eq.symm,
      h.hashed_hdr.count_eq.trans h'.hashed_hdr.count_eq.symm⟩
    ⟨h.hashed_text.ghv_eq.trans h'.hashed_text.ghv_eq.symm,
      h.hashed_text.count_eq.trans h'.hashed_text.count_eq.symm,
      h.stream.count_eq.trans h'.stream.count_eq.symm⟩
    ⟨h.stream.ctr_eq.trans h'.stream.ctr_eq.symm, h.y0.trans h'.y0.symm⟩ tag tagLen).2

/-- Decryption in one context restores what was encrypted in another with the same key, and succeeds
with exactly the tag of the encryption. The lengths need not fit the counters, which wrap alike on
both sides. -/
theorem gcmDecryptMessage_gcmEncryptMessage {ctx' : GcmCtx} (h : Keyed key ctx) (h' : Keyed key ctx')
    (hdrPtr msgPtr hdrPtr' msgPtr' : BitVec 32) (iv hdr msg tag tag' : List Byte)
    (tagLen : TagLen) :
    let s := gcmEncryptMessage hdrPtr msgPtr iv hdr msg tag tagLen ctx
    let r := gcmDecryptMessage hdrPtr' msgPtr' iv hdr s.msg tag' tagLen ctx'
    s.ret = returnGood ∧ r.msg = msg ∧
      r.ret = if tag'.take tagLen = s.tag.take tagLen then returnGood else returnError := by
  let text := gctr (aes128 sBox key) (initCtr iv ctx) msg
  obtain ⟨hdata, hmid⟩ := gcmEncrypt_message h hdrPtr msgPtr iv hdr msg
  obtain ⟨hdata', hmid'⟩ := gcmDecrypt_message h' hdrPtr' msgPtr' iv hdr text
  rw [h'.initCtr_congr h] at hdata' hmid'
  rw [gctr_gctr] at hdata'
  rw [← length_gctr (aes128 sBox key) (initCtr iv ctx) msg] at hmid
  obtain ⟨T, hT⟩ := hmid.gcmComputeTag_good
  obtain ⟨_, hT'⟩ := hmid'.gcmComputeTag_good
  have hlocal := hmid'.gcmComputeTag_congr hmid zeroBlock.toList tagLen
  have htake : (T.toList.take tagLen).length = tagLen := by
    rw [List.length_take, Vector.length_toList]
    exact Nat.min_eq_left tagLen.is_le
  dsimp only [gcmEncryptMessage, gcmDecryptMessage]
  rw [hdata]
  refine ⟨if_neg (not_not.mpr (hT _ _).1), hdata', ?_⟩
  rw [hlocal, (hT' _ _).1, (hT _ _).2, (hT _ _).2, List.take_left' htake, List.take_left' htake]
  by_cases heq : tag'.take tagLen = T.toList.take tagLen
  · rw [if_neg (by simp [heq]), if_pos heq]
  · rw [if_pos (Or.inr heq), if_neg heq]

end Messages

section Lengths

/-- A loop that writes as many bytes as it reads. -/
theorem drain_written {n : ℕ} {more : CryptState → Bool} {body : CryptState → List Byte → CryptState}
    (hn : 0 < n) (hbody : ∀ s piece, piece.length = n → (body s piece).done.length = s.done.length + n)
    (s : CryptState) (data : List Byte) :
    (drain n more body s data).1.done.length + (drain n more body s data).2.length =
      s.done.length + data.length := by
  have hpiece (done : List Byte) (t : CryptState) (piece : List Byte)
      (ht : t.done.length = s.done.length + done.length) (_ : more t = true) (hlen : piece.length = n) :
      (body t piece).done.length = s.done.length + (done ++ piece).length := by
    rw [hbody t piece hlen, List.length_append]
    omega
  have hstart : s.done.length = s.done.length + ([] : List Byte).length := rfl
  obtain ⟨done, hdone, hwritten, -⟩ := drain_invariant
    (fun (done : List Byte) (t : CryptState) => t.done.length = s.done.length + done.length) hn hpiece hstart data
  have hlen := congrArg List.length hdone
  rw [List.length_append, List.nil_append] at hlen
  omega

/-- Encryption and decryption in place keep the length of the data, in any context. -/
theorem length_gcmCryptData (ptr : BitVec 32) (data : List Byte) (ctx : GcmCtx) :
    (gcmCryptData ptr data ctx).1.length = data.length := by
  have hbyte (s : CryptState) (piece : List Byte) : (cryptByte s piece).done.length = s.done.length + 1 :=
    List.length_append
  have hunit (s : CryptState) (piece : List Byte) : (cryptUnit s piece).done.length = s.done.length + 4 :=
    List.length_append
  have hblock (s : CryptState) (block : Block) : (s.done ++ block.toList).length = s.done.length + 16 := by
    rw [List.length_append, Vector.length_toList]
  have haligned (s : CryptState) (rest : List Byte) :
      (cryptAligned ctx.aes s rest).1.done.length + (cryptAligned ctx.aes s rest).2.length =
        s.done.length + rest.length := by
    rw [cryptAligned, drain_written (by decide) fun s _ _ => hblock _ _]
    split
    · rw [drain_written (by decide) fun s piece _ => hunit s piece,
        drain_written (by decide) fun s piece _ => hbyte s piece]
    · rfl
  have hunaligned (s : CryptState) (rest : List Byte) :
      (cryptUnaligned ctx.aes s rest).1.done.length + (cryptUnaligned ctx.aes s rest).2.length =
        s.done.length + rest.length := by
    rw [cryptUnaligned, drain_written (by decide) fun s _ _ => hblock _ _]
    split
    · rw [drain_written (by decide) fun s piece _ => hbyte s piece]
    · rfl
  have hlast (whole : CryptState × List Byte) : (drain 1 (fun _ => true) (fun s piece => cryptByte
      (if s.bPos = 16 ∨ s.bPos = 0 then { nextCtr ctx.aes s with bPos := 0 } else s) piece)
        whole.1 whole.2).1.done.length = whole.1.done.length + whole.2.length := by
    have hnext (s : CryptState) (piece : List Byte) (_ : piece.length = 1) : (cryptByte
        (if s.bPos = 16 ∨ s.bPos = 0 then { nextCtr ctx.aes s with bPos := 0 } else s) piece).done.length =
          s.done.length + 1 := by
      rw [hbyte]
      split
      all_goals rfl
    rw [← drain_written (by decide) hnext, drain_one]
    rfl
  rw [gcmCryptData]
  split
  · rfl
  · dsimp only
    rw [hlast]
    split
    · rw [haligned, List.length_nil, Nat.zero_add]
    · rw [hunaligned, List.length_nil, Nat.zero_add]

/-- A tag buffer keeps its length, in any context. -/
theorem length_gcmComputeTag {tag : List Byte} {tagLen : TagLen} (htag : tagLen ≤ tag.length)
    (ctx : GcmCtx) : (gcmComputeTag tag tagLen ctx).2.1.length = tag.length := by
  rw [gcmComputeTag]
  split
  · rfl
  · dsimp only
    have hlen := tagLen.is_le
    rw [List.length_append, List.length_take, List.length_drop, Vector.length_toList]
    omega

end Lengths

end CamkesVm.Aeslib
