import CamkesVm.Aeslib.GcmMessage
import CamkesVm.Commsec.Delivery

/-!
# The commsec protocol over its own mode of operation

The mode that the component links is the code of `gcm.c`, called without a header and with tags of
eight bytes, on messages at any addresses. Beside it stands the standard's mode under a key, which
has no other state. A context over the code and one over the standard answer every run of calls
alike, with the same memory, packages and codes.
-/

namespace CamkesVm.Commsec

open CamkesVm.Aeslib CamkesVm.Machine

section Modes

/-- The mode of the component. The addresses of the messages are arbitrary. -/
def codeGcm (encPtr : List Byte → List Byte → BitVec 32) (decPtr : List Byte → List Byte → BitVec 32) :
    Gcm where
  Ctx := GcmCtx
  initAndKey raw ctx := gcmInitAndKey (listBlock raw) ctx
  zeroed := gcmEnd
  encryptMessage iv msg ctx :=
    let r := gcmEncryptMessage 0 (encPtr iv msg) iv [] msg (List.replicate tagLen 0) ⟨tagLen, by decide⟩ ctx
    ⟨⟨r.ret, r.msg, r.ctx⟩, r.tag⟩
  decryptMessage iv msg tag ctx :=
    let r := gcmDecryptMessage 0 (decPtr iv msg) iv [] msg tag ⟨tagLen, by decide⟩ ctx
    ⟨r.ret, r.msg, r.ctx⟩
  encrypt_msg_length _ _ _ := length_gcmCryptData ..
  encrypt_tag_length _ _ _ :=
    (length_gcmComputeTag (by decide) _).trans List.length_replicate
  decrypt_msg_length _ _ _ _ := length_gcmCryptData ..

/-- The standard's mode. Its state is the key, if there is one. -/
noncomputable def stdGcm : Gcm where
  Ctx := Option Block
  initAndKey raw _ := some (listBlock raw)
  zeroed := none
  encryptMessage iv msg
    | some key =>
      let text := gctr (aes128 sBox key) (j0 (aes128 sBox key) iv) msg
      ⟨⟨returnGood, text, some key⟩, (fullTag (aes128 sBox key) iv [] text).toList.take tagLen⟩
    | none => ⟨⟨returnError, msg, none⟩, List.replicate tagLen 0⟩
  decryptMessage iv msg tag
    | some key =>
      ⟨if tag.take tagLen = (fullTag (aes128 sBox key) iv [] msg).toList.take tagLen then returnGood
        else returnError, gctr (aes128 sBox key) (j0 (aes128 sBox key) iv) msg, some key⟩
    | none => ⟨returnError, msg, none⟩
  encrypt_msg_length _ msg ctx := by
    cases ctx with
    | none => rfl
    | some key => exact length_gctr _ _ msg
  encrypt_tag_length _ _ ctx := by
    cases ctx with
    | none => rfl
    | some key =>
      rw [List.length_take, Vector.length_toList]
      rfl
  decrypt_msg_length _ msg _ ctx := by
    cases ctx with
    | none => rfl
    | some key => exact length_gctr _ _ msg

/-- Decryption in the standard's mode checks the tag of the ciphertext. -/
theorem stdGcm_decryptMessage (iv msg tag : List Byte) (key : Block) :
    stdGcm.decryptMessage iv msg tag (some key) =
      ⟨if tag.take tagLen = (fullTag (aes128 sBox key) iv [] msg).toList.take tagLen then returnGood
        else returnError, gctr (aes128 sBox key) (j0 (aes128 sBox key) iv) msg, some key⟩ :=
  rfl

/-- The standard's mode opens what it seals under the same key. -/
theorem stdGcm_opens : Opens stdGcm id where
  key_init _ _ _ := rfl
  key_encrypt _ _ ctx := by cases ctx <;> rfl
  key_decrypt _ _ _ ctx := by cases ctx <;> rfl
  opens iv msg ctx ctx' hkey hret := by
    obtain rfl : ctx = ctx' := hkey
    cases ctx with
    | none =>
      change returnError = returnGood at hret
      exact absurd hret (by decide)
    | some key =>
      refine ⟨?_, gctr_gctr _ _ msg⟩
      dsimp only [stdGcm]
      rw [List.take_take, Nat.min_self, if_pos rfl]

/-- A context of the code after clean-up, for messages at word boundaries. -/
def blankCode : CommsecCtx (codeGcm (fun _ _ => 0) fun _ _ => 0) :=
  ⟨gcmEnd, 0, 0, 0, gcmEnd, 0, fun _ => 0⟩

/-- A context of the standard's mode without a key. -/
noncomputable def blankStd : CommsecCtx stdGcm := ⟨none, 0, 0, 0, none, 0, fun _ => 0⟩

end Modes

section Refinement

variable {encPtr decPtr : List Byte → List Byte → BitVec 32}

/-- A vector has the twelve bytes for which the standard needs no hash. -/
theorem length_ivBytes (salt station counter : BitVec 32) :
    (ivBytes salt station counter).length = 12 := rfl

/-- The context of the code holds the key of the standard's. -/
def HoldsKey (ctx : GcmCtx) (key : Option Block) : Prop := ∃ k, key = some k ∧ Keyed k ctx

/-- A message of the protocol is sealed by the code as by the standard. -/
theorem HoldsKey.encryptMessage {ctx : GcmCtx} {key : Option Block} (h : HoldsKey ctx key)
    {iv msg : List Byte} (hiv : iv.length = 12) (hmsg : msg.length + 15 < 2 ^ 32) :
    let r := (codeGcm encPtr decPtr).encryptMessage iv msg ctx
    let t := stdGcm.encryptMessage iv msg key
    r.ret = t.ret ∧ r.msg = t.msg ∧ r.tag = t.tag ∧ HoldsKey r.ctx t.ctx := by
  obtain ⟨k, rfl, hkeyed⟩ := h
  obtain ⟨hret, htext, htag, hnext⟩ := gcmEncryptMessage_spec hkeyed 0 (encPtr iv msg)
    (by rw [hiv]; decide) (by decide : ([] : List Byte).length < 2 ^ 32) hmsg (List.replicate tagLen 0)
    ⟨tagLen, by decide⟩
  refine ⟨hret, htext, ?_, k, rfl, hnext⟩
  exact htag.trans (List.append_nil _)

/-- A package of the protocol is opened by the code as by the standard. -/
theorem HoldsKey.decryptMessage {ctx : GcmCtx} {key : Option Block} (h : HoldsKey ctx key)
    {iv msg : List Byte} (hiv : iv.length = 12) (hmsg : msg.length + 15 < 2 ^ 32) (tag : List Byte) :
    let r := (codeGcm encPtr decPtr).decryptMessage iv msg tag ctx
    let t := stdGcm.decryptMessage iv msg tag key
    r.ret = t.ret ∧ r.msg = t.msg ∧ HoldsKey r.ctx t.ctx := by
  obtain ⟨k, rfl, hkeyed⟩ := h
  obtain ⟨hret, htext, -, hnext⟩ := gcmDecryptMessage_spec hkeyed 0 (decPtr iv msg) (by rw [hiv]; decide)
    (by decide : ([] : List Byte).length < 2 ^ 32) hmsg tag ⟨tagLen, by decide⟩
  exact ⟨hret, htext, k, rfl, hnext⟩

/-- The contexts have the same identity and counters, and the same keys while they can be used. -/
structure Matches (ctx : CommsecCtx (codeGcm encPtr decPtr)) (t : CommsecCtx stdGcm) : Prop where
  encSalt : ctx.encSalt = t.encSalt
  myId : ctx.myId = t.myId
  myCounter : ctx.myCounter = t.myCounter
  decSalt : ctx.decSalt = t.decSalt
  mostRecentCounter : ctx.mostRecentCounter = t.mostRecentCounter
  enc : t.myCounter ≠ uint32Max → HoldsKey ctx.encCtx t.encCtx
  dec : (∃ station, t.mostRecentCounter station ≠ uint32Max) → HoldsKey ctx.decCtx t.decCtx

/-- Initialised contexts match. -/
theorem matches_securePkgInit (ctx : CommsecCtx (codeGcm encPtr decPtr)) (t : CommsecCtx stdGcm)
    (myID decSalt : BitVec 32) (rawDecKey : List Byte) (encSalt : BitVec 32) (rawEncKey : List Byte) :
    Matches (securePkgInit ctx myID decSalt rawDecKey encSalt rawEncKey)
      (securePkgInit t myID decSalt rawDecKey encSalt rawEncKey) where
  encSalt := rfl
  myId := rfl
  myCounter := rfl
  decSalt := rfl
  mostRecentCounter := rfl
  enc _ := ⟨_, rfl, gcmInitAndKey_keyed _ _⟩
  dec _ := ⟨_, rfl, gcmInitAndKey_keyed _ _⟩

/-- Zeroed contexts match: the lost key is never used. -/
theorem matches_securePkgZero (ctx : CommsecCtx (codeGcm encPtr decPtr)) (t : CommsecCtx stdGcm) :
    Matches (securePkgZero ctx) (securePkgZero t) where
  encSalt := rfl
  myId := rfl
  myCounter := rfl
  decSalt := rfl
  mostRecentCounter := rfl
  enc hne := absurd rfl hne
  dec hne := absurd rfl hne.choose_spec

/-- The results of two encryptions agree. -/
structure SameEnc (r : EncResult (codeGcm encPtr decPtr)) (t : EncResult stdGcm) : Prop where
  ret : r.ret = t.ret
  mem : r.mem = t.mem
  iv : r.iv = t.iv
  ctx : Matches r.ctx t.ctx

/-- Encryptions on matching contexts agree. -/
theorem Matches.securePkgEnc {ctx : CommsecCtx (codeGcm encPtr decPtr)} {t : CommsecCtx stdGcm}
    (h : Matches ctx t) (mem : ℕ → Byte) (msg msgLen ivStorage tag : ℕ) :
    SameEnc (securePkgEnc ctx mem msg msgLen ivStorage tag)
      (securePkgEnc t mem msg msgLen ivStorage tag) := by
  rw [Commsec.securePkgEnc, Commsec.securePkgEnc, h.encSalt, h.myId, h.myCounter]
  split
  · exact ⟨rfl, rfl, rfl, h⟩
  next hlen =>
    split
    · exact ⟨rfl, rfl, rfl, h⟩
    next hmax =>
      have hfits : (readRange mem msg msgLen).length + 15 < 2 ^ 32 := by
        have hmaxLen : maxMessageLen = 512 := rfl
        rw [readRange_length]
        omega
      obtain ⟨hret, htext, htag, hkey⟩ := (h.enc hmax).encryptMessage (length_ivBytes _ _ _) hfits
      dsimp only
      rw [hret, htext, htag]
      exact ⟨rfl, rfl, rfl, rfl, rfl, rfl, h.decSalt, h.mostRecentCounter, fun _ => hkey, h.dec⟩

/-- Encryptions in place on matching contexts agree. -/
theorem Matches.securePkgEncInPlace {ctx : CommsecCtx (codeGcm encPtr decPtr)} {t : CommsecCtx stdGcm}
    (h : Matches ctx t) (mem : ℕ → Byte) (msg msgStartIdx msgLen : ℕ) :
    SameEnc (securePkgEncInPlace ctx mem msg msgStartIdx msgLen)
      (securePkgEncInPlace t mem msg msgStartIdx msgLen) := by
  rw [Commsec.securePkgEncInPlace, Commsec.securePkgEncInPlace]
  split
  · exact ⟨rfl, rfl, rfl, h⟩
  · exact h.securePkgEnc ..

/-- Decryptions on matching contexts agree. -/
theorem Matches.securePkgDec {ctx : CommsecCtx (codeGcm encPtr decPtr)} {t : CommsecCtx stdGcm}
    (h : Matches ctx t) {pkg : List Byte} (hpkg : pkg.length < 2 ^ 32) :
    (securePkgDec ctx pkg).ret = (securePkgDec t pkg).ret ∧
      (securePkgDec ctx pkg).pkg = (securePkgDec t pkg).pkg ∧
      Matches (securePkgDec ctx pkg).ctx (securePkgDec t pkg).ctx := by
  rw [Commsec.securePkgDec, Commsec.securePkgDec, h.mostRecentCounter]
  split
  · exact ⟨rfl, rfl, h⟩
  · split
    next hstation =>
      dsimp only
      split
      · exact ⟨rfl, rfl, h⟩
      next hnew =>
        have hopen : ∃ station, t.mostRecentCounter station ≠ uint32Max := by
          refine ⟨⟨_, hstation⟩, fun hmax => hnew ?_⟩
          rw [hmax]
          exact le_uint32Max _
        have hfits :
            ((pkg.drop headerLen).take (pkg.length - headerLen - tagLen)).length + 15 < 2 ^ 32 := by
          have hparts : headerLen + tagLen = 16 := rfl
          rw [List.length_take]
          omega
        obtain ⟨hret, htext, hkey⟩ := (h.dec hopen).decryptMessage (length_ivBytes t.decSalt _ _) hfits
          (pkg.drop (pkg.length - tagLen))
        rw [gcmDecrypt, gcmDecrypt, h.decSalt, hret, htext]
        split
        all_goals exact ⟨rfl, rfl, h.encSalt, h.myId, h.myCounter, rfl, rfl, h.enc, fun _ => hkey⟩
    · exact ⟨rfl, rfl, h⟩

/-- All that a call leaves for its caller: the code, the vector handed to an encryption, the memory
after an encryption and the package after a decryption. -/
structure Observation where
  ret : Option CommsecRet
  iv : Option (List Byte)
  mem : Option (ℕ → Byte)
  pkg : List Byte

/-- One call on a context, with all that it leaves. -/
def observeStep {gcm : Gcm} (ctx : CommsecCtx gcm) : CommsecCall → Observation × CommsecCtx gcm
  | .enc mem msg msgLen ivStorage tag =>
    let r := securePkgEnc ctx mem msg msgLen ivStorage tag
    (⟨some r.ret, r.iv, some r.mem, []⟩, r.ctx)
  | .encInPlace mem msg msgStartIdx msgLen =>
    let r := securePkgEncInPlace ctx mem msg msgStartIdx msgLen
    (⟨some r.ret, r.iv, some r.mem, []⟩, r.ctx)
  | .dec pkg =>
    let r := securePkgDec ctx pkg
    (⟨some r.ret, none, none, r.pkg⟩, r.ctx)
  | .zero => (⟨none, none, none, []⟩, securePkgZero ctx)

/-- A call on matching contexts leaves the same. -/
theorem Matches.observeStep {ctx : CommsecCtx (codeGcm encPtr decPtr)} {t : CommsecCtx stdGcm}
    (h : Matches ctx t) {call : CommsecCall} (hlen : ∀ pkg, call = .dec pkg → pkg.length < 2 ^ 32) :
    (observeStep ctx call).1 = (observeStep t call).1 ∧
      Matches (observeStep ctx call).2 (observeStep t call).2 := by
  cases call with
  | enc mem msg msgLen ivStorage tag =>
    obtain ⟨hret, hmem, hiv, hctx⟩ := h.securePkgEnc mem msg msgLen ivStorage tag
    dsimp only [Commsec.observeStep]
    rw [hret, hmem, hiv]
    exact ⟨rfl, hctx⟩
  | encInPlace mem msg msgStartIdx msgLen =>
    obtain ⟨hret, hmem, hiv, hctx⟩ := h.securePkgEncInPlace mem msg msgStartIdx msgLen
    dsimp only [Commsec.observeStep]
    rw [hret, hmem, hiv]
    exact ⟨rfl, hctx⟩
  | dec pkg =>
    obtain ⟨hret, hpkg, hctx⟩ := h.securePkgDec (hlen pkg rfl)
    dsimp only [Commsec.observeStep]
    rw [hret, hpkg]
    exact ⟨rfl, hctx⟩
  | zero => exact ⟨rfl, matches_securePkgZero ctx t⟩

/-- Every run of calls from an initialised context leaves over the code what it leaves over the
standard's mode. -/
theorem commsec_over_code_standard (ctx : CommsecCtx (codeGcm encPtr decPtr)) (t : CommsecCtx stdGcm)
    (myID decSalt : BitVec 32) (rawDecKey : List Byte) (encSalt : BitVec 32) (rawEncKey : List Byte)
    {calls : List CommsecCall} (hlen : ∀ pkg, .dec pkg ∈ calls → pkg.length < 2 ^ 32) :
    outputs observeStep (securePkgInit ctx myID decSalt rawDecKey encSalt rawEncKey) calls =
      outputs observeStep (securePkgInit t myID decSalt rawDecKey encSalt rawEncKey) calls := by
  have hstep (c : CommsecCtx (codeGcm encPtr decPtr)) (u : CommsecCtx stdGcm) (call : CommsecCall)
      (hcall : call ∈ calls) (h : Matches c u) := h.observeStep fun pkg hpkg => hlen pkg (hpkg ▸ hcall)
  exact (simulation_of_mem hstep (matches_securePkgInit ctx t _ _ _ _ _)).1

/-- A message is sealed, a package of another station is examined and the context is zeroed. -/
theorem sample_over_code_standard :
    let calls := [.encInPlace (fun _ => 0x4E) 0 8 3,
      .dec (wordBytes 3 ++ wordBytes 1 ++ List.replicate 11 0), .zero]
    outputs observeStep (securePkgInit blankCode 3 284920 [1] 9219834 [2]) calls =
      outputs observeStep (securePkgInit blankStd 3 284920 [1] 9219834 [2]) calls := by
  apply commsec_over_code_standard
  intro pkg hpkg
  obtain rfl : pkg = wordBytes 3 ++ wordBytes 1 ++ List.replicate 11 0 := by simpa using hpkg
  decide

end Refinement

end CamkesVm.Commsec
