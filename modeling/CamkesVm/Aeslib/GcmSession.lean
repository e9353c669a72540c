import CamkesVm.Aeslib.GcmMessage
import CamkesVm.Machine.Run

/-!
# Sessions of calls on a context of the Galois counter mode

The calls of `gcm.h` in any order on one context, and the standard's account of them. A session has
no key, a key, or a key and an open message; the message is the vector, the header and ciphertext
authenticated so far and the number of bytes that went through the counter stream. A message is opened by
`gcm_init_message` and closed by its tag, unless the tag is refused. A call that needs a key or an open
message is not part of a session without one: the source would go on with what the tag has left of the
hashes and the counter block, of which the standard says nothing. Neither is a call that would make a
length overflow, or whose tag does not fit its buffer.

The code answers every session as the standard does, wherever the data lies in memory and however it
is divided into calls.
-/

namespace CamkesVm.Aeslib

open CamkesVm.Machine

section Calls

/-- A call on a context, with the addresses and contents of its buffers. -/
inductive GcmCall
  | initAndKey (key : Block)
  | initMessage (iv : List Byte)
  | authHeader (ptr : BitVec 32) (data : List Byte)
  | authData (ptr : BitVec 32) (data : List Byte)
  | cryptData (ptr : BitVec 32) (data : List Byte)
  | encrypt (ptr : BitVec 32) (data : List Byte)
  | decrypt (ptr : BitVec 32) (data : List Byte)
  | computeTag (tag : List Byte) (tagLen : TagLen)
  | encryptMessage (hdrPtr msgPtr : BitVec 32) (iv hdr msg tag : List Byte) (tagLen : TagLen)
  | decryptMessage (hdrPtr msgPtr : BitVec 32) (iv hdr msg tag : List Byte) (tagLen : TagLen)
  | finish

/-- What a call answers: its code, and the data and the tag buffer it leaves. -/
structure GcmAnswer where
  ret : ℤ
  data : List Byte
  tag : List Byte

/-- A call of the code. -/
def callStep (ctx : GcmCtx) : GcmCall → GcmAnswer × GcmCtx
  | .initAndKey key => (⟨returnGood, [], []⟩, gcmInitAndKey key ctx)
  | .initMessage iv => (⟨returnGood, [], []⟩, gcmInitMessage iv ctx)
  | .authHeader ptr data => (⟨returnGood, data, []⟩, gcmAuthHeader ptr data ctx)
  | .authData ptr data => (⟨returnGood, data, []⟩, gcmAuthData ptr data ctx)
  | .cryptData ptr data =>
    let r := gcmCryptData ptr data ctx
    (⟨returnGood, r.1, []⟩, r.2)
  | .encrypt ptr data =>
    let r := gcmEncrypt ptr data ctx
    (⟨returnGood, r.1, []⟩, r.2)
  | .decrypt ptr data =>
    let r := gcmDecrypt ptr data ctx
    (⟨returnGood, r.1, []⟩, r.2)
  | .computeTag tag tagLen =>
    let r := gcmComputeTag tag tagLen ctx
    (⟨r.1, [], r.2.1⟩, r.2.2)
  | .encryptMessage hdrPtr msgPtr iv hdr msg tag tagLen =>
    let r := gcmEncryptMessage hdrPtr msgPtr iv hdr msg tag tagLen ctx
    (⟨r.ret, r.msg, r.tag⟩, r.ctx)
  | .decryptMessage hdrPtr msgPtr iv hdr msg tag tagLen =>
    let r := gcmDecryptMessage hdrPtr msgPtr iv hdr msg tag tagLen ctx
    (⟨r.ret, r.msg, r.tag⟩, r.ctx)
  | .finish => (⟨returnGood, [], []⟩, gcmEnd)

end Calls

section Standard

/-- An open message: its vector, the header and ciphertext so far, and the bytes that went through the
counter stream. -/
structure Message where
  iv : List Byte
  hdr : List Byte
  text : List Byte
  count : ℕ

/-- The lengths fit the counters of a context. -/
def Message.Fits (m : Message) : Prop :=
  m.iv.length * 8 < 2 ^ 32 ∧ m.hdr.length < 2 ^ 32 ∧ m.text.length + 15 < 2 ^ 32 ∧ m.count < 2 ^ 32

instance (m : Message) : Decidable m.Fits := inferInstanceAs (Decidable (_ ∧ _))

/-- The state of a session. -/
inductive Session
  | blank
  | keyed (key : Block)
  | within (key : Block) (m : Message)

/-- The key of a session. -/
def Session.key? : Session → Option Block
  | .blank => none
  | .keyed key => some key
  | .within key _ => some key

/-- The key and the open message of a session. -/
def Session.message? : Session → Option (Block × Message)
  | .within key m => some (key, m)
  | _ => none

/-- Answer and go on with a message, as long as it fits. -/
def goOn (key : Block) (m : Message) (answer : GcmAnswer) : Option (GcmAnswer × Session) :=
  if m.Fits then some (answer, .within key m) else none

/-- The counter stream of a message from its next byte on. -/
noncomputable def Message.crypt (m : Message) (key : Block) (data : List Byte) : List Byte :=
  streamFrom (aes128 sBox key) (j0 (aes128 sBox key) m.iv) m.count data

/-- A tag buffer with the tag of a header and a ciphertext. -/
noncomputable def writeTag (key : Block) (iv hdr text tag : List Byte) (tagLen : TagLen) : List Byte :=
  (fullTag (aes128 sBox key) iv hdr text).toList.take tagLen ++ tag.drop tagLen

/-- The standard's account of a call. -/
noncomputable def sessionStep (s : Session) : GcmCall → Option (GcmAnswer × Session)
  | .initAndKey key => some (⟨returnGood, [], []⟩, .keyed key)
  | .initMessage iv => do
    let key ← s.key?
    goOn key ⟨iv, [], [], 0⟩ ⟨returnGood, [], []⟩
  | .authHeader _ data => do
    let (key, m) ← s.message?
    goOn key { m with hdr := m.hdr ++ data } ⟨returnGood, data, []⟩
  | .authData _ data => do
    let (key, m) ← s.message?
    goOn key { m with text := m.text ++ data } ⟨returnGood, data, []⟩
  | .cryptData _ data => do
    let (key, m) ← s.message?
    goOn key { m with count := m.count + data.length } ⟨returnGood, m.crypt key data, []⟩
  | .encrypt _ data => do
    let (key, m) ← s.message?
    goOn key { m with text := m.text ++ m.crypt key data, count := m.count + data.length }
      ⟨returnGood, m.crypt key data, []⟩
  | .decrypt _ data => do
    let (key, m) ← s.message?
    goOn key { m with text := m.text ++ data, count := m.count + data.length }
      ⟨returnGood, m.crypt key data, []⟩
  -- The tag closes the message, unless it is refused.
  | .computeTag tag tagLen => do
    let (key, m) ← s.message?
    if tag.length < tagLen then none
    else if m.text.length = m.count then
      some (⟨returnGood, [], writeTag key m.iv m.hdr m.text tag tagLen⟩, .keyed key)
    else if m.count = 0 then
      some (⟨returnWarn, [], writeTag key m.iv m.hdr m.text tag tagLen⟩, .keyed key)
    else some (⟨returnError, [], tag⟩, .within key m)
  | .encryptMessage _ _ iv hdr msg tag tagLen => do
    let key ← s.key?
    let text := gctr (aes128 sBox key) (j0 (aes128 sBox key) iv) msg
    if (⟨iv, hdr, text, msg.length⟩ : Message).Fits ∧ tagLen ≤ tag.length then
      some (⟨returnGood, text, writeTag key iv hdr text tag tagLen⟩, .keyed key)
    else none
  | .decryptMessage _ _ iv hdr msg tag tagLen => do
    let key ← s.key?
    if (⟨iv, hdr, msg, msg.length⟩ : Message).Fits ∧ tagLen ≤ tag.length then
      let good := tag.take tagLen = (fullTag (aes128 sBox key) iv hdr msg).toList.take tagLen
      some (⟨if good then returnGood else returnError,
        gctr (aes128 sBox key) (j0 (aes128 sBox key) iv) msg, tag⟩, .keyed key)
    else none
  | .finish => some (⟨returnGood, [], []⟩, .blank)

end Standard

section Refinement

/-- A context in a state of a session. -/
def InSession : Session → GcmCtx → Prop
  | .blank, _ => True
  | .keyed key, ctx => Keyed key ctx
  | .within key m, ctx =>
    MidMessage key (j0 (aes128 sBox key) m.iv) m.hdr m.text m.count ctx ∧ m.Fits

/-- In a session with a key the context is keyed. -/
theorem InSession.keyed {s : Session} {ctx : GcmCtx} {key : Block} (h : InSession s ctx)
    (hkey : s.key? = some key) : Keyed key ctx := by
  cases s with
  | blank => exact absurd hkey (by simp [Session.key?])
  | keyed key' =>
    obtain rfl := Option.some.inj hkey
    exact h
  | within key' m =>
    obtain rfl := Option.some.inj hkey
    exact h.1.keyed

/-- In a session with a message the context is in the middle of it. -/
theorem InSession.within {s : Session} {ctx : GcmCtx} {key : Block} {m : Message} (h : InSession s ctx)
    (hmessage : s.message? = some (key, m)) : InSession (.within key m) ctx := by
  cases s with
  | blank => exact absurd hmessage (by simp [Session.message?])
  | keyed key' => exact absurd hmessage (by simp [Session.message?])
  | within key' m' =>
    obtain ⟨rfl, rfl⟩ := Prod.mk.inj (Option.some.inj hmessage)
    exact h

/-- Going on with a message that fits. -/
theorem inSession_goOn {key : Block} {m : Message} {answer o : GcmAnswer} {s : Session} {ctx : GcmCtx}
    (hstep : goOn key m answer = some (o, s))
    (h : m.Fits → MidMessage key (j0 (aes128 sBox key) m.iv) m.hdr m.text m.count ctx) :
    answer = o ∧ InSession s ctx := by
  rw [goOn] at hstep
  split at hstep
  next hfits =>
    obtain ⟨rfl, rfl⟩ := Prod.mk.inj (Option.some.inj hstep)
    exact ⟨rfl, h hfits, hfits⟩
  · exact absurd hstep (by simp)

/-- A refused tag changes nothing. -/
theorem gcmComputeTag_refused {tag : List Byte} {tagLen : TagLen} {ctx : GcmCtx}
    (hrefused : ctx.txtAcnt ≠ ctx.txtCcnt ∧ ctx.txtCcnt > 0) :
    gcmComputeTag tag tagLen ctx = (returnError, tag, ctx) := if_pos hrefused

/-- The code computes a tag as the standard does. -/
theorem computeTag_inSession {key : Block} {m : Message} {ctx : GcmCtx} (h : InSession (.within key m) ctx)
    (tag : List Byte) (tagLen : TagLen) {o : GcmAnswer} {s : Session}
    (hstep : sessionStep (.within key m) (.computeTag tag tagLen) = some (o, s)) :
    (callStep ctx (.computeTag tag tagLen)).1 = o ∧ InSession s (callStep ctx (.computeTag tag tagLen)).2 := by
  have hmid := h.1
  obtain ⟨-, hhdr, htext, hcount⟩ := h.2
  have hret := hmid.gcmComputeTag_ret (by omega) hcount tag tagLen
  have hkeyed := hmid.keyed.gcmComputeTag tag tagLen
  dsimp only [sessionStep, Session.message?, Option.bind_eq_bind, Option.bind_some] at hstep
  split at hstep
  · exact absurd hstep (by simp)
  dsimp only [callStep]
  by_cases heq : m.text.length = m.count
  · have htag := hmid.gcmComputeTag_tag hhdr htext (Or.inl heq) tag tagLen
    rw [if_pos heq] at hstep hret
    obtain ⟨rfl, rfl⟩ := Prod.mk.inj (Option.some.inj hstep)
    rw [hret, htag]
    exact ⟨rfl, hkeyed⟩
  · rw [if_neg heq] at hstep hret
    by_cases hzero : m.count = 0
    · have htag := hmid.gcmComputeTag_tag hhdr htext (Or.inr hzero) tag tagLen
      rw [if_pos hzero] at hstep hret
      obtain ⟨rfl, rfl⟩ := Prod.mk.inj (Option.some.inj hstep)
      rw [hret, htag]
      exact ⟨rfl, hkeyed⟩
    · have hrefused := (hmid.counts_eq (by omega) hcount).2.mpr ⟨heq, hzero⟩
      rw [if_neg hzero] at hstep
      obtain ⟨rfl, rfl⟩ := Prod.mk.inj (Option.some.inj hstep)
      rw [gcmComputeTag_refused hrefused]
      exact ⟨rfl, h⟩

/-- The code answers a call as the standard does. -/
theorem callStep_sessionStep (s : Session) (ctx : GcmCtx) (call : GcmCall) (o : GcmAnswer) (s' : Session)
    (h : InSession s ctx) (hstep : sessionStep s call = some (o, s')) :
    (callStep ctx call).1 = o ∧ InSession s' (callStep ctx call).2 := by
  cases call with
  | initAndKey key =>
    obtain ⟨rfl, rfl⟩ := Prod.mk.inj (Option.some.inj hstep)
    exact ⟨rfl, gcmInitAndKey_keyed key ctx⟩
  | initMessage iv =>
    obtain ⟨key, hkey, hstep⟩ := Option.bind_eq_some_iff.mp hstep
    refine inSession_goOn hstep fun hfits => ?_
    rw [← (h.keyed hkey).initCtr_eq hfits.1]
    exact gcmInitMessage_spec (h.keyed hkey) iv
  | authHeader ptr data =>
    obtain ⟨⟨key, m⟩, hmessage, hstep⟩ := Option.bind_eq_some_iff.mp hstep
    obtain ⟨hmid, -, hhdr, -, -⟩ := h.within hmessage
    exact inSession_goOn hstep fun _ => gcmAuthHeader_spec hmid hhdr ptr data
  | authData ptr data =>
    obtain ⟨⟨key, m⟩, hmessage, hstep⟩ := Option.bind_eq_some_iff.mp hstep
    obtain ⟨hmid, -, -, htext, -⟩ := h.within hmessage
    exact inSession_goOn hstep fun _ => gcmAuthData_spec hmid (by omega) ptr data
  | cryptData ptr data =>
    obtain ⟨⟨key, m⟩, hmessage, hstep⟩ := Option.bind_eq_some_iff.mp hstep
    obtain ⟨hmid, -⟩ := h.within hmessage
    obtain ⟨hdata, hnext⟩ := gcmCryptData_midMessage hmid ptr data
    dsimp only [callStep]
    rw [hdata]
    exact inSession_goOn hstep fun _ => hnext
  | encrypt ptr data =>
    obtain ⟨⟨key, m⟩, hmessage, hstep⟩ := Option.bind_eq_some_iff.mp hstep
    obtain ⟨hmid, -, -, htext, -⟩ := h.within hmessage
    obtain ⟨hdata, hnext⟩ := gcmEncrypt_spec hmid (by omega) ptr data
    dsimp only [callStep]
    rw [hdata]
    exact inSession_goOn hstep fun _ => hnext
  | decrypt ptr data =>
    obtain ⟨⟨key, m⟩, hmessage, hstep⟩ := Option.bind_eq_some_iff.mp hstep
    obtain ⟨hmid, -, -, htext, -⟩ := h.within hmessage
    obtain ⟨hdata, hnext⟩ := gcmDecrypt_spec hmid (by omega) ptr data
    dsimp only [callStep]
    rw [hdata]
    exact inSession_goOn hstep fun _ => hnext
  | computeTag tag tagLen =>
    obtain ⟨⟨key, m⟩, hmessage, hstep⟩ := Option.bind_eq_some_iff.mp hstep
    exact computeTag_inSession (h.within hmessage) tag tagLen hstep
  | encryptMessage hdrPtr msgPtr iv hdr msg tag tagLen =>
    obtain ⟨key, hkey, hstep⟩ := Option.bind_eq_some_iff.mp hstep
    dsimp only at hstep
    split at hstep
    next hfits =>
      obtain ⟨⟨hiv, hhdr, htext, -⟩, -⟩ := hfits
      rw [length_gctr] at htext
      obtain ⟨hret, hmsg, htag, hkeyed⟩ :=
        gcmEncryptMessage_spec (h.keyed hkey) hdrPtr msgPtr hiv hhdr htext tag tagLen
      obtain ⟨rfl, rfl⟩ := Prod.mk.inj (Option.some.inj hstep)
      dsimp only [callStep]
      rw [hret, hmsg, htag]
      exact ⟨rfl, hkeyed⟩
    · exact absurd hstep (by simp)
  | decryptMessage hdrPtr msgPtr iv hdr msg tag tagLen =>
    obtain ⟨key, hkey, hstep⟩ := Option.bind_eq_some_iff.mp hstep
    dsimp only at hstep
    split at hstep
    next hfits =>
      obtain ⟨⟨hiv, hhdr, htext, -⟩, -⟩ := hfits
      obtain ⟨hret, hmsg, htag, hkeyed⟩ :=
        gcmDecryptMessage_spec (h.keyed hkey) hdrPtr msgPtr hiv hhdr htext tag tagLen
      obtain ⟨rfl, rfl⟩ := Prod.mk.inj (Option.some.inj hstep)
      dsimp only [callStep]
      rw [hret, hmsg, htag]
      exact ⟨rfl, hkeyed⟩
    · exact absurd hstep (by simp)
  | finish =>
    obtain ⟨rfl, rfl⟩ := Prod.mk.inj (Option.some.inj hstep)
    exact ⟨rfl, trivial⟩

/-- The code answers every session as the standard does, from any context. -/
theorem gcm_sessions_standard {calls : List GcmCall} {answers : List GcmAnswer} {s : Session}
    (ctx : GcmCtx) (hrun : run sessionStep .blank calls = some (answers, s)) :
    outputs callStep ctx calls = answers := by
  have hblank : InSession .blank ctx := trivial
  exact (run_simulation callStep_sessionStep hblank hrun).1

/-- A message in pieces at odd addresses, whose tag is asked for too early, and one on its own. -/
def pieces : List GcmCall :=
  [.initAndKey zeroBlock, .initMessage [1, 2, 3], .encrypt 1 [10, 11, 12, 13, 14], .authHeader 6 [20, 21],
    .cryptData 3 [15], .computeTag [0, 0] 2, .authData 2 [16], .authHeader 0 [22], .computeTag [0, 0] 2,
    .decryptMessage 0 5 [1] [] [30, 31] [40, 41] 2]

/-- The message in pieces is answered as the session answers it. -/
theorem pieces_standard : ∃ answers s,
    run sessionStep .blank pieces = some (answers, s) ∧ outputs callStep gcmEnd pieces = answers := by
  have hsome : (run sessionStep .blank pieces).isSome := by
    simp [run, pieces, sessionStep, goOn, Session.key?, Session.message?, Message.Fits, Message.crypt]
  obtain ⟨⟨answers, s⟩, hrun⟩ := Option.isSome_iff_exists.mp hsome
  exact ⟨answers, s, hrun, gcm_sessions_standard gcmEnd hrun⟩

end Refinement

section RoundTrip

/-- The calls that neither set nor clear the key. -/
def GcmCall.keepsKey : GcmCall → Bool
  | .initAndKey _ => false
  | .finish => false
  | _ => true

variable {key : Block} {ctx : GcmCtx}

/-- Encryption and decryption of a piece keep the key, also in no open message. -/
theorem Keyed.gcmCryptData (h : Keyed key ctx) (ptr : BitVec 32) (data : List Byte) :
    Keyed key (gcmCryptData ptr data ctx).2 :=
  have hframe := gcmCryptData_frame ptr data ctx
  h.of_eq hframe.aes_eq hframe.hash_eq hframe.table_eq

/-- A call that keeps the key leaves the context keyed. -/
theorem Keyed.callStep (h : Keyed key ctx) {call : GcmCall} (hkeeps : call.keepsKey = true) :
    Keyed key (callStep ctx call).2 := by
  have hinit (iv : List Byte) (hdrPtr : BitVec 32) (hdr : List Byte) :
      Keyed key (gcmAuthHeader hdrPtr hdr (gcmInitMessage iv ctx)) := ⟨h.cipher, h.hash, h.table⟩
  have hauth {ctx : GcmCtx} (h : Keyed key ctx) (ptr : BitVec 32) (data : List Byte) :
      Keyed key (gcmAuthData ptr data ctx) := ⟨h.cipher, h.hash, h.table⟩
  cases call with
  | initAndKey _ => exact absurd hkeeps Bool.false_ne_true
  | initMessage iv => exact ⟨h.cipher, h.hash, h.table⟩
  | authHeader ptr data => exact ⟨h.cipher, h.hash, h.table⟩
  | authData ptr data => exact hauth h ptr data
  | cryptData ptr data => exact h.gcmCryptData ptr data
  | encrypt ptr data => exact hauth (h.gcmCryptData ptr data) ptr _
  | decrypt ptr data => exact (hauth h ptr data).gcmCryptData ptr data
  | computeTag tag tagLen => exact h.gcmComputeTag tag tagLen
  | encryptMessage hdrPtr msgPtr iv hdr msg tag tagLen =>
    exact (hauth ((hinit iv hdrPtr hdr).gcmCryptData msgPtr msg) msgPtr _).gcmComputeTag tag tagLen
  | decryptMessage hdrPtr msgPtr iv hdr msg tag tagLen =>
    exact ((hauth (hinit iv hdrPtr hdr) msgPtr msg).gcmCryptData msgPtr msg).gcmComputeTag _ tagLen
  | finish => exact absurd hkeeps Bool.false_ne_true

/-- Calls that keep the key leave the context keyed. -/
theorem Keyed.final (h : Keyed key ctx) {calls : List GcmCall}
    (hkeeps : ∀ call ∈ calls, call.keepsKey = true) : Keyed key (final Aeslib.callStep ctx calls) := by
  induction calls generalizing ctx with
  | nil => exact h
  | cons call rest ih =>
    rw [List.forall_mem_cons] at hkeeps
    exact ih (h.callStep hkeeps.1) hkeeps.2

/-- A message sealed in one context opens in another with the same key, and only with its own tag,
whatever calls either context saw since the key was set. -/
theorem gcm_message_round_trip (key : Block) (ctx ctx' : GcmCtx) {earlier earlier' : List GcmCall}
    (hkeeps : ∀ call ∈ earlier, call.keepsKey = true) (hkeeps' : ∀ call ∈ earlier', call.keepsKey = true)
    (hdrPtr msgPtr hdrPtr' msgPtr' : BitVec 32) (iv hdr msg tag tag' : List Byte)
    (tagLen : TagLen) :
    let sender := final callStep (gcmInitAndKey key ctx) earlier
    let receiver := final callStep (gcmInitAndKey key ctx') earlier'
    let s := gcmEncryptMessage hdrPtr msgPtr iv hdr msg tag tagLen sender
    let r := gcmDecryptMessage hdrPtr' msgPtr' iv hdr s.msg tag' tagLen receiver
    s.ret = returnGood ∧ r.msg = msg ∧
      (r.ret = returnGood ↔ tag'.take tagLen = s.tag.take tagLen) := by
  have hsender := (gcmInitAndKey_keyed key ctx).final hkeeps
  have hreceiver := (gcmInitAndKey_keyed key ctx').final hkeeps'
  obtain ⟨hret, hmsg, hopen⟩ := gcmDecryptMessage_gcmEncryptMessage hsender hreceiver hdrPtr msgPtr
    hdrPtr' msgPtr' iv hdr msg tag tag' tagLen
  refine ⟨hret, hmsg, ?_⟩
  rw [hopen]
  split_ifs with heq
  · exact iff_of_true rfl heq
  · exact iff_of_false (by decide) heq

/-- A message sealed after the pieces opens in a fresh context. -/
theorem pieces_round_trip :
    let sender := final callStep (gcmInitAndKey zeroBlock gcmEnd) (pieces.drop 1)
    let s := gcmEncryptMessage 0 1 [1, 2, 3] [20] [10, 11] [0, 0, 0, 0] 4 sender
    let r := gcmDecryptMessage 2 3 [1, 2, 3] [20] s.msg s.tag 4 (gcmInitAndKey zeroBlock gcmEnd)
    s.ret = returnGood ∧ r.msg = [10, 11] ∧ r.ret = returnGood := by
  have hkeeps : ∀ call ∈ pieces.drop 1, call.keepsKey = true := by decide
  have hnone : ∀ call ∈ ([] : List GcmCall), call.keepsKey = true := by decide
  obtain ⟨hret, hmsg, hopen⟩ := gcm_message_round_trip zeroBlock gcmEnd gcmEnd hkeeps hnone 0 1 2 3
    [1, 2, 3] [20] [10, 11] [0, 0, 0, 0] _ 4
  exact ⟨hret, hmsg, hopen.mpr rfl⟩

end RoundTrip

end CamkesVm.Aeslib
