import CamkesVm.Machine.BigEndian

/-!
# The commsec protocol context

The model of `commsec.c`: a context encrypts packages under its own identity and a counter,
and decrypts packages of the base stations, each of which has its own most recent counter. A
package is `[ station id | counter | ciphertext | tag ]` and the initialisation vector of a
message is `[ salt | station id | counter ]`.

The Galois counter mode of `gcm.c` is a parameter: it works in place on a message under a
context that it may change, and only the lengths of its results are fixed here. Encryption
works on a flat memory because its message, header and tag pointers may overlap; decryption
works on the bytes of one package.
-/

namespace CamkesVm.Commsec

open CamkesVm.Machine

/-- The return codes of `commsec.h`, in the order of their values. -/
inductive CommsecRet
  | succeed
  | failBadBaseStation
  | failDupCtr
  | failCtrRollover
  | failBadInput
  | failMsgLengthViolatesAssumptions
  | failGcm
  deriving DecidableEq, Repr

/-- The number of base stations. -/
abbrev maxBaseStations : ℕ := 16

/-- The length of an authentication tag. -/
abbrev tagLen : ℕ := 8

/-- The length of the transmitted header, the station id and the counter. -/
abbrev headerLen : ℕ := 8

/-- The longest message that is encrypted. -/
abbrev maxMessageLen : ℕ := 512

/-- The largest counter, which also marks a context that must not be used. -/
abbrev uint32Max : BitVec 32 := 0xFFFFFFFF

/-- No counter is above the largest one. -/
theorem le_uint32Max (counter : BitVec 32) : counter ≤ uint32Max := by
  have hlt := counter.isLt
  change counter.toNat ≤ 4294967295
  omega

/-- The success code of `gcm.h`. -/
abbrev returnGood : ℤ := 0

/-- What a call into the mode of operation leaves: its code, the message buffer, the context. -/
structure GcmResult (C : Type) where
  ret : ℤ
  msg : List Byte
  ctx : C

/-- The result of an encryption, which also fills the tag buffer. -/
structure GcmSealed (C : Type) extends GcmResult C where
  tag : List Byte

/-- The interface of `gcm.c` as commsec uses it, without associated data and with 8-byte tags. -/
structure Gcm where
  Ctx : Type
  initAndKey : List Byte → Ctx → Ctx
  zeroed : Ctx
  encryptMessage : (iv msg : List Byte) → Ctx → GcmSealed Ctx
  decryptMessage : (iv msg tag : List Byte) → Ctx → GcmResult Ctx
  encrypt_msg_length : ∀ iv msg ctx, (encryptMessage iv msg ctx).msg.length = msg.length
  encrypt_tag_length : ∀ iv msg ctx, (encryptMessage iv msg ctx).tag.length = tagLen
  decrypt_msg_length : ∀ iv msg tag ctx, (decryptMessage iv msg tag ctx).msg.length = msg.length

/-- A commsec context. -/
structure CommsecCtx (gcm : Gcm) where
  encCtx : gcm.Ctx
  encSalt : BitVec 32
  myId : BitVec 32
  myCounter : BitVec 32
  decCtx : gcm.Ctx
  decSalt : BitVec 32
  mostRecentCounter : Fin maxBaseStations → BitVec 32

variable {gcm : Gcm}

/-- Initialise a context; each raw key is used up to its sixteenth byte. -/
def securePkgInit (ctx : CommsecCtx gcm) (myID decSalt : BitVec 32) (rawDecKey : List Byte)
    (encSalt : BitVec 32) (rawEncKey : List Byte) : CommsecCtx gcm where
  decCtx := gcm.initAndKey (rawDecKey.take 16) ctx.decCtx
  encCtx := gcm.initAndKey (rawEncKey.take 16) ctx.encCtx
  encSalt := encSalt
  decSalt := decSalt
  myCounter := 1
  myId := myID
  mostRecentCounter := fun _ => 0

/-- The initialisation vector of a message. -/
def ivBytes (salt station counter : BitVec 32) : List Byte :=
  wordBytes salt ++ wordBytes station ++ wordBytes counter

/-- What an encryption call leaves, with the initialisation vector it handed to the mode. -/
structure EncResult (gcm : Gcm) where
  ret : CommsecRet
  ctx : CommsecCtx gcm
  mem : ℕ → Byte
  iv : Option (List Byte)

/-- Encrypt the message in place; the header and the tag go to their own buffers. -/
def securePkgEnc (ctx : CommsecCtx gcm) (mem : ℕ → Byte) (msg msgLen ivStorage tag : ℕ) :
    EncResult gcm :=
  if msgLen > maxMessageLen then ⟨.failMsgLengthViolatesAssumptions, ctx, mem, none⟩
  else if ctx.myCounter = uint32Max then ⟨.failCtrRollover, ctx, mem, none⟩
  else
    let iv := ivBytes ctx.encSalt ctx.myId ctx.myCounter
    let gcmRet := gcm.encryptMessage iv (readRange mem msg msgLen) ctx.encCtx
    let sealed := writeRange (writeRange mem msg gcmRet.msg) tag gcmRet.tag
    { ret := if returnGood = gcmRet.ret then .succeed else .failGcm
      ctx := { ctx with myCounter := ctx.myCounter + 1, encCtx := gcmRet.ctx }
      mem := writeRange sealed ivStorage ((iv.drop 4).take headerLen)
      iv := some iv }

/-- Encrypt the message in place with the header before it and the tag behind it. -/
def securePkgEncInPlace (ctx : CommsecCtx gcm) (mem : ℕ → Byte) (msg msgStartIdx msgLen : ℕ) :
    EncResult gcm :=
  if msgStartIdx < 8 then ⟨.failBadInput, ctx, mem, none⟩
  else securePkgEnc ctx mem (msg + msgStartIdx) msgLen (msg + msgStartIdx - headerLen)
    (msg + msgStartIdx + msgLen)

/-- The station id in the header of a package. -/
def theirID (pkg : List Byte) : BitVec 32 :=
  ofWordBytes (pkg.getD 0 0) (pkg.getD 1 0) (pkg.getD 2 0) (pkg.getD 3 0)

/-- The counter in the header of a package. -/
def theirCounter (pkg : List Byte) : BitVec 32 :=
  ofWordBytes (pkg.getD 4 0) (pkg.getD 5 0) (pkg.getD 6 0) (pkg.getD 7 0)

/-- What a decryption call leaves. -/
structure DecResult (gcm : Gcm) where
  ret : CommsecRet
  pkg : List Byte
  ctx : CommsecCtx gcm

/-- The call that `securePkg_dec` makes for a package whose header it accepts. -/
def gcmDecrypt (ctx : CommsecCtx gcm) (pkg : List Byte) : GcmResult gcm.Ctx :=
  gcm.decryptMessage (ivBytes ctx.decSalt (theirID pkg) (theirCounter pkg))
    ((pkg.drop headerLen).take (pkg.length - headerLen - tagLen)) (pkg.drop (pkg.length - tagLen))
    ctx.decCtx

/-- Decrypt a package in place if its station is known and its counter is new. -/
def securePkgDec (ctx : CommsecCtx gcm) (pkg : List Byte) : DecResult gcm :=
  if pkg.length < headerLen + tagLen + 1 then ⟨.failMsgLengthViolatesAssumptions, pkg, ctx⟩
  else if h : (theirID pkg).toNat < maxBaseStations then
    let station : Fin maxBaseStations := ⟨(theirID pkg).toNat, h⟩
    if ctx.mostRecentCounter station ≥ theirCounter pkg then ⟨.failDupCtr, pkg, ctx⟩
    else
      let gcmRet := gcmDecrypt ctx pkg
      let opened := pkg.take headerLen ++ gcmRet.msg ++ pkg.drop (pkg.length - tagLen)
      if returnGood = gcmRet.ret then
        { ret := .succeed
          pkg := opened
          ctx := { ctx with
            decCtx := gcmRet.ctx
            mostRecentCounter := Function.update ctx.mostRecentCounter station (theirCounter pkg) } }
      else ⟨.failGcm, opened, { ctx with decCtx := gcmRet.ctx }⟩
  else ⟨.failBadBaseStation, pkg, ctx⟩

/-- Zero the cryptographic data and make every later call fail. -/
def securePkgZero (_ctx : CommsecCtx gcm) : CommsecCtx gcm where
  encCtx := gcm.zeroed
  encSalt := 0
  myId := 0
  myCounter := uint32Max
  decCtx := gcm.zeroed
  decSalt := 0
  mostRecentCounter := fun _ => uint32Max

/-- The length of the message in a package. -/
def securePkgSizeOfMessage (pkgLen : ℤ) : ℤ := pkgLen - tagLen - headerLen

/-- The length of the package of a message. -/
def securePkgSizeOfPackage (msgLen : ℤ) : ℤ := msgLen + tagLen + headerLen

end CamkesVm.Commsec
