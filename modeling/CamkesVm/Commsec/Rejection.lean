import CamkesVm.Commsec.Calls

/-!
# Rejected packages leave no trace

A decryption that is rejected changes nothing of the context but the scratch state of the mode
of operation. When the mode's answer depends only on the key and its arguments, a run with some
of its rejected packages removed therefore answers every other package as before, and ends with
the same counters, salts and sender state.
-/

namespace CamkesVm.Commsec

open CamkesVm.Machine

variable {gcm : Gcm}

/-- One decryption call, answering with its code and the bytes it leaves in the package. -/
def decStep (ctx : CommsecCtx gcm) (pkg : List Byte) :
    (CommsecRet × List Byte) × CommsecCtx gcm :=
  let r := securePkgDec ctx pkg
  ((r.ret, r.pkg), r.ctx)

/-- Decryption keeps the key and answers as a function of key, vector, ciphertext and tag. -/
structure Leakless (gcm : Gcm) {Key : Type} (key : gcm.Ctx → Key) : Prop where
  key_decrypt : ∀ iv msg tag ctx, key (gcm.decryptMessage iv msg tag ctx).ctx = key ctx
  ret_eq : ∀ iv msg tag ctx ctx', key ctx = key ctx' →
    (gcm.decryptMessage iv msg tag ctx).ret = (gcm.decryptMessage iv msg tag ctx').ret
  msg_eq : ∀ iv msg tag ctx ctx', key ctx = key ctx' →
    (gcm.decryptMessage iv msg tag ctx).msg = (gcm.decryptMessage iv msg tag ctx').msg

/-- The contexts differ at most in the scratch state of the decryption, under the same key. -/
def SameButScratch {Key : Type} (key : gcm.Ctx → Key) (ctx ctx' : CommsecCtx gcm) : Prop :=
  key ctx.decCtx = key ctx'.decCtx ∧ ctx = { ctx' with decCtx := ctx.decCtx }

section Leakless

variable {Key : Type} {key : gcm.Ctx → Key}

/-- Two contexts that differ from a third only in scratch state differ only in it themselves. -/
theorem SameButScratch.trans_symm {a b c : CommsecCtx gcm} (hab : SameButScratch key a b)
    (hcb : SameButScratch key c b) : SameButScratch key a c := by
  refine ⟨hab.1.trans hcb.1.symm, ?_⟩
  rw [hab.2, hcb.2]

/-- A rejected package changes at most the scratch state. -/
theorem securePkgDec_rejected (hgcm : Leakless gcm key) {ctx : CommsecCtx gcm} {pkg : List Byte}
    (hret : (securePkgDec ctx pkg).ret ≠ .succeed) :
    SameButScratch key (securePkgDec ctx pkg).ctx ctx := by
  obtain ⟨_, _, hctx | hctx⟩ | ⟨hsucceed, _⟩ := securePkgDec_cases ctx pkg
  · rw [hctx]
    exact ⟨rfl, rfl⟩
  · rw [hctx]
    exact ⟨hgcm.key_decrypt .., rfl⟩
  · exact absurd hsucceed hret

/-- Contexts that differ only in scratch state answer a package alike, and still differ only in
scratch state afterwards. -/
theorem securePkgDec_congr (hgcm : Leakless gcm key) {ctx ctx' : CommsecCtx gcm}
    (h : SameButScratch key ctx ctx') (pkg : List Byte) :
    (securePkgDec ctx pkg).ret = (securePkgDec ctx' pkg).ret ∧
      (securePkgDec ctx pkg).pkg = (securePkgDec ctx' pkg).pkg ∧
      SameButScratch key (securePkgDec ctx pkg).ctx (securePkgDec ctx' pkg).ctx := by
  obtain ⟨hkey, hfields⟩ := h
  generalize ctx.decCtx = scratch at hkey hfields
  subst hfields
  have hret : (gcmDecrypt { ctx' with decCtx := scratch } pkg).ret = (gcmDecrypt ctx' pkg).ret :=
    hgcm.ret_eq _ _ _ _ _ hkey
  have hmsg : (gcmDecrypt { ctx' with decCtx := scratch } pkg).msg = (gcmDecrypt ctx' pkg).msg :=
    hgcm.msg_eq _ _ _ _ _ hkey
  have hnext : key (gcmDecrypt { ctx' with decCtx := scratch } pkg).ctx =
      key (gcmDecrypt ctx' pkg).ctx :=
    ((hgcm.key_decrypt ..).trans hkey).trans (hgcm.key_decrypt ..).symm
  unfold securePkgDec
  split
  · exact ⟨rfl, rfl, hkey, rfl⟩
  · split
    · dsimp only
      split
      · exact ⟨rfl, rfl, hkey, rfl⟩
      · rw [hret, hmsg]
        split
        · exact ⟨rfl, rfl, hnext, rfl⟩
        · exact ⟨rfl, rfl, hnext, rfl⟩
    · exact ⟨rfl, rfl, hkey, rfl⟩

/-- Two runs from contexts that differ only in scratch state, the second one without some of the
rejected packages: the remaining answers agree, and so do the last contexts. -/
theorem outputs_decStep_filter (hgcm : Leakless gcm key) (calls : List (List Byte × Bool))
    (ctx ctx' : CommsecCtx gcm) (h : SameButScratch key ctx' ctx)
    (hdeleted : ∀ entry ∈ calls.zip (outputs decStep ctx (calls.map Prod.fst)),
      entry.1.2 = false → entry.2.1 ≠ .succeed) :
    outputs decStep ctx' ((calls.filter Prod.snd).map Prod.fst) =
        ((calls.zip (outputs decStep ctx (calls.map Prod.fst))).filter fun entry =>
          entry.1.2).map Prod.snd ∧
      SameButScratch key (final decStep ctx' ((calls.filter Prod.snd).map Prod.fst))
        (final decStep ctx (calls.map Prod.fst)) := by
  induction calls generalizing ctx ctx' with
  | nil => exact ⟨rfl, h⟩
  | cons call rest ih =>
    obtain ⟨pkg, keep⟩ := call
    simp only [List.map_cons, outputs_cons, List.zip_cons_cons, List.mem_cons,
      forall_eq_or_imp] at hdeleted
    obtain ⟨hfirst, hrest⟩ := hdeleted
    obtain ⟨hret, hpkg, hnext⟩ := securePkgDec_congr hgcm h pkg
    cases keep with
    | true =>
      obtain ⟨houts, hfinal⟩ := ih _ _ hnext hrest
      refine ⟨?_, hfinal⟩
      have hout : (decStep ctx' pkg).1 = (decStep ctx pkg).1 := Prod.ext hret hpkg
      simp only [List.filter_cons_of_pos, List.map_cons, outputs_cons, List.zip_cons_cons, hout]
      exact congrArg (List.cons _) houts
    | false =>
      -- The deleted call leaves the longer run where the shorter one still is.
      have hstay : SameButScratch key ctx' (decStep ctx pkg).2 :=
        h.trans_symm (securePkgDec_rejected hgcm (hfirst rfl))
      exact ih _ _ hstay hrest

/-- Deleting rejected packages from a run changes no other answer, no recorded counter, no salt
and nothing on the sender side. -/
theorem rejected_packages_harmless (hgcm : Leakless gcm key) (ctx : CommsecCtx gcm)
    (calls : List (List Byte × Bool))
    (hdeleted : ∀ entry ∈ calls.zip (outputs decStep ctx (calls.map Prod.fst)),
      entry.1.2 = false → entry.2.1 ≠ .succeed) :
    let kept := (calls.filter Prod.snd).map Prod.fst
    let after := final decStep ctx kept
    let original := final decStep ctx (calls.map Prod.fst)
    outputs decStep ctx kept =
        ((calls.zip (outputs decStep ctx (calls.map Prod.fst))).filter fun entry =>
          entry.1.2).map Prod.snd ∧
      after.mostRecentCounter = original.mostRecentCounter ∧ after.decSalt = original.decSalt ∧
      after.encSalt = original.encSalt ∧ after.myId = original.myId ∧
      after.myCounter = original.myCounter := by
  obtain ⟨houts, _, hfields⟩ := outputs_decStep_filter hgcm calls ctx ctx ⟨rfl, rfl⟩ hdeleted
  refine ⟨houts, ?_, ?_, ?_, ?_, ?_⟩ <;> rw [hfields]

end Leakless

/-- The AES keystream bytes of the sample messages, under the pilot's receive key and salt. -/
def sampleKeystream (iv : List Byte) : List Byte :=
  if iv = ivBytes 9219834 3 1 then [0xF1, 0x01, 0x9F]
  else if iv = ivBytes 9219834 3 2 then [0x49, 0xBC, 0xDF]
  else []

/-- The counter mode part of the sample: add the keystream. -/
def sampleCrypt (iv msg : List Byte) : List Byte :=
  msg.mapIdx fun i b => b ^^^ (sampleKeystream iv).getD i 0

/-- The truncated tags of the sample ciphertexts. -/
def sampleTag (iv ct : List Byte) : List Byte :=
  if iv = ivBytes 9219834 3 1 ∧ ct = [0x0F, 0x08, 0xD1] then
    [0xBC, 0xEF, 0x85, 0x8D, 0x62, 0x25, 0xD6, 0x7C]
  else if iv = ivBytes 9219834 3 2 ∧ ct = [0xB7, 0xB5, 0x91] then
    [0xC0, 0x7D, 0xCC, 0xE9, 0xBB, 0x2F, 0xD9, 0x12]
  else List.replicate tagLen 0

/-- A tag of the sample mode has the length of a tag. -/
@[simp] theorem sampleTag_length (iv ct : List Byte) : (sampleTag iv ct).length = tagLen := by
  unfold sampleTag
  split
  · rfl
  · split <;> simp

/-- A mode of operation that agrees with AES-GCM on the sample messages. -/
def sampleGcm : Gcm where
  Ctx := Unit
  initAndKey _ _ := ()
  zeroed := ()
  encryptMessage iv msg _ := ⟨⟨returnGood, sampleCrypt iv msg, ()⟩, sampleTag iv (sampleCrypt iv msg)⟩
  decryptMessage iv msg tag _ :=
    ⟨if tag = sampleTag iv msg then returnGood else -1, sampleCrypt iv msg, ()⟩
  encrypt_msg_length iv msg _ := by simp [sampleCrypt]
  encrypt_tag_length iv msg _ := sampleTag_length _ _
  decrypt_msg_length iv msg tag _ := by simp [sampleCrypt]

/-- The key of the sample messages. -/
def sampleKey : List Byte := [15, 14, 13, 12, 11, 10, 9, 8, 7, 6, 5, 4, 3, 2, 1, 0]

/-- A context in zeroed memory. -/
def blankCtx : CommsecCtx sampleGcm := ⟨(), 0, 0, 0, (), 0, fun _ => 0⟩

/-- The receiver of the pilot component, before any package. -/
def sampleReceiver : CommsecCtx sampleGcm :=
  securePkgInit blankCtx 0 9219834 sampleKey 284920 sampleKey.reverse

/-- The first sample message as station 3 sends it. -/
def samplePkg : List Byte :=
  [0, 0, 0, 3, 0, 0, 0, 1, 0x0F, 0x08, 0xD1, 0xBC, 0xEF, 0x85, 0x8D, 0x62, 0x25, 0xD6, 0x7C]

/-- The first sample message with a forged tag. -/
def forgedPkg : List Byte :=
  [0, 0, 0, 3, 0, 0, 0, 1, 0x0F, 0x08, 0xD1, 0xBC, 0xEF, 0x85, 0x8D, 0x62, 0x25, 0xD6, 0x7D]

/-- A forged package before the genuine one does not keep the genuine one from being accepted. -/
theorem forgedPkg_harmless :
    outputs decStep sampleReceiver [samplePkg] =
      [(.succeed, [0, 0, 0, 3, 0, 0, 0, 1, 0xFE, 0x09, 0x4E,
        0xBC, 0xEF, 0x85, 0x8D, 0x62, 0x25, 0xD6, 0x7C])] := by
  have hgcm : Leakless sampleGcm id :=
    ⟨fun _ _ _ _ => rfl, fun _ _ _ _ _ _ => rfl, fun _ _ _ _ _ _ => rfl⟩
  have h := rejected_packages_harmless hgcm sampleReceiver [(forgedPkg, false), (samplePkg, true)]
    (by decide)
  exact h.1.trans (by decide)

end CamkesVm.Commsec
