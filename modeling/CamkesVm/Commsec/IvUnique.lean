import Mathlib.Data.List.Nodup
import CamkesVm.Commsec.Calls

/-!
# Initialisation vectors are never reused

Every encryption takes the vector of the current counter and advances the counter before it
knows whether the mode succeeds. The largest counter is never used: it ends the life of a
context, by rollover or by zeroing. The vectors of a run are therefore pairwise distinct, and
since salt and identity are part of a vector, contexts that differ in them share none. That these
are the vectors the mode is called with is checked against a mode that records its calls.
-/

namespace CamkesVm.Commsec

open CamkesVm.Machine

variable {gcm : Gcm}

/-- The packing of salt, station and counter loses nothing. -/
theorem ivBytes_injective {salt salt' station station' counter counter' : BitVec 32}
    (h : ivBytes salt station counter = ivBytes salt' station' counter') :
    salt = salt' ∧ station = station' ∧ counter = counter' := by
  obtain ⟨hfront, hcounter⟩ := List.append_inj h rfl
  obtain ⟨hsalt, hstation⟩ := List.append_inj hfront rfl
  exact ⟨wordBytes_injective hsalt, wordBytes_injective hstation, wordBytes_injective hcounter⟩

/-- The vectors that a run hands to the encryption, in order. -/
def handedIvs (ctx : CommsecCtx gcm) (calls : List CommsecCall) : List (List Byte) :=
  (outputs commsecStep ctx calls).filterMap CallResult.iv

/-- The vectors of a run are the one of its first call and those of the remaining run. -/
theorem handedIvs_cons (ctx : CommsecCtx gcm) (call : CommsecCall) (rest : List CommsecCall) :
    handedIvs ctx (call :: rest) =
      (commsecStep ctx call).1.iv.toList ++ handedIvs (commsecStep ctx call).2 rest := by
  simp only [handedIvs, outputs_cons, List.filterMap_cons]
  cases (commsecStep ctx call).1.iv <;> rfl

section Recording

/-- The mode with a record, in its context, of every vector that an encryption was called with. -/
def Gcm.recording (gcm : Gcm) : Gcm where
  Ctx := gcm.Ctx × List (List Byte)
  initAndKey rawKey ctx := (gcm.initAndKey rawKey ctx.1, ctx.2)
  zeroed := (gcm.zeroed, [])
  encryptMessage iv msg ctx :=
    let r := gcm.encryptMessage iv msg ctx.1
    { ret := r.ret, msg := r.msg, tag := r.tag, ctx := (r.ctx, ctx.2 ++ [iv]) }
  decryptMessage iv msg tag ctx :=
    let r := gcm.decryptMessage iv msg tag ctx.1
    { ret := r.ret, msg := r.msg, ctx := (r.ctx, ctx.2) }
  encrypt_msg_length iv msg ctx := gcm.encrypt_msg_length iv msg ctx.1
  encrypt_tag_length iv msg ctx := gcm.encrypt_tag_length iv msg ctx.1
  decrypt_msg_length iv msg tag ctx := gcm.decrypt_msg_length iv msg tag ctx.1

/-- The context without the records of its two directions. -/
def CommsecCtx.forget (ctx : CommsecCtx gcm.recording) : CommsecCtx gcm :=
  { ctx with encCtx := ctx.encCtx.1, decCtx := ctx.decCtx.1 }

variable (ctx : CommsecCtx gcm.recording)

/-- An encryption returns the same without the record, and records the vector it returns. -/
theorem securePkgEnc_recording (mem : ℕ → Byte) (msg msgLen ivStorage tag : ℕ) :
    let r := securePkgEnc ctx mem msg msgLen ivStorage tag
    securePkgEnc ctx.forget mem msg msgLen ivStorage tag = ⟨r.ret, r.ctx.forget, r.mem, r.iv⟩ ∧
      r.ctx.encCtx.2 = ctx.encCtx.2 ++ r.iv.toList := by
  dsimp only
  unfold securePkgEnc
  split
  · exact ⟨rfl, (List.append_nil _).symm⟩
  · rw [show ctx.forget.myCounter = ctx.myCounter from rfl]
    split
    · exact ⟨rfl, (List.append_nil _).symm⟩
    · exact ⟨rfl, rfl⟩

/-- A decryption returns the same without the record, and leaves the record of the encryptions. -/
theorem securePkgDec_recording (pkg : List Byte) :
    let r := securePkgDec ctx pkg
    securePkgDec ctx.forget pkg = ⟨r.ret, r.pkg, r.ctx.forget⟩ ∧ r.ctx.encCtx = ctx.encCtx := by
  dsimp only
  unfold securePkgDec
  split
  · exact ⟨rfl, rfl⟩
  · split
    · rw [show ctx.forget.mostRecentCounter = ctx.mostRecentCounter from rfl]
      dsimp only
      split
      · exact ⟨rfl, rfl⟩
      · rw [show (gcmDecrypt ctx.forget pkg).ret = (gcmDecrypt ctx pkg).ret from rfl]
        split <;> exact ⟨rfl, rfl⟩
    · exact ⟨rfl, rfl⟩

/-- A call answers the same without the record, and only an encryption or a zeroing changes the
record of the encryptions. -/
theorem commsecStep_recording (call : CommsecCall) :
    commsecStep ctx.forget call = ((commsecStep ctx call).1, (commsecStep ctx call).2.forget) ∧
      (call ≠ .zero →
        (commsecStep ctx call).2.encCtx.2 = ctx.encCtx.2 ++ (commsecStep ctx call).1.iv.toList) := by
  cases call with
  | enc mem msg msgLen ivStorage tag =>
    obtain ⟨hforget, hrecord⟩ := securePkgEnc_recording ctx mem msg msgLen ivStorage tag
    dsimp only [commsecStep]
    rw [hforget]
    exact ⟨rfl, fun _ => hrecord⟩
  | encInPlace mem msg msgStartIdx msgLen =>
    dsimp only [commsecStep]
    unfold securePkgEncInPlace
    split
    · exact ⟨rfl, fun _ => (List.append_nil _).symm⟩
    · obtain ⟨hforget, hrecord⟩ := securePkgEnc_recording ctx mem (msg + msgStartIdx) msgLen
        (msg + msgStartIdx - headerLen) (msg + msgStartIdx + msgLen)
      rw [hforget]
      exact ⟨rfl, fun _ => hrecord⟩
  | dec pkg =>
    obtain ⟨hforget, hrecord⟩ := securePkgDec_recording ctx pkg
    dsimp only [commsecStep]
    rw [hforget, hrecord]
    exact ⟨rfl, fun _ => (List.append_nil _).symm⟩
  | zero => exact ⟨rfl, fun hzero => absurd rfl hzero⟩

/-- The vectors of a run are those that the mode's encryption was called with, in order: a mode that
records its calls finds them in its context. Zeroing, which ends all encryption, clears the record. -/
theorem handedIvs_recorded (calls : List CommsecCall) (hzero : .zero ∉ calls) :
    (final commsecStep ctx calls).encCtx.2 = ctx.encCtx.2 ++ handedIvs ctx.forget calls := by
  induction calls generalizing ctx with
  | nil => exact (List.append_nil _).symm
  | cons call rest ih =>
    rw [List.mem_cons, not_or] at hzero
    obtain ⟨hforget, hrecord⟩ := commsecStep_recording ctx call
    rw [final_cons, ih _ hzero.2, hrecord (Ne.symm hzero.1), handedIvs_cons, hforget, List.append_assoc]

end Recording

/-- A counter below the largest one advances without wrapping. -/
theorem toNat_counter_add_one {counter : BitVec 32} (h : counter ≠ uint32Max) :
    (counter + 1).toNat = counter.toNat + 1 := by
  have hmax : counter.toNat ≠ uint32Max.toNat := fun heq => h (BitVec.eq_of_toNat_eq heq)
  have hlt := counter.isLt
  change counter.toNat ≠ 4294967295 at hmax
  rw [BitVec.toNat_add]
  change (counter.toNat + 1) % 2 ^ 32 = _
  omega

/-- A call never lowers the counter, and advances it by one when it encrypts. -/
theorem commsecStep_myCounter (ctx : CommsecCtx gcm) (call : CommsecCall) :
    ctx.myCounter.toNat ≤ (commsecStep ctx call).2.myCounter.toNat ∧
      ((commsecStep ctx call).1.iv.isSome →
        (commsecStep ctx call).2.myCounter.toNat = ctx.myCounter.toNat + 1) := by
  have heffect := commsecStep_effect ctx call
  generalize commsecStep ctx call = after at heffect
  cases heffect with
  | refuse | accept => exact ⟨Nat.le_refl _, by simp⟩
  | encrypt _ _ hmax =>
    dsimp only
    rw [toNat_counter_add_one hmax]
    exact ⟨Nat.le_succ _, fun _ => rfl⟩
  | zero => exact ⟨le_uint32Max ctx.myCounter, by simp⟩

/-- A context at the largest counter stays there and encrypts nothing. -/
theorem commsecStep_of_max {ctx : CommsecCtx gcm} (hmax : ctx.myCounter = uint32Max)
    (call : CommsecCall) :
    (commsecStep ctx call).1.iv = none ∧ (commsecStep ctx call).2.myCounter = uint32Max := by
  have heffect := commsecStep_effect ctx call
  generalize commsecStep ctx call = after at heffect
  cases heffect with
  | refuse | accept => exact ⟨rfl, hmax⟩
  | encrypt _ _ hbelow => exact absurd hmax hbelow
  | zero => exact ⟨rfl, rfl⟩

/-- From the largest counter on, no run encrypts. -/
theorem handedIvs_of_max (ctx : CommsecCtx gcm) (hmax : ctx.myCounter = uint32Max)
    (calls : List CommsecCall) : handedIvs ctx calls = [] := by
  induction calls generalizing ctx with
  | nil => rfl
  | cons call rest ih =>
    obtain ⟨hiv, hafter⟩ := commsecStep_of_max hmax call
    rw [handedIvs_cons, hiv, ih _ hafter]
    rfl

/-- Zeroing and a reported rollover leave the context at the largest counter. -/
theorem commsecStep_retired {ctx : CommsecCtx gcm} {call : CommsecCall}
    (h : call = .zero ∨ (commsecStep ctx call).1.ret = some .failCtrRollover) :
    (commsecStep ctx call).2.myCounter = uint32Max := by
  have heffect := commsecStep_effect ctx call
  generalize commsecStep ctx call = after at heffect h
  cases heffect with
  | refuse hzero hrollover =>
    obtain hcall | hret := h
    · exact absurd hcall hzero
    · exact hrollover (Option.some.inj hret)
  | encrypt hzero _ _ hrollover =>
    obtain hcall | hret := h
    · exact absurd hcall hzero
    · exact absurd (Option.some.inj hret) hrollover
  | accept => simp at h
  | zero => rfl

/-- A vector that is handed over is the one of the current salt, identity and counter. -/
theorem commsecStep_iv {ctx : CommsecCtx gcm} {call : CommsecCall} {iv : List Byte}
    (h : (commsecStep ctx call).1.iv = some iv) :
    iv = ivBytes ctx.encSalt ctx.myId ctx.myCounter := by
  have heffect := commsecStep_effect ctx call
  generalize commsecStep ctx call = after at heffect h
  cases heffect with
  | refuse | accept | zero => simp at h
  | encrypt => exact (Option.some.inj h).symm

/-- Only zeroing changes the salt and the identity of a context. -/
theorem commsecStep_sender (ctx : CommsecCtx gcm) (call : CommsecCall) :
    call = .zero ∨ ((commsecStep ctx call).2.encSalt = ctx.encSalt ∧
      (commsecStep ctx call).2.myId = ctx.myId) := by
  have heffect := commsecStep_effect ctx call
  generalize commsecStep ctx call = after at heffect
  cases heffect with
  | refuse | accept | encrypt => exact Or.inr ⟨rfl, rfl⟩
  | zero => exact Or.inl rfl

/-- The vectors of a run carry the context's salt and identity and counters not used before. -/
theorem mem_handedIvs (ctx : CommsecCtx gcm) (calls : List CommsecCall) :
    ∀ iv ∈ handedIvs ctx calls, ∃ counter : BitVec 32, ctx.myCounter.toNat ≤ counter.toNat ∧
      iv = ivBytes ctx.encSalt ctx.myId counter := by
  induction calls generalizing ctx with
  | nil => simp [handedIvs]
  | cons call rest ih =>
    intro iv hiv
    rw [handedIvs_cons, List.mem_append] at hiv
    obtain hfirst | hlater := hiv
    · exact ⟨ctx.myCounter, Nat.le_refl _, commsecStep_iv (Option.mem_toList.mp hfirst)⟩
    · obtain hzero | ⟨hsalt, hid⟩ := commsecStep_sender ctx call
      · rw [handedIvs_of_max _ (commsecStep_retired (Or.inl hzero))] at hlater
        simp at hlater
      · obtain ⟨counter, hle, hiv⟩ := ih _ iv hlater
        rw [hsalt, hid] at hiv
        exact ⟨counter, (commsecStep_myCounter ctx call).1.trans hle, hiv⟩

/-- The vectors of a run are pairwise distinct. -/
theorem handedIvs_nodup (ctx : CommsecCtx gcm) (calls : List CommsecCall) :
    (handedIvs ctx calls).Nodup := by
  induction calls generalizing ctx with
  | nil => exact List.nodup_nil
  | cons call rest ih =>
    rw [handedIvs_cons]
    refine List.Nodup.append ?_ (ih _) ?_
    · cases (commsecStep ctx call).1.iv with
      | none => exact List.nodup_nil
      | some iv => exact List.nodup_singleton iv
    · intro iv hfirst hlater
      have hhanded := Option.mem_toList.mp hfirst
      obtain ⟨counter, hle, hiv⟩ := mem_handedIvs _ rest iv hlater
      have hsame := ivBytes_injective ((commsecStep_iv hhanded).symm.trans hiv)
      have hadvance := (commsecStep_myCounter ctx call).2 (by rw [hhanded]; rfl)
      rw [hadvance, ← hsame.2.2] at hle
      exact Nat.not_succ_le_self _ hle

/-- In every run from an initialised context the vectors are pairwise distinct, no call wraps the
counter, and a rollover or a zeroing ends all encryption. Contexts initialised with different
salts or identities never share a vector. -/
theorem ivs_never_reused (ctx : CommsecCtx gcm) (myID decSalt : BitVec 32)
    (rawDecKey : List Byte) (encSalt : BitVec 32) (rawEncKey : List Byte)
    (calls : List CommsecCall) :
    let start := securePkgInit ctx myID decSalt rawDecKey encSalt rawEncKey
    (handedIvs start calls).Nodup ∧
      (∀ earlier call later, calls = earlier ++ call :: later →
        let before := final commsecStep start earlier
        let result := (commsecStep before call).1
        let after := (commsecStep before call).2
        before.myCounter.toNat ≤ after.myCounter.toNat ∧
          (result.iv.isSome → after.myCounter.toNat = before.myCounter.toNat + 1) ∧
          (call = .zero ∨ result.ret = some .failCtrRollover → handedIvs after later = [])) ∧
      ∀ (ctx' : CommsecCtx gcm) (myID' decSalt' : BitVec 32) (rawDecKey' : List Byte)
        (encSalt' : BitVec 32) (rawEncKey' : List Byte) (calls' : List CommsecCall),
        (encSalt, myID) ≠ (encSalt', myID') → (handedIvs start calls).Disjoint
          (handedIvs (securePkgInit ctx' myID' decSalt' rawDecKey' encSalt' rawEncKey') calls') := by
  intro start
  refine ⟨handedIvs_nodup start calls, ?_, ?_⟩
  · intro earlier call later _ before result after
    obtain ⟨hle, hadvance⟩ := commsecStep_myCounter before call
    refine ⟨hle, hadvance, fun hretired => ?_⟩
    exact handedIvs_of_max after (commsecStep_retired hretired) later
  · intro ctx' myID' decSalt' rawDecKey' encSalt' rawEncKey' calls' hdiffer iv hiv hiv'
    obtain ⟨counter, _, heq⟩ := mem_handedIvs _ calls iv hiv
    obtain ⟨counter', _, heq'⟩ := mem_handedIvs _ calls' iv hiv'
    obtain ⟨hsalt, hid, _⟩ := ivBytes_injective (heq.symm.trans heq')
    exact hdiffer (Prod.ext hsalt hid)

end CamkesVm.Commsec
