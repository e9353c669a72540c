import CamkesVm.Machine.Run
import CamkesVm.Commsec.Context

/-!
# Runs of commsec calls

A run is one initialised context and any sequence of calls on it, with arbitrary arguments. The
lemmas of this file say once what each call can do to the context; the results about whole runs
are derived from them.
-/

namespace CamkesVm.Commsec

open CamkesVm.Machine

variable {gcm : Gcm}

/-- A call on a context, with its arguments. -/
inductive CommsecCall
  | enc (mem : ℕ → Byte) (msg msgLen ivStorage tag : ℕ)
  | encInPlace (mem : ℕ → Byte) (msg msgStartIdx msgLen : ℕ)
  | dec (pkg : List Byte)
  | zero

/-- What a caller and the mode of operation see of a call: the return code and the
initialisation vector handed to an encryption. -/
structure CallResult where
  ret : Option CommsecRet
  iv : Option (List Byte)
  deriving DecidableEq

/-- One call on a context. -/
def commsecStep (ctx : CommsecCtx gcm) : CommsecCall → CallResult × CommsecCtx gcm
  | .enc mem msg msgLen ivStorage tag =>
    let r := securePkgEnc ctx mem msg msgLen ivStorage tag
    (⟨some r.ret, r.iv⟩, r.ctx)
  | .encInPlace mem msg msgStartIdx msgLen =>
    let r := securePkgEncInPlace ctx mem msg msgStartIdx msgLen
    (⟨some r.ret, r.iv⟩, r.ctx)
  | .dec pkg =>
    let r := securePkgDec ctx pkg
    (⟨some r.ret, none⟩, r.ctx)
  | .zero => (⟨none, none⟩, securePkgZero ctx)

/-- Decryption either rejects the package, changing at most the scratch state of the mode, or
accepts a new counter of a known station and records it. -/
theorem securePkgDec_cases (ctx : CommsecCtx gcm) (pkg : List Byte) :
    let r := securePkgDec ctx pkg
    (r.ret ≠ .succeed ∧ r.ret ≠ .failCtrRollover ∧
      (r.ctx = ctx ∨ r.ctx = { ctx with decCtx := (gcmDecrypt ctx pkg).ctx })) ∨
    (r.ret = .succeed ∧ ∃ station : Fin maxBaseStations, (theirID pkg).toNat = station ∧
      ctx.mostRecentCounter station < theirCounter pkg ∧
      r.ctx = { ctx with
        decCtx := (gcmDecrypt ctx pkg).ctx
        mostRecentCounter := Function.update ctx.mostRecentCounter station (theirCounter pkg) }) := by
  dsimp only
  unfold securePkgDec
  split
  · exact Or.inl ⟨by simp, by simp, Or.inl rfl⟩
  · split
    next hstation =>
      dsimp only
      split
      · exact Or.inl ⟨by simp, by simp, Or.inl rfl⟩
      next hnew =>
        split
        · exact Or.inr ⟨rfl, ⟨_, hstation⟩, rfl, BitVec.not_le.mp hnew, rfl⟩
        · exact Or.inl ⟨by simp, by simp, Or.inr rfl⟩
    · exact Or.inl ⟨by simp, by simp, Or.inl rfl⟩

/-- Encryption either refuses without touching the context, or hands over the vector of the
current counter and advances it, whatever the mode returns. A refusal for rollover has found
the largest counter. -/
theorem securePkgEnc_cases (ctx : CommsecCtx gcm) (mem : ℕ → Byte)
    (msg msgLen ivStorage tag : ℕ) :
    let r := securePkgEnc ctx mem msg msgLen ivStorage tag
    (r.iv = none ∧ r.ctx = ctx ∧ (r.ret = .failCtrRollover → ctx.myCounter = uint32Max)) ∨
    (r.iv = some (ivBytes ctx.encSalt ctx.myId ctx.myCounter) ∧ ctx.myCounter ≠ uint32Max ∧
      r.ret ≠ .failCtrRollover ∧
      ∃ scratch, r.ctx = { ctx with myCounter := ctx.myCounter + 1, encCtx := scratch }) := by
  dsimp only
  unfold securePkgEnc
  split
  · exact Or.inl ⟨rfl, rfl, by simp⟩
  · split
    next hmax => exact Or.inl ⟨rfl, rfl, fun _ => hmax⟩
    next hmax =>
      refine Or.inr ⟨rfl, hmax, ?_, _, rfl⟩
      dsimp only
      split <;> simp

/-- What one call can do: refuse, hand a vector to an encryption, accept a package, or zero the
context. The scratch states of the mode are arbitrary. -/
inductive CallEffect (ctx : CommsecCtx gcm) : CommsecCall → CallResult × CommsecCtx gcm → Prop
  | refuse {call : CommsecCall} {ret : CommsecRet} {scratch : gcm.Ctx}
      (hzero : call ≠ .zero)
      (hrollover : ret = .failCtrRollover → ctx.myCounter = uint32Max)
      (hdec : ∀ pkg, call = .dec pkg → ret ≠ .succeed) :
      CallEffect ctx call (⟨some ret, none⟩, { ctx with decCtx := scratch })
  | encrypt {call : CommsecCall} {ret : CommsecRet} {scratch : gcm.Ctx}
      (hzero : call ≠ .zero)
      (hdec : ∀ pkg, call ≠ .dec pkg)
      (hmax : ctx.myCounter ≠ uint32Max)
      (hrollover : ret ≠ .failCtrRollover) :
      CallEffect ctx call (⟨some ret, some (ivBytes ctx.encSalt ctx.myId ctx.myCounter)⟩,
        { ctx with myCounter := ctx.myCounter + 1, encCtx := scratch })
  | accept {pkg : List Byte} {scratch : gcm.Ctx} (station : Fin maxBaseStations)
      (hstation : (theirID pkg).toNat = station)
      (hnew : ctx.mostRecentCounter station < theirCounter pkg) :
      CallEffect ctx (.dec pkg) (⟨some .succeed, none⟩, { ctx with
        decCtx := scratch
        mostRecentCounter := Function.update ctx.mostRecentCounter station (theirCounter pkg) })
  | zero : CallEffect ctx .zero (⟨none, none⟩, securePkgZero ctx)

/-- The effect of an encryption as a call that is neither a decryption nor a zeroing. -/
private theorem CallEffect.of_enc {ctx : CommsecCtx gcm} {call : CommsecCall} (r : EncResult gcm)
    (hzero : call ≠ .zero) (hdec : ∀ pkg, call ≠ .dec pkg)
    (hr : (r.iv = none ∧ r.ctx = ctx ∧ (r.ret = .failCtrRollover → ctx.myCounter = uint32Max)) ∨
      (r.iv = some (ivBytes ctx.encSalt ctx.myId ctx.myCounter) ∧ ctx.myCounter ≠ uint32Max ∧
        r.ret ≠ .failCtrRollover ∧
        ∃ scratch, r.ctx = { ctx with myCounter := ctx.myCounter + 1, encCtx := scratch })) :
    CallEffect ctx call (⟨some r.ret, r.iv⟩, r.ctx) := by
  obtain ⟨hiv, hctx, hrollover⟩ | ⟨hiv, hmax, hrollover, scratch, hctx⟩ := hr
  · rw [hiv, hctx]
    exact @CallEffect.refuse _ ctx _ _ ctx.decCtx hzero hrollover fun pkg h => absurd h (hdec pkg)
  · rw [hiv, hctx]
    exact .encrypt hzero hdec hmax hrollover

/-- Every call has one of the four effects. -/
theorem commsecStep_effect (ctx : CommsecCtx gcm) (call : CommsecCall) :
    CallEffect ctx call (commsecStep ctx call) := by
  cases call with
  | enc mem msg msgLen ivStorage tag =>
    exact .of_enc _ (by simp) (by simp) (securePkgEnc_cases ctx mem msg msgLen ivStorage tag)
  | encInPlace mem msg msgStartIdx msgLen =>
    apply CallEffect.of_enc _ (by simp) (by simp)
    unfold securePkgEncInPlace
    split
    · exact Or.inl ⟨rfl, rfl, by simp⟩
    · exact securePkgEnc_cases ctx mem _ _ _ _
  | dec pkg =>
    dsimp only [commsecStep]
    obtain ⟨hret, hrollover, hctx⟩ | ⟨hret, station, hstation, hnew, hctx⟩ :=
      securePkgDec_cases ctx pkg
    · obtain hctx | hctx := hctx
      · rw [hctx]
        exact @CallEffect.refuse _ ctx _ _ ctx.decCtx (by simp) (absurd · hrollover) fun _ _ => hret
      · rw [hctx]
        exact .refuse (by simp) (absurd · hrollover) fun _ _ => hret
    · rw [hret, hctx]
      exact .accept station hstation hnew
  | zero => exact .zero

end CamkesVm.Commsec
