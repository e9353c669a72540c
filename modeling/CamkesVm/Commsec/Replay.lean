import CamkesVm.Commsec.Calls

/-!
# Replayed packages are rejected

The recorded counter of every station only grows along a run, a package is accepted only above
the recorded counter of its station, and its counter is recorded then. The counters accepted for
one station are therefore strictly increasing along any run, for any decryption function.
-/

namespace CamkesVm.Commsec

open CamkesVm.Machine

variable {gcm : Gcm}

/-- The header of the package that a call accepts, if it accepts one. -/
def acceptedHeader : CommsecCall × CallResult → Option (BitVec 32 × BitVec 32)
  | (.dec pkg, result) =>
    if result.ret = some .succeed then some (theirID pkg, theirCounter pkg) else none
  | _ => none

/-- The headers that a run accepts, in order. -/
def acceptedHeaders (ctx : CommsecCtx gcm) (calls : List CommsecCall) : List (BitVec 32 × BitVec 32) :=
  (calls.zip (outputs commsecStep ctx calls)).filterMap acceptedHeader

/-- No call lowers the recorded counter of a station. -/
theorem commsecStep_mostRecentCounter_le (ctx : CommsecCtx gcm) (call : CommsecCall)
    (station : Fin maxBaseStations) :
    ctx.mostRecentCounter station ≤ (commsecStep ctx call).2.mostRecentCounter station := by
  have heffect := commsecStep_effect ctx call
  generalize commsecStep ctx call = after at heffect
  cases heffect with
  | refuse | encrypt => exact BitVec.le_refl _
  | accept sender _ hnew =>
    dsimp only
    by_cases hsame : station = sender
    · subst hsame
      rw [Function.update_self]
      exact BitVec.le_of_lt hnew
    · rw [Function.update_of_ne hsame]
      exact BitVec.le_refl _
  | zero => exact le_uint32Max _

/-- A call that accepts a header found the recorded counter of its station below, and records it. -/
theorem acceptedHeader_commsecStep {ctx : CommsecCtx gcm} {call : CommsecCall}
    {header : BitVec 32 × BitVec 32}
    (h : acceptedHeader (call, (commsecStep ctx call).1) = some header) :
    ∃ station : Fin maxBaseStations, header.1.toNat = station ∧
      ctx.mostRecentCounter station < header.2 ∧
      (commsecStep ctx call).2.mostRecentCounter station = header.2 := by
  have heffect := commsecStep_effect ctx call
  generalize commsecStep ctx call = after at heffect h
  cases heffect with
  | refuse _ _ hdec =>
    cases call with
    | dec pkg => simp [acceptedHeader, hdec pkg rfl] at h
    | enc | encInPlace | zero => simp [acceptedHeader] at h
  | encrypt _ hdec =>
    cases call with
    | dec pkg => exact absurd rfl (hdec pkg)
    | enc | encInPlace | zero => simp [acceptedHeader] at h
  | accept station hstation hnew =>
    simp only [acceptedHeader, if_true, Option.some.injEq] at h
    subst h
    exact ⟨station, hstation, hnew, Function.update_self ..⟩
  | zero => simp [acceptedHeader] at h

/-- The accepted headers of a run are those of its first call and of the remaining run. -/
theorem acceptedHeaders_cons (ctx : CommsecCtx gcm) (call : CommsecCall) (rest : List CommsecCall) :
    acceptedHeaders ctx (call :: rest) =
      (acceptedHeader (call, (commsecStep ctx call).1)).toList ++
        acceptedHeaders (commsecStep ctx call).2 rest := by
  simp only [acceptedHeaders, outputs_cons, List.zip_cons_cons, List.filterMap_cons]
  cases acceptedHeader (call, (commsecStep ctx call).1) <;> rfl

/-- Every header accepted from a context on is above the counter recorded in it. -/
theorem acceptedHeaders_above (ctx : CommsecCtx gcm) (calls : List CommsecCall) :
    ∀ header ∈ acceptedHeaders ctx calls, ∃ station : Fin maxBaseStations,
      header.1.toNat = station ∧ ctx.mostRecentCounter station < header.2 := by
  induction calls generalizing ctx with
  | nil => simp [acceptedHeaders]
  | cons call rest ih =>
    intro header hheader
    rw [acceptedHeaders_cons, List.mem_append, Option.mem_toList] at hheader
    rcases hheader with hfirst | hlater
    · obtain ⟨station, hstation, hnew, _⟩ := acceptedHeader_commsecStep hfirst
      exact ⟨station, hstation, hnew⟩
    · obtain ⟨station, hstation, hnew⟩ := ih _ header hlater
      have hle := commsecStep_mostRecentCounter_le ctx call station
      exact ⟨station, hstation, by bv_omega⟩

/-- Of two headers accepted for one station, the later one has the larger counter. -/
theorem acceptedHeaders_pairwise (ctx : CommsecCtx gcm) (calls : List CommsecCall) :
    (acceptedHeaders ctx calls).Pairwise fun earlier later =>
      earlier.1 = later.1 → earlier.2 < later.2 := by
  induction calls generalizing ctx with
  | nil => exact List.Pairwise.nil
  | cons call rest ih =>
    rw [acceptedHeaders_cons, List.pairwise_append]
    refine ⟨?_, ih _, ?_⟩
    · cases acceptedHeader (call, (commsecStep ctx call).1) with
      | none => exact List.Pairwise.nil
      | some header => exact List.pairwise_singleton _ _
    · intro earlier hearlier later hlater hsame
      obtain ⟨station, hstation, _, hrecorded⟩ :=
        acceptedHeader_commsecStep (Option.mem_toList.mp hearlier)
      obtain ⟨station', hstation', hnew⟩ := acceptedHeaders_above _ rest later hlater
      have hstations : station = station' := by
        apply Fin.ext
        rw [← hstation, ← hstation', hsame]
      subst hstations
      rwa [hrecorded] at hnew

/-- After a zeroing no package is accepted. -/
theorem acceptedHeaders_securePkgZero (ctx : CommsecCtx gcm) (calls : List CommsecCall) :
    acceptedHeaders (securePkgZero ctx) calls = [] := by
  rw [List.eq_nil_iff_forall_not_mem]
  intro header hheader
  obtain ⟨station, _, hnew⟩ := acceptedHeaders_above _ calls header hheader
  have hle := le_uint32Max header.2
  change uint32Max < header.2 at hnew
  bv_omega

/-- The accepted headers of a run that continues another are the ones of both parts. -/
theorem acceptedHeaders_append (ctx : CommsecCtx gcm) (earlier later : List CommsecCall) :
    acceptedHeaders ctx (earlier ++ later) =
      acceptedHeaders ctx earlier ++ acceptedHeaders (final commsecStep ctx earlier) later := by
  induction earlier generalizing ctx with
  | nil => rfl
  | cons call rest ih =>
    rw [List.cons_append, acceptedHeaders_cons, acceptedHeaders_cons, ih, List.append_assoc]
    rfl

/-- Along every run from an initialised context, the counters accepted for each station are
strictly increasing, no header is accepted twice, and nothing is accepted after a zeroing. -/
theorem accepted_counters_increase (ctx : CommsecCtx gcm) (myID decSalt : BitVec 32)
    (rawDecKey : List Byte) (encSalt : BitVec 32) (rawEncKey : List Byte)
    (calls : List CommsecCall) :
    let start := securePkgInit ctx myID decSalt rawDecKey encSalt rawEncKey
    (∀ station : BitVec 32, (((acceptedHeaders start calls).filter fun header =>
        header.1 = station).map Prod.snd).Pairwise (· < ·)) ∧
      (acceptedHeaders start calls).Nodup ∧
      ∀ earlier later, calls = earlier ++ .zero :: later →
        acceptedHeaders start calls = acceptedHeaders start earlier := by
  intro start
  have hpairwise := acceptedHeaders_pairwise start calls
  refine ⟨?_, ?_, ?_⟩
  · intro station
    rw [List.pairwise_map]
    apply (hpairwise.filter _).imp_of_mem
    intro a b ha hb hlt
    have ha' := of_decide_eq_true (List.mem_filter.mp ha).2
    have hb' := of_decide_eq_true (List.mem_filter.mp hb).2
    exact hlt (ha'.trans hb'.symm)
  · apply hpairwise.imp
    intro a b hlt heq
    subst heq
    exact BitVec.lt_irrefl _ (hlt rfl)
  · rintro earlier later rfl
    rw [acceptedHeaders_append, acceptedHeaders_cons]
    change _ ++ ([] ++ acceptedHeaders (securePkgZero (final commsecStep start earlier)) later) = _
    rw [acceptedHeaders_securePkgZero, List.append_nil, List.append_nil]

end CamkesVm.Commsec
