import CamkesVm.Machine.Guarded
import CamkesVm.Machine.Run
import CamkesVm.Pwm.Component

/-!
# One transfer at a time

The two callbacks and `pwm_vmsig` hold the mutex `sig` around their transfers. The control thread in
`run` and the RPC function `pwm_set_led` do not take it, so their transfers overlap with any others. When
such code runs alone, the bus carries one transfer at a time.
-/

namespace CamkesVm.Pwm

open CamkesVm.Machine

/-- The mutex `sig` is for the bus: a transfer uses the bus from its start to the end of the wait. -/
def lockUse : PwmAction → LockUse
  | .i2cSlaveWrite _ _ => .resource
  | .i2cSlaveRead _ _ => .resource
  | .busSemWait => .resource
  | .sigLock => .take
  | .sigUnlock => .release
  | _ => .neutral

/-- Code without the mutex runs alone: `pwm_set_led` is called while no thread has a transfer left, and
code under the mutex is called while no thread has transfers left outside of it. -/
def UnguardedAlone (s : PwmState) : PwmLabel → Prop
  | .setLed _ _ => ∀ thread, Spares lockUse (s.todo thread)
  | .vmsig val => val = 0 ∨ ∀ thread, ¬ Unguarded lockUse (s.todo thread)
  | .signal => ∀ thread, ¬ Unguarded lockUse (s.todo thread)
  | .timer => ∀ thread, ¬ Unguarded lockUse (s.todo thread)
  | .step _ => True
  | .complete => True

/-- Every action of `pwm_set_led` uses the bus. -/
theorem lockUse_pwmSetLed (led level : BitVec 32) :
    ∀ a ∈ pwmSetLed led level, lockUse a = .resource := by
  intro a ha
  simp only [pwmSetLed, List.mem_cons, List.not_mem_nil, or_false] at ha
  obtain rfl | rfl := ha <;> rfl

/-- `pwm_set_led` uses the bus without taking the mutex. -/
theorem pwmSetLed_unguarded (led level : BitVec 32) : Unguarded lockUse (pwmSetLed led level) := by
  refine ⟨fun a ha => ?_, fun hspares => hspares _ List.mem_cons_self rfl⟩
  rw [lockUse_pwmSetLed led level a ha]
  decide

/-- The function `run` uses the bus without taking the mutex. -/
theorem runControl_unguarded : Unguarded lockUse runControl := by
  refine ⟨?_, fun hspares => hspares _ List.mem_cons_self rfl⟩
  unfold LockFree
  decide

/-- Setting LEDs under the mutex in front of disciplined code is disciplined. -/
theorem setLedsLocked_disciplined (first : ℕ) (level : BitVec 32) {after : List PwmAction}
    (hafter : Disciplined lockUse false after) :
    Disciplined lockUse false (setLedsLocked first level after) := by
  refine disciplined_section rfl (fun a ha => ?_) rfl hafter
  obtain ⟨led, _, ha⟩ := List.mem_flatMap.mp ha
  exact lockUse_pwmSetLed led level a ha

section Steps

variable {s t : PwmState}

/-- An action leaves the code of the threads and moves the mutex as its use says. -/
theorem perform_effect {action : PwmAction} (hperform : s.perform action = some t) :
    t.todo = s.todo ∧ (lockUse action).Moves s.sig t.sig := by
  cases action with
  | busSemWait =>
    simp only [PwmState.perform, Option.ite_none_left_eq_some, Option.some.injEq] at hperform
    obtain ⟨_, rfl⟩ := hperform
    exact ⟨rfl, rfl⟩
  | sigLock =>
    simp only [PwmState.perform, Option.ite_none_left_eq_some, Option.some.injEq] at hperform
    obtain ⟨hfree, rfl⟩ := hperform
    exact ⟨rfl, Bool.eq_false_iff.mpr hfree, rfl⟩
  | _ =>
    obtain rfl := Option.some.inj hperform
    exact ⟨rfl, rfl⟩

/-- A call sets the code of its thread and leaves the mutex. -/
theorem call_effect {thread : PwmThread} {code : List PwmAction} (hcall : s.call thread code = some t) :
    t.todo = Function.update s.todo thread code ∧ t.sig = s.sig := by
  simp only [PwmState.call, Option.ite_none_right_eq_some, Option.some.injEq] at hcall
  obtain ⟨_, rfl⟩ := hcall
  exact ⟨rfl, rfl⟩

/-- A call of code under the mutex, or of code without transfers. -/
theorem call_guarded {thread : PwmThread} {code : List PwmAction}
    (hs : Guarded lockUse s.todo s.sig) (hcall : s.call thread code = some t)
    (hcode : Disciplined lockUse false code)
    (hothers : Spares lockUse code ∨ ∀ other, ¬ Unguarded lockUse (s.todo other)) :
    Guarded lockUse t.todo t.sig := by
  obtain ⟨htodo, hsig⟩ := call_effect hcall
  rw [htodo, hsig]
  exact hs.enter_disciplined hcode hothers

/-- Every step keeps the threads in order. -/
theorem pwmStep_guarded {label : PwmLabel} {event : Option (PwmThread × PwmAction)}
    (hs : Guarded lockUse s.todo s.sig) (halone : UnguardedAlone s label)
    (hstep : pwmStep s label = some (event, t)) : Guarded lockUse t.todo t.sig := by
  cases label with
  | setLed led level =>
    obtain ⟨t', hcall, hstep⟩ := Option.bind_eq_some_iff.mp hstep
    obtain ⟨-, rfl⟩ := Prod.mk.inj (Option.some.inj hstep)
    obtain ⟨htodo, hsig⟩ := call_effect hcall
    rw [htodo, hsig]
    exact hs.enter_unguarded (pwmSetLed_unguarded led level) halone
  | vmsig val =>
    obtain ⟨t', hcall, hstep⟩ := Option.bind_eq_some_iff.mp hstep
    obtain ⟨-, rfl⟩ := Prod.mk.inj (Option.some.inj hstep)
    unfold pwmVmsig at hcall
    split at hcall
    next hzero =>
      refine call_guarded hs hcall rfl (.inl fun a ha => ?_)
      rw [List.mem_singleton.mp ha]
      exact LockUse.noConfusion
    next hval =>
      exact call_guarded hs hcall (setLedsLocked_disciplined _ _ rfl) (.inr (halone.resolve_left hval))
  | signal =>
    obtain ⟨_, _, hstep⟩ := Option.bind_eq_some_iff.mp hstep
    obtain ⟨t', hcall, hstep⟩ := Option.bind_eq_some_iff.mp hstep
    obtain ⟨-, rfl⟩ := Prod.mk.inj (Option.some.inj hstep)
    exact call_guarded (s := { s with signalReg := false }) hs hcall
      (setLedsLocked_disciplined _ _ rfl) (.inr halone)
  | timer =>
    obtain ⟨_, _, hstep⟩ := Option.bind_eq_some_iff.mp hstep
    obtain ⟨t', hcall, hstep⟩ := Option.bind_eq_some_iff.mp hstep
    obtain ⟨-, rfl⟩ := Prod.mk.inj (Option.some.inj hstep)
    exact call_guarded (s := { s with timerReg := false }) hs hcall
      (setLedsLocked_disciplined _ _ rfl) (.inr halone)
  | step thread =>
    unfold pwmStep at hstep
    dsimp only at hstep
    split at hstep
    · cases hstep
    next action rest htodo =>
      obtain ⟨t', hperform, hstep⟩ := Option.bind_eq_some_iff.mp hstep
      obtain ⟨-, rfl⟩ := Prod.mk.inj (Option.some.inj hstep)
      obtain ⟨hsame, hmoves⟩ := perform_effect hperform
      change Guarded lockUse (Function.update t'.todo thread rest) t'.sig
      rw [hsame]
      exact hs.next htodo hmoves
  | complete =>
    simp only [pwmStep, Option.ite_none_left_eq_some, Option.some.injEq, Prod.mk.injEq] at hstep
    obtain ⟨_, -, rfl⟩ := hstep
    exact hs

end Steps

/-- At the start only the control thread has transfers left, outside the mutex. -/
theorem guarded_start : Guarded lockUse PwmState.start.todo PwmState.start.sig := by
  have hspares : Spares lockUse [] := fun _ h => absurd h List.not_mem_nil
  have hidle : Guarded lockUse (fun _ : PwmThread => []) false :=
    ⟨⟨fun _ hin => absurd hin Bool.noConfusion, fun _ _ hin => absurd hin Bool.noConfusion⟩,
      fun _ => .inl rfl, fun _ _ _ _ => hspares⟩
  have htodo : PwmState.start.todo = Function.update (fun _ => []) .control runControl := by
    funext thread
    cases thread <;> rfl
  rw [htodo]
  exact hidle.enter_unguarded runControl_unguarded fun _ => hspares

/-- In every run in which the code without the mutex runs alone, two transfers are never in flight at
once: no thread starts one before the transfer of another thread has ended. -/
theorem one_transfer_in_flight {labels : List PwmLabel}
    {events : List (Option (PwmThread × PwmAction))} {reached : PwmState}
    (halone : StepsMeet pwmStep UnguardedAlone .start labels)
    (hrun : run pwmStep .start labels = some (events, reached)) {thread other : PwmThread}
    (hthread : reached.InFlight thread) (hother : reached.InFlight other) : thread = other := by
  have hreached := run_state_invariant (fun s => Guarded lockUse s.todo s.sig)
    (fun _ _ _ _ => pwmStep_guarded) guarded_start halone hrun
  obtain ⟨rest, hrest⟩ := List.head?_eq_some_iff.mp hthread
  obtain ⟨later, hlater⟩ := List.head?_eq_some_iff.mp hother
  exact hreached.eq_of_resource hrest rfl hlater rfl

/-- While the control thread's first transfer is in flight, the timer callback is registered by
`pwm_vmsig`. -/
theorem registration_one_in_flight :
    ∃ events reached,
      run pwmStep .start [.step .control, .vmsig 0, .step .rpc] = some (events, reached) ∧
      reached.InFlight .control ∧ ∀ thread, reached.InFlight thread → thread = .control := by
  have hrun : run pwmStep .start [.step .control, .vmsig 0, .step .rpc] = some (_, _) := rfl
  have halone : StepsMeet pwmStep UnguardedAlone .start [.step .control, .vmsig 0, .step .rpc] :=
    ⟨trivial, fun _ _ _ => ⟨.inl rfl, fun _ _ _ => ⟨trivial, fun _ _ _ => trivial⟩⟩⟩
  exact ⟨_, _, hrun, rfl, fun thread hthread => one_transfer_in_flight halone hrun hthread rfl⟩

/-- The control thread is in its first transfer when `pwm_set_led` is called, which starts another. -/
theorem setLed_during_run_in_flight :
    ∃ events reached, run pwmStep .start [.step .control, .setLed 0 4095, .step .rpc] =
        some (events, reached) ∧
      reached.InFlight .control ∧ reached.InFlight .rpc :=
  ⟨_, _, rfl, rfl, rfl⟩

end CamkesVm.Pwm
