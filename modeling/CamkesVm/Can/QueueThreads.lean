import CamkesVm.Can.QueueFifo

/-!
# Queue operations of several threads

Any number of threads call the queue operations, each in two atomic steps: the test of the ring,
made without the lock, and the locked change of it. Between the two other threads may run.

As long as every locked change still finds what its test found, the pushed frames of a queue are
its popped frames followed by its contents. The code does not see to that: two threads that both
find one frame in a queue both remove one, and two that both find one free slot both append.
-/

namespace CamkesVm.Can

open CamkesVm.Machine

/-- Where a thread is in a queue operation. -/
inductive QueuePc
  | idle
  | appending (queue : QueueId) (frame : CanFrame)
  | removing (queue : QueueId)
  deriving DecidableEq

/-- The queues and the threads that use them. -/
structure QueueThreads where
  queues : MessageQueues
  threads : ℕ → QueuePc

/-- A step of a thread: the test that starts a push or a pop, or the locked part. -/
inductive QueueLabel
  | push (thread : ℕ) (queue : QueueId) (frame : CanFrame)
  | pop (thread : ℕ) (queue : QueueId)
  | locked (thread : ℕ)

/-- What a step shows: a test that passed, or what the operation returned. -/
inductive QueueEvent
  | tested
  | pushFailed (queue : QueueId)
  | popFailed (queue : QueueId)
  | pushed (queue : QueueId) (frame : CanFrame)
  | popped (queue : QueueId) (frame : CanFrame)
  deriving DecidableEq

/-- One step of one thread. A busy thread starts no operation, and an idle one has no locked part. -/
def threadStep (s : QueueThreads) : QueueLabel → Option (QueueEvent × QueueThreads)
  | .push thread queue frame =>
    if s.threads thread = .idle then
      if mqIsFull (s.queues.cbs queue) then some (.pushFailed queue, s)
      else some (.tested,
        { s with threads := Function.update s.threads thread (.appending queue frame) })
    else none
  | .pop thread queue =>
    if s.threads thread = .idle then
      if mqIsEmpty (s.queues.cbs queue) then some (.popFailed queue, s)
      else some (.tested, { s with threads := Function.update s.threads thread (.removing queue) })
    else none
  | .locked thread =>
    match s.threads thread with
    | .idle => none
    | .appending queue frame =>
      some (.pushed queue frame,
        ⟨s.queues.append queue frame, Function.update s.threads thread .idle⟩)
    | .removing queue =>
      some (.popped queue (s.queues.remove queue).1,
        ⟨(s.queues.remove queue).2, Function.update s.threads thread .idle⟩)

/-- The frames whose push into the queue succeeded, in order. -/
def pushedFrames (queue : QueueId) (events : List QueueEvent) : List CanFrame :=
  events.filterMap fun
    | .pushed q frame => if q = queue then some frame else none
    | _ => none

/-- The frames that pops of the queue returned, in order. -/
def poppedFrames (queue : QueueId) (events : List QueueEvent) : List CanFrame :=
  events.filterMap fun
    | .popped q frame => if q = queue then some frame else none
    | _ => none

/-- The pushes of two stretches, one after the other. -/
@[simp] theorem pushedFrames_append (queue : QueueId) (before after : List QueueEvent) :
    pushedFrames queue (before ++ after) = pushedFrames queue before ++ pushedFrames queue after :=
  List.filterMap_append

/-- The pops of two stretches, one after the other. -/
@[simp] theorem poppedFrames_append (queue : QueueId) (before after : List QueueEvent) :
    poppedFrames queue (before ++ after) = poppedFrames queue before ++ poppedFrames queue after :=
  List.filterMap_append

/-- No frame is lost, duplicated or made up: what was pushed into a queue was popped from it or
is still there. -/
def FramesConserved (events : List QueueEvent) (queues : MessageQueues) : Prop :=
  ∀ queue, (pushedFrames queue events).Perm (poppedFrames queue events ++ queues.contents queue)

/-- What the unlocked test found still holds when the locked part runs. -/
def testStillHolds (s : QueueThreads) : QueueLabel → Bool
  | .locked thread =>
    match s.threads thread with
    | .idle => true
    | .appending queue _ => !mqIsFull (s.queues.cbs queue)
    | .removing queue => !mqIsEmpty (s.queues.cbs queue)
  | _ => true

/-- The pushed frames of each queue are its popped frames followed by its contents. -/
def InOrder (events : List QueueEvent) (s : QueueThreads) : Prop :=
  ∀ queue, pushedFrames queue events = poppedFrames queue events ++ s.queues.contents queue

/-- A step that neither pushes nor pops keeps the frames in order. -/
theorem InOrder.of_silent {events : List QueueEvent} {event : QueueEvent} {s t : QueueThreads}
    (h : InOrder events s) (hqueues : t.queues = s.queues)
    (hpushed : ∀ queue, pushedFrames queue [event] = [])
    (hpopped : ∀ queue, poppedFrames queue [event] = []) : InOrder (events ++ [event]) t := by
  intro queue
  rw [pushedFrames_append, poppedFrames_append, hpushed, hpopped, hqueues, List.append_nil,
    List.append_nil, h queue]

/-- A step whose test still holds keeps the frames in order. -/
theorem threadStep_inOrder (events : List QueueEvent) (s : QueueThreads) (label : QueueLabel)
    (event : QueueEvent) (t : QueueThreads) (h : InOrder events s)
    (htest : testStillHolds s label = true) (hstep : threadStep s label = some (event, t)) :
    InOrder (events ++ [event]) t := by
  cases label with
  | push thread queue frame =>
    simp only [threadStep] at hstep
    split_ifs at hstep <;>
    · obtain ⟨rfl, rfl⟩ := Prod.mk.inj (Option.some.inj hstep)
      exact h.of_silent rfl (fun _ => rfl) fun _ => rfl
  | pop thread queue =>
    simp only [threadStep] at hstep
    split_ifs at hstep <;>
    · obtain ⟨rfl, rfl⟩ := Prod.mk.inj (Option.some.inj hstep)
      exact h.of_silent rfl (fun _ => rfl) fun _ => rfl
  | locked thread =>
    simp only [threadStep] at hstep
    simp only [testStillHolds] at htest
    cases hpc : s.threads thread with
    | idle => simp [hpc] at hstep
    | appending queue frame =>
      rw [hpc] at hstep htest
      simp only [Bool.not_eq_true'] at htest
      obtain ⟨rfl, rfl⟩ := Prod.mk.inj (Option.some.inj hstep)
      intro other
      rw [pushedFrames_append, poppedFrames_append, MessageQueues.contents_append frame htest, h other]
      by_cases hother : other = queue
      · subst hother
        simp [pushedFrames, poppedFrames]
      · simp [pushedFrames, poppedFrames, hother, Ne.symm hother]
    | removing queue =>
      rw [hpc] at hstep htest
      simp only [Bool.not_eq_true'] at htest
      obtain ⟨rfl, rfl⟩ := Prod.mk.inj (Option.some.inj hstep)
      intro other
      rw [pushedFrames_append, poppedFrames_append, h other]
      by_cases hother : other = queue
      · subst hother
        rw [MessageQueues.contents_remove_self htest]
        simp [pushedFrames, poppedFrames]
      · rw [MessageQueues.contents_remove_other hother]
        simp [pushedFrames, poppedFrames, Ne.symm hother]

/-- Before any operation. -/
def QueueThreads.start (queues : MessageQueues) : QueueThreads := ⟨queues, fun _ => .idle⟩

/-- In every interleaving in which each locked part still finds what its test found, no frame is
lost, duplicated or made up. -/
theorem frames_conserved_of_tests {size : ℕ} {cbsAllocated : Bool}
    {framesAllocated : Option (ℕ → CanFrame)} {queues : MessageQueues}
    (hinit : mqInit size cbsAllocated framesAllocated = some queues) {labels : List QueueLabel}
    {events : List QueueEvent} {reached : QueueThreads}
    (htests : StepsMeet threadStep (testStillHolds · ·) (.start queues) labels)
    (hrun : run threadStep (.start queues) labels = some (events, reached)) :
    FramesConserved events reached.queues := by
  have hstart : InOrder [] (.start queues) := by
    intro queue
    exact (congrFun (holds_of_mqInit hinit).contents_eq queue).symm
  have hreached := run_invariant InOrder threadStep_inOrder [] hstart htests hrun
  intro queue
  exact List.Perm.of_eq (hreached queue)

/-- Two producers interleaved with a consumer. -/
def producersAndConsumer : List QueueLabel :=
  [.push 0 .txq (sampleFrame 1), .push 1 .txq (sampleFrame 2), .locked 1, .pop 2 .txq, .locked 0,
    .locked 2]

/-- On the device's queues two producers interleaved with a consumer conserve the frames. -/
theorem producersAndConsumer_conserved :
    ∃ events reached,
      run threadStep (.start deviceQueues) producersAndConsumer = some (events, reached) ∧
      FramesConserved events reached.queues := by
  have hinit : canInit true (some fun _ => sampleFrame 0) = some deviceQueues := rfl
  have hsome : (run threadStep (.start deviceQueues) producersAndConsumer).isSome = true := by
    decide
  obtain ⟨⟨events, reached⟩, hrun⟩ := Option.isSome_iff_exists.mp hsome
  exact ⟨events, reached, hrun, frames_conserved_of_tests hinit (by decide) hrun⟩

/-- Two pops that both find the one frame of the queue. -/
def racingPops : List QueueLabel :=
  [.push 0 .rxq (sampleFrame 1), .locked 0, .pop 1 .rxq, .pop 2 .rxq, .locked 1, .locked 2]

/-- Two racing pops of the device's receive queue return a frame that was never pushed. -/
theorem racingPops_not_conserved :
    ∃ events reached, run threadStep (.start deviceQueues) racingPops = some (events, reached) ∧
      pushedFrames .rxq events = [sampleFrame 1] ∧
      poppedFrames .rxq events = [sampleFrame 1, sampleFrame 0] ∧
      ¬ FramesConserved events reached.queues := by
  have hreplay : (run threadStep (.start deviceQueues) racingPops).map
      (fun r => (pushedFrames .rxq r.1, poppedFrames .rxq r.1)) =
        some ([sampleFrame 1], [sampleFrame 1, sampleFrame 0]) := by decide
  obtain ⟨⟨events, reached⟩, hrun, hframes⟩ := Option.map_eq_some_iff.mp hreplay
  obtain ⟨hpushed, hpopped⟩ := Prod.mk.inj hframes
  refine ⟨events, reached, hrun, hpushed, hpopped, fun hconserved => ?_⟩
  have hlength := (hconserved .rxq).length_eq
  rw [hpushed, hpopped] at hlength
  simp at hlength

end CamkesVm.Can
