import CamkesVm.Can.MessageQueue

/-!
# Sequential queue operations are bounded lists

The specification of the message queues is one list per queue, of at most a fixed length. The
rings refine it: in every sequence of complete operations both answer alike, whatever the
cursors have wrapped around to.
-/

namespace CamkesVm.Can

open CamkesVm.Machine

section Fifos

variable {κ α : Type} [DecidableEq κ]

/-- Append to the list of a key, unless it has reached the capacity. -/
def fifoPush (capacity : ℕ) (fifos : κ → List α) (key : κ) (x : α) : ℤ × (κ → List α) :=
  if (fifos key).length < capacity then (0, Function.update fifos key (fifos key ++ [x]))
  else (-1, fifos)

/-- Take the oldest entry of the list of a key, if there is one. -/
def fifoPop (fifos : κ → List α) (key : κ) : Option α × (κ → List α) :=
  match fifos key with
  | [] => (none, fifos)
  | x :: rest => (some x, Function.update fifos key rest)

end Fifos

/-- A complete queue operation. -/
inductive QueueOp
  | txQueuePush (frame : CanFrame)
  | txQueuePop
  | rxQueuePush (frame : CanFrame)
  | rxQueuePop
  deriving DecidableEq

/-- The queue an operation works on. -/
def QueueOp.queue : QueueOp → QueueId
  | .txQueuePush _ | .txQueuePop => .txq
  | .rxQueuePush _ | .rxQueuePop => .rxq

/-- What a queue operation returns: a push its code, a pop the frame or a null pointer. -/
inductive QueueAnswer
  | pushed (ret : ℤ)
  | popped (frame : Option CanFrame)
  deriving DecidableEq

/-- One operation on the rings. -/
def queueStep (queues : MessageQueues) : QueueOp → QueueAnswer × MessageQueues
  | .txQueuePush frame => ((queues.txQueuePush frame).map .pushed id)
  | .txQueuePop => (queues.txQueuePop.map .popped id)
  | .rxQueuePush frame => ((queues.rxQueuePush frame).map .pushed id)
  | .rxQueuePop => (queues.rxQueuePop.map .popped id)

/-- One operation on the lists. -/
def fifoStep (capacity : ℕ) (fifos : QueueId → List CanFrame) :
    QueueOp → QueueAnswer × (QueueId → List CanFrame)
  | .txQueuePush frame => ((fifoPush capacity fifos .txq frame).map .pushed id)
  | .txQueuePop => ((fifoPop fifos .txq).map .popped id)
  | .rxQueuePush frame => ((fifoPush capacity fifos .rxq frame).map .pushed id)
  | .rxQueuePop => ((fifoPop fifos .rxq).map .popped id)

/-- The rings have `size` slots each and hold the lists. -/
structure Holds (size : ℕ) (queues : MessageQueues) (fifos : QueueId → List CanFrame) : Prop where
  size_eq : ∀ queue, (queues.cbs queue).size = size
  contents_eq : queues.contents = fifos

variable {size : ℕ} {queues : MessageQueues} {fifos : QueueId → List CanFrame}

/-- A push on the rings is a push on the lists. -/
theorem Holds.push (h : Holds size queues fifos) (queue : QueueId) (frame : CanFrame) :
    (queues.push queue frame).1 = (fifoPush (size - 1) fifos queue frame).1 ∧
      Holds size (queues.push queue frame).2 (fifoPush (size - 1) fifos queue frame).2 := by
  obtain ⟨hsize, rfl⟩ := h
  have hfull := queues.mqIsFull_iff queue
  have hcount : (queues.contents queue).length < size := by
    rw [← hsize queue, MessageQueues.contents, Ring.contents_length]
    exact Ring.count_lt _
  rw [hsize] at hfull
  unfold MessageQueues.push fifoPush
  cases hbit : mqIsFull (queues.cbs queue) with
  | true =>
    have hlen := hfull.mp hbit
    rw [if_neg (by omega : ¬ (queues.contents queue).length < size - 1)]
    exact ⟨rfl, hsize, rfl⟩
  | false =>
    have hlen : (queues.contents queue).length + 1 ≠ size := by simpa [hbit] using hfull
    rw [if_pos (by omega : (queues.contents queue).length < size - 1)]
    refine ⟨rfl, fun other => ?_, MessageQueues.contents_append frame hbit⟩
    exact (MessageQueues.append_size queue other frame).trans (hsize other)

/-- A pop on the rings is a pop on the lists. -/
theorem Holds.pop (h : Holds size queues fifos) (queue : QueueId) :
    (queues.pop queue).1 = (fifoPop fifos queue).1 ∧
      Holds size (queues.pop queue).2 (fifoPop fifos queue).2 := by
  obtain ⟨hsize, rfl⟩ := h
  have hempty := queues.mqIsEmpty_iff queue
  unfold MessageQueues.pop fifoPop
  cases hcontents : queues.contents queue with
  | nil =>
    rw [if_pos (hempty.mpr hcontents)]
    exact ⟨rfl, hsize, rfl⟩
  | cons frame rest =>
    obtain ⟨hframe, hrest⟩ := MessageQueues.contents_remove hcontents
    rw [if_neg (by rw [hempty, hcontents]; exact List.cons_ne_nil frame rest), hframe]
    refine ⟨rfl, fun other => ?_, hrest⟩
    exact (MessageQueues.remove_size queue other).trans (hsize other)

/-- One operation on the rings is the same operation on the lists. -/
theorem queueStep_refines (queues : MessageQueues) (fifos : QueueId → List CanFrame) (op : QueueOp)
    (h : Holds size queues fifos) :
    (queueStep queues op).1 = (fifoStep (size - 1) fifos op).1 ∧
      Holds size (queueStep queues op).2 (fifoStep (size - 1) fifos op).2 := by
  cases op with
  | txQueuePush frame => exact (h.push .txq frame).imp_left (congrArg QueueAnswer.pushed)
  | txQueuePop => exact (h.pop .txq).imp_left (congrArg QueueAnswer.popped)
  | rxQueuePush frame => exact (h.push .rxq frame).imp_left (congrArg QueueAnswer.pushed)
  | rxQueuePop => exact (h.pop .rxq).imp_left (congrArg QueueAnswer.popped)

/-- Freshly initialised queues hold empty lists. -/
theorem holds_of_mqInit {cbsAllocated : Bool} {framesAllocated : Option (ℕ → CanFrame)}
    (hinit : mqInit size cbsAllocated framesAllocated = some queues) :
    Holds size queues fun _ => [] := by
  unfold mqInit at hinit
  split at hinit
  · obtain ⟨block, _, hblock⟩ := Option.bind_eq_some_iff.mp hinit
    split at hblock
    · obtain rfl := Option.some.inj hblock
      refine ⟨fun queue => by cases queue <;> rfl, ?_⟩
      funext queue
      cases queue <;> simp [MessageQueues.contents, Ring.contents, Ring.count]
    · exact absurd hblock (by simp)
  · exact absurd hinit (by simp)

/-- An operation on one queue leaves the other one as it was. -/
theorem queueStep_other (queues : MessageQueues) (op : QueueOp) {other : QueueId}
    (hother : other ≠ op.queue) :
    (queueStep queues op).2.contents other = queues.contents other := by
  cases op with
  | txQueuePush frame => exact MessageQueues.contents_push_other frame hother
  | txQueuePop => exact MessageQueues.contents_pop_other hother
  | rxQueuePush frame => exact MessageQueues.contents_push_other frame hother
  | rxQueuePop => exact MessageQueues.contents_pop_other hother

/-- After initialisation every sequence of operations answers as two independent lists of at most
`size - 1` frames do, with the cursors in range and each operation confined to its queue. -/
theorem queues_refine_fifos {cbsAllocated : Bool} {framesAllocated : Option (ℕ → CanFrame)}
    (hinit : mqInit size cbsAllocated framesAllocated = some queues) (ops : List QueueOp) :
    let reached := final queueStep queues ops
    let lists := final (fifoStep (size - 1)) (fun _ => []) ops
    outputs queueStep queues ops = outputs (fifoStep (size - 1)) (fun _ => []) ops ∧
      reached.contents = lists ∧
      (∀ queue, (reached.cbs queue).head < size ∧ (reached.cbs queue).tail < size) ∧
      ∀ op other, other ≠ op.queue →
        (queueStep reached op).2.contents other = reached.contents other := by
  obtain ⟨houts, hsize, hcontents⟩ :=
    simulation queueStep_refines queues (fun _ => []) ops (holds_of_mqInit hinit)
  refine ⟨houts, hcontents, fun queue => ?_, fun op other hother => queueStep_other _ op hother⟩
  rw [← hsize queue]
  exact ⟨Ring.head_lt _, Ring.tail_lt _⟩

/-- A frame of the sample runs, told apart by its identifier. -/
def sampleFrame (id : BitVec 29) : CanFrame := ⟨⟨id, 0, 0, 0⟩, 0, 0, fun _ => 0⟩

/-- The queues of the device, in memory filled with one frame. -/
def deviceQueues : MessageQueues := (canInit true (some fun _ => sampleFrame 0)).get rfl

/-- A queue of three slots takes two frames and refuses the third, also after wrapping around. -/
theorem queues_refine_fifos_three :
    ∃ queues, mqInit 3 true (some fun _ => sampleFrame 0) = some queues ∧
      outputs queueStep queues
        [.txQueuePush (sampleFrame 1), .txQueuePush (sampleFrame 2), .txQueuePush (sampleFrame 3),
          .rxQueuePop, .txQueuePop, .txQueuePush (sampleFrame 4), .txQueuePop, .txQueuePop,
          .txQueuePop] =
        [.pushed 0, .pushed 0, .pushed (-1), .popped none, .popped (some (sampleFrame 1)),
          .pushed 0, .popped (some (sampleFrame 2)), .popped (some (sampleFrame 4)),
          .popped none] := by
  obtain ⟨queues, hinit⟩ : ∃ queues, mqInit 3 true (some fun _ => sampleFrame 0) = some queues :=
    ⟨_, rfl⟩
  exact ⟨queues, hinit, (queues_refine_fifos hinit _).1.trans (by decide)⟩

end CamkesVm.Can
