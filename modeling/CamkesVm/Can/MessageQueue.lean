import CamkesVm.Can.Frame
import CamkesVm.Machine.Ring
import CamkesVm.Machine.Run

/-!
# The transmit and receive message queues

The model of `queue.c`. Both queues are rings in one block of frames: the transmit ring takes
the first half of the block and the receive ring the second. The state of the module carries
the bounds of its cursors and the layout of the block, so that no operation leaves its half.

Each operation tests the ring first and then works on it under the ring's lock. The locked
parts have their own definitions, since other threads may run between the two. Run one after
the other, the operations are those of two independent lists of bounded length.
-/

namespace CamkesVm.Can

open CamkesVm.Machine

/-- The two queues of the module. -/
inductive QueueId
  | txq
  | rxq
  deriving DecidableEq, Repr

/-- The control block of a queue: its ring, and where its slots start in the frame block. -/
structure MqCb extends Ring where
  frames : ℕ

/-- Check if the queue is full. -/
def mqIsFull (cb : MqCb) : Bool := (cb.tail + 1) % cb.size == cb.head

/-- Check if the queue is empty. -/
def mqIsEmpty (cb : MqCb) : Bool := cb.tail == cb.head

/-- Add a message to the end of the queue. -/
def mqAppendMsg (cb : MqCb) (block : ℕ → CanFrame) (frame : CanFrame) : MqCb × (ℕ → CanFrame) :=
  ({ cb with toRing := cb.advanceTail }, Function.update block (cb.frames + cb.tail) frame)

/-- Retrieve the message at the start of the queue. -/
def mqRemoveMsg (cb : MqCb) (block : ℕ → CanFrame) : CanFrame × MqCb :=
  (block (cb.frames + cb.head), { cb with toRing := cb.advanceHead })

/-- The module's state: the allocated frames and both control blocks, the transmit slots before
the receive slots and both inside the block. -/
structure MessageQueues where
  block : ℕ → CanFrame
  blockLen : ℕ
  cbs : QueueId → MqCb
  separate : (cbs .txq).frames + (cbs .txq).size ≤ (cbs .rxq).frames
  inside : (cbs .rxq).frames + (cbs .rxq).size ≤ blockLen

/-- Initialise both queues in one block of `2 * size` frames. The two allocations may fail, and a
ring needs at least one slot. -/
def mqInit (size : ℕ) (cbsAllocated : Bool) (framesAllocated : Option (ℕ → CanFrame)) :
    Option MessageQueues :=
  if cbsAllocated then
    framesAllocated.bind fun block =>
      if hsize : 0 < size then
        some {
          block := block
          blockLen := size * 2
          cbs := fun
            | .txq => ⟨⟨size, 0, 0, hsize, hsize⟩, 0⟩
            | .rxq => ⟨⟨size, 0, 0, hsize, hsize⟩, size⟩
          separate := by simp
          inside := by simp; omega }
      else none
  else none

/-- The queue size of the device. -/
def msgQueueSize : ℕ := 128

/-- The start of the device: both queues of the device's size. -/
def canInit (cbsAllocated : Bool) (framesAllocated : Option (ℕ → CanFrame)) :
    Option MessageQueues :=
  mqInit msgQueueSize cbsAllocated framesAllocated

namespace MessageQueues

variable (queues : MessageQueues)

/-- The frames waiting in a queue, oldest first. -/
def contents (queue : QueueId) : List CanFrame :=
  (queues.cbs queue).contents fun i => queues.block ((queues.cbs queue).frames + i)

/-- The locked part of a push. -/
def append (queue : QueueId) (frame : CanFrame) : MessageQueues where
  block := (mqAppendMsg (queues.cbs queue) queues.block frame).2
  blockLen := queues.blockLen
  cbs := Function.update queues.cbs queue (mqAppendMsg (queues.cbs queue) queues.block frame).1
  separate := by cases queue <;> exact queues.separate
  inside := by cases queue <;> exact queues.inside

/-- The locked part of a pop. -/
def remove (queue : QueueId) : CanFrame × MessageQueues :=
  ((mqRemoveMsg (queues.cbs queue) queues.block).1,
    { queues with
      cbs := Function.update queues.cbs queue (mqRemoveMsg (queues.cbs queue) queues.block).2
      separate := by cases queue <;> exact queues.separate
      inside := by cases queue <;> exact queues.inside })

/-- Add a message to a queue unless it is full. -/
def push (queue : QueueId) (frame : CanFrame) : ℤ × MessageQueues :=
  if mqIsFull (queues.cbs queue) then (-1, queues) else (0, queues.append queue frame)

/-- Retrieve a message from a queue unless it is empty. -/
def pop (queue : QueueId) : Option CanFrame × MessageQueues :=
  if mqIsEmpty (queues.cbs queue) then (none, queues)
  else (some (queues.remove queue).1, (queues.remove queue).2)

/-- Add a message to the transmit queue. -/
def txQueuePush (frame : CanFrame) : ℤ × MessageQueues := queues.push .txq frame

/-- Retrieve a message from the transmit queue. -/
def txQueuePop : Option CanFrame × MessageQueues := queues.pop .txq

/-- Add a message to the receive queue. -/
def rxQueuePush (frame : CanFrame) : ℤ × MessageQueues := queues.push .rxq frame

/-- Retrieve a message from the receive queue. -/
def rxQueuePop : Option CanFrame × MessageQueues := queues.pop .rxq

/-- The full test in terms of the contents. -/
theorem mqIsFull_iff (queue : QueueId) :
    mqIsFull (queues.cbs queue) = true ↔
      (queues.contents queue).length + 1 = (queues.cbs queue).size := by
  rw [contents, Ring.contents_length, Ring.count_add_one_eq_size_iff, mqIsFull, beq_iff_eq]

/-- The empty test in terms of the contents. -/
theorem mqIsEmpty_iff (queue : QueueId) :
    mqIsEmpty (queues.cbs queue) = true ↔ queues.contents queue = [] := by
  rw [← List.length_eq_zero_iff, contents, Ring.contents_length, Ring.count_eq_zero_iff,
    mqIsEmpty, beq_iff_eq]

variable {queues}

/-- A pop returns nothing only from an empty queue. -/
theorem contents_of_pop_none {queue : QueueId} (h : (queues.pop queue).1 = none) :
    queues.contents queue = [] := by
  unfold pop at h
  split at h
  next hempty => exact (queues.mqIsEmpty_iff queue).mp hempty
  · exact absurd h (by simp)

/-- Appending to a queue that is not full adds the frame at the end. -/
theorem contents_append_self {queue : QueueId} (frame : CanFrame)
    (hfull : mqIsFull (queues.cbs queue) = false) :
    (queues.append queue frame).contents queue = queues.contents queue ++ [frame] := by
  have hnext : ((queues.cbs queue).tail + 1) % (queues.cbs queue).size ≠ (queues.cbs queue).head := by
    simpa [mqIsFull] using hfull
  rw [contents, contents, ← Ring.contents_advanceTail _ _ _ hnext]
  simp only [append, Function.update_self, mqAppendMsg]
  apply Ring.contents_congr
  intro i _
  simp only [Function.update_apply, Nat.add_left_cancel_iff]

/-- Removing from a queue that is not empty takes the oldest frame. -/
theorem contents_remove_self {queue : QueueId} (hempty : mqIsEmpty (queues.cbs queue) = false) :
    queues.contents queue = (queues.remove queue).1 :: (queues.remove queue).2.contents queue := by
  have hne : (queues.cbs queue).tail ≠ (queues.cbs queue).head := by
    simpa [mqIsEmpty] using hempty
  rw [contents, Ring.contents_advanceHead _ _ hne, contents]
  simp only [remove, Function.update_self, mqRemoveMsg]

/-- No operation changes the number of slots. -/
@[simp] theorem append_size (queue other : QueueId) (frame : CanFrame) :
    ((queues.append queue frame).cbs other).size = (queues.cbs other).size := by
  by_cases h : other = queue
  · subst h
    simp [append, mqAppendMsg, Ring.advanceTail]
  · simp [append, Function.update_of_ne h]

/-- No operation changes the number of slots. -/
@[simp] theorem remove_size (queue other : QueueId) :
    ((queues.remove queue).2.cbs other).size = (queues.cbs other).size := by
  by_cases h : other = queue
  · subst h
    simp [remove, mqRemoveMsg, Ring.advanceHead]
  · simp [remove, Function.update_of_ne h]

/-- An append, even to a full queue, leaves the other queue as it was. -/
theorem contents_append_other {queue other : QueueId} (frame : CanFrame) (hother : other ≠ queue) :
    (queues.append queue frame).contents other = queues.contents other := by
  have htail := (queues.cbs queue).tail_lt
  have hseparate := queues.separate
  simp only [contents, append, Function.update_of_ne hother, mqAppendMsg]
  apply Ring.contents_congr
  intro i hi
  apply Function.update_of_ne
  cases queue <;> cases other <;> first | exact absurd rfl hother | omega

/-- A remove, even from an empty queue, leaves the other queue as it was. -/
theorem contents_remove_other {queue other : QueueId} (hother : other ≠ queue) :
    (queues.remove queue).2.contents other = queues.contents other := by
  simp only [contents, remove, Function.update_of_ne hother]

/-- A push on one queue leaves the other one as it was. -/
theorem contents_push_other {queue other : QueueId} (frame : CanFrame) (hother : other ≠ queue) :
    (queues.push queue frame).2.contents other = queues.contents other := by
  unfold push
  split
  · rfl
  · exact contents_append_other frame hother

/-- A pop from one queue leaves the other one as it was. -/
theorem contents_pop_other {queue other : QueueId} (hother : other ≠ queue) :
    (queues.pop queue).2.contents other = queues.contents other := by
  unfold pop
  split
  · rfl
  · exact contents_remove_other hother

/-- A push appends the frame and returns zero, or fails and changes nothing. -/
theorem push_cases (queues : MessageQueues) (queue : QueueId) (frame : CanFrame) :
    ((queues.push queue frame).1 = 0 ∧
        (queues.push queue frame).2.contents queue = queues.contents queue ++ [frame]) ∨
      ((queues.push queue frame).1 = -1 ∧ mqIsFull (queues.cbs queue) = true ∧
        (queues.push queue frame).2 = queues) := by
  unfold push
  split
  next hfull => exact Or.inr ⟨rfl, hfull, rfl⟩
  next hfull => exact Or.inl ⟨rfl, contents_append_self frame (Bool.not_eq_true _ ▸ hfull)⟩

/-- A pop takes the oldest frame, if there is one. -/
theorem contents_pop (queues : MessageQueues) (queue : QueueId) :
    queues.contents queue = (queues.pop queue).1.toList ++ (queues.pop queue).2.contents queue := by
  unfold pop
  split
  · rfl
  next hempty => exact contents_remove_self (Bool.not_eq_true _ ▸ hempty)

/-- An append to a queue that is not full, on both queues at once. -/
theorem contents_append {queue : QueueId} (frame : CanFrame)
    (hfull : mqIsFull (queues.cbs queue) = false) :
    (queues.append queue frame).contents =
      Function.update queues.contents queue (queues.contents queue ++ [frame]) := by
  funext other
  by_cases h : other = queue
  · rw [h, contents_append_self frame hfull, Function.update_self]
  · rw [contents_append_other frame h, Function.update_of_ne h]

/-- A remove from a queue that is not empty, on both queues at once. -/
theorem contents_remove {queue : QueueId} {frame : CanFrame} {rest : List CanFrame}
    (h : queues.contents queue = frame :: rest) :
    (queues.remove queue).1 = frame ∧
      (queues.remove queue).2.contents = Function.update queues.contents queue rest := by
  have hempty : mqIsEmpty (queues.cbs queue) = false := by
    rw [Bool.eq_false_iff, ne_eq, mqIsEmpty_iff, h]
    exact List.cons_ne_nil frame rest
  rw [contents_remove_self hempty] at h
  obtain ⟨hframe, hrest⟩ := List.cons.inj h
  refine ⟨hframe, ?_⟩
  funext other
  by_cases hother : other = queue
  · rw [hother, hrest, Function.update_self]
  · rw [contents_remove_other hother, Function.update_of_ne hother]

/-- An append, even to a full queue, brings no other frame into a queue. -/
theorem mem_contents_append {queue other : QueueId} {frame got : CanFrame}
    (h : got ∈ (queues.append queue frame).contents other) :
    got ∈ queues.contents other ∨ got = frame := by
  by_cases hother : other = queue
  · subst hother
    cases hfull : mqIsFull (queues.cbs other) with
    | false =>
      rw [contents_append_self frame hfull] at h
      simpa using h
    | true =>
      -- The tail has caught up with the head, so the queue counts as empty.
      have hempty : (queues.append other frame).contents other = [] := by
        rw [← mqIsEmpty_iff, mqIsEmpty]
        simp only [append, Function.update_self]
        exact hfull
      rw [hempty] at h
      exact absurd h List.not_mem_nil
  · rw [contents_append_other frame hother] at h
    exact Or.inl h

/-- A push brings no other frame into a queue. -/
theorem mem_contents_push {queue other : QueueId} {frame got : CanFrame}
    (h : got ∈ (queues.push queue frame).2.contents other) :
    got ∈ queues.contents other ∨ got = frame := by
  unfold push at h
  split at h
  · exact Or.inl h
  · exact mem_contents_append h

/-- A remove from a queue that is not empty returns a frame of the queue. -/
theorem mem_of_remove {queue : QueueId} (hempty : mqIsEmpty (queues.cbs queue) = false) :
    (queues.remove queue).1 ∈ queues.contents queue := by
  rw [contents_remove_self hempty]
  exact List.mem_cons_self

/-- A remove from a queue that is not empty brings no frame into a queue. -/
theorem mem_contents_remove {queue other : QueueId} {got : CanFrame}
    (hempty : mqIsEmpty (queues.cbs queue) = false)
    (h : got ∈ (queues.remove queue).2.contents other) : got ∈ queues.contents other := by
  by_cases hother : other = queue
  · subst hother
    rw [contents_remove_self hempty]
    exact List.mem_cons_of_mem _ h
  · rwa [contents_remove_other hother] at h

/-- A pop returns a frame of its queue. -/
theorem mem_of_pop {queue : QueueId} {got : CanFrame} (h : (queues.pop queue).1 = some got) :
    got ∈ queues.contents queue := by
  rw [contents_pop, h]
  exact List.mem_append_left _ (List.mem_singleton.mpr rfl)

/-- A pop brings no frame into a queue. -/
theorem mem_contents_pop {queue other : QueueId} {got : CanFrame}
    (h : got ∈ (queues.pop queue).2.contents other) : got ∈ queues.contents other := by
  by_cases hother : other = queue
  · subst hother
    rw [contents_pop]
    exact List.mem_append_right _ h
  · rwa [contents_pop_other hother] at h

end MessageQueues

end CamkesVm.Can
