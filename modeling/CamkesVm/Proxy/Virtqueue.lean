import Mathlib.Logic.Function.Basic
import CamkesVm.Machine.Memory

/-!
# Virtqueues as the filter sees them

The filter reaches its four virtqueues through foreign calls. A queue holds entries: messages of the
client for a queue on which the filter is the device, used buffers for one on which it is the driver.
Further entries arrive between any two foreign calls. The world carries them as batches, one for each
call to come, so a world is one order of arrivals, and all orders are covered by all worlds.

The calls are logged. Each of them does to the entries and to the log what its contract says, and the
lemmas below say what that is in terms of the stream of a queue: what it holds and what is still to come.
-/

namespace CamkesVm.Proxy

open CamkesVm.Machine

/-- The byte arrays that `declare_virtqueue` allocates. A queue value holds a reference to one of them,
and queue values are compared by their references. -/
inductive Ref
  | vm0Recv
  | vm0Send
  | vm1Recv
  | vm1Send
  deriving DecidableEq

/-- The datatype `virtqueue`. -/
inductive Virtqueue
  | virtQueueDrv (ptr : Ref)
  | virtQueueDev (ptr : Ref)
  deriving DecidableEq

/-- The function `virtqueue_ptr`. -/
def virtqueuePtr : Virtqueue → Ref
  | .virtQueueDrv ptr => ptr
  | .virtQueueDev ptr => ptr

/-- The datatype `result`. -/
inductive Result (α ε : Type)
  | ok (value : α)
  | err (error : ε)
  deriving DecidableEq

/-- The contents of a byte array. -/
abbrev Message := List Byte

/-- A foreign call that returned, with what it returned or was given. -/
inductive FfiCall
  | polled (ptr : Ref) (result : Result ℕ Unit)
  | received (ptr : Ref) (message : Message)
  | dequeued (ptr : Ref)
  | sent (ptr : Ref) (message : Message)
  | signalled (ptr : Ref)

/-- The entries of the queues, the batches still to arrive and the calls so far. -/
structure World where
  entries : Ref → List Message
  arriving : List (List (Ref × Message))
  log : List FfiCall

/-- The entries for one queue among those that arrive. -/
def arrivals (ref : Ref) (batch : List (Ref × Message)) : List Message :=
  (batch.filter (·.1 = ref)).map Prod.snd

/-- The next batch arrives. -/
def World.arrive (w : World) : World :=
  { w with
    entries := fun ref => w.entries ref ++ arrivals ref (w.arriving.headD [])
    arriving := w.arriving.tail }

/-- Log a call. -/
def World.record (w : World) (call : FfiCall) : World := { w with log := w.log ++ [call] }

/-- A foreign call: a batch arrives before it. -/
def ffi {α : Type} (call : World → α × World) : StateM World α := fun w => call w.arrive

/-- The polls answer whether the queue has an entry. -/
def pollEntries (ptr : Ref) : StateM World (Result ℕ Unit) := ffi fun w =>
  let result := .ok (if w.entries ptr = [] then 0 else 1)
  (result, w.record (.polled ptr result))

/-- The function `device_poll`. -/
def devicePoll (ptr : Ref) : StateM World (Result ℕ Unit) := pollEntries ptr

/-- The function `driver_poll`. -/
def driverPoll (ptr : Ref) : StateM World (Result ℕ Unit) := pollEntries ptr

/-- The function `device_recv`: take and return the oldest message. -/
def deviceRecv (vq : Virtqueue) : StateM World (Result Message Unit) := ffi fun w =>
  match w.entries (virtqueuePtr vq) with
  | [] => (.err (), w)
  | message :: rest =>
    let taken := { w with entries := Function.update w.entries (virtqueuePtr vq) rest }
    (.ok message, taken.record (.received (virtqueuePtr vq) message))

/-- The function `driver_recv`: take one used entry. -/
def driverRecv (vq : Virtqueue) : StateM World (Result Unit Unit) := ffi fun w =>
  match w.entries (virtqueuePtr vq) with
  | [] => (.err (), w)
  | _ :: rest =>
    let taken := { w with entries := Function.update w.entries (virtqueuePtr vq) rest }
    (.ok (), taken.record (.dequeued (virtqueuePtr vq)))

/-- The function `driver_send`. -/
def driverSend (vq : Virtqueue) (message : Message) : StateM World (Result Unit Unit) := ffi fun w =>
  (.ok (), w.record (.sent (virtqueuePtr vq) message))

/-- The function `device_signal`. -/
def deviceSignal (vq : Virtqueue) : StateM World (Result Unit Unit) := ffi fun w =>
  (.ok (), w.record (.signalled (virtqueuePtr vq)))

/-- The function `driver_signal`. -/
def driverSignal (vq : Virtqueue) : StateM World (Result Unit Unit) := ffi fun w =>
  (.ok (), w.record (.signalled (virtqueuePtr vq)))

/-- The function `poll`. -/
def poll : Virtqueue → StateM World (Result ℕ Unit)
  | .virtQueueDev ptr => devicePoll ptr
  | .virtQueueDrv ptr => driverPoll ptr

/-- The function `select`: the first queue whose poll yields `Ok 1`. -/
def select (vqs : List Virtqueue) : StateM World (Option Virtqueue) :=
  vqs.findM? fun vq => do return decide ((← poll vq) = .ok 1)

/-- What a queue holds and will hold, in order. -/
def World.stream (w : World) (ref : Ref) : List Message :=
  w.entries ref ++ arrivals ref w.arriving.flatten

/-- The messages received on a queue. -/
def receivedOn (ref : Ref) (log : List FfiCall) : List Message := log.filterMap fun
  | .received ptr message => if ptr = ref then some message else none
  | _ => none

/-- The messages sent on a queue. -/
def sentOn (ref : Ref) (log : List FfiCall) : List Message := log.filterMap fun
  | .sent ptr message => if ptr = ref then some message else none
  | _ => none

/-- A message at one queue and nothing at the others. -/
def only (ptr : Ref) (message : Message) (ref : Ref) : List Message :=
  if ptr = ref then [message] else []

/-- From one world to a later one, these entries are taken off the streams, and these messages are
received and sent. -/
structure Passes (w later : World) (taken received sent : Ref → List Message) : Prop where
  stream_eq : ∀ ref, w.stream ref = taken ref ++ later.stream ref
  received_eq : ∀ ref, receivedOn ref later.log = receivedOn ref w.log ++ received ref
  sent_eq : ∀ ref, sentOn ref later.log = sentOn ref w.log ++ sent ref

section Effects

variable {w later last : World}

/-- What passes in two stretches passes one after the other. -/
theorem Passes.trans {taken received sent taken' received' sent' : Ref → List Message}
    (hfirst : Passes w later taken received sent) (hnext : Passes later last taken' received' sent') :
    Passes w last (fun ref => taken ref ++ taken' ref) (fun ref => received ref ++ received' ref)
      fun ref => sent ref ++ sent' ref where
  stream_eq ref := by rw [hfirst.stream_eq, hnext.stream_eq, List.append_assoc]
  received_eq ref := by rw [hnext.received_eq, hfirst.received_eq, List.append_assoc]
  sent_eq ref := by rw [hnext.sent_eq, hfirst.sent_eq, List.append_assoc]

end Effects

end CamkesVm.Proxy
