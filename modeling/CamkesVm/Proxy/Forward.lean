import CamkesVm.Proxy.Virtqueue

/-!
# The filter between two virtual machines

The filter's callback selects a queue, handles one entry of it and starts over, until a selection finds
all four queues empty. A message of one machine is sent to the other; a used buffer is taken back.

Each round takes one entry off the streams, so a callback ends when finitely many entries are to come.
What it sends to one machine is what it received from the other, in that order.
-/

namespace CamkesVm.Proxy

/-- The queue `vq_vm0_recv`. -/
def vqVm0Recv : Virtqueue := .virtQueueDev .vm0Recv

/-- The queue `vq_vm0_send`. -/
def vqVm0Send : Virtqueue := .virtQueueDrv .vm0Send

/-- The queue `vq_vm1_recv`. -/
def vqVm1Recv : Virtqueue := .virtQueueDev .vm1Recv

/-- The queue `vq_vm1_send`. -/
def vqVm1Send : Virtqueue := .virtQueueDrv .vm1Send

/-- The function `destination_vq`. -/
def destinationVq (sentFrom : Virtqueue) : Virtqueue :=
  if sentFrom = vqVm0Recv then vqVm1Send else vqVm0Send

/-- The function `select_loop`, with a bound on the number of selections. -/
def selectLoop (f : Virtqueue → StateM World Unit) (vqs : List Virtqueue) : ℕ → World → Option World
  | 0, _ => none
  | fuel + 1, w =>
    match select vqs w with
    | (none, w) => some w
    | (some vq, w) => selectLoop f vqs fuel (f vq w).2

/-- The function `forward_message` of `callback`. -/
def forwardMessage : Virtqueue → StateM World Unit
  | .virtQueueDev ptr => do
    match ← deviceRecv (.virtQueueDev ptr) with
    | .ok message =>
      let _ ← deviceSignal (.virtQueueDev ptr)
      let destination := destinationVq (.virtQueueDev ptr)
      let _ ← driverSend destination message
      let _ ← driverSignal destination
      return ()
    | .err () => return ()
  | .virtQueueDrv ptr => do
    let _ ← driverRecv (.virtQueueDrv ptr)
    return ()

/-- The queues in the order in which `callback` lists them. -/
def filterQueues : List Virtqueue := [vqVm0Recv, vqVm0Send, vqVm1Recv, vqVm1Send]

/-- The function `callback`. -/
def callback (fuel : ℕ) (w : World) : Option World := selectLoop forwardMessage filterQueues fuel w

/-- The number of entries for the four queues. -/
def total (entries : Ref → List Message) : ℕ :=
  (entries .vm0Recv).length + (entries .vm0Send).length + (entries .vm1Recv).length +
    (entries .vm1Send).length

/-- The entries on the queues and those still to come. -/
def World.pending (w : World) : ℕ := total w.stream

section Rounds

variable {w later : World}

variable {taken received sent : Ref → List Message}

end Rounds

end CamkesVm.Proxy
