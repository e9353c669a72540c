import CamkesVm.Can.Filter
import CamkesVm.Can.QueueFifo
import CamkesVm.Can.SpiCommands

/-!
# The CAN component as a step relation

The component runs client threads in `can_send` and `can_try_recv`, one interrupt thread in
`irq_handler`, and the controller beside them. Each access to shared memory and each SPI instruction is
one step, so that any thread and the controller may act between any two of them. A step that has to
wait for a lock has no result, and neither has a copy that would leave its arrays.

A client tests its queue in one step and changes it under the lock in another. The handler is the only
thread that pops from the transmit queue and the only one that pushes to the receive queue, and each of
these operations of it is one step.

What a read of a receive buffer does is decoded from its instruction byte. The step relation is over any
such bytes; the component is the one with those of the source.

The locals of the interrupt thread are part of the state, the buffer of `recv_rxb` among them.
The frames of its two functions are not initialised by the source; a step that enters the handler
names what they hold.
-/

namespace CamkesVm.Can

open CamkesVm.Machine

/-- The number of transmit buffers on the controller. -/
abbrev txbNum : ℕ := 3

/-- The transmit flags. -/
def txifMask : Byte := 0x1C

/-- The receive flags. -/
def rxifMask : Byte := 0x03

/-- The position of the first transmit flag. -/
def txifShf : ℕ := 2

/-- The flag of the first transmit buffer. -/
def canintfTx0if : Byte := bit 2

/-- Where a client thread is in `can_send`, with its frame and the result of its last push. -/
inductive ClientPc
  | idle
  | testFull (frame : CanFrame)
  | append (frame : CanFrame)
  | startXmit (frame : CanFrame) (ret : ℤ)
  | lockTxb (frame : CanFrame) (ret : ℤ)
  | scan (frame : CanFrame) (ret : ℤ) (i : ℕ)
  | trigger (frame : CanFrame) (ret : ℤ) (i : Fin txbNum)
  | mark (frame : CanFrame) (ret : ℤ) (i : Fin txbNum)
  deriving DecidableEq

/-- Where the interrupt thread is in `irq_handler`. -/
inductive IrqPc
  | idle
  | readFlags
  | merrMode
  | merrConfig
  | merrListen
  | merrClear
  | wakClear
  | errRead
  | errOverflow (overflows : Byte)
  | errClear
  | txClear
  | txPop (i : ℕ)
  | txWait (i : Fin txbNum)
  | txLoad (i : Fin txbNum)
  | txPrio (i : Fin txbNum)
  | txStop
  | txRts
  | rxRead (n : Fin 2)
  | rxPush (n : Fin 2)
  | rxAck
  | finish
  deriving DecidableEq

/-- Where a client thread is in `can_try_recv`: outside of it, or behind the test that found the receive
queue not empty. A thread in `can_recv` calls `rx_queue_pop` in the same way, again and again. -/
inductive RecvPc
  | idle
  | remove
  deriving DecidableEq

/-- The state of the component and its controller. -/
structure CanState where
  regs : Regs
  queues : MessageQueues
  xmitStopped : Bool
  txbLock : Bool
  clients : ℕ → ClientPc
  receivers : ℕ → RecvPc
  irq : IrqPc
  flags : Byte
  rts : Byte
  txFrame : CanFrame
  rxFrame : CanFrame
  buf : Bytes maxBufLen
  count : ℤ

/-- The component after its start, with any register contents. -/
def CanState.start (regs : Regs) (queues : MessageQueues) (frame : CanFrame) : CanState where
  regs := regs
  queues := queues
  xmitStopped := true
  txbLock := false
  clients := fun _ => .idle
  receivers := fun _ => .idle
  irq := .idle
  flags := 0
  rts := 0
  txFrame := frame
  rxFrame := frame
  buf := fun _ => 0
  count := 100

/-- Move a client thread in `can_send`. -/
def CanState.setClient (s : CanState) (thread : ℕ) (pc : ClientPc) : CanState :=
  { s with clients := Function.update s.clients thread pc }

/-- Move a client thread in `can_try_recv`. -/
def CanState.setReceiver (s : CanState) (thread : ℕ) (pc : RecvPc) : CanState :=
  { s with receivers := Function.update s.receivers thread pc }

/-- What a step shows: a frame that the controller stored in a receive buffer, one that was passed
to the receive queue with the result of the push, or what a client received. -/
inductive CanEvent
  | silent
  | received (frame : Option CanFrame)
  | stored (n : Fin 2) (image : Bytes maxBufLen)
  | passed (n : Fin 2) (image : Bytes maxBufLen) (frame : CanFrame) (ret : ℤ)

/-- The end of the loop of `can_send`: try again after a failed push. -/
def loopSend (frame : CanFrame) (ret : ℤ) : ClientPc := if ret < 0 then .testFull frame else .idle

/-- One step of a client thread in `can_send`. -/
def clientStep (s : CanState) (thread : ℕ) : Option CanState :=
  match s.clients thread with
  | .idle => none
  | .testFull frame =>
    if mqIsFull (s.queues.cbs .txq) then some (s.setClient thread (.startXmit frame (-1)))
    else some (s.setClient thread (.append frame))
  | .append frame =>
    some ({ s with queues := s.queues.append .txq frame }.setClient thread (.startXmit frame 0))
  | .startXmit frame ret =>
    if s.xmitStopped then some (s.setClient thread (.lockTxb frame ret))
    else some (s.setClient thread (loopSend frame ret))
  | .lockTxb frame ret =>
    if s.txbLock then none
    else some ({ s with txbLock := true }.setClient thread (.scan frame ret 0))
  | .scan frame ret i =>
    if h : i < txbNum then
      if mcp2515ReadReg s.regs (txbctrl i) &&& txbctrlTxreq = 0 then
        some (s.setClient thread (.trigger frame ret ⟨i, h⟩))
      else some (s.setClient thread (.scan frame ret (i + 1)))
    else some ({ s with txbLock := false }.setClient thread (loopSend frame ret))
  | .trigger frame ret i =>
    some ({ s with regs := mcp2515BitModify s.regs canintf (canintfTx0if <<< i.val) 0xFF }.setClient
      thread (.mark frame ret i))
  | .mark frame ret i =>
    some ({ s with xmitStopped := false }.setClient thread (.scan frame ret (i + 1)))

/-- The transmit buffers that `transmit_message` is called with. -/
def txOf (flags : Byte) : Byte := (flags &&& txifMask) >>> txifShf

/-- The second half of `receive_message`. -/
def receiveSecond (flags : Byte) : IrqPc := if flags.getLsbD 1 then .rxRead 1 else .rxAck

/-- The start of `receive_message`. -/
def receiveFirst (flags : Byte) : IrqPc := if flags.getLsbD 0 then .rxRead 0 else receiveSecond flags

/-- The handler's test for received frames. -/
def dispatchRx (flags : Byte) : IrqPc := if flags &&& rxifMask ≠ 0 then receiveFirst flags else .finish

/-- The handler's test for empty transmit buffers. -/
def dispatchTx (flags : Byte) : IrqPc := if flags &&& txifMask ≠ 0 then .txClear else dispatchRx flags

/-- The handler's test for errors. -/
def dispatchErr (flags : Byte) : IrqPc := if flags.getLsbD 5 then .errRead else dispatchTx flags

/-- The handler's test for a wake-up. -/
def dispatchWak (flags : Byte) : IrqPc := if flags.getLsbD 6 then .wakClear else dispatchErr flags

/-- The handler's test for a message error. -/
def dispatchMerr (flags : Byte) : IrqPc := if flags.getLsbD 7 then .merrMode else dispatchWak flags

/-- The steps of `transmit_message`. -/
def transmitStep (s : CanState) : Option CanState :=
  match s.irq with
  | .txClear =>
    some { s with
      regs := mcp2515BitModify s.regs canintf (txOf s.flags <<< txifShf) 0
      rts := 0
      irq := .txPop 0 }
  | .txPop i =>
    if h : i < txbNum then
      if (txOf s.flags).getLsbD i then
        match s.queues.txQueuePop.1 with
        | some frame =>
          some { s with queues := s.queues.txQueuePop.2, txFrame := frame, irq := .txWait ⟨i, h⟩ }
        | none => some { s with irq := .txStop }
      else some { s with irq := .txPop (i + 1) }
    else some { s with irq := .txRts }
  -- The source reads the register at `TXBCTRL(i) & TXBCTRL_TXREQ`, not that bit of `TXBCTRL(i)`.
  | .txWait i =>
    if mcp2515ReadReg s.regs (txbctrl i &&& txbctrlTxreq) ≠ 0 then some s
    else some { s with irq := .txLoad i }
  | .txLoad i =>
    (loadTxbBuf s.txFrame).map fun buf =>
      { s with
        regs := mcp2515LoadTxb s.regs buf (s.txFrame.dlc.toNat + dat) i
        irq := .txPrio i }
  | .txPrio i =>
    some { s with
      regs := mcp2515WriteReg s.regs (txbctrl i) (s.txFrame.prio.setWidth 8)
      rts := s.rts ||| bit i
      irq := .txPop (i + 1) }
  | .txStop => if s.txbLock then none else some { s with xmitStopped := true, irq := .txRts }
  | .txRts => some { s with regs := mcp2515Rts s.regs s.rts, irq := dispatchRx s.flags }
  | _ => none

/-- The steps of `report_message_error`, the wake-up branch and `report_error`. -/
def errorStep (s : CanState) : Option CanState :=
  match s.irq with
  | .merrMode =>
    if getMode s.regs = OpMode.listen.value then some { s with irq := .merrConfig }
    else some { s with irq := .merrClear }
  | .merrConfig => some { s with regs := setMode s.regs .config, irq := .merrListen }
  | .merrListen => some { s with regs := setMode s.regs .listen, irq := .merrClear }
  | .merrClear =>
    some { s with
      regs := mcp2515BitModify s.regs canintf (bit 7) 0
      count := s.count - 1
      irq := dispatchWak s.flags }
  | .wakClear =>
    some { s with regs := mcp2515BitModify s.regs canintf (bit 6) 0, irq := dispatchErr s.flags }
  | .errRead =>
    let overflows := mcp2515ReadReg s.regs eflg &&& (bit 6 ||| bit 7)
    if overflows ≠ 0 then some { s with irq := .errOverflow overflows }
    else some { s with irq := .errClear }
  | .errOverflow overflows =>
    some { s with regs := mcp2515BitModify s.regs eflg overflows 0, irq := .errClear }
  | .errClear =>
    some { s with regs := mcp2515BitModify s.regs canintf (bit 5) 0, irq := dispatchTx s.flags }
  | _ => none

/-- The steps of `receive_message`. -/
def receiveStep (reader : Spi.RxbReader) (s : CanState) : Option (CanEvent × CanState) :=
  match s.irq with
  | .rxRead n =>
    let r := reader.read s.regs n maxBufLen
    (recvRxb s.rxFrame r.1).map fun frame =>
      (.silent, { s with regs := r.2, rxFrame := frame, buf := r.1, irq := .rxPush n })
  | .rxPush n =>
    let r := s.queues.rxQueuePush s.rxFrame
    some (.passed n s.buf s.rxFrame r.1,
      { s with queues := r.2, irq := if n = 0 then receiveSecond s.flags else .rxAck })
  | .rxAck =>
    some (.silent, { s with
      regs := mcp2515BitModify s.regs canintf (s.flags &&& rxifMask) 0, irq := .finish })
  | _ => none

/-- One step of the interrupt thread in `irq_handler`. -/
def irqStep (reader : Spi.RxbReader) (s : CanState) : Option (CanEvent × CanState) :=
  match s.irq with
  | .idle => none
  | .readFlags =>
    let flags := mcp2515ReadReg s.regs canintf
    some (.silent, { s with flags := flags, irq := dispatchMerr flags })
  | .merrMode | .merrConfig | .merrListen | .merrClear | .wakClear | .errRead | .errOverflow _
  | .errClear => (errorStep s).map fun t => (.silent, t)
  | .txClear | .txPop _ | .txWait _ | .txLoad _ | .txPrio _ | .txStop | .txRts =>
    (transmitStep s).map fun t => (.silent, t)
  | .rxRead _ | .rxPush _ | .rxAck => receiveStep reader s
  | .finish =>
    some (.silent, { s with
      regs := if s.count ≤ 0 then mcp2515WriteReg s.regs caninte 0 else s.regs, irq := .idle })

/-- The error branches of the handler. -/
def inErrorBranch : IrqPc → Bool
  | .merrMode | .merrConfig | .merrListen | .merrClear | .wakClear | .errRead | .errOverflow _
  | .errClear => true
  | _ => false

/-- After a wake-up the handler is in the last error branch or past all of them. -/
theorem dispatchErr_cases (flags : Byte) :
    inErrorBranch (dispatchErr flags) = true ∨ dispatchErr flags = dispatchTx flags := by
  unfold dispatchErr
  split
  · exact Or.inl rfl
  · exact Or.inr rfl

/-- After a message error the handler is in another error branch or past all of them. -/
theorem dispatchWak_cases (flags : Byte) :
    inErrorBranch (dispatchWak flags) = true ∨ dispatchWak flags = dispatchTx flags := by
  unfold dispatchWak
  split
  · exact Or.inl rfl
  · exact dispatchErr_cases flags

/-- After reading the flags the handler is in an error branch or past all of them. -/
theorem dispatchMerr_cases (flags : Byte) :
    inErrorBranch (dispatchMerr flags) = true ∨ dispatchMerr flags = dispatchTx flags := by
  unfold dispatchMerr
  split
  · exact Or.inl rfl
  · exact dispatchWak_cases flags

/-- A step of the handler is one of the three functions, or its first or last one. -/
theorem irqStep_cases {reader : Spi.RxbReader} {s t : CanState} {event : CanEvent}
    (hstep : irqStep reader s = some (event, t)) :
    (errorStep s = some t ∧ event = .silent) ∨ (transmitStep s = some t ∧ event = .silent) ∨
      receiveStep reader s = some (event, t) ∨
      (s.irq = .readFlags ∧ event = .silent ∧
        t = { s with flags := s.regs canintf, irq := dispatchMerr (s.regs canintf) }) ∨
      (s.irq = .finish ∧ event = .silent ∧ t = { s with
        regs := if s.count ≤ 0 then mcp2515WriteReg s.regs caninte 0 else s.regs, irq := .idle }) := by
  have hsilent (step : Option CanState)
      (hmap : step.map (fun u => (CanEvent.silent, u)) = some (event, t)) :
      step = some t ∧ event = .silent := by
    obtain ⟨u, hu, hafter⟩ := Option.map_eq_some_iff.mp hmap
    obtain ⟨rfl, rfl⟩ := Prod.mk.inj hafter
    exact ⟨hu, rfl⟩
  unfold irqStep at hstep
  split at hstep
  · exact absurd hstep (by simp)
  next hirq =>
    obtain ⟨rfl, rfl⟩ := Prod.mk.inj (Option.some.inj hstep)
    exact Or.inr (Or.inr (Or.inr (Or.inl ⟨hirq, rfl, rfl⟩)))
  all_goals first
    | exact Or.inr (Or.inr (Or.inl hstep))
    | exact Or.inl (hsilent _ hstep)
    | exact Or.inr (Or.inl (hsilent _ hstep))
    | skip
  next hirq =>
    obtain ⟨rfl, rfl⟩ := Prod.mk.inj (Option.some.inj hstep)
    exact Or.inr (Or.inr (Or.inr (Or.inr ⟨hirq, rfl, rfl⟩)))

/-- A step of the component or its controller. A call of `can_try_recv` tests the receive queue, and
`rxRemove` is its locked part. -/
inductive CanLabel
  | canSend (thread : ℕ) (frame : CanFrame)
  | client (thread : ℕ)
  | canTryRecv (thread : ℕ)
  | rxRemove (thread : ℕ)
  | interrupt (txFrame rxFrame : CanFrame)
  | irq
  | complete (n : Fin txbNum)
  | arrive (n : Fin 2) (image : Bytes maxBufLen)
  | fault (bits errors : Byte)

/-- One step. The controller completes a requested transmission, stores a frame in a receive
buffer whose flag is clear, or raises one of the other flags. -/
def componentStep (reader : Spi.RxbReader) (s : CanState) : CanLabel → Option (CanEvent × CanState)
  | .canSend thread frame =>
    if s.clients thread = .idle then some (.silent, s.setClient thread (.testFull frame)) else none
  | .client thread => (clientStep s thread).map fun t => (.silent, t)
  | .canTryRecv thread =>
    if s.receivers thread = .idle then
      if mqIsEmpty (s.queues.cbs .rxq) then some (.received none, s)
      else some (.silent, s.setReceiver thread .remove)
    else none
  | .rxRemove thread =>
    if s.receivers thread = .remove then
      some (.received (some (s.queues.remove .rxq).1),
        { s with queues := (s.queues.remove .rxq).2 }.setReceiver thread .idle)
    else none
  | .interrupt txFrame rxFrame =>
    if s.irq = .idle then
      some (.silent, { s with txFrame := txFrame, rxFrame := rxFrame, irq := .readFlags })
    else none
  | .irq => irqStep reader s
  | .complete n =>
    if mcp2515ReadReg s.regs (txbctrl n) &&& txbctrlTxreq ≠ 0 then
      some (.silent, { s with
        regs := mcp2515BitModify (mcp2515BitModify s.regs (txbctrl n) txbctrlTxreq 0) canintf
          (canintfTx0if <<< n.val) 0xFF })
    else none
  | .arrive n image =>
    if mcp2515ReadReg s.regs canintf &&& bit n = 0 then
      some (.stored n image, { s with
        regs := mcp2515BitModify (mcp2515WriteNregs s.regs (rxbsidh n) image) canintf (bit n) 0xFF })
    else none
  | .fault bits errors =>
    some (.silent, { s with
      regs := mcp2515BitModify (mcp2515WriteReg s.regs eflg errors) canintf
        (bits &&& (bit 5 ||| bit 6 ||| bit 7)) 0xFF })

/-- One step of the component of the source. -/
abbrev canStep : CanState → CanLabel → Option (CanEvent × CanState) := componentStep Spi.codeReader

/-- The component with cleared registers. -/
def idleComponent : CanState := .start (fun _ => 0) deviceQueues (sampleFrame 0)

/-- The handler is entered and takes the given number of steps. -/
def irqSteps (steps : ℕ) : List CanLabel :=
  .interrupt (sampleFrame 0) (sampleFrame 0) :: List.replicate steps .irq

end CamkesVm.Can
