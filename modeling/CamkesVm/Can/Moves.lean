import CamkesVm.Can.Component

/-!
# What a step of the component can do

Each branch of the step functions is one move: where the thread is, which test it has passed, and the
state after it. What is to be shown of every step is shown of every move, with the step functions taken
apart here once.
-/

namespace CamkesVm.Can

open CamkesVm.Machine

/-- The moves of a client thread in `can_send`. -/
inductive ClientMove (s : CanState) (thread : ℕ) : CanState → Prop
  | full {frame : CanFrame} (hpc : s.clients thread = .testFull frame)
      (hfull : mqIsFull (s.queues.cbs .txq) = true) :
      ClientMove s thread (s.setClient thread (.startXmit frame (-1)))
  | room {frame : CanFrame} (hpc : s.clients thread = .testFull frame)
      (hroom : mqIsFull (s.queues.cbs .txq) = false) :
      ClientMove s thread (s.setClient thread (.append frame))
  | append {frame : CanFrame} (hpc : s.clients thread = .append frame) :
      ClientMove s thread
        ({ s with queues := s.queues.append .txq frame }.setClient thread (.startXmit frame 0))
  | stopped {frame : CanFrame} {ret : ℤ} (hpc : s.clients thread = .startXmit frame ret)
      (hstopped : s.xmitStopped = true) :
      ClientMove s thread (s.setClient thread (.lockTxb frame ret))
  | running {frame : CanFrame} {ret : ℤ} (hpc : s.clients thread = .startXmit frame ret)
      (hrunning : s.xmitStopped = false) :
      ClientMove s thread (s.setClient thread (loopSend frame ret))
  | lock {frame : CanFrame} {ret : ℤ} (hpc : s.clients thread = .lockTxb frame ret)
      (hfree : s.txbLock = false) :
      ClientMove s thread ({ s with txbLock := true }.setClient thread (.scan frame ret 0))
  | found {frame : CanFrame} {ret : ℤ} {i : ℕ} (hpc : s.clients thread = .scan frame ret i)
      (hi : i < txbNum) (hreq : mcp2515ReadReg s.regs (txbctrl i) &&& txbctrlTxreq = 0) :
      ClientMove s thread (s.setClient thread (.trigger frame ret ⟨i, hi⟩))
  | busy {frame : CanFrame} {ret : ℤ} {i : ℕ} (hpc : s.clients thread = .scan frame ret i)
      (hi : i < txbNum) (hreq : mcp2515ReadReg s.regs (txbctrl i) &&& txbctrlTxreq ≠ 0) :
      ClientMove s thread (s.setClient thread (.scan frame ret (i + 1)))
  | unlock {frame : CanFrame} {ret : ℤ} {i : ℕ} (hpc : s.clients thread = .scan frame ret i)
      (hi : ¬ i < txbNum) :
      ClientMove s thread ({ s with txbLock := false }.setClient thread (loopSend frame ret))
  | trigger {frame : CanFrame} {ret : ℤ} {i : Fin txbNum}
      (hpc : s.clients thread = .trigger frame ret i) :
      ClientMove s thread
        ({ s with
          regs := mcp2515BitModify s.regs canintf (canintfTx0if <<< i.val) 0xFF }.setClient
            thread (.mark frame ret i))
  | mark {frame : CanFrame} {ret : ℤ} {i : Fin txbNum} (hpc : s.clients thread = .mark frame ret i) :
      ClientMove s thread
        ({ s with xmitStopped := false }.setClient thread (.scan frame ret (i + 1)))

/-- The moves of the handler in `transmit_message`. -/
inductive TransmitMove (s : CanState) : CanState → Prop
  | clear (hirq : s.irq = .txClear) :
      TransmitMove s { s with
        regs := mcp2515BitModify s.regs canintf (txOf s.flags <<< txifShf) 0
        rts := 0
        irq := .txPop 0 }
  | pop {i : ℕ} {frame : CanFrame} (hirq : s.irq = .txPop i) (hi : i < txbNum)
      (hready : (txOf s.flags).getLsbD i = true) (hpop : s.queues.txQueuePop.1 = some frame) :
      TransmitMove s { s with
        queues := s.queues.txQueuePop.2
        txFrame := frame
        irq := .txWait ⟨i, hi⟩ }
  | empty {i : ℕ} (hirq : s.irq = .txPop i) (hi : i < txbNum)
      (hready : (txOf s.flags).getLsbD i = true) (hpop : s.queues.txQueuePop.1 = none) :
      TransmitMove s { s with irq := .txStop }
  | skip {i : ℕ} (hirq : s.irq = .txPop i) (hi : i < txbNum)
      (hready : (txOf s.flags).getLsbD i = false) :
      TransmitMove s { s with irq := .txPop (i + 1) }
  | last {i : ℕ} (hirq : s.irq = .txPop i) (hi : ¬ i < txbNum) :
      TransmitMove s { s with irq := .txRts }
  | wait {i : Fin txbNum} (hirq : s.irq = .txWait i)
      (hbusy : mcp2515ReadReg s.regs (txbctrl i &&& txbctrlTxreq) ≠ 0) : TransmitMove s s
  | ready {i : Fin txbNum} (hirq : s.irq = .txWait i)
      (hfree : mcp2515ReadReg s.regs (txbctrl i &&& txbctrlTxreq) = 0) :
      TransmitMove s { s with irq := .txLoad i }
  | load {i : Fin txbNum} {buf : Bytes maxBufLen} (hirq : s.irq = .txLoad i)
      (hbuf : loadTxbBuf s.txFrame = some buf) :
      TransmitMove s { s with
        regs := mcp2515LoadTxb s.regs buf (s.txFrame.dlc.toNat + dat) i
        irq := .txPrio i }
  | prio {i : Fin txbNum} (hirq : s.irq = .txPrio i) :
      TransmitMove s { s with
        regs := mcp2515WriteReg s.regs (txbctrl i) (s.txFrame.prio.setWidth 8)
        rts := s.rts ||| bit i
        irq := .txPop (i + 1) }
  | stop (hirq : s.irq = .txStop) (hfree : s.txbLock = false) :
      TransmitMove s { s with xmitStopped := true, irq := .txRts }
  | rts (hirq : s.irq = .txRts) :
      TransmitMove s { s with regs := mcp2515Rts s.regs s.rts, irq := dispatchRx s.flags }

/-- The moves of the handler in `receive_message`. -/
inductive ReceiveMove (reader : Spi.RxbReader) (s : CanState) : CanEvent → CanState → Prop
  | read {n : Fin 2} {frame : CanFrame} (hirq : s.irq = .rxRead n)
      (hframe : recvRxb s.rxFrame (reader.read s.regs n maxBufLen).1 = some frame) :
      ReceiveMove reader s .silent { s with
        regs := (reader.read s.regs n maxBufLen).2
        rxFrame := frame
        buf := (reader.read s.regs n maxBufLen).1
        irq := .rxPush n }
  | push {n : Fin 2} (hirq : s.irq = .rxPush n) :
      ReceiveMove reader s (.passed n s.buf s.rxFrame (s.queues.rxQueuePush s.rxFrame).1) { s with
        queues := (s.queues.rxQueuePush s.rxFrame).2
        irq := if n = 0 then receiveSecond s.flags else .rxAck }
  | ack (hirq : s.irq = .rxAck) :
      ReceiveMove reader s .silent { s with
        regs := mcp2515BitModify s.regs canintf (s.flags &&& rxifMask) 0
        irq := .finish }

/-- The moves of the component and its controller. -/
inductive CanMove (reader : Spi.RxbReader) (s : CanState) : CanLabel → CanEvent → CanState → Prop
  | canSend {thread : ℕ} {frame : CanFrame} (hidle : s.clients thread = .idle) :
      CanMove reader s (.canSend thread frame) .silent (s.setClient thread (.testFull frame))
  | client {thread : ℕ} {t : CanState} (hmove : ClientMove s thread t) :
      CanMove reader s (.client thread) .silent t
  | noFrame {thread : ℕ} (hidle : s.receivers thread = .idle)
      (hempty : mqIsEmpty (s.queues.cbs .rxq) = true) :
      CanMove reader s (.canTryRecv thread) (.received none) s
  | canTryRecv {thread : ℕ} (hidle : s.receivers thread = .idle)
      (hframes : mqIsEmpty (s.queues.cbs .rxq) = false) :
      CanMove reader s (.canTryRecv thread) .silent (s.setReceiver thread .remove)
  | rxRemove {thread : ℕ} (hpc : s.receivers thread = .remove) :
      CanMove reader s (.rxRemove thread) (.received (some (s.queues.remove .rxq).1))
        ({ s with queues := (s.queues.remove .rxq).2 }.setReceiver thread .idle)
  | interrupt {txFrame rxFrame : CanFrame} (hidle : s.irq = .idle) :
      CanMove reader s (.interrupt txFrame rxFrame) .silent
        { s with txFrame := txFrame, rxFrame := rxFrame, irq := .readFlags }
  | irq {event : CanEvent} {t : CanState} (hstep : irqStep reader s = some (event, t)) :
      CanMove reader s .irq event t
  | complete {n : Fin txbNum} (hreq : mcp2515ReadReg s.regs (txbctrl n) &&& txbctrlTxreq ≠ 0) :
      CanMove reader s (.complete n) .silent { s with
        regs := mcp2515BitModify (mcp2515BitModify s.regs (txbctrl n) txbctrlTxreq 0) canintf
          (canintfTx0if <<< n.val) 0xFF }
  | arrive {n : Fin 2} {image : Bytes maxBufLen} (hfree : mcp2515ReadReg s.regs canintf &&& bit n = 0) :
      CanMove reader s (.arrive n image) (.stored n image) { s with
        regs := mcp2515BitModify (mcp2515WriteNregs s.regs (rxbsidh n) image) canintf (bit n) 0xFF }
  | fault {bits errors : Byte} :
      CanMove reader s (.fault bits errors) .silent { s with
        regs := mcp2515BitModify (mcp2515WriteReg s.regs eflg errors) canintf
          (bits &&& (bit 5 ||| bit 6 ||| bit 7)) 0xFF }

section Steps

variable {reader : Spi.RxbReader} {s t : CanState} {event : CanEvent}

/-- Every step of a client thread is one of its moves. -/
theorem clientMove_of_clientStep {thread : ℕ} (hstep : clientStep s thread = some t) :
    ClientMove s thread t := by
  unfold clientStep at hstep
  split at hstep
  · exact absurd hstep (by simp)
  next frame hpc =>
    split at hstep <;> obtain rfl := Option.some.inj hstep
    next hfull => exact .full hpc hfull
    next hroom => exact .room hpc (Bool.eq_false_iff.mpr hroom)
  next frame hpc =>
    obtain rfl := Option.some.inj hstep
    exact .append hpc
  next frame ret hpc =>
    split at hstep <;> obtain rfl := Option.some.inj hstep
    next hstopped => exact .stopped hpc hstopped
    next hrunning => exact .running hpc (Bool.eq_false_iff.mpr hrunning)
  next frame ret hpc =>
    split at hstep
    · exact absurd hstep (by simp)
    next hfree =>
      obtain rfl := Option.some.inj hstep
      exact .lock hpc (Bool.eq_false_iff.mpr hfree)
  next frame ret i hpc =>
    split at hstep
    next hi =>
      split at hstep <;> obtain rfl := Option.some.inj hstep
      next hreq => exact .found hpc hi hreq
      next hreq => exact .busy hpc hi hreq
    next hi =>
      obtain rfl := Option.some.inj hstep
      exact .unlock hpc hi
  next frame ret i hpc =>
    obtain rfl := Option.some.inj hstep
    exact .trigger hpc
  next frame ret i hpc =>
    obtain rfl := Option.some.inj hstep
    exact .mark hpc

/-- Every step of `transmit_message` is one of its moves. -/
theorem transmitMove_of_transmitStep (hstep : transmitStep s = some t) : TransmitMove s t := by
  unfold transmitStep at hstep
  split at hstep
  next hirq =>
    obtain rfl := Option.some.inj hstep
    exact .clear hirq
  next i hirq =>
    split at hstep
    next hi =>
      split at hstep
      next hready =>
        split at hstep <;> obtain rfl := Option.some.inj hstep
        next frame hpop => exact .pop hirq hi hready hpop
        next hpop => exact .empty hirq hi hready hpop
      next hready =>
        obtain rfl := Option.some.inj hstep
        exact .skip hirq hi (Bool.eq_false_iff.mpr hready)
    next hi =>
      obtain rfl := Option.some.inj hstep
      exact .last hirq hi
  next i hirq =>
    split at hstep <;> obtain rfl := Option.some.inj hstep
    next hbusy => exact .wait hirq hbusy
    next hfree => exact .ready hirq (Classical.not_not.mp hfree)
  next i hirq =>
    obtain ⟨buf, hbuf, rfl⟩ := Option.map_eq_some_iff.mp hstep
    exact .load hirq hbuf
  next i hirq =>
    obtain rfl := Option.some.inj hstep
    exact .prio hirq
  next hirq =>
    split at hstep
    · exact absurd hstep (by simp)
    next hfree =>
      obtain rfl := Option.some.inj hstep
      exact .stop hirq (Bool.eq_false_iff.mpr hfree)
  next hirq =>
    obtain rfl := Option.some.inj hstep
    exact .rts hirq
  · exact absurd hstep (by simp)

/-- The moves of `transmit_message` are its steps. -/
theorem transmitStep_of_transmitMove (hmove : TransmitMove s t) : transmitStep s = some t := by
  unfold transmitStep
  cases hmove with
  | clear hirq => rw [hirq]
  | pop hirq hi hready hpop => simp only [hirq, dif_pos hi, hready, if_true, hpop]
  | empty hirq hi hready hpop => simp only [hirq, dif_pos hi, hready, if_true, hpop]
  | skip hirq hi hready => simp only [hirq, dif_pos hi, hready, Bool.false_eq_true, if_false]
  | last hirq hi => simp only [hirq, dif_neg hi]
  | wait hirq hbusy => simp only [hirq, if_pos hbusy]
  | ready hirq hfree => simp only [hirq, hfree, ne_eq, not_true_eq_false, if_false]
  | load hirq hbuf => simp only [hirq, hbuf, Option.map_some]
  | prio hirq => simp only [hirq]
  | stop hirq hfree => simp only [hirq, hfree, Bool.false_eq_true, if_false]
  | rts hirq => simp only [hirq]

/-- Every step of `receive_message` is one of its moves. -/
theorem receiveMove_of_receiveStep (hstep : receiveStep reader s = some (event, t)) :
    ReceiveMove reader s event t := by
  unfold receiveStep at hstep
  split at hstep
  next n hirq =>
    obtain ⟨frame, hframe, hafter⟩ := Option.map_eq_some_iff.mp hstep
    obtain ⟨rfl, rfl⟩ := Prod.mk.inj hafter
    exact .read hirq hframe
  next n hirq =>
    obtain ⟨rfl, rfl⟩ := Prod.mk.inj (Option.some.inj hstep)
    exact .push hirq
  next hirq =>
    obtain ⟨rfl, rfl⟩ := Prod.mk.inj (Option.some.inj hstep)
    exact .ack hirq
  · exact absurd hstep (by simp)

/-- Every step of the component or its controller is one of their moves. -/
theorem canMove_of_componentStep {label : CanLabel}
    (hstep : componentStep reader s label = some (event, t)) : CanMove reader s label event t := by
  cases label with
  | canSend thread frame =>
    simp only [componentStep, Option.ite_none_right_eq_some, Option.some.injEq, Prod.mk.injEq] at hstep
    obtain ⟨hidle, rfl, rfl⟩ := hstep
    exact .canSend hidle
  | client thread =>
    obtain ⟨u, hu, hafter⟩ := Option.map_eq_some_iff.mp hstep
    obtain ⟨rfl, rfl⟩ := Prod.mk.inj hafter
    exact .client (clientMove_of_clientStep hu)
  | canTryRecv thread =>
    simp only [componentStep, Option.ite_none_right_eq_some] at hstep
    obtain ⟨hidle, hstep⟩ := hstep
    split at hstep <;> obtain ⟨rfl, rfl⟩ := Prod.mk.inj (Option.some.inj hstep)
    next hempty => exact .noFrame hidle hempty
    next hframes => exact .canTryRecv hidle (Bool.eq_false_iff.mpr hframes)
  | rxRemove thread =>
    simp only [componentStep, Option.ite_none_right_eq_some, Option.some.injEq, Prod.mk.injEq] at hstep
    obtain ⟨hpc, rfl, rfl⟩ := hstep
    exact .rxRemove hpc
  | interrupt txFrame rxFrame =>
    simp only [componentStep, Option.ite_none_right_eq_some, Option.some.injEq, Prod.mk.injEq] at hstep
    obtain ⟨hidle, rfl, rfl⟩ := hstep
    exact .interrupt hidle
  | irq => exact .irq hstep
  | complete n =>
    simp only [componentStep, Option.ite_none_right_eq_some, Option.some.injEq, Prod.mk.injEq] at hstep
    obtain ⟨hreq, rfl, rfl⟩ := hstep
    exact .complete hreq
  | arrive n image =>
    simp only [componentStep, Option.ite_none_right_eq_some, Option.some.injEq, Prod.mk.injEq] at hstep
    obtain ⟨hfree, rfl, rfl⟩ := hstep
    exact .arrive hfree
  | fault bits errors =>
    obtain ⟨rfl, rfl⟩ := Prod.mk.inj (Option.some.inj hstep)
    exact .fault

end Steps

end CamkesVm.Can
