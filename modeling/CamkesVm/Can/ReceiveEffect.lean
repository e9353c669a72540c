import CamkesVm.Can.Flags
import CamkesVm.Can.Moves

/-!
# What a step means for the receive side

The handler reads the flags once, drains the receive buffers whose flags were up, pushes what it
read, and acknowledges both flags at the end. Every step of the component either leaves all of
this alone or is one of seven: the snapshot, a read, a push, the acknowledgement, an arrival, or a
client that finds no frame or removes one.
-/

namespace CamkesVm.Can

open CamkesVm.Machine

/-- The frame of a receive buffer that the handler has read and not yet pushed. -/
def inHand (irq : IrqPc) (buf : Bytes maxBufLen) (n : Fin 2) : List (Bytes maxBufLen) :=
  match irq with
  | .rxPush m => if m = n then [buf] else []
  | _ => []

/-- The handler has seen the flag of the buffer and not read the buffer yet. -/
def AwaitsRead (irq : IrqPc) (flags : Byte) (n : Fin 2) : Prop :=
  match irq with
  | .idle | .readFlags | .rxAck | .finish => False
  | .rxRead m => n = m ∨ (m < n ∧ flags.getLsbD n = true)
  | .rxPush m => m < n ∧ flags.getLsbD n = true
  | _ => flags.getLsbD n = true

/-- The handler has read the buffer and not acknowledged its flag yet. -/
def drained (irq : IrqPc) (flags : Byte) (n : Fin 2) : Bool :=
  flags.getLsbD n && match irq with
    | .rxRead m => n < m
    | .rxPush m => n ≤ m
    | .rxAck => true
    | _ => false

/-- The handler is in a function that it calls before `receive_message`. -/
def beforeReceive : IrqPc → Bool
  | .idle | .readFlags | .rxRead _ | .rxPush _ | .rxAck | .finish => false
  | _ => true

section Handler

variable {irq : IrqPc} {flags : Byte}

/-- The handler is before `receive_message`, enters it, or has nothing to receive. -/
def HeadsForReceive (irq : IrqPc) (flags : Byte) : Prop :=
  beforeReceive irq = true ∨ irq = dispatchRx flags

/-- The error branches come before `receive_message`. -/
theorem beforeReceive_of_inErrorBranch (h : inErrorBranch irq = true) : beforeReceive irq = true := by
  cases irq <;> first | rfl | exact absurd h Bool.false_ne_true

/-- Behind the tests for errors the handler heads for `receive_message`. -/
theorem headsForReceive_dispatchTx (flags : Byte) : HeadsForReceive (dispatchTx flags) flags := by
  unfold dispatchTx
  split
  · exact Or.inl rfl
  · exact Or.inr rfl

/-- So it does in the branches themselves. -/
theorem headsForReceive_of_inErrorBranch_or
    (h : inErrorBranch irq = true ∨ irq = dispatchTx flags) : HeadsForReceive irq flags := by
  obtain hbranch | rfl := h
  · exact Or.inl (beforeReceive_of_inErrorBranch hbranch)
  · exact headsForReceive_dispatchTx flags

/-- Before `receive_message` all buffers of the snapshot wait to be read, nothing is in hand and
nothing has been drained. -/
theorem beforeReceive_spec (h : beforeReceive irq = true) (flags : Byte) (n : Fin 2) :
    (AwaitsRead irq flags n ↔ flags.getLsbD n = true) ∧ irq ≠ .rxPush n ∧
      drained irq flags n = false := by
  cases irq <;> first
    | exact ⟨Iff.rfl, IrqPc.noConfusion, Bool.and_false _⟩
    | exact absurd h (by simp [beforeReceive])

/-- The same on entering `receive_message`, where the buffers wait that the source tests for. -/
theorem dispatchRx_spec (flags : Byte) (n : Fin 2) :
    (AwaitsRead (dispatchRx flags) flags n → flags.getLsbD n = true) ∧
      dispatchRx flags ≠ .rxPush n ∧ drained (dispatchRx flags) flags n = false := by
  unfold dispatchRx receiveFirst receiveSecond
  split_ifs with hrx hfirst hsecond
  · refine ⟨?_, IrqPc.noConfusion, by simp [drained]⟩
    rintro (rfl | ⟨_, hbit⟩)
    · exact hfirst
    · exact hbit
  · refine ⟨?_, IrqPc.noConfusion, ?_⟩
    · rintro (rfl | ⟨_, hbit⟩)
      · exact hsecond
      · exact hbit
    · fin_cases n <;> simp_all [drained]
  · refine ⟨False.elim, IrqPc.noConfusion, ?_⟩
    fin_cases n <;> simp_all [drained]
  · exact ⟨False.elim, IrqPc.noConfusion, Bool.and_false _⟩

/-- What holds before and on entering `receive_message`, for both. -/
theorem HeadsForReceive.spec (h : HeadsForReceive irq flags) (n : Fin 2) :
    (AwaitsRead irq flags n → flags.getLsbD n = true) ∧ irq ≠ .rxPush n ∧
      drained irq flags n = false := by
  obtain hbefore | rfl := h
  · exact (beforeReceive_spec hbefore flags n).imp_left Iff.mp
  · exact dispatchRx_spec flags n

/-- After a push nothing is in hand, and the other buffer waits or is drained as before. -/
theorem afterPush_spec (flags : Byte) (m n : Fin 2) :
    let next := if m = 0 then receiveSecond flags else .rxAck
    (AwaitsRead next flags n → AwaitsRead (.rxPush m) flags n) ∧ next ≠ .rxPush n ∧
      (drained next flags n = true → drained (.rxPush m) flags n = true) := by
  match m with
  | 0 =>
    simp only [receiveSecond, ↓reduceIte]
    split_ifs with hsecond
    · fin_cases n <;> simp [AwaitsRead, drained, hsecond]
    · refine ⟨False.elim, IrqPc.noConfusion, ?_⟩
      fin_cases n <;> simp_all [drained]
  | 1 =>
    refine ⟨False.elim, IrqPc.noConfusion, ?_⟩
    fin_cases n <;> simp [drained]

/-- A handler that is not about to push has nothing in hand. -/
theorem inHand_eq_nil {n : Fin 2} (h : irq ≠ .rxPush n) (buf : Bytes maxBufLen) :
    inHand irq buf n = [] := by
  unfold inHand
  split
  · exact if_neg (by rintro rfl; exact h rfl)
  · rfl

end Handler

section Steps

variable {reader : Spi.RxbReader} {s t : CanState}

/-- A step that changes neither the receive view nor the receive queue, and makes no buffer wait or
count as drained that did not before. -/
structure RxQuiet (s t : CanState) : Prop where
  view : rxView t.regs = rxView s.regs
  queue : t.queues.contents .rxq = s.queues.contents .rxq
  push : ∀ n, t.irq = .rxPush n ↔ s.irq = .rxPush n
  awaits : ∀ n, AwaitsRead t.irq t.flags n → AwaitsRead s.irq s.flags n
  drains : ∀ n, drained t.irq t.flags n = true → drained s.irq s.flags n = true
  hand : ∀ n, t.irq = .rxPush n → t.rxFrame = s.rxFrame ∧ t.buf = s.buf

/-- A quiet step leaves what is in hand. -/
theorem RxQuiet.inHand_eq (h : RxQuiet s t) (n : Fin 2) :
    inHand t.irq t.buf n = inHand s.irq s.buf n := by
  by_cases hpush : t.irq = .rxPush n
  · rw [hpush, (h.push n).mp hpush, (h.hand n hpush).2]
  · rw [inHand_eq_nil hpush, inHand_eq_nil (mt (h.push n).mpr hpush)]

/-- A step of another thread or the controller. -/
theorem RxQuiet.of_other (hirq : t.irq = s.irq) (hflags : t.flags = s.flags)
    (hframe : t.rxFrame = s.rxFrame) (hbuf : t.buf = s.buf) (hview : rxView t.regs = rxView s.regs)
    (hqueue : t.queues.contents .rxq = s.queues.contents .rxq) : RxQuiet s t where
  view := hview
  queue := hqueue
  push _ := by rw [hirq]
  awaits _ := by rw [hirq, hflags]; exact id
  drains _ := by rw [hirq, hflags]; exact id
  hand _ _ := ⟨hframe, hbuf⟩

/-- A step of the handler before `receive_message`. -/
theorem RxQuiet.of_heading (hirq : beforeReceive s.irq = true) (hflags : t.flags = s.flags)
    (hheads : HeadsForReceive t.irq s.flags) (hview : rxView t.regs = rxView s.regs)
    (hqueue : t.queues.contents .rxq = s.queues.contents .rxq) : RxQuiet s t where
  view := hview
  queue := hqueue
  push n := iff_of_false (hheads.spec n).2.1 (beforeReceive_spec hirq s.flags n).2.1
  awaits n hn := (beforeReceive_spec hirq s.flags n).1.mpr ((hheads.spec n).1 (hflags ▸ hn))
  drains n hn := by
    rw [hflags, (hheads.spec n).2.2] at hn
    exact absurd hn (by simp)
  hand n hpush := absurd hpush (hheads.spec n).2.1

/-- The error branches of the handler are quiet. -/
theorem errorStep_rxQuiet (hstep : errorStep s = some t) : RxQuiet s t := by
  obtain ⟨hbranch, regs, count, irq, rfl, hviews, hirq⟩ := errorStep_cases hstep
  exact .of_heading (beforeReceive_of_inErrorBranch hbranch) rfl
    (headsForReceive_of_inErrorBranch_or hirq) hviews.2 rfl

/-- The moves of `transmit_message` are quiet. -/
theorem transmitMove_rxQuiet (hmove : TransmitMove s t) : RxQuiet s t := by
  cases hmove with
  | clear hirq => exact .of_heading (hirq ▸ rfl) rfl (Or.inl rfl) (rxView_clear_txif _) rfl
  | pop hirq =>
    exact .of_heading (hirq ▸ rfl) rfl (Or.inl rfl) rfl (MessageQueues.contents_pop_other (by decide))
  | empty hirq | skip hirq | last hirq | ready hirq | stop hirq =>
    exact .of_heading (hirq ▸ rfl) rfl (Or.inl rfl) rfl rfl
  | wait hirq => exact .of_heading (hirq ▸ rfl) rfl (Or.inl (hirq ▸ rfl)) rfl rfl
  | @load i buf hirq => exact .of_heading (hirq ▸ rfl) rfl (Or.inl rfl) (views_loadTxb _ _ i).2 rfl
  | @prio i hirq => exact .of_heading (hirq ▸ rfl) rfl (Or.inl rfl) (rxView_update_txbctrl i _) rfl
  | rts hirq => exact .of_heading (hirq ▸ rfl) rfl (Or.inr rfl) (rxView_rts _ _) rfl

/-- A move of a client thread is quiet. -/
theorem clientMove_rxQuiet {thread : ℕ} (hmove : ClientMove s thread t) : RxQuiet s t := by
  cases hmove with
  | @append frame =>
    exact .of_other rfl rfl rfl rfl rfl (MessageQueues.contents_append_other frame (by decide))
  | @trigger _ _ i => exact .of_other rfl rfl rfl rfl (rxView_raise i) rfl
  | full | room | stopped | running | lock | found | busy | unlock | mark =>
    exact .of_other rfl rfl rfl rfl rfl rfl

/-- What a step does on the receive side. -/
inductive RxEffect (reader : Spi.RxbReader) (s : CanState) : CanLabel → CanEvent → CanState → Prop
  | quiet {label : CanLabel} {t : CanState} (h : RxQuiet s t) : RxEffect reader s label .silent t
  | readFlags (hirq : s.irq = .readFlags) : RxEffect reader s .irq .silent
      { s with flags := s.regs canintf, irq := dispatchMerr (s.regs canintf) }
  | rxRead {m : Fin 2} {frame : CanFrame} (hirq : s.irq = .rxRead m)
      (hframe : recvRxb s.rxFrame (reader.read s.regs m maxBufLen).1 = some frame) :
      RxEffect reader s .irq .silent
      { s with
        regs := (reader.read s.regs m maxBufLen).2
        rxFrame := frame
        buf := (reader.read s.regs m maxBufLen).1
        irq := .rxPush m }
  | rxPush {m : Fin 2} (hirq : s.irq = .rxPush m) :
      RxEffect reader s .irq (.passed m s.buf s.rxFrame (s.queues.rxQueuePush s.rxFrame).1)
      { s with
        queues := (s.queues.rxQueuePush s.rxFrame).2
        irq := if m = 0 then receiveSecond s.flags else .rxAck }
  | rxAck (hirq : s.irq = .rxAck) : RxEffect reader s .irq .silent
      { s with regs := mcp2515BitModify s.regs canintf (s.flags &&& rxifMask) 0, irq := .finish }
  | arrive (m : Fin 2) (image : Bytes maxBufLen) (hempty : rxif s.regs m = false) :
      RxEffect reader s (.arrive m image) (.stored m image)
      { s with
        regs := mcp2515BitModify (mcp2515WriteNregs s.regs (rxbsidh m) image) canintf (bit m) 0xFF }
  | noFrame {thread : ℕ} : RxEffect reader s (.canTryRecv thread) (.received none) s
  | receive {thread : ℕ} :
      RxEffect reader s (.rxRemove thread) (.received (some (s.queues.remove .rxq).1))
      ({ s with queues := (s.queues.remove .rxq).2 }.setReceiver thread .idle)

/-- The moves of `receive_message`. -/
theorem receiveMove_rxEffect {event : CanEvent} (hmove : ReceiveMove reader s event t) :
    RxEffect reader s .irq event t := by
  cases hmove with
  | read hirq hframe => exact .rxRead hirq hframe
  | push hirq => exact .rxPush hirq
  | ack hirq => exact .rxAck hirq

/-- The steps of the handler. -/
theorem irqStep_rxEffect {event : CanEvent} (hstep : irqStep reader s = some (event, t)) :
    RxEffect reader s .irq event t := by
  obtain ⟨herror, rfl⟩ | ⟨htransmit, rfl⟩ | hreceive | ⟨hirq, rfl, rfl⟩ | ⟨hirq, rfl, rfl⟩ :=
    irqStep_cases hstep
  · exact .quiet (errorStep_rxQuiet herror)
  · exact .quiet (transmitMove_rxQuiet (transmitMove_of_transmitStep htransmit))
  · exact receiveMove_rxEffect (receiveMove_of_receiveStep hreceive)
  · exact .readFlags hirq
  · refine .quiet ⟨?_, rfl, by simp [hirq], fun _ => False.elim, by simp [drained], by simp⟩
    dsimp only
    split
    · exact (views_update _ (by decide) _).2
    · rfl

/-- Every step of the component has one of these effects. -/
theorem componentStep_rxEffect {label : CanLabel} {event : CanEvent}
    (hstep : componentStep reader s label = some (event, t)) : RxEffect reader s label event t := by
  cases canMove_of_componentStep hstep with
  | canSend | canTryRecv => exact .quiet (.of_other rfl rfl rfl rfl rfl rfl)
  | client hmove => exact .quiet (clientMove_rxQuiet hmove)
  | noFrame => exact .noFrame
  | rxRemove => exact .receive
  | interrupt hidle =>
    exact .quiet ⟨rfl, rfl, by simp [hidle], fun _ => False.elim, by simp [drained], by simp⟩
  | irq hstep => exact irqStep_rxEffect hstep
  | @complete n =>
    exact .quiet (.of_other rfl rfl rfl rfl ((rxView_raise n).trans (rxView_update_txbctrl n _)) rfl)
  | @arrive n image hfree =>
    have hbit : ∀ (flags : Byte) (n : Fin 2), flags &&& bit n = 0 → flags.getLsbD n = false := by
      decide
    exact .arrive n image (hbit _ n hfree)
  | @fault bits errors => exact .quiet (.of_other rfl rfl rfl rfl (views_fault bits errors).2 rfl)

end Steps

end CamkesVm.Can
