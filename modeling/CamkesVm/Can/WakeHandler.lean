import CamkesVm.Can.WakeInvariant

/-!
# The handler and the controller keep queued frames awake

The steps of the interrupt handler and of the controller, one after the other. Two of them need
an argument of their own: the pop that finds the queue empty, and the store behind it. All the
others leave what is pending, or end with the handler still serving the queue.
-/

namespace CamkesVm.Can

open CamkesVm.Machine

variable {reader : Spi.RxbReader} {s t : CanState}

/-- A step of the handler or the controller that also leaves the transmit view. -/
theorem WakeInv.of_view (h : WakeInv s) (hclients : t.clients = s.clients)
    (hlock : t.txbLock = s.txbLock) (hstopped : t.xmitStopped = s.xmitStopped)
    (hqueue : t.queues.contents .txq = s.queues.contents .txq) (hview : txView t.regs = txView s.regs)
    (hserving : Serving s → Serving t) (hwindow : s.irq = .txStop → t.irq = .txStop)
    (hpops : PopSound t) : WakeInv t :=
  h.of_controller hclients hlock hstopped (Or.inl hqueue) (Or.imp (TxPending.of_view hview) hserving)
    hwindow hpops

/-- The handler only goes on to receive with nothing left to transmit. -/
theorem popSound_dispatchRx (hirq : s.irq = dispatchRx s.flags) : PopSound s := by
  unfold PopSound
  rw [hirq]
  unfold dispatchRx receiveFirst receiveSecond
  split_ifs <;> trivial

/-- The handler transmits for at least one buffer. -/
theorem popSound_dispatchTx (hirq : s.irq = dispatchTx s.flags) : PopSound s := by
  by_cases hflags : s.flags &&& txifMask ≠ 0
  · have hbuffer : ∀ flags : Byte, flags &&& txifMask ≠ 0 →
        ∃ k : Fin txbNum, (txOf flags).getLsbD k = true := by decide
    rw [dispatchTx, if_pos hflags] at hirq
    unfold PopSound
    rw [hirq]
    exact hbuffer _ hflags
  · rw [dispatchTx, if_neg hflags] at hirq
    exact popSound_dispatchRx hirq

/-- The error branches of the handler neither serve the queue nor pop from it. -/
theorem inErrorBranch_spec (h : inErrorBranch s.irq = true) :
    ¬ Serving s ∧ s.irq ≠ .txStop ∧ PopSound s := by
  unfold Serving PopSound
  cases hirq : s.irq <;> first
    | exact ⟨id, IrqPc.noConfusion, trivial⟩
    | exact absurd h (by rw [hirq]; exact Bool.false_ne_true)

/-- Behind the tests for errors the handler pops soundly. -/
theorem popSound_of_inErrorBranch_or
    (h : inErrorBranch s.irq = true ∨ s.irq = dispatchTx s.flags) : PopSound s := by
  obtain hbranch | hirq := h
  · exact (inErrorBranch_spec hbranch).2.2
  · exact popSound_dispatchTx hirq

/-- The error branches of the handler keep the invariant. -/
theorem errorStep_wakeInv (h : WakeInv s) (hstep : errorStep s = some t) : WakeInv t := by
  obtain ⟨hbranch, regs, count, irq, rfl, hviews, hirq⟩ := errorStep_cases hstep
  obtain ⟨hserving, hstop, _⟩ := inErrorBranch_spec hbranch
  exact h.of_view rfl rfl rfl rfl hviews.1 (absurd · hserving) (absurd · hstop)
    (popSound_of_inErrorBranch_or hirq)

/-- An empty pop: the queue is empty, and the handler is about to say that it stops. -/
theorem WakeInv.of_empty_pop (h : WakeInv s) (hempty : s.queues.contents .txq = []) :
    WakeInv { s with irq := .txStop } where
  lock := h.lock
  pops := trivial
  served := fun hne => absurd hempty hne
  running := fun _ => Or.inr rfl

/-- The store that says that transmission has stopped: no client is about to say otherwise. -/
theorem WakeInv.of_stop (h : WakeInv s) (hirq : s.irq = .txStop) (hfree : s.txbLock = false) :
    WakeInv { s with xmitStopped := true, irq := .txRts } where
  lock := h.lock
  pops := trivial
  served := by
    intro hne
    exact (h.served hne).imp_left (Or.imp_right (by simp [Serving, hirq]))
  running := by
    rintro (hrunning | ⟨c, hmark⟩)
    · exact absurd hrunning (by simp)
    · have hin : (s.clients c).InSection := by
        revert hmark
        cases s.clients c <;> simp
      exact absurd hin (h.lock.not_inSection hfree c)

/-- The moves of `transmit_message` keep the invariant. -/
theorem transmitMove_wakeInv (h : WakeInv s) (hmove : TransmitMove s t) : WakeInv t := by
  have hpops := h.pops
  cases hmove with
  | clear hirq =>
    simp only [PopSound, hirq] at hpops
    obtain ⟨k, hk⟩ := hpops
    exact h.of_controller rfl rfl rfl (Or.inl rfl) (fun _ => Or.inr trivial) (by simp [hirq])
      (Or.inl ⟨k, Nat.zero_le _, hk⟩)
  | pop hirq =>
    exact h.of_controller rfl rfl rfl (Or.inr (Or.inr trivial)) (fun _ => Or.inr trivial)
      (by simp [hirq]) trivial
  | empty _ _ _ hpop => exact h.of_empty_pop (MessageQueues.contents_of_pop_none hpop)
  | skip hirq _ hready =>
    simp only [PopSound, hirq] at hpops
    refine h.of_controller rfl rfl rfl (Or.inl rfl) (fun _ => Or.inr trivial) (by simp [hirq])
      (hpops.imp_left ?_)
    rintro ⟨k, hik, hk⟩
    refine ⟨k, Nat.lt_of_le_of_ne hik ?_, hk⟩
    rintro rfl
    exact Bool.eq_false_iff.mp hready hk
  | last hirq hi =>
    simp only [PopSound, hirq] at hpops
    have hrts : WillRequest s.rts := by
      obtain ⟨k, hik, _⟩ | hrts := hpops
      · exact absurd (Nat.lt_of_le_of_lt hik k.isLt) hi
      · exact hrts
    exact h.of_controller rfl rfl rfl (Or.inl rfl) (fun _ => Or.inr hrts) (by simp [hirq]) trivial
  | wait => exact h
  | ready hirq =>
    exact h.of_controller rfl rfl rfl (Or.inl rfl) (fun _ => Or.inr trivial) (by simp [hirq]) trivial
  | load hirq =>
    exact h.of_controller rfl rfl rfl (Or.inl rfl) (fun _ => Or.inr trivial) (by simp [hirq]) trivial
  | @prio i hirq =>
    have hset : ∀ (rts : Byte) (k : Fin txbNum), (rts ||| bit k).getLsbD k = true := by decide
    exact h.of_controller rfl rfl rfl (Or.inl rfl) (fun _ => Or.inr trivial) (by simp [hirq])
      (Or.inr ⟨i, hset _ i⟩)
  | stop hirq hfree => exact h.of_stop hirq hfree
  | rts hirq =>
    refine h.of_controller rfl rfl rfl (Or.inl rfl) ?_ (by simp [hirq]) (popSound_dispatchRx rfl)
    intro hawake
    exact Or.inl (TxPending.rts (hawake.imp_right (by simp [Serving, hirq])))

/-- The moves of `receive_message` keep the invariant. -/
theorem receiveMove_wakeInv {event : CanEvent} (h : WakeInv s) (hmove : ReceiveMove reader s event t) :
    WakeInv t := by
  cases hmove with
  | @read n frame hirq =>
    have hmask : ∀ (n : Fin 2) (k : Fin txbNum), (bit n).getLsbD (k + 2) = false := by decide
    have hview : txView (reader.read s.regs n maxBufLen).2 = txView s.regs := by
      rw [Spi.RxbReader.regs_read]
      exact txView_bitModify_canintf (hmask _)
    exact h.of_view rfl rfl rfl rfl hview (by simp [Serving, hirq]) (by simp [hirq]) trivial
  | push hirq =>
    refine h.of_view rfl rfl rfl (MessageQueues.contents_push_other s.rxFrame (by decide)) rfl
      (by simp [Serving, hirq]) (by simp [hirq]) ?_
    unfold PopSound receiveSecond
    split_ifs <;> trivial
  | ack hirq =>
    have hmask : ∀ (flags : Byte) (k : Fin txbNum), (flags &&& rxifMask).getLsbD (k + 2) = false := by
      decide
    exact h.of_view rfl rfl rfl rfl (txView_bitModify_canintf (hmask s.flags))
      (by simp [Serving, hirq]) (by simp [hirq]) trivial

/-- Every step of the handler keeps the invariant. -/
theorem irqStep_wakeInv {event : CanEvent} (h : WakeInv s)
    (hstep : irqStep reader s = some (event, t)) : WakeInv t := by
  obtain ⟨herror, _⟩ | ⟨htransmit, _⟩ | hreceive | ⟨hirq, _, rfl⟩ | ⟨hirq, _, rfl⟩ :=
    irqStep_cases hstep
  · exact errorStep_wakeInv h herror
  · exact transmitMove_wakeInv h (transmitMove_of_transmitStep htransmit)
  · exact receiveMove_wakeInv h (receiveMove_of_receiveStep hreceive)
  · exact h.of_view rfl rfl rfl rfl rfl (by simp [Serving, hirq]) (by simp [hirq])
      (popSound_of_inErrorBranch_or (dispatchMerr_cases _))
  · refine h.of_view rfl rfl rfl rfl ?_ (by simp [Serving, hirq]) (by simp [hirq]) trivial
    dsimp only
    split
    · exact (views_update _ (by decide) _).1
    · rfl

/-- Every step of the component and its controller keeps the invariant, unless a client reads a
stale flag. -/
theorem componentStep_wakeInv {label : CanLabel} {event : CanEvent} (h : WakeInv s)
    (hfresh : readsStale s label = false) (hstep : componentStep reader s label = some (event, t)) :
    WakeInv t := by
  cases canMove_of_componentStep hstep with
  | canSend hidle =>
    exact h.of_client rfl (h.lock.outside (by simp)) rfl rfl rfl id (by simp [hidle])
      (Or.inl rfl) Or.inl (by simp)
  | client hmove => exact clientMove_wakeInv h hfresh hmove
  | noFrame => exact h
  | canTryRecv => exact h.of_view rfl rfl rfl rfl rfl id id h.pops
  | rxRemove =>
    exact h.of_view rfl rfl rfl (MessageQueues.contents_remove_other (by decide)) rfl id id h.pops
  | interrupt hidle =>
    exact h.of_view rfl rfl rfl rfl rfl (by simp [Serving, hidle]) (by simp [hidle]) trivial
  | irq hstep => exact irqStep_wakeInv h hstep
  | @complete n =>
    exact h.of_controller rfl rfl rfl (Or.inl rfl) (fun _ => Or.inl ⟨n, Or.inl (txif_raise n)⟩) id
      h.pops
  | @arrive n image => exact h.of_view rfl rfl rfl rfl (txView_arrive n image) id id h.pops
  | @fault bits errors => exact h.of_view rfl rfl rfl rfl (views_fault bits errors).1 id id h.pops

end CamkesVm.Can
