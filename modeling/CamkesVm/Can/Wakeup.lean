import CamkesVm.Can.WakeHandler

/-!
# No lost wake-up without a stale read

The result about whole runs of the component, and a run of one client and the handler in which
the client reads the flag at the wrong moment: the last frame stays in the queue with every
thread idle, no transmit flag up and no transmission requested.
-/

namespace CamkesVm.Can

open CamkesVm.Machine

/-- In every run in which no client reads a stale flag, a frame that is left in the queue when all
threads are idle has a flag up or a transmission requested. -/
theorem queued_frame_has_wakeup {size : ℕ} {cbsAllocated : Bool}
    {framesAllocated : Option (ℕ → CanFrame)} {queues : MessageQueues} {regs : Regs}
    {frame : CanFrame} (hinit : mqInit size cbsAllocated framesAllocated = some queues)
    {labels : List CanLabel} {events : List CanEvent} {reached : CanState}
    (hfresh : StepsMeet canStep (readsStale · · = false) (.start regs queues frame) labels)
    (hrun : run canStep (.start regs queues frame) labels = some (events, reached))
    (hclients : ∀ c, reached.clients c = .idle) (hirq : reached.irq = .idle)
    (hqueue : reached.queues.contents .txq ≠ []) : TxPending reached.regs := by
  have hempty : queues.contents .txq = [] := congrFun (holds_of_mqInit hinit).contents_eq .txq
  have hstart : WakeInv (.start regs queues frame) :=
    ⟨⟨by simp [CanState.start], by simp [CanState.start]⟩, trivial,
      fun hne => absurd hempty hne, by simp [CanState.start]⟩
  have hreached : WakeInv reached := run_state_invariant WakeInv
    (fun s label event t hs hlabel hstep => componentStep_wakeInv hs hlabel hstep) hstart hfresh hrun
  obtain (hpending | hserving) | ⟨c, howes⟩ := hreached.served hqueue
  · exact hpending
  · exact absurd hserving (by simp [Serving, hirq])
  · exact absurd howes (by simp [hclients c])

/-- The label is no step of a client thread other than `c` in `can_send`. -/
def CanLabel.onlyClient (c : ℕ) : CanLabel → Bool
  | .canSend thread _ | .client thread => thread == c
  | _ => true

section Clients

variable {reader : Spi.RxbReader} {s t : CanState}

/-- The moves of `transmit_message` touch no client. -/
theorem transmitMove_clients (hmove : TransmitMove s t) : t.clients = s.clients := by
  cases hmove <;> rfl

/-- The moves of `receive_message` touch no client. -/
theorem receiveMove_clients {event : CanEvent} (hmove : ReceiveMove reader s event t) :
    t.clients = s.clients := by
  cases hmove <;> rfl

/-- A move of a client touches that client only. -/
theorem clientMove_clients {c thread : ℕ} (hne : c ≠ thread) (hmove : ClientMove s thread t) :
    t.clients c = s.clients c := by
  cases hmove <;> exact Function.update_of_ne hne _ _

/-- A client moves only in its own steps. -/
theorem componentStep_clients {label : CanLabel} {event : CanEvent} {c d : ℕ} (hne : c ≠ d)
    (hlabel : label.onlyClient d = true) (hstep : componentStep reader s label = some (event, t)) :
    t.clients c = s.clients c := by
  cases canMove_of_componentStep hstep with
  | @canSend thread =>
    obtain rfl : thread = d := beq_iff_eq.mp hlabel
    exact Function.update_of_ne hne _ _
  | @client thread _ hmove =>
    obtain rfl : thread = d := beq_iff_eq.mp hlabel
    exact clientMove_clients hne hmove
  | irq hstep =>
    refine congrFun ?_ c
    obtain ⟨herror, _⟩ | ⟨htransmit, _⟩ | hreceive | ⟨_, _, rfl⟩ | ⟨_, _, rfl⟩ := irqStep_cases hstep
    · obtain ⟨_, _, _, _, rfl, _⟩ := errorStep_cases herror
      rfl
    · exact transmitMove_clients (transmitMove_of_transmitStep htransmit)
    · exact receiveMove_clients (receiveMove_of_receiveStep hreceive)
    · rfl
    · rfl
  | noFrame | canTryRecv | rxRemove | interrupt | complete | arrive | fault => rfl

end Clients

/-- In a run with one client thread, all clients are idle at the end if that one is. -/
theorem clients_idle_of_onlyClient {regs : Regs} {queues : MessageQueues} {frame : CanFrame}
    {labels : List CanLabel} {events : List CanEvent} {reached : CanState} {c : ℕ}
    (honly : ∀ label ∈ labels, label.onlyClient c = true)
    (hrun : run canStep (.start regs queues frame) labels = some (events, reached))
    (hidle : reached.clients c = .idle) : ∀ d, reached.clients d = .idle := by
  have hothers : ∀ d, d ≠ c → reached.clients d = .idle :=
    run_state_invariant (fun s => ∀ d, d ≠ c → s.clients d = .idle)
      (fun s label event t hs hlabel hstep d hd => (componentStep_clients hd hlabel hstep).trans (hs d hd))
      (fun _ _ => rfl) (stepsMeet_of_forall (fun label hl _ => honly label hl) _) hrun
  intro d
  by_cases hd : d = c
  · exact hd ▸ hidle
  · exact hothers d hd

/-- One call of `can_send` by client 0, with the given number of steps. -/
def sendSteps (frame : CanFrame) (steps : ℕ) : List CanLabel :=
  .canSend 0 frame :: List.replicate steps (.client 0)

/-- A first frame raises the flags of all buffers and stays queued until the handler runs. -/
theorem first_frame_has_wakeup :
    ∃ events reached, run canStep idleComponent (sendSteps (sampleFrame 1) 14) =
        some (events, reached) ∧
      reached.queues.contents .txq = [sampleFrame 1] ∧ TxPending reached.regs := by
  have hreplay : (run canStep idleComponent (sendSteps (sampleFrame 1) 14)).map
      (fun r => (r.2.clients 0, r.2.irq, r.2.queues.contents .txq)) =
        some (.idle, .idle, [sampleFrame 1]) := by decide
  obtain ⟨⟨events, reached⟩, hrun, hviews⟩ := Option.map_eq_some_iff.mp hreplay
  simp only [Prod.mk.injEq] at hviews
  obtain ⟨hclient, hirq, hqueue⟩ := hviews
  have hinit : canInit true (some fun _ => sampleFrame 0) = some deviceQueues := rfl
  have hclients := clients_idle_of_onlyClient (by decide) hrun hclient
  exact ⟨events, reached, hrun, hqueue,
    queued_frame_has_wakeup hinit (by decide) hrun hclients hirq (by simp [hqueue])⟩

/-- Three frames fill the transmit buffers and are sent. The handler then finds the queue empty,
and before it says that it stops, the client queues a fourth frame and finds transmission
running. -/
def lostWakeup : List CanLabel :=
  sendSteps (sampleFrame 1) 14 ++ sendSteps (sampleFrame 2) 3 ++ sendSteps (sampleFrame 3) 3 ++
    irqSteps 17 ++ List.ofFn CanLabel.complete ++
    irqSteps 3 ++ sendSteps (sampleFrame 4) 3 ++ [.irq, .irq, .irq]

/-- After that run every thread is idle and the fourth frame is queued, but no flag is up and no
transmission is requested. -/
theorem lostWakeup_leaves_frame :
    ∃ events reached, run canStep idleComponent lostWakeup = some (events, reached) ∧
      (∀ c, reached.clients c = .idle) ∧ reached.irq = .idle ∧
      reached.queues.contents .txq = [sampleFrame 4] ∧ ¬ TxPending reached.regs := by
  have hreplay : (run canStep idleComponent lostWakeup).map
      (fun r => (r.2.clients 0, r.2.irq, r.2.queues.contents .txq, decide (TxPending r.2.regs))) =
        some (.idle, .idle, [sampleFrame 4], false) := by decide +kernel
  obtain ⟨⟨events, reached⟩, hrun, hviews⟩ := Option.map_eq_some_iff.mp hreplay
  simp only [Prod.mk.injEq, decide_eq_false_iff_not] at hviews
  obtain ⟨hclient, hirq, hqueue, hpending⟩ := hviews
  exact ⟨events, reached, hrun, clients_idle_of_onlyClient (by decide) hrun hclient, hirq, hqueue,
    hpending⟩

end CamkesVm.Can
