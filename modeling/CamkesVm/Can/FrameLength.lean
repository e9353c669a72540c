import CamkesVm.Can.ReceiveEffect

/-!
# The lengths of frames

The length code of a frame is a field of four bits, and an array of eight bytes holds its
payload. Both directions copy as many bytes as the code says, and neither checks it. So the copies
stay inside their arrays exactly when the code is at most eight.

What clients send and what the controller returns is all that brings lengths into the component:
the queues and the handler hand on what they were given. A client that removes from the receive queue
behind another one may find it empty, and then it gets what was left in a slot.
-/

namespace CamkesVm.Can

open CamkesVm.Machine

/-- The length code of a frame is legal. -/
def CanFrame.LengthFits (frame : CanFrame) : Prop := frame.dlc.toNat ≤ canMaxDlc

instance (frame : CanFrame) : Decidable frame.LengthFits := inferInstanceAs (Decidable (_ ≤ _))

/-- The copy of `load_txb` stays inside its arrays exactly for legal lengths. -/
theorem loadTxbBuf_isSome_iff (frame : CanFrame) :
    (loadTxbBuf frame).isSome = true ↔ frame.LengthFits := by
  refine ⟨fun h => ?_, fun h => ?_⟩
  · by_contra hlong
    have hnone : loadTxbBuf frame = none := dif_neg fun hbounds => hlong (by
      rw [Nat.zero_add] at hbounds
      exact hbounds.2)
    rw [hnone] at h
    exact absurd h (by simp)
  · obtain ⟨buf, hbuf, _⟩ := loadTxbBuf_eq_some h
    rw [hbuf]
    rfl

/-- The copy of `recv_rxb` stays inside its arrays exactly for legal lengths. -/
theorem recvRxb_isSome_iff (frame : CanFrame) (image : Bytes maxBufLen) :
    (recvRxb frame image).isSome = true ↔ (rxbDlc image).toNat ≤ canMaxDlc := by
  refine ⟨fun h => ?_, fun h => ?_⟩
  · by_contra hlong
    have hnone : copy frame.data 0 image dat (rxbDlc image).toNat = none := by
      refine dif_neg fun hbounds => hlong ?_
      rw [Nat.zero_add] at hbounds
      exact hbounds.1
    rw [recvRxb, hnone] at h
    exact absurd h (by simp)
  · obtain ⟨got, hgot, _⟩ := recvRxb_eq_some frame h
    rw [hgot]
    rfl

/-- A received frame has the length of the image. -/
theorem recvRxb_dlc {frame got : CanFrame} {image : Bytes maxBufLen}
    (h : recvRxb frame image = some got) : got.dlc = rxbDlc image := by
  obtain ⟨data, _, rfl⟩ := Option.map_eq_some_iff.mp h
  rfl

/-- What a step brings into the component has a legal length: the frame that a client sends, and the
bytes that the controller returns for the read that the handler is about to make. A client that removes
a frame finds one. -/
def LengthsFit (s : CanState) : CanLabel → Prop
  | .canSend _ frame => frame.LengthFits
  | .irq => ∀ n, s.irq = .rxRead n →
      (rxbDlc (Spi.codeReader.read s.regs n maxBufLen).1).toNat ≤ canMaxDlc
  | .rxRemove _ => mqIsEmpty (s.queues.cbs .rxq) = false
  | _ => True

instance (s : CanState) : ∀ label, Decidable (LengthsFit s label)
  | .canSend _ frame => inferInstanceAs (Decidable frame.LengthFits)
  | .irq => inferInstanceAs (Decidable (∀ n, s.irq = .rxRead n →
      (rxbDlc (Spi.codeReader.read s.regs n maxBufLen).1).toNat ≤ canMaxDlc))
  | .rxRemove _ => inferInstanceAs (Decidable (_ = false))
  | .client _ | .canTryRecv _ | .interrupt _ _ | .complete _ | .arrive _ _ | .fault _ _ => isTrue trivial

/-- The frame that a client is sending. -/
def ClientPc.frame : ClientPc → Option CanFrame
  | .idle => none
  | .testFull frame | .append frame | .startXmit frame _ | .lockTxb frame _ | .scan frame _ _
  | .trigger frame _ _ | .mark frame _ _ => some frame

/-- The handler has a frame from the transmit queue. -/
def loading : IrqPc → Bool
  | .txWait _ | .txLoad _ | .txPrio _ => true
  | _ => false

/-- The handler has a frame for the receive queue. -/
def pushing : IrqPc → Bool
  | .rxPush _ => true
  | _ => false

/-- All frames in the component have legal lengths. -/
structure LengthInv (s : CanState) : Prop where
  queued : ∀ queue, ∀ frame ∈ s.queues.contents queue, frame.LengthFits
  sending : ∀ c frame, (s.clients c).frame = some frame → frame.LengthFits
  loads : loading s.irq = true → s.txFrame.LengthFits
  pushes : pushing s.irq = true → s.rxFrame.LengthFits

section Steps

variable {s t : CanState}

/-- The handler has no frame in its error branches, nor behind them. -/
theorem noFrame_of_inErrorBranch_or {irq : IrqPc} {flags : Byte}
    (h : inErrorBranch irq = true ∨ irq = dispatchTx flags) :
    loading irq = false ∧ pushing irq = false := by
  have hdispatch : ∀ flags : Byte,
      loading (dispatchTx flags) = false ∧ pushing (dispatchTx flags) = false := by decide
  obtain hbranch | rfl := h
  · cases irq <;> first
      | exact ⟨rfl, rfl⟩
      | exact absurd hbranch (by simp [inErrorBranch])
  · exact hdispatch flags

/-- A step to a place without a frame that leaves the queues and the clients. -/
theorem LengthInv.of_noFrame (h : LengthInv s) (hqueues : t.queues = s.queues)
    (hclients : t.clients = s.clients) (hirq : loading t.irq = false ∧ pushing t.irq = false) :
    LengthInv t where
  queued := by rw [hqueues]; exact h.queued
  sending := by rw [hclients]; exact h.sending
  loads hload := absurd hload (by simp [hirq.1])
  pushes hpush := absurd hpush (by simp [hirq.2])

/-- The moves of `transmit_message` take their frames from the queue. -/
theorem transmitMove_lengthInv (h : LengthInv s) (hmove : TransmitMove s t) : LengthInv t := by
  cases hmove with
  | @pop i frame _ _ _ hpop =>
    exact ⟨fun queue got hgot => h.queued queue got (MessageQueues.mem_contents_pop hgot),
      h.sending, fun _ => h.queued .txq frame (MessageQueues.mem_of_pop hpop), by simp [pushing]⟩
  | wait => exact h
  | ready hirq | load hirq =>
    exact ⟨h.queued, h.sending, fun _ => h.loads (by rw [hirq]; rfl), by simp [pushing]⟩
  | clear | empty | skip | last | prio | stop => exact h.of_noFrame rfl rfl ⟨rfl, rfl⟩
  | rts =>
    have hdispatch : ∀ flags : Byte,
        loading (dispatchRx flags) = false ∧ pushing (dispatchRx flags) = false := by decide
    exact h.of_noFrame rfl rfl (hdispatch s.flags)

/-- The moves of `receive_message` take their frames from the receive buffers. -/
theorem receiveMove_lengthInv {event : CanEvent} (h : LengthInv s) (hfits : LengthsFit s .irq)
    (hmove : ReceiveMove Spi.codeReader s event t) : LengthInv t := by
  cases hmove with
  | @read n frame hirq hframe =>
    refine ⟨h.queued, h.sending, by simp [loading], fun _ => ?_⟩
    rw [CanFrame.LengthFits, recvRxb_dlc hframe]
    exact hfits n hirq
  | @push n hirq =>
    have hnext : loading (if n = 0 then receiveSecond s.flags else .rxAck) = false ∧
        pushing (if n = 0 then receiveSecond s.flags else .rxAck) = false := by
      unfold receiveSecond
      split_ifs <;> exact ⟨rfl, rfl⟩
    refine ⟨fun queue got hgot => ?_, h.sending, fun hload => absurd hload (by simp [hnext.1]),
      fun hpush => absurd hpush (by simp [hnext.2])⟩
    obtain hold | rfl := MessageQueues.mem_contents_push hgot
    · exact h.queued queue got hold
    · exact h.pushes (by rw [hirq]; rfl)
  | ack => exact h.of_noFrame rfl rfl ⟨rfl, rfl⟩

/-- The steps of the handler keep the lengths legal. -/
theorem irqStep_lengthInv {event : CanEvent} (h : LengthInv s) (hfits : LengthsFit s .irq)
    (hstep : irqStep Spi.codeReader s = some (event, t)) : LengthInv t := by
  obtain ⟨herror, _⟩ | ⟨htransmit, _⟩ | hreceive | ⟨_, _, rfl⟩ | ⟨_, _, rfl⟩ := irqStep_cases hstep
  · obtain ⟨_, _, _, _, rfl, _, hirq⟩ := errorStep_cases herror
    exact h.of_noFrame rfl rfl (noFrame_of_inErrorBranch_or hirq)
  · exact transmitMove_lengthInv h (transmitMove_of_transmitStep htransmit)
  · exact receiveMove_lengthInv h hfits (receiveMove_of_receiveStep hreceive)
  · exact h.of_noFrame rfl rfl (noFrame_of_inErrorBranch_or (dispatchMerr_cases _))
  · exact h.of_noFrame rfl rfl ⟨rfl, rfl⟩

/-- A client that moves on with its frame. -/
theorem LengthInv.setClient (h : LengthInv s) {thread : ℕ} {pc : ClientPc}
    (hpc : ∀ frame, pc.frame = some frame → frame.LengthFits) (hqueues : ∀ queue,
      ∀ frame ∈ t.queues.contents queue, frame.LengthFits) (hclients : t.clients = s.clients)
    (hirq : t.irq = s.irq) (htx : t.txFrame = s.txFrame) (hrx : t.rxFrame = s.rxFrame) :
    LengthInv (t.setClient thread pc) where
  queued := hqueues
  sending c frame hframe := by
    by_cases hc : c = thread
    · subst hc
      simp only [CanState.setClient, Function.update_self] at hframe
      exact hpc frame hframe
    · simp only [CanState.setClient, Function.update_of_ne hc, hclients] at hframe
      exact h.sending c frame hframe
  loads hload := by
    simp only [CanState.setClient, hirq, htx] at hload ⊢
    exact h.loads hload
  pushes hpush := by
    simp only [CanState.setClient, hirq, hrx] at hpush ⊢
    exact h.pushes hpush

/-- The end of the loop of `can_send` keeps the frame or drops it. -/
theorem loopSend_frame {frame got : CanFrame} {ret : ℤ} (h : (loopSend frame ret).frame = some got) :
    got = frame := by
  unfold loopSend at h
  split at h
  · exact (Option.some.inj h).symm
  · exact absurd h (by simp [ClientPc.frame])

/-- The moves of `can_send` keep the lengths legal. -/
theorem clientMove_lengthInv {thread : ℕ} (h : LengthInv s) (hmove : ClientMove s thread t) :
    LengthInv t := by
  have hkept {pc next : ClientPc} (hpc : s.clients thread = pc) (hnext : next.frame = pc.frame) :
      ∀ frame, next.frame = some frame → frame.LengthFits := fun frame hframe =>
    h.sending thread frame (by rw [hpc, ← hnext, hframe])
  cases hmove with
  | @append frame hpc =>
    refine h.setClient (hkept hpc rfl) (fun queue got hgot => ?_) rfl rfl rfl rfl
    obtain hold | rfl := MessageQueues.mem_contents_append hgot
    · exact h.queued queue got hold
    · exact hkept hpc rfl got rfl
  | running hpc | unlock hpc =>
    refine h.setClient (fun got hgot => ?_) h.queued rfl rfl rfl rfl
    obtain rfl := loopSend_frame hgot
    exact hkept hpc rfl got rfl
  | full hpc | room hpc | stopped hpc | lock hpc | found hpc | busy hpc | trigger hpc | mark hpc =>
    exact h.setClient (hkept hpc rfl) h.queued rfl rfl rfl rfl

/-- Every step that brings in legal lengths only keeps all lengths legal. -/
theorem canStep_lengthInv {label : CanLabel} {event : CanEvent} (h : LengthInv s)
    (hfits : LengthsFit s label) (hstep : canStep s label = some (event, t)) : LengthInv t := by
  cases canMove_of_componentStep hstep with
  | canSend =>
    refine h.setClient (fun got hgot => ?_) h.queued rfl rfl rfl rfl
    obtain rfl := Option.some.inj hgot
    exact hfits
  | client hmove => exact clientMove_lengthInv h hmove
  | noFrame => exact h
  | rxRemove =>
    exact ⟨fun queue got hgot => h.queued queue got (MessageQueues.mem_contents_remove hfits hgot),
      h.sending, h.loads, h.pushes⟩
  | interrupt => exact h.of_noFrame rfl rfl ⟨rfl, rfl⟩
  | irq hstep => exact irqStep_lengthInv h hfits hstep
  | canTryRecv | complete | arrive | fault => exact ⟨h.queued, h.sending, h.loads, h.pushes⟩

/-- A client that finds a frame to remove receives a frame of the receive queue. -/
theorem canStep_received {label : CanLabel} {got : CanFrame} (hfits : LengthsFit s label)
    (hstep : canStep s label = some (.received (some got), t)) : got ∈ s.queues.contents .rxq := by
  cases componentStep_rxEffect hstep with
  | receive => exact MessageQueues.mem_of_remove hfits

/-- What holds of the frames that were received so far and of the next one holds of all. -/
theorem received_append {events : List CanEvent} {event : CanEvent}
    (hold : ∀ got, .received (some got) ∈ events → got.LengthFits)
    (hnew : ∀ got, event = .received (some got) → got.LengthFits) :
    ∀ got, .received (some got) ∈ events ++ [event] → got.LengthFits := by
  intro got hgot
  obtain hbefore | hlast := List.mem_append.mp hgot
  · exact hold got hbefore
  · exact hnew got (List.mem_singleton.mp hlast).symm

end Steps

/-- The copies of `load_txb` and `recv_rxb` stay inside their arrays exactly for legal lengths. In
every run into which only legal lengths are brought, and in which no client removes from an empty
queue, every frame that is loaded into a transmit buffer or delivered to a client has a legal length. -/
theorem copies_in_bounds_iff_lengthFits (frame old : CanFrame) (image : Bytes maxBufLen) :
    ((loadTxbBuf frame).isSome = true ↔ frame.dlc.toNat ≤ canMaxDlc) ∧
    ((recvRxb old image).isSome = true ↔ (rxbDlc image).toNat ≤ canMaxDlc) ∧
    ∀ (size : ℕ) (cbsAllocated : Bool) (framesAllocated : Option (ℕ → CanFrame))
      (queues : MessageQueues) (regs : Regs) (first : CanFrame) (labels : List CanLabel)
      (events : List CanEvent) (reached : CanState),
      mqInit size cbsAllocated framesAllocated = some queues →
      StepsMeet canStep LengthsFit (.start regs queues first) labels →
      run canStep (.start regs queues first) labels = some (events, reached) →
      (∀ i, reached.irq = .txLoad i → reached.txFrame.dlc.toNat ≤ canMaxDlc) ∧
      ∀ got, .received (some got) ∈ events → got.dlc.toNat ≤ canMaxDlc := by
  refine ⟨loadTxbBuf_isSome_iff frame, recvRxb_isSome_iff old image, ?_⟩
  intro size cbsAllocated framesAllocated queues regs first labels events reached hinit hfits hrun
  have hempty : ∀ queue, queues.contents queue = [] := fun queue =>
    congrFun (holds_of_mqInit hinit).contents_eq queue
  have hstart : LengthInv (.start regs queues first) := by
    refine ⟨fun queue got hgot => ?_, fun _ _ h => ?_, fun h => ?_, fun h => ?_⟩
    · change got ∈ queues.contents queue at hgot
      rw [hempty] at hgot
      exact absurd hgot List.not_mem_nil
    all_goals exact absurd h (by simp [CanState.start, ClientPc.frame, loading, pushing])
  have hreached := run_invariant
    (fun events s => LengthInv s ∧ ∀ got, .received (some got) ∈ events → got.LengthFits)
    (fun events s label event t hs hfit hstep => ⟨canStep_lengthInv hs.1 hfit hstep,
      received_append hs.2 fun got hgot =>
        hs.1.queued .rxq got (canStep_received hfit (hgot ▸ hstep))⟩)
    [] ⟨hstart, fun _ h => absurd h List.not_mem_nil⟩ hfits hrun
  exact ⟨fun i hirq => hreached.1.loads (by rw [hirq]; rfl), hreached.2⟩

/-- A frame of the sample runs with the given length code. -/
def frameOfLength (dlc : BitVec 4) : CanFrame := { sampleFrame 0 with dlc := dlc }

/-- A client sends a frame, and the handler takes it up to its transmit buffer. -/
def sendUpToLoad (frame : CanFrame) : List CanLabel :=
  .canSend 0 frame :: List.replicate 14 (.client 0) ++ irqSteps 4

/-- A frame with eight bytes is loaded. -/
theorem fullFrame_loaded :
    ∃ events reached i, run canStep idleComponent (sendUpToLoad (frameOfLength 8)) =
        some (events, reached) ∧
      reached.irq = .txLoad i ∧ reached.txFrame.dlc.toNat ≤ canMaxDlc := by
  have hreplay : (run canStep idleComponent (sendUpToLoad (frameOfLength 8))).map
      (fun r => r.2.irq) = some (.txLoad 0) := by decide
  obtain ⟨⟨events, reached⟩, hrun, hirq⟩ := Option.map_eq_some_iff.mp hreplay
  have hinit : mqInit msgQueueSize true (some fun _ => sampleFrame 0) = some deviceQueues := rfl
  exact ⟨events, reached, 0, hrun, hirq,
    ((copies_in_bounds_iff_lengthFits (frameOfLength 8) (frameOfLength 8) fun _ => 0).2.2
      _ _ _ _ _ _ _ _ _ hinit (by decide) hrun).1 0 hirq⟩

/-- A frame with length code nine is accepted and reaches `load_txb`, whose copy leaves the payload.
So does the copy of `recv_rxb` for an image with that code. -/
theorem longFrame_out_of_bounds :
    (∃ events reached i, run canStep idleComponent (sendUpToLoad (frameOfLength 9)) =
        some (events, reached) ∧
      reached.irq = .txLoad i ∧ reached.txFrame.dlc.toNat = 9 ∧ loadTxbBuf reached.txFrame = none) ∧
    recvRxb (sampleFrame 0) ![0, 0, 0, 0, 9, 0, 0, 0, 0, 0, 0, 0, 0] = none := by
  refine ⟨?_, by decide⟩
  have hreplay : (run canStep idleComponent (sendUpToLoad (frameOfLength 9))).map
      (fun r => (r.2.irq, r.2.txFrame)) = some (.txLoad 0, frameOfLength 9) := by decide
  obtain ⟨⟨events, reached⟩, hrun, hviews⟩ := Option.map_eq_some_iff.mp hreplay
  obtain ⟨hirq, hframe⟩ := Prod.mk.inj hviews
  dsimp only at hirq hframe
  exact ⟨events, reached, 0, hrun, hirq, by rw [hframe]; decide, by rw [hframe]; decide⟩

end CamkesVm.Can
