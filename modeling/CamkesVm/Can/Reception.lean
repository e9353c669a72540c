import CamkesVm.Can.ReceiveEffect

/-!
# Every stored frame is accounted for

A frame that the controller stores is in one of three places: still in its receive buffer with
the flag of the buffer up, in the hand of the handler between reading the buffer and pushing the
frame, or passed to the receive queue. A buffer of the handler's snapshot that has not been
drained has its flag up. One that has been drained has its flag down, for as long as no further
frame arrives in it before the acknowledgement.

The account holds in every run in which no frame arrives there. A run with such an arrival clears
the flag of a frame that nobody has read.

The component is here the one whose instruction bytes have the number of the buffer in its place. With
those of the source the second buffer is never read at all.
-/

namespace CamkesVm.Can

open CamkesVm.Machine

/-- One step of the component whose reads reach the buffer of their number. -/
abbrev numberedStep : CanState → CanLabel → Option (CanEvent × CanState) :=
  componentStep Spi.numberedReader

/-- The frame that is held in a receive buffer. -/
def held (regs : Regs) (n : Fin 2) : List (Bytes maxBufLen) :=
  if rxif regs n then [rxbImage regs n] else []

/-- What the controller stored in a receive buffer. -/
def storedImages (n : Fin 2) (events : List CanEvent) : List (Bytes maxBufLen) :=
  events.filterMap fun
    | .stored m image => if m = n then some image else none
    | _ => none

/-- What the handler passed on from a receive buffer. -/
def passedImages (n : Fin 2) (events : List CanEvent) : List (Bytes maxBufLen) :=
  events.filterMap fun
    | .passed m image _ _ => if m = n then some image else none
    | _ => none

/-- The frames whose push succeeded. -/
def acceptedFrames (events : List CanEvent) : List CanFrame :=
  events.filterMap fun
    | .passed _ _ frame ret => if ret = 0 then some frame else none
    | _ => none

/-- The frames that the clients received. -/
def receivedFrames (events : List CanEvent) : List CanFrame :=
  events.filterMap fun
    | .received frame => frame
    | _ => none

/-- The locked part of a receive still finds a frame in the queue. -/
def removesFrame (s : CanState) : CanLabel → Bool
  | .rxRemove _ => !mqIsEmpty (s.queues.cbs .rxq)
  | _ => true

/-- A frame arrives in a buffer behind the read of that buffer and before its acknowledgement. -/
def arrivesBehindRead (s : CanState) : CanLabel → Bool
  | .arrive n _ => drained s.irq s.flags n
  | _ => false

/-- Where the stored frames are, from `first` in the buffers on. -/
structure RxInv (first : Fin 2 → List (Bytes maxBufLen)) (events : List CanEvent) (s : CanState) :
    Prop where
  /-- Every stored frame is passed on, in hand or held, once and in order. -/
  accounted : ∀ n, first n ++ storedImages n events =
    passedImages n events ++ (inHand s.irq s.buf n ++ held s.regs n)
  unread : ∀ n, AwaitsRead s.irq s.flags n → rxif s.regs n = true
  cleared : ∀ n, drained s.irq s.flags n = true → rxif s.regs n = false
  /-- The frame in hand is what the buffer decodes to. -/
  decodes : ∀ n, s.irq = .rxPush n → ∃ old, recvRxb old s.buf = some s.rxFrame
  decoded : ∀ n image frame ret, .passed n image frame ret ∈ events →
    ∃ old, recvRxb old image = some frame

/-- The receive queue has lost no frame that it accepted, from `queued` in it on. -/
def Delivered (queued : List CanFrame) (events : List CanEvent) (s : CanState) : Prop :=
  queued ++ acceptedFrames events = receivedFrames events ++ s.queues.contents .rxq

section Events

variable (n : Fin 2) (events : List CanEvent)

/-- What is read off a run grows with each event by what is read off the event. -/
theorem events_append (event : CanEvent) :
    storedImages n (events ++ [event]) = storedImages n events ++ storedImages n [event] ∧
      passedImages n (events ++ [event]) = passedImages n events ++ passedImages n [event] ∧
      acceptedFrames (events ++ [event]) = acceptedFrames events ++ acceptedFrames [event] ∧
      receivedFrames (events ++ [event]) = receivedFrames events ++ receivedFrames [event] :=
  ⟨List.filterMap_append, List.filterMap_append, List.filterMap_append, List.filterMap_append⟩

/-- A silent step shows nothing. -/
theorem events_silent : storedImages n (events ++ [.silent]) = storedImages n events ∧
    passedImages n (events ++ [.silent]) = passedImages n events ∧
    acceptedFrames (events ++ [.silent]) = acceptedFrames events ∧
    receivedFrames (events ++ [.silent]) = receivedFrames events := by
  obtain ⟨hstored, hpassed, haccepted, hreceived⟩ := events_append n events .silent
  exact ⟨hstored.trans (List.append_nil _), hpassed.trans (List.append_nil _),
    haccepted.trans (List.append_nil _), hreceived.trans (List.append_nil _)⟩

/-- A push passes one frame on. -/
theorem events_passed (m : Fin 2) (image : Bytes maxBufLen) (frame : CanFrame) (ret : ℤ) :
    let after := events ++ [.passed m image frame ret]
    storedImages n after = storedImages n events ∧
      passedImages n after = passedImages n events ++ inHand (.rxPush m) image n ∧
      acceptedFrames after = acceptedFrames events ++ (if ret = 0 then [frame] else []) ∧
      receivedFrames after = receivedFrames events := by
  obtain ⟨hstored, hpassed, haccepted, hreceived⟩ :=
    events_append n events (.passed m image frame ret)
  have hhand : passedImages n [.passed m image frame ret] = inHand (.rxPush m) image n := by
    by_cases hm : m = n <;> simp [passedImages, inHand, hm]
  have hframe : acceptedFrames [.passed m image frame ret] = if ret = 0 then [frame] else [] := by
    by_cases hret : ret = 0 <;> simp [acceptedFrames, hret]
  exact ⟨hstored.trans (List.append_nil _), hpassed.trans (congrArg _ hhand),
    haccepted.trans (congrArg _ hframe), hreceived.trans (List.append_nil _)⟩

/-- The controller stores one frame. -/
theorem events_stored (m : Fin 2) (image : Bytes maxBufLen) :
    let after := events ++ [.stored m image]
    storedImages n after = storedImages n events ++ (if m = n then [image] else []) ∧
      passedImages n after = passedImages n events ∧ acceptedFrames after = acceptedFrames events ∧
      receivedFrames after = receivedFrames events := by
  obtain ⟨hstored, hpassed, haccepted, hreceived⟩ := events_append n events (.stored m image)
  have himage : storedImages n [.stored m image] = if m = n then [image] else [] := by
    by_cases hm : m = n <;> simp [storedImages, hm]
  exact ⟨hstored.trans (congrArg _ himage), hpassed.trans (List.append_nil _),
    haccepted.trans (List.append_nil _), hreceived.trans (List.append_nil _)⟩

/-- A client receives a frame or finds the queue empty. -/
theorem events_received (frame : Option CanFrame) :
    let after := events ++ [.received frame]
    storedImages n after = storedImages n events ∧ passedImages n after = passedImages n events ∧
      acceptedFrames after = acceptedFrames events ∧
      receivedFrames after = receivedFrames events ++ frame.toList := by
  obtain ⟨hstored, hpassed, haccepted, hreceived⟩ := events_append n events (.received frame)
  have hframe : receivedFrames [.received frame] = frame.toList := by
    cases frame with
    | none => rfl
    | some frame => rfl
  exact ⟨hstored.trans (List.append_nil _), hpassed.trans (List.append_nil _),
    haccepted.trans (List.append_nil _), hreceived.trans (congrArg _ hframe)⟩

end Events

/-- The views of the receive side decide which frames are held. -/
theorem held_of_view {regs regs' : Regs} (hview : rxView regs' = rxView regs) (n : Fin 2) :
    rxif regs' n = rxif regs n ∧ held regs' n = held regs n := by
  have hflag : rxif regs' n = rxif regs n := congrFun (congrArg Prod.fst hview) n
  have himage : rxbImage regs' n = rxbImage regs n := congrFun (congrArg Prod.snd hview) n
  exact ⟨hflag, by rw [held, hflag, himage]; rfl⟩

section Steps

variable {first : Fin 2 → List (Bytes maxBufLen)} {queued : List CanFrame} {events : List CanEvent}
  {s t : CanState}

/-- A quiet step keeps the account. -/
theorem RxInv.of_quiet (h : RxInv first events s) (hquiet : RxQuiet s t) :
    RxInv first (events ++ [.silent]) t where
  accounted := by
    intro n
    obtain ⟨hstored, hpassed, _⟩ := events_silent n events
    rw [hstored, hpassed, hquiet.inHand_eq, (held_of_view hquiet.view n).2]
    exact h.accounted n
  unread n hn := (held_of_view hquiet.view n).1.trans (h.unread n (hquiet.awaits n hn))
  cleared n hn := (held_of_view hquiet.view n).1.trans (h.cleared n (hquiet.drains n hn))
  decodes := by
    intro n hpush
    obtain ⟨hframe, hbuf⟩ := hquiet.hand n hpush
    rw [hframe, hbuf]
    exact h.decodes n ((hquiet.push n).mp hpush)
  decoded := by simpa using h.decoded

/-- Reading a buffer takes its frame in hand. -/
theorem RxInv.of_rxRead (h : RxInv first events s) {m : Fin 2} (hirq : s.irq = .rxRead m)
    {frame : CanFrame} (hframe : recvRxb s.rxFrame (rxbImage s.regs m) = some frame) :
    RxInv first (events ++ [.silent]) { s with
      regs := mcp2515BitModify s.regs canintf (bit m) 0, rxFrame := frame, buf := rxbImage s.regs m
      irq := .rxPush m } where
  accounted := by
    intro n
    obtain ⟨hstored, hpassed, _⟩ := events_silent n events
    have himage : rxbImage (mcp2515BitModify s.regs canintf (bit m) 0) n = rxbImage s.regs n :=
      rxbImage_bitModify_canintf _ _ n
    have hbefore := h.accounted n
    rw [hstored, hpassed, hbefore, hirq]
    simp only [inHand, held, rxif_clear, himage]
    by_cases hn : n = m
    · subst hn
      simp [h.unread n (by rw [hirq]; exact Or.inl rfl)]
    · simp [hn, Ne.symm hn]
  unread := by
    rintro n ⟨hlt, hbit⟩
    have hwaits : AwaitsRead s.irq s.flags n := by
      rw [hirq]
      exact Or.inr ⟨hlt, hbit⟩
    rw [rxif_clear, h.unread n hwaits]
    simp [hlt.ne']
  cleared := by
    intro n hn
    rw [rxif_clear]
    by_cases hnm : n = m
    · simp [hnm]
    · have hdrained : drained s.irq s.flags n = true := by
        simp only [drained, Bool.and_eq_true, decide_eq_true_eq, hirq] at hn ⊢
        exact ⟨hn.1, lt_of_le_of_ne hn.2 hnm⟩
      rw [h.cleared n hdrained, Bool.and_false]
  decodes _ _ := ⟨s.rxFrame, hframe⟩
  decoded := by simpa using h.decoded

/-- Pushing the frame in hand passes it on. -/
theorem RxInv.of_rxPush (h : RxInv first events s) {m : Fin 2} (hirq : s.irq = .rxPush m) :
    RxInv first (events ++ [.passed m s.buf s.rxFrame (s.queues.rxQueuePush s.rxFrame).1])
      { s with
        queues := (s.queues.rxQueuePush s.rxFrame).2
        irq := if m = 0 then receiveSecond s.flags else .rxAck } where
  accounted := by
    intro n
    have hbefore := h.accounted n
    rw [hirq] at hbefore
    obtain ⟨hstored, hpassed, _⟩ :=
      events_passed n events m s.buf s.rxFrame (s.queues.rxQueuePush s.rxFrame).1
    rw [hstored, hpassed, hbefore, inHand_eq_nil (afterPush_spec s.flags m n).2.1, List.append_assoc,
      List.nil_append]
  unread := by
    intro n hn
    exact h.unread n (hirq ▸ (afterPush_spec s.flags m n).1 hn)
  cleared := by
    intro n hn
    exact h.cleared n (hirq ▸ (afterPush_spec s.flags m n).2.2 hn)
  decodes n hpush := absurd hpush (afterPush_spec s.flags m n).2.1
  decoded := by
    intro n image frame ret hmem
    obtain hmem | hmem := List.mem_append.mp hmem
    · exact h.decoded n image frame ret hmem
    · obtain ⟨rfl, rfl, rfl, rfl⟩ := CanEvent.passed.inj (List.mem_singleton.mp hmem)
      exact h.decodes n hirq

/-- The acknowledgement clears no flag that is up. -/
theorem RxInv.rxView_rxAck (h : RxInv first events s) (hirq : s.irq = .rxAck) :
    rxView (mcp2515BitModify s.regs canintf (s.flags &&& rxifMask) 0) = rxView s.regs := by
  have hbits : ∀ (flags : Byte) (n : Fin 2),
      (flags &&& rxifMask).getLsbD n = true → flags.getLsbD n = true := by decide
  exact rxView_bitModify_canintf fun n hn =>
    (h.cleared n (by simp [drained, hirq, hbits s.flags n hn])).trans (by simp)

/-- A frame that arrives is held, unless it arrives behind a read. -/
theorem RxInv.of_arrive (h : RxInv first events s) {m : Fin 2} (image : Bytes maxBufLen)
    (hempty : rxif s.regs m = false) (hbehind : drained s.irq s.flags m = false) :
    RxInv first (events ++ [.stored m image])
      { s with
        regs := mcp2515BitModify (mcp2515WriteNregs s.regs (rxbsidh m) image) canintf (bit m) 0xFF }
    where
  accounted := by
    intro n
    obtain ⟨hstored, hpassed, _⟩ := events_stored n events m image
    obtain ⟨hflag, himage⟩ := @rx_arrive s.regs m n image
    rw [hstored, hpassed, ← List.append_assoc, h.accounted n, held, held, hflag, himage]
    by_cases hn : n = m
    · subst hn
      simp [hempty]
    · simp [hn, Ne.symm hn]
  unread := by
    intro n hn
    rw [(rx_arrive m n image).1, h.unread n hn, Bool.or_true]
  cleared := by
    intro n hn
    have hne : n ≠ m := by
      rintro rfl
      exact absurd hn (by simp [hbehind])
    rw [(rx_arrive m n image).1, h.cleared n hn]
    simp [hne]
  decodes := h.decodes
  decoded := by simpa using h.decoded

/-- What a client receives does not touch the account. -/
theorem RxInv.of_received (h : RxInv first events s) (frame : Option CanFrame) (hregs : t.regs = s.regs)
    (hirq : t.irq = s.irq) (hflags : t.flags = s.flags) (hframe : t.rxFrame = s.rxFrame)
    (hbuf : t.buf = s.buf) : RxInv first (events ++ [.received frame]) t where
  accounted := by
    intro n
    obtain ⟨hstored, hpassed, _⟩ := events_received n events frame
    rw [hstored, hpassed, hregs, hirq, hbuf]
    exact h.accounted n
  unread := by rw [hregs, hirq, hflags]; exact h.unread
  cleared := by rw [hregs, hirq, hflags]; exact h.cleared
  decodes := by rw [hirq, hframe, hbuf]; exact h.decodes
  decoded := by simpa using h.decoded

/-- The handler reads the flags: the buffers it will read are those whose flags are up. -/
theorem RxInv.of_readFlags (h : RxInv first events s) (hirq : s.irq = .readFlags) :
    RxInv first (events ++ [.silent])
      { s with flags := s.regs canintf, irq := dispatchMerr (s.regs canintf) } := by
  have hspec := (headsForReceive_of_inErrorBranch_or (dispatchMerr_cases (s.regs canintf))).spec
  refine ⟨?_, fun n => (hspec n).1, ?_, fun n hpush => absurd hpush (hspec n).2.1,
    by simpa using h.decoded⟩
  · intro n
    obtain ⟨hstored, hpassed, _⟩ := events_silent n events
    have hbefore := h.accounted n
    rw [hstored, hpassed, hbefore, hirq, inHand_eq_nil (hspec n).2.1]
    rfl
  · intro n hn
    rw [(hspec n).2.2] at hn
    exact absurd hn (by simp)

/-- Every step keeps the account, unless a frame arrives behind a read. -/
theorem RxEffect.rxInv {label : CanLabel} {event : CanEvent}
    (heffect : RxEffect Spi.numberedReader s label event t) (h : RxInv first events s)
    (hlabel : arrivesBehindRead s label = false) : RxInv first (events ++ [event]) t := by
  cases heffect with
  | quiet hquiet => exact h.of_quiet hquiet
  | readFlags hirq => exact h.of_readFlags hirq
  | @rxRead m frame hirq hframe =>
    rw [Spi.numberedReader_read] at hframe ⊢
    exact h.of_rxRead hirq hframe
  | rxPush hirq => exact h.of_rxPush hirq
  | rxAck hirq =>
    exact h.of_quiet ⟨h.rxView_rxAck hirq, rfl, by simp [hirq], fun _ => False.elim, by simp [drained],
      by simp⟩
  | arrive m image hempty => exact h.of_arrive image hempty hlabel
  | noFrame => exact h.of_received none rfl rfl rfl rfl rfl
  | receive => exact h.of_received _ rfl rfl rfl rfl rfl

/-- Every step keeps the frames of the receive queue, unless a client removes from an empty queue. -/
theorem RxEffect.delivered {reader : Spi.RxbReader} {label : CanLabel} {event : CanEvent}
    (heffect : RxEffect reader s label event t) (h : Delivered queued events s)
    (hlabel : removesFrame s label = true) : Delivered queued (events ++ [event]) t := by
  have hsilent (hqueue : t.queues.contents .rxq = s.queues.contents .rxq) :
      Delivered queued (events ++ [.silent]) t := by
    obtain ⟨_, _, haccepted, hreceived⟩ := events_silent 0 events
    rw [Delivered, haccepted, hreceived, hqueue]
    exact h
  cases heffect with
  | quiet hquiet => exact hsilent hquiet.queue
  | readFlags | rxRead | rxAck => exact hsilent rfl
  | @rxPush m hirq =>
    obtain ⟨_, _, haccepted, hreceived⟩ :=
      events_passed 0 events m s.buf s.rxFrame (s.queues.rxQueuePush s.rxFrame).1
    rw [Delivered, haccepted, hreceived, ← List.append_assoc, h]
    obtain ⟨hret, hcontents⟩ | ⟨hret, _, hsame⟩ := s.queues.push_cases .rxq s.rxFrame
    · simp [MessageQueues.rxQueuePush, hret, hcontents]
    · simp [MessageQueues.rxQueuePush, hret, hsame]
  | arrive m image =>
    obtain ⟨_, _, haccepted, hreceived⟩ := events_stored 0 events m image
    rw [Delivered, haccepted, hreceived]
    exact h
  | noFrame =>
    obtain ⟨_, _, haccepted, hreceived⟩ := events_received 0 events none
    rw [Delivered, haccepted, hreceived, h]
    simp
  | receive =>
    have hempty : mqIsEmpty (s.queues.cbs .rxq) = false := by simpa [removesFrame] using hlabel
    obtain ⟨_, _, haccepted, hreceived⟩ := events_received 0 events (some (s.queues.remove .rxq).1)
    rw [Delivered, haccepted, hreceived, h, MessageQueues.contents_remove_self hempty, List.append_assoc]
    rfl

/-- The flag of a receive buffer falls only when the handler reads the frame in the buffer. -/
theorem RxEffect.rxif_falls {label : CanLabel} {event : CanEvent}
    (heffect : RxEffect Spi.numberedReader s label event t) (h : RxInv first events s) {n : Fin 2}
    (hup : rxif s.regs n = true) (hdown : rxif t.regs n = false) :
    label = .irq ∧ s.irq = .rxRead n ∧ t.irq = .rxPush n ∧ t.buf = rxbImage s.regs n := by
  have hstays (hview : rxView t.regs = rxView s.regs) : False := by
    rw [(held_of_view hview n).1, hup] at hdown
    exact absurd hdown (by simp)
  cases heffect with
  | quiet hquiet => exact (hstays hquiet.view).elim
  | readFlags hirq => exact (hstays rfl).elim
  | @rxRead m frame hirq hframe =>
    rw [Spi.numberedReader_read] at hdown ⊢
    rw [rxif_clear, hup, Bool.and_true] at hdown
    obtain rfl : n = m := by simpa using hdown
    exact ⟨rfl, hirq, rfl, rfl⟩
  | rxPush hirq => exact (hstays rfl).elim
  | rxAck hirq => exact (hstays (h.rxView_rxAck hirq)).elim
  | arrive m image hempty =>
    rw [(rx_arrive m n image).1, hup, Bool.or_true] at hdown
    exact absurd hdown (by simp)
  | noFrame => exact (hstays rfl).elim
  | receive => exact (hstays rfl).elim

/-- A frame is passed on with the result of its push, which fails only on a full queue. -/
theorem RxEffect.passed_result {reader : Spi.RxbReader} {label : CanLabel} {m : Fin 2} {image : Bytes maxBufLen}
    {frame : CanFrame} {ret : ℤ} (heffect : RxEffect reader s label (.passed m image frame ret) t) :
    ret = 0 ∨ (ret = -1 ∧ mqIsFull (s.queues.cbs .rxq) = true) := by
  cases heffect with
  | rxPush hirq =>
    obtain ⟨hret, _⟩ | ⟨hret, hfull, _⟩ := s.queues.push_cases .rxq s.rxFrame
    · exact Or.inl hret
    · exact Or.inr ⟨hret, hfull⟩

end Steps

/-- In every run in which no frame arrives behind a read: every frame that was stored has been
passed on once, is in hand or is still held; what was passed on is what the buffer decodes to; the
frames that the queue accepted are received in order, if no client removes from an empty queue. A
further step clears a flag only by reading the frame in the buffer, and a frame is lost only on a full
queue. -/
theorem stored_frames_passed_once {regs : Regs} {queues : MessageQueues} {frame : CanFrame}
    {labels : List CanLabel} {events : List CanEvent} {reached : CanState}
    (hbehind : StepsMeet numberedStep (arrivesBehindRead · · = false) (.start regs queues frame) labels)
    (hrun : run numberedStep (.start regs queues frame) labels = some (events, reached)) :
    (∀ n, held regs n ++ storedImages n events =
        passedImages n events ++ (inHand reached.irq reached.buf n ++ held reached.regs n)) ∧
      (∀ n image passed ret, .passed n image passed ret ∈ events →
        ∃ old, recvRxb old image = some passed) ∧
      (StepsMeet numberedStep (removesFrame · · = true) (.start regs queues frame) labels →
        queues.contents .rxq ++ acceptedFrames events =
          receivedFrames events ++ reached.queues.contents .rxq) ∧
      ∀ label event next, numberedStep reached label = some (event, next) →
        (∀ n, rxif reached.regs n = true → rxif next.regs n = false →
          label = .irq ∧ reached.irq = .rxRead n ∧ next.irq = .rxPush n ∧
            next.buf = rxbImage reached.regs n) ∧
        ∀ n image passed ret, event = .passed n image passed ret →
          ret = 0 ∨ (ret = -1 ∧ mqIsFull (reached.queues.cbs .rxq) = true) := by
  have hstart : RxInv (held regs) [] (.start regs queues frame) :=
    ⟨fun n => by simp [storedImages, passedImages, CanState.start, inHand], fun _ => False.elim,
      by simp [CanState.start, drained], by simp [CanState.start], by simp⟩
  have hreached : RxInv (held regs) events reached :=
    run_invariant (RxInv (held regs))
      (fun _ _ _ _ _ h hlabel hstep => (componentStep_rxEffect hstep).rxInv h hlabel) [] hstart hbehind
      hrun
  refine ⟨hreached.accounted, hreached.decoded, fun hremoves => ?_, ?_⟩
  · have hempty : Delivered (queues.contents .rxq) [] (.start regs queues frame) := by
      simp [Delivered, acceptedFrames, receivedFrames, CanState.start]
    exact run_invariant (Delivered (queues.contents .rxq))
      (fun _ _ _ _ _ h hlabel hstep => (componentStep_rxEffect hstep).delivered h hlabel) [] hempty
      hremoves hrun
  · intro label event next hstep
    refine ⟨fun n => (componentStep_rxEffect hstep).rxif_falls hreached, ?_⟩
    rintro n image passed ret rfl
    exact (componentStep_rxEffect hstep).passed_result

/-- A receive buffer with an empty standard frame. -/
def sampleImage (sidh : Byte) : Bytes maxBufLen := fun i => if i.val = 0 then sidh else 0

/-- Two frames arrive in the same buffer, the second one after the handler has returned. -/
theorem second_frame_held :
    ∃ events reached, run numberedStep idleComponent
        (.arrive 0 (sampleImage 1) :: irqSteps 5 ++ [.arrive 0 (sampleImage 2)]) =
          some (events, reached) ∧
      storedImages 0 events = passedImages 0 events ++ held reached.regs 0 := by
  have hreplay : (run numberedStep idleComponent
      (.arrive 0 (sampleImage 1) :: irqSteps 5 ++ [.arrive 0 (sampleImage 2)])).map
        (fun r => r.2.irq) = some .idle := by decide
  obtain ⟨⟨events, reached⟩, hrun, hirq⟩ := Option.map_eq_some_iff.mp hreplay
  have haccounted := (stored_frames_passed_once (by decide) hrun).1 0
  refine ⟨events, reached, hrun, ?_⟩
  dsimp only at hirq
  rw [hirq] at haccounted
  exact haccounted

/-- Two frames arrive in the same buffer, the second one between the read of the first one and the
acknowledgement. -/
def discardedFrame (n : Fin 2) : List CanLabel :=
  .arrive n (sampleImage 1) :: irqSteps 2 ++ .arrive n (sampleImage 2) :: List.replicate 3 .irq

/-- After that run the handler is idle and the flag of the buffer is down, but the second frame has
not been passed on. -/
theorem discardedFrame_not_passed :
    ∃ events reached, run numberedStep idleComponent (discardedFrame 0) = some (events, reached) ∧
      storedImages 0 events = [sampleImage 1, sampleImage 2] ∧
      passedImages 0 events = [sampleImage 1] ∧ reached.irq = .idle ∧ rxif reached.regs 0 = false := by
  have hreplay : (run numberedStep idleComponent (discardedFrame 0)).map
      (fun r => (storedImages 0 r.1, passedImages 0 r.1, r.2.irq, rxif r.2.regs 0)) =
        some ([sampleImage 1, sampleImage 2], [sampleImage 1], .idle, false) := by decide
  obtain ⟨⟨events, reached⟩, hrun, hviews⟩ := Option.map_eq_some_iff.mp hreplay
  simp only [Prod.mk.injEq] at hviews
  exact ⟨events, reached, hrun, hviews⟩

end CamkesVm.Can
