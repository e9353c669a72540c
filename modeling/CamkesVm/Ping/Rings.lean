import CamkesVm.Machine.Run
import CamkesVm.Ping.PacketSafety

/-!
# The rings of the ping client

The guest puts requests on one ring and returns the client's buffers on another, and then notifies.
A notification is one bit: it stays set until the callback runs, whatever else is put on the rings
before that. The callback polls each ring once and handles one entry of it at most.

So one entry for each notification is handled in time, and several entries behind one notification
are not. The callback leaves nothing behind as long as no poll finds a second entry without finding
a further notification.
-/

namespace CamkesVm.Ping

open CamkesVm.Machine

/-- A buffer of a request. -/
abbrev RecvBuffer := Σ size : BitVec 32, Bytes size.toNat

/-- Where the client is in `ping_wait_callback`. -/
inductive PingPc
  | idle
  | pollRecv
  | getAvailable
  | gatherRecv
  | addUsed
  | pollSend
  | getUsed
  | gatherSend
  deriving DecidableEq

/-- The rings and the client. An entry of the receive ring is a chain of buffers; so is a used entry of
the send ring, whose buffers are known by their addresses. -/
structure PingState where
  recvRing : List (List RecvBuffer)
  sendRing : List (List ℕ)
  pending : Bool
  pc : PingPc
  recvChain : List RecvBuffer
  sendChain : List ℕ

/-- The client after its start. -/
def PingState.start : PingState := ⟨[], [], false, .idle, [], []⟩

/-- A step of the guest, which ends with a notification, or of the client. The local buffers of
`handle_recv_data` are not initialised; the step that enters it names what they hold. -/
inductive PingLabel
  | guestRequests (entries : List (List RecvBuffer))
  | guestReturns (entries : List (List ℕ))
  | wake
  | callback (ipPacket replyBuffer : Bytes ethermtu)

/-- What a step shows: the reply to a buffer, if one was sent, or a buffer that was freed. -/
inductive PingEvent
  | silent
  | handled (sent : Option (List Byte))
  | freed (buffer : ℕ)

/-- One step of `ping_wait_callback`. -/
def callbackStep (s : PingState) (ipPacket replyBuffer : Bytes ethermtu) :
    Option (PingEvent × PingState) :=
  match s.pc with
  | .idle => none
  | .pollRecv =>
    some (.silent, { s with pc := if s.recvRing.isEmpty then .pollSend else .getAvailable })
  | .getAvailable =>
    match s.recvRing with
    | [] => some (.silent, { s with pc := .pollSend })
    | entry :: rest => some (.silent, { s with recvRing := rest, recvChain := entry, pc := .gatherRecv })
  | .gatherRecv =>
    match s.recvChain with
    | [] => some (.silent, { s with pc := .addUsed })
    | buffer :: rest =>
      (handleRecvData ipPacket replyBuffer buffer.1 buffer.2).map fun sent =>
        (.handled sent, { s with recvChain := rest })
  | .addUsed => some (.silent, { s with pc := .pollSend })
  | .pollSend => some (.silent, { s with pc := if s.sendRing.isEmpty then .idle else .getUsed })
  | .getUsed =>
    match s.sendRing with
    | [] => some (.silent, { s with pc := .idle })
    | entry :: rest => some (.silent, { s with sendRing := rest, sendChain := entry, pc := .gatherSend })
  | .gatherSend =>
    match s.sendChain with
    | [] => some (.silent, { s with pc := .idle })
    | buffer :: rest => some (.freed buffer, { s with sendChain := rest })

/-- One step of the guest or the client. A notification runs the callback when the client is idle. -/
def pingStep (s : PingState) : PingLabel → Option (PingEvent × PingState)
  | .guestRequests entries =>
    some (.silent, { s with recvRing := s.recvRing ++ entries, pending := true })
  | .guestReturns entries =>
    some (.silent, { s with sendRing := s.sendRing ++ entries, pending := true })
  | .wake =>
    if s.pc = .idle ∧ s.pending = true then some (.silent, { s with pending := false, pc := .pollRecv })
    else none
  | .callback ipPacket replyBuffer => callbackStep s ipPacket replyBuffer

/-- A poll that finds more than one entry finds a notification pending. -/
def PollsOne (s : PingState) : PingLabel → Prop
  | .callback _ _ => s.pending = false → (s.pc = .pollRecv → s.recvRing.length ≤ 1) ∧
      (s.pc = .pollSend → s.sendRing.length ≤ 1)
  | _ => True

instance (s : PingState) : ∀ label, Decidable (PollsOne s label)
  | .callback _ _ => inferInstanceAs (Decidable (s.pending = false → _ ∧ _))
  | .guestRequests _ | .guestReturns _ | .wake => isTrue trivial

/-- How many entries the rings may hold when no notification is pending, for each place of the
callback. -/
def Drained (s : PingState) : Prop :=
  match s.pc with
  | .pollRecv => True
  | .getAvailable => s.recvRing.length ≤ 1
  | .gatherRecv | .addUsed | .pollSend => s.recvRing = []
  | .getUsed => s.recvRing = [] ∧ s.sendRing.length ≤ 1
  | .idle | .gatherSend => s.recvRing = [] ∧ s.sendRing = []

/-- The invariant of the client. -/
def DrainInv (s : PingState) : Prop := s.pending = false → Drained s

section Steps

variable {s t : PingState} {event : PingEvent}

/-- A poll finds an empty ring, or a first entry to get. -/
theorem drained_poll {α : Type} {ring : List α} {empty full : PingPc} {P : PingPc → Prop}
    (hempty : ring = [] → P empty) (hfull : P full) : P (if ring.isEmpty then empty else full) := by
  split
  next h => exact hempty (List.isEmpty_iff.mp h)
  next => exact hfull

/-- The branches of `callbackStep`. -/
inductive CallbackMove (s : PingState) : PingEvent → PingState → Prop
  | pollRecv (hpc : s.pc = .pollRecv) : CallbackMove s .silent
      { s with pc := if s.recvRing.isEmpty then .pollSend else .getAvailable }
  | noAvailable (hpc : s.pc = .getAvailable) (hring : s.recvRing = []) :
      CallbackMove s .silent { s with pc := .pollSend }
  | getAvailable {entry : List RecvBuffer} {rest : List (List RecvBuffer)} (hpc : s.pc = .getAvailable)
      (hring : s.recvRing = entry :: rest) :
      CallbackMove s .silent { s with recvRing := rest, recvChain := entry, pc := .gatherRecv }
  | endRecv (hpc : s.pc = .gatherRecv) : CallbackMove s .silent { s with pc := .addUsed }
  | gatherRecv {sent : Option (List Byte)} {rest : List RecvBuffer} (hpc : s.pc = .gatherRecv) :
      CallbackMove s (.handled sent) { s with recvChain := rest }
  | addUsed (hpc : s.pc = .addUsed) : CallbackMove s .silent { s with pc := .pollSend }
  | pollSend (hpc : s.pc = .pollSend) : CallbackMove s .silent
      { s with pc := if s.sendRing.isEmpty then .idle else .getUsed }
  | noUsed (hpc : s.pc = .getUsed) (hring : s.sendRing = []) :
      CallbackMove s .silent { s with pc := .idle }
  | getUsed {entry : List ℕ} {rest : List (List ℕ)} (hpc : s.pc = .getUsed)
      (hring : s.sendRing = entry :: rest) :
      CallbackMove s .silent { s with sendRing := rest, sendChain := entry, pc := .gatherSend }
  | endSend (hpc : s.pc = .gatherSend) : CallbackMove s .silent { s with pc := .idle }
  | gatherSend {buffer : ℕ} {rest : List ℕ} (hpc : s.pc = .gatherSend) :
      CallbackMove s (.freed buffer) { s with sendChain := rest }

/-- A step of the callback is one of its branches. -/
theorem callbackMove_of_callbackStep {ipPacket replyBuffer : Bytes ethermtu}
    (hstep : callbackStep s ipPacket replyBuffer = some (event, t)) : CallbackMove s event t := by
  unfold callbackStep at hstep
  split at hstep
  next => exact absurd hstep (by simp)
  next hpc =>
    cases hstep
    exact .pollRecv hpc
  next hpc =>
    split at hstep
    next hring => cases hstep; exact .noAvailable hpc hring
    next hring => cases hstep; exact .getAvailable hpc hring
  next hpc =>
    split at hstep
    next => cases hstep; exact .endRecv hpc
    next =>
      obtain ⟨_, _, hafter⟩ := Option.map_eq_some_iff.mp hstep
      cases hafter
      exact .gatherRecv hpc
  next hpc =>
    cases hstep
    exact .addUsed hpc
  next hpc =>
    cases hstep
    exact .pollSend hpc
  next hpc =>
    split at hstep
    next hring => cases hstep; exact .noUsed hpc hring
    next hring => cases hstep; exact .getUsed hpc hring
  next hpc =>
    split at hstep
    next => cases hstep; exact .endSend hpc
    next => cases hstep; exact .gatherSend hpc

/-- The last entry of a ring is taken. -/
theorem rest_eq_nil {α : Type} {ring rest : List α} {entry : α} (hring : ring = entry :: rest)
    (hone : ring.length ≤ 1) : rest = [] := by
  rw [hring, List.length_cons] at hone
  exact List.length_eq_zero_iff.mp (by omega)

/-- The callback goes on from one place to the next with no more entries than that one allows. -/
theorem callbackMove_drained (h : Drained s) (hrecv : s.pc = .pollRecv → s.recvRing.length ≤ 1)
    (hsend : s.pc = .pollSend → s.sendRing.length ≤ 1) (hmove : CallbackMove s event t) :
    Drained t := by
  unfold Drained at h
  cases hmove with
  | pollRecv hpc =>
    exact drained_poll (P := fun pc => Drained { s with pc := pc }) id (hrecv hpc)
  | noAvailable hpc hring => exact hring
  | getAvailable hpc hring =>
    rw [hpc] at h
    exact rest_eq_nil hring h
  | endRecv hpc | addUsed hpc | endSend hpc =>
    rw [hpc] at h
    exact h
  | gatherRecv hpc | gatherSend hpc =>
    rw [hpc] at h
    unfold Drained
    rw [hpc]
    exact h
  | pollSend hpc =>
    rw [hpc] at h
    exact drained_poll (P := fun pc => Drained { s with pc := pc }) (fun hring => ⟨h, hring⟩)
      ⟨h, hsend hpc⟩
  | noUsed hpc hring =>
    rw [hpc] at h
    exact ⟨h.1, hring⟩
  | getUsed hpc hring =>
    rw [hpc] at h
    exact ⟨h.1, rest_eq_nil hring h.2⟩

/-- The callback does not touch the notification. -/
theorem callbackMove_pending (hmove : CallbackMove s event t) : t.pending = s.pending := by
  cases hmove <;> rfl

/-- Every step in which a poll finds one entry at most keeps the invariant. -/
theorem DrainInv.step {label : PingLabel} (h : DrainInv s) (hpolls : PollsOne s label)
    (hstep : pingStep s label = some (event, t)) : DrainInv t := by
  cases label with
  | guestRequests entries | guestReturns entries =>
    obtain ⟨_, rfl⟩ := Prod.mk.inj (Option.some.inj hstep)
    exact fun hpending => absurd hpending (by simp)
  | wake =>
    simp only [pingStep] at hstep
    split at hstep
    · obtain ⟨_, rfl⟩ := Prod.mk.inj (Option.some.inj hstep)
      exact fun _ => trivial
    · exact absurd hstep (by simp)
  | callback ipPacket replyBuffer =>
    intro hpending
    have hmove := callbackMove_of_callbackStep hstep
    rw [callbackMove_pending hmove] at hpending
    obtain ⟨hrecv, hsend⟩ := hpolls hpending
    exact callbackMove_drained (h hpending) hrecv hsend hmove

end Steps

/-- In every run in which no poll finds a second entry without a notification pending, both rings are
empty when the client is idle and no notification is pending. -/
theorem rings_drained_of_pollsOne {labels : List PingLabel} {events : List PingEvent}
    {reached : PingState} (hpolls : StepsMeet pingStep PollsOne .start labels)
    (hrun : run pingStep .start labels = some (events, reached)) (hidle : reached.pc = .idle)
    (hpending : reached.pending = false) : reached.recvRing = [] ∧ reached.sendRing = [] := by
  have hstart : DrainInv .start := fun _ => ⟨rfl, rfl⟩
  have hinv : DrainInv reached := run_state_invariant DrainInv
    (fun _ _ _ _ h hpolls hstep => h.step hpolls hstep) hstart hpolls hrun
  have hdrained := hinv hpending
  unfold Drained at hdrained
  rw [hidle] at hdrained
  exact hdrained

/-- A request of one buffer, of a protocol that is not answered. -/
def blankRequest : List RecvBuffer := [⟨14, blankPacket 14 0⟩]

/-- The guest puts requests on the ring and notifies, and the callback runs until it returns. -/
def requestRun (entries : ℕ) : List PingLabel :=
  .guestRequests (List.replicate entries blankRequest) :: .wake ::
    List.replicate 6 (.callback (fun _ => 0) (fun _ => 0))

/-- One request is handled by one run of the callback. -/
theorem oneRequest_drained :
    ∃ events reached, run pingStep .start (requestRun 1) = some (events, reached) ∧
      reached.recvRing = [] ∧ reached.sendRing = [] := by
  have hreplay : (run pingStep .start (requestRun 1)).map (fun r => (r.2.pc, r.2.pending)) =
      some (.idle, false) := by decide
  obtain ⟨⟨events, reached⟩, hrun, hviews⟩ := Option.map_eq_some_iff.mp hreplay
  obtain ⟨hidle, hpending⟩ := Prod.mk.inj hviews
  exact ⟨events, reached, hrun, rings_drained_of_pollsOne (by decide) hrun hidle hpending⟩

/-- Of two requests behind one notification the second is left on the ring. -/
theorem twoRequests_left :
    ∃ events reached, run pingStep .start (requestRun 2) = some (events, reached) ∧
      reached.pc = .idle ∧ reached.pending = false ∧ reached.recvRing.length = 1 := by
  have hreplay : (run pingStep .start (requestRun 2)).map
      (fun r => (r.2.pc, r.2.pending, r.2.recvRing.length)) = some (.idle, false, 1) := by decide
  obtain ⟨⟨events, reached⟩, hrun, hviews⟩ := Option.map_eq_some_iff.mp hreplay
  simp only [Prod.mk.injEq] at hviews
  exact ⟨events, reached, hrun, hviews⟩

end CamkesVm.Ping
