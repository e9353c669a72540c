import CamkesVm.Can.Flags
import CamkesVm.Can.Moves

/-!
# The interrupt chain

The controller asserts its interrupt pin while an enabled flag is up. The GPIO component waits
for the pin to fall and emits one event each time it does, and each event runs the handler once.
A flag that rises while the pin is asserted makes no event of its own, so it depends on the
handler that is running.

The handler reads the flags once and clears those it has seen, one group after the other. What
it has seen and not yet cleared it is going to clear, and so are its reads of the receive buffers, both
of which clear the flag of the first buffer. Any other flag that rises behind its back while others
hold the pin down is left when it returns, and then no further event comes.
-/

namespace CamkesVm.Can

open CamkesVm.Machine

/-- The flags that are up and whose interrupts are enabled. -/
def intSources (regs : Regs) : Byte := regs canintf &&& regs caninte

/-- The interrupt pin is asserted. -/
def pinAsserted (regs : Regs) : Bool := intSources regs != 0

/-- The events that the GPIO component emits for a change of the registers. -/
def fallingEdges (before after : Regs) : ℕ :=
  if pinAsserted before = false ∧ pinAsserted after = true then 1 else 0

/-- Enable all interrupts but the wake-up. -/
def enableIntrrupt (regs : Regs) : Regs :=
  mcp2515WriteReg regs caninte
    (bit 0 ||| bit 1 ||| (bit 2 ||| bit 3 ||| bit 4) ||| bit 7 ||| bit 5)

/-- The component and the events that have not run the handler yet. -/
structure ChainState where
  can : CanState
  pending : ℕ

/-- The chain after `enable_intrrupt`, with any register contents. The reset before it disables all
interrupts, so the pin was released. -/
def ChainState.start (regs : Regs) (queues : MessageQueues) (frame : CanFrame) : ChainState :=
  let reset := mcp2515WriteReg regs caninte 0
  { can := .start (enableIntrrupt reset) queues frame
    pending := fallingEdges reset (enableIntrrupt reset) }

/-- The number of events that a step uses up. -/
def eventsTaken : CanLabel → ℕ
  | .interrupt _ _ => 1
  | _ => 0

/-- One step of the component, with the events it uses up and those it causes. -/
def chainStep (s : ChainState) (label : CanLabel) : Option (CanEvent × ChainState) :=
  if s.pending < eventsTaken label then none
  else (canStep s.can label).map fun r =>
    (r.1, ⟨r.2, s.pending - eventsTaken label + fallingEdges s.can.regs r.2.regs⟩)

/-- The flags that reads of the given receive buffers clear. -/
def readsClear (reads : Fin 2 → Bool) : Byte :=
  (List.ofFn fun n => if reads n then bit (Spi.codeReader.buffer n) else 0#8).foldl (· ||| ·) 0#8

/-- The flags that `receive_message` clears: those it is called with, and those of its reads. -/
def receiveClears (flags : Byte) : Byte :=
  flags &&& rxifMask ||| readsClear fun n => flags.getLsbD n

/-- The flags that the handler is going to clear before it returns. Before it has read them, these
are all flags. -/
def willClear (irq : IrqPc) (flags : Byte) : Byte :=
  match irq with
  | .idle | .finish => 0
  | .readFlags => 0xFF
  | .merrMode | .merrConfig | .merrListen | .merrClear => flags ||| receiveClears flags
  | .wakClear => flags &&& 0x7F ||| receiveClears flags
  | .errRead | .errOverflow _ | .errClear => flags &&& 0x3F ||| receiveClears flags
  | .txClear => flags &&& 0x1F ||| receiveClears flags
  | .txPop _ | .txWait _ | .txLoad _ | .txPrio _ | .txStop | .txRts => receiveClears flags
  | .rxRead n => flags &&& rxifMask ||| readsClear fun m => m = n || (n < m && flags.getLsbD m)
  | .rxPush n => flags &&& rxifMask ||| readsClear fun m => n < m && flags.getLsbD m
  | .rxAck => flags &&& rxifMask

/-- The flags that a step raises. -/
def raised (s : CanState) : CanLabel → Byte
  | .client thread =>
    match s.clients thread with
    | .trigger _ _ i => canintfTx0if <<< i.val
    | _ => 0
  | .complete n => canintfTx0if <<< n.val
  | .arrive n _ => bit n
  | .fault bits _ => bits &&& (bit 5 ||| bit 6 ||| bit 7)
  | _ => 0

section Steps

variable {s t : CanState} {up : Byte}

/-- What a step does to the chain: it raises the given flags at most, enables nothing, and lets the
handler forget no flag that stays up. -/
structure ChainEffect (up : Byte) (s t : CanState) : Prop where
  enabled : ∀ i : Fin 8, (t.regs caninte).getLsbD i = true → (s.regs caninte).getLsbD i = true
  flags : ∀ i : Fin 8, (t.regs canintf).getLsbD i = true →
    (s.regs canintf).getLsbD i = true ∨ up.getLsbD i = true
  clears : ∀ i : Fin 8, (t.regs canintf).getLsbD i = true →
    (willClear s.irq s.flags).getLsbD i = true → (willClear t.irq t.flags).getLsbD i = true

/-- A step that leaves the flags and the enable bits. -/
theorem ChainEffect.of_quiet (hflags : t.regs canintf = s.regs canintf)
    (henabled : t.regs caninte = s.regs caninte)
    (hclear : willClear t.irq t.flags = willClear s.irq s.flags) : ChainEffect up s t where
  enabled _ := by rw [henabled]; exact id
  flags _ := by rw [hflags]; exact Or.inl
  clears _ _ := by rw [hclear]; exact id

/-- A step of the handler that clears flags and strikes no others off its list. -/
theorem ChainEffect.of_clear {mask : Byte} (hregs : t.regs = mcp2515BitModify s.regs canintf mask 0)
    (hclear : ∀ i : Fin 8, mask.getLsbD i = false →
      (willClear s.irq s.flags).getLsbD i = true → (willClear t.irq t.flags).getLsbD i = true) :
    ChainEffect up s t := by
  have hflag : ∀ i : Fin 8, (t.regs canintf).getLsbD i = true →
      mask.getLsbD i = false ∧ (s.regs canintf).getLsbD i = true := by
    intro i hi
    rw [hregs, getLsbD_bitModify_canintf mask 0 i.isLt] at hi
    split at hi
    · exact absurd hi (by simp)
    next hmask => exact ⟨Bool.eq_false_iff.mpr hmask, hi⟩
  refine ⟨fun i hi => ?_, fun i hi => Or.inl (hflag i hi).2, fun i hi => hclear i (hflag i hi).1⟩
  rwa [hregs, mcp2515BitModify, Function.update_of_ne (by decide)] at hi

/-- A step that raises flags, made by a client or the controller. -/
theorem ChainEffect.of_raise {regs : Regs} (hregs : t.regs = mcp2515BitModify regs canintf up 0xFF)
    (hflags : regs canintf = s.regs canintf) (henabled : regs caninte = s.regs caninte)
    (hclear : willClear t.irq t.flags = willClear s.irq s.flags) : ChainEffect up s t := by
  refine ⟨fun i hi => ?_, fun i hi => ?_, fun _ _ => by rw [hclear]; exact id⟩
  · rwa [hregs, mcp2515BitModify, Function.update_of_ne (by decide), henabled] at hi
  · rw [hregs, getLsbD_bitModify_canintf up 0xFF i.isLt, hflags] at hi
    split at hi
    next hup => exact Or.inr hup
    next => exact Or.inl hi

/-- A read clears one flag. -/
theorem getLsbD_readsClear {reads : Fin 2 → Bool} {i : ℕ} : (readsClear reads).getLsbD i = true ↔
    ∃ n, reads n = true ∧ (bit (Spi.codeReader.buffer n)).getLsbD i = true := by
  rw [Fin.exists_fin_two]
  cases hfirst : reads 0 <;> cases hsecond : reads 1 <;> simp [readsClear, hfirst, hsecond]

/-- The tests of the handler pass over no flag that it has seen. -/
theorem willClear_dispatch : ∀ flags : Byte,
    willClear (dispatchMerr flags) flags = flags ||| receiveClears flags ∧
    willClear (dispatchWak flags) flags = flags &&& 0x7F ||| receiveClears flags ∧
    willClear (dispatchErr flags) flags = flags &&& 0x3F ||| receiveClears flags ∧
    willClear (dispatchTx flags) flags = flags &&& 0x1F ||| receiveClears flags ∧
    willClear (dispatchRx flags) flags = receiveClears flags ∧
    ∀ n : Fin 2, willClear (if n = 0 then receiveSecond flags else .rxAck) flags =
      willClear (.rxPush n) flags := by
  decide +kernel

/-- A list that differs from the next one in the cleared flags only is kept for the others. -/
theorem getLsbD_of_struck {mask before after : Byte} (flags ahead : Byte)
    (hstruck : ∀ i : Fin 8, mask.getLsbD i = false → before.getLsbD i = true → after.getLsbD i = true)
    (i : Fin 8) (hmask : mask.getLsbD i = false)
    (hbefore : (flags &&& before ||| ahead).getLsbD i = true) :
    (flags &&& after ||| ahead).getLsbD i = true := by
  rw [BitVec.getLsbD_or, BitVec.getLsbD_and, Bool.or_eq_true, Bool.and_eq_true] at hbefore ⊢
  exact hbefore.imp_left (And.imp_right (hstruck i hmask))

/-- The error branches clear their flags and keep the others on the list. -/
theorem errorStep_chainEffect (hstep : errorStep s = some t) : ChainEffect up s t := by
  obtain ⟨_, hwak, herr, htx, _⟩ := willClear_dispatch s.flags
  unfold errorStep at hstep
  split at hstep
  next hirq =>
    split at hstep <;> obtain rfl := Option.some.inj hstep <;>
    exact .of_quiet rfl rfl (by rw [hirq]; rfl)
  next hirq =>
    obtain rfl := Option.some.inj hstep
    exact .of_quiet rfl rfl (by rw [hirq]; rfl)
  next hirq =>
    obtain rfl := Option.some.inj hstep
    exact .of_quiet rfl rfl (by rw [hirq]; rfl)
  next hirq =>
    obtain rfl := Option.some.inj hstep
    refine .of_clear rfl fun i hmask hlist => ?_
    have hall : (s.flags &&& BitVec.allOnes 8 ||| receiveClears s.flags).getLsbD i = true := by
      rw [hirq] at hlist
      rw [BitVec.and_allOnes]
      exact hlist
    rw [hwak]
    exact getLsbD_of_struck s.flags _ (by decide) i hmask hall
  next hirq =>
    obtain rfl := Option.some.inj hstep
    refine .of_clear rfl fun i => ?_
    rw [hirq, herr]
    exact getLsbD_of_struck s.flags _ (by decide) i
  next hirq =>
    dsimp only at hstep
    split at hstep <;> obtain rfl := Option.some.inj hstep <;>
    exact .of_quiet rfl rfl (by rw [hirq]; rfl)
  next overflows hirq =>
    obtain rfl := Option.some.inj hstep
    exact .of_quiet rfl rfl (by rw [hirq]; rfl)
  next hirq =>
    obtain rfl := Option.some.inj hstep
    refine .of_clear rfl fun i => ?_
    rw [hirq, htx]
    exact getLsbD_of_struck s.flags _ (by decide) i
  · exact absurd hstep (by simp)

/-- Loading a transmit buffer leaves the enable bits and the flags. -/
theorem intSources_layout : ∀ idx : Fin txbNum,
    maxBufLen ≤ (caninte - txbsidh idx).toNat ∧ maxBufLen ≤ (canintf - txbsidh idx).toNat ∧
    caninte ≠ txbctrl idx ∧ canintf ≠ txbctrl idx := by decide

/-- The moves of `transmit_message` clear the transmit flags first. -/
theorem transmitMove_chainEffect (hmove : TransmitMove s t) : ChainEffect up s t := by
  cases hmove with
  | clear hirq =>
    have hcleared : ∀ flags : Byte, txOf flags <<< txifShf = flags &&& 0x1C := by decide
    have hstruck : ∀ i : Fin 8, (0x1C : Byte).getLsbD i = false → (0x1F : Byte).getLsbD i = true →
        rxifMask.getLsbD i = true := by decide
    refine .of_clear rfl fun i hmask hlist => ?_
    rw [hirq, willClear, BitVec.getLsbD_or, Bool.or_eq_true] at hlist
    obtain hlist | hahead := hlist
    · rw [BitVec.getLsbD_and, Bool.and_eq_true] at hlist
      rw [hcleared, BitVec.getLsbD_and, hlist.1, Bool.true_and] at hmask
      rw [willClear, receiveClears, BitVec.getLsbD_or, BitVec.getLsbD_and, hlist.1,
        hstruck i hmask hlist.2]
      rfl
    · exact hahead
  | pop hirq | empty hirq | skip hirq | last hirq | ready hirq | stop hirq =>
    exact .of_quiet rfl rfl (by rw [hirq]; rfl)
  | wait => exact .of_quiet rfl rfl rfl
  | @load i buf hirq =>
    obtain ⟨hinte, hintf, _⟩ := intSources_layout i
    have houtside (a : Byte) (h : maxBufLen ≤ (a - txbsidh i).toNat) :
        mcp2515LoadTxb s.regs buf (s.txFrame.dlc.toNat + dat) i a = s.regs a :=
      dif_neg (Nat.not_lt.mpr ((Nat.min_le_right _ _).trans h))
    exact .of_quiet (houtside _ hintf) (houtside _ hinte) (by rw [hirq]; rfl)
  | @prio i hirq =>
    obtain ⟨_, _, hinte, hintf⟩ := intSources_layout i
    exact .of_quiet (Function.update_of_ne hintf _ _) (Function.update_of_ne hinte _ _)
      (by rw [hirq]; rfl)
  | rts hirq =>
    have hother : ∀ a, (∀ k : Fin txbNum, a ≠ txbctrl k) → mcp2515Rts s.regs s.rts a = s.regs a := by
      intro a ha
      exact if_neg fun ⟨k, hk, _⟩ => ha k hk
    refine .of_quiet (hother _ fun k => (intSources_layout k).2.2.2)
      (hother _ fun k => (intSources_layout k).2.2.1) ?_
    rw [(willClear_dispatch s.flags).2.2.2.2.1, hirq]
    rfl

/-- The moves of `receive_message` clear the receive flags, the last one all of them. -/
theorem receiveMove_chainEffect {event : CanEvent} (hmove : ReceiveMove Spi.codeReader s event t) :
    ChainEffect up s t := by
  cases hmove with
  | @read n frame hirq =>
    refine .of_clear (Spi.codeReader.regs_read s.regs n maxBufLen) fun i hmask hlist => ?_
    rw [hirq, willClear, BitVec.getLsbD_or, Bool.or_eq_true, getLsbD_readsClear] at hlist
    rw [willClear, BitVec.getLsbD_or, Bool.or_eq_true, getLsbD_readsClear]
    refine hlist.imp_right ?_
    rintro ⟨m, hm, hbit⟩
    refine ⟨m, ?_, hbit⟩
    obtain hself | hbehind := Bool.or_eq_true_iff.mp hm
    · -- The flag of the read itself has just been cleared.
      rw [of_decide_eq_true hself, hmask] at hbit
      exact absurd hbit Bool.false_ne_true
    · exact hbehind
  | @push n hirq =>
    refine .of_quiet rfl rfl ?_
    rw [hirq]
    exact (willClear_dispatch s.flags).2.2.2.2.2 n
  | ack hirq =>
    refine .of_clear rfl fun i hmask hlist => ?_
    rw [hirq] at hlist
    exact absurd hmask (Bool.eq_false_iff.not_left.mpr hlist)

/-- A step of the handler raises no flag. -/
theorem irqStep_chainEffect {event : CanEvent} (hstep : irqStep Spi.codeReader s = some (event, t)) :
    ChainEffect up s t := by
  obtain ⟨herror, _⟩ | ⟨htransmit, _⟩ | hreceive | ⟨hirq, _, rfl⟩ | ⟨hirq, _, rfl⟩ :=
    irqStep_cases hstep
  · exact errorStep_chainEffect herror
  · exact transmitMove_chainEffect (transmitMove_of_transmitStep htransmit)
  · exact receiveMove_chainEffect (receiveMove_of_receiveStep hreceive)
  -- The list after the snapshot has all flags of the snapshot.
  · refine ⟨fun _ => id, fun _ => Or.inl, fun i hi _ => ?_⟩
    dsimp only at hi ⊢
    rw [(willClear_dispatch _).1, BitVec.getLsbD_or, hi, Bool.true_or]
  · refine ⟨fun i hi => ?_, fun i hi => Or.inl ?_, fun i _ hlist => ?_⟩
    · dsimp only at hi
      split at hi
      · simp [mcp2515WriteReg] at hi
      · exact hi
    · dsimp only at hi
      split at hi
      · rwa [mcp2515WriteReg, Function.update_of_ne (by decide)] at hi
      · exact hi
    · rw [hirq] at hlist
      exact absurd hlist (by simp [willClear])

/-- A move of a client raises the flag that it triggers. -/
theorem clientMove_chainEffect {thread : ℕ} (hmove : ClientMove s thread t) :
    ChainEffect (raised s (.client thread)) s t := by
  cases hmove with
  | trigger hpc => exact .of_raise (by simp only [raised, hpc]; rfl) rfl rfl rfl
  | full | room | append | stopped | running | lock | found | busy | unlock | mark =>
    exact .of_quiet rfl rfl rfl

/-- Every step of the component raises its flags at most. -/
theorem canStep_chainEffect {label : CanLabel} {event : CanEvent}
    (hstep : canStep s label = some (event, t)) : ChainEffect (raised s label) s t := by
  cases canMove_of_componentStep hstep with
  | canSend | noFrame | canTryRecv | rxRemove => exact .of_quiet rfl rfl rfl
  | client hmove => exact clientMove_chainEffect hmove
  | interrupt hidle =>
    refine ⟨fun _ => id, fun _ => Or.inl, fun i _ hlist => ?_⟩
    rw [hidle] at hlist
    exact absurd hlist (by simp [willClear])
  | irq hstep => exact irqStep_chainEffect hstep
  | @complete n =>
    obtain ⟨_, _, hinte, hintf⟩ := intSources_layout n
    exact .of_raise rfl (Function.update_of_ne hintf _ _) (Function.update_of_ne hinte _ _) rfl
  | @arrive n image =>
    have hlayout : ∀ n : Fin 2, maxBufLen ≤ (canintf - rxbsidh n).toNat ∧
        maxBufLen ≤ (caninte - rxbsidh n).toNat := by decide
    exact .of_raise rfl (dif_neg (Nat.not_lt.mpr (hlayout n).1))
      (dif_neg (Nat.not_lt.mpr (hlayout n).2)) rfl
  | fault => exact .of_raise rfl rfl rfl rfl

end Steps

/-- The step raises no enabled flag behind the back of the handler: while the pin is asserted and
no event is pending, the handler is still going to clear what rises. -/
def Heard (s : ChainState) (label : CanLabel) : Prop :=
  s.pending = 0 → pinAsserted s.can.regs = true →
    raised s.can label &&& s.can.regs caninte &&& ~~~s.can.regs canintf &&&
      ~~~willClear s.can.irq s.can.flags = 0

instance (s : ChainState) (label : CanLabel) : Decidable (Heard s label) :=
  inferInstanceAs (Decidable (_ → _ → _))

/-- Without a pending event, the handler is going to clear every enabled flag that is up. -/
def Served (s : ChainState) : Prop :=
  s.pending = 0 → ∀ i : Fin 8, (s.can.regs canintf).getLsbD i = true →
    (s.can.regs caninte).getLsbD i = true → (willClear s.can.irq s.can.flags).getLsbD i = true

/-- An enabled flag asserts the pin. -/
theorem pinAsserted_of_flag {regs : Regs} {i : Fin 8} (hflag : (regs canintf).getLsbD i = true)
    (henabled : (regs caninte).getLsbD i = true) : pinAsserted regs = true := by
  rw [pinAsserted, bne_iff_ne]
  intro hzero
  have hbit : (intSources regs).getLsbD i = true := by
    rw [intSources, BitVec.getLsbD_and, hflag, henabled]
    rfl
  rw [hzero] at hbit
  exact absurd hbit (by simp)

/-- After `enable_intrrupt` an event is pending if a flag is up. -/
theorem served_start (regs : Regs) (queues : MessageQueues) (frame : CanFrame) :
    Served (.start regs queues frame) := by
  intro hpending i hflag henabled
  have hreleased : pinAsserted (mcp2515WriteReg regs caninte 0) = false := by
    simp [pinAsserted, intSources, mcp2515WriteReg]
  have hasserted := pinAsserted_of_flag hflag henabled
  simp only [ChainState.start, fallingEdges] at hpending
  rw [if_pos ⟨hreleased, hasserted⟩] at hpending
  exact absurd hpending one_ne_zero

/-- The flags that rise are served when the pin falls with them or the step is heard. -/
theorem Heard.served {s : ChainState} {label : CanLabel} {i : Fin 8} (h : Heard s label)
    (hpending : s.pending = 0) (hpin : pinAsserted s.can.regs = true)
    (hraised : (raised s.can label).getLsbD i = true)
    (henabled : (s.can.regs caninte).getLsbD i = true)
    (hflag : (s.can.regs canintf).getLsbD i = false) :
    (willClear s.can.irq s.can.flags).getLsbD i = true := by
  have hbit := congrArg (BitVec.getLsbD · i) (h hpending hpin)
  simp only [BitVec.getLsbD_and, BitVec.getLsbD_not, hraised, henabled, hflag, i.isLt, decide_true,
    Bool.not_false, Bool.true_and, BitVec.ofNat_eq_ofNat, BitVec.getLsbD_zero] at hbit
  simpa using hbit

/-- A step uses up an event only to enter the handler. -/
theorem canStep_eventsTaken {s t : CanState} {label : CanLabel} {event : CanEvent}
    (hstep : canStep s label = some (event, t)) : eventsTaken label = 0 ∨ t.irq = .readFlags := by
  cases canMove_of_componentStep hstep with
  | interrupt => exact Or.inr rfl
  | _ => exact Or.inl rfl

/-- Every step that is heard keeps the invariant. -/
theorem Served.step {s t : ChainState} {label : CanLabel} {event : CanEvent} (h : Served s)
    (hheard : Heard s label) (hstep : chainStep s label = some (event, t)) : Served t := by
  unfold chainStep at hstep
  split at hstep
  · exact absurd hstep (by simp)
  obtain ⟨⟨_, can⟩, hcan, hafter⟩ := Option.map_eq_some_iff.mp hstep
  obtain ⟨rfl, rfl⟩ := Prod.mk.inj hafter
  intro hpending i hflag henabled
  obtain htaken | hread := canStep_eventsTaken hcan
  · have heffect := canStep_chainEffect hcan
    have hbefore := heffect.enabled i henabled
    obtain ⟨hnone, hedge⟩ := Nat.add_eq_zero_iff.mp hpending
    rw [htaken, Nat.sub_zero] at hnone
    refine heffect.clears i hflag ?_
    by_cases hold : (s.can.regs canintf).getLsbD i = true
    · exact h hnone i hold hbefore
    · -- The flag has risen and made no event, so the pin was asserted before.
      have hraised := (heffect.flags i hflag).resolve_left hold
      have hpin : pinAsserted s.can.regs = true := by
        by_contra hreleased
        rw [fallingEdges, if_pos ⟨Bool.eq_false_iff.mpr hreleased,
          pinAsserted_of_flag hflag henabled⟩] at hedge
        exact one_ne_zero hedge
      exact hheard.served hnone hpin hraised hbefore (Bool.eq_false_iff.mpr hold)
  · have hall : ∀ i : Fin 8, (0xFF : Byte).getLsbD i = true := by decide
    dsimp only at hread ⊢
    rw [hread]
    exact hall i

/-- In every run of the chain whose steps are all heard, no enabled flag is up while the handler is
idle and no event is pending. -/
theorem idle_chain_quiet {regs : Regs} {queues : MessageQueues} {frame : CanFrame}
    {labels : List CanLabel} {events : List CanEvent} {reached : ChainState}
    (hheard : StepsMeet chainStep Heard (.start regs queues frame) labels)
    (hrun : run chainStep (.start regs queues frame) labels = some (events, reached))
    (hidle : reached.can.irq = .idle) (hpending : reached.pending = 0) :
    intSources reached.can.regs = 0 := by
  have hserved : Served reached :=
    run_state_invariant Served (fun _ _ _ _ h hheard hstep => h.step hheard hstep)
      (served_start regs queues frame) hheard hrun
  apply BitVec.eq_of_getLsbD_eq
  intro i hi
  by_contra hbit
  rw [intSources, BitVec.getLsbD_and, BitVec.ofNat_eq_ofNat, BitVec.getLsbD_zero,
    Bool.not_eq_false, Bool.and_eq_true] at hbit
  have hclear := hserved hpending ⟨i, hi⟩ hbit.1 hbit.2
  rw [hidle] at hclear
  exact absurd hclear (by simp [willClear])

/-- The chain with cleared registers and empty queues. -/
def idleChain : ChainState := .start (fun _ => 0) deviceQueues (sampleFrame 0)

/-- A frame arrives, and the handler runs for it. -/
def servedArrival (n : Fin 2) : List CanLabel := .arrive n (fun _ => 0) :: irqSteps 5

/-- After that run the handler has cleared the flag. -/
theorem servedArrival_quiet :
    ∃ events reached, run chainStep idleChain (servedArrival 0) = some (events, reached) ∧
      intSources reached.can.regs = 0 := by
  have hreplay : (run chainStep idleChain (servedArrival 0)).map
      (fun r => (r.2.can.irq, r.2.pending)) = some (.idle, 0) := by decide
  obtain ⟨⟨events, reached⟩, hrun, hviews⟩ := Option.map_eq_some_iff.mp hreplay
  obtain ⟨hidle, hpending⟩ := Prod.mk.inj hviews
  exact ⟨events, reached, hrun, idle_chain_quiet (by decide) hrun hidle hpending⟩

/-- A frame arrives in one receive buffer, the handler reads the flags, and before it goes on a frame
arrives in the other buffer. -/
def arrivalBehindSnapshot (first second : Fin 2) : List CanLabel :=
  .arrive first (fun _ => 0) :: irqSteps 1 ++ .arrive second (fun _ => 0) :: List.replicate 4 .irq

/-- After that run the handler is idle, no event is pending, and the flag of the second frame is up
with its interrupt enabled. -/
theorem arrivalBehindSnapshot_deaf :
    ∃ events reached, run chainStep idleChain (arrivalBehindSnapshot 0 1) = some (events, reached) ∧
      reached.can.irq = .idle ∧ reached.pending = 0 ∧ intSources reached.can.regs = bit 1 := by
  have hreplay : (run chainStep idleChain (arrivalBehindSnapshot 0 1)).map
      (fun r => (r.2.can.irq, r.2.pending, intSources r.2.can.regs)) = some (.idle, 0, bit 1) := by
    decide
  obtain ⟨⟨events, reached⟩, hrun, hviews⟩ := Option.map_eq_some_iff.mp hreplay
  simp only [Prod.mk.injEq] at hviews
  exact ⟨events, reached, hrun, hviews⟩

end CamkesVm.Can
