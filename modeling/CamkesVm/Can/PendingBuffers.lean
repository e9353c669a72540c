import CamkesVm.Can.Flags
import CamkesVm.Can.Moves
import CamkesVm.Can.Wakeup

/-!
# Loading a buffer whose message is pending

Before `transmit_message` loads a buffer it waits for the previous message to be sent. The wait reads
the register at `TXBCTRL(i) & TXBCTRL_TXREQ`. That is register 0 for every buffer, so the wait says
nothing about the request.

A buffer is then safe only if it had no request when the function was called. During the call the
handler requests nothing before its last step, and nobody else ever sets a request, so a buffer that
was free stays free until it is loaded. Clients raise the flag of a buffer that they have found free,
and the handler may have requested it in between.
-/

namespace CamkesVm.Can

open CamkesVm.Machine

/-- The register that the wait of `transmit_message` reads, for every buffer. -/
def waitReg : Byte := 0

/-- The wait reads that register. -/
theorem txbctrl_and_txreq (i : Fin txbNum) : txbctrl i &&& txbctrlTxreq = waitReg := by
  revert i
  decide

/-- No buffer of the call from index `i` on has a request pending. -/
def FreeFrom (s : CanState) (i : ℕ) : Prop :=
  ∀ n : Fin txbNum, i ≤ n → (txOf s.flags).getLsbD n = true → txreq s.regs n = false

instance (s : CanState) (i : ℕ) : Decidable (FreeFrom s i) :=
  inferInstanceAs (Decidable (∀ _, _ → _ → _))

/-- The function is called with free buffers, or its wait does not end. -/
def CallsFree (s : CanState) : CanLabel → Prop
  | .irq => s.irq = .txClear → mcp2515ReadReg s.regs waitReg = 0 → FreeFrom s 0
  | _ => True

instance (s : CanState) : ∀ label, Decidable (CallsFree s label)
  | .irq => inferInstanceAs (Decidable (_ → _ → _))
  | .canSend _ _ | .client _ | .canTryRecv _ | .rxRemove _ | .interrupt _ _ | .complete _ | .arrive _ _
  | .fault _ _ => isTrue trivial

/-- The handler is in the loop over the buffers. -/
def inLoop : IrqPc → Bool
  | .txPop _ | .txWait _ | .txLoad _ | .txPrio _ => true
  | _ => false

/-- What the handler knows in the loop: the buffers ahead of it are free, once a wait has ended. -/
def LoadSafe (s : CanState) : Prop :=
  match s.irq with
  | .txPop i => s.regs waitReg = 0 → FreeFrom s i
  | .txWait i => (txOf s.flags).getLsbD i = true ∧ (s.regs waitReg = 0 → FreeFrom s i)
  | .txLoad i | .txPrio i =>
    (txOf s.flags).getLsbD i = true ∧ s.regs waitReg = 0 ∧ FreeFrom s i
  | _ => True

section Steps

variable {reader : Spi.RxbReader} {s t : CanState}

/-- Outside the loop there is nothing to know. -/
theorem LoadSafe.of_outside (h : inLoop s.irq = false) : LoadSafe s := by
  unfold LoadSafe
  split <;> first
    | trivial
    | exact absurd h (by simp [inLoop, *])

/-- The registers of the second state have the same wait register and no new request. -/
structure Falls (regs regs' : Regs) : Prop where
  wait : regs' waitReg = regs waitReg
  requests : ∀ n, txreq regs n = false → txreq regs' n = false

/-- Nothing has changed. -/
theorem Falls.refl (regs : Regs) : Falls regs regs := ⟨rfl, fun _ h => h⟩

/-- Registers with the same requests. -/
theorem Falls.of_view {regs regs' : Regs} (hwait : regs' waitReg = regs waitReg)
    (hview : txView regs' = txView regs) : Falls regs regs' := by
  refine ⟨hwait, fun n hn => ?_⟩
  rw [← hn]
  exact congrFun (congrArg Prod.snd hview) n

/-- Changing the flags sets no request. -/
theorem Falls.of_flags (regs : Regs) (mask val : Byte) :
    Falls regs (mcp2515BitModify regs canintf mask val) := by
  refine ⟨Function.update_of_ne (by decide) _ _, fun n hn => ?_⟩
  rw [← hn]
  exact congrArg (BitVec.getLsbD · 3) (Function.update_of_ne (canintf_ne_txbctrl n).symm _ _)

/-- One change after the other. -/
theorem Falls.trans {regs regs' regs'' : Regs} (h : Falls regs regs') (h' : Falls regs' regs'') :
    Falls regs regs'' :=
  ⟨h'.wait.trans h.wait, fun n hn => h'.requests n (h.requests n hn)⟩

/-- The buffers that are free stay free. -/
theorem FreeFrom.mono {i j : ℕ} (h : FreeFrom s i) (hij : i ≤ j) (hflags : t.flags = s.flags)
    (hregs : ∀ n : Fin txbNum, j ≤ n → txreq s.regs n = false → txreq t.regs n = false) :
    FreeFrom t j := by
  intro n hn htx
  rw [hflags] at htx
  exact hregs n hn (h n (hij.trans hn) htx)

/-- A step of another thread or of the controller. -/
theorem LoadSafe.of_other (h : LoadSafe s) (hirq : t.irq = s.irq) (hflags : t.flags = s.flags)
    (hfalls : Falls s.regs t.regs) : LoadSafe t := by
  have hfree {i : ℕ} (hi : FreeFrom s i) : FreeFrom t i :=
    hi.mono le_rfl hflags fun n _ => hfalls.requests n
  unfold LoadSafe at h ⊢
  rw [hirq, hflags, hfalls.wait]
  split at h
  · exact fun hwait => hfree (h hwait)
  · exact ⟨h.1, fun hwait => hfree (h.2 hwait)⟩
  · exact ⟨h.1, h.2.1, hfree h.2.2⟩
  · exact ⟨h.1, h.2.1, hfree h.2.2⟩
  · trivial

/-- Outside the loop the handler goes on outside of it. -/
theorem inLoop_dispatch (flags : Byte) : inLoop (receiveSecond flags) = false ∧
    inLoop (dispatchRx flags) = false ∧ inLoop (dispatchTx flags) = false := by
  have hsecond : inLoop (receiveSecond flags) = false := by
    unfold receiveSecond
    split <;> rfl
  have hreceive : inLoop (dispatchRx flags) = false := by
    unfold dispatchRx receiveFirst
    split_ifs <;> first
      | exact hsecond
      | rfl
  refine ⟨hsecond, hreceive, ?_⟩
  unfold dispatchTx
  split
  · rfl
  · exact hreceive

/-- The moves of a client set no request. -/
theorem clientMove_falls {thread : ℕ} (hmove : ClientMove s thread t) :
    t.irq = s.irq ∧ t.flags = s.flags ∧ Falls s.regs t.regs := by
  cases hmove with
  | trigger => exact ⟨rfl, rfl, .of_flags _ _ _⟩
  | full | room | append | stopped | running | lock | found | busy | unlock | mark =>
    exact ⟨rfl, rfl, .refl s.regs⟩

/-- The moves of `transmit_message` keep what the handler knows, if it is called with free buffers. -/
theorem transmitMove_loadSafe (h : LoadSafe s) (hcall : CallsFree s .irq) (hmove : TransmitMove s t) :
    LoadSafe t := by
  cases hmove with
  | clear hirq =>
    have hfalls := Falls.of_flags s.regs (txOf s.flags <<< txifShf) 0
    intro hwait
    exact (hcall hirq (hfalls.wait.symm.trans hwait)).mono le_rfl rfl fun n _ => hfalls.requests n
  | @pop i frame hirq hi hready =>
    simp only [LoadSafe, hirq] at h
    exact ⟨hready, h⟩
  | empty | last | stop => exact .of_outside rfl
  | @skip i hirq =>
    simp only [LoadSafe, hirq] at h
    exact fun hwait => (h hwait).mono (Nat.le_succ i) rfl fun _ _ => id
  | wait => exact h
  | @ready i hirq hread =>
    simp only [LoadSafe, hirq] at h
    have hwait : s.regs waitReg = 0 := by rwa [txbctrl_and_txreq i] at hread
    exact ⟨h.1, hwait, h.2 hwait⟩
  | @load i buf hirq =>
    simp only [LoadSafe, hirq] at h
    have hlayout : ∀ i : Fin txbNum, maxBufLen ≤ (waitReg - txbsidh i).toNat := by decide
    have hfalls : Falls s.regs (mcp2515LoadTxb s.regs buf (s.txFrame.dlc.toNat + dat) i) :=
      .of_view (dif_neg (Nat.not_lt.mpr ((Nat.min_le_right _ _).trans (hlayout i))))
        (views_loadTxb buf _ i).1
    exact ⟨h.1, hfalls.wait.trans h.2.1, h.2.2.mono le_rfl rfl fun n _ => hfalls.requests n⟩
  | @prio i hirq =>
    simp only [LoadSafe, hirq] at h
    have hother : ∀ n : Fin txbNum, i + 1 ≤ n.val → txbctrl n ≠ txbctrl i := fun n hn heq =>
      absurd (txbctrl_injective n i heq) (by omega)
    intro _
    refine h.2.2.mono (Nat.le_succ i) rfl fun n hn hclear => ?_
    unfold txreq at hclear ⊢
    dsimp only
    rwa [mcp2515WriteReg, Function.update_of_ne (hother n hn)]
  | rts => exact .of_outside (inLoop_dispatch s.flags).2.1

/-- The moves of `receive_message` are outside the loop. -/
theorem receiveMove_outside {event : CanEvent} (hmove : ReceiveMove reader s event t) :
    inLoop t.irq = false := by
  cases hmove with
  | read | ack => rfl
  | @push n =>
    dsimp only
    split
    · exact (inLoop_dispatch s.flags).1
    · rfl

/-- The steps of the handler keep what it knows. -/
theorem irqStep_loadSafe {event : CanEvent} (h : LoadSafe s) (hcall : CallsFree s .irq)
    (hstep : irqStep reader s = some (event, t)) : LoadSafe t := by
  have hheads {irq : IrqPc} {flags : Byte}
      (hirq : inErrorBranch irq = true ∨ irq = dispatchTx flags) : inLoop irq = false := by
    obtain hbranch | rfl := hirq
    · cases irq <;> first
        | rfl
        | exact absurd hbranch Bool.false_ne_true
    · exact (inLoop_dispatch flags).2.2
  obtain ⟨herror, _⟩ | ⟨htransmit, _⟩ | hreceive | ⟨_, _, rfl⟩ | ⟨_, _, rfl⟩ := irqStep_cases hstep
  · obtain ⟨_, _, _, _, rfl, _, hirq⟩ := errorStep_cases herror
    exact .of_outside (hheads hirq)
  · exact transmitMove_loadSafe h hcall (transmitMove_of_transmitStep htransmit)
  · exact .of_outside (receiveMove_outside (receiveMove_of_receiveStep hreceive))
  · exact .of_outside (hheads (dispatchMerr_cases _))
  · exact .of_outside rfl

/-- Every step keeps what the handler knows, if the function is called with free buffers. -/
theorem componentStep_loadSafe {label : CanLabel} {event : CanEvent} (h : LoadSafe s)
    (hcall : CallsFree s label) (hstep : componentStep reader s label = some (event, t)) :
    LoadSafe t := by
  cases canMove_of_componentStep hstep with
  | canSend | noFrame | canTryRecv | rxRemove => exact h.of_other rfl rfl (.refl s.regs)
  | client hmove =>
    obtain ⟨hirq, hflags, hfalls⟩ := clientMove_falls hmove
    exact h.of_other hirq hflags hfalls
  | interrupt => exact .of_outside rfl
  | irq hstep => exact irqStep_loadSafe h hcall hstep
  | @complete n =>
    have hwait : ∀ n : Fin txbNum, waitReg ≠ txbctrl n := by decide
    have hclear : ∀ val : Byte,
        ((val &&& ~~~txbctrlTxreq) ||| (0 &&& txbctrlTxreq)).getLsbD 3 = false := by
      decide
    refine h.of_other rfl rfl (Falls.trans ⟨Function.update_of_ne (hwait n) _ _, fun k hk => ?_⟩
      (.of_flags _ _ _))
    unfold txreq
    rw [Function.update_apply]
    split
    · exact hclear _
    · exact hk
  | @arrive n image =>
    have hlayout : ∀ n : Fin 2, maxBufLen ≤ (waitReg - rxbsidh n).toNat := by decide
    have hctrl (k : Fin txbNum) : mcp2515WriteNregs s.regs (rxbsidh n) image (txbctrl k) =
        s.regs (txbctrl k) := dif_neg (Nat.not_lt.mpr ((rxb_layout n).2 k))
    refine h.of_other rfl rfl (Falls.trans ⟨dif_neg (Nat.not_lt.mpr (hlayout n)), fun k hk => ?_⟩
      (.of_flags _ _ _))
    rwa [txreq, hctrl k]
  | @fault bits errors =>
    have heflg : ∀ k : Fin txbNum, txbctrl k ≠ eflg := by decide
    refine h.of_other rfl rfl (Falls.trans ⟨Function.update_of_ne (by decide) _ _, fun k hk => ?_⟩
      (.of_flags _ _ _))
    unfold txreq
    rwa [Function.update_of_ne (heflg k)]

end Steps

/-- In every run in which `transmit_message` is called with free buffers only, from any state outside its
loop, a buffer has no request pending when it is loaded and when its priority is written. -/
theorem loaded_buffer_free {s : CanState} (hstart : inLoop s.irq = false) {labels : List CanLabel}
    {events : List CanEvent} {reached : CanState} (hcalls : StepsMeet canStep CallsFree s labels)
    (hrun : run canStep s labels = some (events, reached)) {i : Fin txbNum}
    (hload : reached.irq = .txLoad i ∨ reached.irq = .txPrio i) : txreq reached.regs i = false := by
  have hreached : LoadSafe reached := run_state_invariant LoadSafe
    (fun s label event t hs hlabel hstep => componentStep_loadSafe hs hlabel hstep) (.of_outside hstart)
    hcalls hrun
  unfold LoadSafe at hreached
  obtain hirq | hirq := hload
  · rw [hirq] at hreached
    exact hreached.2.2 i le_rfl hreached.1
  · rw [hirq] at hreached
    exact hreached.2.2 i le_rfl hreached.1

/-- The first frame is loaded into a free buffer. -/
theorem firstFrame_loaded_free :
    ∃ events reached,
      run canStep idleComponent (sendSteps (sampleFrame 1) 14 ++ irqSteps 4) = some (events, reached) ∧
      reached.irq = .txLoad 0 ∧ txreq reached.regs 0 = false := by
  have hreplay : (run canStep idleComponent (sendSteps (sampleFrame 1) 14 ++ irqSteps 4)).map
      (fun r => r.2.irq) = some (.txLoad 0) := by decide
  have hcalls : StepsMeet canStep CallsFree idleComponent
      (sendSteps (sampleFrame 1) 14 ++ irqSteps 4) := by
    decide +kernel
  obtain ⟨⟨events, reached⟩, hrun, hirq⟩ := Option.map_eq_some_iff.mp hreplay
  exact ⟨events, reached, hrun, hirq, loaded_buffer_free rfl hcalls hrun (Or.inl hirq)⟩

/-- A client finds buffer 0 free after the handler has loaded it and before the handler requests its
transmission, and raises the flag of the buffer behind the request. -/
def overwritten : List CanLabel :=
  sendSteps (sampleFrame 1) 14 ++ irqSteps 8 ++
    .canSend 1 (sampleFrame 2) :: List.replicate 5 (.client 1) ++ [.irq, .irq, .client 1] ++ irqSteps 4

/-- The handler then loads the second frame into the buffer while the first one is pending. -/
theorem overwritten_loads_pending :
    ∃ events reached, run canStep idleComponent overwritten = some (events, reached) ∧
      reached.irq = .txLoad 0 ∧ reached.txFrame = sampleFrame 2 ∧ txreq reached.regs 0 = true := by
  have hreplay : (run canStep idleComponent overwritten).map
      (fun r => (r.2.irq, r.2.txFrame, txreq r.2.regs 0)) = some (.txLoad 0, sampleFrame 2, true) := by
    decide +kernel
  obtain ⟨⟨events, reached⟩, hrun, hviews⟩ := Option.map_eq_some_iff.mp hreplay
  simp only [Prod.mk.injEq] at hviews
  exact ⟨events, reached, hrun, hviews⟩

end CamkesVm.Can
