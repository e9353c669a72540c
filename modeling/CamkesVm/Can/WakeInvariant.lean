import CamkesVm.Can.Flags
import CamkesVm.Can.Moves
import CamkesVm.Machine.Lock

/-!
# Queued frames and the transmit interrupt

A frame in the transmit queue is sent only when the interrupt handler looks at the queue, and
the handler runs only for a transmit flag. Two things keep that going. A client that has queued
a frame raises a flag itself when it finds transmission stopped, and until then it owes one. A
client that finds transmission running leaves without one, which is right when a flag is up, a
transmission is requested, or the handler is still going to look.

The handler breaks the second between its empty pop and the store that says so: transmission
counts as running, but nothing is going to happen. A client that queues a frame and looks just
then leaves its frame behind.
-/

namespace CamkesVm.Can

open CamkesVm.Machine

/-- A transmit flag is up, or a transmission is requested. -/
def TxPending (regs : Regs) : Prop := ∃ n : Fin txbNum, txif regs n = true ∨ txreq regs n = true

instance (regs : Regs) : Decidable (TxPending regs) := inferInstanceAs (Decidable (∃ _, _))

/-- The handler is going to request a transmission. -/
def WillRequest (rts : Byte) : Prop := ∃ k : Fin txbNum, rts.getLsbD k = true

instance (rts : Byte) : Decidable (WillRequest rts) := inferInstanceAs (Decidable (∃ _, _))

/-- The handler is going to look at the queue, has a frame from it in its hands, or is going to
request a transmission. -/
def Serving (s : CanState) : Prop :=
  match s.irq with
  | .txClear | .txPop _ | .txWait _ | .txLoad _ | .txPrio _ => True
  | .txStop | .txRts => WillRequest s.rts
  | _ => False

/-- Something is going to make the handler look at the queue. -/
def Awake (s : CanState) : Prop := TxPending s.regs ∨ Serving s

/-- The handler has a buffer left to fill, or one filled already. -/
def PopSound (s : CanState) : Prop :=
  match s.irq with
  | .txClear => ∃ k : Fin txbNum, (txOf s.flags).getLsbD k = true
  | .txPop i => (∃ k : Fin txbNum, i ≤ k ∧ (txOf s.flags).getLsbD k = true) ∨ WillRequest s.rts
  | _ => True

/-- The client holds the lock of the transmit buffers. -/
@[simp] def ClientPc.InSection : ClientPc → Prop
  | .scan .. | .trigger .. | .mark .. => True
  | _ => False

/-- The client has raised a flag and is about to say that transmission runs. -/
@[simp] def ClientPc.AtMark : ClientPc → Prop
  | .mark .. => True
  | _ => False

/-- The client has queued its frame and not yet seen to the first transmit buffer. -/
@[simp] def ClientPc.Owes : ClientPc → Prop
  | .startXmit _ ret => 0 ≤ ret
  | .lockTxb .. => True
  | .scan _ _ i => i = 0
  | .trigger _ _ i => i = 0
  | _ => False

/-- The invariant: the lock is held by one client at most; a frame in the queue has the handler
awake or a client that owes a flag; and while transmission counts as running, the handler is
awake or about to say that it has stopped. -/
structure WakeInv (s : CanState) : Prop where
  lock : LockHeld ClientPc.InSection s.clients s.txbLock
  pops : PopSound s
  served : s.queues.contents .txq ≠ [] → Awake s ∨ ∃ c, (s.clients c).Owes
  running : (s.xmitStopped = false ∨ ∃ c, (s.clients c).AtMark) → Awake s ∨ s.irq = .txStop

/-- A client that has queued its frame finds transmission running although the handler is about
to stop it, requests nothing, and nothing is pending. -/
def readsStale (s : CanState) : CanLabel → Bool
  | .client thread =>
    match s.clients thread with
    | .startXmit _ ret =>
      decide (0 ≤ ret) && !s.xmitStopped && decide (s.irq = .txStop) &&
        !decide (WillRequest s.rts) && !decide (TxPending s.regs)
    | _ => false
  | _ => false

variable {s t : CanState}

/-- The transmit view decides whether something is pending. -/
theorem TxPending.of_view {regs regs' : Regs} (hview : txView regs' = txView regs)
    (h : TxPending regs) : TxPending regs' := by
  obtain ⟨hif, hreq⟩ := Prod.mk.inj hview
  simpa only [TxPending, hif, hreq] using h

/-- After the request something is pending, if it was before or is requested. -/
theorem TxPending.rts {regs : Regs} {mask : Byte} (h : TxPending regs ∨ WillRequest mask) :
    TxPending (mcp2515Rts regs mask) := by
  obtain ⟨hif, hreq⟩ := txView_rts regs mask
  obtain ⟨n, hn | hn⟩ | ⟨n, hn⟩ := h
  · exact ⟨n, Or.inl (congrFun hif n ▸ hn)⟩
  · exact ⟨n, Or.inr (by rw [hreq, hn, Bool.true_or])⟩
  · exact ⟨n, Or.inr (by rw [hreq, hn, Bool.or_true])⟩

/-- A step of the handler or the controller that keeps the queue, the clients and the locks. -/
theorem WakeInv.of_controller (h : WakeInv s) (hclients : t.clients = s.clients)
    (hlock : t.txbLock = s.txbLock) (hstopped : t.xmitStopped = s.xmitStopped)
    (hqueue : t.queues.contents .txq = s.queues.contents .txq ∨ Awake t)
    (hawake : Awake s → Awake t) (hwindow : s.irq = .txStop → t.irq = .txStop)
    (hpops : PopSound t) : WakeInv t where
  lock := by rw [hclients, hlock]; exact h.lock
  pops := hpops
  served := by
    intro hne
    obtain hsame | hserving := hqueue
    · rw [hsame] at hne
      rw [hclients]
      exact (h.served hne).imp_left hawake
    · exact Or.inl hserving
  running := by
    rw [hclients, hstopped]
    intro hrunning
    exact (h.running hrunning).imp hawake hwindow

/-- A step of a client thread, from what it does to the lock, to what it owes and to the flag
that says whether transmission runs. -/
theorem WakeInv.of_client {c : ℕ} {pc : ClientPc} (h : WakeInv s)
    (hclients : t.clients = Function.update s.clients c pc)
    (hlock : LockHeld ClientPc.InSection t.clients t.txbLock) (hirq : t.irq = s.irq)
    (hflags : t.flags = s.flags) (hrts : t.rts = s.rts)
    (hpending : TxPending s.regs → TxPending t.regs)
    (howes : (s.clients c).Owes → pc.Owes ∨ Awake s ∨ TxPending t.regs)
    (hqueue : t.queues.contents .txq = s.queues.contents .txq ∨ pc.Owes)
    (hstopped : t.xmitStopped = false → s.xmitStopped = false ∨ (s.clients c).AtMark)
    (hmark : pc.AtMark → TxPending t.regs) : WakeInv t := by
  have hserving : Serving s → Serving t := by
    unfold Serving
    rw [hirq, hrts]
    exact id
  have hawake : Awake s → Awake t := Or.imp hpending hserving
  have hself : t.clients c = pc := by rw [hclients, Function.update_self]
  have hother (d : ℕ) (hd : d ≠ c) : t.clients d = s.clients d := by
    rw [hclients, Function.update_of_ne hd]
  refine ⟨hlock, ?_, ?_, ?_⟩
  · unfold PopSound
    rw [hirq, hflags, hrts]
    exact h.pops
  · intro hne
    obtain hsame | hpc := hqueue
    · rw [hsame] at hne
      obtain hs | ⟨d, hd⟩ := h.served hne
      · exact Or.inl (hawake hs)
      · by_cases hdc : d = c
        · obtain hpc | hs | ht := howes (hdc ▸ hd)
          · exact Or.inr ⟨c, hself.symm ▸ hpc⟩
          · exact Or.inl (hawake hs)
          · exact Or.inl (Or.inl ht)
        · exact Or.inr ⟨d, (hother d hdc).symm ▸ hd⟩
    · exact Or.inr ⟨c, hself.symm ▸ hpc⟩
  · intro hrunning
    have hbefore : (s.xmitStopped = false ∨ ∃ d, (s.clients d).AtMark) ∨ TxPending t.regs := by
      obtain hfalse | ⟨d, hd⟩ := hrunning
      · exact Or.inl ((hstopped hfalse).imp_right fun hc => ⟨c, hc⟩)
      · by_cases hdc : d = c
        · exact Or.inr (hmark (hself ▸ hdc ▸ hd))
        · exact Or.inl (Or.inr ⟨d, hother d hdc ▸ hd⟩)
    obtain hbefore | ht := hbefore
    · exact (h.running hbefore).imp hawake fun hw => hirq.trans hw
    · exact Or.inl (Or.inl ht)

/-- A client at the end of its loop holds nothing and owes nothing. -/
theorem loopSend_free (frame : CanFrame) (ret : ℤ) :
    ¬ (loopSend frame ret).InSection ∧ ¬ (loopSend frame ret).Owes ∧
      ¬ (loopSend frame ret).AtMark := by
  unfold loopSend
  split <;> exact ⟨id, id, id⟩

/-- A client that has queued its frame and reads that transmission runs has the handler awake,
unless the flag is stale. -/
theorem WakeInv.awake_of_fresh {c : ℕ} {frame : CanFrame} {ret : ℤ} (h : WakeInv s)
    (hfresh : readsStale s (.client c) = false) (hpc : s.clients c = .startXmit frame ret)
    (hret : 0 ≤ ret) (hstopped : s.xmitStopped = false) : Awake s := by
  obtain hawake | hwindow := h.running (Or.inl hstopped)
  · exact hawake
  · by_cases hrts : WillRequest s.rts
    · exact Or.inr (by simpa [Serving, hwindow] using hrts)
    · have hpending : ¬ WillRequest s.rts → TxPending s.regs := by
        simpa [readsStale, hpc, hret, hstopped, hwindow] using hfresh
      exact Or.inl (hpending hrts)

/-- A move of a client that does not read a stale flag keeps the invariant. -/
theorem clientMove_wakeInv {c : ℕ} (h : WakeInv s) (hfresh : readsStale s (.client c) = false)
    (hmove : ClientMove s c t) : WakeInv t := by
  cases hmove with
  | full hpc =>
    exact h.of_client rfl (h.lock.outside (by simp)) rfl rfl rfl id (by simp [hpc])
      (Or.inl rfl) Or.inl (by simp)
  | room hpc =>
    exact h.of_client rfl (h.lock.outside (by simp)) rfl rfl rfl id (by simp [hpc])
      (Or.inl rfl) Or.inl (by simp)
  | append hpc =>
    exact h.of_client rfl (h.lock.outside (by simp)) rfl rfl rfl id (by simp [hpc])
      (Or.inr (by simp)) Or.inl (by simp)
  | stopped hpc =>
    exact h.of_client rfl (h.lock.outside (by simp)) rfl rfl rfl id (by simp [hpc])
      (Or.inl rfl) Or.inl (by simp)
  | @running frame ret hpc hrunning =>
    obtain ⟨hin, _, hmark⟩ := loopSend_free frame ret
    have hawake : 0 ≤ ret → Awake s := fun hret => h.awake_of_fresh hfresh hpc hret hrunning
    exact h.of_client rfl (h.lock.outside hin) rfl rfl rfl id
      (by simpa [hpc] using fun hret => Or.inr (Or.inl (hawake hret)))
      (Or.inl rfl) Or.inl (absurd · hmark)
  | lock hpc hfree =>
    exact h.of_client rfl (h.lock.enter hfree) rfl rfl rfl id (by simp [hpc]) (Or.inl rfl) Or.inl
      (by simp)
  | found hpc =>
    have hin : (s.clients c).InSection := by simp [hpc]
    exact h.of_client rfl (h.lock.inside hin) rfl rfl rfl id
      (fun howes => Or.inl (Fin.ext (by simpa [hpc] using howes))) (Or.inl rfl) Or.inl (by simp)
  | busy hpc hi hreq =>
    have hin : (s.clients c).InSection := by simp [hpc]
    have hpending : TxPending s.regs := ⟨⟨_, hi⟩, Or.inr (txreq_of_and_ne_zero hreq)⟩
    exact h.of_client rfl (h.lock.inside hin) rfl rfl rfl id (fun _ => Or.inr (Or.inr hpending))
      (Or.inl rfl) Or.inl (by simp)
  | @unlock frame ret i hpc hi =>
    obtain ⟨hin, _, hmark⟩ := loopSend_free frame ret
    have hdone : i ≠ 0 := by
      rintro rfl
      exact hi (by decide)
    exact h.of_client rfl (h.lock.leave (by simp [hpc]) hin) rfl rfl rfl id (by simp [hpc, hdone])
      (Or.inl rfl) Or.inl (absurd · hmark)
  | @trigger frame ret i hpc =>
    have hin : (s.clients c).InSection := by simp [hpc]
    have hpending : TxPending (mcp2515BitModify s.regs canintf (canintfTx0if <<< i.val) 0xFF) :=
      ⟨i, Or.inl (txif_raise i)⟩
    exact h.of_client rfl (h.lock.inside hin) rfl rfl rfl (fun _ => hpending)
      (fun _ => Or.inr (Or.inr hpending)) (Or.inl rfl) Or.inl (fun _ => hpending)
  | mark hpc =>
    have hin : (s.clients c).InSection := by simp [hpc]
    exact h.of_client rfl (h.lock.inside hin) rfl rfl rfl id (by simp [hpc]) (Or.inl rfl)
      (fun _ => Or.inr (by simp [hpc])) (by simp)

end CamkesVm.Can
