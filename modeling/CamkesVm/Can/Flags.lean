import CamkesVm.Can.Component

/-!
# The flags and requests in the registers

What the transmit side of the component depends on are the transmit flags and the transmit
requests; what the receive side depends on are the receive flags and the two receive buffers.
This file says what each command and each action of the controller does to either view.
-/

namespace CamkesVm.Can

open CamkesVm.Machine

variable {regs regs' : Regs}

/-- The flag of an empty transmit buffer. -/
def txif (regs : Regs) (n : Fin txbNum) : Bool := (regs canintf).getLsbD (n + 2)

/-- The request bit of a transmit buffer. -/
def txreq (regs : Regs) (n : Fin txbNum) : Bool := (regs (txbctrl n)).getLsbD 3

/-- The flag of a full receive buffer. -/
def rxif (regs : Regs) (n : Fin 2) : Bool := (regs canintf).getLsbD n

/-- The contents of a receive buffer. -/
def rxbImage (regs : Regs) (n : Fin 2) : Bytes maxBufLen :=
  mcp2515ReadNregs regs (rxbsidh n) maxBufLen

/-- The mask test of the source finds a request bit. -/
theorem txreq_of_and_ne_zero {n : Fin txbNum} (h : regs (txbctrl n) &&& txbctrlTxreq ≠ 0) :
    txreq regs n = true := by
  have hbit : ∀ val : Byte, val &&& txbctrlTxreq ≠ 0 → val.getLsbD 3 = true := by decide
  exact hbit _ h

/-- The transmit flags and requests. -/
def txView (regs : Regs) : (Fin txbNum → Bool) × (Fin txbNum → Bool) := (txif regs, txreq regs)

/-- The receive flags and buffers. -/
def rxView (regs : Regs) : (Fin 2 → Bool) × (Fin 2 → Bytes maxBufLen) := (rxif regs, rxbImage regs)

/-- The flag register is not the control register of a transmit buffer. -/
theorem canintf_ne_txbctrl : ∀ n : Fin txbNum, canintf ≠ txbctrl n := by decide

/-- The transmit buffers have different control registers. -/
theorem txbctrl_injective : ∀ n k : Fin txbNum, txbctrl n = txbctrl k → n = k := by decide

/-- The data registers of a transmit buffer are outside both views. -/
theorem txb_layout : ∀ idx : Fin txbNum, maxBufLen ≤ (canintf - txbsidh idx).toNat ∧
    (∀ n : Fin txbNum, maxBufLen ≤ (txbctrl n - txbsidh idx).toNat) ∧
    ∀ (n : Fin 2) (i : Fin maxBufLen),
      maxBufLen ≤ (rxbsidh n + BitVec.ofNat 8 i - txbsidh idx).toNat := by decide

/-- The registers of a receive buffer are outside the transmit view. -/
theorem rxb_layout : ∀ idx : Fin 2, maxBufLen ≤ (canintf - rxbsidh idx).toNat ∧
    ∀ n : Fin txbNum, maxBufLen ≤ (txbctrl n - rxbsidh idx).toNat := by decide

/-- The transmit view is in the flag register and the control registers of the buffers. -/
theorem txView_congr (hflags : regs' canintf = regs canintf)
    (hctrl : ∀ n : Fin txbNum, regs' (txbctrl n) = regs (txbctrl n)) : txView regs' = txView regs := by
  refine Prod.ext (funext fun n => ?_) (funext fun n => ?_)
  · simp only [txView, txif, hflags]
  · simp only [txView, txreq, hctrl]

/-- The receive view is in the flag register and the receive buffers. -/
theorem rxView_congr (hflags : regs' canintf = regs canintf)
    (hbuf : ∀ (n : Fin 2) (i : Fin maxBufLen),
      regs' (rxbsidh n + BitVec.ofNat 8 i) = regs (rxbsidh n + BitVec.ofNat 8 i)) :
    rxView regs' = rxView regs := by
  refine Prod.ext (funext fun n => ?_) (funext fun n => funext fun i => ?_)
  · simp only [rxView, rxif, hflags]
  · exact hbuf n i

/-- A register outside both views. -/
def Unviewed (reg : Byte) : Prop :=
  reg ≠ canintf ∧ (∀ n : Fin txbNum, reg ≠ txbctrl n) ∧
    ∀ (n : Fin 2) (i : Fin maxBufLen), reg ≠ rxbsidh n + BitVec.ofNat 8 i

instance (reg : Byte) : Decidable (Unviewed reg) := inferInstanceAs (Decidable (_ ∧ _ ∧ _))

/-- Changing a register outside both views changes neither. -/
theorem views_update (regs : Regs) {reg : Byte} (h : Unviewed reg) (val : Byte) :
    txView (Function.update regs reg val) = txView regs ∧
      rxView (Function.update regs reg val) = rxView regs :=
  ⟨txView_congr (Function.update_of_ne h.1.symm _ _) fun n =>
      Function.update_of_ne (h.2.1 n).symm _ _,
    rxView_congr (Function.update_of_ne h.1.symm _ _) fun n i =>
      Function.update_of_ne (h.2.2 n i).symm _ _⟩

/-- A bit of the flag register after a modification. -/
theorem getLsbD_bitModify_canintf (mask val : Byte) {i : ℕ} (hi : i < 8) :
    (mcp2515BitModify regs canintf mask val canintf).getLsbD i =
      if mask.getLsbD i then val.getLsbD i else (regs canintf).getLsbD i := by
  rw [mcp2515BitModify, Function.update_self]
  simp only [BitVec.getLsbD_or, BitVec.getLsbD_and, BitVec.getLsbD_not, hi, decide_true,
    Bool.true_and]
  cases mask.getLsbD i <;> simp

/-- Changing flags that are not transmit flags leaves the transmit view. -/
theorem txView_bitModify_canintf {mask val : Byte}
    (hmask : ∀ n : Fin txbNum, mask.getLsbD (n + 2) = false) :
    txView (mcp2515BitModify regs canintf mask val) = txView regs := by
  refine Prod.ext (funext fun n => ?_) (funext fun n => ?_)
  · simp only [txView, txif]
    rw [getLsbD_bitModify_canintf mask val (by revert n; decide), hmask n]
    rfl
  · exact congrArg (BitVec.getLsbD · 3)
      (Function.update_of_ne (by revert n; decide) _ _)

/-- Changing flags changes no receive buffer. -/
theorem rxbImage_bitModify_canintf (mask val : Byte) (n : Fin 2) :
    rxbImage (mcp2515BitModify regs canintf mask val) n = rxbImage regs n :=
  mcp2515ReadNregs_bitModify_of_ne _ _ (by revert n; decide)

/-- A modification that leaves the receive flags leaves the receive view. -/
theorem rxView_bitModify_canintf {mask val : Byte}
    (hflags : ∀ n : Fin 2, mask.getLsbD n = true → rxif regs n = val.getLsbD n) :
    rxView (mcp2515BitModify regs canintf mask val) = rxView regs := by
  refine Prod.ext (funext fun n => ?_) (funext fun n => rxbImage_bitModify_canintf mask val n)
  simp only [rxView, rxif]
  rw [getLsbD_bitModify_canintf mask val (by omega)]
  split
  next hmask => exact (hflags n hmask).symm
  next => rfl

/-- Raising the flag of a transmit buffer sets it. -/
theorem txif_raise (n : Fin txbNum) :
    txif (mcp2515BitModify regs canintf (canintfTx0if <<< n.val) 0xFF) n = true := by
  have hmask : (canintfTx0if <<< n.val).getLsbD (n + 2) = true ∧
      (0xFF : Byte).getLsbD (n + 2) = true := by
    revert n
    decide
  rw [txif, getLsbD_bitModify_canintf _ _ (by revert n; decide), if_pos hmask.1, hmask.2]

/-- Requesting transmission sets the request bits in the mask. -/
theorem txView_rts (regs : Regs) (mask : Byte) :
    txif (mcp2515Rts regs mask) = txif regs ∧
      ∀ n : Fin txbNum, txreq (mcp2515Rts regs mask) n = (txreq regs n || mask.getLsbD n) := by
  refine ⟨funext fun n => ?_, fun n => ?_⟩
  · have hother : ¬ ∃ k : Fin 3, canintf = txbctrl k ∧ mask.getLsbD k = true := by
      rintro ⟨k, hk, _⟩
      exact canintf_ne_txbctrl k hk
    simp only [txif, mcp2515Rts, if_neg hother]
  · have hsame : (∃ k : Fin 3, txbctrl n = txbctrl k ∧ mask.getLsbD k = true) ↔
        mask.getLsbD n = true := by
      refine ⟨?_, fun h => ⟨n, rfl, h⟩⟩
      rintro ⟨k, hk, hbit⟩
      exact txbctrl_injective n k hk ▸ hbit
    have hreq : txbctrlTxreq.getLsbD 3 = true := by decide
    simp only [txreq, mcp2515Rts, hsame]
    split
    next h => simp [hreq, h]
    next h => simp [Bool.not_eq_true _ ▸ h]

/-- A frame that arrives leaves the transmit view. -/
theorem txView_arrive (n : Fin 2) (image : Bytes maxBufLen) :
    txView (mcp2515BitModify (mcp2515WriteNregs regs (rxbsidh n) image) canintf (bit n) 0xFF) =
      txView regs := by
  have hmask : ∀ (n : Fin 2) (k : Fin txbNum), (bit n).getLsbD (k + 2) = false := by decide
  obtain ⟨hflags, hctrl⟩ := rxb_layout n
  rw [txView_bitModify_canintf (hmask n)]
  exact txView_congr (dif_neg (Nat.not_lt.mpr hflags)) fun k => dif_neg (Nat.not_lt.mpr (hctrl k))

/-- Raising the error flags touches neither view. -/
theorem views_fault (bits errors : Byte) :
    let regs' := mcp2515BitModify (mcp2515WriteReg regs eflg errors) canintf
      (bits &&& (bit 5 ||| bit 6 ||| bit 7)) 0xFF
    txView regs' = txView regs ∧ rxView regs' = rxView regs := by
  have htx : ∀ (bits : Byte) (k : Fin txbNum),
      (bits &&& (bit 5 ||| bit 6 ||| bit 7)).getLsbD (k + 2) = false := by decide
  have hrx : ∀ (bits : Byte) (k : Fin 2),
      (bits &&& (bit 5 ||| bit 6 ||| bit 7)).getLsbD k = false := by decide
  obtain ⟨htx', hrx'⟩ := views_update regs (by decide : Unviewed eflg) errors
  exact ⟨(txView_bitModify_canintf (htx bits)).trans htx',
    (rxView_bitModify_canintf fun k hk => absurd hk (by simp [hrx bits k])).trans hrx'⟩

/-- Loading a transmit buffer touches neither view. -/
theorem views_loadTxb (buf : Bytes maxBufLen) (len : ℕ) (idx : Fin txbNum) :
    txView (mcp2515LoadTxb regs buf len idx) = txView regs ∧
      rxView (mcp2515LoadTxb regs buf len idx) = rxView regs := by
  have houtside (a : Byte) (h : maxBufLen ≤ (a - txbsidh idx).toNat) :
      mcp2515LoadTxb regs buf len idx a = regs a :=
    dif_neg (Nat.not_lt.mpr ((Nat.min_le_right _ _).trans h))
  obtain ⟨hflags, hctrl, hrxb⟩ := txb_layout idx
  exact ⟨txView_congr (houtside _ hflags) fun n => houtside _ (hctrl n),
    rxView_congr (houtside _ hflags) fun n i => houtside _ (hrxb n i)⟩

/-- Changing the control register of a transmit buffer leaves the receive view. -/
theorem rxView_update_txbctrl (n : Fin txbNum) (val : Byte) :
    rxView (Function.update regs (txbctrl n) val) = rxView regs := by
  have hbuf : ∀ (n : Fin txbNum) (k : Fin 2) (i : Fin maxBufLen),
      rxbsidh k + BitVec.ofNat 8 i ≠ txbctrl n := by decide
  exact rxView_congr (Function.update_of_ne (canintf_ne_txbctrl n) _ _) fun k i =>
    Function.update_of_ne (hbuf n k i) _ _

/-- Requesting transmission leaves the receive view. -/
theorem rxView_rts (regs : Regs) (mask : Byte) : rxView (mcp2515Rts regs mask) = rxView regs := by
  have hbuf : ∀ (k : Fin 2) (i : Fin maxBufLen) (n : Fin 3),
      rxbsidh k + BitVec.ofNat 8 i ≠ txbctrl n := by decide
  refine rxView_congr (if_neg ?_) fun k i => if_neg ?_
  · rintro ⟨n, hn, _⟩
    exact canintf_ne_txbctrl n hn
  · rintro ⟨n, hn, _⟩
    exact hbuf k i n hn

/-- Raising the flag of a transmit buffer leaves the receive view. -/
theorem rxView_raise (n : Fin txbNum) :
    rxView (mcp2515BitModify regs canintf (canintfTx0if <<< n.val) 0xFF) = rxView regs := by
  have hmask : ∀ (n : Fin txbNum) (k : Fin 2), (canintfTx0if <<< n.val).getLsbD k = false := by decide
  exact rxView_bitModify_canintf fun k hk => absurd hk (by simp [hmask n k])

/-- Clearing the transmit flags leaves the receive view. -/
theorem rxView_clear_txif (flags : Byte) :
    rxView (mcp2515BitModify regs canintf (txOf flags <<< txifShf) 0) = rxView regs := by
  have hmask : ∀ (flags : Byte) (k : Fin 2), (txOf flags <<< txifShf).getLsbD k = false := by decide
  exact rxView_bitModify_canintf fun k hk => absurd hk (by simp [hmask flags k])

/-- A frame that arrives sets its flag and fills its buffer. -/
theorem rx_arrive (n k : Fin 2) (image : Bytes maxBufLen) :
    let regs' := mcp2515BitModify (mcp2515WriteNregs regs (rxbsidh n) image) canintf (bit n) 0xFF
    rxif regs' k = (decide (k = n) || rxif regs k) ∧
      rxbImage regs' k = if k = n then image else rxbImage regs k := by
  have hbit : ∀ n k : Fin 2, (bit n).getLsbD k = decide (k = n) ∧ (0xFF : Byte).getLsbD k = true := by
    decide
  have hapart : ∀ n k : Fin 2, k ≠ n → ∀ i : Fin maxBufLen,
      maxBufLen ≤ (rxbsidh k + BitVec.ofNat 8 i - rxbsidh n).toNat := by decide
  have hflags : mcp2515WriteNregs regs (rxbsidh n) image canintf = regs canintf :=
    dif_neg (Nat.not_lt.mpr (rxb_layout n).1)
  refine ⟨?_, (rxbImage_bitModify_canintf _ _ k).trans ?_⟩
  · rw [rxif, getLsbD_bitModify_canintf _ _ (by omega), (hbit n k).1, (hbit n k).2, hflags]
    by_cases hk : k = n <;> simp [hk, rxif]
  · split
    next hk =>
      subst hk
      exact mcp2515ReadNregs_writeNregs regs _ image (by decide)
    next hk => exact mcp2515ReadNregs_writeNregs_of_disjoint regs _ image _ (hapart n k hk)

/-- Clearing the flag of one receive buffer leaves that of the other. -/
theorem rxif_clear (n k : Fin 2) :
    rxif (mcp2515BitModify regs canintf (bit n) 0) k = (decide (k ≠ n) && rxif regs k) := by
  have hbit : ∀ n k : Fin 2, (bit n).getLsbD k = decide (k = n) := by decide
  rw [rxif, getLsbD_bitModify_canintf _ _ (by omega), hbit n k]
  by_cases hk : k = n <;> simp [hk, rxif]

/-- A step of the error branches changes registers outside both views, the error count and the
place of the handler, which stays in these branches or goes on behind them. -/
theorem errorStep_cases {s t : CanState} (hstep : errorStep s = some t) :
    inErrorBranch s.irq = true ∧ ∃ regs count irq,
      t = { s with regs := regs, count := count, irq := irq } ∧
      (txView regs = txView s.regs ∧ rxView regs = rxView s.regs) ∧
      (inErrorBranch irq = true ∨ irq = dispatchTx s.flags) := by
  have hclear : ∀ n : Fin 3, txView (mcp2515BitModify s.regs canintf (bit (n + 5)) 0) = txView s.regs ∧
      rxView (mcp2515BitModify s.regs canintf (bit (n + 5)) 0) = rxView s.regs := by
    have htx : ∀ (n : Fin 3) (k : Fin txbNum), (bit (n + 5)).getLsbD (k + 2) = false := by decide
    have hrx : ∀ (n : Fin 3) (k : Fin 2), (bit (n + 5)).getLsbD k = false := by decide
    exact fun n => ⟨txView_bitModify_canintf (htx n),
      rxView_bitModify_canintf fun k hk => absurd hk (by simp [hrx n k])⟩
  unfold errorStep at hstep
  split at hstep
  next hirq =>
    refine ⟨by rw [hirq]; rfl, ?_⟩
    split at hstep <;> obtain rfl := Option.some.inj hstep <;>
    exact ⟨_, _, _, rfl, ⟨rfl, rfl⟩, Or.inl rfl⟩
  next hirq =>
    obtain rfl := Option.some.inj hstep
    exact ⟨by rw [hirq]; rfl, _, _, _, rfl, views_update _ (by decide) _, Or.inl rfl⟩
  next hirq =>
    obtain rfl := Option.some.inj hstep
    exact ⟨by rw [hirq]; rfl, _, _, _, rfl, views_update _ (by decide) _, Or.inl rfl⟩
  next hirq =>
    obtain rfl := Option.some.inj hstep
    exact ⟨by rw [hirq]; rfl, _, _, _, rfl, hclear 2, dispatchWak_cases _⟩
  next hirq =>
    obtain rfl := Option.some.inj hstep
    exact ⟨by rw [hirq]; rfl, _, _, _, rfl, hclear 1, dispatchErr_cases _⟩
  next hirq =>
    refine ⟨by rw [hirq]; rfl, ?_⟩
    dsimp only at hstep
    split at hstep <;> obtain rfl := Option.some.inj hstep <;>
    exact ⟨_, _, _, rfl, ⟨rfl, rfl⟩, Or.inl rfl⟩
  next overflows hirq =>
    obtain rfl := Option.some.inj hstep
    exact ⟨by rw [hirq]; rfl, _, _, _, rfl, views_update _ (by decide) _, Or.inl rfl⟩
  next hirq =>
    obtain rfl := Option.some.inj hstep
    exact ⟨by rw [hirq]; rfl, _, _, _, rfl, hclear 0, Or.inr rfl⟩
  · exact absurd hstep (by simp)

end CamkesVm.Can
