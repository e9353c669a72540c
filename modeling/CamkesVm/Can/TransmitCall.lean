import CamkesVm.Can.FrameLength
import CamkesVm.Can.PendingBuffers

/-!
# What a call of `transmit_message` does

The function is called with the set of transmit buffers whose flags were raised. It goes through them
in order, takes one frame from the queue for each, loads it and remembers the buffer for the request at
its end. When the queue is empty it stops, and says so to the clients.

A call that no other thread disturbs loads the frames of the queue in their order into the buffers in
theirs, as many as there are of both, and each buffer has its own registers. It comes to its end when
the frames that it loads have legal lengths. Over many calls no frame is lost or loaded twice: what was
loaded and what still waits are together what was pushed.
-/

namespace CamkesVm.Can

open CamkesVm.Machine

/-- A transmit buffer with the frame that it is loaded with. -/
abbrev Load := Fin txbNum × CanFrame

/-- What a step of the interrupt thread loads. -/
def loaded (s : CanState) : List Load :=
  match s.irq with
  | .txLoad i => [(i, s.txFrame)]
  | _ => []

/-- The interrupt thread takes steps of `transmit_message`, with what they load. -/
inductive Transmits : CanState → List Load → CanState → Prop
  | refl {s : CanState} : Transmits s [] s
  | step {s t u : CanState} {loads : List Load} (hstep : transmitStep s = some t)
      (hrest : Transmits t loads u) : Transmits s (loaded s ++ loads) u

/-- A call runs from its first step to its return. -/
def Calls (s : CanState) (loads : List Load) (t : CanState) : Prop :=
  s.irq = .txClear ∧ Transmits s loads t ∧ t.irq = dispatchRx s.flags

/-- The buffers of a set, in their order. -/
def buffersOf (tx : Byte) : List (Fin txbNum) := (List.finRange txbNum).filter fun i => tx.getLsbD i

/-- What a call has done: it has taken as many frames from the queue as there are buffers and frames,
loaded them in order, requested the loaded buffers and no others, cleared the flags that it was called
with, and stopped the transmission if there were too few frames. -/
structure Accounted (s : CanState) (loads : List Load) (t : CanState) : Prop where
  loads_eq : loads = (buffersOf (txOf s.flags)).zip (s.queues.contents .txq)
  txq : t.queues.contents .txq = (s.queues.contents .txq).drop
    (min (buffersOf (txOf s.flags)).length (s.queues.contents .txq).length)
  rxq : t.queues.contents .rxq = s.queues.contents .rxq
  carries : ∀ load ∈ loads, Carries (mcp2515ReadNregs t.regs (txbsidh load.1) maxBufLen) load.2
  control : ∀ load ∈ loads, t.regs (txbctrl load.1) = load.2.prio.setWidth 8 ||| txbctrlTxreq
  rts : ∀ j < 8, t.rts.getLsbD j = true ↔ ∃ load ∈ loads, load.1.val = j
  flags : t.regs canintf = s.regs canintf &&& ~~~(txOf s.flags <<< txifShf)
  others : ∀ a, a ≠ canintf → (∀ load ∈ loads, load.2.dlc.toNat + dat < (a - txbctrl load.1).toNat) →
    t.regs a = s.regs a
  stopped : t.xmitStopped = (s.xmitStopped ||
    decide ((s.queues.contents .txq).length < (buffersOf (txOf s.flags)).length))

section Registers

variable {regs : Regs} {load other : Load}

/-- The registers after a buffer has been loaded and its priority set. -/
def loadBuffer (regs : Regs) (load : Load) : Regs :=
  mcp2515WriteReg
    (mcp2515LoadTxb regs ((loadTxbBuf load.2).getD fun _ => 0) (load.2.dlc.toNat + dat) load.1)
    (txbctrl load.1) (load.2.prio.setWidth 8)

/-- The buffer holds the frame and its priority. -/
structure HoldsLoad (regs : Regs) (load : Load) : Prop where
  carries : Carries (mcp2515ReadNregs regs (txbsidh load.1) maxBufLen) load.2
  control : regs (txbctrl load.1) = load.2.prio.setWidth 8

/-- Where the registers of a buffer lie, from its first one. -/
theorem txbsidh_sub_self (i : Fin txbNum) (k : Fin maxBufLen) :
    (txbsidh i + BitVec.ofNat 8 k - txbsidh i).toNat = k := by
  revert i k
  decide

/-- They are no control registers. -/
theorem txbsidh_ne_txbctrl (i n : Fin txbNum) (k : Fin maxBufLen) :
    txbsidh i + BitVec.ofNat 8 k ≠ txbctrl n := by
  revert i n k
  decide

/-- Where the registers of a buffer lie, from the control register of another one. -/
theorem txb_apart {i j : Fin txbNum} (h : i ≠ j) :
    maxBufLen < (txbctrl i - txbctrl j).toNat ∧
      ∀ k : Fin maxBufLen, maxBufLen < (txbsidh i + BitVec.ofNat 8 k - txbctrl j).toNat := by
  revert i j
  decide

/-- Loading a buffer leaves the registers behind the loaded bytes. -/
theorem loadBuffer_outside {a : Byte} (h : load.2.dlc.toNat + dat < (a - txbctrl load.1).toNat) :
    loadBuffer regs load a = regs a := by
  have hctrl : a ≠ txbctrl load.1 := by
    rintro rfl
    rw [BitVec.sub_self] at h
    exact absurd h (Nat.not_lt_zero _)
  have hbuf : ¬ (a - txbsidh load.1).toNat < min (load.2.dlc.toNat + dat) maxBufLen := by
    have hoffset : (a - txbsidh load.1).toNat = (a - txbctrl load.1).toNat - 1 := by
      unfold txbsidh
      generalize txbctrl load.1 = ctrl at h
      bv_omega
    omega
  unfold loadBuffer mcp2515WriteReg
  rw [Function.update_of_ne hctrl]
  exact dif_neg hbuf

/-- Registers far behind the control registers of all buffers lie behind all loaded bytes. -/
theorem loads_far {a : Byte} (h : ∀ i : Fin txbNum, 20 < (a - txbctrl i).toNat) (load : Load) :
    load.2.dlc.toNat + dat < (a - txbctrl load.1).toNat := by
  have hdlc := load.2.dlc.isLt
  refine lt_of_le_of_lt ?_ (h load.1)
  change load.2.dlc.toNat + 5 ≤ 20
  omega

/-- A buffer that is loaded with a legal frame holds it. -/
theorem holdsLoad_loadBuffer (hfits : load.2.LengthFits) : HoldsLoad (loadBuffer regs load) load := by
  obtain ⟨buf, hbuf⟩ := Option.isSome_iff_exists.mp ((loadTxbBuf_isSome_iff load.2).mpr hfits)
  refine ⟨⟨buf, hbuf, fun k hk => ?_⟩, Function.update_self _ _ _⟩
  have hctrl := txbsidh_ne_txbctrl load.1 load.1 k
  have hoffset := txbsidh_sub_self load.1 k
  have hinside : (txbsidh load.1 + BitVec.ofNat 8 k - txbsidh load.1).toNat <
      min (load.2.dlc.toNat + dat) maxBufLen := by
    rw [hoffset]
    exact lt_min hk k.isLt
  unfold mcp2515ReadNregs loadBuffer mcp2515WriteReg
  rw [Function.update_of_ne hctrl, mcp2515LoadTxb, dif_pos hinside, hbuf]
  change buf _ = buf k
  congr 1
  exact Fin.ext hoffset

/-- It still holds it after another buffer has been loaded. -/
theorem HoldsLoad.loadBuffer (h : HoldsLoad regs load) (hother : load.1 ≠ other.1)
    (hfits : other.2.LengthFits) : HoldsLoad (loadBuffer regs other) load := by
  obtain ⟨hctrl, hregs⟩ := txb_apart hother
  have hbytes : other.2.dlc.toNat + dat ≤ maxBufLen := Nat.add_le_add_right hfits dat
  obtain ⟨buf, hbuf, hsame⟩ := h.carries
  refine ⟨⟨buf, hbuf, fun k hk => ?_⟩, ?_⟩
  · exact (loadBuffer_outside (hbytes.trans_lt (hregs k))).trans (hsame k hk)
  · exact (loadBuffer_outside (hbytes.trans_lt hctrl)).trans h.control

/-- Loading several buffers leaves the registers behind all loaded bytes. -/
theorem foldl_loadBuffer_outside {a : Byte} {loads : List Load}
    (h : ∀ load ∈ loads, load.2.dlc.toNat + dat < (a - txbctrl load.1).toNat) :
    loads.foldl Can.loadBuffer regs a = regs a := by
  induction loads generalizing regs with
  | nil => rfl
  | cons load loads ih =>
    rw [List.forall_mem_cons] at h
    rw [List.foldl_cons, ih h.2, loadBuffer_outside h.1]

/-- Loading other buffers keeps what a buffer holds. -/
theorem HoldsLoad.foldl (h : HoldsLoad regs load) {loads : List Load}
    (hothers : ∀ other ∈ loads, load.1 ≠ other.1) (hfits : ∀ other ∈ loads, other.2.LengthFits) :
    HoldsLoad (loads.foldl Can.loadBuffer regs) load := by
  induction loads generalizing regs with
  | nil => exact h
  | cons other loads ih =>
    rw [List.forall_mem_cons] at hothers hfits
    exact ih (h.loadBuffer hothers.1 hfits.1) hothers.2 hfits.2

/-- Every one of several different buffers holds what it was loaded with. -/
theorem holdsLoad_foldl {loads : List Load}
    (hbuffers : loads.Pairwise fun load other => load.1 ≠ other.1)
    (hfits : ∀ load ∈ loads, load.2.LengthFits) (hmem : load ∈ loads) :
    HoldsLoad (loads.foldl Can.loadBuffer regs) load := by
  induction loads generalizing regs with
  | nil => exact absurd hmem List.not_mem_nil
  | cons first loads ih =>
    rw [List.pairwise_cons] at hbuffers
    rw [List.forall_mem_cons] at hfits
    obtain rfl | hlater := List.mem_cons.mp hmem
    · exact (holdsLoad_loadBuffer hfits.1).foldl hbuffers.1 hfits.2
    · exact ih hbuffers.2 hfits.2 hlater

/-- A request changes control registers of requested buffers only. -/
theorem mcp2515Rts_outside {mask a : Byte}
    (h : ∀ n : Fin txbNum, mask.getLsbD n = true → a ≠ txbctrl n) : mcp2515Rts regs mask a = regs a := by
  unfold mcp2515Rts
  rw [if_neg]
  rintro ⟨n, ha, hmask⟩
  exact h n hmask ha

/-- The mask of the request has the bits of the loaded buffers. -/
def rtsMask (rts : Byte) (loads : List Load) : Byte :=
  loads.foldl (fun rts load => rts ||| bit load.1) rts

/-- The bit of a buffer. -/
theorem getLsbD_bit (i : Fin txbNum) {j : ℕ} (hj : j < 8) : (bit i).getLsbD j = true ↔ i.val = j := by
  have hbits : ∀ (i : Fin txbNum) (j : Fin 8), (bit i).getLsbD j = true ↔ i.val = j.val := by decide
  exact hbits i ⟨j, hj⟩

/-- The request mask holds its earlier bits and those of the loaded buffers. -/
theorem getLsbD_rtsMask (loads : List Load) (rts : Byte) {j : ℕ} (hj : j < 8) :
    (rtsMask rts loads).getLsbD j = true ↔ rts.getLsbD j = true ∨ ∃ load ∈ loads, load.1.val = j := by
  induction loads generalizing rts with
  | nil => simp [rtsMask]
  | cons load loads ih =>
    rw [rtsMask, List.foldl_cons, ← rtsMask, ih, BitVec.getLsbD_or, Bool.or_eq_true, getLsbD_bit _ hj,
      or_assoc, List.exists_mem_cons_iff]

end Registers

section Loop

variable {s t u : CanState} {loads : List Load}

/-- A step that loads nothing before the rest of a call. -/
theorem Transmits.quiet (hmove : TransmitMove s t) (hquiet : loaded s = [])
    (hrest : Transmits t loads u) : Transmits s loads u := by
  have hsteps := Transmits.step (transmitStep_of_transmitMove hmove) hrest
  rwa [hquiet, List.nil_append] at hsteps

/-- Two parts of a call. -/
theorem Transmits.trans {later : List Load} (h : Transmits s loads t) (hlater : Transmits t later u) :
    Transmits s (loads ++ later) u := by
  induction h with
  | refl => exact hlater
  | step hstep _ ih =>
    rw [List.append_assoc]
    exact .step hstep (ih hlater)

/-- The buffers of a set from index `i` on. -/
def readyFrom (tx : Byte) (i : ℕ) : List (Fin txbNum) :=
  ((List.finRange txbNum).drop i).filter fun j => tx.getLsbD j

/-- The next buffer comes first, if it is in the set. -/
theorem readyFrom_eq (tx : Byte) {i : ℕ} (hi : i < txbNum) : readyFrom tx i =
    if tx.getLsbD i = true then ⟨i, hi⟩ :: readyFrom tx (i + 1) else readyFrom tx (i + 1) := by
  have hdrop : (List.finRange txbNum).drop i = ⟨i, hi⟩ :: (List.finRange txbNum).drop (i + 1) := by
    rw [List.drop_eq_getElem_cons (by rwa [List.length_finRange]), List.getElem_finRange]
    rfl
  rw [readyFrom, hdrop, List.filter_cons]
  rfl

/-- A pop from an empty queue. -/
theorem txQueuePop_of_nil {queues : MessageQueues} (h : queues.contents .txq = []) :
    queues.txQueuePop.1 = none := by
  rw [MessageQueues.contents_pop, List.append_eq_nil_iff, Option.toList_eq_nil_iff] at h
  exact h.1

/-- A pop from a queue with a frame. -/
theorem txQueuePop_of_cons {queues : MessageQueues} {frame : CanFrame} {rest : List CanFrame}
    (h : queues.contents .txq = frame :: rest) :
    queues.txQueuePop.1 = some frame ∧ queues.txQueuePop.2.contents .txq = rest := by
  have hpop := MessageQueues.contents_pop queues .txq
  rw [h] at hpop
  cases hfirst : (queues.pop .txq).1 with
  | none => rw [MessageQueues.contents_of_pop_none hfirst] at h; exact absurd h (by simp)
  | some got =>
    rw [hfirst] at hpop
    obtain ⟨rfl, hrest⟩ := List.cons.inj hpop
    exact ⟨hfirst, hrest.symm⟩

/-- The state behind a round of the loop that has loaded a frame. -/
def loadRound (s : CanState) (load : Load) : CanState :=
  { s with
    queues := s.queues.txQueuePop.2
    txFrame := load.2
    regs := loadBuffer s.regs load
    rts := s.rts ||| bit load.1
    irq := .txPop (load.1 + 1) }

/-- The registers behind such a round. -/
theorem loadRound_regs (s : CanState) (load : Load) :
    (loadRound s load).regs = loadBuffer s.regs load := rfl

/-- One round of the loop: a frame is taken, loaded and its buffer remembered. -/
theorem transmits_round {i : ℕ} {frame : CanFrame} (hirq : s.irq = .txPop i) (hi : i < txbNum)
    (hready : (txOf s.flags).getLsbD i = true) (hpop : s.queues.txQueuePop.1 = some frame)
    (hwait : s.regs waitReg = 0) (hfits : frame.LengthFits) {loads : List Load}
    (hrest : Transmits (loadRound s (⟨i, hi⟩, frame)) loads t) :
    Transmits s ((⟨i, hi⟩, frame) :: loads) t := by
  obtain ⟨buf, hbuf⟩ := Option.isSome_iff_exists.mp ((loadTxbBuf_isSome_iff frame).mpr hfits)
  have hfree : mcp2515ReadReg s.regs (txbctrl i &&& txbctrlTxreq) = 0 := by
    rw [show txbctrl i &&& txbctrlTxreq = waitReg from txbctrl_and_txreq ⟨i, hi⟩]
    exact hwait
  unfold loadRound loadBuffer at hrest
  rw [hbuf] at hrest
  refine .quiet (.pop hirq hi hready hpop) (by rw [loaded, hirq]) ?_
  refine .quiet (.ready rfl hfree) rfl ?_
  refine .step (transmitStep_of_transmitMove (.load rfl hbuf)) ?_
  exact .quiet (.prio rfl) rfl hrest

/-- What the loop over the given buffers does. -/
structure LoopEnd (s : CanState) (ready : List (Fin txbNum)) (t : CanState) : Prop where
  irq : t.irq = .txRts
  flags : t.flags = s.flags
  regs : t.regs = (ready.zip (s.queues.contents .txq)).foldl loadBuffer s.regs
  rts : t.rts = rtsMask s.rts (ready.zip (s.queues.contents .txq))
  txq : t.queues.contents .txq = (s.queues.contents .txq).drop
    (min ready.length (s.queues.contents .txq).length)
  rxq : t.queues.contents .rxq = s.queues.contents .rxq
  stopped : t.xmitStopped = (s.xmitStopped || decide ((s.queues.contents .txq).length < ready.length))

/-- A round that loads a frame, and the loop over the buffers behind it. -/
theorem LoopEnd.of_round {load : Load} {ready : List (Fin txbNum)} {rest : List CanFrame}
    (hq : s.queues.contents .txq = load.2 :: rest) (hend : LoopEnd (loadRound s load) ready t) :
    LoopEnd s (load.1 :: ready) t := by
  have hrest : (loadRound s load).queues.contents .txq = rest := (txQueuePop_of_cons hq).2
  refine ⟨hend.irq, hend.flags, ?_, ?_, ?_, ?_, ?_⟩
  · rw [hend.regs, hrest, hq, loadRound_regs, List.zip_cons_cons, List.foldl_cons]
  · rw [hend.rts, hrest, hq]
    rfl
  · rw [hend.txq, hrest, hq, List.length_cons, List.length_cons, Nat.add_min_add_right,
      List.drop_succ_cons]
  · exact hend.rxq.trans (MessageQueues.contents_pop_other (by decide))
  · rw [hend.stopped, hrest, hq, List.length_cons, List.length_cons]
    simp only [Nat.add_lt_add_iff_right]
    rfl

/-- The loop from index `i` on goes through the buffers that are left. -/
theorem transmits_loop {d i : ℕ} (hd : i + d = txbNum) (hirq : s.irq = .txPop i)
    (hlock : s.txbLock = false)
    (hwait : ∀ load ∈ (readyFrom (txOf s.flags) i).zip (s.queues.contents .txq), s.regs waitReg = 0)
    (hfits : ∀ load ∈ (readyFrom (txOf s.flags) i).zip (s.queues.contents .txq), load.2.LengthFits) :
    ∃ t, Transmits s ((readyFrom (txOf s.flags) i).zip (s.queues.contents .txq)) t ∧
      LoopEnd s (readyFrom (txOf s.flags) i) t := by
  have hquiet : loaded s = [] := by rw [loaded, hirq]
  induction d generalizing i s with
  | zero =>
    have hi : ¬ i < txbNum := by omega
    have hnone : readyFrom (txOf s.flags) i = [] := by
      rw [readyFrom, List.drop_eq_nil_of_le (by rw [List.length_finRange]; omega), List.filter_nil]
    rw [hnone]
    refine ⟨_, .quiet (.last hirq hi) hquiet .refl, ?_⟩
    exact ⟨rfl, rfl, rfl, rfl, by simp, rfl, by simp⟩
  | succ d ih =>
    have hi : i < txbNum := by omega
    by_cases hready : (txOf s.flags).getLsbD i = true
    · rw [readyFrom_eq _ hi, if_pos hready] at hwait hfits ⊢
      cases hq : s.queues.contents .txq with
      | nil =>
        refine ⟨_, .quiet (.empty hirq hi hready (txQueuePop_of_nil hq)) hquiet
          (.quiet (.stop rfl hlock) rfl .refl), ?_⟩
        constructor <;> simp [hq, rtsMask]
      | cons frame rest =>
        rw [hq, List.zip_cons_cons, List.forall_mem_cons] at hwait hfits
        obtain ⟨hpop, hrest⟩ := txQueuePop_of_cons hq
        have hafter : (loadRound s (⟨i, hi⟩, frame)).queues.contents .txq = rest := hrest
        have hwaitAfter : (loadRound s (⟨i, hi⟩, frame)).regs waitReg = 0 := by
          rw [loadRound_regs, loadBuffer_outside (loads_far (by decide) _), hwait.1]
        obtain ⟨t, hsteps, hend⟩ := ih (s := loadRound s (⟨i, hi⟩, frame))
          (show i + 1 + d = txbNum by omega) rfl hlock (fun _ _ => hwaitAfter)
          (by rw [hafter]; exact hfits.2) rfl
        rw [hafter] at hsteps
        exact ⟨t, transmits_round hirq hi hready hpop hwait.1 hfits.1 hsteps, .of_round hq hend⟩
    · rw [readyFrom_eq _ hi, if_neg hready] at hwait hfits ⊢
      obtain ⟨t, hsteps, hend⟩ := ih (s := { s with irq := .txPop (i + 1) }) (by omega) rfl hlock hwait
        hfits rfl
      exact ⟨t, .quiet (.skip hirq hi (Bool.eq_false_iff.mpr hready)) hquiet hsteps,
        ⟨hend.irq, hend.flags, hend.regs, hend.rts, hend.txq, hend.rxq, hend.stopped⟩⟩

/-- Different buffers are loaded. -/
theorem pairwise_loads (tx : Byte) (frames : List CanFrame) :
    ((buffersOf tx).zip frames).Pairwise fun load other => load.1 ≠ other.1 := by
  have hbuffers : (buffersOf tx).Pairwise (· ≠ ·) := (List.nodup_finRange txbNum).filter _
  generalize buffersOf tx = buffers at hbuffers
  induction hbuffers generalizing frames with
  | nil => exact List.Pairwise.nil
  | cons hfirst _ ih =>
    cases frames with
    | nil => exact List.Pairwise.nil
    | cons frame frames =>
      exact List.pairwise_cons.mpr ⟨fun load hload => hfirst _ (List.of_mem_zip hload).1, ih frames⟩

/-- The start of a call: the flags are cleared. -/
def clearFlags (s : CanState) : CanState :=
  { s with
    regs := mcp2515BitModify s.regs canintf (txOf s.flags <<< txifShf) 0
    rts := 0
    irq := .txPop 0 }

/-- The registers at the start of a call. -/
theorem clearFlags_regs (s : CanState) : (clearFlags s).regs =
    Function.update s.regs canintf (s.regs canintf &&& ~~~(txOf s.flags <<< txifShf)) := by
  change mcp2515BitModify s.regs canintf (txOf s.flags <<< txifShf) 0 = _
  rw [mcp2515BitModify, show (0 : Byte) = 0#8 from rfl, BitVec.zero_and, BitVec.or_zero]

/-- The end of a call: the loaded buffers are requested. -/
def request (s : CanState) : CanState :=
  { s with regs := mcp2515Rts s.regs s.rts, irq := dispatchRx s.flags }

/-- A call whose loop has run through the buffers is accounted for. -/
theorem accounted_of_loopEnd (hend : LoopEnd (clearFlags s) (buffersOf (txOf s.flags)) t)
    (hfits : ∀ load ∈ (buffersOf (txOf s.flags)).zip (s.queues.contents .txq), load.2.LengthFits) :
    Accounted s ((buffersOf (txOf s.flags)).zip (s.queues.contents .txq)) (request t) := by
  have hloaded := pairwise_loads (txOf s.flags) (s.queues.contents .txq)
  have hregs : t.regs = ((buffersOf (txOf s.flags)).zip (s.queues.contents .txq)).foldl loadBuffer
    (clearFlags s).regs := hend.regs
  have hmask : t.rts = rtsMask 0 ((buffersOf (txOf s.flags)).zip (s.queues.contents .txq)) := hend.rts
  generalize hloads : (buffersOf (txOf s.flags)).zip (s.queues.contents .txq) = loads at *
  have hrts : ∀ j < 8, t.rts.getLsbD j = true ↔ ∃ load ∈ loads, load.1.val = j := by
    intro j hj
    rw [hmask, getLsbD_rtsMask _ _ hj, show (0 : Byte) = 0#8 from rfl, BitVec.getLsbD_zero,
      Bool.false_eq_true, false_or]
  have hheld : ∀ load ∈ loads, HoldsLoad t.regs load := by
    intro load hload
    rw [hregs]
    exact holdsLoad_foldl hloaded hfits hload
  constructor
  case loads_eq => exact hloads.symm
  case txq => exact hend.txq
  case rxq => exact hend.rxq
  case carries =>
    intro load hload
    obtain ⟨buf, hbuf, hsame⟩ := (hheld load hload).carries
    refine ⟨buf, hbuf, fun k hk => ?_⟩
    exact (mcp2515Rts_outside fun n _ => txbsidh_ne_txbctrl load.1 n k).trans (hsame k hk)
  case control =>
    intro load hload
    have hbit := (hrts load.1 (load.1.isLt.trans (by decide))).mpr ⟨load, hload, rfl⟩
    rw [← (hheld load hload).control]
    exact if_pos ⟨load.1, rfl, hbit⟩
  case rts => exact hrts
  case flags =>
    have hrequest : mcp2515Rts t.regs t.rts canintf = t.regs canintf :=
      mcp2515Rts_outside fun n _ => canintf_ne_txbctrl n
    refine hrequest.trans ?_
    rw [hregs, foldl_loadBuffer_outside fun load _ => loads_far (by decide) load, clearFlags_regs,
      Function.update_self]
  case others =>
    intro a ha houtside
    have hctrl : ∀ n : Fin txbNum, t.rts.getLsbD n = true → a ≠ txbctrl n := by
      rintro n hn rfl
      obtain ⟨load, hload, hload1⟩ := (hrts n (n.isLt.trans (by decide))).mp hn
      have hzero := houtside load hload
      rw [hload1, BitVec.sub_self] at hzero
      exact absurd hzero (Nat.not_lt_zero _)
    refine (mcp2515Rts_outside hctrl).trans ?_
    rw [hregs, foldl_loadBuffer_outside houtside, clearFlags_regs, Function.update_of_ne ha]
  case stopped => exact hend.stopped

/-- A call comes to its end when the waits end and the frames that it loads have legal lengths. -/
theorem calls_of_lengthFits (hcall : s.irq = .txClear) (hlock : s.txbLock = false)
    (hwait : ∀ load ∈ (buffersOf (txOf s.flags)).zip (s.queues.contents .txq), s.regs waitReg = 0)
    (hfits : ∀ load ∈ (buffersOf (txOf s.flags)).zip (s.queues.contents .txq), load.2.LengthFits) :
    ∃ loads t, Calls s loads t ∧ Accounted s loads t := by
  have hwaitReg : (clearFlags s).regs waitReg = s.regs waitReg := by
    rw [clearFlags_regs, Function.update_of_ne (by decide)]
  obtain ⟨t, hloop, hend⟩ := transmits_loop (s := clearFlags s) (d := txbNum) (Nat.zero_add _) rfl hlock
    (fun load hload => hwaitReg.trans (hwait load hload)) hfits
  have hrequest : Transmits t [] (request t) :=
    .quiet (.rts hend.irq) (by rw [loaded, hend.irq]) .refl
  have hcalled : Transmits s _ (request t) :=
    .quiet (.clear hcall) (by rw [loaded, hcall]) (hloop.trans hrequest)
  rw [List.append_nil] at hcalled
  exact ⟨_, request t, ⟨hcall, hcalled, congrArg dispatchRx hend.flags⟩, accounted_of_loopEnd hend hfits⟩

/-- Every frame that is loaded has a legal length. -/
theorem Transmits.lengthFits (h : Transmits s loads t) : ∀ load ∈ loads, load.2.LengthFits := by
  induction h with
  | refl => exact fun _ hmem => absurd hmem List.not_mem_nil
  | @step s t u loads hstep hrest ih =>
    intro load hmem
    obtain hfirst | hlater := List.mem_append.mp hmem
    · cases transmitMove_of_transmitStep hstep with
      | load hirq hbuf =>
        rw [loaded, hirq, List.mem_singleton] at hfirst
        rw [hfirst]
        exact (loadTxbBuf_isSome_iff _).mp (by rw [hbuf]; rfl)
      | clear hirq | pop hirq | empty hirq | skip hirq | last hirq | wait hirq | ready hirq | prio hirq
      | stop hirq | rts hirq =>
        rw [loaded, hirq] at hfirst
        exact absurd hfirst List.not_mem_nil
    · exact ih load hlater

/-- The frame that the interrupt thread has taken from the queue and not yet loaded. -/
def carried (s : CanState) : List CanFrame :=
  match s.irq with
  | .txWait _ | .txLoad _ => [s.txFrame]
  | _ => []

/-- After a call no frame is carried. -/
theorem carried_of_dispatchRx (flags : Byte) (h : s.irq = dispatchRx flags) : carried s = [] := by
  unfold dispatchRx receiveFirst receiveSecond at h
  split_ifs at h <;> rw [carried, h]

/-- A step moves a frame from the queue to the thread, or from the thread to a buffer. -/
theorem transmitMove_frames (hmove : TransmitMove s t) :
    (loaded s).map Prod.snd ++ (carried t ++ t.queues.contents .txq) =
      carried s ++ s.queues.contents .txq := by
  cases hmove with
  | pop hirq hi hready hpop =>
    have hcontents := MessageQueues.contents_pop s.queues .txq
    rw [show (s.queues.pop .txq).1 = some _ from hpop] at hcontents
    rw [loaded, carried, carried, hirq, hcontents]
    rfl
  | rts hirq =>
    rw [carried_of_dispatchRx s.flags rfl, loaded, carried, hirq]
    rfl
  | clear hirq | empty hirq | skip hirq | last hirq | wait hirq | ready hirq | load hirq | prio hirq
  | stop hirq =>
    simp only [loaded, carried, hirq]
    rfl

/-- During a call the loaded frames, the carried one and the waiting ones stay the same sequence. -/
theorem Transmits.frames (h : Transmits s loads t) :
    loads.map Prod.snd ++ (carried t ++ t.queues.contents .txq) =
      carried s ++ s.queues.contents .txq := by
  induction h with
  | refl => rfl
  | step hstep _ ih =>
    rw [List.map_append, List.append_assoc, ih,
      transmitMove_frames (transmitMove_of_transmitStep hstep)]

/-- A call takes the frames that it loads from the front of the queue. -/
theorem Calls.frames (h : Calls s loads t) :
    loads.map Prod.snd ++ t.queues.contents .txq = s.queues.contents .txq := by
  obtain ⟨hcall, hsteps, hreturn⟩ := h
  have hframes := hsteps.frames
  rwa [carried_of_dispatchRx s.flags hreturn, show carried s = [] by rw [carried, hcall],
    List.nil_append, List.nil_append] at hframes

end Loop

/-- A run of pushes and calls, with the frames that were accepted and the ones that were loaded. Between
them anything but the transmit queue may change. -/
inductive CallRun (s : CanState) : List CanFrame → List CanFrame → CanState → Prop
  | start : CallRun s [] [] s
  | push {t : CanState} {pushed sent : List CanFrame} (hrun : CallRun s pushed sent t)
      (frame : CanFrame) :
      CallRun s (pushed ++ if (t.queues.txQueuePush frame).1 = 0 then [frame] else []) sent
        { t with queues := (t.queues.txQueuePush frame).2 }
  | call {t u : CanState} {pushed sent : List CanFrame} {loads : List Load}
      (hrun : CallRun s pushed sent t) (hcall : Calls t loads u) :
      CallRun s pushed (sent ++ loads.map Prod.snd) u
  | elsewhere {t u : CanState} {pushed sent : List CanFrame} (hrun : CallRun s pushed sent t)
      (hqueue : u.queues.contents .txq = t.queues.contents .txq) : CallRun s pushed sent u

/-- What was loaded and what still waits are together what was pushed. -/
theorem CallRun.frames {s t : CanState} {pushed sent : List CanFrame} (h : CallRun s pushed sent t) :
    sent ++ t.queues.contents .txq = s.queues.contents .txq ++ pushed := by
  induction h with
  | start => exact (List.append_nil _).symm
  | @push t _ _ hrun frame ih =>
    obtain ⟨hret, hcontents⟩ | ⟨hret, _, hqueues⟩ := MessageQueues.push_cases t.queues .txq frame
    · rw [if_pos (show (t.queues.txQueuePush frame).1 = 0 from hret), ← List.append_assoc, ← ih,
        List.append_assoc]
      exact congrArg _ hcontents
    · rw [if_neg (by rw [MessageQueues.txQueuePush, hret]; decide), List.append_nil, ← ih]
      exact congrArg (fun queues => _ ++ MessageQueues.contents queues .txq) hqueues
  | call hrun hcall ih => rw [List.append_assoc, hcall.frames, ih]
  | elsewhere hrun hqueue ih => rw [hqueue, ih]

/-- The frames that meet a buffer are the first ones of the queue. -/
theorem map_snd_zip_buffersOf (tx : Byte) (frames : List CanFrame) :
    ((buffersOf tx).zip frames).map Prod.snd =
      frames.take (min (buffersOf tx).length frames.length) := by
  rw [List.zip_eq_zip_take_min, List.map_snd_zip]
  simp

/-- A call that no other thread disturbs and whose waits end returns, with every frame accounted for,
exactly when the frames that meet a ready buffer have legal lengths. Over any run of pushes and calls
the loaded frames are the first of the pushed ones. -/
theorem transmitMessage_accounts_iff (s : CanState) (hcall : s.irq = .txClear)
    (hlock : s.txbLock = false)
    (hwait : ∀ load ∈ (buffersOf (txOf s.flags)).zip (s.queues.contents .txq),
      mcp2515ReadReg s.regs (txbctrl load.1 &&& txbctrlTxreq) = 0) :
    ((∃ loads t, Calls s loads t ∧ Accounted s loads t) ↔
      ∀ frame ∈ (s.queues.contents .txq).take
        (min (buffersOf (txOf s.flags)).length (s.queues.contents .txq).length), frame.LengthFits) ∧
    ∀ first last pushed sent, CallRun first pushed sent last → first.queues.contents .txq = [] →
      sent <+: pushed := by
  simp only [txbctrl_and_txreq] at hwait
  rw [← map_snd_zip_buffersOf, List.forall_mem_map]
  refine ⟨⟨fun ⟨loads, t, hcalls, haccounted⟩ => ?_, calls_of_lengthFits hcall hlock hwait⟩, ?_⟩
  · rw [← haccounted.loads_eq]
    exact hcalls.2.1.lengthFits
  · intro first last pushed sent hrun hempty
    have hframes := hrun.frames
    rw [hempty, List.nil_append] at hframes
    exact ⟨_, hframes⟩

/-- The first buffer is ready and the queue holds one frame. -/
def oneReady (frame : CanFrame) : CanState :=
  { idleComponent with irq := .txClear, flags := 0x04, queues := (deviceQueues.txQueuePush frame).2 }

/-- A frame of eight bytes is loaded. -/
theorem fullFrame_accounted :
    ∃ loads t, Calls (oneReady (frameOfLength 8)) loads t ∧
      Accounted (oneReady (frameOfLength 8)) loads t :=
  (transmitMessage_accounts_iff _ rfl rfl (by decide)).1.mpr (by decide)

/-- With a frame of nine bytes the call does not come to its end inside the arrays. -/
theorem longFrame_not_accounted :
    ¬ ∃ loads t, Calls (oneReady (frameOfLength 9)) loads t ∧
      Accounted (oneReady (frameOfLength 9)) loads t := by
  rintro ⟨loads, t, hcalls, haccounted⟩
  have hloads : loads = [(0, frameOfLength 9)] := by
    rw [haccounted.loads_eq]
    decide
  have hfits := hcalls.2.1.lengthFits (0, frameOfLength 9)
    (by rw [hloads]; exact List.mem_singleton_self _)
  exact absurd hfits (by decide)

end CamkesVm.Can
