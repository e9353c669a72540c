import CamkesVm.Machine.Memory
import CamkesVm.Machine.Run

/-!
# The MAVLink relay of the pilot

Bytes from the ground station and from the flight controller come in one at a time, through one function
and in any interleaving. Each is stored in the buffer of the other side, and a buffer that has reached
the trigger level is written out and used again from its start. Every call also advances one error
counter, and the counter restarts the VM when it passes its maximum.

A sequence of calls is described from the state before it to the state after it: what was written and
what is still pending is what was pending and what came in. Such descriptions compose, so one call is all
there is to prove.
-/

namespace CamkesVm.Pilot

open CamkesVm.Machine

/-- The UART of the flight controller and the UART of the ground station. -/
inductive Uart
  | px4
  | gcs
  deriving DecidableEq

/-- The structure `packet`: a buffer in a dataport and how much of it is filled. -/
structure Packet where
  data : ℕ → Byte
  len : BitVec 32

/-- The packets to be sent, and the counter `err_cnt`. -/
structure PilotState where
  pkts : Uart → Packet
  errCnt : BitVec 32

/-- What a call does outside the component. -/
inductive PilotOutput
  | uartWrite (uart : Uart) (block : List Byte)
  | signalEmit
  | restartVmEmit
  deriving DecidableEq

/-- The size of a dataport. -/
def portSize : ℕ := 4096

/-- The constant `TRIGGER_LVL`. -/
def triggerLvl : ℕ := 20

/-- The constant `MAX_ERR`. -/
def maxErr : ℕ := 20

/-- The state after `pre_init`, whatever the dataports hold. -/
def preInit (ports : Uart → ℕ → Byte) : PilotState := ⟨fun uart => ⟨ports uart, 0⟩, 0⟩

/-- The first bytes of a packet. -/
def Packet.pending (pkt : Packet) : List Byte := readRange pkt.data 0 pkt.len.toNat

/-- The switch of `mavlink_recv`: the UART to which a byte goes. Any other number leaves a null
pointer. -/
def packetFor (uartNum : BitVec 32) : Option Uart :=
  if uartNum = 1 then some .px4 else if uartNum = 3 then some .gcs else none

/-- Store a character behind the packet, inside the dataport. -/
def Packet.append (pkt : Packet) (c : BitVec 32) : Option Packet :=
  if pkt.len.toNat < portSize then
    some ⟨writeRange pkt.data pkt.len.toNat [c.setWidth 8], pkt.len + 1⟩
  else none

/-- Write a packet out that has reached the trigger level. -/
def Packet.trigger (pkt : Packet) (uart : Uart) : List PilotOutput × Packet :=
  if pkt.len.toNat = triggerLvl then
    ([.uartWrite uart pkt.pending, .signalEmit], { pkt with len := 0 })
  else ([], pkt)

/-- Advance the error counter. -/
def countError (errCnt : BitVec 32) : List PilotOutput × BitVec 32 :=
  if maxErr < (errCnt + 1).toNat then ([.restartVmEmit], 0) else ([], errCnt + 1)

/-- The function `mavlink_recv`, called with `uart_num` and `c`. -/
def mavlinkRecv (s : PilotState) (call : BitVec 32 × BitVec 32) :
    Option (List PilotOutput × PilotState) := do
  let uart ← packetFor call.1
  let pkt ← (s.pkts uart).append call.2
  let sent := pkt.trigger uart
  let counted := countError s.errCnt
  return (sent.1 ++ counted.1, ⟨Function.update s.pkts uart sent.2, counted.2⟩)

/-- The blocks written to a UART. -/
def blocksTo (uart : Uart) (outs : List PilotOutput) : List (List Byte) := outs.filterMap fun
  | .uartWrite dest block => if dest = uart then some block else none
  | _ => none

/-- The bytes received with a UART number. -/
def receivedWith (uartNum : BitVec 32) (calls : List (BitVec 32 × BitVec 32)) : List Byte :=
  (calls.filter (·.1 = uartNum)).map fun call => call.2.setWidth 8

/-- The number with which the bytes for a UART come. -/
def Uart.sourceNum : Uart → BitVec 32
  | .px4 => 1
  | .gcs => 3

/-- The packets are below the trigger level and the counter is not above its maximum. -/
structure Settled (s : PilotState) : Prop where
  len_lt : ∀ uart, (s.pkts uart).len.toNat < triggerLvl
  errCnt_le : s.errCnt.toNat ≤ maxErr

/-- What a sequence of calls wrote and left pending, and how often it restarted the VM. -/
structure Relays (s : PilotState) (calls : List (BitVec 32 × BitVec 32)) (outs : List PilotOutput)
    (t : PilotState) : Prop where
  bytes_eq : ∀ uart, (blocksTo uart outs).flatten ++ (t.pkts uart).pending =
    (s.pkts uart).pending ++ receivedWith uart.sourceNum calls
  block_length : ∀ uart, ∀ block ∈ blocksTo uart outs, block.length = triggerLvl
  restarts_eq : outs.count .restartVmEmit * (maxErr + 1) + t.errCnt.toNat =
    s.errCnt.toNat + calls.length

section Calls

variable {s t u : PilotState} {calls later : List (BitVec 32 × BitVec 32)}
  {outs outs' : List PilotOutput}

/-- The blocks of two stretches, one after the other. -/
theorem blocksTo_append (uart : Uart) (outs outs' : List PilotOutput) :
    blocksTo uart (outs ++ outs') = blocksTo uart outs ++ blocksTo uart outs' :=
  List.filterMap_append

/-- The bytes of two stretches, one after the other. -/
theorem receivedWith_append (uartNum : BitVec 32) (calls later : List (BitVec 32 × BitVec 32)) :
    receivedWith uartNum (calls ++ later) =
      receivedWith uartNum calls ++ receivedWith uartNum later := by
  simp [receivedWith]

/-- Without calls nothing is relayed. -/
theorem Relays.refl (s : PilotState) : Relays s [] [] s where
  bytes_eq _ := (List.append_nil _).symm
  block_length _ _ h := absurd h List.not_mem_nil
  restarts_eq := by simp

/-- Two stretches of calls relay one after the other. -/
theorem Relays.trans (hfirst : Relays s calls outs t) (hnext : Relays t later outs' u) :
    Relays s (calls ++ later) (outs ++ outs') u where
  bytes_eq uart := by
    rw [blocksTo_append, List.flatten_append, List.append_assoc, hnext.bytes_eq, ← List.append_assoc,
      hfirst.bytes_eq, List.append_assoc, receivedWith_append]
  block_length uart block hblock := by
    rw [blocksTo_append, List.mem_append] at hblock
    exact hblock.elim (hfirst.block_length uart block) (hnext.block_length uart block)
  restarts_eq := by
    have h := hfirst.restarts_eq
    have h' := hnext.restarts_eq
    rw [List.count_append, List.length_append, Nat.add_mul]
    omega

/-- What is pending after a character has been stored behind it. -/
theorem Packet.pending_write {pkt : Packet} (hlen : (pkt.len + 1).toNat = pkt.len.toNat + 1) (c : Byte) :
    Packet.pending ⟨writeRange pkt.data pkt.len.toNat [c], pkt.len + 1⟩ = pkt.pending ++ [c] := by
  unfold Packet.pending
  dsimp only
  rw [hlen, readRange_add, Nat.zero_add,
    readRange_writeRange_of_disjoint _ _ _ _ _ (.inl (Nat.zero_add _).le)]
  exact congrArg _ (readRange_writeRange pkt.data pkt.len.toNat [c])

/-- A character is stored behind what is pending. -/
theorem append_spec {pkt : Packet} (hlen : pkt.len.toNat < triggerLvl) (c : BitVec 32) :
    ∃ longer, pkt.append c = some longer ∧ longer.pending = pkt.pending ++ [c.setWidth 8] ∧
      longer.len.toNat = pkt.len.toNat + 1 := by
  have hsucc : (pkt.len + 1).toNat = pkt.len.toNat + 1 := by
    unfold triggerLvl at hlen
    bv_omega
  have hport : pkt.len.toNat < portSize := hlen.trans (by decide)
  exact ⟨_, if_pos hport, Packet.pending_write hsucc _, hsucc⟩

/-- A packet at the trigger level is written whole, and no other packet is. -/
theorem trigger_spec {pkt : Packet} (hlen : pkt.len.toNat ≤ triggerLvl) (uart : Uart) :
    (pkt.trigger uart).2.len.toNat < triggerLvl ∧
      (blocksTo uart (pkt.trigger uart).1).flatten ++ (pkt.trigger uart).2.pending = pkt.pending ∧
      (∀ other, other ≠ uart → blocksTo other (pkt.trigger uart).1 = []) ∧
      (∀ block ∈ blocksTo uart (pkt.trigger uart).1, block.length = triggerLvl) ∧
      (pkt.trigger uart).1.count .restartVmEmit = 0 := by
  unfold Packet.trigger
  split
  next hfull =>
    have hempty : (0 : BitVec 32).toNat < triggerLvl := by decide
    refine ⟨hempty, ?_, fun other hother => ?_, fun block hblock => ?_, by simp⟩
    · simp [blocksTo, Packet.pending, readRange]
    · simp [blocksTo, Ne.symm hother]
    · simp only [blocksTo, List.filterMap_cons, if_true, List.filterMap_nil,
        List.mem_singleton] at hblock
      rw [hblock, Packet.pending, readRange_length, hfull]
  next hbelow =>
    exact ⟨lt_of_le_of_ne hlen hbelow, rfl, fun _ _ => rfl, fun _ h => absurd h List.not_mem_nil, rfl⟩

/-- The counter advances, or starts over with a restart of the VM. -/
theorem countError_spec {errCnt : BitVec 32} (hle : errCnt.toNat ≤ maxErr) :
    (countError errCnt).2.toNat ≤ maxErr ∧ (∀ uart, blocksTo uart (countError errCnt).1 = []) ∧
      (countError errCnt).1.count .restartVmEmit * (maxErr + 1) + (countError errCnt).2.toNat =
        errCnt.toNat + 1 := by
  unfold maxErr at hle
  have hsucc : (errCnt + 1).toNat = errCnt.toNat + 1 := by bv_omega
  unfold countError maxErr
  rw [hsucc]
  split
  next hover =>
    have hcount : List.count PilotOutput.restartVmEmit [.restartVmEmit] = 1 := rfl
    refine ⟨Nat.zero_le _, fun _ => rfl, ?_⟩
    rw [hcount]
    change 1 * (20 + 1) + 0 = _
    omega
  next hbelow =>
    exact ⟨hsucc ▸ Nat.le_of_not_lt hbelow, fun _ => rfl, by simpa using hsucc⟩

/-- The number of a line selects the packet of that line. -/
theorem packetFor_sourceNum (uart : Uart) : packetFor uart.sourceNum = some uart := by
  cases uart <;> rfl

/-- One call relays its byte. -/
theorem mavlinkRecv_relays (hs : Settled s) (uart : Uart) (c : BitVec 32) :
    ∃ outs t, mavlinkRecv s (uart.sourceNum, c) = some (outs, t) ∧ Settled t ∧
      Relays s [(uart.sourceNum, c)] outs t := by
  obtain ⟨pkt, happend, hpending, hlen⟩ := append_spec (hs.len_lt uart) c
  have hle : pkt.len.toNat ≤ triggerLvl := hlen ▸ hs.len_lt uart
  obtain ⟨hbelow, hbytes, hothers, hblocks, hquiet⟩ := trigger_spec hle uart
  obtain ⟨herr, hnone, hcount⟩ := countError_spec hs.errCnt_le
  have hcall : mavlinkRecv s (uart.sourceNum, c) =
      some ((pkt.trigger uart).1 ++ (countError s.errCnt).1,
        ⟨Function.update s.pkts uart (pkt.trigger uart).2, (countError s.errCnt).2⟩) := by
    simp [mavlinkRecv, packetFor_sourceNum, happend]
  refine ⟨_, _, hcall, ⟨fun other => ?_, herr⟩, ⟨fun other => ?_, fun other => ?_, ?_⟩⟩
  · by_cases hother : other = uart
    · simpa only [hother, Function.update_self] using hbelow
    · simpa only [Function.update_of_ne hother] using hs.len_lt other
  · rw [blocksTo_append, hnone, List.append_nil]
    by_cases hother : other = uart
    · subst hother
      simp only [Function.update_self, hbytes, hpending]
      simp [receivedWith]
    · have hnum : uart.sourceNum ≠ other.sourceNum := fun heq => hother (Option.some.inj (by
        rw [← packetFor_sourceNum, ← packetFor_sourceNum, heq]))
      simp [hothers other hother, Function.update_of_ne hother, receivedWith, hnum]
  · rw [blocksTo_append, hnone, List.append_nil]
    by_cases hother : other = uart
    · exact hother ▸ hblocks
    · rw [hothers other hother]
      exact fun _ h => absurd h List.not_mem_nil
  · rw [List.count_append, hquiet, Nat.zero_add]
    exact hcount

/-- A sequence of calls from the two UARTs runs through and relays its bytes. -/
theorem run_relays (hnums : ∀ call ∈ calls, call.1 = 1 ∨ call.1 = 3) (hs : Settled s) :
    ∃ outs t, run mavlinkRecv s calls = some (outs, t) ∧ Settled t ∧ Relays s calls outs.flatten t := by
  induction calls generalizing s with
  | nil => exact ⟨[], s, rfl, hs, .refl s⟩
  | cons call calls ih =>
    obtain ⟨hnum, hrest⟩ := List.forall_mem_cons.mp hnums
    obtain ⟨uart, huart⟩ : ∃ uart : Uart, call.1 = uart.sourceNum :=
      hnum.elim (fun h => ⟨.px4, h⟩) fun h => ⟨.gcs, h⟩
    obtain ⟨outs, t, hcall, ht, hrelays⟩ := mavlinkRecv_relays hs uart call.2
    rw [← huart] at hcall hrelays
    obtain ⟨outs', u, hrun, hu, hrelays'⟩ := ih hrest ht
    exact ⟨outs :: outs', u, run_cons_eq_some.mpr ⟨outs, t, outs', hcall, hrun, rfl⟩, hu,
      hrelays.trans hrelays'⟩

end Calls

/-- For every interleaving of calls from the two UARTs, the blocks written to a UART and the bytes
pending for it are the bytes that came in for it; blocks are as long as the trigger level and less is
pending; and the VM has been restarted once for every `MAX_ERR + 1` calls. -/
theorem mavlinkRecv_faithful (ports : Uart → ℕ → Byte) (calls : List (BitVec 32 × BitVec 32))
    (hnums : ∀ call ∈ calls, call.1 = 1 ∨ call.1 = 3) :
    ∃ outs reached, run mavlinkRecv (preInit ports) calls = some (outs, reached) ∧
      (blocksTo .px4 outs.flatten).flatten ++ (reached.pkts .px4).pending = receivedWith 1 calls ∧
      (blocksTo .gcs outs.flatten).flatten ++ (reached.pkts .gcs).pending = receivedWith 3 calls ∧
      (∀ uart, ∀ block ∈ blocksTo uart outs.flatten, block.length = triggerLvl) ∧
      (∀ uart, (reached.pkts uart).len.toNat < triggerLvl) ∧
      outs.flatten.count .restartVmEmit = calls.length / (maxErr + 1) := by
  have hempty : (0 : BitVec 32).toNat < triggerLvl := by decide
  have hsettled : Settled (preInit ports) := ⟨fun _ => hempty, Nat.zero_le _⟩
  obtain ⟨outs, reached, hrun, hreached, hrelays⟩ := run_relays hnums hsettled
  refine ⟨outs, reached, hrun, hrelays.bytes_eq .px4, hrelays.bytes_eq .gcs, hrelays.block_length,
    hreached.len_lt, ?_⟩
  have hrestarts := hrelays.restarts_eq
  have hbelow := hreached.errCnt_le
  change _ = 0 + calls.length at hrestarts
  unfold maxErr at hrestarts hbelow ⊢
  omega

/-- Twenty bytes for the flight controller are written and the byte for the ground station is pending;
the last call restarts the VM. -/
theorem fullPacket_relayed :
    ∃ outs reached,
      run mavlinkRecv (preInit fun _ _ => 0) (List.replicate 20 (1, 0x41) ++ [(3, 0x142)]) =
        some (outs, reached) ∧
      (blocksTo .px4 outs.flatten).flatten ++ (reached.pkts .px4).pending = List.replicate 20 0x41 ∧
      (blocksTo .gcs outs.flatten).flatten ++ (reached.pkts .gcs).pending = [0x42] ∧
      outs.flatten.count .restartVmEmit = 1 := by
  have hnums : ∀ call ∈ List.replicate 20 (1, 0x41) ++ [((3, 0x142) : BitVec 32 × BitVec 32)],
      call.1 = 1 ∨ call.1 = 3 := by
    intro call hcall
    simp only [List.mem_append, List.mem_replicate, List.mem_singleton] at hcall
    obtain ⟨_, rfl⟩ | rfl := hcall
    · exact .inl rfl
    · exact .inr rfl
  obtain ⟨outs, reached, hrun, hpx4, hgcs, -, -, hrestarts⟩ :=
    mavlinkRecv_faithful (fun _ _ => 0) _ hnums
  exact ⟨outs, reached, hrun, hpx4, hgcs, hrestarts⟩

end CamkesVm.Pilot
