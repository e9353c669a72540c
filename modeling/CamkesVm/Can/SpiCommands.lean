import CamkesVm.Machine.Window
import CamkesVm.Can.Registers

/-!
# The instructions on the SPI bus

The model of `spi_cmd.c` byte by byte. A command is put into the transmit buffer of the port and shifted
out, and what comes back behind it is taken from the receive buffer. The controller decodes the first
byte: reading and writing name an address, while the instructions for the message buffers have the
buffer in the instruction byte itself.

The commands do to the registers what the register model says. Reading a receive buffer is not in that
model: the command puts the number of the buffer where the instruction has the data flag, so for the
second buffer the controller reads the payload of the first one and clears the flag of the first one.
-/

namespace CamkesVm.Can.Spi

open CamkesVm.Machine

/-- The size of the buffers of a port. -/
abbrev spiTransMaxSize : ℕ := 255

/-- The instruction set of the controller. -/
def cmdRead : Byte := 0x03
def cmdReadRxb : Byte := 0x90
def cmdWrite : Byte := 0x02
def cmdLoadTxb : Byte := 0x40
def cmdRts : Byte := 0x80
def cmdBitModify : Byte := 0x05

section Controller

/-- An instruction, as the controller decodes it. The data flag of a message buffer says that access
starts at its payload. -/
inductive Instruction
  | read (addr : Byte)
  | write (addr : Byte) (data : List Byte)
  | bitModify (addr mask data : Byte)
  | readRxBuffer (buffer : Fin 2) (dataFlag : Bool)
  | loadTxBuffer (buffer : Fin 3) (dataFlag : Bool) (data : List Byte)
  | requestToSend (mask : Byte)
  deriving DecidableEq

/-- Decode a command. -/
def decode : List Byte → Option Instruction
  | [] => none
  | op :: args =>
    if op = 0x03 then args.head?.map .read
    else if op = 0x02 then args.head?.map fun addr => .write addr args.tail
    else if op = 0x05 then
      match args with
      | [addr, mask, data] => some (.bitModify addr mask data)
      | _ => none
    -- READ RX BUFFER is 1001 0nm0.
    else if op &&& 0xF9 = 0x90 then
      some (.readRxBuffer ⟨(op.getLsbD 2).toNat, Bool.toNat_lt _⟩ (op.getLsbD 1))
    -- LOAD TX BUFFER is 0100 0abc.
    else if op &&& 0xF8 = 0x40 then
      if h : ((op &&& 7) >>> 1).toNat < 3 then
        some (.loadTxBuffer ⟨((op &&& 7) >>> 1).toNat, h⟩ (op.getLsbD 0) args)
      else none
    -- REQUEST TO SEND is 1000 0nnn.
    else if op &&& 0xF8 = 0x80 then some (.requestToSend (op &&& 7))
    else none

/-- Where access to a message buffer starts, behind its control register: at SIDH or at D0. -/
def bufferStart (control : Byte) (dataFlag : Bool) : Byte := control + if dataFlag then 6 else 1

/-- Store bytes in consecutive registers. -/
def store (regs : Regs) (addr : Byte) (data : List Byte) : Regs := fun a =>
  data[(a - addr).toNat]?.getD (regs a)

/-- Execute an instruction, with the bytes that the controller shifts out behind it. -/
def Instruction.execute (regs : Regs) (rcount : ℕ) : Instruction → Bytes rcount × Regs
  | .read addr => (fun i => regs (addr + BitVec.ofNat 8 i), regs)
  | .write addr data => (fun _ => 0, store regs addr data)
  | .bitModify addr mask data => (fun _ => 0, mcp2515BitModify regs addr mask data)
  | .readRxBuffer buffer dataFlag =>
    (fun i => regs (bufferStart (rxbctrl buffer) dataFlag + BitVec.ofNat 8 i),
      mcp2515BitModify regs canintf (bit buffer) 0)
  | .loadTxBuffer buffer dataFlag data =>
    (fun _ => 0, store regs (bufferStart (txbctrl buffer) dataFlag) data)
  | .requestToSend mask => (fun _ => 0, mcp2515Rts regs mask)

/-- What the controller does with a command; one that it does not know has no effect. -/
def respond (regs : Regs) (command : List Byte) (rcount : ℕ) : Bytes rcount × Regs :=
  ((decode command).map (Instruction.execute regs rcount)).getD (fun _ => 0, regs)

end Controller

section Commands

/-- The port to the SPI driver, and the registers of the controller behind it. -/
structure Port where
  regs : Regs
  txbuf : Bytes spiTransMaxSize
  rxbuf : Bytes spiTransMaxSize

/-- Shift out `wcount` bytes and go on for `rcount` bytes more. What comes back while the command goes
out is not looked at by anyone and left out. -/
def spiTransfer (port : Port) (wcount rcount : ℕ) : Option Port := do
  let command ← slice port.txbuf 0 wcount
  let answer := respond port.regs (List.ofFn command) rcount
  let rxbuf ← copy port.rxbuf wcount answer.1 0 rcount
  some { port with regs := answer.2, rxbuf := rxbuf }

variable {n : ℕ}

/-- Send the bytes of a command and the first `count` bytes of a buffer behind it. -/
def send (port : Port) (command : List Byte) (buf : Bytes n) (count : ℕ) : Option Port := do
  let txbuf ← fill (puts 0 command ++ [fun txbuf => copy txbuf command.length buf 0 count]) port.txbuf
  spiTransfer { port with txbuf := txbuf } (command.length + count) 0

/-- Send the bytes of a command and copy the `count` bytes that come back behind it into a buffer. -/
def receive (port : Port) (command : List Byte) (buf : Bytes n) (count : ℕ) :
    Option (Bytes n × Port) := do
  let txbuf ← fill (puts 0 command) port.txbuf
  let port ← spiTransfer { port with txbuf := txbuf } command.length count
  let buf ← copy buf 0 port.rxbuf command.length count
  some (buf, port)

/-- Read register. -/
def mcp2515ReadReg (port : Port) (reg : Byte) : Option (Byte × Port) :=
  (receive port [cmdRead, reg] (fun _ : Fin 1 => 0) 1).map fun r => (r.1 0, r.2)

/-- Read registers in series. -/
def mcp2515ReadNregs (port : Port) (reg : Byte) (count : ℕ) (buf : Bytes n) : Option (Bytes n × Port) :=
  receive port [cmdRead, reg] buf count

/-- Write to register. -/
def mcp2515WriteReg (port : Port) (reg val : Byte) : Option Port :=
  send port [cmdWrite, reg, val] ![] 0

/-- Write to registers. -/
def mcp2515WriteNregs (port : Port) (reg : Byte) (buf : Bytes n) (count : ℕ) : Option Port :=
  send port [cmdWrite, reg] buf count

/-- Bit modify instruction. -/
def mcp2515BitModify (port : Port) (reg mask val : Byte) : Option Port :=
  send port [cmdBitModify, reg, mask, val] ![] 0

/-- Request to send instruction. -/
def mcp2515Rts (port : Port) (mask : Byte) : Option Port := send port [cmdRts ||| mask] ![] 0

/-- Load TX buffer instruction, for the whole frame or with the flag for the payload only. -/
def mcp2515LoadTxb (port : Port) (buf : Bytes n) (len : ℕ) (idx flag : Byte) : Option Port :=
  send port [cmdLoadTxb ||| (idx * 2 ||| flag)] buf len

/-- The instruction byte for reading a receive buffer. -/
def readRxbCommand (idx flag : Byte) : Byte := cmdReadRxb ||| (idx * 2 ||| flag)

/-- Read RX buffer instruction, for the whole frame or with the flag for the payload only. -/
def mcp2515ReadRxb (port : Port) (buf : Bytes n) (len : ℕ) (idx flag : Byte) : Option (Bytes n × Port) :=
  receive port [readRxbCommand idx flag] buf len

/-- A transfer inside the buffers: the controller gets the command, and its answer is stored behind it.
-/
theorem spiTransfer_eq (port : Port) {wcount rcount : ℕ} {command : List Byte}
    (hfit : wcount + rcount ≤ spiTransMaxSize)
    (hcommand : window (List.ofFn port.txbuf) 0 wcount = command) :
    ∃ rxbuf, copy port.rxbuf wcount (respond port.regs command rcount).1 0 rcount = some rxbuf ∧
      spiTransfer port wcount rcount =
        some { port with regs := (respond port.regs command rcount).2, rxbuf := rxbuf } := by
  have hslice := isSome_slice port.txbuf (show 0 + wcount ≤ spiTransMaxSize by omega)
  obtain ⟨sent, hsent⟩ := Option.isSome_iff_exists.mp hslice
  have hbytes : List.ofFn sent = command := (ofFn_of_slice hsent).trans hcommand
  have hcopy : (copy port.rxbuf wcount (respond port.regs command rcount).1 0 rcount).isSome = true :=
    isSome_copy hfit (by omega)
  obtain ⟨rxbuf, hrxbuf⟩ := Option.isSome_iff_exists.mp hcopy
  refine ⟨rxbuf, hrxbuf, ?_⟩
  simp only [spiTransfer, hsent, Option.bind_eq_bind, Option.bind_some, hbytes, hrxbuf]

/-- A command that is sent is what the controller gets. -/
theorem send_regs (port : Port) {command : List Byte} {buf : Bytes n} {count : ℕ}
    (hfit : command.length + count ≤ spiTransMaxSize) (hcount : count ≤ n) :
    (send port command buf count).map Port.regs =
      some (respond port.regs (command ++ window (List.ofFn buf) 0 count) 0).2 := by
  obtain ⟨u, hputs⟩ := Option.isSome_iff_exists.mp
    (isSome_fill_puts command port.txbuf (show 0 + command.length ≤ spiTransMaxSize by omega))
  have hcopy : (copy u command.length buf 0 count).isSome = true := isSome_copy hfit (by omega)
  obtain ⟨txbuf, htxbuf⟩ := Option.isSome_iff_exists.mp hcopy
  have hfill : fill (puts 0 command ++ [fun txbuf => copy txbuf command.length buf 0 count]) port.txbuf =
      some txbuf := by
    rw [fill_append, hputs, Option.bind_some, fill, htxbuf]
    rfl
  have hwindow : window (List.ofFn txbuf) 0 (command.length + count) =
      command ++ window (List.ofFn buf) 0 count := by
    have hhead : window (List.ofFn txbuf) 0 command.length = window (List.ofFn u) 0 command.length :=
      window_congr (fun i _ hi => copy_outside htxbuf i (by omega)) (by omega)
    rw [window_add, hhead, (fill_puts hputs (by omega)).1, Nat.zero_add, window_of_copy htxbuf]
  obtain ⟨rxbuf, _, htransfer⟩ := spiTransfer_eq { port with txbuf := txbuf }
    (show command.length + count + 0 ≤ spiTransMaxSize from hfit) hwindow
  simp only [send, hfill, Option.bind_eq_bind, Option.bind_some, htransfer, Option.map_some]

/-- What is received is what the controller answers. -/
theorem receive_eq (port : Port) {command : List Byte} {buf : Bytes n} {count : ℕ}
    (hfit : command.length + count ≤ spiTransMaxSize) :
    (receive port command buf count).map (fun r => (r.1, r.2.regs)) =
      (copy buf 0 (respond port.regs command count).1 0 count).map fun bytes =>
        (bytes, (respond port.regs command count).2) := by
  obtain ⟨txbuf, hputs⟩ := Option.isSome_iff_exists.mp
    (isSome_fill_puts command port.txbuf (show 0 + command.length ≤ spiTransMaxSize by omega))
  obtain ⟨rxbuf, hrxbuf, htransfer⟩ := spiTransfer_eq { port with txbuf := txbuf } hfit
    (fill_puts hputs (by omega)).1
  simp only [receive, hputs, Option.bind_eq_bind, Option.bind_some, htransfer,
    copy_of_copy hrxbuf buf 0]
  cases copy buf 0 (respond port.regs command count).1 0 count with
  | none => rfl
  | some bytes => rfl

/-- Storing the bytes of a buffer is writing registers in series. -/
theorem store_window (regs : Regs) (reg : Byte) {buf : Bytes n} {count : ℕ} (hcount : count ≤ n) :
    store regs reg (window (List.ofFn buf) 0 count) =
      Can.mcp2515WriteNregs regs reg fun i : Fin count => buf (i.castLE hcount) := by
  funext a
  unfold store Can.mcp2515WriteNregs
  rw [window_ofFn buf (show 0 + count ≤ n by omega), List.getElem?_ofFn]
  by_cases ha : (a - reg).toNat < count
  · rw [dif_pos ha, dif_pos ha, Option.getD_some]
    congr 1
    exact Fin.ext (Nat.zero_add _)
  · rw [dif_neg ha, dif_neg ha, Option.getD_none]

end Commands

section Refinement

variable {n : ℕ} (port : Port)

/-- What the controller does with a command that it knows. -/
theorem respond_of_decode (regs : Regs) (rcount : ℕ) {command : List Byte} {instruction : Instruction}
    (h : decode command = some instruction) :
    respond regs command rcount = instruction.execute regs rcount := by
  rw [respond, h]
  rfl

/-- Loading a transmit buffer is writing its registers in series. -/
theorem loadTxb_eq_writeNregs (regs : Regs) (idx : ℕ) {buf : Bytes n} {len : ℕ} (hlen : len ≤ n) :
    Can.mcp2515LoadTxb regs buf len idx =
      Can.mcp2515WriteNregs regs (txbsidh idx) fun i : Fin len => buf (i.castLE hlen) := by
  funext a
  unfold Can.mcp2515LoadTxb Can.mcp2515WriteNregs
  simp only [Nat.min_eq_left hlen]
  rfl

/-- Reading registers in series returns what they hold and changes none of them. -/
theorem mcp2515ReadNregs_regs (reg : Byte) {count : ℕ} (buf : Bytes n)
    (hfit : 2 + count ≤ spiTransMaxSize) :
    (mcp2515ReadNregs port reg count buf).map (fun r => (r.1, r.2.regs)) =
      (copy buf 0 (Can.mcp2515ReadNregs port.regs reg count) 0 count).map fun bytes =>
        (bytes, port.regs) :=
  receive_eq port hfit

/-- Reading a register returns what it holds. -/
theorem mcp2515ReadReg_regs (reg : Byte) :
    (mcp2515ReadReg port reg).map (fun r => (r.1, r.2.regs)) =
      some (Can.mcp2515ReadReg port.regs reg, port.regs) := by
  have hreceive := mcp2515ReadNregs_regs port reg (fun _ : Fin 1 => 0)
    (show 2 + 1 ≤ spiTransMaxSize by decide)
  have hfirst := congrArg (Option.map fun r => (r.1 0, r.2)) hreceive
  rw [Option.map_map, Option.map_map] at hfirst
  rw [mcp2515ReadReg, Option.map_map]
  refine hfirst.trans ?_
  rw [copy_eq_some _ _ (by decide) (by decide), Option.map_some]
  simp [Can.mcp2515ReadNregs, Can.mcp2515ReadReg]

/-- Writing registers in series writes the first bytes of the buffer. -/
theorem mcp2515WriteNregs_regs (reg : Byte) {buf : Bytes n} {count : ℕ} (hcount : count ≤ n)
    (hfit : 2 + count ≤ spiTransMaxSize) : (mcp2515WriteNregs port reg buf count).map Port.regs =
      some (Can.mcp2515WriteNregs port.regs reg fun i : Fin count => buf (i.castLE hcount)) := by
  rw [mcp2515WriteNregs, send_regs port hfit hcount, ← store_window]
  rfl

/-- Writing a register. -/
theorem mcp2515WriteReg_regs (reg val : Byte) :
    (mcp2515WriteReg port reg val).map Port.regs = some (Can.mcp2515WriteReg port.regs reg val) := by
  rw [mcp2515WriteReg, send_regs port (show 3 + 0 ≤ spiTransMaxSize by decide) (Nat.le_refl 0)]
  change some (store port.regs reg [val]) = _
  congr 1
  funext a
  unfold store Can.mcp2515WriteReg
  by_cases ha : a = reg
  · rw [ha, BitVec.sub_self, Function.update_self]
    rfl
  · have hoffset : 1 ≤ (a - reg).toNat := by bv_omega
    rw [Function.update_of_ne ha, List.getElem?_eq_none (by simpa using hoffset)]
    rfl

/-- Modifying bits of a register. -/
theorem mcp2515BitModify_regs (reg mask val : Byte) :
    (mcp2515BitModify port reg mask val).map Port.regs =
      some (Can.mcp2515BitModify port.regs reg mask val) := by
  rw [mcp2515BitModify, send_regs port (show 4 + 0 ≤ spiTransMaxSize by decide) (Nat.le_refl 0)]
  rfl

/-- Requesting transmission of buffers. -/
theorem mcp2515Rts_regs (mask : Fin 8) :
    (mcp2515Rts port (BitVec.ofNat 8 mask)).map Port.regs =
      some (Can.mcp2515Rts port.regs (BitVec.ofNat 8 mask)) := by
  have hdecode : ∀ mask : Fin 8, decode [cmdRts ||| BitVec.ofNat 8 mask] =
      some (.requestToSend (BitVec.ofNat 8 mask)) := by decide
  rw [mcp2515Rts, send_regs port (show 1 + 0 ≤ spiTransMaxSize by decide) (Nat.le_refl 0)]
  exact congrArg (fun answer => some answer.2) (respond_of_decode port.regs 0 (hdecode mask))

/-- Loading a transmit buffer. -/
theorem mcp2515LoadTxb_regs {buf : Bytes n} {len : ℕ} (hlen : len ≤ n) (hfit : 1 + len ≤ spiTransMaxSize)
    (idx : Fin 3) : (mcp2515LoadTxb port buf len (BitVec.ofNat 8 idx) 0).map Port.regs =
      some (Can.mcp2515LoadTxb port.regs buf len idx) := by
  have hdecode : decode ([cmdLoadTxb ||| (BitVec.ofNat 8 idx * 2 ||| 0)] ++
      window (List.ofFn buf) 0 len) =
      some (.loadTxBuffer idx false (window (List.ofFn buf) 0 len)) :=
    match idx with
    | 0 => rfl
    | 1 => rfl
    | 2 => rfl
  rw [mcp2515LoadTxb, send_regs port hfit hlen, respond_of_decode port.regs 0 hdecode,
    loadTxb_eq_writeNregs port.regs idx hlen, ← store_window]
  rfl

/-- The instruction byte for reading a receive buffer from SIDH on has the number of the buffer in the
data flag, so it names the first buffer, and for the second one its payload. -/
theorem decode_readRxbCommand (idx : Fin 2) :
    decode [readRxbCommand (BitVec.ofNat 8 idx) 0] = some (.readRxBuffer 0 (idx = 1)) := by
  revert idx
  decide

/-- Reading a receive buffer from SIDH on. -/
theorem mcp2515ReadRxb_regs (buf : Bytes n) {len : ℕ} (hfit : 1 + len ≤ spiTransMaxSize) (idx : Fin 2) :
    (mcp2515ReadRxb port buf len (BitVec.ofNat 8 idx) 0).map (fun r => (r.1, r.2.regs)) =
      (copy buf 0 (Can.mcp2515ReadNregs port.regs (bufferStart (rxbctrl 0) (idx = 1)) len) 0 len).map
        fun bytes => (bytes, Can.mcp2515BitModify port.regs canintf (bit 0) 0) := by
  rw [mcp2515ReadRxb, receive_eq port hfit, respond_of_decode port.regs len (decode_readRxbCommand idx)]
  rfl

/-- The bytes that a read returns, without the registers behind it. -/
theorem map_fst_of_map {got : Option (Bytes n × Port)} {bytes : Option (Bytes n)} {regs : Regs}
    (h : got.map (fun r => (r.1, r.2.regs)) = bytes.map fun b => (b, regs)) :
    got.map Prod.fst = bytes := by
  have hfirst := congrArg (Option.map Prod.fst) h
  rw [Option.map_map, Option.map_map] at hfirst
  exact hfirst.trans Option.map_id'

/-- The two ways to read a receive buffer return the same bytes when the registers that they read hold
the same. -/
theorem readRxb_agrees_iff (buf : Bytes n) {len : ℕ} (hbuf : len ≤ n) (hfit : 2 + len ≤ spiTransMaxSize)
    (idx : Fin 2) :
    (∃ bytes, (mcp2515ReadRxb port buf len (BitVec.ofNat 8 idx) 0).map Prod.fst = some bytes ∧
      (mcp2515ReadNregs port (rxbsidh idx) len buf).map Prod.fst = some bytes) ↔
    Can.mcp2515ReadNregs port.regs (bufferStart (rxbctrl 0) (idx = 1)) len =
      Can.mcp2515ReadNregs port.regs (rxbsidh idx) len := by
  have hcopied : 0 + len ≤ n := by omega
  have hsome : (copy buf 0 (Can.mcp2515ReadNregs port.regs (rxbsidh idx) len) 0 len).isSome = true :=
    isSome_copy hcopied (by omega)
  obtain ⟨bytes, hbytes⟩ := Option.isSome_iff_exists.mp hsome
  rw [map_fst_of_map (mcp2515ReadRxb_regs port buf (by omega) idx),
    map_fst_of_map (mcp2515ReadNregs_regs port (rxbsidh idx) buf hfit), ← copy_inj hcopied]
  refine ⟨fun ⟨_, hfirst, hsecond⟩ => hfirst.trans hsecond.symm,
    fun h => ⟨bytes, h.trans hbytes, hbytes⟩⟩

end Refinement

section Reader

/-- The instruction bytes with which a driver reads the receive buffers. Each of them is a READ RX BUFFER
instruction, for whichever buffer. -/
structure RxbReader where
  command : Fin 2 → Byte
  reads : ∀ n, command n &&& 0xF9 = 0x90

/-- The instruction bytes of the source. -/
def codeReader : RxbReader where
  command n := readRxbCommand (BitVec.ofNat 8 n) 0
  reads := by decide

/-- Instruction bytes that have the number of the buffer where the controller looks for it. -/
def numberedReader : RxbReader where
  command n := cmdReadRxb ||| BitVec.ofNat 8 n * 4
  reads := by decide

namespace RxbReader

variable (reader : RxbReader) (regs : Regs) (n : Fin 2) (len : ℕ)

/-- What the controller returns for a receive buffer, and the registers behind the instruction. -/
def read : Bytes len × Regs := respond regs [reader.command n] len

/-- The buffer that is read in place of buffer `n`. -/
def buffer : Fin 2 := ⟨((reader.command n).getLsbD 2).toNat, Bool.toNat_lt _⟩

/-- The registers that are returned, and the flag that falls, are those of the buffer in the
instruction. -/
theorem read_eq : reader.read regs n len =
    (Can.mcp2515ReadNregs regs
        (bufferStart (rxbctrl (reader.buffer n)) ((reader.command n).getLsbD 1)) len,
      Can.mcp2515BitModify regs canintf (bit (reader.buffer n)) 0) := by
  have hdecode : ∀ op : Byte, op &&& 0xF9 = 0x90 → decode [op] =
      some (.readRxBuffer ⟨(op.getLsbD 2).toNat, Bool.toNat_lt _⟩ (op.getLsbD 1)) := by decide
  exact respond_of_decode regs len (hdecode _ (reader.reads n))

/-- Reading clears a receive flag and leaves all other registers. -/
theorem regs_read : (reader.read regs n len).2 =
    Can.mcp2515BitModify regs canintf (bit (reader.buffer n)) 0 :=
  congrArg Prod.snd (reader.read_eq regs n len)

end RxbReader

/-- With the number in its place, the buffer of that number is read from SIDH on. -/
theorem numberedReader_read (regs : Regs) (n : Fin 2) (len : ℕ) : numberedReader.read regs n len =
    (Can.mcp2515ReadNregs regs (rxbsidh n) len, Can.mcp2515BitModify regs canintf (bit n) 0) := by
  have hbytes : ∀ n : Fin 2, numberedReader.buffer n = n ∧
      (numberedReader.command n).getLsbD 1 = false := by decide
  rw [RxbReader.read_eq, (hbytes n).1, (hbytes n).2]
  rfl

/-- The command of `spi_cmd.c` returns what its instruction byte makes the controller return. -/
theorem mcp2515ReadRxb_codeReader {len : ℕ} (port : Port) (buf : Bytes len)
    (hfit : 1 + len ≤ spiTransMaxSize) (n : Fin 2) :
    (mcp2515ReadRxb port buf len (BitVec.ofNat 8 n) 0).map (fun r => (r.1, r.2.regs)) =
      some (codeReader.read port.regs n len) := by
  rw [mcp2515ReadRxb, receive_eq port hfit, copy_eq_some _ _ (by omega) (by omega), Option.map_some]
  refine congrArg some (Prod.ext (funext fun i => ?_) rfl)
  simp [RxbReader.read, codeReader]

end Reader

/-- Loading a transmit buffer leaves the same registers as writing them in series. Reading a receive
buffer returns the same bytes as reading its registers in series for the first buffer, and for the
second one exactly when the payload of the first buffer happens to hold them. -/
theorem bufferShortcuts_agree_iff {n : ℕ} (port : Port) (buf : Bytes n) {len : ℕ} (hlen : len ≤ 13)
    (hbuf : len ≤ n) (tx : Fin 3) (rx : Fin 2) :
    ((∃ regs, (mcp2515LoadTxb port buf len (BitVec.ofNat 8 tx) 0).map Port.regs = some regs ∧
        (mcp2515WriteNregs port (txbsidh tx) buf len).map Port.regs = some regs) ∧
      ∃ bytes, (mcp2515ReadRxb port buf len (BitVec.ofNat 8 rx) 0).map Prod.fst = some bytes ∧
        (mcp2515ReadNregs port (rxbsidh rx) len buf).map Prod.fst = some bytes) ↔
      rx = 0 ∨ ∀ k < len, port.regs (0x66 + BitVec.ofNat 8 k) = port.regs (0x71 + BitVec.ofNat 8 k) := by
  have hfit : 2 + len ≤ spiTransMaxSize := by
    change 2 + len ≤ 255
    omega
  have hload : ∃ regs, (mcp2515LoadTxb port buf len (BitVec.ofNat 8 tx) 0).map Port.regs = some regs ∧
      (mcp2515WriteNregs port (txbsidh tx) buf len).map Port.regs = some regs := by
    refine ⟨_, mcp2515LoadTxb_regs port hbuf (by omega) tx, ?_⟩
    rw [mcp2515WriteNregs_regs port _ hbuf hfit, loadTxb_eq_writeNregs port.regs tx hbuf]
  rw [and_iff_right hload, readRxb_agrees_iff port buf hbuf hfit]
  obtain rfl | rfl : rx = 0 ∨ rx = 1 := by omega
  · have hstart : bufferStart (rxbctrl 0) (decide ((0 : Fin 2) = 1)) = rxbsidh 0 := by decide
    refine iff_of_true ?_ (Or.inl rfl)
    rw [hstart]
    rfl
  · have hpayload : bufferStart (rxbctrl 0) (decide ((1 : Fin 2) = 1)) = 0x66 := by decide
    have hstart : rxbsidh (1 : Fin 2) = 0x71 := by decide
    rw [or_iff_right (by decide), hpayload, hstart, funext_iff, Fin.forall_iff]
    rfl

/-- A port to a controller whose registers are zero but the first one of the second receive buffer. -/
def markedPort : Port :=
  ⟨Function.update (fun _ => 0) (rxbsidh 1) 1, fun _ => 0, fun _ => 0⟩

/-- The last transmit buffer and the first receive buffer are accessed alike in both ways. -/
theorem markedPort_first_agrees :
    (∃ regs, (mcp2515LoadTxb markedPort (fun _ : Fin 13 => 7) 13 2 0).map Port.regs = some regs ∧
        (mcp2515WriteNregs markedPort (txbsidh 2) (fun _ : Fin 13 => 7) 13).map Port.regs = some regs) ∧
      ∃ bytes, (mcp2515ReadRxb markedPort (fun _ : Fin 13 => 7) 13 0 0).map Prod.fst = some bytes ∧
        (mcp2515ReadNregs markedPort (rxbsidh 0) 13 fun _ : Fin 13 => 7).map Prod.fst = some bytes :=
  (bufferShortcuts_agree_iff markedPort (fun _ => 7) (Nat.le_refl 13) (Nat.le_refl 13) 2 0).mpr
    (Or.inl rfl)

/-- Of the second receive buffer the instruction returns a byte that is not there. -/
theorem markedPort_second_differs :
    (mcp2515ReadRxb markedPort (fun _ : Fin 1 => 7) 1 1 0).map (fun r => r.1 0) = some 0 ∧
    (mcp2515ReadNregs markedPort (rxbsidh 1) 1 fun _ : Fin 1 => 7).map (fun r => r.1 0) = some 1 := by
  decide

end CamkesVm.Can.Spi
