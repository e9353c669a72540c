import Mathlib.Logic.Function.Basic
import CamkesVm.Machine.Memory

/-!
# The PWM component

Four threads of the component reach the LED controller over one I2C bus: the control thread in `run`, the
thread of the RPC interface, and the threads of two notifications. Their functions are straight-line code
once the loops over the LEDs are written out, so a thread is the list of the actions it has left.

A transfer starts with a write or a read on the slave and ends when the wait for `bus_sem` that follows
it returns. The bus posts the semaphore for each transfer it completes. It does not say whose transfer
that was.
-/

namespace CamkesVm.Pwm

open CamkesVm.Machine

/-- The constant `MODE1`. -/
def mode1 : Byte := 0x00

/-- The constant `MODE2`. -/
def mode2 : Byte := 0x10

/-- The constant `PRESCALE`. -/
def prescale : Byte := 0xFE

/-- The constant `MODE1_AUTOINC`. -/
def mode1Autoinc : Byte := 0x20

/-- The constant `MODE2_INVERT_OUT`. -/
def mode2InvertOut : Byte := 0x10

/-- The constant `LEDON_FULL`. -/
def ledonFull : BitVec 32 := 0x1000

/-- The constant `NLEDS`. -/
def nleds : ℕ := 16

/-- The macro `LED`: the first register of a LED. -/
def ledRegister (led : BitVec 32) : BitVec 32 := 0x06 + led * 0x4

/-- The threads. -/
inductive PwmThread
  | control
  | rpc
  | signal
  | timer
  deriving DecidableEq

/-- What a thread does: the start of a transfer, a wait for its completion, a use of the mutex `sig`,
the advance of a counter or the registration of a callback. -/
inductive PwmAction
  | i2cSlaveWrite (data : List Byte) (repeatStart : Bool)
  | i2cSlaveRead (size : ℕ) (repeatStart : Bool)
  | busSemWait
  | sigLock
  | sigUnlock
  | countSignal
  | countTimer
  | signalRegCallback
  | timerUpdateRegCallback
  deriving DecidableEq

/-- The function `write_register`. -/
def writeRegister (address value : Byte) : List PwmAction :=
  [.i2cSlaveWrite [address, value] false, .busSemWait]

/-- The function `read_register`: the address is written, then the value is read. -/
def readRegister (address : Byte) : List PwmAction :=
  [.i2cSlaveWrite [address] true, .busSemWait, .i2cSlaveRead 1 false, .busSemWait]

/-- The function `pwm_set_led`. -/
def pwmSetLed (led level : BitVec 32) : List PwmAction :=
  -- `LEDON_FULL` is unsigned, so a negative level is compared as a large one.
  let level := if ledonFull < level then ledonFull else level
  let data := [(ledRegister led).setWidth 8, 0, 0, level.setWidth 8, (level.sshiftRight 8).setWidth 8]
  [.i2cSlaveWrite data false, .busSemWait]

/-- The function `init_pwm_driver`. -/
def initPwmDriver : List PwmAction :=
  readRegister mode1 ++ writeRegister mode2 mode2InvertOut ++ readRegister mode2 ++
    writeRegister prescale 135 ++ writeRegister mode1 mode1Autoinc

/-- The LEDs of one colour: every third one from the given one on, without the last LED. -/
def ledsFrom (first : ℕ) : List ℕ := List.range' first ((nleds - 1 - first + 2) / 3) 3

/-- The loop over the LEDs of one colour, under the mutex. -/
def setLedsLocked (first : ℕ) (level : BitVec 32) (after : List PwmAction) : List PwmAction :=
  .sigLock :: ((ledsFrom first).flatMap (fun led => pwmSetLed led level) ++ .sigUnlock :: after)

/-- The level that the callbacks set: it alternates with their counters. -/
def blinkLevel (counter : ℕ) : BitVec 32 := if counter % 2 = 1 then 0 else 4095

/-- The function `pwm_signal`, called with a value of `counter`. -/
def pwmSignal (counter : ℕ) : List PwmAction :=
  setLedsLocked 2 (blinkLevel counter) [.countSignal, .signalRegCallback]

/-- The function `timer_update_callback`, called with a value of `cnt`. -/
def timerUpdateCallback (cnt : ℕ) : List PwmAction :=
  setLedsLocked 0 (blinkLevel cnt) [.countTimer, .timerUpdateRegCallback]

/-- The function `pwm_vmsig`. -/
def pwmVmsig (val : BitVec 32) : List PwmAction :=
  if val = 0 then [.timerUpdateRegCallback]
  else setLedsLocked 1 (if val.slt 0 then 0 else 4095) []

/-- The function `run`. -/
def runControl : List PwmAction :=
  initPwmDriver ++ (List.range nleds).flatMap (fun led => pwmSetLed led 4095) ++ [.signalRegCallback]

/-- What the threads have left to do, the mutex, the semaphore, the transfers on the bus, the counters
and the registered callbacks. -/
structure PwmState where
  todo : PwmThread → List PwmAction
  sig : Bool
  busSem : ℕ
  onBus : ℕ
  counter : ℕ
  cnt : ℕ
  signalReg : Bool
  timerReg : Bool

/-- The state after `pwm__init`, which leaves the semaphore at zero. -/
def PwmState.start : PwmState where
  todo := fun
    | .control => runControl
    | _ => []
  sig := false
  busSem := 0
  onBus := 0
  counter := 0
  cnt := 0
  signalReg := false
  timerReg := false

/-- A call of the RPC interface, a notification, a step of a thread, or the interrupt at the end of a
transfer. -/
inductive PwmLabel
  | setLed (led level : BitVec 32)
  | vmsig (val : BitVec 32)
  | signal
  | timer
  | step (thread : PwmThread)
  | complete

/-- The advance of a counter of the callbacks. -/
def advance (counter : ℕ) : ℕ := if counter + 1 = 16 then 0 else counter + 1

/-- What an action does; a wait for the semaphore and a locked mutex block it. -/
def PwmState.perform (s : PwmState) : PwmAction → Option PwmState
  | .i2cSlaveWrite _ _ => some { s with onBus := s.onBus + 1 }
  | .i2cSlaveRead _ _ => some { s with onBus := s.onBus + 1 }
  | .busSemWait => if s.busSem = 0 then none else some { s with busSem := s.busSem - 1 }
  | .sigLock => if s.sig then none else some { s with sig := true }
  | .sigUnlock => some { s with sig := false }
  | .countSignal => some { s with counter := advance s.counter }
  | .countTimer => some { s with cnt := advance s.cnt }
  | .signalRegCallback => some { s with signalReg := true }
  | .timerUpdateRegCallback => some { s with timerReg := true }

/-- A thread that has nothing to do is called. -/
def PwmState.call (s : PwmState) (thread : PwmThread) (code : List PwmAction) : Option PwmState :=
  if s.todo thread = [] then some { s with todo := Function.update s.todo thread code } else none

/-- A step of the component; a step of a thread shows the action. A callback is called once for each
registration. -/
def pwmStep (s : PwmState) : PwmLabel → Option (Option (PwmThread × PwmAction) × PwmState)
  | .setLed led level => do return (none, ← s.call .rpc (pwmSetLed led level))
  | .vmsig val => do return (none, ← s.call .rpc (pwmVmsig val))
  | .signal => do
    guard s.signalReg
    return (none, ← { s with signalReg := false }.call .signal (pwmSignal s.counter))
  | .timer => do
    guard s.timerReg
    return (none, ← { s with timerReg := false }.call .timer (timerUpdateCallback s.cnt))
  | .step thread =>
    match s.todo thread with
    | [] => none
    | action :: rest => do
      let t ← s.perform action
      return (some (thread, action), { t with todo := Function.update t.todo thread rest })
  | .complete =>
    if s.onBus = 0 then none
    else some (none, { s with onBus := s.onBus - 1, busSem := s.busSem + 1 })

/-- A transfer of the thread has started and not ended. -/
def PwmState.InFlight (s : PwmState) (thread : PwmThread) : Prop :=
  (s.todo thread).head? = some .busSemWait

end CamkesVm.Pwm
