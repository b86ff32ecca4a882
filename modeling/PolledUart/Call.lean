import PolledUart.Driver.Control
import PolledUart.Driver.Opening
import PolledUart.Driver.Transfer

/-!
# Calls and runs

Everything that can happen to a driver, as data: its public calls, and the steps of the hardware
side, which works on FIFOs and on mapped memory. `Driver.perform` makes one call, `Driver.run` a
sequence of them.
-/

set_option autoImplicit false

namespace PolledUart

inductive Call (μ : Type) where
  | commonInit
  | isInitialized
  | portCount
  | describe
  | tryOpen (port : Nat) (mode : PortMode)
  | openPort (port : Nat) (mode : PortMode)
  | descriptorFor (port : Nat)
  | device (d : Descriptor)
  | mode (d : Descriptor)
  | write (d : Descriptor) (data : List UInt8)
  | writeWord (d : Descriptor) (word : Word)
  | transmit (d : Descriptor) (max : Nat)
  | nextTxWord (d : Descriptor)
  | receive (d : Descriptor) (max : Nat)
  | read (d : Descriptor) (buffer : List UInt8)
  | readWord (d : Descriptor)
  | poll (d : Descriptor) (maxTx maxRx : Nat)
  | sendableWords (d : Descriptor)
  | receivedWords (d : Descriptor)
  | readableBytes (d : Descriptor)
  | setControl (line : ControlLine) (on : Bool) (d : Descriptor)
  | control (line : ControlLine) (d : Descriptor)
  | discretePin (d : Descriptor) (acts : List PinAct)
  | swapMapper (mapper : μ)
  /-- The hardware side of a port's FIFOs; nothing happens for a port that does not exist. -/
  | fifos (port : Nat) (command : FifoCommand)
  | store (address : Nat) (value : UInt8)

inductive Answer (μ R : Type) (words : Nat) where
  | done
  | flag (value : Bool)
  | count (value : Nat)
  | text (value : String)
  | word (value : Word)
  | opened (d : Descriptor)
  | found (d : Option Descriptor)
  | device (device : Device R words)
  | mode (mode : PortMode)
  | filled (count : Nat) (buffer : List UInt8)
  | polled (status : PollReport)
  | pins (replies : List (Except Error PinReply))
  | mapper (mapper : μ)
  | fifo (reply : FifoReply)

inductive Failure where
  | setup (cause : SetupError)
  | queue (cause : QueueError)
  | general (cause : Error)
  | transfer (cause : TransferError)
  | pin (cause : Error)
  deriving DecidableEq, Repr

abbrev Reply (μ R : Type) (words : Nat) := Except Failure (Answer μ R words)

def Outcome.reply {σ α ε μ R : Type} {words : Nat} (o : Outcome σ (Except ε α))
    (failure : ε → Failure) (answer : α → Answer μ R words) : Outcome σ (Reply μ R words) :=
  ⟨match o.value with
    | .error e => .error (failure e)
    | .ok a => .ok (answer a), o.state, o.log⟩

def Outcome.query {σ μ R : Type} {words : Nat} (s : σ) (reply : Reply μ R words) :
    Outcome σ (Reply μ R words) :=
  ⟨reply, s, []⟩

namespace Driver

variable {μ R : Type} {ports words bytes : Nat}

def fifos? (s : Driver μ R ports words bytes) (port : Nat) : Option (PortFifos bytes) :=
  s.fifos[port]?

def hardware (s : Driver μ R ports words bytes) (port : Nat) (command : FifoCommand) :
    Outcome (Driver μ R ports words bytes) (Except QueueError (Option FifoReply)) :=
  if h : port < ports then
    let (result, pair) := (s.fifos.get ⟨port, h⟩).execute command
    ⟨result.map some, { s with fifos := setAt s.fifos ⟨port, h⟩ pair }, []⟩
  else ⟨.ok none, s, []⟩

variable [RegisterAccess R] [Mapper μ R]

def perform (s : Driver μ R ports words bytes) :
    Call μ → Outcome (Driver μ R ports words bytes) (Reply μ R words)
  | .commonInit =>
    let o := s.commonInit
    ⟨.ok .done, o.state, o.log⟩
  | .isInitialized => .query s (.ok (.flag s.initialized))
  | .portCount => .query s (.ok (.count s.portCount))
  | .describe => .query s (.ok (.text s.describe))
  | .tryOpen port mode => (s.tryOpen port mode).reply .setup .opened
  | .openPort port mode =>
    let o := s.openPort port mode
    ⟨.ok (.opened o.value), o.state, o.log⟩
  | .descriptorFor port => .query s (.ok (.found (s.descriptorFor? port)))
  | .device d => .query s ((s.device d).mapError .setup |>.map .device)
  | .mode d => .query s ((s.mode d).mapError .setup |>.map .mode)
  | .write d data => (s.write d data).reply .transfer .count
  | .writeWord d word => (s.writeWord d word).reply .general fun _ => .done
  | .transmit d max => (s.transmit d max).reply .general .count
  | .nextTxWord d => (s.nextTxWord d).reply .general .word
  | .receive d max => (s.receive d max).reply .general .count
  | .read d buffer =>
    let o := s.read d buffer
    ⟨match o.value with
      | (.error e, _) => .error (.transfer e)
      | (.ok count, filled) => .ok (.filled count filled), o.state, o.log⟩
  | .readWord d => (s.readWord d).reply .general .word
  | .poll d maxTx maxRx => (s.poll d maxTx maxRx).reply .general .polled
  | .sendableWords d => .query s (.ok (.count (s.sendableWords d)))
  | .receivedWords d => .query s (.ok (.count (s.receivedWords d)))
  | .readableBytes d => .query s (.ok (.count (s.readableBytes d)))
  | .setControl line on d => (s.setControl line on d).reply .general fun _ => .done
  | .control line d => .query s ((s.control line d).mapError .general |>.map .flag)
  | .discretePin d acts => (s.discretePin d acts).reply .pin .pins
  | .swapMapper mapper =>
    let o := s.swapMapper mapper
    ⟨.ok (.mapper o.value), o.state, o.log⟩
  | .fifos port command =>
    (s.hardware port command).reply .queue fun
      | none => .done
      | some reply => .fifo reply
  | .store address value => ⟨.ok .done, { s with memory := s.memory.store address value }, []⟩

def run (s : Driver μ R ports words bytes) :
    List (Call μ) → List (Reply μ R words × List Event) × Driver μ R ports words bytes
  | [] => ([], s)
  | call :: rest =>
    let o := s.perform call
    let (replies, final) := o.state.run rest
    ((o.value, o.log) :: replies, final)

@[simp] theorem run_nil (s : Driver μ R ports words bytes) : s.run [] = ([], s) := rfl

theorem run_cons (s : Driver μ R ports words bytes) (call : Call μ) (rest : List (Call μ)) :
    s.run (call :: rest) = (((s.perform call).value, (s.perform call).log) ::
      ((s.perform call).state.run rest).1, ((s.perform call).state.run rest).2) := rfl

theorem run_append (s : Driver μ R ports words bytes) (calls rest : List (Call μ)) :
    s.run (calls ++ rest) = ((s.run calls).1 ++ ((s.run calls).2.run rest).1,
      ((s.run calls).2.run rest).2) := by
  induction calls generalizing s with
  | nil => rfl
  | cons call calls ih => simp [run_cons, ih]

end Driver

end PolledUart
