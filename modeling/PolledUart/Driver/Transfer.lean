import PolledUart.Driver.Basic

/-!
# Moving data

Every transfer needs a descriptor that is live in serial mode, and works on the channel of its
port. The counts of what waits are zero for a descriptor that is not live.
-/

set_option autoImplicit false

namespace PolledUart.Driver

variable {μ R : Type} {ports words bytes : Nat}

def onChannel {α : Type} (s : Driver μ R ports words bytes) (d : Descriptor)
    (refusal : SetupError → α) (step : Channel words bytes → α × Channel words bytes) :
    Outcome (Driver μ R ports words bytes) α :=
  match s.resolve d .serial with
  | .error e => ⟨refusal e, s, []⟩
  | .ok (slot, e) =>
    let (result, c) := step (s.channel e)
    ⟨result, s.withChannel slot e c, []⟩

/-- Writes bytes. A write that stops early is logged, one that never starts is not. -/
def write (s : Driver μ R ports words bytes) (d : Descriptor) (data : List UInt8) :
    Outcome (Driver μ R ports words bytes) (Except TransferError Nat) :=
  match s.resolve d .serial with
  | .error e => ⟨.error (Error.setup e).beforeTransfer, s, []⟩
  | .ok (slot, e) =>
    let (result, c) := (s.channel e).onTx (·.write data)
    let log := match result with
      | .ok _ => []
      | .error stop => [.writeStopped d stop.transferred data.length stop.error]
    ⟨result, s.withChannel slot e c, log⟩

def writeWord (s : Driver μ R ports words bytes) (d : Descriptor) (word : Word) :
    Outcome (Driver μ R ports words bytes) (Except Error Unit) :=
  s.onChannel d (fun e => .error (.setup e)) (Channel.onTx (·.writeWord word))

def transmit (s : Driver μ R ports words bytes) (d : Descriptor) (max : Nat) :
    Outcome (Driver μ R ports words bytes) (Except Error Nat) :=
  s.onChannel d (fun e => .error (.setup e)) (Channel.onTx (·.transmit max))

def nextTxWord (s : Driver μ R ports words bytes) (d : Descriptor) :
    Outcome (Driver μ R ports words bytes) (Except Error Word) :=
  s.onChannel d (fun e => .error (.setup e)) (Channel.onTx (·.nextWord))

def receive (s : Driver μ R ports words bytes) (d : Descriptor) (max : Nat) :
    Outcome (Driver μ R ports words bytes) (Except Error Nat) :=
  s.onChannel d (fun e => .error (.setup e)) (Channel.onRx (·.receive max))

def read (s : Driver μ R ports words bytes) (d : Descriptor) (buffer : List UInt8) :
    Outcome (Driver μ R ports words bytes) (Except TransferError Nat × List UInt8) :=
  s.onChannel d (fun e => (.error (Error.setup e).beforeTransfer, buffer))
    (Channel.onRx (·.read buffer))

def readWord (s : Driver μ R ports words bytes) (d : Descriptor) :
    Outcome (Driver μ R ports words bytes) (Except Error Word) :=
  s.onChannel d (fun e => .error (.setup e)) (Channel.onRx (·.readWord))

def poll (s : Driver μ R ports words bytes) (d : Descriptor) (maxTx maxRx : Nat) :
    Outcome (Driver μ R ports words bytes) (Except Error PollReport) :=
  s.onChannel d (fun e => .error (.setup e)) (·.poll maxTx maxRx)

def sendableWords (s : Driver μ R ports words bytes) (d : Descriptor) : Nat :=
  match s.entry d with
  | .error _ => 0
  | .ok (_, e) => (s.devices.get e.port).txQueue.size + if e.txFilling.isFull then 1 else 0

def receivedWords (s : Driver μ R ports words bytes) (d : Descriptor) : Nat :=
  match s.entry d with
  | .error _ => 0
  | .ok (_, e) => (s.devices.get e.port).rxQueue.size

def readableBytes (s : Driver μ R ports words bytes) (d : Descriptor) : Nat :=
  match s.entry d with
  | .error _ => 0
  | .ok (_, e) => (s.channel e).rx.pipe.size

end PolledUart.Driver
