import PolledUart.Receiver
import PolledUart.Transmitter

/-!
# Both sides of a port

A channel is the sending and the receiving side of one open port. Polling sends first, and
receives only if nothing is left to send afterwards.
-/

set_option autoImplicit false

namespace PolledUart

structure PollReport where
  transmitted : Nat
  received : Nat
  rxServiced : Bool
  deriving DecidableEq, Repr

namespace PollReport

instance : Inhabited PollReport := ⟨⟨0, 0, false⟩⟩

def madeProgress (p : PollReport) : Bool := p.transmitted > 0 || p.received > 0

def describe (p : PollReport) : String :=
  let transmitted := p.transmitted
  let received := p.received
  let serviced := p.rxServiced
  s!"PollStatus \x7b transmitted: {transmitted}, received: {received}, rx_serviced: {serviced} \x7d"

end PollReport

structure Channel (words bytes : Nat) where
  tx : Transmitter words bytes
  rx : Receiver words bytes

namespace Channel

variable {words bytes : Nat}

def onTx {α : Type} (step : Transmitter words bytes → α × Transmitter words bytes)
    (c : Channel words bytes) : α × Channel words bytes :=
  let (result, tx) := step c.tx
  (result, { c with tx })

def onRx {α : Type} (step : Receiver words bytes → α × Receiver words bytes)
    (c : Channel words bytes) : α × Channel words bytes :=
  let (result, rx) := step c.rx
  (result, { c with rx })

/-- Sends at most `maxTx` bytes, then receives at most `maxRx` if nothing is left to send. -/
def poll (c : Channel words bytes) (maxTx maxRx : Nat) :
    Except Error PollReport × Channel words bytes :=
  match c.tx.transmit maxTx with
  | (.error e, tx) => (.error e, { c with tx })
  | (.ok transmitted, tx) =>
    if !tx.pipe.isEmpty then (.ok ⟨transmitted, 0, false⟩, { c with tx })
    else
      match c.rx.receive maxRx with
      | (.error e, rx) => (.error e, ⟨tx, rx⟩)
      | (.ok received, rx) => (.ok ⟨transmitted, received, true⟩, ⟨tx, rx⟩)

end Channel

end PolledUart
