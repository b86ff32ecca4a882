import PolledUart.Descriptor
import PolledUart.Mapper
import PolledUart.WordQueue

/-!
# Devices

A device is one physical port: its hardware binding, its mode once configured, and a queue of
words in each direction. Only a device in serial mode has its queues started.
-/

set_option autoImplicit false

namespace PolledUart

structure Device (R : Type) (words : Nat) where
  port : Nat
  binding : Binding R
  configured : Bool
  mode : PortMode
  txQueue : WordQueue words
  rxQueue : WordQueue words

namespace Device

variable {R : Type} {words : Nat}

def new (words : Nat) : Device R words :=
  ⟨0, .unmapped, false, .discrete, WordQueue.new words, WordQueue.new words⟩

/-- Unconfigured, with both queues stopped; the binding outlives it. -/
def reset (d : Device R words) (port : Nat) : Device R words where
  port
  binding := d.binding
  configured := false
  mode := .discrete
  txQueue := d.txQueue.stop
  rxQueue := d.rxQueue.stop

def configure (d : Device R words) (mode : PortMode) : Device R words :=
  let d := if mode.hasQueues then
    { d with txQueue := d.txQueue.start, rxQueue := d.rxQueue.start }
  else d
  { d with mode, configured := true }

end Device

end PolledUart
