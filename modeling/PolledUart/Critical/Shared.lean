import PolledUart.Call
import PolledUart.Critical.Cell

/-!
# A driver that contexts share

A shared driver is a driver in a cell. Contexts work on it by exclusive visits or attempts; one
look tells whether common init has run.
-/

set_option autoImplicit false

namespace PolledUart

abbrev SharedDriver (μ R : Type) (ports words bytes : Nat) := Cell (Driver μ R ports words bytes)

namespace SharedDriver

variable {μ R : Type} {ports words bytes : Nat}

def new (ports words bytes : Nat) (mapper : μ) (memory : Memory) :
    SharedDriver μ R ports words bytes :=
  Cell.new (Driver.new ports words bytes mapper memory)

def isInitialized : Visit (Driver μ R ports words bytes) Bool := .look Driver.initialized

def call [RegisterAccess R] [Mapper μ R] (call : Call μ) (s : Driver μ R ports words bytes) :
    (Reply μ R words × List Event) × Driver μ R ports words bytes :=
  let o := s.perform call
  ((o.value, o.log), o.state)

end SharedDriver

end PolledUart
