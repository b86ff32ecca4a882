import PolledUart.Descriptor

/-!
# What a call has to report

Besides its result a call leaves a log of events. Each has a level and one wording.
-/

set_option autoImplicit false

namespace PolledUart

inductive Event where
  | commonInit (ports : Nat)
  | alreadyOpen (port : Nat) (current requested : PortMode)
  | mapperFailed (port : Nat) (cause : SetupError)
  | leftUnmapped (port : Nat)
  | noFreeDescriptor (port : Nat)
  | opened (port : Nat) (name : Option String) (descriptor : Descriptor) (mode : PortMode)
  | writeStopped (descriptor : Descriptor) (done total : Nat) (cause : Error)
  | controlChanged (port : Nat) (bits : UInt8) (on : Bool)
  deriving DecidableEq, Repr

inductive Level where
  | debug
  | warn
  deriving DecidableEq, Repr

def hexByte (b : UInt8) : String :=
  String.ofList [Nat.digitChar (b.toNat / 16), Nat.digitChar (b.toNat % 16)]

namespace Level

def label : Level → String
  | .debug => "DEBUG"
  | .warn => "WARN"

end Level

namespace Event

def level : Event → Level
  | .commonInit .. | .opened .. | .writeStopped .. | .controlChanged .. => .debug
  | .alreadyOpen .. | .mapperFailed .. | .leftUnmapped .. | .noFreeDescriptor .. => .warn

def message : Event → String
  | .commonInit ports => s!"serial: common init, {ports} ports"
  | .alreadyOpen port current requested =>
    s!"serial: port {port} already open as {current}, ignoring {requested}"
  | .mapperFailed port cause =>
    let cause := cause.message
    s!"serial: mapping port {port} failed: {cause}"
  | .leftUnmapped port => s!"serial: mapper left port {port} without registers"
  | .noFreeDescriptor port => s!"serial: no free descriptor for port {port}"
  | .opened port name descriptor mode =>
    let name := name.getD "?"
    s!"serial: port {port} ({name}) open as {descriptor} in {mode} mode"
  | .writeStopped descriptor done total cause =>
    let cause := cause.message
    s!"serial: write on {descriptor} stopped after {done} of {total} bytes: {cause}"
  | .controlChanged port bits on =>
    let bits := hexByte bits
    let action := if on then "set" else "cleared"
    s!"MCR port {port}: 0x{bits} {action}"

def render (e : Event) : String := e.level.label ++ " " ++ e.message

end Event

end PolledUart
