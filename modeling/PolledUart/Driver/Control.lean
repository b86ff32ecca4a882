import PolledUart.Driver.Basic

/-!
# Control lines

Two bits of a port's modem control register are the driver's: internal loopback, for serial
ports, and the discrete line, for discrete ones. Each call touches its own bit and nothing else.
A discrete line can also be held as an output pin and driven through several acts.
-/

set_option autoImplicit false

namespace PolledUart

inductive ControlLine where
  | loopback
  | discrete
  deriving DecidableEq, Repr

namespace ControlLine

def mode : ControlLine → PortMode
  | .loopback => .serial
  | .discrete => .discrete

def bits : ControlLine → UInt8
  | .loopback => ModemControl.loopback
  | .discrete => ModemControl.discreteLine

def change (line : ControlLine) (on : Bool) (value : UInt8) : UInt8 :=
  if on then value ||| line.bits else value &&& ~~~line.bits

end ControlLine

inductive PinAct where
  | descriptor
  | setHigh
  | setLow
  | toggle
  | set (high : Bool)
  | isHigh
  | isLow
  deriving DecidableEq, Repr

inductive PinReply where
  | descriptor (d : Descriptor)
  | done
  | level (on : Bool)
  deriving DecidableEq, Repr

namespace Driver

variable {μ R : Type} [RegisterAccess R] {ports words bytes : Nat}

def setControl (s : Driver μ R ports words bytes) (line : ControlLine) (on : Bool)
    (d : Descriptor) : Outcome (Driver μ R ports words bytes) (Except Error Unit) :=
  match s.resolve d line.mode with
  | .error e => ⟨.error (.setup e), s, []⟩
  | .ok (_, e) =>
    let device := s.devices.get e.port
    match device.binding.registers with
    | none => ⟨.error (.setup .mappingFailed), s, []⟩
    | some block =>
      let (block, memory) :=
        if on then RegisterAccess.setBits block s.memory Register.modemControl line.bits
        else RegisterAccess.clearBits block s.memory Register.modemControl line.bits
      let device := { device with binding := { device.binding with registers := some block } }
      ⟨.ok (), { s with devices := setAt s.devices e.port device, memory },
        [.controlChanged device.port line.bits on]⟩

theorem setControl_cases (s : Driver μ R ports words bytes) (line : ControlLine) (on : Bool)
    (d : Descriptor) : (s.setControl line on d).state = s ∨
      ∃ slot e block memory, s.resolve d line.mode = .ok (slot, e) ∧
        (s.setControl line on d).state = { s with
          devices := setAt s.devices e.port { s.devices.get e.port with
            binding := { (s.devices.get e.port).binding with registers := some block } }
          memory } := by
  unfold setControl
  rcases hr : s.resolve d line.mode with cause | ⟨slot, e⟩
  · exact .inl rfl
  · dsimp only
    split
    · exact .inl rfl
    · exact .inr ⟨slot, e, _, _, rfl, rfl⟩

def withControl (s : Driver μ R ports words bytes) (p : Fin ports) (block : R)
    (f : UInt8 → UInt8) : Driver μ R ports words bytes :=
  let device := s.devices.get p
  let changed := RegisterAccess.modify block s.memory Register.modemControl f
  { s with
    devices := setAt s.devices p
      { device with binding := { device.binding with registers := some changed.1 } }
    memory := changed.2 }

theorem setControl_ok {s : Driver μ R ports words bytes} {line : ControlLine} {d : Descriptor}
    {slot : Fin ports} {e : Entry ports} (hr : s.resolve d line.mode = .ok (slot, e)) {block : R}
    (hb : (s.devices.get e.port).binding.registers = some block) (on : Bool) :
    s.setControl line on d = ⟨.ok (), s.withControl e.port block (line.change on),
      [.controlChanged (s.devices.get e.port).port line.bits on]⟩ := by
  simp only [setControl, hr, hb]
  cases on <;> rfl

def control (s : Driver μ R ports words bytes) (line : ControlLine) (d : Descriptor) :
    Except Error Bool :=
  match s.resolve d line.mode with
  | .error e => .error (.setup e)
  | .ok (_, e) =>
    match (s.devices.get e.port).binding.registers with
    | none => .error (.setup .mappingFailed)
    | some block => .ok (RegisterAccess.bitsSet block s.memory Register.modemControl line.bits)

def setPin (s : Driver μ R ports words bytes) (d : Descriptor) (high : Bool) :
    Outcome (Driver μ R ports words bytes) (Except Error PinReply) :=
  let set := s.setControl .discrete high d
  ⟨set.value.map fun _ => .done, set.state, set.log⟩

/-- One act of the pin. Toggling asks first whether the pin is low. -/
def actPin (s : Driver μ R ports words bytes) (d : Descriptor) :
    PinAct → Outcome (Driver μ R ports words bytes) (Except Error PinReply)
  | .descriptor => ⟨.ok (.descriptor d), s, []⟩
  | .setHigh => s.setPin d true
  | .setLow => s.setPin d false
  | .set high => s.setPin d high
  | .toggle =>
    match s.control .discrete d with
    | .error e => ⟨.error e, s, []⟩
    | .ok high => s.setPin d !high
  | .isHigh => ⟨(s.control .discrete d).map .level, s, []⟩
  | .isLow => ⟨(s.control .discrete d).map fun high => .level !high, s, []⟩

def actPins (s : Driver μ R ports words bytes) (d : Descriptor) :
    List PinAct → Outcome (Driver μ R ports words bytes) (List (Except Error PinReply))
  | [] => ⟨[], s, []⟩
  | act :: rest =>
    let first := s.actPin d act
    let others := first.state.actPins d rest
    ⟨first.value :: others.value, others.state, first.log ++ others.log⟩

def discretePin (s : Driver μ R ports words bytes) (d : Descriptor) (acts : List PinAct) :
    Outcome (Driver μ R ports words bytes) (Except Error (List (Except Error PinReply))) :=
  match s.resolve d .discrete with
  | .error e => ⟨.error (.setup e), s, []⟩
  | .ok _ =>
    let acted := s.actPins d acts
    ⟨.ok acted.value, acted.state, acted.log⟩

end Driver

end PolledUart
