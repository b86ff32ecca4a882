import PolledUart.Error
import PolledUart.Register

/-!
# Binding ports to registers

A mapper is asked once per port opening for the port's register block. It works on the binding
the port already has, and may change it whatever it then answers. The kind of register block it
binds is its own. `ShadowMapper` needs no hardware, `TableMapper` follows a table of base addresses,
and `PlannedMapper` does as told and keeps a record of what it was asked.
-/

set_option autoImplicit false

namespace PolledUart

structure Binding (R : Type) where
  registers : Option R
  name : Option String
  base : Nat
  deriving DecidableEq

namespace Binding

variable {R : Type}

def unmapped : Binding R := ⟨none, none, 0⟩

instance : Inhabited (Binding R) := ⟨unmapped⟩

def isMapped (b : Binding R) : Bool := b.registers.isSome

end Binding

structure Mapping (μ R : Type) where
  result : Except SetupError Unit
  binding : Binding R
  mapper : μ

class Mapper (μ : Type) (R : outParam Type) where
  map : μ → (port : Nat) → Binding R → Mapping μ R

def deviceNames : List String :=
  ["uart0", "uart1", "uart2", "uart3", "uart4", "uart5", "uart6", "uart7"]

def registerStride : Nat := 0x1000

/-- Binds every named port to a shadow register file; what is already bound stays. -/
structure ShadowMapper where
  deriving DecidableEq, Repr, Inhabited

namespace ShadowMapper

def bind (port : Nat) (b : Binding RegisterBlock) :
    Except SetupError (Binding RegisterBlock) :=
  match deviceNames[port]? with
  | none => .error .invalidArgument
  | some name =>
    let b := match b.registers with
      | some _ => b
      | none => { b with registers := some .zeroed, base := port * registerStride }
    .ok { b with name := b.name.or (some name) }

instance : Mapper ShadowMapper RegisterBlock where
  map m port b :=
    match bind port b with
    | .error e => ⟨.error e, b, m⟩
    | .ok b => ⟨.ok (), b, m⟩

end ShadowMapper

/-- Binds each port to the memory-mapped block its table names; entry zero marks no hardware. -/
structure TableMapper where
  bases : List Nat
  deriving DecidableEq, Repr, Inhabited

namespace TableMapper

def base? (m : TableMapper) (port : Nat) : Option Nat := m.bases[port]?.filter (· != 0)

def bind (m : TableMapper) (port : Nat) (b : Binding RegisterBlock) :
    Except SetupError (Binding RegisterBlock) :=
  match m.base? port with
  | none => .error .mappingFailed
  | some base =>
    match RegisterBlock.mapped? base with
    | none => .error .mappingFailed
    | some registers =>
      .ok { registers := some registers, base, name := b.name.or deviceNames[port]? }

instance : Mapper TableMapper RegisterBlock where
  map m port b :=
    match m.bind port b with
    | .error e => ⟨.error e, b, m⟩
    | .ok b => ⟨.ok (), b, m⟩

end TableMapper

structure BindingPlan where
  registers : Option RegisterBlock
  name : Option String
  base : Option Nat
  unmap : Bool
  failure : Option SetupError

namespace BindingPlan

def apply (p : BindingPlan) (b : Binding RegisterBlock) : Binding RegisterBlock where
  registers := if p.unmap then none else p.registers.or b.registers
  name := p.name.or b.name
  base := p.base.getD b.base

end BindingPlan

/-- Follows its plan for each port, or else binds shadow registers, and notes each port asked. -/
structure PlannedMapper where
  plans : List (Nat × BindingPlan)
  calls : List Nat

namespace PlannedMapper

def ofPlans (plans : List (Nat × BindingPlan)) : PlannedMapper := ⟨plans, []⟩

instance : Inhabited PlannedMapper := ⟨ofPlans []⟩

instance : Mapper PlannedMapper RegisterBlock where
  map m port b :=
    let m := { m with calls := m.calls ++ [port] }
    match m.plans.lookup port with
    | none =>
      match ShadowMapper.bind port b with
      | .error e => ⟨.error e, b, m⟩
      | .ok b => ⟨.ok (), b, m⟩
    | some plan =>
      match plan.failure with
      | some e => ⟨.error e, plan.apply b, m⟩
      | none => ⟨.ok (), plan.apply b, m⟩

end PlannedMapper

end PolledUart
