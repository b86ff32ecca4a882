import PolledUart.Driver.Basic

/-!
# Opening ports

Nothing can be opened before common init, which closes every port but keeps its binding. A port
is opened once: the mapper binds its registers, it takes the first free slot, and its device is
configured. Opening it again hands out the descriptor it has.
-/

set_option autoImplicit false

namespace PolledUart.Driver

variable {μ R : Type} {ports words bytes : Nat}

def commonInit (s : Driver μ R ports words bytes) :
    Outcome (Driver μ R ports words bytes) Unit where
  value := ()
  state := { s with
    devices := Vector.ofFn fun port => (s.devices.get port).reset port
    entries := Vector.replicate ports none
    fifos := s.fifos.map PortFifos.reset
    initialized := true }
  log := [.commonInit ports]

/-- Puts a new entry for a bound port into a free slot and configures its device. -/
def claim (s : Driver μ R ports words bytes) (slot port : Fin ports) (mode : PortMode) :
    Driver μ R ports words bytes :=
  { s with
    entries := setAt s.entries slot (some (.new port mode))
    devices := setAt s.devices port ((s.devices.get port).configure mode) }

def swapMapper (s : Driver μ R ports words bytes) (mapper : μ) :
    Outcome (Driver μ R ports words bytes) μ :=
  ⟨s.mapper, { s with mapper }, []⟩

variable [Mapper μ R]

/-- Opens a port that is not open. Whatever the mapper did to itself and to the binding stays,
also when the port stays closed. -/
def openClosed (s : Driver μ R ports words bytes) (port : Fin ports) (mode : PortMode) :
    Outcome (Driver μ R ports words bytes) (Except SetupError Descriptor) :=
  let device := s.devices.get port
  let mapping := Mapper.map s.mapper port device.binding
  let s := { s with
    mapper := mapping.mapper
    devices := setAt s.devices port { device with binding := mapping.binding } }
  match mapping.result with
  | .error cause =>
    let reported := if cause = .invalidArgument then .invalidArgument else .mappingFailed
    ⟨.error reported, s, [.mapperFailed port cause]⟩
  | .ok () =>
    if !mapping.binding.isMapped then ⟨.error .mappingFailed, s, [.leftUnmapped port]⟩
    else
      match s.freeSlot? with
      | none => ⟨.error .noFreeDescriptor, s, [.noFreeDescriptor port]⟩
      | some slot =>
        let d := Descriptor.ofIndex slot
        ⟨.ok d, s.claim slot port mode, [.opened port mapping.binding.name d mode]⟩

def afterMapping (s : Driver μ R ports words bytes) (port : Fin ports) :
    Driver μ R ports words bytes :=
  let mapping := Mapper.map s.mapper port (s.devices.get port).binding
  { s with
    mapper := mapping.mapper
    devices := setAt s.devices port { s.devices.get port with binding := mapping.binding } }

/-- A closed port stays closed, for want of a slot only if none is free, or takes the first free
slot. -/
theorem openClosed_cases (s : Driver μ R ports words bytes) (port : Fin ports) (mode : PortMode) :
    (∃ cause, (s.openClosed port mode).value = .error cause ∧
        (s.openClosed port mode).state = s.afterMapping port ∧
        (cause = .noFreeDescriptor → s.freeSlot? = none)) ∨
      ∃ slot, s.freeSlot? = some slot ∧
        ((s.afterMapping port).devices.get port).binding.isMapped = true ∧
        (s.openClosed port mode).value = .ok (Descriptor.ofIndex slot) ∧
        (s.openClosed port mode).state = (s.afterMapping port).claim slot port mode := by
  have hbinding : ((s.afterMapping port).devices.get port).binding =
      (Mapper.map s.mapper port (s.devices.get port).binding).binding := by
    simp only [afterMapping, get_setAt_self]
  rw [hbinding]
  simp only [openClosed]
  split
  · refine .inl ⟨_, rfl, rfl, ?_⟩
    split <;> simp
  · split
    · exact .inl ⟨_, rfl, rfl, nofun⟩
    · rename_i hm
      split
      · rename_i hnone
        exact .inl ⟨_, rfl, rfl, fun _ => hnone⟩
      · rename_i slot hslot
        exact .inr ⟨slot, hslot, by simpa using hm, rfl, rfl⟩

/-- Opens a port. An open port keeps its descriptor and its mode. -/
def tryOpen (s : Driver μ R ports words bytes) (port : Nat) (mode : PortMode) :
    Outcome (Driver μ R ports words bytes) (Except SetupError Descriptor) :=
  if !s.initialized then ⟨.error .notInitialized, s, []⟩
  else if h : port < ports then
    match s.descriptorFor? port with
    | some d =>
      let current := (s.devices.get ⟨port, h⟩).mode
      ⟨.ok d, s, if current = mode then [] else [.alreadyOpen port current mode]⟩
    | none => s.openClosed ⟨port, h⟩ mode
  else ⟨.error .invalidArgument, s, []⟩

theorem tryOpen_of_open {s : Driver μ R ports words bytes} (hi : s.initialized = true)
    (p : Fin ports) {d : Descriptor} (hd : s.descriptorFor? p = some d) (mode : PortMode) :
    s.tryOpen p mode = ⟨.ok d, s, if (s.devices.get p).mode = mode then []
      else [.alreadyOpen p (s.devices.get p).mode mode]⟩ := by
  simp only [tryOpen, hi, p.isLt, hd, Bool.not_true, Bool.false_eq_true, if_false, dite_true]

theorem tryOpen_of_closed {s : Driver μ R ports words bytes} (hi : s.initialized = true)
    {p : Fin ports} (hp : s.descriptorFor? p = none) (mode : PortMode) :
    s.tryOpen p mode = s.openClosed p mode := by
  simp only [tryOpen, hi, p.isLt, hp, Bool.not_true, Bool.false_eq_true, if_false, dite_true]

theorem tryOpen_cases (s : Driver μ R ports words bytes) (port : Nat) (mode : PortMode) :
    (∃ cause, s.tryOpen port mode = ⟨.error cause, s, []⟩ ∧ cause ≠ .noFreeDescriptor) ∨
      (∃ d log, s.descriptorFor? port = some d ∧ s.tryOpen port mode = ⟨.ok d, s, log⟩) ∨
      ∃ p : Fin ports, port = p ∧ s.initialized = true ∧ s.descriptorFor? p = none ∧
        s.tryOpen port mode = s.openClosed p mode := by
  unfold tryOpen
  split
  · exact .inl ⟨_, rfl, by simp⟩
  · rename_i hinit
    split
    · rename_i hlt
      split
      · rename_i d hd
        exact .inr (.inl ⟨d, _, hd, rfl⟩)
      · rename_i hnone
        exact .inr (.inr ⟨⟨port, hlt⟩, rfl, by simpa using hinit, hnone, rfl⟩)
    · exact .inl ⟨_, rfl, by simp⟩

/-- Opens a port; the invalid descriptor stands for every failure. -/
def openPort (s : Driver μ R ports words bytes) (port : Nat) (mode : PortMode) :
    Outcome (Driver μ R ports words bytes) Descriptor :=
  let opened := s.tryOpen port mode
  ⟨opened.value.toOption.getD .invalid, opened.state, opened.log⟩

end PolledUart.Driver
