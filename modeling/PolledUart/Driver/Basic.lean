import PolledUart.Channel
import PolledUart.Device
import PolledUart.Event

/-!
# The driver's state

A driver owns a device and a pair of FIFOs for each port, a descriptor table with as many slots
as there are ports, and the mapper that binds registers. Calls name a port by a descriptor; the
descriptor resolves to its slot and entry, and the entry names the port. The channel of an open
port is gathered from the three tables and put back into them.
-/

set_option autoImplicit false

namespace PolledUart

def setAt {α : Type} {n : Nat} (v : Vector α n) (i : Fin n) (a : α) : Vector α n := v.set i a

section setAt

variable {α : Type} {n : Nat} (v : Vector α n)

theorem get_setAt (i j : Fin n) (a : α) : (setAt v i a).get j = if i = j then a else v.get j := by
  have h : (v.set i a)[j.val] = if i.val = j.val then a else v[j.val] :=
    Vector.getElem_set i.isLt j.isLt
  simp only [← Fin.ext_iff] at h
  exact h

@[simp] theorem get_setAt_self (i : Fin n) (a : α) : (setAt v i a).get i = a := by
  rw [get_setAt, if_pos rfl]

theorem get_setAt_congr {β : Type} (f : α → β) (i j : Fin n) {a : α} (h : f a = f (v.get i)) :
    f ((setAt v i a).get j) = f (v.get j) := by
  rw [get_setAt]
  split
  · rename_i hij
    rw [h, hij]
  · rfl

theorem setAt_get (i : Fin n) : setAt v i (v.get i) = v := Vector.set_getElem_self i.isLt

@[simp] theorem setAt_setAt (i : Fin n) (a b : α) : setAt (setAt v i a) i b = setAt v i b :=
  Vector.set_set a i.isLt

@[simp] theorem get_replicate (a : α) (i : Fin n) : (Vector.replicate n a).get i = a :=
  Vector.getElem_replicate i.isLt

@[simp] theorem get_ofFn (f : Fin n → α) (i : Fin n) : (Vector.ofFn f).get i = f i :=
  Vector.getElem_ofFn i.isLt

end setAt

structure Sizing where
  ports : Nat
  words : Nat
  bytes : Nat
  deriving DecidableEq, Repr

namespace Sizing

def standard : Sizing := ⟨8, 300, 255⟩

def small : Sizing := ⟨2, 16, 16⟩

end Sizing

structure Driver (μ R : Type) (ports words bytes : Nat) where
  mapper : μ
  devices : Vector (Device R words) ports
  entries : Vector (Option (Entry ports)) ports
  fifos : Vector (PortFifos bytes) ports
  initialized : Bool
  /-- What memory-mapped register blocks read and write. -/
  memory : Memory

/-- What a call returns, the state it leaves, and the events it logs. -/
structure Outcome (σ α : Type) where
  value : α
  state : σ
  log : List Event := []

def Entry.withWords {ports words bytes : Nat} (e : Entry ports) (c : Channel words bytes) :
    Entry ports :=
  { e with
    txFilling := c.tx.pipe.filling, txDraining := c.tx.pipe.draining
    rxFilling := c.rx.pipe.filling, rxDraining := c.rx.pipe.draining }

namespace Driver

variable {μ R : Type} {ports words bytes : Nat}

def new (ports words bytes : Nat) (mapper : μ) (memory : Memory) :
    Driver μ R ports words bytes where
  mapper
  devices := Vector.replicate ports (Device.new words)
  entries := Vector.replicate ports none
  fifos := Vector.replicate ports (PortFifos.new bytes)
  initialized := false
  memory

def portCount (_ : Driver μ R ports words bytes) : Nat := ports

def entry (s : Driver μ R ports words bytes) (d : Descriptor) :
    Except SetupError (Fin ports × Entry ports) :=
  if !s.initialized then .error .notInitialized
  else
    match d.index? with
    | none => .error .notInitialized
    | some i =>
      if h : i < ports then
        match s.entries.get ⟨i, h⟩ with
        | some e => .ok (⟨i, h⟩, e)
        | none => .error .notInitialized
      else .error .notInitialized

def resolve (s : Driver μ R ports words bytes) (d : Descriptor) (mode : PortMode) :
    Except SetupError (Fin ports × Entry ports) :=
  match s.entry d with
  | .error e => .error e
  | .ok (slot, e) => if e.mode = mode then .ok (slot, e) else .error .notConfigured

def device (s : Driver μ R ports words bytes) (d : Descriptor) :
    Except SetupError (Device R words) :=
  match s.entry d with
  | .error e => .error e
  | .ok (_, e) => .ok (s.devices.get e.port)

def mode (s : Driver μ R ports words bytes) (d : Descriptor) : Except SetupError PortMode :=
  match s.entry d with
  | .error e => .error e
  | .ok (_, e) => .ok e.mode

def holdsPort (s : Driver μ R ports words bytes) (port : Nat) (slot : Fin ports) : Bool :=
  match s.entries.get slot with
  | some e => e.port.val == port
  | none => false

def slotOf? (s : Driver μ R ports words bytes) (port : Nat) : Option (Fin ports) :=
  (List.finRange ports).find? (s.holdsPort port)

def freeSlot? (s : Driver μ R ports words bytes) : Option (Fin ports) :=
  (List.finRange ports).find? fun slot => (s.entries.get slot).isNone

def descriptorFor? (s : Driver μ R ports words bytes) (port : Nat) : Option Descriptor :=
  (s.slotOf? port).map fun slot => Descriptor.ofIndex slot.val

def liveDescriptors (s : Driver μ R ports words bytes) : List Descriptor :=
  ((List.finRange ports).filter fun slot => (s.entries.get slot).isSome).map fun slot =>
    Descriptor.ofIndex slot.val

def channel (s : Driver μ R ports words bytes) (e : Entry ports) : Channel words bytes where
  tx := ⟨⟨e.txFilling, (s.devices.get e.port).txQueue, e.txDraining⟩, (s.fifos.get e.port).tx⟩
  rx := ⟨(s.fifos.get e.port).rx, ⟨e.rxFilling, (s.devices.get e.port).rxQueue, e.rxDraining⟩⟩

def withChannel (s : Driver μ R ports words bytes) (slot : Fin ports) (e : Entry ports)
    (c : Channel words bytes) : Driver μ R ports words bytes :=
  { s with
    entries := setAt s.entries slot (some (e.withWords c))
    devices := setAt s.devices e.port { s.devices.get e.port with
      txQueue := c.tx.pipe.queue, rxQueue := c.rx.pipe.queue }
    fifos := setAt s.fifos e.port ⟨c.tx.fifo, c.rx.fifo⟩ }

@[simp] theorem channel_withChannel (s : Driver μ R ports words bytes) (slot : Fin ports)
    (e : Entry ports) (c : Channel words bytes) :
    (s.withChannel slot e c).channel (e.withWords c) = c := by
  simp [channel, withChannel, Entry.withWords]

theorem withChannel_channel {s : Driver μ R ports words bytes} {slot : Fin ports}
    {e : Entry ports} (h : s.entries.get slot = some e) :
    s.withChannel slot e (s.channel e) = s := by
  have he : setAt s.entries slot (some e) = s.entries := by
    rw [← h]
    exact setAt_get s.entries slot
  have hd : setAt s.devices e.port (s.devices.get e.port) = s.devices := setAt_get s.devices e.port
  have hf : setAt s.fifos e.port (s.fifos.get e.port) = s.fifos := setAt_get s.fifos e.port
  calc s.withChannel slot e (s.channel e)
      = { s with
          entries := setAt s.entries slot (some e)
          devices := setAt s.devices e.port (s.devices.get e.port)
          fifos := setAt s.fifos e.port (s.fifos.get e.port) } := rfl
    _ = s := by rw [he, hd, hf]

theorem withChannel_withChannel (s : Driver μ R ports words bytes) (slot : Fin ports)
    (e : Entry ports) (c d : Channel words bytes) :
    (s.withChannel slot e c).withChannel slot (e.withWords c) d = s.withChannel slot e d := by
  simp [withChannel, Entry.withWords]

def describe (s : Driver μ R ports words bytes) : String :=
  let live := s.liveDescriptors.length
  let initialized := s.initialized
  s!"SerialDriver \x7b ports: {ports}, initialized: {initialized}, open: {live} \x7d"

end Driver

end PolledUart
