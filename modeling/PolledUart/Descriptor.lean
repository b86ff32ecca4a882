import PolledUart.Error
import PolledUart.ShiftWord

/-!
# Port modes, descriptor handles and open descriptors

A descriptor is a handle on a slot of the descriptor table, counted from one; zero names no
slot. An occupied slot holds the port it was opened for, the mode, and the four words that are
part way between words and bytes.
-/

set_option autoImplicit false

namespace PolledUart

/-- What a port is open for: a byte stream with queues, or one output line without. -/
inductive PortMode where
  | serial
  | discrete
  deriving DecidableEq, Repr

namespace PortMode

instance : Inhabited PortMode := ⟨discrete⟩

def raw : PortMode → UInt8
  | .serial => 0
  | .discrete => 1

def ofRaw (raw : UInt8) : Except SetupError PortMode :=
  if raw = 0 then .ok .serial
  else if raw = 1 then .ok .discrete
  else .error .invalidArgument

def hasQueues : PortMode → Bool
  | .serial => true
  | .discrete => false

instance : ToString PortMode where
  toString
    | .serial => "serial"
    | .discrete => "discrete"

end PortMode

structure Descriptor where
  raw : UInt32
  deriving DecidableEq, Repr

namespace Descriptor

def invalid : Descriptor := ⟨0⟩

def ofIndex (index : Nat) : Descriptor := ⟨UInt32.ofNat (index + 1)⟩

def isValid (d : Descriptor) : Bool := d.raw != 0

def index? (d : Descriptor) : Option Nat :=
  if d.raw = 0 then none else some (d.raw.toNat - 1)

instance : Ord Descriptor := ⟨fun a b => compare a.raw b.raw⟩

instance : ToString Descriptor := ⟨fun d => "#" ++ toString d.raw⟩

def describe (d : Descriptor) : String := "Descriptor(" ++ toString d.raw ++ ")"

theorem index?_ofIndex {i : Nat} (h : i + 1 < UInt32.size) : (ofIndex i).index? = some i := by
  have hn : (UInt32.ofNat (i + 1)).toNat = i + 1 := by
    rw [UInt32.toNat_ofNat']
    exact Nat.mod_eq_of_lt h
  have h0 : UInt32.ofNat (i + 1) ≠ 0 := by
    intro hz
    rw [hz] at hn
    simp at hn
  simp only [index?, ofIndex, if_neg h0, hn, Nat.add_sub_cancel]

end Descriptor

structure Entry (ports : Nat) where
  port : Fin ports
  mode : PortMode
  /-- Written bytes that do not fill a queued word yet. -/
  txFilling : ShiftWord
  /-- The word that is being sent. -/
  txDraining : ShiftWord
  /-- Received bytes that do not fill a queued word yet. -/
  rxFilling : ShiftWord
  /-- The word that is being read. -/
  rxDraining : ShiftWord
  deriving DecidableEq, Repr

namespace Entry

variable {ports : Nat}

def new (port : Fin ports) (mode : PortMode) : Entry ports :=
  ⟨port, mode, .empty, .empty, .empty, .empty⟩

end Entry

end PolledUart
