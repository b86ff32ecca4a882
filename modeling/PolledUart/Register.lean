/-!
# The registers of a UART channel

A channel has eight byte registers, and a block of them is whatever can be read and written by
offset. Two kinds of block come with the driver: a shadow file, which keeps its registers itself,
and a mapped block, which finds them in memory behind a base address. Both read zero and ignore
writes outside the eight registers, so every bit operation is inert there.
-/

set_option autoImplicit false

namespace PolledUart

namespace Register

def data : Nat := 0

def interruptEnable : Nat := 1

def interruptStatus : Nat := 2

def lineControl : Nat := 3

def modemControl : Nat := 4

def lineStatus : Nat := 5

def modemStatus : Nat := 6

def scratch : Nat := 7

def count : Nat := 8

end Register

namespace ModemControl

def dataTerminalReady : UInt8 := 0x01

def requestToSend : UInt8 := 0x02

def output1 : UInt8 := 0x04

def output2 : UInt8 := 0x08

def loopback : UInt8 := 0x10

def discreteLine : UInt8 := requestToSend

end ModemControl

abbrev Memory := Nat → UInt8

namespace Memory

def zeroed : Memory := fun _ => 0

def store (m : Memory) (address : Nat) (value : UInt8) : Memory :=
  fun a => if a = address then value else m a

@[simp] theorem store_self (m : Memory) (a : Nat) (v : UInt8) : m.store a v a = v := by
  simp [store]

theorem store_of_ne (m : Memory) {a b : Nat} (v : UInt8) (h : b ≠ a) : m.store a v b = m b := by
  simp [store, h]

end Memory

/-- Blocks of registers that may keep their values in themselves or in memory. -/
class RegisterAccess (R : Type) where
  read : R → Memory → (offset : Nat) → UInt8
  write : R → Memory → (offset : Nat) → (value : UInt8) → R × Memory

namespace RegisterAccess

variable {R : Type} [RegisterAccess R]

def modify (block : R) (m : Memory) (offset : Nat) (f : UInt8 → UInt8) : R × Memory :=
  write block m offset (f (read block m offset))

def setBits (block : R) (m : Memory) (offset : Nat) (bits : UInt8) : R × Memory :=
  modify block m offset (· ||| bits)

def clearBits (block : R) (m : Memory) (offset : Nat) (bits : UInt8) : R × Memory :=
  modify block m offset (· &&& ~~~bits)

def bitsSet (block : R) (m : Memory) (offset : Nat) (bits : UInt8) : Bool :=
  read block m offset &&& bits == bits

end RegisterAccess

inductive RegisterBlock where
  | shadow (registers : Vector UInt8 Register.count)
  | mapped (base : Nat)
  deriving DecidableEq

namespace RegisterBlock

def zeroed : RegisterBlock := .shadow (Vector.replicate _ 0)

/-- The block at a base address; address zero stands for no hardware. -/
def mapped? (base : Nat) : Option RegisterBlock :=
  if base = 0 then none else some (.mapped base)

def read (block : RegisterBlock) (m : Memory) (offset : Nat) : UInt8 :=
  match block with
  | .shadow registers => registers[offset]?.getD 0
  | .mapped base => if offset < Register.count then m (base + offset) else 0

def write (block : RegisterBlock) (m : Memory) (offset : Nat) (value : UInt8) :
    RegisterBlock × Memory :=
  match block with
  | .shadow registers => (.shadow (registers.setIfInBounds offset value), m)
  | .mapped base =>
    (.mapped base, if offset < Register.count then m.store (base + offset) value else m)

instance : RegisterAccess RegisterBlock := ⟨read, write⟩

@[simp] theorem access_read (block : RegisterBlock) (m : Memory) (offset : Nat) :
    RegisterAccess.read block m offset = block.read m offset := rfl

@[simp] theorem access_write (block : RegisterBlock) (m : Memory) (offset : Nat) (value : UInt8) :
    RegisterAccess.write block m offset value = block.write m offset value := rfl

def values (block : RegisterBlock) (m : Memory) : List UInt8 :=
  (List.range Register.count).map (block.read m)

theorem read_out_of_range (block : RegisterBlock) (m : Memory) {offset : Nat}
    (h : Register.count ≤ offset) : block.read m offset = 0 := by
  cases block with
  | shadow registers => simp [read, h]
  | mapped base => simp [read, Nat.not_lt.2 h]

theorem write_out_of_range (block : RegisterBlock) (m : Memory) {offset : Nat}
    (h : Register.count ≤ offset) (value : UInt8) : block.write m offset value = (block, m) := by
  cases block with
  | shadow registers =>
    simp only [write, Prod.mk.injEq, shadow.injEq, and_true]
    have hne (i : Nat) (hi : i < Register.count) : ¬offset = i := by omega
    ext i hi
    rw [Vector.getElem_setIfInBounds, if_neg (hne i hi)]
  | mapped base => simp [write, Nat.not_lt.2 h]

theorem read_write_self (block : RegisterBlock) (m : Memory) {offset : Nat}
    (h : offset < Register.count) (value : UInt8) :
    (block.write m offset value).1.read (block.write m offset value).2 offset = value := by
  cases block with
  | shadow registers => simp [read, write, h]
  | mapped base => simp [read, write, h]

theorem read_write_of_ne (block : RegisterBlock) (m : Memory) {offset other : Nat}
    (h : other ≠ offset) (value : UInt8) :
    (block.write m offset value).1.read (block.write m offset value).2 other =
      block.read m other := by
  cases block with
  | shadow registers => simp [read, write, Ne.symm h]
  | mapped base =>
    simp only [read, write]
    split
    · split
      · exact Memory.store_of_ne m value (by omega)
      · rfl
    · rfl

end RegisterBlock

end PolledUart
