import PolledUart.Fifo
import PolledUart.WordPipe

/-!
# The receiving side of a port

Receiving moves bytes from the FIFO into a pipe, and reading takes them out of it, in order.
-/

set_option autoImplicit false

namespace PolledUart

structure Receiver (words bytes : Nat) where
  fifo : ByteFifo bytes
  pipe : WordPipe words

namespace Receiver

variable {words bytes : Nat}

/-- Moves at most `max` bytes from the FIFO into the pipe, each only once there is room for it:
how many bytes moved, and why no more if the queue refused a word. -/
def collect (r : Receiver words bytes) :
    (max : Nat) → Nat × Option QueueError × Receiver words bytes
  | 0 => (0, none, r)
  | max + 1 =>
    match r.pipe.flush with
    | .error e => (0, some e, r)
    | .ok pipe =>
      match r.fifo.pop with
      | .error _ => (0, none, { r with pipe })
      | .ok (byte, fifo) =>
        let (moved, stop, r) := collect ⟨fifo, { pipe with filling := pipe.filling.push byte }⟩ max
        (moved + 1, stop, r)

/-- Takes at most `max` bytes from the FIFO, while there are some and they fit. A word completed
by the last byte moves on at once if the queue has room. -/
def receive (r : Receiver words bytes) (max : Nat) : Except Error Nat × Receiver words bytes :=
  match r.collect max with
  | (moved, some .full, r) => (.ok moved, r)
  | (_, some e, r) => (.error e.onReceive, r)
  | (moved, none, r) =>
    match r.pipe.flush with
    | .ok pipe => (.ok moved, { r with pipe })
    | .error .full => (.ok moved, r)
    | .error e => (.error e.onReceive, r)

/-- Fills the buffer from its front with as many bytes as there are; none for a buffer that has
room is an error. -/
def read (r : Receiver words bytes) (buffer : List UInt8) :
    (Except TransferError Nat × List UInt8) × Receiver words bytes :=
  let (taken, stop, pipe) := r.pipe.take buffer.length
  let r := { r with pipe }
  let filled := overwrite taken buffer
  match stop with
  | some e => ((.error ⟨e.onReceive, taken.length⟩, filled), r)
  | none =>
    if taken.isEmpty && !buffer.isEmpty then ((.error ⟨.capacity .rxEmpty, 0⟩, filled), r)
    else ((.ok taken.length, filled), r)

def readWord (r : Receiver words bytes) : Except Error Word × Receiver words bytes :=
  if !r.pipe.queue.initialized then (.error (.setup .notInitialized), r)
  else if r.pipe.size < Word.size then (.error (.capacity .rxEmpty), r)
  else
    match r.read (List.replicate Word.size 0) with
    | ((.error e, _), r) => (.error e.error, r)
    | ((.ok _, filled), r) => (.ok (Word.ofBytes filled), r)

end Receiver

end PolledUart
