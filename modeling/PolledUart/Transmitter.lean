import PolledUart.Fifo
import PolledUart.WordPipe

/-!
# The sending side of a port

Written bytes go into a pipe, and sending moves them from there into the FIFO, in order. Whole
words can be put into the pipe and taken out of it past the bytes in its filling and draining
words.
-/

set_option autoImplicit false

namespace PolledUart

structure Transmitter (words bytes : Nat) where
  pipe : WordPipe words
  fifo : ByteFifo bytes

namespace Transmitter

variable {words bytes : Nat}

/-- Takes all bytes, or as many as fit. The last complete word may stay in the filling word when
all bytes were taken. -/
def write (t : Transmitter words bytes) (data : List UInt8) :
    Except TransferError Nat × Transmitter words bytes :=
  match t.pipe.pushAll data with
  | (taken, some e, pipe) => (.error ⟨e.onTransmit, taken⟩, { t with pipe })
  | (taken, none, pipe) =>
    match pipe.flush with
    | .ok pipe => (.ok taken, { t with pipe })
    | .error .full => (.ok taken, { t with pipe })
    | .error e => (.error ⟨e.onTransmit, taken⟩, { t with pipe })

def writeWord (t : Transmitter words bytes) (word : Word) :
    Except Error Unit × Transmitter words bytes :=
  match t.pipe.pushWord word with
  | .error e => (.error e.onTransmit, t)
  | .ok pipe => (.ok (), { t with pipe })

def transmit (t : Transmitter words bytes) :
    (max : Nat) → Except Error Nat × Transmitter words bytes
  | 0 => (.ok 0, t)
  | max + 1 =>
    if t.fifo.isFull then (.ok 0, t)
    else
      match t.pipe.load with
      | .error .empty => (.ok 0, t)
      | .error e => (.error e.onTransmit, t)
      | .ok pipe =>
        match pipe.draining.pop? with
        | none => (.ok 0, { t with pipe })
        | some (byte, draining) =>
          match t.fifo.push byte with
          | .error _ => (.ok 0, { t with pipe })
          | .ok fifo =>
            let (sent, t) := transmit ⟨{ pipe with draining }, fifo⟩ max
            (sent.map (· + 1), t)

def nextWord (t : Transmitter words bytes) : Except Error Word × Transmitter words bytes :=
  match t.pipe.popWord with
  | .error e => (.error e.onTransmit, t)
  | .ok (word, pipe) => (.ok word, { t with pipe })

end Transmitter

end PolledUart
