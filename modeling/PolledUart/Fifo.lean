import PolledUart.Ring

/-!
# The byte FIFOs of a port

Each port has one FIFO towards the device and one from it. The driver fills the first and drains
the second; the hardware side does the opposite, byte by byte, in bulk, or by a loopback cable
that carries bytes from the first to the second.
-/

set_option autoImplicit false

namespace PolledUart

abbrev ByteFifo (n : Nat) := Ring UInt8 n

/-- A buffer after bytes arrived at its front; the places behind them keep what they held. -/
def overwrite (arrived buffer : List UInt8) : List UInt8 := arrived ++ buffer.drop arrived.length

namespace ByteFifo

variable {n : Nat}

def new (n : Nat) : ByteFifo n := Ring.new n 0

def feed (f : ByteFifo n) : List UInt8 → Nat × ByteFifo n
  | [] => (0, f)
  | b :: rest =>
    match f.push b with
    | .error _ => (0, f)
    | .ok f =>
      let (fed, f) := feed f rest
      (fed + 1, f)

def take (f : ByteFifo n) : (max : Nat) → List UInt8 × ByteFifo n
  | 0 => ([], f)
  | max + 1 =>
    match f.pop with
    | .error _ => ([], f)
    | .ok (b, f) =>
      let (taken, f) := take f max
      (b :: taken, f)

theorem fst_feed (f : ByteFifo n) (data : List UInt8) :
    (f.feed data).1 = min data.length (n - f.toList.length) := by
  induction data generalizing f with
  | nil => simp [feed]
  | cons b rest ih =>
    rcases h : f.push b with e | g
    · have hn := (Ring.push_eq_error_iff.1 h).2
      simp [feed, h, hn]
    · have hg := Ring.toList_push h
      have hle := g.length_toList_le
      have hi := ih g
      rw [hg, List.length_append] at hi hle
      simp only [feed, h, hi, List.length_cons, List.length_nil] at hle ⊢
      omega

theorem toList_feed (f : ByteFifo n) (data : List UInt8) :
    (f.feed data).2.toList = f.toList ++ data.take (f.feed data).1 := by
  induction data generalizing f with
  | nil => simp [feed]
  | cons b rest ih =>
    rcases h : f.push b with e | g
    · simp [feed, h]
    · simp [feed, h, ih g, Ring.toList_push h]

theorem fst_take (f : ByteFifo n) (max : Nat) : (f.take max).1 = f.toList.take max := by
  induction max generalizing f with
  | zero => simp [take]
  | succ max ih =>
    rcases h : f.pop with e | ⟨b, g⟩
    · simp [take, h, (Ring.pop_eq_error_iff.1 h).2]
    · simp [take, h, ih g, Ring.toList_pop h]

theorem toList_take (f : ByteFifo n) (max : Nat) : (f.take max).2.toList = f.toList.drop max := by
  induction max generalizing f with
  | zero => simp [take]
  | succ max ih =>
    rcases h : f.pop with e | ⟨b, g⟩
    · simp [take, h, (Ring.pop_eq_error_iff.1 h).2]
    · simp [take, h, ih g, Ring.toList_pop h]

end ByteFifo

inductive FifoSide where
  | tx
  | rx
  deriving DecidableEq, Repr

/-- The FIFOs of one port: `tx` leads to the device, `rx` comes from it. -/
structure PortFifos (n : Nat) where
  tx : ByteFifo n
  rx : ByteFifo n

inductive FifoCommand where
  | push (side : FifoSide) (byte : UInt8)
  | pop (side : FifoSide)
  | feed (side : FifoSide) (data : List UInt8)
  | take (side : FifoSide) (buffer : List UInt8)
  | reset (side : FifoSide)
  | loopback (max : Nat)
  | resetBoth
  deriving DecidableEq, Repr

inductive FifoReply where
  | done
  | byte (byte : UInt8)
  | count (count : Nat)
  | filled (count : Nat) (buffer : List UInt8)
  deriving DecidableEq, Repr

namespace PortFifos

variable {n : Nat}

def new (n : Nat) : PortFifos n := ⟨ByteFifo.new n, ByteFifo.new n⟩

def reset (p : PortFifos n) : PortFifos n := ⟨p.tx.reset, p.rx.reset⟩

def side (p : PortFifos n) : FifoSide → ByteFifo n
  | .tx => p.tx
  | .rx => p.rx

def withSide (p : PortFifos n) (f : ByteFifo n) : FifoSide → PortFifos n
  | .tx => { p with tx := f }
  | .rx => { p with rx := f }

/-- Carries at most `max` bytes across, while there are some and they fit. -/
def loopback (p : PortFifos n) : (max : Nat) → Nat × PortFifos n
  | 0 => (0, p)
  | max + 1 =>
    if p.rx.isFull then (0, p)
    else
      match p.tx.pop with
      | .error _ => (0, p)
      | .ok (b, tx) =>
        match p.rx.push b with
        | .error _ => (0, { p with tx })
        | .ok rx =>
          let (moved, p) := loopback ⟨tx, rx⟩ max
          (moved + 1, p)

theorem fst_loopback (p : PortFifos n) (max : Nat) :
    (p.loopback max).1 = min max (min p.tx.toList.length (n - p.rx.toList.length)) := by
  induction max generalizing p with
  | zero => simp [loopback]
  | succ max ih =>
    by_cases hf : p.rx.isFull = true
    · simp [loopback, hf, p.rx.isFull_iff.1 hf]
    · rcases hp : p.tx.pop with e | ⟨b, tx⟩
      · simp [loopback, hf, hp, (Ring.pop_eq_error_iff.1 hp).2]
      · rcases hq : p.rx.push b with e | rx
        · exact absurd (p.rx.isFull_iff.2 (Ring.push_eq_error_iff.1 hq).2) hf
        · have hr := Ring.toList_push hq
          have hle := rx.length_toList_le
          have hi := ih ⟨tx, rx⟩
          rw [hr, List.length_append] at hi hle
          simp only [loopback, hf, hp, hq, hi, Ring.toList_pop hp, List.length_cons,
            List.length_nil, if_false, Bool.false_eq_true] at hle ⊢
          omega

theorem toList_loopback (p : PortFifos n) (max : Nat) :
    (p.loopback max).2.tx.toList = p.tx.toList.drop (p.loopback max).1 ∧
      (p.loopback max).2.rx.toList = p.rx.toList ++ p.tx.toList.take (p.loopback max).1 := by
  induction max generalizing p with
  | zero => simp [loopback]
  | succ max ih =>
    by_cases hf : p.rx.isFull = true
    · simp [loopback, hf]
    · rcases hp : p.tx.pop with e | ⟨b, tx⟩
      · simp [loopback, hf, hp]
      · rcases hq : p.rx.push b with e | rx
        · exact absurd (p.rx.isFull_iff.2 (Ring.push_eq_error_iff.1 hq).2) hf
        · simp [loopback, hf, hp, hq, ih ⟨tx, rx⟩, Ring.toList_pop hp, Ring.toList_push hq]

def execute (p : PortFifos n) : FifoCommand → Except QueueError FifoReply × PortFifos n
  | .push s byte =>
    match (p.side s).push byte with
    | .error e => (.error e, p)
    | .ok f => (.ok .done, p.withSide f s)
  | .pop s =>
    match (p.side s).pop with
    | .error e => (.error e, p)
    | .ok (byte, f) => (.ok (.byte byte), p.withSide f s)
  | .feed s data =>
    let (fed, f) := (p.side s).feed data
    (.ok (.count fed), p.withSide f s)
  | .take s buffer =>
    let (taken, f) := (p.side s).take buffer.length
    (.ok (.filled taken.length (overwrite taken buffer)), p.withSide f s)
  | .reset s => (.ok .done, p.withSide (p.side s).reset s)
  | .loopback max =>
    let (moved, p) := p.loopback max
    (.ok (.count moved), p)
  | .resetBoth => (.ok .done, p.reset)

end PortFifos

end PolledUart
