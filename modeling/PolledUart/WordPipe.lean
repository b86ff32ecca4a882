import PolledUart.ShiftWord
import PolledUart.WordQueue

/-!
# Pipes of bytes, queued as words

Bytes that go into a pipe gather in its filling word and move to its word queue four at a time.
At the other end a queued word becomes the draining word, which goes out byte by byte; when
nothing is queued the filling word goes next, complete or not. `WordPipe.bytes` is the content in
the order in which it leaves, so a pushed byte goes to its end and a popped one was its first.
-/

set_option autoImplicit false

namespace PolledUart

structure WordPipe (n : Nat) where
  filling : ShiftWord
  queue : WordQueue n
  draining : ShiftWord

namespace WordPipe

variable {n : Nat}

/-- The bytes inside, next first. -/
def bytes (p : WordPipe n) : List UInt8 :=
  p.draining.bytes ++ p.queue.bytes ++ p.filling.bytes

def size (p : WordPipe n) : Nat := p.queue.size * Word.size + (p.filling.len + p.draining.len)

def isEmpty (p : WordPipe n) : Bool :=
  p.draining.isEmpty && p.queue.isEmpty && p.filling.isEmpty

structure Canonical (p : WordPipe n) : Prop where
  filling : p.filling.Canonical
  draining : p.draining.Canonical

theorem size_eq_length {p : WordPipe n} (h : p.Canonical) : p.size = p.bytes.length := by
  rw [size, bytes, List.length_append, List.length_append, ShiftWord.length_bytes h.filling,
    ShiftWord.length_bytes h.draining, WordQueue.length_bytes, Nat.mul_comm]
  omega

theorem isEmpty_iff {p : WordPipe n} (h : p.Canonical) : p.isEmpty = true ↔ p.bytes = [] := by
  simp [isEmpty, bytes, ShiftWord.isEmpty_iff h.filling, ShiftWord.isEmpty_iff h.draining,
    WordQueue.bytes_eq_nil_iff, and_assoc]

/-- A complete filling word moves to the queue; any other stays. -/
def flush (p : WordPipe n) : Except QueueError (WordPipe n) :=
  match p.filling.fullWord? with
  | none => .ok p
  | some word =>
    match p.queue.push word with
    | .error e => .error e
    | .ok queue => .ok { p with queue, filling := .empty }

theorem bytes_flush {p q : WordPipe n} (h : p.flush = .ok q) : q.bytes = p.bytes := by
  unfold flush at h
  split at h
  · cases h
    rfl
  · rename_i w hw
    split at h
    · cases h
    · rename_i queue hq
      cases h
      simp [bytes, ShiftWord.fullWord?_eq_some_iff.1 hw, WordQueue.bytes_push hq]

theorem isFull_flush {p q : WordPipe n} (h : p.flush = .ok q) : q.filling.isFull = false := by
  unfold flush at h
  split at h
  · cases h
    exact ShiftWord.isFull_eq_false_iff.2 ‹_›
  · split at h
    · cases h
    · cases h
      rfl

theorem canonical_flush {p q : WordPipe n} (hc : p.Canonical) (h : p.flush = .ok q) :
    q.Canonical := by
  unfold flush at h
  split at h
  · cases h
    exact hc
  · split at h
    · cases h
    · cases h
      exact ⟨ShiftWord.canonical_empty, hc.draining⟩

def push (p : WordPipe n) (byte : UInt8) : Except QueueError (WordPipe n) :=
  match p.flush with
  | .error e => .error e
  | .ok p => .ok { p with filling := p.filling.push byte }

theorem canonical_push {p q : WordPipe n} {byte : UInt8} (hc : p.Canonical)
    (h : p.push byte = .ok q) : q.Canonical := by
  unfold push at h
  split at h
  · cases h
  · rename_i v hv
    cases h
    have hv := canonical_flush hc hv
    exact ⟨ShiftWord.canonical_push hv.filling byte, hv.draining⟩

theorem bytes_push {p q : WordPipe n} {byte : UInt8} (hc : p.Canonical)
    (h : p.push byte = .ok q) : q.bytes = p.bytes ++ [byte] := by
  unfold push at h
  split at h
  · cases h
  · rename_i v hv
    cases h
    rw [← bytes_flush hv]
    simp [bytes, ShiftWord.bytes_push (canonical_flush hc hv).filling (isFull_flush hv)]

def pushAll (p : WordPipe n) : List UInt8 → Nat × Option QueueError × WordPipe n
  | [] => (0, none, p)
  | byte :: rest =>
    match p.push byte with
    | .error e => (0, some e, p)
    | .ok p =>
      let (pushed, stop, p) := pushAll p rest
      (pushed + 1, stop, p)

theorem bytes_pushAll {p : WordPipe n} (hc : p.Canonical) (data : List UInt8) :
    (p.pushAll data).2.2.bytes = p.bytes ++ data.take (p.pushAll data).1 := by
  induction data generalizing p with
  | nil => simp [pushAll]
  | cons byte rest ih =>
    rcases h : p.push byte with e | q
    · simp [pushAll, h]
    · simp [pushAll, h, ih (canonical_push hc h), bytes_push hc h]

/-- Readies the draining word, if it is empty: with the next queued word, or with the filling
word when none is queued. -/
def load (p : WordPipe n) : Except QueueError (WordPipe n) :=
  if !p.draining.isEmpty then .ok p
  else if p.queue.isEmpty && !p.filling.isEmpty then
    let (draining, filling) := p.filling.take
    .ok { p with draining, filling }
  else
    match p.queue.pop with
    | .error e => .error e
    | .ok (word, queue) => .ok { p with queue, draining := .ofWord word }

theorem bytes_load {p q : WordPipe n} (h : p.load = .ok q) : q.bytes = p.bytes := by
  unfold load at h
  split at h
  · cases h
    rfl
  · rename_i hd
    have hd : p.draining = .empty := ShiftWord.isEmpty_eq_true_iff.1 (by simpa using hd)
    split at h
    · rename_i hq
      cases h
      have hq := p.queue.bytes_eq_nil_iff.2 (Bool.and_eq_true_iff.1 hq).1
      simp [bytes, hd, hq]
    · split at h
      · cases h
      · rename_i w queue hq
        cases h
        simp [bytes, ShiftWord.ofWord, hd, WordQueue.bytes_pop hq]

/-- Takes the next byte out of the draining word, the queue or, in place, the filling word. -/
def pop (p : WordPipe n) : Except QueueError (Option (UInt8 × WordPipe n)) :=
  match p.draining.pop? with
  | some (byte, draining) => .ok (some (byte, { p with draining }))
  | none =>
    match p.queue.pop with
    | .ok (word, queue) =>
      .ok ((ShiftWord.ofWord word).pop?.map fun (byte, draining) =>
        (byte, { p with queue, draining }))
    | .error .empty =>
      .ok (p.filling.pop?.map fun (byte, filling) => (byte, { p with filling }))
    | .error e => .error e

theorem bytes_pop {p q : WordPipe n} {byte : UInt8} (hc : p.Canonical)
    (h : p.pop = .ok (some (byte, q))) : p.bytes = byte :: q.bytes := by
  unfold pop at h
  split at h
  · rename_i b draining hp
    cases h
    simp [bytes, ShiftWord.bytes_pop hc.draining hp]
  · rename_i hp
    have hd := ShiftWord.pop?_eq_none_iff.1 hp
    split at h
    · rename_i w queue hq
      simp only [Except.ok.injEq, Option.map_eq_some_iff, Prod.mk.injEq] at h
      obtain ⟨⟨b, draining⟩, hw, rfl, rfl⟩ := h
      have hb := ShiftWord.bytes_pop (ShiftWord.canonical_full w) hw
      simp only [ShiftWord.bytes_full] at hb
      simp [bytes, hd, WordQueue.bytes_pop hq, hb]
    · rename_i hq
      simp only [Except.ok.injEq, Option.map_eq_some_iff, Prod.mk.injEq] at h
      obtain ⟨⟨b, filling⟩, hw, rfl, rfl⟩ := h
      simp [bytes, hd, WordQueue.bytes_of_pop_empty hq, ShiftWord.bytes_pop hc.filling hw]
    · cases h

def take (p : WordPipe n) : (max : Nat) → List UInt8 × Option QueueError × WordPipe n
  | 0 => ([], none, p)
  | max + 1 =>
    match p.pop with
    | .error e => ([], some e, p)
    | .ok none => ([], none, p)
    | .ok (some (byte, p)) =>
      let (rest, stop, p) := take p max
      (byte :: rest, stop, p)

def pushWord (p : WordPipe n) (word : Word) : Except QueueError (WordPipe n) :=
  match p.queue.push word with
  | .error e => .error e
  | .ok queue => .ok { p with queue }

/-- Takes the next complete word out, past the draining word: a queued one, or else the filling
word. -/
def popWord (p : WordPipe n) : Except QueueError (Word × WordPipe n) :=
  match p.queue.isEmpty, p.filling.fullWord? with
  | true, some word => .ok (word, { p with filling := .empty })
  | _, _ =>
    match p.queue.pop with
    | .error e => .error e
    | .ok (word, queue) => .ok (word, { p with queue })

end WordPipe

end PolledUart
