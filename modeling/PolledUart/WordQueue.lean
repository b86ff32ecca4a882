import PolledUart.Ring
import PolledUart.Word

/-!
# Queues of words

A word queue refuses every push and pop until it is started. Starting and stopping both drop
the content, and a stopped queue counts as empty and not full.
-/

set_option autoImplicit false

namespace PolledUart

structure WordQueue (n : Nat) where
  ring : Ring Word n
  initialized : Bool

namespace WordQueue

variable {n : Nat}

def new (n : Nat) : WordQueue n := ⟨Ring.new n 0, false⟩

instance : Inhabited (WordQueue n) := ⟨new n⟩

def start (q : WordQueue n) : WordQueue n := ⟨q.ring.reset, true⟩

def stop (q : WordQueue n) : WordQueue n := ⟨q.ring.reset, false⟩

def capacity (_ : WordQueue n) : Nat := n

def size (q : WordQueue n) : Nat := if q.initialized then q.ring.count else 0

def isEmpty (q : WordQueue n) : Bool := q.size == 0

def isFull (q : WordQueue n) : Bool := q.initialized && q.ring.isFull

def push (q : WordQueue n) (w : Word) : Except QueueError (WordQueue n) :=
  if q.initialized then
    match q.ring.push w with
    | .error e => .error e
    | .ok ring => .ok { q with ring }
  else .error .notInitialized

def pop (q : WordQueue n) : Except QueueError (Word × WordQueue n) :=
  if q.initialized then
    match q.ring.pop with
    | .error e => .error e
    | .ok (w, ring) => .ok (w, { q with ring })
  else .error .notInitialized

/-- The queued words, oldest first. -/
def toList (q : WordQueue n) : List Word := if q.initialized then q.ring.toList else []

def bytes (q : WordQueue n) : List UInt8 := q.toList.flatMap Word.bytes

@[simp] theorem toList_new : (new n).toList = [] := rfl

@[simp] theorem toList_start (q : WordQueue n) : q.start.toList = [] := rfl

@[simp] theorem toList_stop (q : WordQueue n) : q.stop.toList = [] := rfl

theorem size_eq_length (q : WordQueue n) : q.size = q.toList.length := by
  unfold size toList
  split <;> simp

theorem size_le (q : WordQueue n) : q.size ≤ n := by
  unfold size
  split
  · exact q.ring.count_le
  · exact Nat.zero_le n

theorem isEmpty_iff (q : WordQueue n) : q.isEmpty = true ↔ q.toList = [] := by
  simp [isEmpty, size_eq_length]

theorem isFull_iff (q : WordQueue n) (h : q.initialized = true) :
    q.isFull = true ↔ q.toList.length = n := by
  simp [isFull, h, Ring.isFull_iff, toList]

theorem push_eq_error_iff {q : WordQueue n} {w : Word} {e : QueueError} (h : q.initialized = true) :
    q.push w = .error e ↔ e = .full ∧ q.toList.length = n := by
  simp only [push, toList, h, if_true, ← Ring.push_eq_error_iff (a := w)]
  cases q.ring.push w <;> simp

theorem pop_eq_error_iff {q : WordQueue n} {e : QueueError} (h : q.initialized = true) :
    q.pop = .error e ↔ e = .empty ∧ q.toList = [] := by
  simp only [pop, toList, h, if_true, ← Ring.pop_eq_error_iff]
  rcases q.ring.pop with _ | ⟨_, _⟩ <;> simp

theorem toList_push {q s : WordQueue n} {w : Word} (h : q.push w = .ok s) :
    q.initialized = true ∧ s.initialized = true ∧ s.toList = q.toList ++ [w] := by
  by_cases hq : q.initialized = true
  · rcases hr : q.ring.push w with e | ring
    · simp [push, hq, hr] at h
    · simp only [push, hq, hr, if_true, Except.ok.injEq] at h
      subst h
      exact ⟨hq, rfl, by simp [toList, hq, Ring.toList_push hr]⟩
  · simp [push, hq] at h

theorem toList_pop {q s : WordQueue n} {w : Word} (h : q.pop = .ok (w, s)) :
    q.initialized = true ∧ s.initialized = true ∧ q.toList = w :: s.toList := by
  by_cases hq : q.initialized = true
  · rcases hr : q.ring.pop with e | ⟨v, ring⟩
    · simp [pop, hq, hr] at h
    · simp only [pop, hq, hr, if_true, Except.ok.injEq, Prod.mk.injEq] at h
      obtain ⟨rfl, rfl⟩ := h
      exact ⟨hq, rfl, by simp [toList, hq, Ring.toList_pop hr]⟩
  · simp [pop, hq] at h

theorem bytes_push {q s : WordQueue n} {w : Word} (h : q.push w = .ok s) :
    s.bytes = q.bytes ++ w.bytes := by
  simp [bytes, (toList_push h).2.2]

theorem bytes_pop {q s : WordQueue n} {w : Word} (h : q.pop = .ok (w, s)) :
    q.bytes = w.bytes ++ s.bytes := by
  simp [bytes, (toList_pop h).2.2]

theorem length_bytes (q : WordQueue n) : q.bytes.length = Word.size * q.size := by
  rw [size_eq_length, bytes]
  induction q.toList with
  | nil => rfl
  | cons w rest ih =>
    simp only [List.flatMap_cons, List.length_append, List.length_cons, Word.length_bytes, ih,
      Word.size]
    omega

theorem bytes_of_pop_empty {q : WordQueue n} (h : q.pop = .error .empty) : q.bytes = [] := by
  by_cases hi : q.initialized = true
  · simp [bytes, ((pop_eq_error_iff hi).1 h).2]
  · simp [bytes, toList, hi]

theorem bytes_eq_nil_iff (q : WordQueue n) : q.bytes = [] ↔ q.isEmpty = true := by
  rw [isEmpty_iff]
  rcases h : q.toList with _ | ⟨w, rest⟩ <;> simp [bytes, h, Word.bytes]

end WordQueue

end PolledUart
