import PolledUart.Proofs.NamedRuns
import PolledUart.WordQueue

/-!
# Rings and word queues are bounded lists

A ring replies as the list of its content does, which refuses a push at its capacity and a pop
when it is empty. Beside it the same is computed on bare slots and numbers, without the laws that
come with a ring: there a slot outside of the buffer or a remainder by zero is a fault. No run
faults, and the laws hold in every state of it, for capacity zero too. A word queue adds a switch,
and moving the switch either way empties it.
-/

set_option autoImplicit false

namespace PolledUart

inductive QueueCommand (α : Type) where
  | push (a : α)
  | pop
  | peek
  | length
  | capacity
  | isEmpty
  | isFull
  | reset

inductive QueueReply (α : Type) where
  | done
  | taken (a : α)
  | seen (a : Option α)
  | count (count : Nat)
  | flag (value : Bool)
  deriving DecidableEq, Repr

/-- A queue as the list of what it holds, oldest first, `n` elements at most. -/
def BoundedList.execute {α : Type} (n : Nat) (held : List α) :
    QueueCommand α → Except QueueError (QueueReply α) × List α
  | .push a => if held.length = n then (.error .full, held) else (.ok .done, held ++ [a])
  | .pop =>
    match held with
    | [] => (.error .empty, [])
    | a :: rest => (.ok (.taken a), rest)
  | .peek => (.ok (.seen held.head?), held)
  | .length => (.ok (.count held.length), held)
  | .capacity => (.ok (.count n), held)
  | .isEmpty => (.ok (.flag held.isEmpty), held)
  | .isFull => (.ok (.flag (held.length == n)), held)
  | .reset => (.ok .done, [])

/-- The numbers and slots of a ring, whatever they are. -/
structure RawRing (α : Type) (n : Nat) where
  slots : Vector α n
  head : Nat
  tail : Nat
  count : Nat

namespace RawRing

variable {α : Type} {n : Nat}

def new (n : Nat) (fill : α) : RawRing α n := ⟨Vector.replicate n fill, 0, 0, 0⟩

def store? (slots : Vector α n) (i : Nat) (a : α) : Option (Vector α n) :=
  if h : i < n then some (slots.set i a h) else none

def remainder? (a b : Nat) : Option Nat := if b = 0 then none else some (a % b)

def execute (r : RawRing α n) :
    QueueCommand α → Option (Except QueueError (QueueReply α)) × RawRing α n
  | .push a =>
    if r.count = n then (some (.error .full), r)
    else
      match store? r.slots r.head a, remainder? (r.head + 1) n with
      | some slots, some head =>
        (some (.ok .done), { r with slots := slots, head := head, count := r.count + 1 })
      | _, _ => (none, r)
  | .pop =>
    if r.count = 0 then (some (.error .empty), r)
    else
      match r.slots[r.tail]?, remainder? (r.tail + 1) n with
      | some a, some tail =>
        (some (.ok (.taken a)), { r with tail := tail, count := r.count - 1 })
      | _, _ => (none, r)
  | .peek =>
    if r.count = 0 then (some (.ok (.seen none)), r)
    else
      match r.slots[r.tail]? with
      | some a => (some (.ok (.seen (some a))), r)
      | none => (none, r)
  | .length => (some (.ok (.count r.count)), r)
  | .capacity => (some (.ok (.count n)), r)
  | .isEmpty => (some (.ok (.flag (r.count == 0))), r)
  | .isFull => (some (.ok (.flag (r.count == n))), r)
  | .reset => (some (.ok .done), { r with head := 0, tail := 0, count := 0 })

/-- The numbers fit the buffer and each other. -/
structure Lawful (r : RawRing α n) : Prop where
  count_le : r.count ≤ n
  in_turn : 0 < n → r.head = (r.tail + r.count) % n ∧ r.head < n ∧ r.tail < n
  at_rest : n = 0 → r.head = 0 ∧ r.tail = 0 ∧ r.count = 0

end RawRing

namespace Ring

variable {α : Type} {n : Nat}

def execute (r : Ring α n) : QueueCommand α → Except QueueError (QueueReply α) × Ring α n
  | .push a =>
    match r.push a with
    | .error e => (.error e, r)
    | .ok s => (.ok .done, s)
  | .pop =>
    match r.pop with
    | .error e => (.error e, r)
    | .ok (a, s) => (.ok (.taken a), s)
  | .peek => (.ok (.seen r.peek?), r)
  | .length => (.ok (.count r.count), r)
  | .capacity => (.ok (.count r.capacity), r)
  | .isEmpty => (.ok (.flag r.isEmpty), r)
  | .isFull => (.ok (.flag r.isFull), r)
  | .reset => (.ok .done, r.reset)

def raw (r : Ring α n) : RawRing α n := ⟨r.slots, r.head, r.tail, r.count⟩

theorem raw_lawful (r : Ring α n) : r.raw.Lawful where
  count_le := r.count_le
  in_turn hn := by
    have hle := r.tail_le
    have hhead : r.head < n := by
      rw [r.head_eq]
      exact Nat.mod_lt _ hn
    have htail : r.tail < n := by omega
    exact ⟨r.head_eq, hhead, htail⟩
  at_rest hn := by
    subst hn
    have hcount := Nat.le_zero.1 r.count_le
    have htail := Nat.le_zero.1 r.tail_le
    have hhead := r.head_eq
    rw [hcount, htail] at hhead
    exact ⟨hhead, htail, hcount⟩

theorem execute_toList (r : Ring α n) (command : QueueCommand α) :
    BoundedList.execute n r.toList command =
      ((r.execute command).1, (r.execute command).2.toList) := by
  cases command with
  | push a =>
    rcases h : r.push a with e | s
    · obtain ⟨rfl, hfull⟩ := push_eq_error_iff.1 h
      simp [BoundedList.execute, execute, h, hfull]
    · have hroom : r.toList.length ≠ n := fun hfull => by
        cases h.symm.trans (push_eq_error_iff.2 ⟨rfl, hfull⟩)
      simp only [BoundedList.execute, execute, h, if_neg hroom, toList_push h]
  | pop =>
    rcases h : r.pop with e | ⟨a, s⟩
    · obtain ⟨rfl, hempty⟩ := pop_eq_error_iff.1 h
      simp [BoundedList.execute, execute, h, hempty]
    · simp only [BoundedList.execute, execute, h, toList_pop h]
  | peek => simp only [BoundedList.execute, execute, peek?_eq_head?]
  | length => simp only [BoundedList.execute, execute, length_toList]
  | capacity => rfl
  | isEmpty =>
    have hempty : r.toList.isEmpty = r.isEmpty := by
      rw [Bool.eq_iff_iff, isEmpty_iff, List.isEmpty_iff]
    simp only [BoundedList.execute, execute, hempty]
  | isFull =>
    have hfull : (r.toList.length == n) = r.isFull := by
      rw [Bool.eq_iff_iff, isFull_iff, beq_iff_eq]
    simp only [BoundedList.execute, execute, hfull]
  | reset => simp only [BoundedList.execute, execute, toList_reset]

/-- On the numbers and slots of a ring no command faults. -/
theorem execute_raw (r : Ring α n) (command : QueueCommand α) :
    r.raw.execute command = (some (r.execute command).1, (r.execute command).2.raw) := by
  cases command with
  | push a =>
    by_cases hfull : r.count = n
    · simp [RawRing.execute, execute, raw, push, hfull]
    · have hhead := r.head_lt hfull
      have hn : n ≠ 0 := by omega
      simp [RawRing.execute, RawRing.store?, RawRing.remainder?, execute, raw, push, hfull, hhead,
        hn]
  | pop =>
    by_cases hempty : r.count = 0
    · simp [RawRing.execute, execute, raw, pop, hempty]
    · have htail := r.tail_lt hempty
      have hn : n ≠ 0 := by omega
      simp [RawRing.execute, RawRing.remainder?, execute, raw, pop, slot, hempty, htail, hn]
  | peek =>
    by_cases hempty : r.count = 0
    · simp [RawRing.execute, execute, raw, peek?, hempty]
    · have htail := r.tail_lt hempty
      simp [RawRing.execute, execute, raw, peek?, slot, hempty, htail]
  | length | capacity | isEmpty | isFull | reset => rfl

end Ring

inductive WordQueueCommand where
  | start
  | stop
  | isInitialized
  | push (word : Word)
  | pop
  | size
  | capacity
  | isEmpty
  | isFull

/-- A queue of words with a switch, off at first. Either way of moving it empties the queue. While
it is off the queue refuses to be changed, and shows itself as empty and not full. -/
def Switched.execute {σ ρ : Type} (reply : Except QueueError (QueueReply Word) → ρ)
    (queue : σ → QueueCommand Word → ρ × σ) (s : σ × Bool) : WordQueueCommand → ρ × (σ × Bool)
  | .start => (reply (.ok .done), (queue s.1 .reset).2, true)
  | .stop => (reply (.ok .done), (queue s.1 .reset).2, false)
  | .isInitialized => (reply (.ok (.flag s.2)), s)
  | .push word => ifOn (.push word) (.error .notInitialized)
  | .pop => ifOn .pop (.error .notInitialized)
  | .size => ifOn .length (.ok (.count 0))
  | .capacity => ((queue s.1 .capacity).1, s)
  | .isEmpty => ifOn .isEmpty (.ok (.flag true))
  | .isFull => ifOn .isFull (.ok (.flag false))
where
  ifOn (command : QueueCommand Word) (off : Except QueueError (QueueReply Word)) : ρ × (σ × Bool) :=
    if s.2 then ((queue s.1 command).1, (queue s.1 command).2, true) else (reply off, s)

theorem Switched.execute_view {σ τ ρ π : Type} {queue : σ → QueueCommand Word → ρ × σ}
    {queue' : τ → QueueCommand Word → π × τ}
    (reply : Except QueueError (QueueReply Word) → ρ) (view : σ → τ) (shown : ρ → π)
    (hview : ∀ s command,
      queue' (view s) command = (shown (queue s command).1, view (queue s command).2))
    (s : σ × Bool) (command : WordQueueCommand) :
    execute (shown ∘ reply) queue' (s.map view id) command =
      (shown (execute reply queue s command).1, (execute reply queue s command).2.map view id) := by
  obtain ⟨s, on⟩ := s
  cases command <;> cases on <;> simp [execute, execute.ifOn, hview]

namespace WordQueue

variable {n : Nat}

def execute (q : WordQueue n) :
    WordQueueCommand → Except QueueError (QueueReply Word) × WordQueue n
  | .start => (.ok .done, q.start)
  | .stop => (.ok .done, q.stop)
  | .isInitialized => (.ok (.flag q.initialized), q)
  | .push word =>
    match q.push word with
    | .error e => (.error e, q)
    | .ok r => (.ok .done, r)
  | .pop =>
    match q.pop with
    | .error e => (.error e, q)
    | .ok (word, r) => (.ok (.taken word), r)
  | .size => (.ok (.count q.size), q)
  | .capacity => (.ok (.count q.capacity), q)
  | .isEmpty => (.ok (.flag q.isEmpty), q)
  | .isFull => (.ok (.flag q.isFull), q)

theorem execute_switched (q : WordQueue n) (command : WordQueueCommand) :
    Switched.execute id Ring.execute (q.ring, q.initialized) command =
      ((q.execute command).1, (q.execute command).2.ring, (q.execute command).2.initialized) := by
  obtain ⟨ring, on⟩ := q
  cases command with
  | push word =>
    cases on
    · rfl
    · rcases h : ring.push word <;>
        simp [Switched.execute, Switched.execute.ifOn, Ring.execute, execute, push, h]
  | pop =>
    cases on
    · rfl
    · rcases h : ring.pop with _ | ⟨_, _⟩ <;>
        simp [Switched.execute, Switched.execute.ifOn, Ring.execute, execute, pop, h]
  | _ => cases on <;> rfl

theorem execute_view {τ ρ : Type} {queue : τ → QueueCommand Word → ρ × τ}
    (view : Ring Word n → τ) (shown : Except QueueError (QueueReply Word) → ρ)
    (hview : ∀ r command,
      queue (view r) command = (shown (Ring.execute r command).1, view (Ring.execute r command).2))
    (q : WordQueue n) (command : WordQueueCommand) :
    Switched.execute shown queue (view q.ring, q.initialized) command =
      (shown (q.execute command).1,
        view (q.execute command).2.ring, (q.execute command).2.initialized) := by
  have h := Switched.execute_view id view shown hview (q.ring, q.initialized) command
  rw [execute_switched] at h
  exact h

end WordQueue

/-- In any run of rings, copies included, the replies and contents are those of lists that hold
`n` elements at most, no slot outside of the buffer and no remainder by zero is used, and the
numbers fit. The same holds of word queues, with the switch. -/
theorem queues_are_bounded_lists (α : Type) (n : Nat) (fill : α) :
    (∀ commands : List (Named (QueueCommand α)),
      let rings := Named.run Ring.execute (fun _ => Ring.new n fill) commands
      Named.run (BoundedList.execute n) (fun _ => []) commands =
          (rings.1, fun i => (rings.2 i).toList) ∧
        Named.run RawRing.execute (fun _ => RawRing.new n fill) commands =
          (rings.1.map some, fun i => (rings.2 i).raw) ∧
        ∀ i, (rings.2 i).toList.length ≤ n ∧ (rings.2 i).raw.Lawful) ∧
      ∀ commands : List (Named WordQueueCommand),
        let queues := Named.run WordQueue.execute (fun _ => WordQueue.new n) commands
        Named.run (Switched.execute id (BoundedList.execute n)) (fun _ => ([], false)) commands =
            (queues.1, fun i => ((queues.2 i).ring.toList, (queues.2 i).initialized)) ∧
          Named.run (Switched.execute some RawRing.execute) (fun _ => (RawRing.new n 0, false))
              commands =
            (queues.1.map some, fun i => ((queues.2 i).ring.raw, (queues.2 i).initialized)) ∧
          ∀ i, (queues.2 i).ring.toList.length ≤ n ∧ (queues.2 i).ring.raw.Lawful := by
  refine ⟨fun commands => ⟨?_, ?_, fun i => ⟨?_, ?_⟩⟩, fun commands => ⟨?_, ?_, fun i => ⟨?_, ?_⟩⟩⟩
  · have h := Named.run_view Ring.toList id Ring.execute_toList (fun _ => Ring.new n fill) commands
    rw [List.map_id] at h
    exact h
  · exact Named.run_view Ring.raw some Ring.execute_raw (fun _ => Ring.new n fill) commands
  · exact Ring.length_toList_le _
  · exact Ring.raw_lawful _
  · have h := Named.run_view (fun q : WordQueue n => (q.ring.toList, q.initialized)) id
      (WordQueue.execute_view Ring.toList id Ring.execute_toList) (fun _ => WordQueue.new n)
      commands
    rw [List.map_id] at h
    exact h
  · exact Named.run_view (fun q : WordQueue n => (q.ring.raw, q.initialized)) some
      (WordQueue.execute_view Ring.raw some Ring.execute_raw) (fun _ => WordQueue.new n) commands
  · exact Ring.length_toList_le _
  · exact Ring.raw_lawful _

/-- A copy keeps what its original gives away, and the slot that this leaves is used again. -/
example : (Named.run Ring.execute (fun _ => Ring.new 2 0)
    [.tell 0 (.push 5), .tell 0 (.push 6), .copy 0 1, .tell 0 .pop, .tell 0 (.push 7),
      .tell 0 (.push 8), .tell 1 .pop, .tell 0 .pop]).1 =
    [.ok .done, .ok .done, .ok (.taken 5), .ok .done, .error .full, .ok (.taken 5),
      .ok (.taken 6)] := by
  rfl

end PolledUart
