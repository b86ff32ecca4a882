import PolledUart.Error

/-!
# A circular buffer of fixed capacity

A ring writes at `head`, reads at `tail` and counts what it holds; its index laws are part of the
type, so no slot outside the buffer is ever reached, for capacity zero too. Popping and resetting
leave the slots as they are. `Ring.toList` is the content, oldest first: pushing appends to it,
popping takes its first.
-/

set_option autoImplicit false

namespace PolledUart

structure Ring (α : Type) (n : Nat) where
  slots : Vector α n
  head : Nat
  tail : Nat
  count : Nat
  count_le : count ≤ n
  tail_le : tail ≤ n - 1
  head_eq : head = (tail + count) % n

namespace Ring

variable {α : Type} {n : Nat}

def new (n : Nat) (fill : α) : Ring α n where
  slots := Vector.replicate n fill
  head := 0
  tail := 0
  count := 0
  count_le := Nat.zero_le n
  tail_le := Nat.zero_le _
  head_eq := (Nat.zero_mod n).symm

def capacity (_ : Ring α n) : Nat := n

def isEmpty (r : Ring α n) : Bool := r.count == 0

def isFull (r : Ring α n) : Bool := r.count == n

/-- Empty and rewound; the slots keep what they held. -/
def reset (r : Ring α n) : Ring α n where
  slots := r.slots
  head := 0
  tail := 0
  count := 0
  count_le := Nat.zero_le n
  tail_le := Nat.zero_le _
  head_eq := (Nat.zero_mod n).symm

def slot (r : Ring α n) (i : Nat) (h : i < n) : α := r.slots[i]

theorem tail_lt (r : Ring α n) (h : r.count ≠ 0) : r.tail < n := by
  have := r.count_le
  have := r.tail_le
  omega

theorem head_lt (r : Ring α n) (h : r.count ≠ n) : r.head < n := by
  have := r.count_le
  rw [r.head_eq]
  exact Nat.mod_lt _ (by omega)

def push (r : Ring α n) (a : α) : Except QueueError (Ring α n) :=
  if h : r.count = n then .error .full
  else .ok {
    slots := r.slots.set r.head a (r.head_lt h)
    head := (r.head + 1) % n
    tail := r.tail
    count := r.count + 1
    count_le := by have := r.count_le; omega
    tail_le := r.tail_le
    head_eq := by rw [r.head_eq, Nat.mod_add_mod, Nat.add_assoc] }

def pop (r : Ring α n) : Except QueueError (α × Ring α n) :=
  if h : r.count = 0 then .error .empty
  else .ok (r.slot r.tail (r.tail_lt h), {
    slots := r.slots
    head := r.head
    tail := (r.tail + 1) % n
    count := r.count - 1
    count_le := by have := r.count_le; omega
    tail_le := by
      have := Nat.mod_lt (r.tail + 1) (Nat.lt_of_le_of_lt (Nat.zero_le _) (r.tail_lt h))
      omega
    head_eq := by
      rw [r.head_eq, Nat.mod_add_mod]
      congr 1
      omega })

def peek? (r : Ring α n) : Option α :=
  if h : r.count = 0 then none else some (r.slot r.tail (r.tail_lt h))

def index (r : Ring α n) (i : Nat) : Nat := (r.tail + i) % n

theorem index_lt (r : Ring α n) {i : Nat} (h : i < r.count) : r.index i < n :=
  Nat.mod_lt _ (Nat.lt_of_lt_of_le (Nat.lt_of_le_of_lt (Nat.zero_le i) h) r.count_le)

/-- The content, oldest first. -/
def toList (r : Ring α n) : List α :=
  List.ofFn fun i : Fin r.count => r.slot (r.index i) (r.index_lt i.isLt)

@[simp] theorem length_toList (r : Ring α n) : r.toList.length = r.count := by simp [toList]

@[simp] theorem toList_new (fill : α) : (new n fill).toList = [] := rfl

@[simp] theorem toList_reset (r : Ring α n) : r.reset.toList = [] := rfl

theorem length_toList_le (r : Ring α n) : r.toList.length ≤ n := by
  simpa using r.count_le

theorem isEmpty_iff (r : Ring α n) : r.isEmpty = true ↔ r.toList = [] := by
  rw [← List.length_eq_zero_iff, length_toList]
  simp [isEmpty]

theorem isFull_iff (r : Ring α n) : r.isFull = true ↔ r.toList.length = n := by
  simp [isFull]

theorem index_eq (r : Ring α n) {i : Nat} (h : i < n) :
    r.index i = if r.tail + i < n then r.tail + i else r.tail + i - n := by
  have ht := r.tail_le
  unfold index
  split
  · exact Nat.mod_eq_of_lt ‹_›
  · rw [Nat.mod_eq_sub_mod (by omega), Nat.mod_eq_of_lt (by omega)]

theorem index_injective (r : Ring α n) {i j : Nat} (hi : i < n) (hj : j < n)
    (h : r.index i = r.index j) : i = j := by
  have ht := r.tail_le
  rw [r.index_eq hi, r.index_eq hj] at h
  split at h <;> split at h <;> omega

theorem push_eq_error_iff {r : Ring α n} {a : α} {e : QueueError} :
    r.push a = .error e ↔ e = .full ∧ r.toList.length = n := by
  by_cases h : r.count = n <;> simp [push, h, eq_comm]

theorem pop_eq_error_iff {r : Ring α n} {e : QueueError} :
    r.pop = .error e ↔ e = .empty ∧ r.toList = [] := by
  rw [← List.length_eq_zero_iff, length_toList]
  by_cases h : r.count = 0 <;> simp [pop, h, eq_comm]

theorem toList_push {r s : Ring α n} {a : α} (h : r.push a = .ok s) :
    s.toList = r.toList ++ [a] := by
  by_cases hn : r.count = n
  · simp [push, hn] at h
  simp only [push, hn, dite_false, Except.ok.injEq] at h
  subst h
  have hle := r.count_le
  have hh : r.head = r.index r.count := r.head_eq
  apply List.ext_getElem
  · simp
  · intro i h1 h2
    simp only [length_toList] at h1
    rw [List.getElem_append]
    simp only [toList, List.getElem_ofFn, List.length_ofFn, slot, Vector.getElem_set]
    change (if r.head = r.index i then a else r.slot (r.index i) _) = _
    split
    · rename_i hi
      have hi : r.count = i := r.index_injective (by omega) (by omega) (hh ▸ hi)
      simp [hi]
    · rename_i hi
      have hi : i < r.count := by
        refine Nat.lt_of_le_of_ne (by omega) fun he => hi ?_
        rw [hh, he]
      rw [dif_pos hi]
      rfl

theorem toList_pop {r s : Ring α n} {a : α} (h : r.pop = .ok (a, s)) :
    r.toList = a :: s.toList := by
  by_cases hz : r.count = 0
  · simp [pop, hz] at h
  simp only [pop, hz, dite_false, Except.ok.injEq, Prod.mk.injEq] at h
  obtain ⟨rfl, rfl⟩ := h
  have hle := r.count_le
  have ht := r.tail_lt hz
  apply List.ext_getElem
  · simp
    omega
  · intro i h1 h2
    simp only [length_toList] at h1
    cases i with
    | zero => simp [toList, index, Nat.mod_eq_of_lt ht]
    | succ i =>
      simp only [toList, List.getElem_ofFn, List.getElem_cons_succ, slot, index]
      congr 1
      rw [Nat.mod_add_mod]
      congr 1
      omega

theorem peek?_eq_head? (r : Ring α n) : r.peek? = r.toList.head? := by
  by_cases hz : r.count = 0
  · have : r.toList = [] := List.length_eq_zero_iff.1 (by simpa using hz)
    simp [peek?, hz, this]
  · have ht := r.tail_lt hz
    have hl : 0 < r.count := by omega
    simp [peek?, hz, List.head?_eq_getElem?, toList, index, Nat.mod_eq_of_lt ht, hl]

end Ring

end PolledUart
