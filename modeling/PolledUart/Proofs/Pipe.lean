import Mathlib.Algebra.Ring.Nat
import PolledUart.WordPipe

/-!
# Ready pipes

A pipe is ready when its queue is started, its shift words are canonical and the draining word
is not complete. Every operation keeps a pipe ready, takes in or gives out exactly as many bytes
as fit or are there, and can refuse for no other reason than a full or an empty queue.
-/

set_option autoImplicit false

namespace PolledUart.ShiftWord

theorem len_push {s : ShiftWord} (h : s.Canonical) (hf : s.isFull = false) (byte : UInt8) :
    (s.push byte).len = s.len + 1 := by
  rw [← length_bytes (canonical_push h byte), bytes_push h hf, ← length_bytes h]
  simp

theorem isFull_pop {s t : ShiftWord} {byte : UInt8} (h : s.pop? = some (byte, t)) :
    t.isFull = false := by
  have hdrop (w : Word) (len : Nat) : (dropLow w len).isFull = false := by
    cases len <;> rfl
  cases s with
  | empty => cases h
  | part w len =>
    cases h
    exact hdrop w _
  | full w =>
    cases h
    exact hdrop w _

theorem pop?_of_not_empty {s : ShiftWord} (h : s.isEmpty = false) :
    ∃ byte t, s.pop? = some (byte, t) := by
  cases s with
  | empty => cases h
  | part w len => exact ⟨_, _, rfl⟩
  | full w => exact ⟨_, _, rfl⟩

end PolledUart.ShiftWord

namespace PolledUart.WordPipe

variable {n : Nat}

structure Ready (p : WordPipe n) : Prop extends p.Canonical where
  started : p.queue.initialized = true
  loose : p.draining.isFull = false

/-- How many more bytes can be pushed. -/
def room (p : WordPipe n) : Nat :=
  Word.size * (n - p.queue.size) + (Word.size - p.filling.len)

theorem room_pos_of_empty {p : WordPipe n} (h : p.Ready) (hb : p.bytes = []) : 0 < p.room := by
  have hf : p.filling.bytes = [] := by
    simp only [bytes, List.append_eq_nil_iff] at hb
    exact hb.2
  have hl := ShiftWord.length_bytes h.filling
  rw [hf] at hl
  simp only [room, ← hl, List.length_nil, Word.size]
  omega

theorem room_eq_zero_iff {p : WordPipe n} (h : p.Ready) :
    p.room = 0 ↔ p.filling.isFull = true ∧ p.queue.toList.length = n := by
  have hq := p.queue.size_le
  have hl := ShiftWord.len_le h.filling
  rw [ShiftWord.isFull_iff_len h.filling, ← WordQueue.size_eq_length]
  simp only [room, Word.size]
  omega

theorem flush_eq_error_iff {p : WordPipe n} (h : p.Ready) {e : QueueError} :
    p.flush = .error e ↔ e = .full ∧ p.room = 0 := by
  rw [room_eq_zero_iff h]
  cases hf : p.filling with
  | empty => simp [flush, hf, ShiftWord.fullWord?, ShiftWord.isFull]
  | part w len => simp [flush, hf, ShiftWord.fullWord?, ShiftWord.isFull]
  | full w =>
    simp only [flush, hf, ShiftWord.fullWord?, ShiftWord.isFull, true_and,
      ← WordQueue.push_eq_error_iff (w := w) h.started]
    cases p.queue.push w <;> simp

theorem flush_ready {p q : WordPipe n} (h : p.Ready) (hq : p.flush = .ok q) :
    q.Ready ∧ q.draining = p.draining ∧ q.room = p.room := by
  have hc := canonical_flush h.toCanonical hq
  unfold flush at hq
  split at hq
  · cases hq
    exact ⟨h, rfl, rfl⟩
  · rename_i w hw
    split at hq
    · cases hq
    · rename_i queue hp
      cases hq
      obtain ⟨-, hs, hl⟩ := WordQueue.toList_push hp
      have hle := queue.size_le
      have hsize : queue.size = p.queue.size + 1 := by
        simp [WordQueue.size_eq_length, hl]
      have hlen : p.filling.len = 4 := by
        rw [ShiftWord.fullWord?_eq_some_iff.1 hw]
        rfl
      have hempty : ShiftWord.empty.len = 0 := rfl
      -- The queue loses four places to the word that left the filling word.
      have hroom : room { p with queue, filling := .empty } = p.room := by
        simp only [room, hsize, hlen, hempty, Word.size]
        omega
      exact ⟨⟨hc, hs, h.loose⟩, rfl, hroom⟩

theorem push_eq_error_iff {p : WordPipe n} (h : p.Ready) {byte : UInt8} {e : QueueError} :
    p.push byte = .error e ↔ e = .full ∧ p.room = 0 := by
  rw [← flush_eq_error_iff h]
  unfold push
  cases p.flush <;> simp

theorem push_ready {p q : WordPipe n} {byte : UInt8} (h : p.Ready) (hq : p.push byte = .ok q) :
    q.Ready ∧ q.draining = p.draining ∧ q.room + 1 = p.room := by
  unfold push at hq
  split at hq
  · cases hq
  · rename_i v hv
    cases hq
    obtain ⟨hr, hd, hroom⟩ := flush_ready h hv
    have hf := isFull_flush hv
    have hfilling := ShiftWord.canonical_push hr.filling byte
    have hle := ShiftWord.len_le hfilling
    have hleft : room { v with filling := v.filling.push byte } + 1 = p.room := by
      rw [← hroom]
      simp only [room, ShiftWord.len_push hr.filling hf, Word.size] at hle ⊢
      omega
    exact ⟨⟨⟨hfilling, hr.draining⟩, hr.started, hr.loose⟩, hd, hleft⟩

theorem pushAll_ready {p : WordPipe n} (h : p.Ready) (data : List UInt8) :
    ∃ q, p.pushAll data = (min data.length p.room,
        if data.length ≤ p.room then none else some .full, q) ∧
      q.Ready ∧ q.draining = p.draining ∧ q.room = p.room - data.length := by
  induction data generalizing p with
  | nil => exact ⟨p, by simp [pushAll], h, rfl, by simp⟩
  | cons byte rest ih =>
    rcases hp : p.push byte with e | v
    · obtain ⟨he, hroom⟩ := (push_eq_error_iff h).1 hp
      exact ⟨p, by simp [pushAll, hp, he, hroom], h, rfl, by omega⟩
    · obtain ⟨hv, hd, hroom⟩ := push_ready h hp
      obtain ⟨q, hq, hr, hdq, hleft⟩ := ih hv
      have hmin : min rest.length v.room + 1 = min (rest.length + 1) p.room := by omega
      have hfit : rest.length ≤ v.room ↔ rest.length + 1 ≤ p.room := by omega
      have hless : q.room = p.room - (byte :: rest).length := by
        simp only [List.length_cons]
        omega
      refine ⟨q, ?_, hr, hdq.trans hd, hless⟩
      simp only [pushAll, hp, hq, List.length_cons, hmin, hfit]

theorem pushWord_ready {p : WordPipe n} (h : p.Ready) (word : Word) :
    (p.pushWord word = .error .full ∧ p.queue.toList.length = n) ∨
      ∃ q, p.pushWord word = .ok q ∧ q.Ready ∧
        q.queue.toList = p.queue.toList ++ [word] ∧ q.filling = p.filling ∧
        q.draining = p.draining := by
  rcases hq : p.queue.push word with e | queue
  · obtain ⟨rfl, hn⟩ := (WordQueue.push_eq_error_iff h.started).1 hq
    exact .inl ⟨by simp [pushWord, hq], hn⟩
  · obtain ⟨-, hs, hl⟩ := WordQueue.toList_push hq
    exact .inr ⟨{ p with queue }, by simp [pushWord, hq],
      ⟨⟨h.filling, h.draining⟩, hs, h.loose⟩, hl, rfl, rfl⟩

theorem load_ready {p : WordPipe n} (h : p.Ready) :
    (p.bytes = [] ∧ p.load = .error .empty) ∨
      ∃ q byte draining, p.load = .ok q ∧ q.draining.pop? = some (byte, draining) ∧
        Ready { q with draining } ∧ p.bytes = byte :: bytes { q with draining } := by
  -- Whatever loading returned, the draining word is canonical and gives up its first byte.
  have hpop (q : WordPipe n) (hl : p.load = .ok q) (hc : q.Canonical)
      (hs : q.queue.initialized = true) (hd : q.draining.isEmpty = false) :
      ∃ q byte draining, p.load = .ok q ∧ q.draining.pop? = some (byte, draining) ∧
        Ready { q with draining } ∧ p.bytes = byte :: bytes { q with draining } := by
    obtain ⟨byte, draining, ht⟩ := ShiftWord.pop?_of_not_empty hd
    have hready : Ready { q with draining } :=
      ⟨⟨hc.filling, ShiftWord.canonical_pop hc.draining ht⟩, hs, ShiftWord.isFull_pop ht⟩
    have hbytes : p.bytes = byte :: bytes { q with draining } := by
      rw [← bytes_load hl]
      simp [bytes, ShiftWord.bytes_pop hc.draining ht]
    exact ⟨q, byte, draining, hl, ht, hready, hbytes⟩
  by_cases hd : p.draining.isEmpty = true
  · by_cases hf : (p.queue.isEmpty && !p.filling.isEmpty) = true
    · refine .inr (hpop { p with draining := p.filling, filling := .empty } ?_
        ⟨ShiftWord.canonical_empty, h.filling⟩ h.started ?_)
      · simp [load, hd, hf, ShiftWord.take]
      · simpa using (Bool.and_eq_true_iff.1 hf).2
    · rcases hq : p.queue.pop with e | ⟨word, queue⟩
      · obtain ⟨rfl, hl⟩ := (WordQueue.pop_eq_error_iff h.started).1 hq
        have he := p.queue.isEmpty_iff.2 hl
        have hfill : p.filling.isEmpty = true := by simpa [he] using hf
        refine .inl ⟨(isEmpty_iff h.toCanonical).1 ?_, ?_⟩
        · simp [isEmpty, hd, he, hfill]
        · simp [load, hd, hf, hq]
      · obtain ⟨-, hs, -⟩ := WordQueue.toList_pop hq
        refine .inr (hpop { p with queue, draining := .ofWord word } ?_
          ⟨h.filling, ShiftWord.canonical_full word⟩ hs rfl)
        simp [load, hd, hf, hq]
  · exact .inr (hpop p (by simp [load, hd]) h.toCanonical h.started (by simpa using hd))

theorem pop_ready {p : WordPipe n} (h : p.Ready) :
    (p.bytes = [] ∧ p.pop = .ok none) ∨
      ∃ byte q, p.pop = .ok (some (byte, q)) ∧ q.Ready ∧ p.bytes = byte :: q.bytes := by
  rcases hd : p.draining.pop? with _ | ⟨byte, draining⟩
  · have hde := ShiftWord.pop?_eq_none_iff.1 hd
    rcases hq : p.queue.pop with e | ⟨word, queue⟩
    · obtain ⟨rfl, hl⟩ := (WordQueue.pop_eq_error_iff h.started).1 hq
      rcases hf : p.filling.pop? with _ | ⟨byte, filling⟩
      · have hnil : p.bytes = [] := by
          simp [bytes, hde, ShiftWord.pop?_eq_none_iff.1 hf, WordQueue.bytes, hl]
        exact .inl ⟨hnil, by simp [pop, hd, hq, hf]⟩
      · have hp : p.pop = .ok (some (byte, { p with filling })) := by simp [pop, hd, hq, hf]
        exact .inr ⟨byte, _, hp, ⟨⟨ShiftWord.canonical_pop h.filling hf, h.draining⟩, h.started,
          h.loose⟩, bytes_pop h.toCanonical hp⟩
    · obtain ⟨-, hs, -⟩ := WordQueue.toList_pop hq
      obtain ⟨byte, draining, hw⟩ :=
        ShiftWord.pop?_of_not_empty (s := .ofWord word) rfl
      have hp : p.pop = .ok (some (byte, { p with queue, draining })) := by
        simp [pop, hd, hq, hw]
      exact .inr ⟨byte, _, hp, ⟨⟨h.filling,
        ShiftWord.canonical_pop (ShiftWord.canonical_full word) hw⟩, hs,
        ShiftWord.isFull_pop hw⟩, bytes_pop h.toCanonical hp⟩
  · have hp : p.pop = .ok (some (byte, { p with draining })) := by simp [pop, hd]
    exact .inr ⟨byte, _, hp, ⟨⟨h.filling, ShiftWord.canonical_pop h.draining hd⟩, h.started,
      ShiftWord.isFull_pop hd⟩, bytes_pop h.toCanonical hp⟩

theorem take_ready {p : WordPipe n} (h : p.Ready) (max : Nat) :
    ∃ q, p.take max = (p.bytes.take max, none, q) ∧ q.Ready ∧ q.bytes = p.bytes.drop max := by
  induction max generalizing p with
  | zero => exact ⟨p, by simp [take], h, by simp⟩
  | succ max ih =>
    rcases pop_ready h with ⟨hb, hp⟩ | ⟨byte, v, hp, hv, hb⟩
    · exact ⟨p, by simp [take, hp, hb], h, by simp [hb]⟩
    · obtain ⟨q, hq, hr, hd⟩ := ih hv
      exact ⟨q, by simp [take, hp, hq, hb], hr, by simp [hd, hb]⟩

/-- A word taken out past the draining word was next behind it. -/
theorem popWord_ready {p : WordPipe n} (h : p.Ready) :
    (p.popWord = .error .empty ∧ p.queue.toList = [] ∧ p.filling.isFull = false) ∨
      ∃ word q, p.popWord = .ok (word, q) ∧ q.Ready ∧ q.draining = p.draining ∧
        p.queue.bytes ++ p.filling.bytes = word.bytes ++ (q.queue.bytes ++ q.filling.bytes) := by
  rcases hq : p.queue.pop with e | ⟨word, queue⟩
  · obtain ⟨rfl, hl⟩ := (WordQueue.pop_eq_error_iff h.started).1 hq
    have he := p.queue.isEmpty_iff.2 hl
    rcases hf : p.filling.fullWord? with _ | word
    · exact .inl ⟨by simp [popWord, he, hf, hq], hl, ShiftWord.isFull_eq_false_iff.2 hf⟩
    · refine .inr ⟨word, { p with filling := .empty }, by simp [popWord, he, hf],
        ⟨⟨ShiftWord.canonical_empty, h.draining⟩, h.started, h.loose⟩, rfl, ?_⟩
      simp [ShiftWord.fullWord?_eq_some_iff.1 hf, WordQueue.bytes, hl]
  · obtain ⟨-, hs, hl⟩ := WordQueue.toList_pop hq
    have he : p.queue.isEmpty = false := by
      rw [Bool.eq_false_iff, ne_eq, WordQueue.isEmpty_iff, hl]
      simp
    refine .inr ⟨word, { p with queue }, by simp [popWord, he, hq],
      ⟨⟨h.filling, h.draining⟩, hs, h.loose⟩, rfl, ?_⟩
    simp [WordQueue.bytes_pop hq]

end PolledUart.WordPipe
