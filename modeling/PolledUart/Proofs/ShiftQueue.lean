import PolledUart.Proofs.NamedRuns
import PolledUart.ShiftWord

/-!
# A shift word is a queue of four bytes

However bytes are pushed and popped, a shift word replies as the list of its bytes does, which
takes four at most. Its word has nothing above these bytes, so the bytes determine it. With checked
arithmetic a shift by the width of a word or a difference below zero would be a fault. No run
faults.
-/

set_option autoImplicit false

namespace PolledUart

inductive ShiftCommand where
  | load (word : Word)
  | push (byte : UInt8)
  | pop
  | take
  | clear
  | peek
  | length
  | isEmpty
  | isFull
  | fullWord

/-- Replies of a queue of bytes; what is taken out as a whole is a state of the queue. -/
inductive ShiftReply (σ : Type) where
  | done
  | flag (value : Bool)
  | byte (byte : Option UInt8)
  | count (count : Nat)
  | word (word : Option Word)
  | taken (state : σ)
  deriving DecidableEq, Repr

def ShiftReply.map {σ τ : Type} (view : σ → τ) : ShiftReply σ → ShiftReply τ
  | .done => .done
  | .flag x => .flag x
  | .byte x => .byte x
  | .count x => .count x
  | .word x => .word x
  | .taken x => .taken (view x)

/-- A queue as the list of its bytes, first in first, four at most. -/
def FourBytes.execute (held : List UInt8) : ShiftCommand → ShiftReply (List UInt8) × List UInt8
  | .load word => (.done, word.bytes)
  | .push byte => if held.length < 4 then (.flag true, held ++ [byte]) else (.flag false, held)
  | .pop => (.byte held.head?, held.tail)
  | .take => (.taken held, [])
  | .clear => (.done, [])
  | .peek => (.byte held.head?, held)
  | .length => (.count held.length, held)
  | .isEmpty => (.flag held.isEmpty, held)
  | .isFull => (.flag (held.length == 4), held)
  | .fullWord => (.word (if held.length = 4 then some (Word.ofBytes held) else none), held)

namespace Word

def shiftUp? (w : Word) (distance : Nat) : Option Word :=
  if distance < 32 then some (w <<< UInt32.ofNat distance) else none

def shiftDown? (w : Word) (distance : Nat) : Option Word :=
  if distance < 32 then some (w >>> UInt32.ofNat distance) else none

end Word

def difference? (a b : Nat) : Option Nat := if b ≤ a then some (a - b) else none

namespace ShiftWord

def execute (s : ShiftWord) : ShiftCommand → ShiftReply ShiftWord × ShiftWord
  | .load word => (.done, .ofWord word)
  | .push byte =>
    match s.push? byte with
    | none => (.flag false, s)
    | some t => (.flag true, t)
  | .pop =>
    match s.pop? with
    | none => (.byte none, s)
    | some (byte, t) => (.byte (some byte), t)
  | .take => (.taken s.take.1, s.take.2)
  | .clear => (.done, .empty)
  | .peek => (.byte s.peek?, s)
  | .length => (.count s.len, s)
  | .isEmpty => (.flag s.isEmpty, s)
  | .isFull => (.flag s.isFull, s)
  | .fullWord => (.word s.fullWord?, s)

def dropLow? (word : Word) (len : Nat) : Option ShiftWord :=
  match difference? len 1 with
  | none => none
  | some 0 => some .empty
  | some (rest + 1) => (word.shiftDown? 8).map fun word => .part word (rest + 1)

/-- The command with checked arithmetic; a fault has no reply. Only a push above held bytes and a
pop compute anything. -/
def executeChecked (s : ShiftWord) : ShiftCommand → Option (ShiftReply ShiftWord) × ShiftWord
  | .push byte =>
    match s with
    | .empty => (some (.flag true), .part byte.toUInt32 1)
    | .part word len =>
      match Word.shiftUp? byte.toUInt32 (8 * len) with
      | none => (none, s)
      | some high =>
        (some (.flag true),
          if len + 1 = Word.size then .full (word ||| high) else .part (word ||| high) (len + 1))
    | .full _ => (some (.flag false), s)
  | .pop =>
    match s with
    | .empty => (some (.byte none), s)
    | .part word len => popChecked word len
    | .full word => popChecked word Word.size
  | command => (some (s.execute command).1, (s.execute command).2)
where
  popChecked (word : Word) (len : Nat) : Option (ShiftReply ShiftWord) × ShiftWord :=
    match dropLow? word len with
    | none => (none, s)
    | some t => (some (.byte (some word.toUInt8)), t)

theorem dropLow?_succ (word : Word) (len : Nat) :
    dropLow? word (len + 1) = some (dropLow word len) := by
  cases len <;> rfl

theorem executeChecked_push {s : ShiftWord} (h : s.Canonical) (byte : UInt8) :
    s.executeChecked (.push byte) =
      (some (s.execute (.push byte)).1, (s.execute (.push byte)).2) := by
  match s, h with
  | .empty, _ => rfl
  | .full _, _ => rfl
  | .part word len, ⟨_, h3, _⟩ =>
    have hlt : 8 * len < 32 := by omega
    simp only [executeChecked, Word.shiftUp?, if_pos hlt, execute, push?, UInt32.ofNat_mul]
    rfl

theorem executeChecked_pop {s : ShiftWord} (h : s.Canonical) :
    s.executeChecked .pop = (some (s.execute .pop).1, (s.execute .pop).2) := by
  match s, h with
  | .empty, _ => rfl
  | .full _, _ => rfl
  | .part word (len + 1), _ =>
    simp only [executeChecked, executeChecked.popChecked, dropLow?_succ, execute, pop?,
      Nat.add_sub_cancel]

/-- On a canonical shift word no command faults. -/
theorem execute_checked {s : ShiftWord} (h : s.Canonical) (command : ShiftCommand) :
    s.executeChecked command = (some (s.execute command).1, (s.execute command).2) := by
  cases command with
  | push byte => exact executeChecked_push h byte
  | pop => exact executeChecked_pop h
  | load | take | clear | peek | length | isEmpty | isFull | fullWord => rfl

theorem execute_canonical {s : ShiftWord} (h : s.Canonical) (command : ShiftCommand) :
    (s.execute command).2.Canonical := by
  cases command with
  | push byte =>
    have hpush := canonical_push h byte
    rcases hp : s.push? byte with _ | t
    · simpa [execute, hp] using h
    · simpa [execute, push, hp] using hpush
  | pop =>
    rcases hp : s.pop? with _ | ⟨byte, t⟩
    · simpa [execute, hp] using h
    · simpa [execute, hp] using canonical_pop h hp
  | load | take | clear => trivial
  | peek | length | isEmpty | isFull | fullWord => exact h

theorem peek?_eq_head? {s : ShiftWord} (h : s.Canonical) : s.peek? = s.bytes.head? := by
  match s, h with
  | .empty, _ | .full _, _ => rfl
  | .part word (len + 1), _ => rfl

theorem fullWord?_eq {s : ShiftWord} (h : s.Canonical) :
    s.fullWord? = if s.bytes.length = 4 then some (Word.ofBytes s.bytes) else none := by
  match s, h with
  | .empty, _ => rfl
  | .full word, _ => simp [fullWord?, Word.ofBytes_bytes]
  | .part word len, ⟨_, h3, _⟩ =>
    have hne : min len 4 ≠ 4 := by omega
    simp [fullWord?, bytes, hne]

/-- What a shift word does is what the list of its bytes does. -/
theorem execute_bytes {s : ShiftWord} (h : s.Canonical) (command : ShiftCommand) :
    FourBytes.execute s.bytes command =
      ((s.execute command).1.map bytes, (s.execute command).2.bytes) := by
  have hlen := length_bytes h
  have hle := len_le h
  have hfull := isFull_iff_len h
  cases command with
  | push byte =>
    rcases hp : s.push? byte with _ | t
    · have hfour := hfull.1 (push?_eq_none_iff.1 hp)
      simp [FourBytes.execute, execute, ShiftReply.map, hp, hlen, hfour]
    · have hroom : s.isFull = false := by
        rw [Bool.eq_false_iff]
        intro hf
        rw [push?_eq_none_iff.2 hf] at hp
        cases hp
      have hlt : s.bytes.length < 4 := by
        rw [Bool.eq_false_iff, ne_eq, hfull] at hroom
        omega
      have hbytes := bytes_push h hroom byte
      rw [push, hp, Option.getD_some] at hbytes
      simp only [FourBytes.execute, execute, ShiftReply.map, hp, if_pos hlt, hbytes]
  | pop =>
    rcases hp : s.pop? with _ | ⟨byte, t⟩
    · rw [pop?_eq_none_iff.1 hp]
      rfl
    · simp [FourBytes.execute, execute, ShiftReply.map, hp, bytes_pop h hp]
  | peek => simp only [FourBytes.execute, execute, ShiftReply.map, peek?_eq_head? h]
  | length => simp only [FourBytes.execute, execute, ShiftReply.map, hlen]
  | isEmpty =>
    have hempty : s.bytes.isEmpty = s.isEmpty := by
      rw [Bool.eq_iff_iff, isEmpty_iff h, List.isEmpty_iff]
    simp only [FourBytes.execute, execute, ShiftReply.map, hempty]
  | isFull =>
    have hfour : (s.bytes.length == 4) = s.isFull := by
      rw [Bool.eq_iff_iff, hfull, hlen, beq_iff_eq]
    simp only [FourBytes.execute, execute, ShiftReply.map, hfour]
  | fullWord => simp only [FourBytes.execute, execute, ShiftReply.map, fullWord?_eq h]
  | load | take | clear => rfl

theorem bytes_execute {s : ShiftWord} (h : s.Canonical) (command : ShiftCommand) :
    (s.execute command).2.bytes = (FourBytes.execute s.bytes command).2 := by
  rw [execute_bytes h]

/-- The canonical shift word of at most four bytes. -/
def ofBytes (held : List UInt8) : ShiftWord :=
  if held.length = 0 then .empty
  else if held.length < 4 then .part (Word.ofBytes held) held.length
  else .full (Word.ofBytes held)

theorem canonical_ofBytes (held : List UInt8) : (ofBytes held).Canonical := by
  unfold ofBytes
  split
  · trivial
  · split
    · exact ⟨by omega, by omega, Word.toNat_ofBytes_lt held⟩
    · trivial

theorem bytes_ofBytes {held : List UInt8} (h : held.length ≤ 4) : (ofBytes held).bytes = held := by
  have htake := Word.take_bytes_ofBytes h
  unfold ofBytes
  split
  · exact (List.length_eq_zero_iff.1 ‹_›).symm
  · split
    · exact htake
    · have hfour : held.length = 4 := by omega
      rw [hfour, List.take_of_length_le (by simp)] at htake
      exact htake

def after (s : ShiftWord) (commands : List ShiftCommand) : ShiftWord :=
  commands.foldl (fun s command => (s.execute command).2) s

theorem after_canonical {s : ShiftWord} (h : s.Canonical) (commands : List ShiftCommand) :
    (s.after commands).Canonical := by
  induction commands generalizing s with
  | nil => exact h
  | cons first rest ih => exact ih (execute_canonical h first)

theorem after_append (s : ShiftWord) (commands rest : List ShiftCommand) :
    s.after (commands ++ rest) = (s.after commands).after rest := List.foldl_append

theorem bytes_after_pops {s : ShiftWord} (h : s.Canonical) (count : Nat) :
    (s.after (List.replicate count .pop)).bytes = s.bytes.drop count := by
  induction count generalizing s with
  | zero => rfl
  | succ count ih =>
    have hpop : (s.execute .pop).2.bytes = s.bytes.tail := bytes_execute h .pop
    rw [← List.drop_tail, ← hpop]
    exact ih (execute_canonical h .pop)

theorem bytes_after_pushes {s : ShiftWord} (h : s.Canonical) (data : List UInt8) :
    (s.after (data.map .push)).bytes = (s.bytes ++ data).take 4 := by
  induction data generalizing s with
  | nil =>
    have hle : s.bytes.length ≤ 4 := length_bytes h ▸ len_le h
    rw [List.append_nil, List.take_of_length_le hle]
    rfl
  | cons byte rest ih =>
    have hrest := ih (execute_canonical h (.push byte))
    rw [bytes_execute h, FourBytes.execute] at hrest
    refine Eq.trans hrest ?_
    split
    · rw [List.append_assoc, List.singleton_append]
    · have hle := length_bytes h ▸ len_le h
      have hfour : s.bytes.length = 4 := by omega
      rw [List.take_left' hfour, List.take_left' hfour]

/-- In any run of shift words, copies included, the replies and contents are those of lists of four
bytes at most, no shift is by the width of a word or more and no difference is below zero. Each
shift word is canonical, and its bytes determine it. So a word of which some bytes were popped goes
on with the bytes pushed then, right behind those that were left. -/
theorem shift_words_queue_bytes :
    (∀ commands : List (Named ShiftCommand),
      let words := Named.run ShiftWord.execute (fun _ => .empty) commands
      Named.run FourBytes.execute (fun _ => []) commands =
          (words.1.map (ShiftReply.map bytes), fun i => (words.2 i).bytes) ∧
        Named.run ShiftWord.executeChecked (fun _ => .empty) commands =
          (words.1.map some, words.2) ∧
        ∀ i, (words.2 i).Canonical ∧
          ∀ j, (words.2 i).bytes = (words.2 j).bytes ↔ words.2 i = words.2 j) ∧
      ∀ (word : Word) (popped : Nat) (data : List UInt8),
        (ofWord word).after (List.replicate popped .pop ++ data.map .push) =
          ofBytes ((word.bytes.drop popped ++ data).take 4) := by
  have hstart : ∀ _ : Nat, Canonical .empty := fun _ => trivial
  have hkeeps : ∀ (s : ShiftWord) command, s.Canonical → (s.execute command).2.Canonical :=
    fun _ command h => execute_canonical h command
  refine ⟨fun commands => ⟨?_, ?_, fun i => ⟨?_, fun j => ⟨?_, ?_⟩⟩⟩, fun word popped data => ?_⟩
  · exact Named.run_view_of_keeps bytes (ShiftReply.map bytes) hkeeps
      (fun _ command h => execute_bytes h command) hstart commands
  · exact Named.run_view_of_keeps id some hkeeps (fun _ command h => execute_checked h command)
      hstart commands
  · exact Named.run_keeps hkeeps hstart commands i
  · exact eq_of_bytes (Named.run_keeps hkeeps hstart commands i)
      (Named.run_keeps hkeeps hstart commands j)
  · exact congrArg bytes
  · have hpops := after_canonical (canonical_full word) (List.replicate popped .pop)
    have hle : ((word.bytes.drop popped ++ data).take 4).length ≤ 4 := List.length_take_le 4 _
    rw [after_append]
    apply eq_of_bytes (after_canonical hpops _) (canonical_ofBytes _)
    rw [bytes_ofBytes hle, bytes_after_pushes hpops, bytes_after_pops (canonical_full word),
      bytes_full]

/-- Three bytes out and one in: the one that was left and the new one, and nothing above them. -/
example : (ofWord 0x44332211).after [.pop, .pop, .pop, .push 0x55] = .part 0x5544 2 := by decide

end ShiftWord

end PolledUart
