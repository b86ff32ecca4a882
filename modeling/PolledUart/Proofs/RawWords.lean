import PolledUart.Proofs.Sending

/-!
# Whole words past the bytes

A word can be queued ahead of the bytes that still gather, and taken out past the bytes that
already go out. Both agree with the byte interface: a word goes in as its four bytes would if
nothing gathers, and comes out as the next four bytes behind the draining word. What can be taken
out is the queued words and then a complete filling word, and the count of sendable words says
how many these are.
-/

set_option autoImplicit false

namespace PolledUart

namespace WordPipe

variable {n : Nat} {p q : WordPipe n}

theorem pushAll_of_fits (h : p.filling.Canonical) {data : List UInt8}
    (hfits : p.filling.len + data.length ≤ 4) :
    ∃ filling, p.pushAll data = (data.length, none, { p with filling }) ∧
      filling.Canonical ∧ filling.bytes = p.filling.bytes ++ data := by
  induction data generalizing p with
  | nil => exact ⟨p.filling, rfl, h, (List.append_nil _).symm⟩
  | cons byte rest ih =>
    rw [List.length_cons] at hfits
    have hfull : p.filling.isFull = false := by
      rw [Bool.eq_false_iff, ne_eq, ShiftWord.isFull_iff_len h]
      omega
    have hpush : p.push byte = .ok { p with filling := p.filling.push byte } := by
      simp only [push, flush, ShiftWord.isFull_eq_false_iff.1 hfull]
    have hlen := ShiftWord.len_push h hfull byte
    obtain ⟨filling, hq, hc, hb⟩ :=
      ih (p := { p with filling := p.filling.push byte }) (ShiftWord.canonical_push h byte)
        (by dsimp only; omega)
    refine ⟨filling, ?_, hc, ?_⟩
    · simp only [pushAll, hpush, hq, List.length_cons]
    · rw [hb, ShiftWord.bytes_push h hfull, List.append_assoc, List.singleton_append]

/-- The words that can be taken out past the draining word, next first. -/
def pending (p : WordPipe n) : List Word := p.queue.toList ++ p.filling.fullWord?.toList

theorem length_pending (p : WordPipe n) : p.pending.length = p.fullWords := by
  rw [pending, fullWords, List.length_append, WordQueue.size_eq_length]
  cases p.filling <;> rfl

theorem pending_eq_nil_iff :
    p.pending = [] ↔ p.queue.toList = [] ∧ p.filling.isFull = false := by
  rw [pending, List.append_eq_nil_iff, Option.toList_eq_nil_iff, ShiftWord.isFull_eq_false_iff]

theorem bytes_pending (p : WordPipe n) :
    p.pending.flatMap Word.bytes =
      (p.queue.bytes ++ p.filling.bytes).take (Word.size * p.pending.length) := by
  have hqueue : (p.queue.toList.flatMap Word.bytes).length = Word.size * p.queue.toList.length := by
    rw [← WordQueue.size_eq_length]
    exact p.queue.length_bytes
  rcases hf : p.filling.fullWord? with _ | word
  · rw [pending, hf, Option.toList_none, List.append_nil, WordQueue.bytes, List.take_left' hqueue]
  · have hall : p.pending.flatMap Word.bytes = p.queue.bytes ++ p.filling.bytes := by
      rw [pending, hf, ShiftWord.fullWord?_eq_some_iff.1 hf, List.flatMap_append]
      simp [WordQueue.bytes]
    have hlen : (p.queue.bytes ++ p.filling.bytes).length = Word.size * p.pending.length := by
      rw [pending, hf, ShiftWord.fullWord?_eq_some_iff.1 hf, List.length_append,
        WordQueue.length_bytes, WordQueue.size_eq_length]
      simp [Word.size, Nat.mul_add]
    rw [hall, List.take_of_length_le (Nat.le_of_eq hlen)]

theorem pushWord_of_isFull (h : p.Ready) (hf : p.queue.isFull = true) (word : Word) :
    p.pushWord word = .error .full := by
  have hpush := (WordQueue.push_eq_error_iff (w := word) h.started).2
    ⟨rfl, (WordQueue.isFull_iff _ h.started).1 hf⟩
  rw [pushWord, hpush]

theorem push_of_not_isFull (h : p.Ready) (hf : p.queue.isFull = false) (word : Word) :
    ∃ queue, p.queue.push word = .ok queue := by
  rcases hpush : p.queue.push word with cause | queue
  · have hfull := (WordQueue.push_eq_error_iff h.started).1 hpush
    rw [(WordQueue.isFull_iff _ h.started).2 hfull.2] at hf
    cases hf
  · exact ⟨queue, rfl⟩

theorem pending_popWord {word : Word} (h : p.popWord = .ok (word, q)) :
    p.pending = word :: q.pending ∧ (p.filling.isFull = false → q.filling = p.filling) := by
  unfold popWord at h
  split at h
  · rename_i v hempty hfull
    cases h
    -- Nothing is queued, so the complete filling word is the only pending one.
    have hnone := (WordQueue.isEmpty_iff _).1 hempty
    refine ⟨?_, fun hpart => ?_⟩
    · rw [pending, pending, hnone, hfull]
      rfl
    · rw [ShiftWord.isFull_eq_false_iff, hfull] at hpart
      cases hpart
  · split at h
    · cases h
    · rename_i v queue hpop
      cases h
      refine ⟨?_, fun _ => rfl⟩
      rw [pending, pending, (WordQueue.toList_pop hpop).2.2, List.cons_append]

theorem popWord_of_none (h : p.Ready) (hnone : p.pending = []) : p.popWord = .error .empty := by
  rcases popWord_ready h with ⟨hp, -⟩ | ⟨word, q, hp, -⟩
  · exact hp
  · rw [(pending_popWord hp).1] at hnone
    cases hnone

theorem popWord_of_some (h : p.Ready) (hsome : p.pending ≠ []) :
    ∃ word q, p.popWord = .ok (word, q) ∧
      word.bytes = (p.queue.bytes ++ p.filling.bytes).take 4 ∧
      q.queue.bytes ++ q.filling.bytes = (p.queue.bytes ++ p.filling.bytes).drop 4 ∧
      q.draining = p.draining ∧ (p.filling.isFull = false → q.filling = p.filling) := by
  rcases popWord_ready h with ⟨-, hnone⟩ | ⟨word, q, hp, -, hd, hb⟩
  · exact absurd (pending_eq_nil_iff.2 hnone) hsome
  · refine ⟨word, q, hp, ?_, ?_, hd, (pending_popWord hp).2⟩
    · rw [hb, List.take_left' (Word.length_bytes word)]
    · rw [hb, List.drop_left' (Word.length_bytes word)]

end WordPipe

namespace Transmitter

variable {words bytes : Nat} {t : Transmitter words bytes}

/-- While nothing gathers, the four bytes of a word that fits go where the word would go. -/
theorem write_bytes_of_word {word : Word} {queue : WordQueue words}
    (hf : t.pipe.filling = .empty) (hq : t.pipe.queue.push word = .ok queue) :
    t.write word.bytes = (.ok 4, { t with pipe := { t.pipe with queue } }) := by
  have hc : t.pipe.filling.Canonical := hf ▸ ShiftWord.canonical_empty
  have hfits : t.pipe.filling.len + word.bytes.length ≤ 4 := by
    rw [hf, Word.length_bytes]
    decide
  obtain ⟨filling, hp, hcf, hb⟩ := WordPipe.pushAll_of_fits hc hfits
  rw [hf, ShiftWord.bytes_empty, List.nil_append] at hb
  rw [ShiftWord.eq_of_bytes hcf (ShiftWord.canonical_full word) hb, Word.length_bytes] at hp
  have hflush : WordPipe.flush { t.pipe with filling := .full word } =
      .ok { t.pipe with queue } := by
    simp only [WordPipe.flush, ShiftWord.fullWord?, hq, hf]
  simp only [write, hp, hflush]

end Transmitter

namespace Driver

variable {μ R : Type} {ports words bytes : Nat} {s : Driver μ R ports words bytes}
  {d : Descriptor} {slot : Fin ports} {e : Entry ports}

theorem onTx_resolved (hr : s.resolve d .serial = .ok (slot, e)) {α : Type}
    (refusal : SetupError → α) (step : Transmitter words bytes → α × Transmitter words bytes) :
    s.onChannel d refusal (Channel.onTx step) = ⟨(step (s.channel e).tx).1,
      s.withChannel slot e { s.channel e with tx := (step (s.channel e).tx).2 }, []⟩ :=
  onChannel_resolved hr refusal _

theorem nextTxWord_resolved (hr : s.resolve d .serial = .ok (slot, e)) :
    s.nextTxWord d = match (s.channel e).tx.pipe.popWord with
      | .error cause => ⟨.error cause.onTransmit, s, []⟩
      | .ok (word, pipe) => ⟨.ok word,
          s.withChannel slot e { s.channel e with tx := { (s.channel e).tx with pipe } }, []⟩ := by
  have hsame := withChannel_channel (resolve_entries hr).1
  rw [nextTxWord, onTx_resolved hr, Transmitter.nextWord]
  rcases (s.channel e).tx.pipe.popWord with cause | ⟨word, pipe⟩
  · exact congrArg (Outcome.mk _ · []) hsame
  · rfl

theorem writeWord_resolved (hr : s.resolve d .serial = .ok (slot, e)) (word : Word) :
    s.writeWord d word = match (s.channel e).tx.pipe.pushWord word with
      | .error cause => ⟨.error cause.onTransmit, s, []⟩
      | .ok pipe => ⟨.ok (),
          s.withChannel slot e { s.channel e with tx := { (s.channel e).tx with pipe } }, []⟩ := by
  have hsame := withChannel_channel (resolve_entries hr).1
  rw [writeWord, onTx_resolved hr, Transmitter.writeWord]
  rcases (s.channel e).tx.pipe.pushWord word with cause | pipe
  · exact congrArg (Outcome.mk _ · []) hsame
  · rfl

theorem write_of_ok (hr : s.resolve d .serial = .ok (slot, e)) {data : List UInt8} {count : Nat}
    {tx : Transmitter words bytes} (hw : (s.channel e).tx.write data = (.ok count, tx)) :
    s.write d data = ⟨.ok count, s.withChannel slot e { s.channel e with tx }, []⟩ := by
  simp only [write, hr, Channel.onTx, hw]

variable [RegisterAccess R] [Mapper μ R]

/-- Taking words out again and again gives the pending ones in their order, and then none. -/
theorem run_nextTxWord (h : s.Invariant) (hr : s.resolve d .serial = .ok (slot, e)) (n : Nat) :
    (s.run (List.replicate n (.nextTxWord d))).1 =
      (((s.channel e).tx.pipe.pending.take n).map fun word => (.ok (.word word), [])) ++
        List.replicate (n - (s.channel e).tx.pipe.pending.length)
          (.error (.general (.capacity .txEmpty)), []) := by
  induction n generalizing s e with
  | zero => simp
  | succ n ih =>
    obtain ⟨he, hmode⟩ := resolve_entries hr
    have hnext := perform_invariant h (.nextTxWord d)
    rw [List.replicate_succ, run_cons]
    rcases WordPipe.popWord_ready (channel_ready h he hmode).tx with
      ⟨hp, hnone⟩ | ⟨word, pipe, hp, -⟩
    · have hstep : s.perform (.nextTxWord d) =
          ⟨.error (.general (.capacity .txEmpty)), s, []⟩ := by
        simp only [perform, nextTxWord_resolved hr, hp]
        rfl
      rw [hstep, ih h hr, WordPipe.pending_eq_nil_iff.2 hnone]
      simp [List.replicate_succ]
    · -- The rest of the run starts where one pending word fewer is left.
      let c : Channel words bytes := { s.channel e with tx := { (s.channel e).tx with pipe } }
      have hstep : s.perform (.nextTxWord d) = ⟨.ok (.word word), s.withChannel slot e c, []⟩ := by
        simp only [perform, nextTxWord_resolved hr, hp]
        rfl
      have hpending : (s.channel e).tx.pipe.pending = word :: c.tx.pipe.pending :=
        (WordPipe.pending_popWord hp).1
      rw [hstep] at hnext ⊢
      rw [ih hnext (resolve_withChannel hr c), channel_withChannel, hpending]
      simp

/-- A word is queued ahead of the gathering bytes if the queue has a place, as its four bytes would
be while none gathers. The next word out is the next four bytes behind the draining word, if a
word is queued or complete. Neither changes anything else, and both take nothing when they fail.
The sendable words are those that can be taken out one after the other, oldest first. -/
theorem raw_words_fit_bytes (h : s.Reachable) (hr : s.resolve d .serial = .ok (slot, e)) :
    let tx := (s.channel e).tx
    let waiting := tx.pipe.queue.bytes ++ tx.pipe.filling.bytes
    let left (pipe : WordPipe words) :=
      s.withChannel slot e { s.channel e with tx := { tx with pipe } }
    (∀ word, tx.pipe.queue.isFull = true →
        s.writeWord d word = ⟨.error (.capacity .txFull), s, []⟩) ∧
      (∀ word, tx.pipe.queue.isFull = false → ∃ queue,
        s.writeWord d word = ⟨.ok (), left { tx.pipe with queue }, []⟩ ∧
        queue.toList = tx.pipe.queue.toList ++ [word] ∧
        queue.bytes ++ tx.pipe.filling.bytes =
          tx.pipe.queue.bytes ++ word.bytes ++ tx.pipe.filling.bytes ∧
        (tx.pipe.filling = .empty →
          s.write d word.bytes = ⟨.ok 4, left { tx.pipe with queue }, []⟩)) ∧
      (tx.pipe.queue.isEmpty = true ∧ tx.pipe.filling.isFull = false →
        s.nextTxWord d = ⟨.error (.capacity .txEmpty), s, []⟩) ∧
      (tx.pipe.queue.isEmpty = false ∨ tx.pipe.filling.isFull = true → ∃ word pipe,
        s.nextTxWord d = ⟨.ok word, left pipe, []⟩ ∧
        word.bytes = waiting.take 4 ∧
        pipe.queue.bytes ++ pipe.filling.bytes = waiting.drop 4 ∧
        pipe.draining = tx.pipe.draining ∧
        (tx.pipe.filling.isFull = false → pipe.filling = tx.pipe.filling)) ∧
      tx.pipe.pending.length = s.sendableWords d ∧
      tx.pipe.pending.flatMap Word.bytes = waiting.take (4 * s.sendableWords d) ∧
      ∀ n, (s.run (List.replicate n (.nextTxWord d))).1 =
        ((tx.pipe.pending.take n).map fun word => (.ok (.word word), [])) ++
          List.replicate (n - s.sendableWords d) (.error (.general (.capacity .txEmpty)), []) := by
  intro tx waiting left
  obtain ⟨he, hmode⟩ := resolve_entries hr
  have hs := reachable_invariant h
  have hready : tx.pipe.Ready := (channel_ready hs he hmode).tx
  have hempty := WordPipe.pending_eq_nil_iff (p := tx.pipe)
  rw [← WordQueue.isEmpty_iff] at hempty
  have hsendable : tx.pipe.pending.length = s.sendableWords d := by
    have hcount := sendableWords_withChannel hr (s.channel e)
    rw [withChannel_channel he] at hcount
    rw [WordPipe.length_pending, hcount]
  refine ⟨fun word hfull => ?_, fun word hroom => ?_, fun hnone => ?_, fun hsome => ?_, hsendable,
    ?_, fun n => ?_⟩
  · rw [writeWord_resolved hr, WordPipe.pushWord_of_isFull hready hfull]
    rfl
  · obtain ⟨queue, hpush⟩ := WordPipe.push_of_not_isFull hready hroom word
    refine ⟨queue, ?_, (WordQueue.toList_push hpush).2.2, ?_, fun hfilling => ?_⟩
    · rw [writeWord_resolved hr, WordPipe.pushWord, hpush]
    · rw [WordQueue.bytes_push hpush]
    · exact write_of_ok hr (Transmitter.write_bytes_of_word hfilling hpush)
  · rw [nextTxWord_resolved hr, WordPipe.popWord_of_none hready (hempty.2 hnone)]
    rfl
  · have hpending : tx.pipe.pending ≠ [] := by
      rw [ne_eq, hempty]
      rcases hsome with hqueue | hfull
      · simp [hqueue]
      · simp [hfull]
    obtain ⟨word, pipe, hp, hword⟩ := WordPipe.popWord_of_some hready hpending
    refine ⟨word, pipe, ?_, hword⟩
    rw [nextTxWord_resolved hr, hp]
  · rw [WordPipe.bytes_pending, hsendable]
    rfl
  · rw [run_nextTxWord hs hr, hsendable]

theorem raw_words_fit_bytes_sample :
    let d := Descriptor.ofIndex 0
    let fresh := sample [7]
    let two := ((sample [7]).run [.write d [1, 2, 3, 4, 5, 6, 7, 8]]).2
    let one := ((sample [7]).run [.write d [1, 2, 3, 4, 5, 6, 7, 8], .transmit d 1]).2
    (fresh.writeWord d 0x04030201).state = (fresh.write d [1, 2, 3, 4]).state ∧
      (fresh.nextTxWord d).value = .error (.capacity .txEmpty) ∧
      two.writeWord d 9 = ⟨.error (.capacity .txFull), two, []⟩ ∧
      (two.run (List.replicate 3 (.nextTxWord d))).1 = [(.ok (.word 0x04030201), []),
        (.ok (.word 0x08070605), []), (.error (.general (.capacity .txEmpty)), [])] ∧
      (one.writeWord d 9).value = .ok () ∧
      (∃ word : Word, word.bytes = [5, 6, 7, 8] ∧ (one.nextTxWord d).value = .ok word) := by
  intro d fresh two one
  let e (filling draining : ShiftWord) : Entry 1 := ⟨0, .serial, filling, draining, .empty, .empty⟩
  have hs : (sample [7]).Reachable := (sample_justOpened [7]).reachable
  have hrFresh : fresh.resolve d .serial = .ok (0, e .empty .empty) := by decide +kernel
  have hrTwo : two.resolve d .serial = .ok (0, e (.full 0x08070605) .empty) := by decide +kernel
  have hrOne : one.resolve d .serial = .ok (0, e (.full 0x08070605) (.part 0x040302 3)) := by
    decide +kernel
  have hpending : (two.channel (e (.full 0x08070605) .empty)).tx.pipe.pending =
      [0x04030201, 0x08070605] := by decide +kernel
  have hsendable : two.sendableWords d = 2 := by decide +kernel
  obtain ⟨-, hroom, hempty, -⟩ := raw_words_fit_bytes hs hrFresh
  obtain ⟨hfull, -, -, -, -, -, hrun⟩ := raw_words_fit_bytes (hs.run _) hrTwo
  obtain ⟨-, hagain, -, hnext, -⟩ := raw_words_fit_bytes (hs.run _) hrOne
  obtain ⟨_, hword, -, -, hbytes⟩ := hroom 0x04030201 (by decide +kernel)
  obtain ⟨_, hahead, -⟩ := hagain 9 (by decide +kernel)
  obtain ⟨word, _, hout, hnextBytes, -⟩ := hnext (.inr rfl)
  have hthree := hrun 3
  rw [hpending, hsendable] at hthree
  refine ⟨?_, congrArg Outcome.value (hempty (by decide +kernel)), hfull 9 (by decide +kernel),
    hthree, congrArg Outcome.value hahead, word, ?_, congrArg Outcome.value hout⟩
  · exact (congrArg Outcome.state hword).trans (congrArg Outcome.state (hbytes rfl)).symm
  · rw [hnextBytes]
    decide +kernel

end Driver

end PolledUart
