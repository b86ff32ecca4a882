import PolledUart.Proofs.Chunking

/-!
# What writing takes and sending moves

A write takes exactly the bytes that fit between the last byte taken and a full queue with a
complete filling word in front of it. Since it ends on a flush, it leaves a complete filling word
only in front of a full queue, and so the words that wait to be sent can be counted from the
bytes. Sending moves exactly the oldest bytes that fit into the FIFO.
-/

set_option autoImplicit false

namespace PolledUart

namespace WordPipe

variable {n : Nat} {p q : WordPipe n}

/-- A complete filling word waits only for want of room in the queue. -/
def Settled (p : WordPipe n) : Prop := p.filling.isFull = true → p.queue.isFull = true

theorem settle_ready (h : p.Ready) : p.settle.Ready ∧ p.settle.draining = p.draining ∧
    p.settle.bytes = p.bytes ∧ p.settle.Settled := by
  rcases hf : p.flush with e | q
  · rw [settle_of_error hf]
    obtain ⟨-, hroom⟩ := (flush_eq_error_iff h).1 hf
    have hfull := (WordQueue.isFull_iff _ h.started).2 ((room_eq_zero_iff h).1 hroom).2
    exact ⟨h, rfl, rfl, fun _ => hfull⟩
  · rw [settle_of_ok hf]
    obtain ⟨hq, hd, -⟩ := flush_ready h hf
    refine ⟨hq, hd, bytes_flush hf, fun hfull => ?_⟩
    rw [isFull_flush hf] at hfull
    cases hfull

theorem bytes_behind {more : List UInt8} (hd : q.draining = p.draining)
    (hb : q.bytes = p.bytes ++ more) :
    q.queue.bytes ++ q.filling.bytes = p.queue.bytes ++ p.filling.bytes ++ more := by
  simp only [bytes, hd, List.append_assoc, List.append_cancel_left_eq] at hb
  rw [hb, List.append_assoc]

theorem length_behind (h : p.Canonical) :
    (p.queue.bytes ++ p.filling.bytes).length = Word.size * p.queue.size + p.filling.len := by
  rw [List.length_append, WordQueue.length_bytes, ShiftWord.length_bytes h.filling]

def fullWords (p : WordPipe n) : Nat := p.queue.size + if p.filling.isFull then 1 else 0

theorem fullWords_eq (h : p.Canonical) :
    p.fullWords = (p.queue.bytes ++ p.filling.bytes).length / Word.size := by
  have hle := ShiftWord.len_le h.filling
  have hfull := ShiftWord.isFull_iff_len h.filling
  rw [length_behind h, fullWords, Word.size]
  split
  · have := hfull.1 ‹_›
    omega
  · have := mt hfull.2 ‹_›
    omega

theorem load_filling (h : p.load = .ok q) : q.filling = p.filling ∨ q.filling = .empty := by
  unfold load at h
  split at h
  · cases h
    exact .inl rfl
  · split at h
    · cases h
      exact .inr rfl
    · split at h
      · cases h
      · cases h
        exact .inl rfl

end WordPipe

namespace Transmitter

variable {words bytes : Nat} {t : Transmitter words bytes}

theorem write_settled (h : t.pipe.Ready) (data : List UInt8) :
    (t.write data).2.pipe.Settled := by
  obtain ⟨q, hq, hr, -⟩ := WordPipe.pushAll_ready h data
  rw [(t.write_eq data).2, hq]
  exact (WordPipe.settle_ready hr).2.2.2

theorem transmit_filling (t : Transmitter words bytes) (max : Nat) :
    (t.transmit max).2.pipe.filling = t.pipe.filling ∨
      (t.transmit max).2.pipe.filling = .empty := by
  induction max generalizing t with
  | zero => exact .inl rfl
  | succ max ih =>
    rw [transmit]
    split
    · exact .inl rfl
    · split
      · exact .inl rfl
      · exact .inl rfl
      · rename_i pipe hload
        have hfilling := WordPipe.load_filling hload
        split
        · exact hfilling
        · rename_i byte draining hpop
          split
          · exact hfilling
          · rename_i fifo hpush
            -- What the rest of the run finds in the filling word is what loading left there.
            rcases ih ⟨{ pipe with draining }, fifo⟩ with hrest | hrest
            · exact hfilling.imp hrest.trans hrest.trans
            · exact .inr hrest

end Transmitter

namespace Driver

variable {μ R : Type} {ports words bytes : Nat} {s : Driver μ R ports words bytes}
  {d : Descriptor} {slot : Fin ports} {e : Entry ports}

theorem sendableWords_withChannel (hr : s.resolve d .serial = .ok (slot, e))
    (c : Channel words bytes) :
    (s.withChannel slot e c).sendableWords d = c.tx.pipe.fullWords := by
  rw [sendableWords, (resolve_eq_ok.1 (resolve_withChannel hr c)).1]
  simp only [withChannel, Entry.withWords, get_setAt_self]
  rfl

variable [RegisterAccess R] [Mapper μ R]

/-- A write takes the first bytes, as many as fit: four for each place of the queue and each free
place of the filling word. It fails exactly if these are not all, and then says how many they
were. They go behind what was queued and filled in, and nothing else changes. -/
theorem write_takes_what_fits (h : s.Reachable) (hr : s.resolve d .serial = .ok (slot, e))
    (data : List UInt8) :
    let tx := (s.channel e).tx
    let q := tx.pipe.queue.size
    let i := tx.pipe.filling.len
    let n := min data.length (4 * (words - q) + (4 - i))
    ∃ pipe : WordPipe words,
      s.write d data = ⟨if n = data.length then .ok data.length else .error ⟨.capacity .txFull, n⟩,
        s.withChannel slot e { s.channel e with tx := { tx with pipe } },
        if n = data.length then [] else [.writeStopped d n data.length (.capacity .txFull)]⟩ ∧
      pipe.queue.bytes ++ pipe.filling.bytes =
        tx.pipe.queue.bytes ++ tx.pipe.filling.bytes ++ data.take n ∧
      pipe.draining = tx.pipe.draining ∧
      (pipe.filling.isFull = true → pipe.queue.isFull = true) ∧
      (s.write d data).state.sendableWords d = (4 * q + i + n) / 4 := by
  intro tx q i n
  obtain ⟨he, hmode⟩ := resolve_entries hr
  have hready : tx.pipe.Ready := (channel_ready (reachable_invariant h) he hmode).tx
  obtain ⟨pipe, hwrite, hpipe, hdraining, hbytes⟩ := Transmitter.write_ready hready data
  have hsettled := Transmitter.write_settled hready data
  rw [hwrite] at hsettled
  have hroom : tx.pipe.room = 4 * (words - q) + (4 - i) := rfl
  have hfits : data.length ≤ tx.pipe.room ↔ n = data.length := by omega
  have htake : data.take tx.pipe.room = data.take n := List.take_eq_take_iff.2 (by omega)
  have hbehind := WordPipe.bytes_behind hdraining (htake ▸ hbytes)
  have hvalue : s.write d data =
      ⟨if n = data.length then .ok data.length else .error ⟨.capacity .txFull, n⟩,
        s.withChannel slot e { s.channel e with tx := { tx with pipe } },
        if n = data.length then [] else [.writeStopped d n data.length (.capacity .txFull)]⟩ := by
    have hstep : (s.channel e).onTx (·.write data) = ((tx.write data).1,
        { s.channel e with tx := (tx.write data).2 }) := rfl
    simp only [write, hr, hstep, hwrite, hfits]
    split
    · rfl
    · have hn : n = tx.pipe.room := by omega
      simp only [hn]
  have hcount : (pipe.queue.bytes ++ pipe.filling.bytes).length = 4 * q + i + n := by
    rw [hbehind, List.length_append, WordPipe.length_behind hready.toCanonical, List.length_take]
    show 4 * q + i + min n data.length = 4 * q + i + n
    omega
  refine ⟨pipe, hvalue, hbehind, hdraining, hsettled, ?_⟩
  rw [hvalue]
  dsimp only
  rw [sendableWords_withChannel hr, WordPipe.fullWords_eq hpipe.toCanonical, hcount, Word.size]

theorem write_takes_what_fits_sample :
    let d := Descriptor.ofIndex 0
    let s := ((sample [7]).run [.write d [1, 2, 3, 4, 5, 6, 7, 8], .transmit d 2]).2
    let e : Entry 1 := ⟨0, .serial, .full 0x08070605, .part 0x040302 3, .empty, .empty⟩
    (s.channel e).tx.pipe.queue.size = 0 ∧ (s.write d []).value = .ok 0 ∧
      (s.write d []).state.sendableWords d = 1 ∧
      (s.write d [9, 10, 11, 12, 13]).value = .error ⟨.capacity .txFull, 4⟩ ∧
      (s.write d [9, 10, 11, 12, 13]).state.sendableWords d = 2 := by
  intro d s e
  have hs : s.Reachable := (sample_justOpened [7]).reachable.run _
  have hr : s.resolve d .serial = .ok (0, e) := by decide +kernel
  have hq : (s.channel e).tx.pipe.queue.size = 0 := by decide +kernel
  have hi : (s.channel e).tx.pipe.filling.len = 4 := rfl
  obtain ⟨_, hnone, -, -, -, hnoneSendable⟩ := write_takes_what_fits hs hr []
  obtain ⟨_, hmore, -, -, -, hmoreSendable⟩ := write_takes_what_fits hs hr [9, 10, 11, 12, 13]
  rw [hq, hi] at hnone hnoneSendable hmore hmoreSendable
  exact ⟨hq, congrArg Outcome.value hnone, hnoneSendable, congrArg Outcome.value hmore,
    hmoreSendable⟩

/-- Sending moves the oldest bytes, as many as are asked for, there, and fit into the FIFO, and
nothing else changes. The draining word is never left complete, and the filling word is left as it
was or goes out whole. -/
theorem transmit_moves_oldest (h : s.Reachable) (hr : s.resolve d .serial = .ok (slot, e))
    (max : Nat) :
    let old := (s.channel e).tx
    let backlog := old.pipe.draining.bytes ++ old.pipe.queue.bytes ++ old.pipe.filling.bytes
    let k := min max (min (bytes - old.fifo.toList.length) backlog.length)
    ∃ tx : Transmitter words bytes,
      s.transmit d max = ⟨.ok k, s.withChannel slot e { s.channel e with tx }, []⟩ ∧
      tx.fifo.toList = old.fifo.toList ++ backlog.take k ∧
      tx.pipe.draining.bytes ++ tx.pipe.queue.bytes ++ tx.pipe.filling.bytes = backlog.drop k ∧
      tx.pipe.draining.isFull = false ∧
      (tx.pipe.filling = old.pipe.filling ∨ tx.pipe.filling = .empty) := by
  intro old backlog k
  obtain ⟨he, hmode⟩ := resolve_entries hr
  have hready : old.pipe.Ready := (channel_ready (reachable_invariant h) he hmode).tx
  obtain ⟨tx, hsent, htx, hfifo, hleft⟩ := Transmitter.transmit_ready hready max
  have hfilling := old.transmit_filling max
  rw [hsent] at hfilling
  refine ⟨tx, ?_, hfifo, hleft, htx.loose, hfilling⟩
  have hstep : Channel.onTx (·.transmit max) (s.channel e) =
      (.ok k, { s.channel e with tx }) := by
    simp only [Channel.onTx]
    rw [show (s.channel e).tx.transmit max = (.ok k, tx) from hsent]
  rw [transmit, onChannel_resolved hr, hstep]

theorem transmit_moves_oldest_sample :
    let d := Descriptor.ofIndex 0
    let s := ((sample []).run [.write d [1, 2, 3, 4, 5, 6], .transmit d 2, .fifos 0 (.reset .tx),
      .transmit d 1, .fifos 0 (.reset .tx)]).2
    let e : Entry 1 := ⟨0, .serial, .part 0x0605 2, .part 0x04 1, .empty, .empty⟩
    ∃ tx : Transmitter 1 2,
      s.transmit d 5 = ⟨.ok 2, s.withChannel 0 e { s.channel e with tx }, []⟩ ∧
        tx.fifo.toList = [4, 5] ∧
        tx.pipe.draining.bytes ++ tx.pipe.queue.bytes ++ tx.pipe.filling.bytes = [6] ∧
        (tx.pipe.filling = .part 0x0605 2 ∨ tx.pipe.filling = .empty) := by
  intro d s e
  have hs : s.Reachable := (sample_justOpened []).reachable.run _
  have hr : s.resolve d .serial = .ok (0, e) := by decide +kernel
  have hfifo : (s.channel e).tx.fifo.toList = [] := by decide +kernel
  have hbacklog : (s.channel e).tx.pipe.draining.bytes ++ (s.channel e).tx.pipe.queue.bytes ++
      (s.channel e).tx.pipe.filling.bytes = [4, 5, 6] := by decide +kernel
  obtain ⟨tx, hsent, hout, hleft, -, hfilling⟩ := transmit_moves_oldest hs hr 5
  rw [hfifo, hbacklog] at hsent hout
  rw [hfifo, hbacklog] at hleft
  exact ⟨tx, hsent, hout, hleft, hfilling⟩

end Driver

end PolledUart
