import PolledUart.Channel
import PolledUart.Proofs.Pipe

/-!
# What transfers move

On a ready pipe a transfer has no failure but a full or an empty queue, and the number of bytes it
moves is the least of its budget, what there is and what fits. The bytes are the oldest of the
source, and they go behind all that the target has.
-/

set_option autoImplicit false

namespace PolledUart

variable {words bytes : Nat}

namespace Transmitter

def movable (t : Transmitter words bytes) (max : Nat) : Nat :=
  min max (min (bytes - t.fifo.toList.length) t.pipe.bytes.length)

theorem write_ready {t : Transmitter words bytes} (h : t.pipe.Ready) (data : List UInt8) :
    ∃ pipe, t.write data = (if data.length ≤ t.pipe.room then .ok data.length
        else .error ⟨.capacity .txFull, t.pipe.room⟩, { t with pipe }) ∧
      pipe.Ready ∧ pipe.draining = t.pipe.draining ∧
      pipe.bytes = t.pipe.bytes ++ data.take t.pipe.room := by
  obtain ⟨q, hq, hr, hd, -⟩ := WordPipe.pushAll_ready h data
  have hb := WordPipe.bytes_pushAll h.toCanonical data
  rw [hq] at hb
  have htake : data.take (min data.length t.pipe.room) = data.take t.pipe.room := by
    exact List.take_eq_take_iff.2 (by omega)
  rw [htake] at hb
  by_cases hfit : data.length ≤ t.pipe.room
  · have hmin : min data.length t.pipe.room = data.length := Nat.min_eq_left hfit
    rcases hf : q.flush with e | v
    · obtain ⟨rfl, -⟩ := (WordPipe.flush_eq_error_iff hr).1 hf
      exact ⟨q, by simp [write, hq, hf, hfit], hr, hd, hb⟩
    · obtain ⟨hv, hdv, -⟩ := WordPipe.flush_ready hr hf
      exact ⟨v, by simp [write, hq, hf, hfit], hv, hdv.trans hd, (WordPipe.bytes_flush hf).trans hb⟩
  · have hmin : min data.length t.pipe.room = t.pipe.room := Nat.min_eq_right (by omega)
    exact ⟨q, by simp [write, hq, hfit, hmin, QueueError.onTransmit], hr, hd, hb⟩

theorem transmit_ready {t : Transmitter words bytes} (h : t.pipe.Ready) (max : Nat) :
    ∃ u, t.transmit max = (.ok (t.movable max), u) ∧ u.pipe.Ready ∧
      u.fifo.toList = t.fifo.toList ++ t.pipe.bytes.take (t.movable max) ∧
      u.pipe.bytes = t.pipe.bytes.drop (t.movable max) := by
  induction max generalizing t with
  | zero => exact ⟨t, by simp [transmit, movable], h, by simp [movable], by simp [movable]⟩
  | succ max ih =>
    have hstop (hz : t.movable (max + 1) = 0) (ht : t.transmit (max + 1) = (.ok 0, t)) :
        ∃ u, t.transmit (max + 1) = (.ok (t.movable (max + 1)), u) ∧ u.pipe.Ready ∧
          u.fifo.toList = t.fifo.toList ++ t.pipe.bytes.take (t.movable (max + 1)) ∧
          u.pipe.bytes = t.pipe.bytes.drop (t.movable (max + 1)) :=
      ⟨t, by rw [hz, ht], h, by simp [hz], by simp [hz]⟩
    by_cases hf : t.fifo.isFull = true
    · have hn := (Ring.isFull_iff t.fifo).1 hf
      exact hstop (by simp [movable, hn]) (by simp [transmit, hf])
    · rcases WordPipe.load_ready h with ⟨hb, hl⟩ | ⟨q, byte, draining, hl, hp, hr, hb⟩
      · exact hstop (by simp [movable, hb]) (by simp [transmit, hf, hl])
      · rcases hpush : t.fifo.push byte with e | fifo
        · exact absurd ((Ring.isFull_iff t.fifo).2 (Ring.push_eq_error_iff.1 hpush).2) hf
        · have hfifo := Ring.toList_push hpush
          obtain ⟨u, hu, hur, huf, hub⟩ := ih (t := ⟨{ q with draining }, fifo⟩) hr
          -- One byte left the pipe and one place of the FIFO is gone.
          have hmove : t.movable (max + 1) =
              movable (⟨{ q with draining }, fifo⟩ : Transmitter words bytes) max + 1 := by
            have hle := fifo.length_toList_le
            simp only [movable, hfifo, hb, List.length_append, List.length_cons,
              List.length_nil] at hle ⊢
            omega
          refine ⟨u, ?_, hur, ?_, ?_⟩
          · simp [transmit, hf, hl, hp, hpush, hu, hmove, Except.map]
          · simp [huf, hfifo, hb, hmove]
          · simp [hub, hb, hmove]

end Transmitter

namespace Receiver

def movable (r : Receiver words bytes) (max : Nat) : Nat :=
  min max (min r.fifo.toList.length r.pipe.room)

theorem collect_ready {r : Receiver words bytes} (h : r.pipe.Ready) (max : Nat) :
    ∃ stop u, r.collect max = (r.movable max, stop, u) ∧ (stop = none ∨ stop = some .full) ∧
      u.pipe.Ready ∧ u.pipe.draining = r.pipe.draining ∧
      u.fifo.toList = r.fifo.toList.drop (r.movable max) ∧
      u.pipe.bytes = r.pipe.bytes ++ r.fifo.toList.take (r.movable max) := by
  induction max generalizing r with
  | zero =>
    exact ⟨none, r, by simp [collect, movable], .inl rfl, h, rfl, by simp [movable],
      by simp [movable]⟩
  | succ max ih =>
    rcases hf : r.pipe.flush with e | q
    · obtain ⟨rfl, hroom⟩ := (WordPipe.flush_eq_error_iff h).1 hf
      have hz : r.movable (max + 1) = 0 := by simp [movable, hroom]
      exact ⟨some .full, r, by simp [collect, hf, hz], .inr rfl, h, rfl, by simp [hz],
        by simp [hz]⟩
    · obtain ⟨hq, hd, hroom⟩ := WordPipe.flush_ready h hf
      have hb := WordPipe.bytes_flush hf
      rcases hp : r.fifo.pop with e | ⟨byte, fifo⟩
      · have hnil := (Ring.pop_eq_error_iff.1 hp).2
        have hz : r.movable (max + 1) = 0 := by simp [movable, hnil]
        exact ⟨none, { r with pipe := q }, by simp [collect, hf, hp, hz], .inl rfl, hq, hd,
          by simp [hz], by simp [hz, hb]⟩
      · have hfifo := Ring.toList_pop hp
        -- Pushing onto the flushed pipe is pushing onto the pipe.
        have hpush : r.pipe.push byte = .ok { q with filling := q.filling.push byte } := by
          simp [WordPipe.push, hf]
        obtain ⟨hv, hdv, hleft⟩ := WordPipe.push_ready h hpush
        have hbv := WordPipe.bytes_push h.toCanonical hpush
        obtain ⟨stop, u, hu, hs, hur, hud, huf, hub⟩ :=
          ih (r := ⟨fifo, { q with filling := q.filling.push byte }⟩) hv
        have hmove : r.movable (max + 1) =
            movable (⟨fifo, { q with filling := q.filling.push byte }⟩ :
              Receiver words bytes) max + 1 := by
          simp only [movable, hfifo, List.length_cons]
          omega
        refine ⟨stop, u, ?_, hs, hur, hud.trans hdv, ?_, ?_⟩
        · simp [collect, hf, hp, hu, hmove]
        · simp [huf, hfifo, hmove]
        · simp [hub, hbv, hfifo, hmove]

theorem receive_ready {r : Receiver words bytes} (h : r.pipe.Ready) (max : Nat) :
    ∃ u, r.receive max = (.ok (r.movable max), u) ∧ u.pipe.Ready ∧
      u.pipe.draining = r.pipe.draining ∧
      u.fifo.toList = r.fifo.toList.drop (r.movable max) ∧
      u.pipe.bytes = r.pipe.bytes ++ r.fifo.toList.take (r.movable max) := by
  obtain ⟨stop, u, hu, rfl | rfl, hur, hud, huf, hub⟩ := collect_ready h max
  · rcases hf : u.pipe.flush with e | q
    · obtain ⟨rfl, -⟩ := (WordPipe.flush_eq_error_iff hur).1 hf
      exact ⟨u, by simp [receive, hu, hf], hur, hud, huf, hub⟩
    · obtain ⟨hq, hd, -⟩ := WordPipe.flush_ready hur hf
      exact ⟨{ u with pipe := q }, by simp [receive, hu, hf], hq, hd.trans hud, huf,
        (WordPipe.bytes_flush hf).trans hub⟩
  · exact ⟨u, by simp [receive, hu], hur, hud, huf, hub⟩

theorem read_ready {r : Receiver words bytes} (h : r.pipe.Ready) (buffer : List UInt8) :
    ∃ pipe, r.read buffer = ((if r.pipe.bytes = [] ∧ buffer ≠ [] then
          .error ⟨.capacity .rxEmpty, 0⟩ else .ok (r.pipe.bytes.take buffer.length).length,
        overwrite (r.pipe.bytes.take buffer.length) buffer), { r with pipe }) ∧
      pipe.Ready ∧ pipe.bytes = r.pipe.bytes.drop buffer.length := by
  obtain ⟨q, hq, hr, hb⟩ := WordPipe.take_ready h buffer.length
  refine ⟨q, ?_, hr, hb⟩
  have hnone : ((r.pipe.bytes.take buffer.length).isEmpty && !buffer.isEmpty) = true ↔
      r.pipe.bytes = [] ∧ buffer ≠ [] := by
    rw [Bool.and_eq_true, List.isEmpty_iff, List.take_eq_nil_iff, Bool.not_eq_true',
      List.isEmpty_eq_false_iff, List.length_eq_zero_iff]
    exact ⟨fun ⟨hor, hne⟩ => ⟨hor.resolve_left hne, hne⟩, fun ⟨hnil, hne⟩ => ⟨.inr hnil, hne⟩⟩
  simp only [read, hq]
  by_cases hn : r.pipe.bytes = [] ∧ buffer ≠ []
  · rw [if_pos (hnone.2 hn), if_pos hn]
  · rw [if_neg (mt hnone.1 hn), if_neg hn]

theorem readWord_ready {r : Receiver words bytes} (h : r.pipe.Ready) :
    (r.readWord = (.error (.capacity .rxEmpty), r) ∧ r.pipe.bytes.length < Word.size) ∨
      ∃ word pipe, r.readWord = (.ok word, { r with pipe }) ∧ pipe.Ready ∧
        r.pipe.bytes = word.bytes ++ pipe.bytes := by
  have hsize := WordPipe.size_eq_length h.toCanonical
  by_cases hlt : r.pipe.bytes.length < Word.size
  · exact .inl ⟨by simp [readWord, h.started, hsize, hlt], hlt⟩
  · obtain ⟨pipe, hread, hr, hb⟩ := read_ready h (List.replicate Word.size 0)
    obtain ⟨a, b, c, d, rest, hbytes⟩ :
        ∃ a b c d rest, r.pipe.bytes = a :: b :: c :: d :: rest := by
      rcases hl : r.pipe.bytes with _ | ⟨a, _ | ⟨b, _ | ⟨c, _ | ⟨d, rest⟩⟩⟩⟩
      · simp [hl, Word.size] at hlt
      · simp [hl, Word.size] at hlt
      · simp [hl, Word.size] at hlt
      · simp [hl, Word.size] at hlt
      · exact ⟨a, b, c, d, rest, rfl⟩
    refine .inr ⟨Word.ofBytes [a, b, c, d], pipe, ?_, hr, ?_⟩
    · have hnot : ¬ r.pipe.size < Word.size := by omega
      simp only [readWord, h.started, hnot, hread, Bool.not_true, Bool.false_eq_true, if_false]
      simp [hbytes, overwrite, Word.size]
    · rw [Word.bytes_ofBytes, hb, hbytes]
      rfl

end Receiver

namespace Channel

structure Ready (c : Channel words bytes) : Prop where
  tx : c.tx.pipe.Ready
  rx : c.rx.pipe.Ready

/-- A poll moves what a sending and, once nothing is left to send, a receiving would move. -/
theorem poll_ready {c : Channel words bytes} (h : c.Ready) (maxTx maxRx : Nat) :
    c.poll maxTx maxRx =
      if c.tx.pipe.bytes.length ≤ c.tx.movable maxTx then
        (.ok ⟨c.tx.movable maxTx, c.rx.movable maxRx, true⟩,
          ⟨(c.tx.transmit maxTx).2, (c.rx.receive maxRx).2⟩)
      else (.ok ⟨c.tx.movable maxTx, 0, false⟩, ⟨(c.tx.transmit maxTx).2, c.rx⟩) := by
  obtain ⟨t, ht, htr, -, htb⟩ := Transmitter.transmit_ready h.tx maxTx
  obtain ⟨r, hr, -⟩ := Receiver.receive_ready h.rx maxRx
  have hempty : t.pipe.isEmpty = true ↔ c.tx.pipe.bytes.length ≤ c.tx.movable maxTx := by
    rw [WordPipe.isEmpty_iff htr.toCanonical, htb, List.drop_eq_nil_iff]
  by_cases he : c.tx.pipe.bytes.length ≤ c.tx.movable maxTx
  · simp [poll, ht, hr, hempty.2 he, he]
  · have hne : t.pipe.isEmpty = false := by simpa using mt hempty.1 he
    simp [poll, ht, hne, he]

end Channel

end PolledUart
