import PolledUart.Proofs.Consistency

/-!
# Transfers in parts

A transfer made in two parts does what one transfer of both does, wherever it is cut and also if
the first part stops short: the state is the same and the counts add up. Each loop carries on
where it stopped, and the flush that ends one call is the one the next call begins with.
-/

set_option autoImplicit false

namespace PolledUart

def movedBy : Except TransferError Nat → Nat
  | .ok moved => moved
  | .error stop => stop.transferred

theorem overwrite_append {a b front back : List UInt8} (ha : a.length ≤ front.length)
    (hb : a.length < front.length → b = []) :
    overwrite a front ++ overwrite b back = overwrite (a ++ b) (front ++ back) := by
  rcases Nat.lt_or_eq_of_le ha with hlt | heq
  · simp [overwrite, hb hlt, List.drop_append_of_le_length ha]
  · simp [overwrite, heq, List.drop_append]

namespace WordPipe

variable {n : Nat} {p q : WordPipe n}

/-- The pipe after its flush, which may have found the queue full. -/
def settle (p : WordPipe n) : WordPipe n :=
  match p.flush with
  | .ok q => q
  | .error _ => p

theorem settle_of_ok (h : p.flush = .ok q) : p.settle = q := by simp only [settle, h]

theorem settle_of_error {e : QueueError} (h : p.flush = .error e) : p.settle = p := by
  simp only [settle, h]

theorem flush_flush (h : p.flush = .ok q) : q.flush = .ok q := by
  simp only [flush, ShiftWord.isFull_eq_false_iff.1 (isFull_flush h)]

@[simp] theorem flush_settle (p : WordPipe n) : p.settle.flush = p.flush := by
  rcases h : p.flush with e | q
  · rw [settle_of_error h, h]
  · rw [settle_of_ok h, flush_flush h]

@[simp] theorem settle_settle (p : WordPipe n) : p.settle.settle = p.settle := by
  rcases h : p.flush with e | q
  · rw [settle_of_error h, settle_of_error h]
  · rw [settle_of_ok h, settle_of_ok (flush_flush h)]

theorem push_eq_error_iff_flush (byte : UInt8) {e : QueueError} :
    p.push byte = .error e ↔ p.flush = .error e := by
  unfold push
  cases p.flush <;> simp

theorem push_settle (p : WordPipe n) (byte : UInt8) : p.settle.push byte = p.push byte := by
  simp only [push, flush_settle]

theorem pushAll_stop (data : List UInt8) {e : QueueError}
    (h : (p.pushAll data).2.1 = some e) : (p.pushAll data).2.2.flush = .error e := by
  induction data generalizing p with
  | nil => cases h
  | cons byte rest ih =>
    rcases hp : p.push byte with cause | q
    · simp only [pushAll, hp, Option.some.injEq] at h ⊢
      exact h ▸ (push_eq_error_iff_flush byte).1 hp
    · simp only [pushAll, hp] at h ⊢
      exact ih h

theorem pushAll_append (p : WordPipe n) (front back : List UInt8) :
    (p.pushAll (front ++ back)).1 =
        (p.pushAll front).1 + ((p.pushAll front).2.2.pushAll back).1 ∧
      (p.pushAll (front ++ back)).2.2 = ((p.pushAll front).2.2.pushAll back).2.2 := by
  induction front generalizing p with
  | nil => exact ⟨(Nat.zero_add _).symm, rfl⟩
  | cons byte rest ih =>
    rcases hp : p.push byte with e | q
    · -- The pipe that refused this byte refuses any other.
      have hback : (p.pushAll back).1 = 0 ∧ (p.pushAll back).2.2 = p := by
        cases back with
        | nil => exact ⟨rfl, rfl⟩
        | cons other more =>
          have ho := (push_eq_error_iff_flush other).2 ((push_eq_error_iff_flush byte).1 hp)
          simp only [pushAll, ho, and_self]
      simp only [List.cons_append, pushAll, hp, hback, and_self]
    · obtain ⟨hcount, hpipe⟩ := ih q
      simp only [List.cons_append, pushAll, hp, hcount, hpipe, and_true]
      exact Nat.add_right_comm _ _ _

theorem pushAll_settle (p : WordPipe n) (data : List UInt8) :
    (p.settle.pushAll data).1 = (p.pushAll data).1 ∧
      (p.settle.pushAll data).2.2.settle = (p.pushAll data).2.2.settle := by
  cases data with
  | nil => exact ⟨rfl, settle_settle p⟩
  | cons byte rest =>
    rcases hp : p.push byte with e | q
    · simp only [pushAll, push_settle, hp, settle_settle, and_self]
    · simp only [pushAll, push_settle, hp, and_self]

theorem length_take_le (p : WordPipe n) (max : Nat) : (p.take max).1.length ≤ max := by
  induction max generalizing p with
  | zero => exact Nat.le_refl 0
  | succ max ih =>
    rcases hp : p.pop with e | _ | ⟨byte, q⟩
    · simp [take, hp]
    · simp [take, hp]
    · simpa [take, hp] using ih q

theorem take_add (p : WordPipe n) (i j : Nat) :
    (p.take (i + j)).1 = (p.take i).1 ++ ((p.take i).2.2.take j).1 ∧
      (p.take (i + j)).2.2 = ((p.take i).2.2.take j).2.2 ∧
      ((p.take i).1.length < i → ((p.take i).2.2.take j).1 = []) := by
  induction i generalizing p with
  | zero => simp [take]
  | succ i ih =>
    rw [Nat.add_right_comm]
    rcases hp : p.pop with e | _ | ⟨byte, q⟩
    · cases j <;> simp [take, hp]
    · cases j <;> simp [take, hp]
    · simpa [take, hp] using ih q

end WordPipe

variable {words bytes : Nat}

namespace Transmitter

/-- A write is its pushes and a last flush, whatever stops it. -/
theorem write_eq (t : Transmitter words bytes) (data : List UInt8) :
    movedBy (t.write data).1 = (t.pipe.pushAll data).1 ∧
      (t.write data).2 = { t with pipe := (t.pipe.pushAll data).2.2.settle } := by
  rcases hp : t.pipe.pushAll data with ⟨taken, _ | e, pipe⟩
  · rcases hf : pipe.flush with e | q
    · rw [WordPipe.settle_of_error hf]
      cases e <;> simp [write, hp, hf, movedBy]
    · simp [write, hp, hf, movedBy, WordPipe.settle_of_ok hf]
  · have hf : pipe.flush = .error e := by
      have hstop := WordPipe.pushAll_stop (p := t.pipe) data (e := e)
      rw [hp] at hstop
      exact hstop rfl
    simp [write, hp, movedBy, WordPipe.settle_of_error hf]

theorem write_append (t : Transmitter words bytes) (front back : List UInt8) :
    movedBy (t.write front).1 + movedBy ((t.write front).2.write back).1 =
        movedBy (t.write (front ++ back)).1 ∧
      ((t.write front).2.write back).2 = (t.write (front ++ back)).2 := by
  obtain ⟨hcount, hpipe⟩ := t.pipe.pushAll_append front back
  obtain ⟨hsettled, hfinal⟩ := (t.pipe.pushAll front).2.2.pushAll_settle back
  simp only [write_eq, hsettled, hfinal, hcount, hpipe, and_self]

theorem transmit_add {t : Transmitter words bytes} (h : t.pipe.Ready) (m n : Nat) :
    ∃ i j, (t.transmit m).1 = .ok i ∧ ((t.transmit m).2.transmit n).1 = .ok j ∧
      t.transmit (m + n) = (.ok (i + j), ((t.transmit m).2.transmit n).2) := by
  induction m generalizing t with
  | zero =>
    obtain ⟨u, hu, -⟩ := transmit_ready h n
    exact ⟨0, t.movable n, by simp [transmit], by simp [transmit, hu], by simp [transmit, hu]⟩
  | succ m ih =>
    rw [Nat.add_right_comm]
    have hidle (hstop : ∀ max, t.transmit (max + 1) = (.ok 0, t)) :
        ∃ i j, (t.transmit (m + 1)).1 = .ok i ∧ ((t.transmit (m + 1)).2.transmit n).1 = .ok j ∧
          t.transmit (m + n + 1) = (.ok (i + j), ((t.transmit (m + 1)).2.transmit n).2) := by
      have hn : t.transmit n = (.ok 0, t) := by
        cases n with
        | zero => rfl
        | succ n => exact hstop n
      exact ⟨0, 0, by rw [hstop], by rw [hstop, hn], by rw [hstop, hstop, hn]⟩
    by_cases hf : t.fifo.isFull = true
    · exact hidle fun max => by simp [transmit, hf]
    · rcases WordPipe.load_ready h with ⟨-, hl⟩ | ⟨q, byte, draining, hl, hp, hr, -⟩
      · exact hidle fun max => by simp [transmit, hf, hl]
      · rcases hpush : t.fifo.push byte with e | fifo
        · exact absurd ((Ring.isFull_iff t.fifo).2 (Ring.push_eq_error_iff.1 hpush).2) hf
        · obtain ⟨i, j, hi, hj, hij⟩ := ih (t := ⟨{ q with draining }, fifo⟩) hr
          refine ⟨i + 1, j, ?_, ?_, ?_⟩
          · simp [transmit, hf, hl, hp, hpush, hi, Except.map]
          · simp [transmit, hf, hl, hp, hpush, hj]
          · simp [transmit, hf, hl, hp, hpush, hij, Except.map, Nat.add_right_comm]

end Transmitter

namespace Receiver

def settle (r : Receiver words bytes) : Receiver words bytes := { r with pipe := r.pipe.settle }

theorem collect_add (r : Receiver words bytes) (m n : Nat) :
    (r.collect (m + n)).1 = (r.collect m).1 + ((r.collect m).2.2.collect n).1 ∧
      (r.collect (m + n)).2.2 = ((r.collect m).2.2.collect n).2.2 := by
  induction m generalizing r with
  | zero => simp [collect]
  | succ m ih =>
    rw [Nat.add_right_comm]
    rcases hf : r.pipe.flush with e | q
    · cases n <;> simp [collect, hf]
    · rcases hp : r.fifo.pop with e | ⟨byte, fifo⟩
      · cases n <;> simp [collect, hf, hp, WordPipe.flush_flush hf]
      · obtain ⟨hcount, hrest⟩ := ih ⟨fifo, { q with filling := q.filling.push byte }⟩
        simp only [collect, hf, hp, hcount, hrest, and_true]
        exact Nat.add_right_comm _ _ _

theorem collect_settle (r : Receiver words bytes) (max : Nat) :
    (r.settle.collect max).1 = (r.collect max).1 ∧
      (r.settle.collect max).2.2.settle = (r.collect max).2.2.settle := by
  cases max with
  | zero => simp [collect, settle]
  | succ max =>
    rcases hf : r.pipe.flush with e | q
    · simp [collect, settle, hf]
    · rcases hp : r.fifo.pop with e | ⟨byte, fifo⟩ <;> simp [collect, settle, hf, hp]

theorem collect_stop {r : Receiver words bytes} (max : Nat) {e : QueueError}
    (h : (r.collect max).2.1 = some e) : (r.collect max).2.2.pipe.flush = .error e := by
  induction max generalizing r with
  | zero => cases h
  | succ max ih =>
    rcases hf : r.pipe.flush with cause | q
    · simp only [collect, hf, Option.some.injEq] at h ⊢
      rw [h]
    · rcases hp : r.fifo.pop with cause | ⟨byte, fifo⟩
      · simp only [collect, hf, hp, reduceCtorEq] at h
      · simp only [collect, hf, hp] at h ⊢
        exact ih h

theorem receive_eq {r : Receiver words bytes} (h : r.pipe.Ready) (max : Nat) :
    r.receive max = (.ok (r.collect max).1, (r.collect max).2.2.settle) := by
  obtain ⟨stop, u, hu, rfl | rfl, hur, -⟩ := collect_ready h max
  · rcases hf : u.pipe.flush with e | q
    · obtain ⟨rfl, -⟩ := (WordPipe.flush_eq_error_iff hur).1 hf
      simp [receive, hu, hf, settle, WordPipe.settle_of_error hf]
    · simp [receive, hu, hf, settle, WordPipe.settle_of_ok hf]
  · have hf : u.pipe.flush = .error .full := by
      have hstop := collect_stop (r := r) max (e := .full)
      rw [hu] at hstop
      exact hstop rfl
    simp [receive, hu, settle, WordPipe.settle_of_error hf]

theorem receive_add {r : Receiver words bytes} (h : r.pipe.Ready) (m n : Nat) :
    ∃ i j, (r.receive m).1 = .ok i ∧ ((r.receive m).2.receive n).1 = .ok j ∧
      r.receive (m + n) = (.ok (i + j), ((r.receive m).2.receive n).2) := by
  obtain ⟨u, hu, hur, -⟩ := receive_ready h m
  obtain ⟨hcount, hrest⟩ := r.collect_add m n
  obtain ⟨hsettled, hfinal⟩ := (r.collect m).2.2.collect_settle n
  have hready : (r.collect m).2.2.settle.pipe.Ready := by
    rw [receive_eq h m] at hu
    rw [(Prod.mk.inj hu).2]
    exact hur
  refine ⟨_, _, by rw [receive_eq h m], by rw [receive_eq h m, receive_eq hready n], ?_⟩
  rw [receive_eq h, receive_eq h m, receive_eq hready n, hcount, hrest, hsettled, hfinal]

/-- What a read leaves of its buffer and of a failure: the places past the count are as they were,
and finding nothing is the only failure. -/
structure Fills (buffer : List UInt8) (answer : Except TransferError Nat × List UInt8) : Prop where
  length : answer.2.length = buffer.length
  kept : answer.2.drop (movedBy answer.1) = buffer.drop (movedBy answer.1)
  failure : ∀ stop, answer.1 = .error stop → stop = ⟨.capacity .rxEmpty, 0⟩

theorem read_eq (r : Receiver words bytes) (buffer : List UInt8) :
    movedBy (r.read buffer).1.1 = (r.pipe.take buffer.length).1.length ∧
      (r.read buffer).1.2 = overwrite (r.pipe.take buffer.length).1 buffer ∧
      (r.read buffer).2 = { r with pipe := (r.pipe.take buffer.length).2.2 } := by
  rcases ht : r.pipe.take buffer.length with ⟨taken, _ | e, pipe⟩
  · by_cases hn : (taken.isEmpty && !buffer.isEmpty) = true
    · have hnil : taken.length = 0 := by simp_all
      simp only [read, ht, if_pos hn, movedBy, hnil, and_self]
    · simp only [read, ht, if_neg hn, movedBy, and_self]
  · simp [read, ht, movedBy]

theorem read_fills {r : Receiver words bytes} (h : r.pipe.Ready) (buffer : List UInt8) :
    Fills buffer (r.read buffer).1 := by
  obtain ⟨hcount, hbuffer, -⟩ := r.read_eq buffer
  have hle := r.pipe.length_take_le buffer.length
  refine ⟨?_, ?_, ?_⟩
  · rw [hbuffer, overwrite, List.length_append, List.length_drop]
    omega
  · rw [hbuffer, hcount, overwrite, List.drop_left]
  · intro stop hstop
    obtain ⟨pipe, hread, -⟩ := read_ready h buffer
    rw [hread] at hstop
    dsimp only at hstop
    split at hstop
    · cases hstop
      rfl
    · cases hstop

theorem read_append (r : Receiver words bytes) (front back : List UInt8) :
    movedBy (r.read front).1.1 + movedBy ((r.read front).2.read back).1.1 =
        movedBy (r.read (front ++ back)).1.1 ∧
      (r.read front).1.2 ++ ((r.read front).2.read back).1.2 = (r.read (front ++ back)).1.2 ∧
      ((r.read front).2.read back).2 = (r.read (front ++ back)).2 := by
  obtain ⟨htaken, hpipe, hshort⟩ := r.pipe.take_add front.length back.length
  have hle := r.pipe.length_take_le front.length
  simp only [read_eq, List.length_append, htaken, hpipe, overwrite_append hle hshort, and_self]

end Receiver

namespace Driver

variable {μ R : Type} {ports : Nat} {s : Driver μ R ports words bytes} {d : Descriptor}
  {slot : Fin ports} {e : Entry ports}

theorem onChannel_resolved (hr : s.resolve d .serial = .ok (slot, e)) {α : Type}
    (refusal : SetupError → α) (step : Channel words bytes → α × Channel words bytes) :
    s.onChannel d refusal step =
      ⟨(step (s.channel e)).1, s.withChannel slot e (step (s.channel e)).2, []⟩ := by
  simp only [onChannel, hr]

theorem write_eq_onChannel (s : Driver μ R ports words bytes) (d : Descriptor)
    (data : List UInt8) :
    (s.write d data).value = (s.onChannel d (fun e => .error (Error.setup e).beforeTransfer)
        (Channel.onTx (·.write data))).value ∧
      (s.write d data).state = (s.onChannel d
        (fun e => Except.error (Error.setup e).beforeTransfer)
        (Channel.onTx (·.write data))).state := by
  unfold write onChannel
  rcases s.resolve d .serial with cause | ⟨slot, e⟩ <;> exact ⟨rfl, rfl⟩

variable [RegisterAccess R] [Mapper μ R]

/-- Transfers on a serial descriptor can be cut anywhere. The two parts leave the state that the
whole leaves, and their counts add up to the count of the whole. The buffers of two reads are the
two parts of the buffer of one. -/
theorem transfers_split (h : s.Reachable) (hm : s.mode d = .ok .serial) :
    (∀ front back,
      let first := s.write d front
      let second := first.state.write d back
      let whole := s.write d (front ++ back)
      second.state = whole.state ∧
        movedBy first.value + movedBy second.value = movedBy whole.value) ∧
    (∀ m n, ∃ i j,
      let first := s.transmit d m
      let second := first.state.transmit d n
      let whole := s.transmit d (m + n)
      first.value = .ok i ∧ second.value = .ok j ∧ whole.value = .ok (i + j) ∧
        second.state = whole.state) ∧
    (∀ m n, ∃ i j,
      let first := s.receive d m
      let second := first.state.receive d n
      let whole := s.receive d (m + n)
      first.value = .ok i ∧ second.value = .ok j ∧ whole.value = .ok (i + j) ∧
        second.state = whole.state) ∧
    ∀ front back,
      let first := s.read d front
      let second := first.state.read d back
      let whole := s.read d (front ++ back)
      second.state = whole.state ∧
        movedBy first.value.1 + movedBy second.value.1 = movedBy whole.value.1 ∧
        first.value.2 ++ second.value.2 = whole.value.2 ∧
        Receiver.Fills front first.value ∧ Receiver.Fills back second.value ∧
        Receiver.Fills (front ++ back) whole.value := by
  obtain ⟨slot, e, hr⟩ := resolve_of_mode hm
  obtain ⟨he, hmode⟩ := resolve_entries hr
  have hready := channel_ready (reachable_invariant h) he hmode
  -- The second part resolves to the same slot and finds the channel that the first left.
  have hsecond {α : Type} (c : Channel words bytes) (refusal : SetupError → α)
      (step : Channel words bytes → α × Channel words bytes) :
      (s.withChannel slot e c).onChannel d refusal step =
        ⟨(step c).1, s.withChannel slot e (step c).2, []⟩ := by
    rw [onChannel_resolved (resolve_withChannel hr c), channel_withChannel,
      withChannel_withChannel]
  refine ⟨fun front back => ?_, fun m n => ?_, fun m n => ?_, fun front back => ?_⟩
  · obtain ⟨hcount, hstate⟩ := (s.channel e).tx.write_append front back
    simp only [write_eq_onChannel, onChannel_resolved hr, hsecond, Channel.onTx, hcount, hstate,
      and_self]
  · obtain ⟨i, j, hi, hj, hij⟩ := Transmitter.transmit_add hready.tx m n
    refine ⟨i, j, ?_⟩
    simp only [transmit, onChannel_resolved hr, hsecond, Channel.onTx, hi, hj, hij, and_self]
  · obtain ⟨i, j, hi, hj, hij⟩ := Receiver.receive_add hready.rx m n
    refine ⟨i, j, ?_⟩
    simp only [receive, onChannel_resolved hr, hsecond, Channel.onRx, hi, hj, hij, and_self]
  · obtain ⟨hcount, hbuffer, hstate⟩ := (s.channel e).rx.read_append front back
    obtain ⟨pipe, hread, hpipe, -⟩ := Receiver.read_ready hready.rx front
    have hleft : ((s.channel e).rx.read front).2.pipe.Ready := hread ▸ hpipe
    simp only [read, onChannel_resolved hr, hsecond, Channel.onRx, hcount, hbuffer, hstate,
      Receiver.read_fills hready.rx, Receiver.read_fills hleft, and_self]

theorem transfers_split_sample :
    let s := sample [7, 8]
    let t := (s.run [.receive (.ofIndex 0) 2]).2
    movedBy (s.write (.ofIndex 0) [1, 2, 3, 4, 5, 6, 7, 8, 9]).value = 8 ∧
      ((s.write (.ofIndex 0) [1, 2, 3, 4, 5, 6, 7, 8, 9]).state.write (.ofIndex 0) [10]).state =
        (s.write (.ofIndex 0) [1, 2, 3, 4, 5, 6, 7, 8, 9, 10]).state ∧
      (t.read (.ofIndex 0) [0]).value.2 ++
          ((t.read (.ofIndex 0) [0]).state.read (.ofIndex 0) [1, 2]).value.2 = [7, 8, 2] := by
  intro s t
  have hs : s.Reachable := (sample_justOpened [7, 8]).reachable
  have hread : (t.read (.ofIndex 0) [0, 1, 2]).value.2 = [7, 8, 2] := by decide +kernel
  have hmode : s.mode (.ofIndex 0) = .ok .serial := rfl
  have hlater : t.mode (.ofIndex 0) = .ok .serial := by with_unfolding_all rfl
  obtain ⟨hwrites, -⟩ := transfers_split hs hmode
  obtain ⟨-, -, -, hreads⟩ := transfers_split (hs.run [.receive (.ofIndex 0) 2]) hlater
  obtain ⟨-, -, hbuffers, -⟩ := hreads [0] [1, 2]
  exact ⟨by decide +kernel, (hwrites _ _).1, hbuffers.trans hread⟩

end Driver

end PolledUart
