import PolledUart.Proofs.Sending

/-!
# What receiving takes and reading gives

Receiving takes exactly the bytes that are there and fit, and ends on a flush, so the words that
wait to be read can be counted from the bytes. Reading gives the first bytes of the backlog, as
many as there are places for; a word is read as four bytes are, if the backlog has four.
-/

set_option autoImplicit false

namespace PolledUart

theorem WordPipe.Settled.size_queue {n : Nat} {p : WordPipe n} (hs : p.Settled) (h : p.Ready) :
    p.queue.size = min n ((p.queue.bytes ++ p.filling.bytes).length / Word.size) := by
  have hsize := p.queue.size_le
  have hlen := ShiftWord.len_le h.filling
  rw [length_behind h.toCanonical, Word.size]
  by_cases hfull : p.filling.isFull = true
  · have hqueue := (WordQueue.isFull_iff _ h.started).1 (hs hfull)
    rw [← WordQueue.size_eq_length] at hqueue
    omega
  · -- What fills less than a word does not count in the division.
    have hshort := mt (ShiftWord.isFull_iff_len h.filling).2 hfull
    omega

namespace Receiver

variable {words bytes : Nat} {r u : Receiver words bytes}

theorem receive_settled (h : r.pipe.Ready) (max : Nat) : (r.receive max).2.pipe.Settled := by
  obtain ⟨stop, u, hu, -, hr, -⟩ := collect_ready h max
  rw [receive_eq h, hu]
  exact (WordPipe.settle_ready hr).2.2.2

theorem readWord_leaves {word : Word} (hw : r.readWord = (.ok word, u)) {buffer : List UInt8}
    (hb : buffer.length = Word.size) : u = (r.read buffer).2 := by
  have hzeros : (r.read (List.replicate Word.size 0)).2 = (r.read buffer).2 := by
    simp only [read_eq, List.length_replicate, hb]
  unfold readWord at hw
  split at hw
  · cases hw
  · split at hw
    · cases hw
    · split at hw
      · cases hw
      · rename_i hread
        cases hw
        rw [← hzeros, hread]

end Receiver

namespace Driver

variable {μ R : Type} {ports words bytes : Nat} {s : Driver μ R ports words bytes}
  {d : Descriptor} {slot : Fin ports} {e : Entry ports}

theorem receivedWords_withChannel (hr : s.resolve d .serial = .ok (slot, e))
    (c : Channel words bytes) :
    (s.withChannel slot e c).receivedWords d = c.rx.pipe.queue.size := by
  rw [receivedWords, (resolve_eq_ok.1 (resolve_withChannel hr c)).1]
  simp only [withChannel, Entry.withWords, get_setAt_self]

theorem onRx_resolved (hr : s.resolve d .serial = .ok (slot, e)) {α : Type}
    (refusal : SetupError → α) (step : Receiver words bytes → α × Receiver words bytes) :
    s.onChannel d refusal (Channel.onRx step) = ⟨(step (s.channel e).rx).1,
      s.withChannel slot e { s.channel e with rx := (step (s.channel e).rx).2 }, []⟩ :=
  onChannel_resolved hr refusal _

variable [RegisterAccess R] [Mapper μ R]

/-- Receiving takes the oldest bytes of the FIFO, as many as are asked for, there, and fit: four
for each place of the queue and each free place of the filling word. They go behind what was
queued and filled in, none is lost on the way, and nothing else changes. -/
theorem receive_takes_what_fits (h : s.Reachable) (hr : s.resolve d .serial = .ok (slot, e))
    (max : Nat) :
    let old := (s.channel e).rx
    let q := old.pipe.queue.size
    let a := old.pipe.filling.len
    let k := min max (min old.fifo.toList.length (4 * (words - q) + (4 - a)))
    ∃ rx : Receiver words bytes,
      s.receive d max = ⟨.ok k, s.withChannel slot e { s.channel e with rx }, []⟩ ∧
      rx.fifo.toList = old.fifo.toList.drop k ∧
      rx.pipe.queue.bytes ++ rx.pipe.filling.bytes =
        old.pipe.queue.bytes ++ old.pipe.filling.bytes ++ old.fifo.toList.take k ∧
      rx.pipe.draining = old.pipe.draining ∧
      (rx.pipe.filling.isFull = true → rx.pipe.queue.isFull = true) ∧
      (s.receive d max).state.receivedWords d = min words ((4 * q + a + k) / 4) := by
  intro old q a k
  obtain ⟨he, hmode⟩ := resolve_entries hr
  have hready : old.pipe.Ready := (channel_ready (reachable_invariant h) he hmode).rx
  obtain ⟨rx, hreceive, hrx, hdraining, hfifo, hbytes⟩ := Receiver.receive_ready hready max
  have hsettled := Receiver.receive_settled hready max
  rw [hreceive] at hsettled
  have hbehind := WordPipe.bytes_behind hdraining hbytes
  have hvalue : s.receive d max =
      ⟨.ok k, s.withChannel slot e { s.channel e with rx }, []⟩ := by
    rw [receive, onRx_resolved hr, show (s.channel e).rx.receive max = (.ok k, rx) from hreceive]
  have hcount : (rx.pipe.queue.bytes ++ rx.pipe.filling.bytes).length = 4 * q + a + k := by
    rw [hbehind, List.length_append, WordPipe.length_behind hready.toCanonical, List.length_take]
    show 4 * q + a + min k old.fifo.toList.length = 4 * q + a + k
    omega
  refine ⟨rx, hvalue, hfifo, hbehind, hdraining, hsettled, ?_⟩
  rw [hvalue]
  dsimp only
  rw [receivedWords_withChannel hr, hsettled.size_queue hrx, hcount, Word.size]

theorem receive_takes_what_fits_sample :
    let d := Descriptor.ofIndex 0
    let full := ((sample [1, 2]).run [.receive d 2, .fifos 0 (.feed .rx [3, 4]), .receive d 2,
      .fifos 0 (.feed .rx [5, 6]), .receive d 2, .fifos 0 (.feed .rx [7, 8]), .receive d 2,
      .fifos 0 (.feed .rx [9, 10])]).2
    let s := (full.run [.readWord d]).2
    let e : Entry 1 := ⟨0, .serial, .empty, .empty, .full 0x08070605, .empty⟩
    (full.receive d 5).value = .ok 0 ∧ (s.receive d 0).state.receivedWords d = 1 ∧
      ∃ rx : Receiver 1 2,
        s.receive d 1 = ⟨.ok 1, s.withChannel 0 e { s.channel e with rx }, []⟩ ∧
        rx.fifo.toList = [10] ∧
        rx.pipe.queue.bytes ++ rx.pipe.filling.bytes = [5, 6, 7, 8, 9] ∧
        (s.receive d 1).state.receivedWords d = 1 := by
  intro d full s e
  have hfull : full.Reachable := (sample_justOpened [1, 2]).reachable.run _
  have hs : s.Reachable := hfull.run _
  have hrf : full.resolve d .serial = .ok (0, e) := by decide +kernel
  have hr : s.resolve d .serial = .ok (0, e) := by decide +kernel
  have hqf : (full.channel e).rx.pipe.queue.size = 1 := by decide +kernel
  have hq : (s.channel e).rx.pipe.queue.size = 0 := by decide +kernel
  have hff : (full.channel e).rx.fifo.toList = [9, 10] := by decide +kernel
  have hf : (s.channel e).rx.fifo.toList = [9, 10] := by decide +kernel
  have hbehind : (s.channel e).rx.pipe.queue.bytes ++ (s.channel e).rx.pipe.filling.bytes =
      [5, 6, 7, 8] := by decide +kernel
  have ha (t : Driver ShadowMapper RegisterBlock 1 1 2) :
      (t.channel e).rx.pipe.filling.len = 4 := rfl
  obtain ⟨_, hnone, -⟩ := receive_takes_what_fits hfull hrf 5
  obtain ⟨_, -, -, -, -, -, hmoved⟩ := receive_takes_what_fits hs hr 0
  obtain ⟨rx, hone, hleft, hbytes, -, -, hwords⟩ := receive_takes_what_fits hs hr 1
  rw [hqf, ha, hff] at hnone
  rw [hq, ha, hf] at hmoved hone hleft hwords
  rw [hq, ha, hf, hbehind] at hbytes
  exact ⟨congrArg Outcome.value hnone, hmoved, rx, hone, hleft, hbytes, hwords⟩

/-- Reading gives the first bytes of what is there, as many as there are places for, and leaves the
other bytes and the other places as they were; only a reader with places who finds nothing fails.
A word is read if four bytes are there, and leaves what reading into four places leaves; otherwise
nothing is taken. -/
theorem reads_what_is_there (h : s.Reachable) (hr : s.resolve d .serial = .ok (slot, e)) :
    let rx := (s.channel e).rx
    let backlog := rx.pipe.draining.bytes ++ rx.pipe.queue.bytes ++ rx.pipe.filling.bytes
    s.readableBytes d = backlog.length ∧
      (∀ buffer : List UInt8,
        let k := min buffer.length backlog.length
        ∃ pipe : WordPipe words,
          s.read d buffer = ⟨(if backlog = [] ∧ buffer ≠ [] then .error ⟨.capacity .rxEmpty, 0⟩
              else .ok k, backlog.take k ++ buffer.drop k),
            s.withChannel slot e { s.channel e with rx := { rx with pipe } }, []⟩ ∧
          pipe.draining.bytes ++ pipe.queue.bytes ++ pipe.filling.bytes = backlog.drop k) ∧
      (4 ≤ backlog.length → ∃ word : Word, word.bytes = backlog.take 4 ∧
        ∀ buffer : List UInt8, buffer.length = 4 →
          s.readWord d = ⟨.ok word, (s.read d buffer).state, []⟩) ∧
      (backlog.length < 4 → s.readWord d = ⟨.error (.capacity .rxEmpty), s, []⟩) := by
  intro rx backlog
  obtain ⟨he, hmode⟩ := resolve_entries hr
  have hs := reachable_invariant h
  have hready : rx.pipe.Ready := (channel_ready hs he hmode).rx
  have hserves : s.Serves d e.port (s.channel e) := ⟨slot, e, hr, rfl, rfl⟩
  refine ⟨hserves.readableBytes hs, ?_, ?_⟩
  · intro buffer k
    obtain ⟨pipe, hread, -, hleft⟩ := Receiver.read_ready hready buffer
    have hcount : (rx.pipe.bytes.take buffer.length).length = k := List.length_take
    have htake : rx.pipe.bytes.take buffer.length = backlog.take k := List.take_eq_take_min
    refine ⟨pipe, ?_, hleft.trans List.drop_eq_drop_min⟩
    rw [read, onRx_resolved hr, hread, overwrite, hcount, htake]
    rfl
  · rw [readWord, onRx_resolved hr]
    rcases Receiver.readWord_ready hready with ⟨hw, hshort⟩ | ⟨word, pipe, hw, -, hbytes⟩
    · refine ⟨fun hfour => absurd hshort (Nat.not_lt.2 hfour), fun _ => ?_⟩
      rw [hw]
      exact congrArg (Outcome.mk _ · []) (withChannel_channel he)
    · have hbacklog : backlog = word.bytes ++ pipe.bytes := hbytes
      refine ⟨fun _ => ⟨word, ?_, fun buffer hb => ?_⟩, fun hshort => ?_⟩
      · rw [hbacklog]
        exact (List.take_left' (Word.length_bytes word)).symm
      · rw [read, onRx_resolved hr, hw, Receiver.readWord_leaves hw hb]
      · rw [hbacklog, List.length_append, Word.length_bytes] at hshort
        omega

theorem reads_what_is_there_sample :
    let d := Descriptor.ofIndex 0
    let s := ((sample [1, 2]).run [.receive d 2, .fifos 0 (.feed .rx [3, 4]), .receive d 2,
      .fifos 0 (.feed .rx [5, 6]), .receive d 2, .read d [0]]).2
    let t := (s.run [.read d [0, 0, 0]]).2
    s.readableBytes d = 5 ∧
      (s.read d [7, 7, 7, 7, 7, 7, 7]).value = (.ok 5, [2, 3, 4, 5, 6, 7, 7]) ∧
      (∃ word : Word, word.bytes = [2, 3, 4, 5] ∧
        s.readWord d = ⟨.ok word, (s.read d [7, 7, 7, 7]).state, []⟩) ∧
      t.readWord d = ⟨.error (.capacity .rxEmpty), t, []⟩ := by
  intro d s t
  let e : Entry 1 := ⟨0, .serial, .empty, .empty, .part 0x0605 2, .part 0x040302 3⟩
  let f : Entry 1 := ⟨0, .serial, .empty, .empty, .part 0x0605 2, .empty⟩
  have hs : s.Reachable := (sample_justOpened [1, 2]).reachable.run _
  have hr : s.resolve d .serial = .ok (0, e) := by decide +kernel
  have hrt : t.resolve d .serial = .ok (0, f) := by decide +kernel
  have hbacklog : (s.channel e).rx.pipe.draining.bytes ++ (s.channel e).rx.pipe.queue.bytes ++
      (s.channel e).rx.pipe.filling.bytes = [2, 3, 4, 5, 6] := by decide +kernel
  obtain ⟨hcount, hread, hword, -⟩ := reads_what_is_there hs hr
  obtain ⟨-, -, -, hshort⟩ := reads_what_is_there (hs.run [.read d [0, 0, 0]]) hrt
  rw [hbacklog] at hcount hword
  obtain ⟨_, hseven, -⟩ := hread [7, 7, 7, 7, 7, 7, 7]
  obtain ⟨word, hbytes, hfour⟩ := hword (by decide)
  rw [hbacklog] at hseven
  exact ⟨hcount, congrArg Outcome.value hseven, ⟨word, hbytes, hfour _ rfl⟩,
    hshort (by decide +kernel)⟩

end Driver

end PolledUart
