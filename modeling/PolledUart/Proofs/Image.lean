import PolledUart.Proofs.Port

/-!
# Images of a channel

A map of bytes makes one channel an image of another: the same modes, counts and queue lengths,
and in place of every byte its image. The relation looks at what the parts hold and at nothing
else, neither at the padding of a word nor at ring slots that hold nothing any more. Every act
keeps it and gives the image of the reply, so no reply and no branch depends on a byte's value.
-/

set_option autoImplicit false

namespace PolledUart

/-- Both fail, for the same reason, or both succeed, with related results. -/
inductive Lockstep {ε α β : Type} (A : α → β → Prop) : Except ε α → Except ε β → Prop
  | error (e : ε) : Lockstep A (.error e) (.error e)
  | ok {a : α} {b : β} (h : A a b) : Lockstep A (.ok a) (.ok b)

namespace Lockstep

variable {ε α β : Type} {g : α → β} {x : Except ε α} {y : Except ε β}

theorem of_map (h : y = x.map g) : Lockstep (fun a b => b = g a) x y := by
  cases h
  cases x with
  | error e => exact .error e
  | ok a => exact .ok rfl

theorem of_eq {z : Except ε α} (h : z = x) : Lockstep Eq x z := by
  cases h
  cases x with
  | error e => exact .error e
  | ok a => exact .ok rfl

end Lockstep

namespace Word

def image (f : UInt8 → UInt8) (w : Word) : Word := ofBytes (w.bytes.map f)

@[simp] theorem bytes_image (f : UInt8 → UInt8) (w : Word) :
    bytes (image f w) = w.bytes.map f := bytes_ofBytes _ _ _ _

@[simp] theorem image_id (w : Word) : image id w = w := by
  rw [image, List.map_id, ofBytes_bytes]

end Word

variable {f : UInt8 → UInt8} {words bytes n : Nat}

/-- Four bytes make a word whose image is made of their images. Padding would not map to padding. -/
theorem Word.ofBytes_map {data : List UInt8} (h : data.length = Word.size) :
    Word.ofBytes (data.map f) = (Word.ofBytes data).image f := by
  match data, h with
  | [a, b, c, d], _ =>
    apply Word.bytes_injective
    simp only [Word.bytes_image, Word.bytes_ofBytes, List.map_cons, List.map_nil]

/-- The first `count` bytes replaced by their images. -/
def mapFront (f : UInt8 → UInt8) (count : Nat) (buffer : List UInt8) : List UInt8 :=
  (buffer.take count).map f ++ buffer.drop count

theorem mapFront_overwrite (arrived buffer : List UInt8) :
    mapFront f arrived.length (overwrite arrived buffer) = overwrite (arrived.map f) buffer := by
  simp [mapFront, overwrite]

theorem overwrite_all {arrived buffer : List UInt8} (h : buffer.length ≤ arrived.length) :
    overwrite arrived buffer = arrived := by
  rw [overwrite, List.drop_eq_nil_of_le h, List.append_nil]

@[simp] theorem mapFront_id (count : Nat) (buffer : List UInt8) :
    mapFront id count buffer = buffer := by
  rw [mapFront, List.map_id, List.take_append_drop]

namespace ShiftWord

structure Image (f : UInt8 → UInt8) (v w : ShiftWord) : Prop where
  left : v.Canonical
  right : w.Canonical
  bytes : w.bytes = v.bytes.map f

variable {v w : ShiftWord}

theorem image_empty : Image f .empty .empty := ⟨trivial, trivial, rfl⟩

theorem image_ofWord (word : Word) : Image f (.ofWord word) (.ofWord (word.image f)) :=
  ⟨trivial, trivial, Word.bytes_image f word⟩

theorem Image.len (h : v.Image f w) : w.len = v.len := by
  rw [← length_bytes h.right, ← length_bytes h.left, h.bytes, List.length_map]

theorem Image.isEmpty (h : v.Image f w) : w.isEmpty = v.isEmpty := by
  rw [Bool.eq_iff_iff, isEmpty_iff h.right, isEmpty_iff h.left, h.bytes, List.map_eq_nil_iff]

theorem Image.isFull (h : v.Image f w) : w.isFull = v.isFull := by
  rw [Bool.eq_iff_iff, isFull_iff_len h.right, isFull_iff_len h.left, h.len]

theorem Image.fullWord? (h : v.Image f w) : w.fullWord? = v.fullWord?.map (Word.image f) := by
  rcases hv : v.fullWord? with _ | x
  · exact isFull_eq_false_iff.1 (h.isFull.trans (isFull_eq_false_iff.2 hv))
  · have hv := fullWord?_eq_some_iff.1 hv
    rcases hw : w.fullWord? with _ | y
    · have hw := h.isFull.symm.trans (isFull_eq_false_iff.2 hw)
      rw [hv] at hw
      cases hw
    · have hb := h.bytes
      rw [hv, fullWord?_eq_some_iff.1 hw, bytes_full, bytes_full, ← Word.bytes_image] at hb
      rw [Word.bytes_injective hb, Option.map_some]

theorem push_of_full (h : v.isFull = true) (byte : UInt8) : v.push byte = v := by
  rw [push, push?_eq_none_iff.2 h, Option.getD_none]

theorem Image.push (h : v.Image f w) (byte : UInt8) : (v.push byte).Image f (w.push (f byte)) := by
  refine ⟨canonical_push h.left byte, canonical_push h.right (f byte), ?_⟩
  by_cases hf : v.isFull = true
  · rw [push_of_full hf, push_of_full (h.isFull.trans hf), h.bytes]
  · have hf := Bool.eq_false_iff.2 hf
    rw [bytes_push h.left hf, bytes_push h.right (h.isFull.trans hf), h.bytes, List.map_append]
    rfl

theorem Image.pop (h : v.Image f w) :
    Option.Rel (fun x y => y.1 = f x.1 ∧ x.2.Image f y.2) v.pop? w.pop? := by
  rcases hv : v.pop? with _ | ⟨a, v'⟩
  · have hempty := isEmpty_eq_true_iff.2 (pop?_eq_none_iff.1 hv)
    rw [pop?_eq_none_iff.2 (isEmpty_eq_true_iff.1 (h.isEmpty.trans hempty))]
    exact .none
  · have hb := h.bytes
    rw [bytes_pop h.left hv] at hb
    rcases hw : w.pop? with _ | ⟨b, w'⟩
    · rw [pop?_eq_none_iff.1 hw] at hb
      cases hb
    · rw [bytes_pop h.right hw, List.map_cons, List.cons.injEq] at hb
      exact .some ⟨hb.1, canonical_pop h.left hv, canonical_pop h.right hw, hb.2⟩

end ShiftWord

namespace Ring

variable {α β : Type} {g : α → β}

/-- Element for element; slots that hold nothing do not count. -/
def Image (g : α → β) (r : Ring α n) (s : Ring β n) : Prop := s.toList = r.toList.map g

variable {r : Ring α n} {s : Ring β n}

theorem image_reset (r : Ring α n) (s : Ring β n) : Image g r.reset s.reset := rfl

theorem Image.length (h : Image g r s) : s.toList.length = r.toList.length := by
  rw [h, List.length_map]

theorem Image.count (h : Image g r s) : s.count = r.count := by
  simpa only [length_toList] using h.length

theorem Image.isFull (h : Image g r s) : s.isFull = r.isFull := by
  rw [Ring.isFull, Ring.isFull, h.count]

theorem Image.push (h : Image g r s) (a : α) : Lockstep (Image g) (r.push a) (s.push (g a)) := by
  rcases hr : r.push a with e | r'
  · obtain ⟨rfl, hfull⟩ := push_eq_error_iff.1 hr
    rw [push_eq_error_iff.2 ⟨rfl, h.length.trans hfull⟩]
    exact .error _
  · rcases hs : s.push (g a) with e | s'
    · have hfull := h.length.symm.trans (push_eq_error_iff.1 hs).2
      cases hr.symm.trans (push_eq_error_iff.2 ⟨rfl, hfull⟩)
    · apply Lockstep.ok
      rw [Image, toList_push hr, toList_push hs, h, List.map_append]
      rfl

theorem Image.pop (h : Image g r s) :
    Lockstep (fun x y => y.1 = g x.1 ∧ Image g x.2 y.2) r.pop s.pop := by
  rcases hr : r.pop with e | ⟨a, r'⟩
  · obtain ⟨rfl, hempty⟩ := pop_eq_error_iff.1 hr
    rw [pop_eq_error_iff.2 ⟨rfl, h.trans (by rw [hempty]; rfl)⟩]
    exact .error _
  · have hlist : s.toList = g a :: r'.toList.map g := by rw [h, toList_pop hr, List.map_cons]
    rcases hs : s.pop with e | ⟨b, s'⟩
    · cases hlist.symm.trans (pop_eq_error_iff.1 hs).2
    · rw [toList_pop hs, List.cons.injEq] at hlist
      exact .ok hlist

end Ring

namespace ByteFifo

variable {r s : ByteFifo n}

theorem image_feed (h : Ring.Image f r s) (data : List UInt8) :
    (s.feed (data.map f)).1 = (r.feed data).1 ∧
      Ring.Image f (r.feed data).2 (s.feed (data.map f)).2 := by
  have hcount : (s.feed (data.map f)).1 = (r.feed data).1 := by
    rw [fst_feed, fst_feed, List.length_map, h.length]
  refine ⟨hcount, ?_⟩
  rw [Ring.Image, toList_feed, toList_feed, hcount, h, List.map_append, List.map_take]

theorem image_take (h : Ring.Image f r s) (max : Nat) :
    (s.take max).1 = (r.take max).1.map f ∧ Ring.Image f (r.take max).2 (s.take max).2 := by
  constructor
  · rw [fst_take, fst_take, h, List.map_take]
  · rw [Ring.Image, toList_take, toList_take, h, List.map_drop]

end ByteFifo

/-- The command with its payload replaced; a buffer to fill is not payload. -/
def FifoCommand.image (f : UInt8 → UInt8) : FifoCommand → FifoCommand
  | .push side byte => .push side (f byte)
  | .feed side data => .feed side (data.map f)
  | command => command

def FifoReply.image (f : UInt8 → UInt8) : FifoReply → FifoReply
  | .byte b => .byte (f b)
  | .filled n buffer => .filled n (mapFront f n buffer)
  | reply => reply

@[simp] theorem FifoReply.image_id (reply : FifoReply) : reply.image id = reply := by
  cases reply <;> simp [image]

namespace PortFifos

structure Image (f : UInt8 → UInt8) (p q : PortFifos n) : Prop where
  tx : Ring.Image f p.tx q.tx
  rx : Ring.Image f p.rx q.rx

variable {p q : PortFifos n}

theorem Image.side (h : p.Image f q) (side : FifoSide) :
    Ring.Image f (p.side side) (q.side side) := by
  cases side with
  | tx => exact h.tx
  | rx => exact h.rx

theorem Image.withSide (h : p.Image f q) {a b : ByteFifo n} (hab : Ring.Image f a b)
    (side : FifoSide) : (p.withSide a side).Image f (q.withSide b side) := by
  cases side with
  | tx => exact ⟨hab, h.rx⟩
  | rx => exact ⟨h.tx, hab⟩

theorem Image.loopback (h : p.Image f q) (max : Nat) :
    (q.loopback max).1 = (p.loopback max).1 ∧ (p.loopback max).2.Image f (q.loopback max).2 := by
  have hcount : (q.loopback max).1 = (p.loopback max).1 := by
    rw [fst_loopback, fst_loopback, h.tx.length, h.rx.length]
  obtain ⟨htx, hrx⟩ := p.toList_loopback max
  obtain ⟨htx', hrx'⟩ := q.toList_loopback max
  refine ⟨hcount, ?_, ?_⟩
  · rw [Ring.Image, htx, htx', hcount, h.tx, List.map_drop]
  · rw [Ring.Image, hrx, hrx', hcount, h.tx, h.rx, List.map_append, List.map_take]

theorem Image.execute (h : p.Image f q) (command : FifoCommand) :
    (q.execute (command.image f)).1 = (p.execute command).1.map (FifoReply.image f) ∧
      (p.execute command).2.Image f (q.execute (command.image f)).2 := by
  cases command with
  | push side byte =>
    have hpush := (h.side side).push byte
    simp only [PortFifos.execute, FifoCommand.image]
    generalize (p.side side).push byte = x, (q.side side).push (f byte) = y at hpush ⊢
    cases hpush with
    | error e => exact ⟨rfl, h⟩
    | ok hf => exact ⟨rfl, h.withSide hf side⟩
  | pop side =>
    have hpop := (h.side side).pop
    simp only [PortFifos.execute, FifoCommand.image]
    generalize (p.side side).pop = x, (q.side side).pop = y at hpop ⊢
    cases hpop with
    | error e => exact ⟨rfl, h⟩
    | ok hf =>
      refine ⟨?_, h.withSide hf.2 side⟩
      simp only [hf.1, Except.map, FifoReply.image]
  | feed side data =>
    obtain ⟨hcount, hf⟩ := ByteFifo.image_feed (h.side side) data
    refine ⟨?_, h.withSide hf side⟩
    simp only [PortFifos.execute, FifoCommand.image, hcount, Except.map, FifoReply.image]
  | take side buffer =>
    obtain ⟨htaken, hf⟩ := ByteFifo.image_take (h.side side) buffer.length
    refine ⟨?_, h.withSide hf side⟩
    simp only [PortFifos.execute, FifoCommand.image, htaken, List.length_map, Except.map,
      FifoReply.image, mapFront_overwrite]
  | reset side => exact ⟨rfl, h.withSide (Ring.image_reset _ _) side⟩
  | loopback max =>
    obtain ⟨hcount, hf⟩ := h.loopback max
    refine ⟨?_, hf⟩
    simp only [PortFifos.execute, FifoCommand.image, hcount, Except.map, FifoReply.image]
  | resetBoth => exact ⟨rfl, rfl, rfl⟩

end PortFifos

namespace WordQueue

structure Image (f : UInt8 → UInt8) (q r : WordQueue n) : Prop where
  initialized : r.initialized = q.initialized
  ring : Ring.Image (Word.image f) q.ring r.ring

variable {q r : WordQueue n}

theorem Image.size (h : q.Image f r) : r.size = q.size := by
  rw [WordQueue.size, WordQueue.size, h.initialized, h.ring.count]

theorem Image.isEmpty (h : q.Image f r) : r.isEmpty = q.isEmpty := by
  rw [WordQueue.isEmpty, WordQueue.isEmpty, h.size]

theorem Image.push (h : q.Image f r) (word : Word) :
    Lockstep (Image f) (q.push word) (r.push (word.image f)) := by
  have hpush := h.ring.push word
  simp only [WordQueue.push, h.initialized]
  split
  · generalize q.ring.push word = x, r.ring.push (word.image f) = y at hpush ⊢
    cases hpush with
    | error e => exact .error e
    | ok hring => exact .ok ⟨rfl, hring⟩
  · exact .error _

theorem Image.pop (h : q.Image f r) :
    Lockstep (fun x y => y.1 = x.1.image f ∧ x.2.Image f y.2) q.pop r.pop := by
  have hpop := h.ring.pop
  simp only [WordQueue.pop, h.initialized]
  split
  · generalize q.ring.pop = x, r.ring.pop = y at hpop ⊢
    cases hpop with
    | error e => exact .error e
    | ok hring => exact .ok ⟨hring.1, rfl, hring.2⟩
  · exact .error _

theorem image_start (q r : WordQueue n) : q.start.Image f r.start := ⟨rfl, rfl⟩

theorem image_stop (q r : WordQueue n) : q.stop.Image f r.stop := ⟨rfl, rfl⟩

end WordQueue

namespace WordPipe

structure Image (f : UInt8 → UInt8) (p q : WordPipe n) : Prop where
  filling : p.filling.Image f q.filling
  queue : p.queue.Image f q.queue
  draining : p.draining.Image f q.draining

variable {p q : WordPipe n}

theorem Image.size (h : p.Image f q) : q.size = p.size := by
  rw [WordPipe.size, WordPipe.size, h.queue.size, h.filling.len, h.draining.len]

theorem Image.isEmpty (h : p.Image f q) : q.isEmpty = p.isEmpty := by
  rw [WordPipe.isEmpty, WordPipe.isEmpty, h.draining.isEmpty, h.queue.isEmpty, h.filling.isEmpty]

theorem Image.flush (h : p.Image f q) : Lockstep (Image f) p.flush q.flush := by
  simp only [WordPipe.flush, h.filling.fullWord?]
  rcases p.filling.fullWord? with _ | word
  · exact .ok h
  · have hpush := h.queue.push word
    simp only [Option.map_some]
    generalize p.queue.push word = x, q.queue.push (word.image f) = y at hpush ⊢
    cases hpush with
    | error e => exact .error e
    | ok hqueue => exact .ok ⟨ShiftWord.image_empty, hqueue, h.draining⟩

theorem Image.push (h : p.Image f q) (byte : UInt8) :
    Lockstep (Image f) (p.push byte) (q.push (f byte)) := by
  have hflush := h.flush
  simp only [WordPipe.push]
  generalize p.flush = x, q.flush = y at hflush ⊢
  cases hflush with
  | error e => exact .error e
  | ok h => exact .ok ⟨h.filling.push byte, h.queue, h.draining⟩

theorem Image.pushAll (h : p.Image f q) (data : List UInt8) :
    (q.pushAll (data.map f)).1 = (p.pushAll data).1 ∧
      (q.pushAll (data.map f)).2.1 = (p.pushAll data).2.1 ∧
      (p.pushAll data).2.2.Image f (q.pushAll (data.map f)).2.2 := by
  induction data generalizing p q with
  | nil => exact ⟨rfl, rfl, h⟩
  | cons byte rest ih =>
    have hpush := h.push byte
    simp only [WordPipe.pushAll, List.map_cons]
    generalize p.push byte = x, q.push (f byte) = y at hpush ⊢
    cases hpush with
    | error e => exact ⟨rfl, rfl, h⟩
    | ok h =>
      obtain ⟨hcount, hstop, hpipe⟩ := ih h
      exact ⟨congrArg (· + 1) hcount, hstop, hpipe⟩

theorem Image.load (h : p.Image f q) : Lockstep (Image f) p.load q.load := by
  simp only [WordPipe.load, h.draining.isEmpty, h.queue.isEmpty, h.filling.isEmpty]
  split
  · exact .ok h
  · split
    · exact .ok ⟨ShiftWord.image_empty, h.queue, h.filling⟩
    · have hpop := h.queue.pop
      generalize p.queue.pop = x, q.queue.pop = y at hpop ⊢
      cases hpop with
      | error e => exact .error e
      | @ok a b hqueue =>
        refine .ok ⟨h.filling, hqueue.2, ?_⟩
        rw [hqueue.1]
        exact ShiftWord.image_ofWord a.1

def ImagePopped (f : UInt8 → UInt8) :
    Option (UInt8 × WordPipe n) → Option (UInt8 × WordPipe n) → Prop :=
  Option.Rel fun x y => y.1 = f x.1 ∧ x.2.Image f y.2

theorem Image.pop (h : p.Image f q) : Lockstep (ImagePopped f) p.pop q.pop := by
  have hdrain := h.draining.pop
  simp only [WordPipe.pop]
  generalize p.draining.pop? = x, q.draining.pop? = y at hdrain ⊢
  cases hdrain with
  | some hd => exact .ok (.some ⟨hd.1, h.filling, h.queue, hd.2⟩)
  | none =>
    have hpop := h.queue.pop
    generalize p.queue.pop = x, q.queue.pop = y at hpop ⊢
    cases hpop with
    | @ok a b hqueue =>
      have hword := (ShiftWord.image_ofWord (f := f) a.1).pop
      rw [← hqueue.1] at hword
      apply Lockstep.ok
      generalize (ShiftWord.ofWord a.1).pop? = x, (ShiftWord.ofWord b.1).pop? = y at hword ⊢
      cases hword with
      | none => exact .none
      | some hw => exact .some ⟨hw.1, h.filling, hqueue.2, hw.2⟩
    | error e =>
      cases e with
      | empty =>
        have hfill := h.filling.pop
        apply Lockstep.ok
        generalize p.filling.pop? = x, q.filling.pop? = y at hfill ⊢
        cases hfill with
        | none => exact .none
        | some hw => exact .some ⟨hw.1, hw.2, h.queue, h.draining⟩
      | full | notInitialized => exact .error _

theorem Image.take (h : p.Image f q) (max : Nat) :
    (q.take max).1 = (p.take max).1.map f ∧ (q.take max).2.1 = (p.take max).2.1 ∧
      (p.take max).2.2.Image f (q.take max).2.2 := by
  induction max generalizing p q with
  | zero => exact ⟨rfl, rfl, h⟩
  | succ max ih =>
    have hpop := h.pop
    simp only [WordPipe.take]
    generalize p.pop = x, q.pop = y at hpop ⊢
    cases hpop with
    | error e => exact ⟨rfl, rfl, h⟩
    | ok hpopped =>
      cases hpopped with
      | none => exact ⟨rfl, rfl, h⟩
      | @some a b hbyte =>
        obtain ⟨htaken, hstop, hpipe⟩ := ih hbyte.2
        refine ⟨?_, hstop, hpipe⟩
        simp only [htaken, hbyte.1, List.map_cons]

theorem Image.pushWord (h : p.Image f q) (word : Word) :
    Lockstep (Image f) (p.pushWord word) (q.pushWord (word.image f)) := by
  have hpush := h.queue.push word
  simp only [WordPipe.pushWord]
  generalize p.queue.push word = x, q.queue.push (word.image f) = y at hpush ⊢
  cases hpush with
  | error e => exact .error e
  | ok hqueue => exact .ok ⟨h.filling, hqueue, h.draining⟩

theorem Image.popWord (h : p.Image f q) :
    Lockstep (fun x y => y.1 = x.1.image f ∧ x.2.Image f y.2) p.popWord q.popWord := by
  have hpop := h.queue.pop
  simp only [WordPipe.popWord, h.queue.isEmpty, h.filling.fullWord?]
  generalize p.queue.pop = x, q.queue.pop = y at hpop ⊢
  rcases p.queue.isEmpty with _ | _ <;> rcases p.filling.fullWord? with _ | word
  case true.some => exact .ok ⟨rfl, ShiftWord.image_empty, h.queue, h.draining⟩
  all_goals
    cases hpop with
    | error e => exact .error e
    | ok hqueue => exact .ok ⟨hqueue.1, h.filling, hqueue.2, h.draining⟩

end WordPipe

end PolledUart
