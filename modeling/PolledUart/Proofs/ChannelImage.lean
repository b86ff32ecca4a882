import PolledUart.Proofs.Chunking
import PolledUart.Proofs.Image

/-!
# Acts on images

The sending side, the receiving side and the channel of a port, given images of bytes, move as many
of them, fail where they failed before, and deliver images. Only reading a word needs more than the
relation: its four bytes have to be there, since missing ones would be padding.
-/

set_option autoImplicit false

namespace PolledUart

variable {f : UInt8 → UInt8} {words bytes : Nat}

namespace Transmitter

structure Image (f : UInt8 → UInt8) (t u : Transmitter words bytes) : Prop where
  pipe : t.pipe.Image f u.pipe
  fifo : Ring.Image f t.fifo u.fifo

variable {t u : Transmitter words bytes}

theorem Image.write (h : t.Image f u) (data : List UInt8) :
    (u.write (data.map f)).1 = (t.write data).1 ∧
      (t.write data).2.Image f (u.write (data.map f)).2 := by
  obtain ⟨hcount, hstop, hpipe⟩ := h.pipe.pushAll data
  simp only [Transmitter.write]
  generalize t.pipe.pushAll data = x, u.pipe.pushAll (data.map f) = y at hcount hstop hpipe ⊢
  obtain ⟨taken, stop, p⟩ := x
  obtain ⟨taken', stop', q⟩ := y
  cases hcount
  cases hstop
  cases stop with
  | some e => exact ⟨rfl, hpipe, h.fifo⟩
  | none =>
    have hflush := hpipe.flush
    simp only
    generalize p.flush = x, q.flush = y at hflush ⊢
    cases hflush with
    | ok hflushed => exact ⟨rfl, hflushed, h.fifo⟩
    | error e => cases e <;> exact ⟨rfl, hpipe, h.fifo⟩

theorem Image.writeWord (h : t.Image f u) (word : Word) :
    (u.writeWord (word.image f)).1 = (t.writeWord word).1 ∧
      (t.writeWord word).2.Image f (u.writeWord (word.image f)).2 := by
  have hpush := h.pipe.pushWord word
  simp only [Transmitter.writeWord]
  generalize t.pipe.pushWord word = x, u.pipe.pushWord (word.image f) = y at hpush ⊢
  cases hpush with
  | error e => exact ⟨rfl, h⟩
  | ok hpipe => exact ⟨rfl, hpipe, h.fifo⟩

theorem Image.transmit (h : t.Image f u) (max : Nat) :
    (u.transmit max).1 = (t.transmit max).1 ∧ (t.transmit max).2.Image f (u.transmit max).2 := by
  induction max generalizing t u with
  | zero => exact ⟨rfl, h⟩
  | succ max ih =>
    simp only [Transmitter.transmit, h.fifo.isFull]
    split
    · exact ⟨rfl, h⟩
    · have hload := h.pipe.load
      generalize t.pipe.load = x, u.pipe.load = y at hload ⊢
      cases hload with
      | error e => cases e <;> exact ⟨rfl, h⟩
      | @ok p q hpipe =>
        have hpop := hpipe.draining.pop
        simp only
        generalize p.draining.pop? = x, q.draining.pop? = y at hpop ⊢
        cases hpop with
        | none => exact ⟨rfl, hpipe, h.fifo⟩
        | @some a b hbyte =>
          -- The FIFO of the second run is offered the image of the byte that the first is offered.
          have hpush := h.fifo.push a.1
          rw [← hbyte.1] at hpush
          simp only
          generalize t.fifo.push a.1 = x, u.fifo.push b.1 = y at hpush ⊢
          cases hpush with
          | error e => exact ⟨rfl, hpipe, h.fifo⟩
          | @ok fifo fifo' hfifo =>
            obtain ⟨hsent, hrest⟩ := ih (t := ⟨{ p with draining := a.2 }, fifo⟩)
              (u := ⟨{ q with draining := b.2 }, fifo'⟩)
              ⟨⟨hpipe.filling, hpipe.queue, hbyte.2⟩, hfifo⟩
            exact ⟨congrArg (Except.map (· + 1)) hsent, hrest⟩

theorem Image.nextWord (h : t.Image f u) :
    u.nextWord.1 = t.nextWord.1.map (Word.image f) ∧ t.nextWord.2.Image f u.nextWord.2 := by
  have hpop := h.pipe.popWord
  simp only [Transmitter.nextWord]
  generalize t.pipe.popWord = x, u.pipe.popWord = y at hpop ⊢
  cases hpop with
  | error e => exact ⟨rfl, h⟩
  | ok hword => exact ⟨congrArg Except.ok hword.1, hword.2, h.fifo⟩

end Transmitter

namespace Receiver

structure Image (f : UInt8 → UInt8) (r u : Receiver words bytes) : Prop where
  fifo : Ring.Image f r.fifo u.fifo
  pipe : r.pipe.Image f u.pipe

variable {r u : Receiver words bytes}

theorem Image.collect (h : r.Image f u) (max : Nat) :
    (u.collect max).1 = (r.collect max).1 ∧ (u.collect max).2.1 = (r.collect max).2.1 ∧
      (r.collect max).2.2.Image f (u.collect max).2.2 := by
  induction max generalizing r u with
  | zero => exact ⟨rfl, rfl, h⟩
  | succ max ih =>
    have hflush := h.pipe.flush
    simp only [Receiver.collect]
    generalize r.pipe.flush = x, u.pipe.flush = y at hflush ⊢
    cases hflush with
    | error e => exact ⟨rfl, rfl, h⟩
    | @ok p q hpipe =>
      have hpop := h.fifo.pop
      simp only
      generalize r.fifo.pop = x, u.fifo.pop = y at hpop ⊢
      cases hpop with
      | error e => exact ⟨rfl, rfl, h.fifo, hpipe⟩
      | @ok a b hbyte =>
        have hfilling := hpipe.filling.push a.1
        rw [← hbyte.1] at hfilling
        obtain ⟨hmoved, hstop, hrest⟩ :=
          ih (r := ⟨a.2, { p with filling := p.filling.push a.1 }⟩)
            (u := ⟨b.2, { q with filling := q.filling.push b.1 }⟩)
            ⟨hbyte.2, hfilling, hpipe.queue, hpipe.draining⟩
        exact ⟨congrArg (· + 1) hmoved, hstop, hrest⟩

theorem Image.receive (h : r.Image f u) (max : Nat) :
    (u.receive max).1 = (r.receive max).1 ∧ (r.receive max).2.Image f (u.receive max).2 := by
  obtain ⟨hmoved, hstop, hrest⟩ := h.collect max
  simp only [Receiver.receive]
  generalize r.collect max = x, u.collect max = y at hmoved hstop hrest ⊢
  obtain ⟨moved, stop, r'⟩ := x
  obtain ⟨moved', stop', u'⟩ := y
  cases hmoved
  cases hstop
  cases stop with
  | some e => cases e <;> exact ⟨rfl, hrest⟩
  | none =>
    have hflush := hrest.pipe.flush
    simp only
    generalize r'.pipe.flush = x, u'.pipe.flush = y at hflush ⊢
    cases hflush with
    | ok hpipe => exact ⟨rfl, hrest.fifo, hpipe⟩
    | error e => cases e <;> exact ⟨rfl, hrest⟩

theorem Image.read (h : r.Image f u) (buffer : List UInt8) :
    (u.read buffer).1.1 = (r.read buffer).1.1 ∧
      (u.read buffer).1.2 = mapFront f (movedBy (r.read buffer).1.1) (r.read buffer).1.2 ∧
      (r.read buffer).2.Image f (u.read buffer).2 := by
  obtain ⟨htaken, hstop, hpipe⟩ := h.pipe.take buffer.length
  obtain ⟨hcount, hbuffer, hleft⟩ := r.read_eq buffer
  obtain ⟨-, hbuffer', hleft'⟩ := u.read_eq buffer
  refine ⟨?_, ?_, ?_⟩
  · simp only [Receiver.read]
    generalize r.pipe.take buffer.length = x, u.pipe.take buffer.length = y at htaken hstop ⊢
    obtain ⟨taken, stop, p⟩ := x
    obtain ⟨taken', stop', q⟩ := y
    cases htaken
    cases hstop
    cases stop with
    | some e => simp only [List.length_map]
    | none =>
      simp only [List.isEmpty_map, List.length_map]
      split <;> rfl
  · rw [hbuffer, hbuffer', hcount, htaken, mapFront_overwrite]
  · rw [hleft, hleft']
    exact ⟨h.fifo, hpipe⟩

/-- With four bytes in the pipe the buffer of a word is filled, so none of its bytes is padding. -/
theorem Image.read_four (h : r.Image f u) (hr : r.pipe.Ready) (hsize : Word.size ≤ r.pipe.size) :
    Word.ofBytes (u.read (List.replicate Word.size 0)).1.2 =
      (Word.ofBytes (r.read (List.replicate Word.size 0)).1.2).image f := by
  have hlength : (r.pipe.take Word.size).1.length = Word.size := by
    obtain ⟨p, htake, -⟩ := WordPipe.take_ready hr Word.size
    rw [htake, List.length_take, ← WordPipe.size_eq_length hr.toCanonical, Nat.min_eq_left hsize]
  obtain ⟨-, hbuffer, -⟩ := r.read_eq (List.replicate Word.size 0)
  obtain ⟨-, hbuffer', -⟩ := u.read_eq (List.replicate Word.size 0)
  rw [List.length_replicate, overwrite_all (by rw [List.length_replicate, hlength])] at hbuffer
  rw [List.length_replicate, (h.pipe.take Word.size).1,
    overwrite_all (by rw [List.length_replicate, List.length_map, hlength])] at hbuffer'
  rw [hbuffer, hbuffer', Word.ofBytes_map hlength]

theorem Image.readWord (h : r.Image f u) (hr : r.pipe.Ready) :
    u.readWord.1 = r.readWord.1.map (Word.image f) ∧ r.readWord.2.Image f u.readWord.2 := by
  simp only [Receiver.readWord, h.pipe.queue.initialized, h.pipe.size]
  split
  · exact ⟨rfl, h⟩
  · split
    · exact ⟨rfl, h⟩
    · rename_i hsize
      have hword := h.read_four hr (Nat.not_lt.1 hsize)
      obtain ⟨hresult, -, hleft⟩ := h.read (List.replicate Word.size 0)
      generalize r.read _ = x, u.read _ = y at hword hresult hleft ⊢
      obtain ⟨⟨result, filled⟩, r'⟩ := x
      obtain ⟨⟨result', filled'⟩, u'⟩ := y
      cases hresult
      cases result with
      | error e => exact ⟨rfl, hleft⟩
      | ok count => exact ⟨congrArg Except.ok hword, hleft⟩

end Receiver

/-- The act with its payload replaced; a buffer to read into is not payload. -/
def Act.image (f : UInt8 → UInt8) : Act → Act
  | .write data => .write (data.map f)
  | .writeWord word => .writeWord (word.image f)
  | .fifos command => .fifos (command.image f)
  | act => act

variable {R : Type}

structure Device.Image (f : UInt8 → UInt8) (d e : Device R words) : Prop where
  port : e.port = d.port
  binding : e.binding = d.binding
  configured : e.configured = d.configured
  mode : e.mode = d.mode
  txQueue : d.txQueue.Image f e.txQueue
  rxQueue : d.rxQueue.Image f e.rxQueue

theorem Device.Image.configure {d e : Device R words} (h : d.Image f e) (mode : PortMode) :
    (d.configure mode).Image f (e.configure mode) := by
  cases mode with
  | serial =>
    exact ⟨h.port, h.binding, rfl, rfl, WordQueue.image_start _ _, WordQueue.image_start _ _⟩
  | discrete => exact ⟨h.port, h.binding, rfl, rfl, h.txQueue, h.rxQueue⟩

theorem Device.Image.rebind {d e : Device R words} (h : d.Image f e) (binding : Binding R) :
    Device.Image f { d with binding } { e with binding } :=
  ⟨h.port, rfl, h.configured, h.mode, h.txQueue, h.rxQueue⟩

def Answer.Image {μ : Type} (f : UInt8 → UInt8) : Answer μ R words → Answer μ R words → Prop
  | .word w, b => b = .word (w.image f)
  | .filled n buffer, b => b = .filled n (mapFront f n buffer)
  | .fifo reply, b => b = .fifo (reply.image f)
  | .device d, .device e => d.Image f e
  | a, b => b = a

section Act

variable {μ : Type}

theorem Act.refusal_image (act : Act) (cause : SetupError) :
    Lockstep (Answer.Image f) (act.refusal cause : Reply μ R words)
      ((act.image f).refusal cause) := by
  cases act <;> exact .error _

theorem Act.log_image (act : Act) (d : Descriptor) {r r' : Reply μ R words}
    (h : Lockstep (Answer.Image f) r r') : (act.image f).log d r' = act.log d r := by
  cases act with
  | write data =>
    cases h with
    | error e => cases e <;> simp only [log, image, List.length_map]
    | ok ha => rfl
  | _ => rfl

end Act

/-- The outcomes of a step in two runs: related values and states, and the same log. -/
structure Outcome.Rel {σ τ α β : Type} (S : σ → τ → Prop) (A : α → β → Prop) (o : Outcome σ α)
    (o' : Outcome τ β) : Prop where
  value : A o.value o'.value
  state : S o.state o'.state
  log : o'.log = o.log

section reply

variable {σ τ ε α μ : Type} {S : σ → τ → Prop} {failure : ε → Failure}

theorem Outcome.Rel.reply {β : Type} {A : α → β → Prop} {o : Outcome σ (Except ε α)}
    {o' : Outcome τ (Except ε β)} {answer : α → Answer μ R words} {answer' : β → Answer μ R words}
    (h : Outcome.Rel S (Lockstep A) o o') (ha : ∀ a b, A a b → (answer a).Image f (answer' b)) :
    Outcome.Rel S (Lockstep (Answer.Image f)) (o.reply failure answer)
      (o'.reply failure answer') := by
  obtain ⟨value, state, log⟩ := o
  obtain ⟨value', state', log'⟩ := o'
  refine ⟨?_, h.state, h.log⟩
  have hvalue := h.value
  simp only [Outcome.reply]
  cases hvalue with
  | error e => exact .error _
  | ok hab => exact .ok (ha _ _ hab)

theorem Lockstep.answer {β : Type} {A : α → β → Prop} {x : Except ε α} {y : Except ε β}
    {answer : α → Answer μ R words} {answer' : β → Answer μ R words} (h : Lockstep A x y)
    (ha : ∀ a b, A a b → (answer a).Image f (answer' b)) :
    Lockstep (Answer.Image f) ((x.mapError failure).map answer)
      ((y.mapError failure).map answer') := by
  cases h with
  | error e => exact .error _
  | ok hab => exact .ok (ha _ _ hab)

theorem Outcome.Rel.reply_eq {o : Outcome σ (Except ε α)} {o' : Outcome τ (Except ε α)}
    {answer : α → Answer μ R words} (h : Outcome.Rel S Eq o o')
    (ha : ∀ a, (answer a).Image f (answer a)) :
    Outcome.Rel S (Lockstep (Answer.Image f)) (o.reply failure answer)
      (o'.reply failure answer) := by
  have h : Outcome.Rel S (Lockstep Eq) o o' := ⟨.of_eq h.value.symm, h.state, h.log⟩
  exact h.reply (by rintro a _ rfl; exact ha a)

end reply

namespace Channel

structure Image (f : UInt8 → UInt8) (c d : Channel words bytes) : Prop where
  tx : c.tx.Image f d.tx
  rx : c.rx.Image f d.rx

variable {c d : Channel words bytes}

theorem Image.poll (h : c.Image f d) (maxTx maxRx : Nat) :
    (d.poll maxTx maxRx).1 = (c.poll maxTx maxRx).1 ∧
      (c.poll maxTx maxRx).2.Image f (d.poll maxTx maxRx).2 := by
  obtain ⟨hsent, htx⟩ := h.tx.transmit maxTx
  obtain ⟨hmoved, hrx⟩ := h.rx.receive maxRx
  simp only [Channel.poll]
  generalize c.tx.transmit maxTx = x, d.tx.transmit maxTx = y at hsent htx ⊢
  obtain ⟨sent, t⟩ := x
  obtain ⟨sent', u⟩ := y
  cases hsent
  cases sent with
  | error e => exact ⟨rfl, htx, h.rx⟩
  | ok sent =>
    simp only [htx.pipe.isEmpty]
    split
    · exact ⟨rfl, htx, h.rx⟩
    · generalize c.rx.receive maxRx = x, d.rx.receive maxRx = y at hmoved hrx ⊢
      obtain ⟨moved, r⟩ := x
      obtain ⟨moved', v⟩ := y
      cases hmoved
      cases moved <;> exact ⟨rfl, htx, hrx⟩

variable {μ : Type}

theorem Image.perform (h : c.Image f d) (hc : c.Ready) (act : Act) :
    Outcome.Rel (Image f) (Lockstep (Answer.Image f)) (c.perform μ R act)
      (d.perform μ R (act.image f)) := by
  cases act with
  | write data =>
    obtain ⟨hresult, htx⟩ := h.tx.write data
    exact Outcome.Rel.reply ⟨.of_eq hresult, ⟨htx, h.rx⟩, rfl⟩ (by rintro a _ rfl; rfl)
  | writeWord word =>
    obtain ⟨hresult, htx⟩ := h.tx.writeWord word
    exact Outcome.Rel.reply ⟨.of_eq hresult, ⟨htx, h.rx⟩, rfl⟩ fun _ _ _ => rfl
  | transmit max =>
    obtain ⟨hresult, htx⟩ := h.tx.transmit max
    exact Outcome.Rel.reply ⟨.of_eq hresult, ⟨htx, h.rx⟩, rfl⟩ (by rintro a _ rfl; rfl)
  | nextTxWord =>
    obtain ⟨hresult, htx⟩ := h.tx.nextWord
    exact Outcome.Rel.reply ⟨.of_map hresult, ⟨htx, h.rx⟩, rfl⟩ (by rintro a _ rfl; rfl)
  | receive max =>
    obtain ⟨hresult, hrx⟩ := h.rx.receive max
    exact Outcome.Rel.reply ⟨.of_eq hresult, ⟨h.tx, hrx⟩, rfl⟩ (by rintro a _ rfl; rfl)
  | read buffer =>
    obtain ⟨hresult, hbuffer, hrx⟩ := h.rx.read buffer
    simp only [Channel.perform, Act.image, onRx]
    generalize c.rx.read buffer = x, d.rx.read buffer = y at hresult hbuffer hrx ⊢
    obtain ⟨⟨result, filled⟩, r⟩ := x
    obtain ⟨⟨result', filled'⟩, u⟩ := y
    cases hresult
    cases hbuffer
    refine ⟨?_, ⟨h.tx, hrx⟩, rfl⟩
    cases result with
    | error e => exact .error _
    | ok count => exact .ok rfl
  | readWord =>
    obtain ⟨hresult, hrx⟩ := h.rx.readWord hc.rx
    exact Outcome.Rel.reply ⟨.of_map hresult, ⟨h.tx, hrx⟩, rfl⟩ (by rintro a _ rfl; rfl)
  | poll maxTx maxRx =>
    obtain ⟨hresult, hpolled⟩ := h.poll maxTx maxRx
    exact Outcome.Rel.reply ⟨.of_eq hresult, hpolled, rfl⟩ (by rintro a _ rfl; rfl)
  | fifos command =>
    have hfifos : c.fifos.Image f d.fifos := ⟨h.tx.fifo, h.rx.fifo⟩
    obtain ⟨hresult, hmoved⟩ := hfifos.execute command
    exact Outcome.Rel.reply ⟨.of_map hresult, ⟨⟨h.tx.pipe, hmoved.tx⟩, ⟨hmoved.rx, h.rx.pipe⟩⟩, rfl⟩
      (by rintro a _ rfl; rfl)

end Channel

end PolledUart
