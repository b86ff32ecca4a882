import PolledUart.Call
import PolledUart.Proofs.Transfer

/-!
# A port on its own

An act is what a call can ask of one open serial port: a transfer, or something on the hardware
side of its FIFOs. Acts run on a channel alone, with the replies that the driver gives, and the
record of a run has each act with its reply and the FIFOs it met. A driver call that moves data
is an act on the channel that its descriptor stands for.
-/

set_option autoImplicit false

namespace PolledUart

inductive Act where
  | write (data : List UInt8)
  | writeWord (word : Word)
  | transmit (max : Nat)
  | nextTxWord
  | receive (max : Nat)
  | read (buffer : List UInt8)
  | readWord
  | poll (maxTx maxRx : Nat)
  | fifos (command : FifoCommand)
  deriving DecidableEq, Repr

/-- An act as it was made: the FIFOs before it and the reply to it. -/
structure PortStep (μ R : Type) (words bytes : Nat) where
  before : PortFifos bytes
  act : Act
  reply : Reply μ R words

def Outcome.ofStep {σ α : Type} (step : α × σ) : Outcome σ α := ⟨step.1, step.2, []⟩

namespace Channel

variable {words bytes : Nat} (μ R : Type)

def fifos (c : Channel words bytes) : PortFifos bytes := ⟨c.tx.fifo, c.rx.fifo⟩

def withFifos (c : Channel words bytes) (p : PortFifos bytes) : Channel words bytes :=
  ⟨{ c.tx with fifo := p.tx }, { c.rx with fifo := p.rx }⟩

def perform (c : Channel words bytes) : Act → Outcome (Channel words bytes) (Reply μ R words)
  | .write data => (Outcome.ofStep (c.onTx (·.write data))).reply .transfer .count
  | .writeWord word =>
    (Outcome.ofStep (c.onTx (·.writeWord word))).reply .general fun _ => .done
  | .transmit max => (Outcome.ofStep (c.onTx (·.transmit max))).reply .general .count
  | .nextTxWord => (Outcome.ofStep (c.onTx (·.nextWord))).reply .general .word
  | .receive max => (Outcome.ofStep (c.onRx (·.receive max))).reply .general .count
  | .read buffer =>
    let ((result, filled), c) := c.onRx (·.read buffer)
    (Outcome.ofStep (result, c)).reply .transfer (.filled · filled)
  | .readWord => (Outcome.ofStep (c.onRx (·.readWord))).reply .general .word
  | .poll maxTx maxRx => (Outcome.ofStep (c.poll maxTx maxRx)).reply .general .polled
  | .fifos command =>
    let (result, p) := c.fifos.execute command
    (Outcome.ofStep (result, c.withFifos p)).reply .queue .fifo

def after (c : Channel words bytes) : List Act → Channel words bytes
  | [] => c
  | act :: rest => (c.perform μ R act).state.after rest

def step (c : Channel words bytes) (act : Act) : PortStep μ R words bytes :=
  ⟨c.fifos, act, (c.perform μ R act).value⟩

def steps (c : Channel words bytes) : List Act → List (PortStep μ R words bytes)
  | [] => []
  | act :: rest => c.step μ R act :: (c.perform μ R act).state.steps rest

theorem after_append (c : Channel words bytes) (acts rest : List Act) :
    c.after μ R (acts ++ rest) = (c.after μ R acts).after μ R rest := by
  induction acts generalizing c with
  | nil => rfl
  | cons act acts ih => exact ih _

theorem steps_append (c : Channel words bytes) (acts rest : List Act) :
    c.steps μ R (acts ++ rest) = c.steps μ R acts ++ (c.after μ R acts).steps μ R rest := by
  induction acts generalizing c with
  | nil => rfl
  | cons act acts ih => simp [steps, after, ih]

variable {c : Channel words bytes}

theorem perform_write (h : c.Ready) (data : List UInt8) :
    ∃ pipe, (c.perform μ R (.write data)).state = { c with tx := { c.tx with pipe } } ∧
      (c.perform μ R (.write data)).value = (if data.length ≤ c.tx.pipe.room then
        .ok (.count data.length) else .error (.transfer ⟨.capacity .txFull, c.tx.pipe.room⟩)) ∧
      pipe.Ready ∧ pipe.draining = c.tx.pipe.draining ∧
      pipe.bytes = c.tx.pipe.bytes ++ data.take c.tx.pipe.room := by
  obtain ⟨pipe, hw, hr, hd, hb⟩ := Transmitter.write_ready h.tx data
  refine ⟨pipe, ?_, ?_, hr, hd, hb⟩
  · simp [perform, Outcome.reply, Outcome.ofStep, onTx, hw]
  · by_cases hfit : data.length ≤ c.tx.pipe.room <;>
      simp [perform, Outcome.reply, Outcome.ofStep, onTx, hw, hfit]

theorem perform_writeWord (h : c.Ready) (word : Word) :
    (c.tx.pipe.queue.toList.length = words ∧ (c.perform μ R (.writeWord word)).state = c ∧
        (c.perform μ R (.writeWord word)).value = .error (.general (.capacity .txFull))) ∨
      ∃ pipe, (c.perform μ R (.writeWord word)).state = { c with tx := { c.tx with pipe } } ∧
        (c.perform μ R (.writeWord word)).value = .ok .done ∧ pipe.Ready ∧
        pipe.queue.toList = c.tx.pipe.queue.toList ++ [word] ∧
        pipe.filling = c.tx.pipe.filling ∧ pipe.draining = c.tx.pipe.draining := by
  rcases WordPipe.pushWord_ready h.tx word with ⟨hp, hfull⟩ | ⟨pipe, hp, hr⟩
  · simp [perform, Outcome.reply, Outcome.ofStep, onTx, Transmitter.writeWord, hp, hfull,
      QueueError.onTransmit]
  · refine .inr ⟨pipe, ?_, ?_, hr⟩ <;>
      simp [perform, Outcome.reply, Outcome.ofStep, onTx, Transmitter.writeWord, hp]

theorem perform_transmit (h : c.Ready) (max : Nat) :
    ∃ tx, (c.perform μ R (.transmit max)).state = { c with tx } ∧
      (c.perform μ R (.transmit max)).value = .ok (.count (c.tx.movable max)) ∧ tx.pipe.Ready ∧
      tx.fifo.toList = c.tx.fifo.toList ++ c.tx.pipe.bytes.take (c.tx.movable max) ∧
      tx.pipe.bytes = c.tx.pipe.bytes.drop (c.tx.movable max) := by
  obtain ⟨tx, ht, hr⟩ := Transmitter.transmit_ready h.tx max
  refine ⟨tx, ?_, ?_, hr⟩ <;> simp [perform, Outcome.reply, Outcome.ofStep, onTx, ht]

theorem perform_nextTxWord (h : c.Ready) :
    ((c.perform μ R .nextTxWord).state = c ∧
        (c.perform μ R .nextTxWord).value = .error (.general (.capacity .txEmpty))) ∨
      ∃ word pipe, (c.perform μ R .nextTxWord).state = { c with tx := { c.tx with pipe } } ∧
        (c.perform μ R .nextTxWord).value = .ok (.word word) ∧ pipe.Ready ∧
        pipe.draining = c.tx.pipe.draining ∧ c.tx.pipe.queue.bytes ++ c.tx.pipe.filling.bytes =
          word.bytes ++ (pipe.queue.bytes ++ pipe.filling.bytes) := by
  rcases WordPipe.popWord_ready h.tx with ⟨hp, -⟩ | ⟨word, pipe, hp, hr⟩
  · simp [perform, Outcome.reply, Outcome.ofStep, onTx, Transmitter.nextWord, hp,
      QueueError.onTransmit]
  · refine .inr ⟨word, pipe, ?_, ?_, hr⟩ <;>
      simp [perform, Outcome.reply, Outcome.ofStep, onTx, Transmitter.nextWord, hp]

theorem perform_receive (h : c.Ready) (max : Nat) :
    ∃ rx, (c.perform μ R (.receive max)).state = { c with rx } ∧
      (c.perform μ R (.receive max)).value = .ok (.count (c.rx.movable max)) ∧ rx.pipe.Ready ∧
      rx.pipe.draining = c.rx.pipe.draining ∧
      rx.fifo.toList = c.rx.fifo.toList.drop (c.rx.movable max) ∧
      rx.pipe.bytes = c.rx.pipe.bytes ++ c.rx.fifo.toList.take (c.rx.movable max) := by
  obtain ⟨rx, hw, hr⟩ := Receiver.receive_ready h.rx max
  refine ⟨rx, ?_, ?_, hr⟩ <;> simp [perform, Outcome.reply, Outcome.ofStep, onRx, hw]

theorem perform_read (h : c.Ready) (buffer : List UInt8) :
    ∃ pipe, (c.perform μ R (.read buffer)).state = { c with rx := { c.rx with pipe } } ∧
      (c.perform μ R (.read buffer)).value = (if c.rx.pipe.bytes = [] ∧ buffer ≠ [] then
        .error (.transfer ⟨.capacity .rxEmpty, 0⟩)
        else .ok (.filled (c.rx.pipe.bytes.take buffer.length).length
          (overwrite (c.rx.pipe.bytes.take buffer.length) buffer))) ∧
      pipe.Ready ∧ pipe.bytes = c.rx.pipe.bytes.drop buffer.length := by
  obtain ⟨pipe, hw, hr⟩ := Receiver.read_ready h.rx buffer
  refine ⟨pipe, ?_, ?_, hr⟩
  · simp [perform, Outcome.reply, Outcome.ofStep, onRx, hw]
  · by_cases hn : c.rx.pipe.bytes = [] ∧ buffer ≠ []
    · rw [if_pos hn] at hw ⊢
      simp only [perform, Outcome.reply, Outcome.ofStep, onRx, hw]
    · rw [if_neg hn] at hw ⊢
      simp only [perform, Outcome.reply, Outcome.ofStep, onRx, hw]

theorem perform_readWord (h : c.Ready) :
    (c.rx.pipe.bytes.length < Word.size ∧ (c.perform μ R .readWord).state = c ∧
        (c.perform μ R .readWord).value = .error (.general (.capacity .rxEmpty))) ∨
      ∃ word pipe, (c.perform μ R .readWord).state = { c with rx := { c.rx with pipe } } ∧
        (c.perform μ R .readWord).value = .ok (.word word) ∧ pipe.Ready ∧
        c.rx.pipe.bytes = word.bytes ++ pipe.bytes := by
  rcases Receiver.readWord_ready h.rx with ⟨hw, hlt⟩ | ⟨word, pipe, hw, hr⟩
  · simp [perform, Outcome.reply, Outcome.ofStep, onRx, hw, hlt]
  · refine .inr ⟨word, pipe, ?_, ?_, hr⟩ <;>
      simp [perform, Outcome.reply, Outcome.ofStep, onRx, hw]

theorem perform_poll (h : c.Ready) (maxTx maxRx : Nat) :
    c.perform μ R (.poll maxTx maxRx) = if c.tx.pipe.bytes.length ≤ c.tx.movable maxTx then
        ⟨.ok (.polled ⟨c.tx.movable maxTx, c.rx.movable maxRx, true⟩),
          ⟨(c.perform μ R (.transmit maxTx)).state.tx,
            (c.perform μ R (.receive maxRx)).state.rx⟩, []⟩
      else ⟨.ok (.polled ⟨c.tx.movable maxTx, 0, false⟩),
        ⟨(c.perform μ R (.transmit maxTx)).state.tx, c.rx⟩, []⟩ := by
  by_cases he : c.tx.pipe.bytes.length ≤ c.tx.movable maxTx <;>
    simp [perform, Outcome.reply, Outcome.ofStep, onTx, onRx, poll_ready h, he]

theorem perform_ready (h : c.Ready) (act : Act) : (c.perform μ R act).state.Ready := by
  cases act with
  | write data =>
    obtain ⟨pipe, hs, -, hr, -⟩ := perform_write μ R h data
    exact hs ▸ ⟨hr, h.rx⟩
  | writeWord word =>
    rcases perform_writeWord μ R h word with ⟨-, hs, -⟩ | ⟨pipe, hs, -, hr, -⟩
    · exact hs.symm ▸ h
    · exact hs ▸ ⟨hr, h.rx⟩
  | transmit max =>
    obtain ⟨tx, hs, -, hr, -⟩ := perform_transmit μ R h max
    exact hs ▸ ⟨hr, h.rx⟩
  | nextTxWord =>
    rcases perform_nextTxWord μ R h with ⟨hs, -⟩ | ⟨word, pipe, hs, -, hr, -⟩
    · exact hs.symm ▸ h
    · exact hs ▸ ⟨hr, h.rx⟩
  | receive max =>
    obtain ⟨rx, hs, -, hr, -⟩ := perform_receive μ R h max
    exact hs ▸ ⟨h.tx, hr⟩
  | read buffer =>
    obtain ⟨pipe, hs, -, hr, -⟩ := perform_read μ R h buffer
    exact hs ▸ ⟨h.tx, hr⟩
  | readWord =>
    rcases perform_readWord μ R h with ⟨-, hs, -⟩ | ⟨word, pipe, hs, -, hr, -⟩
    · exact hs.symm ▸ h
    · exact hs ▸ ⟨h.tx, hr⟩
  | poll maxTx maxRx =>
    obtain ⟨tx, ht, -, htr, -⟩ := perform_transmit μ R h maxTx
    obtain ⟨rx, hr, -, hrr, -⟩ := perform_receive μ R h maxRx
    rw [perform_poll μ R h, ht, hr]
    split
    · exact ⟨htr, hrr⟩
    · exact ⟨htr, h.rx⟩
  | fifos command => exact ⟨h.tx, h.rx⟩

theorem after_ready (h : c.Ready) (acts : List Act) :
    (c.after μ R acts).Ready := by
  induction acts generalizing c with
  | nil => exact h
  | cons act rest ih => exact ih (perform_ready μ R h act)

/-- What each step conserves, a run conserves: bytes, in order. -/
theorem steps_conserve (content : Channel words bytes → List UInt8)
    {out into : PortStep μ R words bytes → List UInt8} {allowed : Act → Bool}
    (hstep : ∀ (c : Channel words bytes) (act : Act), c.Ready → allowed act = true →
      out (c.step μ R act) ++ content (c.perform μ R act).state =
        content c ++ into (c.step μ R act))
    (h : c.Ready) {acts : List Act} (ho : ∀ act ∈ acts, allowed act = true) :
    (c.steps μ R acts).flatMap out ++ content (c.after μ R acts) =
      content c ++ (c.steps μ R acts).flatMap into := by
  induction acts generalizing c with
  | nil => exact (List.append_nil _).symm
  | cons act rest ih =>
    obtain ⟨hact, hrest⟩ := List.forall_mem_cons.1 ho
    have hsteps := ih (perform_ready μ R h act) hrest
    simp only [steps, after, List.flatMap_cons, List.append_assoc, hsteps]
    rw [← List.append_assoc, hstep c act h hact, List.append_assoc]

theorem steps_account (held : Channel words bytes → Nat)
    {out into : PortStep μ R words bytes → Nat}
    (hstep : ∀ (c : Channel words bytes) (act : Act), c.Ready →
      held (c.perform μ R act).state + out (c.step μ R act) = held c + into (c.step μ R act))
    (h : c.Ready) (acts : List Act) :
    held (c.after μ R acts) + ((c.steps μ R acts).map out).sum =
      held c + ((c.steps μ R acts).map into).sum := by
  induction acts generalizing c with
  | nil => rfl
  | cons act rest ih =>
    have hfirst := hstep c act h
    have hsteps := ih (perform_ready μ R h act)
    simp only [steps, after, List.map_cons, List.sum_cons]
    omega

end Channel

/-- The descriptor and the act of a call that moves data. -/
def Call.transfer? {μ : Type} : Call μ → Option (Descriptor × Act)
  | .write d data => some (d, .write data)
  | .writeWord d word => some (d, .writeWord word)
  | .transmit d max => some (d, .transmit max)
  | .nextTxWord d => some (d, .nextTxWord)
  | .receive d max => some (d, .receive max)
  | .read d buffer => some (d, .read buffer)
  | .readWord d => some (d, .readWord)
  | .poll d maxTx maxRx => some (d, .poll maxTx maxRx)
  | _ => none

namespace Act

variable {μ R : Type} {words : Nat}

def refusal (cause : SetupError) : Act → Reply μ R words
  | .write _ | .read _ => .error (.transfer (Error.setup cause).beforeTransfer)
  | _ => .error (.general (.setup cause))

def log (d : Descriptor) (reply : Reply μ R words) : Act → List Event
  | .write data =>
    match reply with
    | .error (.transfer stop) => [.writeStopped d stop.transferred data.length stop.error]
    | _ => []
  | _ => []

end Act

namespace Driver

variable {μ R : Type} [RegisterAccess R] [Mapper μ R] {ports words bytes : Nat}
  {s : Driver μ R ports words bytes}
  {call : Call μ} {d : Descriptor} {act : Act}

/-- A call that moves data is its act on the channel of its port, unless its descriptor is
refused. -/
theorem perform_eq_act (h : call.transfer? = some (d, act)) :
    s.perform call = match s.resolve d .serial with
      | .error cause => ⟨act.refusal cause, s, []⟩
      | .ok (slot, e) =>
        let o := (s.channel e).perform μ R act
        ⟨o.value, s.withChannel slot e o.state, act.log d o.value⟩ := by
  cases call with
  | write d data =>
    cases h
    simp only [perform, Outcome.reply, write]
    rcases s.resolve d .serial with cause | ⟨slot, e⟩
    · rfl
    · simp only [Channel.perform, Outcome.ofStep, Outcome.reply]
      rcases (s.channel e).onTx (·.write data) with ⟨_ | _, _⟩ <;> rfl
  | read d buffer =>
    cases h
    simp only [perform, read, onChannel]
    rcases s.resolve d .serial with cause | ⟨slot, e⟩
    · rfl
    · simp only [Channel.perform, Outcome.ofStep, Outcome.reply]
      rcases (s.channel e).onRx (·.read buffer) with ⟨⟨_ | _, _⟩, _⟩ <;> rfl
  | writeWord | transmit | nextTxWord | receive | readWord | poll =>
    cases h
    simp only [perform, Outcome.reply, writeWord, transmit, nextTxWord, receive, readWord, poll,
      onChannel]
    rcases s.resolve _ .serial with cause | ⟨slot, e⟩ <;> rfl
  | _ => cases h

theorem perform_refused (h : call.transfer? = some (d, act)) {cause : SetupError}
    (hr : s.resolve d .serial = .error cause) :
    s.perform call = ⟨act.refusal cause, s, []⟩ := by
  rw [perform_eq_act h, hr]

theorem perform_transfer (h : call.transfer? = some (d, act)) {slot : Fin ports}
    {e : Entry ports} (hr : s.resolve d .serial = .ok (slot, e)) :
    s.perform call = ⟨((s.channel e).perform μ R act).value,
      s.withChannel slot e ((s.channel e).perform μ R act).state,
      act.log d ((s.channel e).perform μ R act).value⟩ := by
  rw [perform_eq_act h, hr]

end Driver

end PolledUart
