import PolledUart.Proofs.Projection

/-!
# Nothing is lost, nothing changes places

Each step at a port has bytes that it takes in and bytes that it gives out. In each direction what
was given out so far, followed by what is inside, is what was inside at first, followed by what was
taken in, whatever the order of the steps and wherever they stop short.
-/

set_option autoImplicit false

namespace PolledUart

/-- Takes no word in past the written bytes or out past the FIFO, and feeds the FIFO nothing. -/
def Act.inTxOrder : Act → Bool
  | .writeWord _ | .nextTxWord => false
  | .fifos (.push .tx _) | .fifos (.feed .tx _) | .fifos (.reset .tx) | .fifos .resetBoth => false
  | _ => true

/-- Takes nothing out of the receiving FIFO past the pipe. -/
def Act.inRxOrder : Act → Bool
  | .fifos (.pop .rx) | .fifos (.take .rx _) | .fifos (.reset .rx) | .fifos .resetBoth => false
  | _ => true

namespace PortStep

variable {μ R : Type} {words bytes : Nat}

/-- The bytes that a write took, also when it stopped early. -/
def accepted (x : PortStep μ R words bytes) : List UInt8 :=
  match x.act, x.reply with
  | .write data, .ok (.count taken) => data.take taken
  | .write data, .error (.transfer stop) => data.take stop.transferred
  | _, _ => []

/-- The bytes that left the sending FIFO. -/
def departed (x : PortStep μ R words bytes) : List UInt8 :=
  match x.act, x.reply with
  | .fifos (.pop .tx), .ok (.fifo (.byte byte)) => [byte]
  | .fifos (.take .tx _), .ok (.fifo (.filled count buffer)) => buffer.take count
  | .fifos (.loopback _), .ok (.fifo (.count moved)) => x.before.tx.toList.take moved
  | _, _ => []

/-- The bytes that entered the receiving FIFO. -/
def arrived (x : PortStep μ R words bytes) : List UInt8 :=
  match x.act, x.reply with
  | .fifos (.push .rx byte), .ok _ => [byte]
  | .fifos (.feed .rx data), .ok (.fifo (.count fed)) => data.take fed
  | .fifos (.loopback _), .ok (.fifo (.count moved)) => x.before.tx.toList.take moved
  | _, _ => []

/-- The bytes that a read handed over. -/
def delivered (x : PortStep μ R words bytes) : List UInt8 :=
  match x.act, x.reply with
  | .read _, .ok (.filled count buffer) => buffer.take count
  | .readWord, .ok (.word word) => word.bytes
  | _, _ => []

def received (x : PortStep μ R words bytes) : Nat :=
  match x.act, x.reply with
  | .receive _, .ok (.count moved) => moved
  | .poll _ _, .ok (.polled report) => report.received
  | _, _ => 0

end PortStep

theorem take_overwrite (arrived buffer : List UInt8) :
    (overwrite arrived buffer).take arrived.length = arrived := List.take_left

variable {words bytes : Nat}

def Transmitter.content (t : Transmitter words bytes) : List UInt8 :=
  t.fifo.toList ++ t.pipe.bytes

def Receiver.content (r : Receiver words bytes) : List UInt8 :=
  r.pipe.bytes ++ r.fifo.toList

namespace Channel

variable (μ R : Type) {c : Channel words bytes}

theorem fifos_sends (command : FifoCommand) (ho : (Act.fifos command).inTxOrder = true) :
    (c.step μ R (.fifos command)).departed ++
        (c.perform μ R (.fifos command)).state.tx.fifo.toList =
      c.tx.fifo.toList := by
  simp only [step, perform, Outcome.reply, Outcome.ofStep, withFifos]
  cases command with
  | push side byte =>
    cases side with
    | tx => cases ho
    | rx => rcases hp : c.rx.fifo.push byte with e | fifo <;>
        simp [PortStep.departed, PortFifos.execute, PortFifos.side, PortFifos.withSide, fifos, hp]
  | pop side =>
    cases side with
    | tx =>
      rcases hp : c.tx.fifo.pop with e | ⟨byte, fifo⟩
      · simp [PortStep.departed, PortFifos.execute, PortFifos.side, fifos, hp]
      · simp [PortStep.departed, PortFifos.execute, PortFifos.side, PortFifos.withSide, fifos, hp,
          Ring.toList_pop hp]
    | rx => rcases hp : c.rx.fifo.pop with e | ⟨byte, fifo⟩ <;>
        simp [PortStep.departed, PortFifos.execute, PortFifos.side, PortFifos.withSide, fifos, hp]
  | feed side data =>
    cases side with
    | tx => cases ho
    | rx => rfl
  | take side buffer =>
    cases side with
    | tx => simp only [PortStep.departed, PortFifos.execute, PortFifos.side, PortFifos.withSide,
        fifos, take_overwrite, ByteFifo.fst_take, ByteFifo.toList_take, List.take_append_drop]
    | rx => rfl
  | reset side =>
    cases side with
    | tx => cases ho
    | rx => rfl
  | loopback max =>
    simp [PortStep.departed, PortFifos.execute, PortFifos.toList_loopback, fifos]
  | resetBoth => cases ho

theorem fifos_arrives (command : FifoCommand) (ho : (Act.fifos command).inRxOrder = true) :
    (c.perform μ R (.fifos command)).state.rx.fifo.toList =
      c.rx.fifo.toList ++ (c.step μ R (.fifos command)).arrived := by
  simp only [step, perform, Outcome.reply, Outcome.ofStep, withFifos]
  cases command with
  | push side byte =>
    cases side with
    | tx => rcases hp : c.tx.fifo.push byte with e | fifo <;>
        simp [PortStep.arrived, PortFifos.execute, PortFifos.side, PortFifos.withSide, fifos, hp]
    | rx =>
      rcases hp : c.rx.fifo.push byte with e | fifo
      · simp [PortStep.arrived, PortFifos.execute, PortFifos.side, fifos, hp]
      · simp [PortStep.arrived, PortFifos.execute, PortFifos.side, PortFifos.withSide, fifos, hp,
          Ring.toList_push hp]
  | pop side =>
    cases side with
    | tx => rcases hp : c.tx.fifo.pop with e | ⟨byte, fifo⟩ <;>
        simp [PortStep.arrived, PortFifos.execute, PortFifos.side, PortFifos.withSide, fifos, hp]
    | rx => cases ho
  | feed side data =>
    cases side with
    | tx => exact (List.append_nil _).symm
    | rx => exact ByteFifo.toList_feed c.rx.fifo data
  | take side buffer =>
    cases side with
    | tx => exact (List.append_nil _).symm
    | rx => cases ho
  | reset side =>
    cases side with
    | tx => exact (List.append_nil _).symm
    | rx => cases ho
  | loopback max => exact (PortFifos.toList_loopback c.fifos max).2
  | resetBoth => cases ho

theorem accepted_write (h : c.Ready) (data : List UInt8) :
    (c.step μ R (.write data)).accepted = data.take c.tx.pipe.room := by
  obtain ⟨pipe, -, hv, -⟩ := perform_write μ R h data
  by_cases hfit : data.length ≤ c.tx.pipe.room
  · simp [step, PortStep.accepted, hv, hfit, List.take_of_length_le]
  · simp [step, PortStep.accepted, hv, hfit]

theorem perform_sends (h : c.Ready) {act : Act} (ho : act.inTxOrder = true) :
    (c.step μ R act).departed ++ (c.perform μ R act).state.tx.content =
      c.tx.content ++ (c.step μ R act).accepted := by
  cases act with
  | write data =>
    obtain ⟨pipe, hs, -, -, -, hb⟩ := perform_write μ R h data
    rw [accepted_write μ R h, hs]
    simp [step, PortStep.departed, Transmitter.content, hb]
  | writeWord word => cases ho
  | nextTxWord => cases ho
  | transmit max =>
    obtain ⟨tx, hs, -, -, hf, hb⟩ := perform_transmit μ R h max
    rw [hs]
    simp [step, PortStep.departed, PortStep.accepted, Transmitter.content, hf, hb]
  | receive | read | readWord => exact (List.append_nil _).symm
  | poll maxTx maxRx =>
    obtain ⟨tx, hs, -, -, hf, hb⟩ := perform_transmit μ R h maxTx
    have htx : (c.perform μ R (.poll maxTx maxRx)).state.tx = tx := by
      rw [perform_poll μ R h, hs]
      split <;> rfl
    rw [htx]
    simp [step, PortStep.departed, PortStep.accepted, Transmitter.content, hf, hb]
  | fifos command =>
    have hf := fifos_sends μ R (c := c) command ho
    have hpipe : (c.perform μ R (.fifos command)).state.tx.pipe = c.tx.pipe := rfl
    have ha : (c.step μ R (.fifos command)).accepted = [] := rfl
    rw [Transmitter.content, ← List.append_assoc, hf, hpipe, ha, List.append_nil]
    rfl

theorem delivered_read (h : c.Ready) (buffer : List UInt8) :
    (c.step μ R (.read buffer)).delivered = c.rx.pipe.bytes.take buffer.length := by
  obtain ⟨pipe, -, hv, -⟩ := perform_read μ R h buffer
  by_cases hn : c.rx.pipe.bytes = [] ∧ buffer ≠ []
  · rw [if_pos hn] at hv
    simp [step, PortStep.delivered, hv, hn.1]
  · rw [if_neg hn] at hv
    simp only [step, PortStep.delivered, hv, take_overwrite]

theorem perform_receives (h : c.Ready) {act : Act} (ho : act.inRxOrder = true) :
    (c.step μ R act).delivered ++ (c.perform μ R act).state.rx.content =
      c.rx.content ++ (c.step μ R act).arrived := by
  cases act with
  | write | writeWord | nextTxWord | transmit => exact (List.append_nil _).symm
  | receive max =>
    obtain ⟨rx, hs, -, -, -, hf, hb⟩ := perform_receive μ R h max
    rw [hs]
    simp [step, PortStep.delivered, PortStep.arrived, Receiver.content, hf, hb]
  | read buffer =>
    obtain ⟨pipe, hs, -, -, hb⟩ := perform_read μ R h buffer
    rw [delivered_read μ R h, hs]
    simp [step, PortStep.arrived, Receiver.content, hb, ← List.append_assoc]
  | readWord =>
    rcases perform_readWord μ R h with ⟨-, hs, hv⟩ | ⟨word, pipe, hs, hv, -, hb⟩
    · rw [hs]
      simp [step, PortStep.delivered, PortStep.arrived, hv]
    · rw [hs]
      simp [step, PortStep.delivered, PortStep.arrived, Receiver.content, hv, hb]
  | poll maxTx maxRx =>
    obtain ⟨rx, hs, -, -, -, hf, hb⟩ := perform_receive μ R h maxRx
    rw [perform_poll μ R h]
    split
    · rw [hs]
      simp [step, PortStep.delivered, PortStep.arrived, Receiver.content, hf, hb]
    · exact (List.append_nil _).symm
  | fifos command =>
    have hf := fifos_arrives μ R (c := c) command ho
    have hpipe : (c.perform μ R (.fifos command)).state.rx.pipe = c.rx.pipe := rfl
    have hd : (c.step μ R (.fifos command)).delivered = [] := rfl
    rw [Receiver.content, hf, hpipe, hd, List.nil_append, ← List.append_assoc]
    rfl

theorem perform_counts (h : c.Ready) (act : Act) :
    (c.perform μ R act).state.rx.pipe.bytes.length + (c.step μ R act).delivered.length =
      c.rx.pipe.bytes.length + (c.step μ R act).received := by
  have hmove (max : Nat) : (c.rx.fifo.toList.take (c.rx.movable max)).length =
      c.rx.movable max := by
    simp only [List.length_take, Receiver.movable]
    omega
  cases act with
  | write | writeWord | nextTxWord | transmit | fifos => rfl
  | receive max =>
    obtain ⟨rx, hs, hv, -, -, -, hb⟩ := perform_receive μ R h max
    rw [hs]
    simp only [step, PortStep.delivered, PortStep.received, hv, hb, List.length_append, hmove,
      List.length_nil, Nat.add_zero]
  | read buffer =>
    obtain ⟨pipe, hs, -, -, hb⟩ := perform_read μ R h buffer
    have hr : (c.step μ R (.read buffer)).received = 0 := rfl
    rw [delivered_read μ R h, hs, hr]
    simp only [hb, List.length_drop, List.length_take]
    omega
  | readWord =>
    rcases perform_readWord μ R h with ⟨-, hs, hv⟩ | ⟨word, pipe, hs, hv, -, hb⟩
    · rw [hs]
      simp only [step, PortStep.delivered, PortStep.received, hv, List.length_nil]
    · rw [hs]
      simp only [step, PortStep.delivered, PortStep.received, hv, hb, List.length_append]
      omega
  | poll maxTx maxRx =>
    obtain ⟨rx, hs, -, -, -, -, hb⟩ := perform_receive μ R h maxRx
    simp only [step, perform_poll μ R h]
    split
    · rw [hs]
      simp only [PortStep.delivered, PortStep.received, hb, List.length_append, hmove,
        List.length_nil, Nat.add_zero]
    · rfl

theorem steps_send (h : c.Ready) {acts : List Act} (ho : ∀ act ∈ acts, act.inTxOrder = true) :
    (c.steps μ R acts).flatMap PortStep.departed ++ (c.after μ R acts).tx.content =
      c.tx.content ++ (c.steps μ R acts).flatMap PortStep.accepted := by
  apply steps_conserve μ R (fun c => c.tx.content) _ h ho
  intro c act hc hact
  exact perform_sends μ R hc hact

theorem steps_receive (h : c.Ready) {acts : List Act} (ho : ∀ act ∈ acts, act.inRxOrder = true) :
    (c.steps μ R acts).flatMap PortStep.delivered ++ (c.after μ R acts).rx.content =
      c.rx.content ++ (c.steps μ R acts).flatMap PortStep.arrived := by
  apply steps_conserve μ R (fun c => c.rx.content) _ h ho
  intro c act hc hact
  exact perform_receives μ R hc hact

theorem steps_count (h : c.Ready) (acts : List Act) :
    (c.after μ R acts).rx.pipe.bytes.length +
        ((c.steps μ R acts).flatMap PortStep.delivered).length =
      c.rx.pipe.bytes.length + ((c.steps μ R acts).map PortStep.received).sum := by
  rw [List.length_flatMap]
  apply steps_account μ R (fun c => c.rx.pipe.bytes.length) _ h acts
  intro c act hc
  exact perform_counts μ R hc act

end Channel

namespace Driver

variable {μ R : Type} [RegisterAccess R] [Mapper μ R] {ports words bytes : Nat}
  {s : Driver μ R ports words bytes}
  {d : Descriptor} {p : Fin ports}

/-- Between opening the port and any later moment, what left the sending FIFO, followed by what is
still on its way through FIFO and pipe, is what the FIFO held when the port was opened, followed
by all the bytes that writes took. -/
theorem sends_in_order (hports : ports < 2 ^ 32) (h : s.JustOpened d p) {calls : List (Call μ)}
    (hcalls : .commonInit ∉ calls)
    (horder : ∀ act ∈ calls.filterMap (Call.onPort d p), act.inTxOrder = true) :
    ∃ c, (s.run calls).2.Serves d p c ∧
      (s.portSteps d p calls).flatMap PortStep.departed ++ c.tx.content =
        (s.fifos.get p).tx.toList ++ (s.portSteps d p calls).flatMap PortStep.accepted := by
  obtain ⟨c, hserves, htx, -⟩ := h.serves hports
  obtain ⟨hfinal, hsteps⟩ := run_serves hserves h.invariant hcalls
  have hsent := Channel.steps_send μ R (hserves.ready h.invariant) horder
  refine ⟨_, hfinal, ?_⟩
  rw [hsteps, hsent, hserves.fifos, Transmitter.content, htx, List.append_nil]
  rfl

theorem sends_in_order_sample :
    let calls := [Call.write (.ofIndex 0) [1, 2, 3, 4, 5, 6, 7, 8, 9], .poll (.ofIndex 0) 1 1,
      .fifos 0 (.loopback 5), .tryOpen 0 .serial, .transmit (.ofIndex 1) 3,
      .transmit (.ofIndex 0) 2]
    ((sample [7]).portSteps (.ofIndex 0) 0 calls).flatMap PortStep.accepted =
        [1, 2, 3, 4, 5, 6, 7, 8] ∧
      ((sample [7]).portSteps (.ofIndex 0) 0 calls).flatMap PortStep.departed = [7] ∧
      ∃ c, ((sample [7]).run calls).2.Serves (.ofIndex 0) 0 c ∧
        ((sample [7]).portSteps (.ofIndex 0) 0 calls).flatMap PortStep.departed ++
            c.tx.content = ((sample [7]).fifos.get (0 : Fin 1)).tx.toList ++
          ((sample [7]).portSteps (.ofIndex 0) 0 calls).flatMap PortStep.accepted :=
  ⟨by decide +kernel, by decide +kernel,
    sends_in_order (by decide) (sample_justOpened [7]) (by simp) (by decide)⟩

/-- Between opening the port and any later moment, what reads handed over, followed by what is
still on its way through pipe and FIFO, is what the FIFO held when the port was opened, followed
by all the bytes that entered it. What was reported received and not read yet is readable. -/
theorem receives_in_order (hports : ports < 2 ^ 32) (h : s.JustOpened d p)
    {calls : List (Call μ)} (hcalls : .commonInit ∉ calls)
    (horder : ∀ act ∈ calls.filterMap (Call.onPort d p), act.inRxOrder = true) :
    ∃ c, (s.run calls).2.Serves d p c ∧
      (s.portSteps d p calls).flatMap PortStep.delivered ++ c.rx.content =
        (s.fifos.get p).rx.toList ++ (s.portSteps d p calls).flatMap PortStep.arrived ∧
      (s.run calls).2.readableBytes d +
          ((s.portSteps d p calls).flatMap PortStep.delivered).length =
        ((s.portSteps d p calls).map PortStep.received).sum := by
  obtain ⟨c, hserves, -, hrx⟩ := h.serves hports
  obtain ⟨hfinal, hsteps⟩ := run_serves hserves h.invariant hcalls
  have hready := hserves.ready h.invariant
  refine ⟨_, hfinal, ?_, ?_⟩
  · have hread := Channel.steps_receive μ R hready horder
    rw [hsteps, hread, hserves.fifos, Receiver.content, hrx]
    rfl
  · have hcount := Channel.steps_count μ R hready (calls.filterMap (Call.onPort d p))
    rw [hfinal.readableBytes (run_invariant h.invariant calls), hsteps, hcount, hrx]
    exact Nat.zero_add _

theorem receives_in_order_sample :
    let calls := [Call.receive (.ofIndex 0) 9, .read (.ofIndex 0) [0], .write (.ofIndex 0) [5],
      .fifos 0 (.feed .rx [1, 2]), .poll (.ofIndex 0) 1 1, .receive (.ofIndex 0) 1,
      .read (.ofIndex 0) [0, 0]]
    ((sample [7, 8, 9]).portSteps (.ofIndex 0) 0 calls).flatMap PortStep.delivered = [7, 8, 1] ∧
      ((sample [7, 8, 9]).portSteps (.ofIndex 0) 0 calls).flatMap PortStep.arrived = [1, 2] ∧
      ∃ c, ((sample [7, 8, 9]).run calls).2.Serves (.ofIndex 0) 0 c ∧
        ((sample [7, 8, 9]).portSteps (.ofIndex 0) 0 calls).flatMap PortStep.delivered ++
            c.rx.content = ((sample [7, 8, 9]).fifos.get (0 : Fin 1)).rx.toList ++
          ((sample [7, 8, 9]).portSteps (.ofIndex 0) 0 calls).flatMap PortStep.arrived ∧
        ((sample [7, 8, 9]).run calls).2.readableBytes (.ofIndex 0) +
            (((sample [7, 8, 9]).portSteps (.ofIndex 0) 0 calls).flatMap
              PortStep.delivered).length =
          (((sample [7, 8, 9]).portSteps (.ofIndex 0) 0 calls).map PortStep.received).sum :=
  ⟨by decide +kernel, by decide +kernel,
    receives_in_order (by decide) (sample_justOpened [7, 8, 9]) (by simp) (by decide)⟩

end Driver

end PolledUart
