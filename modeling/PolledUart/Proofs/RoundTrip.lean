import PolledUart.Proofs.Polling

/-!
# Round the loop

A port with a loopback cable is worked in cycles: write, send, carry across, receive, read. As
long as bytes are missing every cycle delivers at least one, however small its budgets and however
small the queues: a stage that is blocked is blocked by a later one, and the last is never.
-/

set_option autoImplicit false

namespace PolledUart

/-- The budgets of one cycle, each of which leaves room for one byte. -/
structure Cycle where
  write : Nat
  transmit : Nat
  loopback : Nat
  receive : Nat
  buffer : List UInt8
  write_pos : 0 < write
  transmit_pos : 0 < transmit
  loopback_pos : 0 < loopback
  receive_pos : 0 < receive
  buffer_pos : 0 < buffer.length

namespace Cycle

variable {μ R : Type} {ports : Nat}

/-- One cycle when the given bytes are still to be written. -/
def calls (b : Cycle) (d : Descriptor) (p : Fin ports) (rest : List UInt8) : List (Call μ) :=
  (if rest = [] then [] else [.write d (rest.take b.write)]) ++
    [.transmit d b.transmit, .fifos p (.loopback b.loopback), .receive d b.receive,
      .read d b.buffer]

def opening (b : Cycle) (rest : List UInt8) : List Act :=
  if rest = [] then [] else [.write (rest.take b.write)]

def acts (b : Cycle) (rest : List UInt8) : List Act :=
  b.opening rest ++ [.transmit b.transmit, .fifos (.loopback b.loopback), .receive b.receive,
    .read b.buffer]

theorem filterMap_calls (b : Cycle) (d : Descriptor) (p : Fin ports) (rest : List UInt8) :
    (b.calls d p rest : List (Call μ)).filterMap (Call.onPort d p) = b.acts rest := by
  by_cases hrest : rest = [] <;>
    simp [calls, acts, opening, hrest, Call.onPort, Call.transfer?]

theorem commonInit_not_mem (b : Cycle) (d : Descriptor) (p : Fin ports) (rest : List UInt8) :
    .commonInit ∉ (b.calls d p rest : List (Call μ)) := by
  by_cases hrest : rest = [] <;> simp [calls, hrest]

theorem mem_acts {b : Cycle} {rest : List UInt8} {act : Act} (h : act ∈ b.acts rest) :
    act = .write (rest.take b.write) ∨ act = .transmit b.transmit ∨
      act = .fifos (.loopback b.loopback) ∨ act = .receive b.receive ∨ act = .read b.buffer := by
  simp only [acts, opening, List.mem_append, List.mem_cons, List.not_mem_nil, or_false] at h
  apply h.imp_left
  intro hopening
  split at hopening
  · cases hopening
  · exact List.mem_singleton.1 hopening

theorem acts_inTxOrder (b : Cycle) (rest : List UInt8) :
    ∀ act ∈ b.acts rest, act.inTxOrder = true := by
  intro act hact
  rcases mem_acts hact with rfl | rfl | rfl | rfl | rfl <;> rfl

theorem acts_inRxOrder (b : Cycle) (rest : List UInt8) :
    ∀ act ∈ b.acts rest, act.inRxOrder = true := by
  intro act hact
  rcases mem_acts hact with rfl | rfl | rfl | rfl | rfl <;> rfl

end Cycle

namespace Channel

variable {words bytes : Nat} (μ R : Type) {c : Channel words bytes}

theorem write_reaches (h : c.Ready) {data : List UInt8} (hdata : data ≠ []) :
    (c.perform μ R (.write data)).state.tx.content ≠ [] := by
  obtain ⟨pipe, hs, -, -, -, hb⟩ := perform_write μ R h data
  rw [hs]
  intro hnil
  simp only [Transmitter.content, hb, List.append_eq_nil_iff, List.take_eq_nil_iff] at hnil
  have hroom := WordPipe.room_pos_of_empty h.tx hnil.2.1
  have hzero := hnil.2.2.resolve_right hdata
  omega

theorem transmit_reaches (h : c.Ready) (hbytes : 0 < bytes) {max : Nat} (hmax : 0 < max)
    (hc : c.tx.content ≠ []) :
    (c.perform μ R (.transmit max)).state.tx.fifo.toList ≠ [] := by
  obtain ⟨tx, hs, -, -, hf, -⟩ := perform_transmit μ R h max
  rw [hs]
  intro hnil
  simp only [hf, List.append_eq_nil_iff, List.take_eq_nil_iff] at hnil
  have hpipe : c.tx.pipe.bytes ≠ [] := by
    intro hb
    exact hc (List.append_eq_nil_iff.2 ⟨hnil.1, hb⟩)
  have hzero := hnil.2.resolve_right hpipe
  have hpos := List.length_pos_iff.2 hpipe
  simp only [Transmitter.movable, hnil.1, List.length_nil] at hzero
  omega

theorem loopback_reaches (hbytes : 0 < bytes) {max : Nat} (hmax : 0 < max)
    (hc : c.rx.content ≠ [] ∨ c.tx.fifo.toList ≠ []) :
    (c.perform μ R (.fifos (.loopback max))).state.rx.content ≠ [] := by
  have hf : (c.perform μ R (.fifos (.loopback max))).state.rx.fifo.toList = c.rx.fifo.toList ++
      c.tx.fifo.toList.take (c.fifos.loopback max).1 :=
    (PortFifos.toList_loopback c.fifos max).2
  have hpipe : (c.perform μ R (.fifos (.loopback max))).state.rx.pipe = c.rx.pipe := rfl
  intro hnil
  simp only [Receiver.content, hpipe, hf, List.append_eq_nil_iff, List.take_eq_nil_iff] at hnil
  obtain ⟨hrp, hrf, hmoved⟩ := hnil
  have htx : c.tx.fifo.toList ≠ [] := by
    apply hc.resolve_left
    intro hrx
    apply hrx
    simp only [Receiver.content, hrp, hrf, List.append_nil]
  have hzero := hmoved.resolve_right htx
  have hpos := List.length_pos_iff.2 htx
  have hrlen : c.fifos.rx.toList.length = 0 := congrArg List.length hrf
  have htlen : c.fifos.tx.toList.length = c.tx.fifo.toList.length := rfl
  rw [PortFifos.fst_loopback] at hzero
  omega

theorem receive_reaches (h : c.Ready) {max : Nat} (hmax : 0 < max) (hc : c.rx.content ≠ []) :
    (c.perform μ R (.receive max)).state.rx.pipe.bytes ≠ [] := by
  obtain ⟨rx, hs, -, -, -, -, hb⟩ := perform_receive μ R h max
  rw [hs]
  intro hnil
  simp only [hb, List.append_eq_nil_iff, List.take_eq_nil_iff] at hnil
  have hfifo : c.rx.fifo.toList ≠ [] := by
    intro hf
    exact hc (List.append_eq_nil_iff.2 ⟨hnil.1, hf⟩)
  have hroom := WordPipe.room_pos_of_empty h.rx hnil.1
  have hzero := hnil.2.resolve_right hfifo
  have hpos := List.length_pos_iff.2 hfifo
  simp only [Receiver.movable] at hzero
  omega

theorem read_reaches (h : c.Ready) {buffer : List UInt8} (hbuffer : 0 < buffer.length)
    (hc : c.rx.pipe.bytes ≠ []) : (c.step μ R (.read buffer)).delivered ≠ [] := by
  rw [delivered_read μ R h]
  intro hnil
  have hzero := (List.take_eq_nil_iff.1 hnil).resolve_right hc
  omega

theorem opening_reaches (h : c.Ready) (b : Cycle) {rest : List UInt8}
    (hwork : c.rx.content ++ c.tx.content ++ rest ≠ []) :
    (c.after μ R (b.opening rest)).rx.content ≠ [] ∨
      (c.after μ R (b.opening rest)).tx.content ≠ [] := by
  by_cases hrest : rest = []
  · simp only [Cycle.opening, hrest, if_true, after]
    by_cases hrx : c.rx.content = []
    · right
      simpa [hrx, hrest] using hwork
    · exact .inl hrx
  · simp only [Cycle.opening, hrest, if_false, after]
    have hdata : rest.take b.write ≠ [] := by
      intro hnil
      have hzero := (List.take_eq_nil_iff.1 hnil).resolve_right hrest
      have hpos := b.write_pos
      omega
    exact .inr (write_reaches μ R h hdata)

theorem acts_deliver (h : c.Ready) (hbytes : 0 < bytes) (b : Cycle) {rest : List UInt8}
    (hwork : c.rx.content ++ c.tx.content ++ rest ≠ []) :
    (c.steps μ R (b.acts rest)).flatMap PortStep.delivered ≠ [] := by
  have hopened := opening_reaches μ R h b hwork
  have h1 := after_ready μ R h (b.opening rest)
  generalize hc1 : c.after μ R (b.opening rest) = c1 at hopened h1
  have h2 := perform_ready μ R h1 (.transmit b.transmit)
  have hsent : (c1.perform μ R (.transmit b.transmit)).state.rx.content ≠ [] ∨
      (c1.perform μ R (.transmit b.transmit)).state.tx.fifo.toList ≠ [] :=
    hopened.imp id (transmit_reaches μ R h1 hbytes b.transmit_pos)
  generalize hc2 : (c1.perform μ R (.transmit b.transmit)).state = c2 at hsent h2
  have h3 := perform_ready μ R h2 (.fifos (.loopback b.loopback))
  have hcarried := loopback_reaches μ R hbytes b.loopback_pos hsent
  generalize hc3 : (c2.perform μ R (.fifos (.loopback b.loopback))).state = c3 at hcarried h3
  have h4 := perform_ready μ R h3 (.receive b.receive)
  have hreceived := receive_reaches μ R h3 b.receive_pos hcarried
  have hread := read_reaches μ R h4 b.buffer_pos hreceived
  intro hnil
  simp only [Cycle.acts, steps_append, hc1, hc2, hc3, steps, List.flatMap_append,
    List.flatMap_cons, List.append_eq_nil_iff] at hnil
  exact hread hnil.2.2.2.2.1

theorem acts_loop (c : Channel words bytes) (b : Cycle) (rest : List UInt8) :
    (c.steps μ R (b.acts rest)).flatMap PortStep.departed =
      (c.steps μ R (b.acts rest)).flatMap PortStep.arrived := by
  by_cases hrest : rest = [] <;>
    simp only [Cycle.acts, Cycle.opening, hrest, if_true, if_false, List.nil_append,
      List.cons_append] <;>
    rfl

theorem acts_accept (h : c.Ready) (b : Cycle) (rest : List UInt8) :
    (c.steps μ R (b.acts rest)).flatMap PortStep.accepted <+: rest := by
  by_cases hrest : rest = []
  · subst hrest
    exact List.prefix_rfl
  · have haccepted := accepted_write μ R h (rest.take b.write)
    have hsteps : (c.steps μ R (b.acts rest)).flatMap PortStep.accepted =
        (c.step μ R (.write (rest.take b.write))).accepted := by
      simp only [Cycle.acts, Cycle.opening, hrest, if_false, List.cons_append, List.nil_append,
        steps, List.flatMap_cons]
      exact List.append_nil _
    rw [hsteps, haccepted, List.take_take]
    exact List.take_prefix _ _

/-- With the cable as the only way between the FIFOs, a run delivers from the front of what is
under way and adds to its end. -/
theorem steps_flow (h : c.Ready) {acts : List Act} (htx : ∀ act ∈ acts, act.inTxOrder = true)
    (hrx : ∀ act ∈ acts, act.inRxOrder = true)
    (hloop : (c.steps μ R acts).flatMap PortStep.departed =
      (c.steps μ R acts).flatMap PortStep.arrived) :
    (c.steps μ R acts).flatMap PortStep.delivered ++
        ((c.after μ R acts).rx.content ++ (c.after μ R acts).tx.content) =
      c.rx.content ++ c.tx.content ++ (c.steps μ R acts).flatMap PortStep.accepted := by
  have hsent := steps_send μ R h htx
  have hread := steps_receive μ R h hrx
  rw [← List.append_assoc, hread, ← hloop, List.append_assoc, hsent, ← List.append_assoc]

theorem acts_flow (h : c.Ready) (b : Cycle) (rest : List UInt8) :
    (c.steps μ R (b.acts rest)).flatMap PortStep.delivered ++
        ((c.after μ R (b.acts rest)).rx.content ++ (c.after μ R (b.acts rest)).tx.content) =
      c.rx.content ++ c.tx.content ++ (c.steps μ R (b.acts rest)).flatMap PortStep.accepted :=
  steps_flow μ R h (b.acts_inTxOrder rest) (b.acts_inRxOrder rest) (acts_loop μ R c b rest)

end Channel

/-- A driver in use: the bytes that no write has taken yet, and those that reads handed over. -/
structure Session (μ R : Type) (ports words bytes : Nat) where
  driver : Driver μ R ports words bytes
  rest : List UInt8
  delivered : List UInt8

namespace Session

variable {μ R : Type} {ports words bytes : Nat}

/-- The bytes handed over, those under way and those still to be written are the given ones. -/
def Carries (x : Session μ R ports words bytes) (d : Descriptor) (p : Fin ports)
    (data : List UInt8) : Prop :=
  x.driver.Invariant ∧ ∃ c, x.driver.Serves d p c ∧
    x.delivered ++ (c.rx.content ++ c.tx.content ++ x.rest) = data

variable {x : Session μ R ports words bytes} {d : Descriptor} {p : Fin ports} {data : List UInt8}

theorem Carries.delivered_first (h : x.Carries d p data) : x.delivered <+: data := by
  obtain ⟨-, c, -, rfl⟩ := h
  exact List.prefix_append _ _

variable [RegisterAccess R] [Mapper μ R]

def cycle (x : Session μ R ports words bytes) (d : Descriptor) (p : Fin ports) (b : Cycle) :
    Session μ R ports words bytes :=
  let calls := b.calls d p x.rest
  let steps := x.driver.portSteps d p calls
  { driver := (x.driver.run calls).2
    rest := x.rest.drop (steps.flatMap PortStep.accepted).length
    delivered := x.delivered ++ steps.flatMap PortStep.delivered }

def cycles (x : Session μ R ports words bytes) (d : Descriptor) (p : Fin ports) :
    List Cycle → Session μ R ports words bytes
  | [] => x
  | b :: rest => (x.cycle d p b).cycles d p rest

theorem cycle_carries (h : x.Carries d p data) (b : Cycle) : (x.cycle d p b).Carries d p data := by
  obtain ⟨hinv, c, hserves, hdata⟩ := h
  have hready := hserves.ready hinv
  obtain ⟨hfinal, hsteps⟩ := Driver.run_serves hserves hinv (b.commonInit_not_mem d p x.rest)
  rw [Cycle.filterMap_calls] at hfinal hsteps
  have hflow := Channel.acts_flow μ R hready b x.rest
  have hrest := List.prefix_iff_eq_append.1 (Channel.acts_accept μ R hready b x.rest)
  refine ⟨Driver.run_invariant hinv _, _, hfinal, ?_⟩
  simp only [cycle, hsteps]
  rw [List.append_assoc, ← List.append_assoc _ _ (x.rest.drop _), hflow, List.append_assoc _ _
    (x.rest.drop _), hrest, hdata]

theorem cycles_carries (h : x.Carries d p data) (bs : List Cycle) :
    (x.cycles d p bs).Carries d p data := by
  induction bs generalizing x with
  | nil => exact h
  | cons b bs ih => exact ih (cycle_carries h b)

/-- While bytes are missing each cycle delivers some. -/
theorem cycle_delivers (h : x.Carries d p data) (hbytes : 0 < bytes)
    (hlt : x.delivered.length < data.length) (b : Cycle) :
    x.delivered.length < (x.cycle d p b).delivered.length := by
  obtain ⟨hinv, c, hserves, hdata⟩ := h
  obtain ⟨-, hsteps⟩ := Driver.run_serves hserves hinv (b.commonInit_not_mem d p x.rest)
  rw [Cycle.filterMap_calls] at hsteps
  have hwork : c.rx.content ++ c.tx.content ++ x.rest ≠ [] := by
    intro hnil
    rw [← hdata, hnil, List.append_nil] at hlt
    exact Nat.lt_irrefl _ hlt
  have hread := List.length_pos_iff.2
    (Channel.acts_deliver μ R (hserves.ready hinv) hbytes b hwork)
  simp only [cycle, hsteps, List.length_append]
  omega

theorem cycles_deliver (h : x.Carries d p data) (hbytes : 0 < bytes) (bs : List Cycle) :
    min (x.delivered.length + bs.length) data.length ≤ (x.cycles d p bs).delivered.length := by
  induction bs generalizing x with
  | nil => exact Nat.min_le_left _ _
  | cons b bs ih =>
    have hrest := ih (cycle_carries h b)
    have hle := (cycle_carries h b).delivered_first.length_le
    rw [cycles, List.length_cons]
    by_cases hlt : x.delivered.length < data.length
    · have hstep := cycle_delivers h hbytes hlt b
      omega
    · -- Nothing is missing, and nothing is delivered twice.
      have hge : x.delivered.length ≤ (x.cycle d p b).delivered.length := by
        simp only [cycle, List.length_append]
        omega
      omega

end Session

namespace Driver

variable {μ R : Type} [RegisterAccess R] [Mapper μ R] {ports words bytes : Nat}
  {s : Driver μ R ports words bytes}
  {d : Descriptor} {p : Fin ports}

theorem JustOpened.carries (h : s.JustOpened d p) (hports : ports < 2 ^ 32)
    (htx : (s.fifos.get p).tx.toList = []) (hrx : (s.fifos.get p).rx.toList = [])
    (data : List UInt8) : (⟨s, data, []⟩ : Session μ R ports words bytes).Carries d p data := by
  obtain ⟨c, hserves, htp, hrp⟩ := h.serves hports
  rw [hserves.fifos] at htx hrx
  have htc : c.tx.content = [] := List.append_eq_nil_iff.2 ⟨htx, htp⟩
  have hrc : c.rx.content = [] := List.append_eq_nil_iff.2 ⟨hrp, hrx⟩
  have hall : [] ++ (c.rx.content ++ c.tx.content ++ data) = data := by
    simp only [htc, hrc, List.nil_append]
  exact ⟨h.invariant, c, hserves, hall⟩

/-- Data that is written, sent, carried across, received and read in cycles arrives unchanged:
each cycle delivers at least one byte until all are there, so as many cycles as there are bytes
are enough, and then nothing waits on either side. -/
theorem round_trip (hports : ports < 2 ^ 32) (hbytes : 0 < bytes) (h : s.JustOpened d p)
    (htx : (s.fifos.get p).tx.toList = []) (hrx : (s.fifos.get p).rx.toList = [])
    (data : List UInt8) (cycles : List Cycle) :
    let x := Session.cycles ⟨s, data, []⟩ d p cycles
    x.delivered <+: data ∧
      (x.delivered.length < data.length →
        ∀ b, x.delivered.length < (x.cycle d p b).delivered.length) ∧
      (data.length ≤ cycles.length → x.delivered = data ∧ x.driver.sendableWords d = 0 ∧
        x.driver.readableBytes d = 0) := by
  intro x
  have hstart := h.carries hports htx hrx data
  have hx : x.Carries d p data := Session.cycles_carries hstart cycles
  refine ⟨hx.delivered_first, fun hlt b => Session.cycle_delivers hx hbytes hlt b, fun hle => ?_⟩
  have hmany := Session.cycles_deliver hstart hbytes cycles
  have hall : x.delivered = data := by
    apply hx.delivered_first.eq_of_length_le
    rw [List.length_nil, Nat.zero_add, Nat.min_eq_right hle] at hmany
    exact hmany
  obtain ⟨hinv, c, hserves, hdata⟩ := hx
  have hready := hserves.ready hinv
  rw [hall, List.append_right_eq_self] at hdata
  simp only [List.append_eq_nil_iff, Transmitter.content, Receiver.content] at hdata
  obtain ⟨⟨⟨hrp, -⟩, -, htp⟩, -⟩ := hdata
  refine ⟨hall, ?_, ?_⟩
  · obtain ⟨-, hqueue, hfilling⟩ := (WordPipe.bytes_eq_nil_iff hready.tx.toCanonical).1 htp
    rw [hserves.sendableWords, hfilling, WordQueue.size_eq_length, hqueue]
    rfl
  · rw [hserves.readableBytes hinv, hrp, List.length_nil]

theorem round_trip_sample :
    let b : Cycle := ⟨2, 1, 2 ^ 64 - 1, 3, [0], by decide, by decide, by decide, by decide,
      by decide⟩
    let x := Session.cycles ⟨sample [], [1, 2, 3], []⟩ (.ofIndex 0) 0 [b, b, b]
    x.delivered = [1, 2, 3] ∧ x.driver.sendableWords (.ofIndex 0) = 0 ∧
      x.driver.readableBytes (.ofIndex 0) = 0 :=
  (round_trip (by decide) (by decide) (sample_justOpened []) (by decide +kernel) (by decide +kernel)
    [1, 2, 3] _).2.2 (by decide)

end Driver

end PolledUart
