import PolledUart.Proofs.RoundTrip

/-!
# When a polled loop gets stuck

A port with a loopback cable is worked by polls alone. The sending pipe empties into two FIFOs,
its own and, through the cable, the receiving one, and only an empty sending pipe lets a poll
receive. So the loop comes to rest with every byte delivered exactly if the two FIFOs together
hold all that was written; otherwise it is blocked for good.
-/

set_option autoImplicit false

namespace PolledUart

/-- One cycle: a poll, all that fits across the cable, and a read. Each can move a byte. -/
structure PollCycle (bytes : Nat) where
  transmit : Nat
  receive : Nat
  loopback : Nat
  buffer : List UInt8
  transmit_pos : 0 < transmit
  receive_pos : 0 < receive
  loopback_covers : bytes ≤ loopback
  buffer_pos : 0 < buffer.length

namespace PollCycle

variable {μ R : Type} {ports bytes : Nat}

def calls (b : PollCycle bytes) (d : Descriptor) (p : Fin ports) : List (Call μ) :=
  [.poll d b.transmit b.receive, .fifos p (.loopback b.loopback), .read d b.buffer]

def moves (b : PollCycle bytes) : List Act :=
  [.poll b.transmit b.receive, .fifos (.loopback b.loopback)]

def acts (b : PollCycle bytes) : List Act := b.moves ++ [.read b.buffer]

theorem filterMap_calls (bs : List (PollCycle bytes)) (d : Descriptor) (p : Fin ports) :
    (bs.flatMap fun b => (b.calls d p : List (Call μ))).filterMap (Call.onPort d p) =
      bs.flatMap acts := by
  induction bs with
  | nil => rfl
  | cons b bs ih =>
    have hcalls : (b.calls d p : List (Call μ)).filterMap (Call.onPort d p) = b.acts := by
      simp [calls, acts, moves, Call.onPort, Call.transfer?]
    rw [List.flatMap_cons, List.filterMap_append, hcalls, ih, List.flatMap_cons]

theorem commonInit_not_mem (bs : List (PollCycle bytes)) (d : Descriptor) (p : Fin ports) :
    .commonInit ∉ bs.flatMap fun b => (b.calls d p : List (Call μ)) := by
  simp [calls]

theorem acts_inTxOrder (b : PollCycle bytes) : ∀ act ∈ b.acts, act.inTxOrder = true := by
  intro act hact
  simp only [acts, moves, List.cons_append, List.nil_append, List.mem_cons, List.not_mem_nil,
    or_false] at hact
  rcases hact with rfl | rfl | rfl <;> rfl

theorem acts_inRxOrder (b : PollCycle bytes) : ∀ act ∈ b.acts, act.inRxOrder = true := by
  intro act hact
  simp only [acts, moves, List.cons_append, List.nil_append, List.mem_cons, List.not_mem_nil,
    or_false] at hact
  rcases hact with rfl | rfl | rfl <;> rfl

end PollCycle

/-- A poll that did not receive, a read that found nothing, or neither of the two. -/
def PortStep.Blocked {μ R : Type} {words bytes : Nat} (x : PortStep μ R words bytes) : Prop :=
  match x.act with
  | .poll _ _ => ∃ sent, x.reply = .ok (.polled ⟨sent, 0, false⟩)
  | .read _ => x.reply = .error (.transfer ⟨.capacity .rxEmpty, 0⟩)
  | _ => True

namespace Channel

variable {words bytes : Nat} (μ R : Type) {c : Channel words bytes}

def content (c : Channel words bytes) : List UInt8 := c.rx.content ++ c.tx.content

theorem length_content (c : Channel words bytes) : c.content.length =
    c.rx.pipe.bytes.length + c.rx.fifo.toList.length + c.tx.fifo.toList.length +
      c.tx.pipe.bytes.length := by
  simp only [content, Receiver.content, Transmitter.content, List.length_append]
  omega

/-- The cable has nothing more to carry: no byte is left on its side, or no place on the other. -/
def Carried (c : Channel words bytes) : Prop :=
  c.tx.fifo.toList = [] ∨ c.rx.fifo.toList.length = bytes

/-- What cycles have to do: each byte has to leave the sending pipe, and to be delivered. -/
def work (c : Channel words bytes) : Nat := c.tx.pipe.bytes.length + c.content.length

theorem loopback_carried (c : Channel words bytes) {max : Nat} (hmax : bytes ≤ max) :
    (c.perform μ R (.fifos (.loopback max))).state.Carried := by
  have htx : (c.perform μ R (.fifos (.loopback max))).state.tx.fifo.toList =
      c.tx.fifo.toList.drop (c.fifos.loopback max).1 := (PortFifos.toList_loopback c.fifos max).1
  have hrx : (c.perform μ R (.fifos (.loopback max))).state.rx.fifo.toList = c.rx.fifo.toList ++
      c.tx.fifo.toList.take (c.fifos.loopback max).1 := (PortFifos.toList_loopback c.fifos max).2
  have hmoved : (c.fifos.loopback max).1 =
      min max (min c.tx.fifo.toList.length (bytes - c.rx.fifo.toList.length)) :=
    PortFifos.fst_loopback c.fifos max
  have htxle := c.tx.fifo.length_toList_le
  have hrxle := c.rx.fifo.length_toList_le
  unfold Carried
  rw [htx, hrx, List.drop_eq_nil_iff, List.length_append, List.length_take]
  omega

theorem after_cycle (h : c.Ready) (b : PollCycle bytes) :
    ∃ pipe, c.after μ R b.acts = { c.after μ R b.moves with
        rx := { (c.after μ R b.moves).rx with pipe } } ∧
      pipe.bytes = (c.after μ R b.moves).rx.pipe.bytes.drop b.buffer.length := by
  obtain ⟨pipe, hs, -, -, hb⟩ := perform_read μ R (after_ready μ R h b.moves) b.buffer
  exact ⟨pipe, hs, hb⟩

theorem after_cycle_carried (h : c.Ready) (b : PollCycle bytes) : (c.after μ R b.acts).Carried := by
  obtain ⟨pipe, hs, -⟩ := after_cycle μ R h b
  rw [hs]
  exact loopback_carried μ R (c.perform μ R (.poll b.transmit b.receive)).state b.loopback_covers

theorem cycle_flow (h : c.Ready) (b : PollCycle bytes) :
    (c.steps μ R b.acts).flatMap PortStep.delivered ++ (c.after μ R b.acts).content =
      c.content := by
  have hflow := steps_flow μ R h b.acts_inTxOrder b.acts_inRxOrder rfl
  exact hflow.trans (List.append_nil _)

theorem cycle_pipe (h : c.Ready) (b : PollCycle bytes) :
    (c.after μ R b.acts).tx.pipe.bytes = c.tx.pipe.bytes.drop (c.tx.movable b.transmit) := by
  obtain ⟨tx, hs, -, -, -, hb⟩ := perform_transmit μ R h b.transmit
  obtain ⟨report, -, -, htx, -⟩ := poll_gate μ R h b.transmit b.receive
  obtain ⟨pipe, hafter, -⟩ := after_cycle μ R h b
  rw [hs] at htx
  rw [hafter, ← hb]
  exact congrArg (fun tx => tx.pipe.bytes) htx

theorem cycle_delivers (h : c.Ready) (hc : c.Carried) (hsent : c.tx.pipe.bytes = [])
    (hwork : c.content ≠ []) (b : PollCycle bytes) :
    (c.steps μ R b.acts).flatMap PortStep.delivered ≠ [] := by
  have hrx : c.rx.content ≠ [] := by
    intro hnil
    have htx : c.tx.content ≠ [] := by
      intro htx
      exact hwork (by rw [content, hnil, htx, List.append_nil])
    have hfifo : c.tx.fifo.toList ≠ [] := by simpa [Transmitter.content, hsent] using htx
    -- The receiving FIFO is empty and full at once, so no FIFO has any place.
    have hempty : c.rx.fifo.toList = [] := (List.append_eq_nil_iff.1 hnil).2
    have hfull := hc.resolve_left hfifo
    have hle := c.tx.fifo.length_toList_le
    have hpos := List.length_pos_iff.2 hfifo
    rw [hempty, List.length_nil] at hfull
    omega
  have hgate : c.tx.pipe.bytes.length ≤ c.tx.movable b.transmit := by simp [hsent]
  have hpolled : (c.perform μ R (.poll b.transmit b.receive)).state.rx =
      (c.perform μ R (.receive b.receive)).state.rx := by
    rw [perform_poll μ R h, if_pos hgate]
  have hreceived := receive_reaches μ R h b.receive_pos hrx
  rw [← hpolled] at hreceived
  have hread := read_reaches μ R (after_ready μ R h b.moves) b.buffer_pos hreceived
  intro hnil
  rw [PollCycle.acts, steps_append, List.flatMap_append, List.append_eq_nil_iff] at hnil
  exact hread (List.append_eq_nil_iff.1 hnil.2).1

/-- If the two FIFOs can hold all that is under way, a cycle has less work left behind it. -/
theorem cycle_works (h : c.Ready) (hc : c.Carried) (hfits : c.content.length ≤ 2 * bytes)
    (hwork : 0 < c.work) (b : PollCycle bytes) : (c.after μ R b.acts).work < c.work := by
  have hflow := congrArg List.length (cycle_flow μ R h b)
  have hpipe := congrArg List.length (cycle_pipe μ R h b)
  rw [List.length_append] at hflow
  rw [List.length_drop] at hpipe
  rw [length_content] at hfits
  have hpos := b.transmit_pos
  have htxle := c.tx.fifo.length_toList_le
  by_cases hsent : c.tx.pipe.bytes = []
  · have hcontent : c.content ≠ [] := by
      intro hnil
      simp [work, hsent, hnil] at hwork
    have hdelivered := List.length_pos_iff.2 (cycle_delivers μ R h hc hsent hcontent b)
    simp only [work, hpipe, hsent, List.length_nil]
    omega
  · have hleft := List.length_pos_iff.2 hsent
    -- The sending FIFO has a place: it is empty, or the other one is full and this is not.
    have hmoved : 0 < c.tx.movable b.transmit := by
      simp only [Transmitter.movable]
      rcases hc with hnil | hfull
      · rw [hnil, List.length_nil] at hfits ⊢
        omega
      · omega
    simp only [work, hpipe]
    omega

theorem cycles_work (h : c.Ready) (hc : c.Carried) (hfits : c.content.length ≤ 2 * bytes)
    (bs : List (PollCycle bytes)) :
    (c.after μ R (bs.flatMap PollCycle.acts)).work ≤ c.work - bs.length := by
  induction bs generalizing c with
  | nil => exact Nat.le_refl _
  | cons b bs ih =>
    have hflow := congrArg List.length (cycle_flow μ R h b)
    rw [List.length_append] at hflow
    have hrest := ih (after_ready μ R h b.acts) (after_cycle_carried μ R h b) (by omega)
    rw [List.flatMap_cons, after_append, List.length_cons]
    by_cases hwork : 0 < c.work
    · have hstep := cycle_works μ R h hc hfits hwork b
      omega
    · -- With no work left none comes back.
      have hpipe := congrArg List.length (cycle_pipe μ R h b)
      rw [List.length_drop] at hpipe
      simp only [work] at hrest hwork ⊢
      omega

theorem cycles_flow (h : c.Ready) (bs : List (PollCycle bytes)) :
    (c.steps μ R (bs.flatMap PollCycle.acts)).flatMap PortStep.delivered ++
      (c.after μ R (bs.flatMap PollCycle.acts)).content = c.content := by
  induction bs generalizing c with
  | nil => rfl
  | cons b bs ih =>
    rw [List.flatMap_cons, steps_append, after_append, List.flatMap_append, List.append_assoc,
      ih (after_ready μ R h b.acts), cycle_flow μ R h b]

theorem cycles_accept (c : Channel words bytes) (bs : List (PollCycle bytes)) :
    (c.steps μ R (bs.flatMap PollCycle.acts)).flatMap PortStep.accepted = [] := by
  induction bs generalizing c with
  | nil => rfl
  | cons b bs ih =>
    rw [List.flatMap_cons, steps_append, List.flatMap_append, ih]
    rfl

theorem write_idle (h : c.Ready) (hidle : c.content = []) (data : List UInt8) :
    let w := (c.perform μ R (.write data)).state
    w.rx.pipe.bytes = [] ∧ w.Carried ∧ w.tx.pipe.bytes = (c.step μ R (.write data)).accepted ∧
      w.content = (c.step μ R (.write data)).accepted := by
  intro w
  obtain ⟨pipe, hs, -, -, -, hb⟩ := perform_write μ R h data
  simp only [content, Receiver.content, Transmitter.content, List.append_eq_nil_iff] at hidle
  obtain ⟨⟨hrp, hrf⟩, htf, htp⟩ := hidle
  have hw : w = { c with tx := { c.tx with pipe } } := hs
  have hpipe : w.tx.pipe.bytes = (c.step μ R (.write data)).accepted := by
    rw [hw, accepted_write μ R h, hb, htp, List.nil_append]
  have hcontent : w.content = w.tx.pipe.bytes := by
    simp only [content, Receiver.content, Transmitter.content, hw, hrp, hrf, htf, List.nil_append]
  exact ⟨by rw [hw, hrp], .inl (by rw [hw, htf]), hpipe, hcontent.trans hpipe⟩

/-- Nothing can be read, and the two FIFOs are too small for what is under way. -/
structure Jammed (c : Channel words bytes) : Prop where
  unread : c.rx.pipe.bytes = []
  exceeds : 2 * bytes < c.content.length

theorem Jammed.waits (hj : c.Jammed) : c.content.length - 2 * bytes ≤ c.tx.pipe.bytes.length := by
  have htxle := c.tx.fifo.length_toList_le
  have hrxle := c.rx.fifo.length_toList_le
  rw [length_content, hj.unread, List.length_nil]
  omega

/-- A cycle at a jammed port polls and reads in vain, and leaves the port jammed. -/
theorem Jammed.cycle (hj : c.Jammed) (h : c.Ready) (b : PollCycle bytes) :
    (∀ x ∈ c.steps μ R b.acts, x.Blocked) ∧ (c.after μ R b.acts).Jammed ∧
      (c.after μ R b.acts).content.length = c.content.length := by
  have hlength := length_content c
  have htxle := c.tx.fifo.length_toList_le
  have hrxle := c.rx.fifo.length_toList_le
  have hover := hj.exceeds
  have hgate : ¬ c.tx.pipe.bytes.length ≤ c.tx.movable b.transmit := by
    rw [hj.unread, List.length_nil] at hlength
    simp only [Transmitter.movable]
    omega
  have hpoll := perform_poll μ R h b.transmit b.receive
  rw [if_neg hgate] at hpoll
  have hpolled : (c.step μ R (.poll b.transmit b.receive)).Blocked :=
    ⟨_, congrArg Outcome.value hpoll⟩
  -- Neither the closed gate nor the cable puts anything into the pipe that is read.
  have hunread : (c.after μ R b.moves).rx.pipe.bytes = [] := by
    have hrx : (c.after μ R b.moves).rx.pipe =
        (c.perform μ R (.poll b.transmit b.receive)).state.rx.pipe := rfl
    rw [hrx, hpoll, hj.unread]
  have hready := after_ready μ R h b.moves
  obtain ⟨pipe, hs, hb⟩ := after_cycle μ R h b
  have hempty : (c.after μ R b.acts).rx.pipe.bytes = [] := by
    rw [hs]
    simp only [hb, hunread, List.drop_nil]
  have hread : ((c.after μ R b.moves).step μ R (.read b.buffer)).Blocked := by
    obtain ⟨-, -, hv, -⟩ := perform_read μ R hready b.buffer
    rw [if_pos ⟨hunread, List.length_pos_iff.1 b.buffer_pos⟩] at hv
    exact hv
  have hdelivered : (c.steps μ R b.acts).flatMap PortStep.delivered = [] := by
    have hnone := delivered_read μ R hready b.buffer
    rw [hunread, List.take_nil] at hnone
    rw [PollCycle.acts, steps_append, List.flatMap_append]
    exact List.append_eq_nil_iff.2 ⟨rfl, List.append_eq_nil_iff.2 ⟨hnone, rfl⟩⟩
  have hkept : (c.after μ R b.acts).content.length = c.content.length := by
    rw [← cycle_flow μ R h b, hdelivered, List.nil_append]
  refine ⟨?_, ⟨hempty, hkept ▸ hover⟩, hkept⟩
  intro x hx
  simp only [PollCycle.acts, steps_append, steps, List.mem_append, PollCycle.moves,
    List.mem_cons, List.not_mem_nil, or_false] at hx
  rcases hx with (rfl | rfl) | rfl
  · exact hpolled
  · trivial
  · exact hread

theorem Jammed.cycles (hj : c.Jammed) (h : c.Ready) (bs : List (PollCycle bytes)) :
    (∀ x ∈ c.steps μ R (bs.flatMap PollCycle.acts), x.Blocked) ∧
      (c.after μ R (bs.flatMap PollCycle.acts)).Jammed ∧
      (c.after μ R (bs.flatMap PollCycle.acts)).content.length = c.content.length := by
  induction bs generalizing c with
  | nil => exact ⟨(fun x hx => nomatch hx), hj, rfl⟩
  | cons b bs ih =>
    obtain ⟨hsteps, hjammed, hkept⟩ := hj.cycle μ R h b
    obtain ⟨hrest, hlast, hsame⟩ := ih hjammed (after_ready μ R h b.acts)
    rw [List.flatMap_cons, steps_append, after_append]
    refine ⟨?_, hlast, hsame.trans hkept⟩
    intro x hx
    rcases List.mem_append.1 hx with hfirst | hlater
    · exact hsteps x hfirst
    · exact hrest x hlater

def writeLoop (data : List UInt8) (bs : List (PollCycle bytes)) : List Act :=
  .write data :: bs.flatMap PollCycle.acts

theorem writeLoop_accepts (c : Channel words bytes) (data : List UInt8)
    (bs : List (PollCycle bytes)) :
    (c.steps μ R (writeLoop data bs)).flatMap PortStep.accepted =
      (c.step μ R (.write data)).accepted := by
  rw [writeLoop, steps, List.flatMap_cons, cycles_accept, List.append_nil]

theorem writeLoop_flow (h : c.Ready) (hidle : c.content = []) (data : List UInt8)
    (bs : List (PollCycle bytes)) :
    (c.steps μ R (writeLoop data bs)).flatMap PortStep.delivered ++
        (c.after μ R (writeLoop data bs)).content = (c.step μ R (.write data)).accepted := by
  have hflow := cycles_flow μ R (perform_ready μ R h (.write data)) bs
  rw [(write_idle μ R h hidle data).2.2.2] at hflow
  exact hflow

theorem writeLoop_delivers (h : c.Ready) (hidle : c.content = []) {data : List UInt8}
    {bs : List (PollCycle bytes)}
    (hfits : (c.step μ R (.write data)).accepted.length ≤ 2 * bytes)
    (hlong : 2 * (c.step μ R (.write data)).accepted.length ≤ bs.length) :
    (c.steps μ R (writeLoop data bs)).flatMap PortStep.delivered =
      (c.step μ R (.write data)).accepted := by
  obtain ⟨-, hcarried, hpipe, hcontent⟩ := write_idle μ R h hidle data
  have hwork := cycles_work μ R (perform_ready μ R h (.write data)) hcarried
    (by rw [hcontent]; exact hfits) bs
  have htotal : (c.perform μ R (.write data)).state.work =
      2 * (c.step μ R (.write data)).accepted.length := by
    simp only [work, hpipe, hcontent]
    omega
  have hdone : (c.after μ R (writeLoop data bs)).content = [] := by
    apply List.length_eq_zero_iff.1
    simp only [writeLoop, after, work] at hwork htotal ⊢
    omega
  have hflow := writeLoop_flow μ R h hidle data bs
  rw [hdone, List.append_nil] at hflow
  exact hflow

theorem writeLoop_jams (h : c.Ready) (hidle : c.content = []) {data : List UInt8}
    (bs : List (PollCycle bytes))
    (hover : 2 * bytes < (c.step μ R (.write data)).accepted.length) :
    (∀ x ∈ c.steps μ R (writeLoop data bs), x.Blocked) ∧
      (c.steps μ R (writeLoop data bs)).flatMap PortStep.delivered = [] ∧
      (c.step μ R (.write data)).accepted.length - 2 * bytes ≤
        (c.after μ R (writeLoop data bs)).tx.pipe.size := by
  obtain ⟨hunread, -, -, hcontent⟩ := write_idle μ R h hidle data
  have hjam : (c.perform μ R (.write data)).state.Jammed := ⟨hunread, by rw [hcontent]; exact hover⟩
  obtain ⟨hblocked, hstill, hkept⟩ := hjam.cycles μ R (perform_ready μ R h (.write data)) bs
  rw [hcontent] at hkept
  refine ⟨?_, ?_, ?_⟩
  · intro x hx
    simp only [writeLoop, steps, List.mem_cons] at hx
    rcases hx with rfl | hx
    · trivial
    · exact hblocked x hx
  · have hlength := congrArg List.length (writeLoop_flow μ R h hidle data bs)
    rw [List.length_append] at hlength
    simp only [writeLoop, after] at hlength ⊢
    exact List.length_eq_zero_iff.1 (by omega)
  · have hfinally := after_ready μ R h (writeLoop data bs)
    rw [WordPipe.size_eq_length hfinally.tx.toCanonical]
    exact hkept ▸ hstill.waits

end Channel

namespace Driver

variable {μ R : Type} [RegisterAccess R] [Mapper μ R] {ports words bytes : Nat}
  {s : Driver μ R ports words bytes}
  {d : Descriptor} {p : Fin ports}

/-- One write and cycles of polling at a freshly opened port with a cable. If the two FIFOs can
hold the bytes that the write took, two cycles for each of them deliver them all, in order. If they
cannot, then however many cycles there are no poll receives, no read finds a byte, and what the
FIFOs cannot hold stays in the sending pipe. -/
theorem poll_loop_delivers_or_jams (hports : ports < 2 ^ 32) (h : s.JustOpened d p)
    (htx : (s.fifos.get p).tx.toList = []) (hrx : (s.fifos.get p).rx.toList = [])
    (data : List UInt8) (cycles : List (PollCycle bytes)) :
    let calls := Call.write d data :: cycles.flatMap fun b => b.calls d p
    let steps := s.portSteps d p calls
    let accepted := steps.flatMap PortStep.accepted
    (accepted.length ≤ 2 * bytes → 2 * accepted.length ≤ cycles.length →
        steps.flatMap PortStep.delivered = accepted) ∧
      (2 * bytes < accepted.length →
        (∀ x ∈ steps, x.Blocked) ∧ steps.flatMap PortStep.delivered = [] ∧
          ∃ c, (s.run calls).2.Serves d p c ∧ accepted.length - 2 * bytes ≤ c.tx.pipe.size) := by
  intro calls steps accepted
  obtain ⟨c, hserves, htp, hrp⟩ := h.serves hports
  rw [hserves.fifos] at htx hrx
  have hready := hserves.ready h.invariant
  have hcalls : .commonInit ∉ calls := by
    simpa [calls] using PollCycle.commonInit_not_mem (μ := μ) cycles d p
  obtain ⟨hfinal, hsteps⟩ := run_serves hserves h.invariant hcalls
  have hacts : calls.filterMap (Call.onPort d p) = Channel.writeLoop data cycles := by
    rw [Channel.writeLoop, ← PollCycle.filterMap_calls cycles d p]
    exact List.filterMap_cons_some (Call.onPort_of_transfer rfl)
  rw [hacts] at hfinal hsteps
  have hidle : c.content = [] := by
    simp only [Channel.content, Receiver.content, Transmitter.content, htp, hrp]
    exact List.append_eq_nil_iff.2 ⟨hrx, List.append_eq_nil_iff.2 ⟨htx, rfl⟩⟩
  have haccepted : accepted = (c.step μ R (.write data)).accepted := by
    simp only [accepted, steps, hsteps, Channel.writeLoop_accepts]
  constructor
  · intro hfits hlong
    rw [haccepted] at hfits hlong
    simp only [haccepted, steps, hsteps, Channel.writeLoop_delivers μ R hready hidle hfits hlong]
  · intro hover
    rw [haccepted] at hover
    obtain ⟨hblocked, hnone, hwaits⟩ := Channel.writeLoop_jams μ R hready hidle cycles hover
    rw [haccepted]
    simp only [steps, hsteps]
    exact ⟨hblocked, hnone, _, hfinal, hwaits⟩

theorem poll_loop_sample :
    let b : PollCycle 2 := ⟨1, 1, 2 ^ 64 - 1, [0], by decide, by decide, by decide, by decide⟩
    let calls (data : List UInt8) (n : Nat) := Call.write (.ofIndex 0) data ::
      (List.replicate n b).flatMap fun b => b.calls (.ofIndex 0) (0 : Fin 1)
    ((sample []).portSteps (.ofIndex 0) 0 (calls [1, 2, 3, 4] 8)).flatMap PortStep.delivered =
        [1, 2, 3, 4] ∧
      (∀ x ∈ (sample []).portSteps (.ofIndex 0) 0 (calls [1, 2, 3, 4, 5] 3), x.Blocked) ∧
      ∃ c, ((sample []).run (calls [1, 2, 3, 4, 5] 3)).2.Serves (.ofIndex 0) 0 c ∧
        1 ≤ c.tx.pipe.size := by
  intro b calls
  have hopened := sample_justOpened []
  have hfour := (poll_loop_delivers_or_jams (by decide) hopened (by decide +kernel)
    (by decide +kernel) [1, 2, 3, 4] (List.replicate 8 b)).1 (by decide +kernel) (by decide +kernel)
  have hfive := (poll_loop_delivers_or_jams (by decide) hopened (by decide +kernel)
    (by decide +kernel) [1, 2, 3, 4, 5] (List.replicate 3 b)).2 (by decide +kernel)
  obtain ⟨hblocked, -, c, hc, hwaits⟩ := hfive
  have haccepted : ((sample []).portSteps (.ofIndex 0) 0 (calls [1, 2, 3, 4] 8)).flatMap
      PortStep.accepted = [1, 2, 3, 4] := by decide +kernel
  exact ⟨hfour.trans haccepted, hblocked, c, hc, Nat.le_trans (by decide +kernel) hwaits⟩

end Driver

end PolledUart
