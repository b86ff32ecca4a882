import PolledUart.Proofs.Conservation

/-!
# Words among bytes

Written bytes go in at the end of the sending pipe. A whole word goes into the queue, past the
bytes of the filling word, and past a complete filling word too. So what leaves a port is fixed by
what went in and by how many bytes each word passed; if no word passed any, it is what went in, in
the order of the calls.
-/

set_option autoImplicit false

namespace PolledUart

/-- Takes no word out past the FIFO, and feeds the FIFO nothing. -/
def Act.inQueueOrder : Act → Bool
  | .writeWord _ => true
  | act => act.inTxOrder

/-- Bytes that went into the sending pipe, and how many bytes inside they passed. -/
structure Intake where
  taken : List UInt8
  passed : Nat
  deriving DecidableEq, Repr

namespace Intake

/-- The bytes in the order in which they leave, once those of the intake are among them. -/
def place (x : Intake) (stream : List UInt8) : List UInt8 :=
  stream.take (stream.length - x.passed) ++ (x.taken ++ stream.drop (stream.length - x.passed))

def placeAll (stream : List UInt8) : List Intake → List UInt8
  | [] => stream
  | x :: rest => placeAll (x.place stream) rest

theorem place_last {x : Intake} (h : x.passed = 0) (stream : List UInt8) :
    x.place stream = stream ++ x.taken := by
  simp only [place, h, Nat.sub_zero, List.take_length, List.drop_length, List.append_nil]

theorem place_before {x : Intake} {behind : List UInt8} (h : behind.length = x.passed)
    (ahead : List UInt8) : x.place (ahead ++ behind) = ahead ++ (x.taken ++ behind) := by
  have hlen : (ahead ++ behind).length - x.passed = ahead.length := by
    rw [List.length_append, h, Nat.add_sub_cancel]
  rw [place, hlen, List.take_left, List.drop_left]

theorem place_append {x : Intake} {stream : List UInt8} (h : x.passed ≤ stream.length)
    (ahead : List UInt8) : x.place (ahead ++ stream) = ahead ++ x.place stream := by
  have hsplit := List.take_append_drop (stream.length - x.passed) stream
  have hbehind : (stream.drop (stream.length - x.passed)).length = x.passed := by
    rw [List.length_drop]
    omega
  calc x.place (ahead ++ stream)
      = x.place ((ahead ++ stream.take (stream.length - x.passed)) ++
          stream.drop (stream.length - x.passed)) := by rw [List.append_assoc, hsplit]
    _ = ahead ++ x.place stream := by rw [place_before hbehind, List.append_assoc, place]

theorem placeAll_last {xs : List Intake} (h : ∀ x ∈ xs, x.passed = 0) (stream : List UInt8) :
    placeAll stream xs = stream ++ xs.flatMap taken := by
  induction xs generalizing stream with
  | nil => exact (List.append_nil stream).symm
  | cons x rest ih =>
    obtain ⟨hx, hrest⟩ := List.forall_mem_cons.1 h
    rw [placeAll, ih hrest, place_last hx, List.flatMap_cons, List.append_assoc]

end Intake

/-- What a step took in, when the filling word held so many bytes. -/
def PortStep.intake {μ R : Type} {words bytes : Nat} (x : PortStep μ R words bytes) (staged : Nat) :
    Intake :=
  match x.act, x.reply with
  | .writeWord word, .ok _ => ⟨word.bytes, staged⟩
  | _, _ => ⟨x.accepted, 0⟩

namespace Channel

variable {words bytes : Nat} (μ R : Type)

def intakes (c : Channel words bytes) : List Act → List Intake
  | [] => []
  | act :: rest =>
    (c.step μ R act).intake c.tx.pipe.filling.len :: (c.perform μ R act).state.intakes rest

variable {c : Channel words bytes}

theorem intake_passed_le (h : c.Ready) (act : Act) :
    ((c.step μ R act).intake c.tx.pipe.filling.len).passed ≤ c.tx.content.length := by
  have hfilling : c.tx.pipe.filling.len ≤ c.tx.content.length := by
    simp only [Transmitter.content, WordPipe.bytes, List.length_append,
      ShiftWord.length_bytes h.tx.filling]
    omega
  unfold PortStep.intake
  split
  · exact hfilling
  · exact Nat.zero_le _

/-- One step takes its bytes in where its intake says. -/
theorem perform_places (h : c.Ready) {act : Act} (ho : act.inQueueOrder = true) :
    (c.step μ R act).departed ++ (c.perform μ R act).state.tx.content =
      ((c.step μ R act).intake c.tx.pipe.filling.len).place c.tx.content := by
  by_cases hword : ∃ word, act = .writeWord word
  · obtain ⟨word, rfl⟩ := hword
    rcases perform_writeWord μ R h word with ⟨-, hs, hv⟩ | ⟨pipe, hs, hv, -, hq, hf, hd⟩
    · simp [step, PortStep.intake, PortStep.departed, PortStep.accepted, hs, hv,
        Intake.place_last]
    · have hbehind := ShiftWord.length_bytes h.tx.filling
      have hcontent : c.tx.content = (c.tx.fifo.toList ++ c.tx.pipe.draining.bytes ++
          c.tx.pipe.queue.bytes) ++ c.tx.pipe.filling.bytes := by
        simp only [Transmitter.content, WordPipe.bytes, List.append_assoc]
      simp only [step, PortStep.intake, hv]
      rw [hcontent, Intake.place_before hbehind, hs]
      simp only [Transmitter.content, WordPipe.bytes, WordQueue.bytes, hq, hf, hd,
        PortStep.departed, List.flatMap_append, List.flatMap_cons, List.flatMap_nil,
        List.append_nil, List.nil_append, List.append_assoc]
  · -- Any other act takes its bytes in at the end.
    have hintake : (c.step μ R act).intake c.tx.pipe.filling.len =
        ⟨(c.step μ R act).accepted, 0⟩ := by
      cases act with
      | writeWord word => exact absurd ⟨word, rfl⟩ hword
      | _ => rfl
    have hin : act.inTxOrder = true := by
      cases act with
      | writeWord word => exact absurd ⟨word, rfl⟩ hword
      | _ => exact ho
    rw [hintake, Intake.place_last rfl, perform_sends μ R h hin]

/-- A run puts what it takes in where its intakes say, also behind bytes that left before. -/
theorem steps_place (h : c.Ready) {acts : List Act} (ho : ∀ act ∈ acts, act.inQueueOrder = true)
    (left : List UInt8) :
    left ++ ((c.steps μ R acts).flatMap PortStep.departed ++ (c.after μ R acts).tx.content) =
      Intake.placeAll (left ++ c.tx.content) (c.intakes μ R acts) := by
  induction acts generalizing c left with
  | nil => rfl
  | cons act rest ih =>
    obtain ⟨hact, hrest⟩ := List.forall_mem_cons.1 ho
    have hsteps := ih (perform_ready μ R h act) hrest (left ++ (c.step μ R act).departed)
    simp only [steps, after, intakes, Intake.placeAll, List.flatMap_cons]
    rw [Intake.place_append (intake_passed_le μ R h act), ← perform_places μ R h hact]
    simpa only [List.append_assoc] using hsteps

end Channel

namespace Driver

variable {μ R : Type} {ports words bytes : Nat}

def staged (s : Driver μ R ports words bytes) (d : Descriptor) : Nat :=
  match s.entry d with
  | .error _ => 0
  | .ok (_, e) => e.txFilling.len

variable {s : Driver μ R ports words bytes} {d : Descriptor} {p : Fin ports}
  {c : Channel words bytes}

theorem Serves.staged (h : s.Serves d p c) : s.staged d = c.tx.pipe.filling.len := by
  obtain ⟨slot, e, hr, -, rfl⟩ := h
  simp only [Driver.staged, (resolve_eq_ok.1 hr).1]
  rfl

variable [RegisterAccess R] [Mapper μ R]

/-- What went into the sending side of a port during a run, as its descriptor sees it. -/
def intakes (s : Driver μ R ports words bytes) (d : Descriptor) (p : Fin ports) :
    List (Call μ) → List Intake
  | [] => []
  | call :: rest =>
    let o := s.perform call
    match call.onPort d p with
    | some act =>
      PortStep.intake ⟨s.fifos.get p, act, o.value⟩ (s.staged d) :: o.state.intakes d p rest
    | none => o.state.intakes d p rest

theorem run_intakes (h : s.Serves d p c) (hs : s.Invariant) {calls : List (Call μ)}
    (hcalls : .commonInit ∉ calls) :
    s.intakes d p calls = c.intakes μ R (calls.filterMap (Call.onPort d p)) := by
  induction calls generalizing s c with
  | nil => rfl
  | cons call rest ih =>
    obtain ⟨hcall, hrest⟩ := not_or.1 (mt List.mem_cons.2 hcalls)
    have hnext := perform_invariant hs call
    rcases hp : call.onPort d p with _ | act
    · have hserves := offPort_serves h hs (Ne.symm hcall) hp
      simp only [intakes, hp, ih hserves hnext hrest, List.filterMap_cons]
    · obtain ⟨hserves, hvalue⟩ := onPort_serves h hp
      simp only [intakes, hp, ih hserves hnext hrest, List.filterMap_cons, Channel.intakes,
        Channel.step, hvalue, h.fifos, h.staged]

theorem run_places (hports : ports < 2 ^ 32) (h : s.JustOpened d p) {calls : List (Call μ)}
    (hcalls : .commonInit ∉ calls)
    (horder : ∀ act ∈ calls.filterMap (Call.onPort d p), act.inQueueOrder = true) :
    ∃ c, (s.run calls).2.Serves d p c ∧
      (s.portSteps d p calls).flatMap PortStep.departed ++ c.tx.content =
        Intake.placeAll (s.fifos.get p).tx.toList (s.intakes d p calls) := by
  obtain ⟨c, hserves, htx, -⟩ := h.serves hports
  obtain ⟨hfinal, hsteps⟩ := run_serves hserves h.invariant hcalls
  have hplaced := Channel.steps_place μ R (hserves.ready h.invariant) horder []
  have hfifo : c.tx.content = (s.fifos.get p).tx.toList := by
    rw [hserves.fifos, Transmitter.content, htx, List.append_nil]
    rfl
  refine ⟨_, hfinal, ?_⟩
  rw [hsteps, run_intakes hserves h.invariant hcalls, ← hfifo]
  exact hplaced

/-- Between opening the port and any later moment, what left the sending FIFO, followed by what is
still on its way, is what the FIFO held at first with all that went in: written bytes behind
everything, and a word before the bytes that waited in the filling word. If none ever waited when
a word went in, all of it leaves in the order of the calls. -/
theorem words_in_order (hports : ports < 2 ^ 32) (h : s.JustOpened d p) {calls : List (Call μ)}
    (hcalls : .commonInit ∉ calls)
    (horder : ∀ act ∈ calls.filterMap (Call.onPort d p), act.inQueueOrder = true) :
    ∃ c, (s.run calls).2.Serves d p c ∧
      (s.portSteps d p calls).flatMap PortStep.departed ++ c.tx.content =
        Intake.placeAll (s.fifos.get p).tx.toList (s.intakes d p calls) ∧
      ((∀ x ∈ s.intakes d p calls, x.passed = 0) →
        (s.portSteps d p calls).flatMap PortStep.departed ++ c.tx.content =
          (s.fifos.get p).tx.toList ++ (s.intakes d p calls).flatMap Intake.taken) := by
  obtain ⟨c, hserves, hplaced⟩ := run_places hports h hcalls horder
  refine ⟨c, hserves, hplaced, ?_⟩
  intro hlast
  rw [hplaced, Intake.placeAll_last hlast]

theorem words_in_order_sample :
    let calls := [Call.writeWord (.ofIndex 0) 0x04030201, .transmit (.ofIndex 0) 2,
      .write (.ofIndex 0) [5, 6, 7, 8], .writeWord (.ofIndex 0) 0, .fifos 0 (.pop .tx),
      .fifos 0 (.pop .tx), .poll (.ofIndex 0) 2 0, .fifos 0 (.pop .tx), .fifos 0 (.pop .tx),
      .poll (.ofIndex 0) 2 0, .writeWord (.ofIndex 0) 0x0c0b0a09]
    ((sample [7]).portSteps (.ofIndex 0) 0 calls).flatMap PortStep.departed = [7, 1, 2, 3] ∧
      ∃ c, ((sample [7]).run calls).2.Serves (.ofIndex 0) 0 c ∧
        ((sample [7]).portSteps (.ofIndex 0) 0 calls).flatMap PortStep.departed ++ c.tx.content =
          [7, 1, 2, 3, 4, 5, 6, 7, 8, 9, 10, 11, 12] := by
  intro calls
  have hcalls : .commonInit ∉ calls := by simp [calls]
  obtain ⟨c, hserves, -, hlast⟩ :=
    words_in_order (by decide) (sample_justOpened [7]) hcalls (by decide)
  have hpassed : ∀ x ∈ (sample [7]).intakes (.ofIndex 0) 0 calls, x.passed = 0 := by
    decide +kernel
  have hstream : ((sample [7]).fifos.get (0 : Fin 1)).tx.toList ++
      ((sample [7]).intakes (.ofIndex 0) 0 calls).flatMap Intake.taken =
        [7, 1, 2, 3, 4, 5, 6, 7, 8, 9, 10, 11, 12] := by
    decide +kernel
  exact ⟨by decide +kernel, c, hserves, (hlast hpassed).trans hstream⟩

/-- A word that goes in while a complete one waits to be queued leaves before it. -/
theorem complete_word_overtaken :
    let calls := [Call.write (.ofIndex 0) [1, 2, 3, 4, 5, 6, 7, 8], .transmit (.ofIndex 0) 1,
      .writeWord (.ofIndex 0) 0x0c0b0a09]
    (sample []).JustOpened (.ofIndex 0) 0 ∧ .commonInit ∉ calls ∧
      (∀ act ∈ calls.filterMap (Call.onPort (.ofIndex 0) (0 : Fin 1)), act.inQueueOrder = true) ∧
      (∀ x ∈ (sample []).intakes (.ofIndex 0) 0 calls, x.passed = 0 ∨ x.passed = Word.size) ∧
      ¬ ∃ c, ((sample []).run calls).2.Serves (.ofIndex 0) 0 c ∧
        ((sample []).portSteps (.ofIndex 0) 0 calls).flatMap PortStep.departed ++ c.tx.content =
          ((sample []).fifos.get (0 : Fin 1)).tx.toList ++
            ((sample []).intakes (.ofIndex 0) 0 calls).flatMap Intake.taken := by
  intro calls
  have hcalls : .commonInit ∉ calls := by simp [calls]
  have horder : ∀ act ∈ calls.filterMap (Call.onPort (.ofIndex 0) (0 : Fin 1)),
      act.inQueueOrder = true := by decide
  refine ⟨sample_justOpened [], hcalls, horder, by decide +kernel, ?_⟩
  rintro ⟨c, hserves, hstream⟩
  obtain ⟨c', hserves', hplaced⟩ := run_places (by decide) (sample_justOpened []) hcalls horder
  rw [hserves.unique hserves', hplaced] at hstream
  revert hstream
  decide +kernel

end Driver

end PolledUart
