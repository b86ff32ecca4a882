import PolledUart.Proofs.Conservation

/-!
# A poll receives once everything is sent

The gate of a poll is exact: it opens when the pipe of the sending side has nothing left in any of
its three parts. How much that pipe holds can be told from the replies alone, since it is what
went in less what came out.
-/

set_option autoImplicit false

namespace PolledUart

namespace WordPipe

theorem bytes_eq_nil_iff {n : Nat} {p : WordPipe n} (h : p.Canonical) :
    p.bytes = [] ↔ p.draining = .empty ∧ p.queue.toList = [] ∧ p.filling = .empty := by
  rw [← isEmpty_iff h, isEmpty, Bool.and_eq_true, Bool.and_eq_true, and_assoc,
    ShiftWord.isEmpty_eq_true_iff, ShiftWord.isEmpty_eq_true_iff, WordQueue.isEmpty_iff]

theorem size_eq_zero_iff {n : Nat} {p : WordPipe n} (h : p.Canonical) :
    p.size = 0 ↔ p.bytes = [] := by
  rw [size_eq_length h, List.length_eq_zero_iff]

end WordPipe

namespace PortStep

variable {μ R : Type} {words bytes : Nat}

def loaded (x : PortStep μ R words bytes) : Nat :=
  match x.act, x.reply with
  | .writeWord _, .ok _ => Word.size
  | _, _ => x.accepted.length

def unloaded (x : PortStep μ R words bytes) : Nat :=
  match x.act, x.reply with
  | .nextTxWord, .ok _ => Word.size
  | .transmit _, .ok (.count sent) => sent
  | .poll _ _, .ok (.polled report) => report.transmitted
  | _, _ => 0

end PortStep

namespace Channel

variable {words bytes : Nat} (μ R : Type) {c : Channel words bytes}

theorem perform_balance (h : c.Ready) (act : Act) :
    (c.perform μ R act).state.tx.pipe.bytes.length + (c.step μ R act).unloaded =
      c.tx.pipe.bytes.length + (c.step μ R act).loaded := by
  have hmove (max : Nat) : c.tx.movable max ≤ c.tx.pipe.bytes.length := by
    simp only [Transmitter.movable]
    omega
  cases act with
  | receive | read | readWord | fifos => rfl
  | write data =>
    obtain ⟨pipe, hs, -, -, -, hb⟩ := perform_write μ R h data
    have hl : (c.step μ R (.write data)).loaded = (data.take c.tx.pipe.room).length := by
      rw [← accepted_write μ R h data]
      rfl
    rw [hs, hl]
    simp only [hb, List.length_append]
    rfl
  | writeWord word =>
    rcases perform_writeWord μ R h word with ⟨-, hs, hv⟩ | ⟨pipe, hs, hv, -, hq, hf, hd⟩
    · rw [hs]
      simp only [step, PortStep.unloaded, PortStep.loaded, PortStep.accepted, hv, List.length_nil]
    · rw [hs]
      simp only [step, PortStep.unloaded, PortStep.loaded, hv, WordPipe.bytes, WordQueue.bytes, hq,
        hf, hd, List.flatMap_append, List.length_append, List.flatMap_cons, List.flatMap_nil,
        Word.length_bytes, List.append_nil, Word.size]
      omega
  | transmit max =>
    obtain ⟨tx, hs, hv, -, -, hb⟩ := perform_transmit μ R h max
    have hle := hmove max
    rw [hs]
    simp only [step, PortStep.unloaded, PortStep.loaded, PortStep.accepted, hv, hb,
      List.length_drop, List.length_nil]
    omega
  | nextTxWord =>
    rcases perform_nextTxWord μ R h with ⟨hs, hv⟩ | ⟨word, pipe, hs, hv, -, hd, hb⟩
    · rw [hs]
      simp only [step, PortStep.unloaded, PortStep.loaded, PortStep.accepted, hv, List.length_nil]
    · have hl := congrArg List.length hb
      simp only [List.length_append, Word.length_bytes] at hl
      rw [hs]
      simp only [step, PortStep.unloaded, PortStep.loaded, PortStep.accepted, hv, WordPipe.bytes,
        hd, List.length_append, List.length_nil, Word.size]
      omega
  | poll maxTx maxRx =>
    obtain ⟨tx, hs, -, -, -, hb⟩ := perform_transmit μ R h maxTx
    have hle := hmove maxTx
    simp only [step, perform_poll μ R h, hs]
    split <;>
      simp only [PortStep.unloaded, PortStep.loaded, PortStep.accepted, hb, List.length_drop,
        List.length_nil] <;>
      omega

theorem steps_balance (h : c.Ready) (acts : List Act) :
    (c.after μ R acts).tx.pipe.bytes.length + ((c.steps μ R acts).map PortStep.unloaded).sum =
      c.tx.pipe.bytes.length + ((c.steps μ R acts).map PortStep.loaded).sum := by
  apply steps_account μ R (fun c => c.tx.pipe.bytes.length) _ h acts
  intro c act hc
  exact perform_balance μ R hc act

/-- A poll sends like a transmission, and leaves the receiving side alone unless that emptied the
sending pipe. -/
theorem poll_gate (h : c.Ready) (maxTx maxRx : Nat) :
    ∃ report, (c.perform μ R (.poll maxTx maxRx)).value = .ok (.polled report) ∧
      (c.perform μ R (.transmit maxTx)).value = .ok (.count report.transmitted) ∧
      (c.perform μ R (.poll maxTx maxRx)).state.tx = (c.perform μ R (.transmit maxTx)).state.tx ∧
      (report.rxServiced = true ↔ (c.perform μ R (.transmit maxTx)).state.tx.pipe.bytes = []) ∧
      (report.rxServiced = false → report.received = 0 ∧
        (c.perform μ R (.poll maxTx maxRx)).state.rx = c.rx) := by
  obtain ⟨tx, hs, hv, -, -, hb⟩ := perform_transmit μ R h maxTx
  have hempty : tx.pipe.bytes = [] ↔ c.tx.pipe.bytes.length ≤ c.tx.movable maxTx := by
    rw [hb, List.drop_eq_nil_iff]
  rw [perform_poll μ R h, hs, hv]
  by_cases he : c.tx.pipe.bytes.length ≤ c.tx.movable maxTx
  · rw [if_pos he]
    have hserviced : true = true ↔ tx.pipe.bytes = [] := by simp only [hempty, he]
    exact ⟨_, rfl, rfl, rfl, hserviced, fun hf => nomatch hf⟩
  · rw [if_neg he]
    have hwaiting : false = true ↔ tx.pipe.bytes = [] := by
      simp only [hempty, he, Bool.false_eq_true]
    exact ⟨_, rfl, rfl, rfl, hwaiting, fun _ => ⟨rfl, rfl⟩⟩

end Channel

namespace Driver

variable {μ R : Type} [RegisterAccess R] [Mapper μ R] {ports words bytes : Nat}
  {s : Driver μ R ports words bytes}
  {d : Descriptor} {p : Fin ports} {c first : Channel words bytes}

theorem run_balance (h : s.JustOpened d p) (hfirst : s.Serves d p first)
    {calls : List (Call μ)} (hcalls : .commonInit ∉ calls)
    (hc : (s.run calls).2.Serves d p c) :
    c.tx.pipe.size + ((s.portSteps d p calls).map PortStep.unloaded).sum =
      ((s.portSteps d p calls).map PortStep.loaded).sum := by
  obtain ⟨hfinal, hsteps⟩ := run_serves hfirst h.invariant hcalls
  have hbalance := Channel.steps_balance μ R (hfirst.ready h.invariant)
    (calls.filterMap (Call.onPort d p))
  have hready := hc.ready (run_invariant h.invariant calls)
  rw [WordPipe.size_eq_length hready.tx.toCanonical, hc.unique hfinal, hsteps, hbalance,
    (h.empty hfirst).1]
  exact Nat.zero_add _

/-- A poll of an open serial port succeeds. It is a transmission, followed by a reception exactly
if nothing is left to send in any part of the pipe; otherwise the receiving side stays as it is.
Whether something is left can be told from the replies since the port was opened. -/
theorem receives_once_sent {t : Driver μ R ports words bytes} (ht : t.Reachable)
    (hc : t.Serves d p c) (maxTx maxRx : Nat) :
    ∃ report sent polled,
      (t.perform (.poll d maxTx maxRx)).value = .ok (.polled report) ∧
      (t.perform (.poll d maxTx maxRx)).state.Serves d p polled ∧
      (t.perform (.transmit d maxTx)).value = .ok (.count report.transmitted) ∧
      (t.perform (.transmit d maxTx)).state.Serves d p sent ∧
      polled.tx = sent.tx ∧
      (report.rxServiced = true ↔ sent.tx.pipe.draining = .empty ∧
        sent.tx.pipe.queue.toList = [] ∧ sent.tx.pipe.filling = .empty) ∧
      (report.rxServiced = false → report.received = 0 ∧ polled.rx = c.rx) ∧
      ∀ (s : Driver μ R ports words bytes) (first : Channel words bytes) (calls : List (Call μ)),
        s.JustOpened d p → s.Serves d p first → .commonInit ∉ calls → (s.run calls).2 = t →
        c.tx.pipe.size + ((s.portSteps d p calls).map PortStep.unloaded).sum =
            ((s.portSteps d p calls).map PortStep.loaded).sum ∧
          (report.rxServiced = true ↔
            ((s.portSteps d p (calls ++ [.poll d maxTx maxRx])).map PortStep.unloaded).sum =
              ((s.portSteps d p (calls ++ [.poll d maxTx maxRx])).map PortStep.loaded).sum) := by
  have hs := reachable_invariant ht
  have hready := hc.ready hs
  obtain ⟨report, hv, hsent, htx, hgate, hclosed⟩ := Channel.poll_gate μ R hready maxTx maxRx
  have hpoll : (Call.poll d maxTx maxRx : Call μ).transfer? = some (d, .poll maxTx maxRx) := rfl
  have htransmit : (Call.transmit d maxTx : Call μ).transfer? = some (d, .transmit maxTx) := rfl
  obtain ⟨hpolled, hpv⟩ := transfer_serves hc hpoll
  obtain ⟨htransmitted, htv⟩ := transfer_serves hc htransmit
  have hcanonical := (Channel.perform_ready μ R hready (.transmit maxTx)).tx.toCanonical
  refine ⟨report, _, _, hpv.trans hv, hpolled, htv.trans hsent, htransmitted, htx,
    hgate.trans (WordPipe.bytes_eq_nil_iff hcanonical), hclosed, ?_⟩
  rintro s first calls hopened hfirst hcalls rfl
  refine ⟨run_balance hopened hfirst hcalls hc, ?_⟩
  -- The poll is one more call of the run.
  have hmore : .commonInit ∉ calls ++ [.poll d maxTx maxRx] := by
    simpa using hcalls
  have hserves : (s.run (calls ++ [.poll d maxTx maxRx])).2.Serves d p
      (c.perform μ R (.poll maxTx maxRx)).state := by
    rw [run_append]
    exact hpolled
  have hbalance := run_balance hopened hfirst hmore hserves
  rw [htx] at hbalance
  rw [hgate, ← WordPipe.size_eq_zero_iff hcanonical]
  omega

theorem receives_once_sent_sample :
    let calls := [Call.write (.ofIndex 0) [1, 2, 3, 4, 5], .fifos 0 (.feed .rx [6])]
    let t := ((sample []).run calls).2
    (t.perform (.poll (.ofIndex 0) 4 4)).value = .ok (.polled ⟨2, 0, false⟩) ∧
      ∃ c polled, t.Serves (.ofIndex 0) 0 c ∧
        (t.perform (.poll (.ofIndex 0) 4 4)).state.Serves (.ofIndex 0) 0 polled ∧
        polled.rx = c.rx ∧ c.tx.pipe.size +
            (((sample []).portSteps (.ofIndex 0) 0 calls).map PortStep.unloaded).sum =
          (((sample []).portSteps (.ofIndex 0) 0 calls).map PortStep.loaded).sum := by
  intro calls t
  have hopened := sample_justOpened []
  have hcalls : .commonInit ∉ calls := by simp [calls]
  obtain ⟨first, hfirst, -⟩ := hopened.serves (by decide)
  have hc := (run_serves hfirst hopened.invariant hcalls).1
  have hvalue : (t.perform (.poll (.ofIndex 0) 4 4)).value = .ok (.polled ⟨2, 0, false⟩) := by
    with_unfolding_all rfl
  obtain ⟨report, sent, polled, hv, hpolled, -, -, -, -, hwait, hrun⟩ :=
    receives_once_sent (hopened.reachable.run calls) hc 4 4
  cases hvalue.symm.trans hv
  exact ⟨hvalue, _, polled, hc, hpolled, (hwait rfl).2,
    (hrun (sample []) first calls hopened hfirst hcalls rfl).1⟩

end Driver

end PolledUart
