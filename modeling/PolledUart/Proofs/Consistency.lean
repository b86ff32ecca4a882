import Mathlib.Data.Fintype.EquivFin
import PolledUart.Proofs.Polling

/-!
# Errors that cannot happen

The tables of a reachable driver agree, which leaves some of its checks without a case to refuse.
A closed port finds a free slot, an open one has registers, and the queues behind a serial
descriptor run, so that a transfer on it can fail for want of room or of data and for no other
reason.
-/

set_option autoImplicit false

namespace PolledUart

theorem map_eq_error_iff {ε α β : Type} {f : α → β} {x : Except ε α} {e : ε} :
    x.map f = .error e ↔ x = .error e := by
  cases x <;> simp [Except.map]

def Failure.error? : Failure → Option Error
  | .setup cause => some (.setup cause)
  | .queue _ => none
  | .general e => some e
  | .transfer stop => some stop.error
  | .pin e => some e

def pinErrors (replies : List (Except Error PinReply)) : List Error :=
  replies.filterMap fun
    | .error e => some e
    | .ok _ => none

def Reply.errors {μ R : Type} {words : Nat} : Reply μ R words → List Error
  | .error f => f.error?.toList
  | .ok (.pins replies) => pinErrors replies
  | .ok _ => []

theorem Reply.mem_errors {μ R : Type} {words : Nat} {r : Reply μ R words} {e : Error}
    (h : e ∈ r.errors) : (∃ f, r = .error f ∧ f.error? = some e) ∨
      ∃ replies, r = .ok (.pins replies) ∧ e ∈ pinErrors replies := by
  rcases r with f | answer
  · exact .inl ⟨f, rfl, Option.mem_toList.1 h⟩
  · cases answer with
    | pins replies => exact .inr ⟨replies, rfl, h⟩
    | _ => cases h

/-- What a transfer can be short of. -/
def Act.shortage? : Act → Option CapacityError
  | .write _ | .writeWord _ => some .txFull
  | .nextTxWord => some .txEmpty
  | .read _ | .readWord => some .rxEmpty
  | .transmit _ | .receive _ | .poll _ _ | .fifos _ => none

theorem Act.error?_of_refusal {μ R : Type} {words : Nat} {act : Act} {cause : SetupError}
    {f : Failure} (h : (act.refusal cause : Reply μ R words) = .error f) :
    f.error? = some (.setup cause) := by
  cases act <;> cases h <;> rfl

def Call.isControl {μ : Type} : Call μ → Bool
  | .setControl _ _ _ | .control _ _ | .discretePin _ _ => true
  | _ => false

def Error.IsRefusal (e : Error) : Prop := e = .setup .notInitialized ∨ e = .setup .notConfigured

theorem Error.IsRefusal.ne_setup {e : Error} (h : e.IsRefusal) {cause : SetupError}
    (hi : cause ≠ .notInitialized) (hc : cause ≠ .notConfigured) : e ≠ .setup cause := by
  rcases h with rfl | rfl
  · exact fun h => hi (by cases h; rfl)
  · exact fun h => hc (by cases h; rfl)

theorem Channel.perform_fails {words bytes : Nat} (μ R : Type) {c : Channel words bytes}
    (h : c.Ready) {act : Act} (hact : ∀ command, act ≠ .fifos command) {f : Failure}
    (hf : (c.perform μ R act).value = .error f) :
    ∃ cause, act.shortage? = some cause ∧ f.error? = some (.capacity cause) := by
  cases act with
  | write data =>
    obtain ⟨pipe, -, hv, -⟩ := perform_write μ R h data
    rw [hv] at hf
    split at hf
    · cases hf
    · cases hf
      exact ⟨_, rfl, rfl⟩
  | writeWord word =>
    rcases perform_writeWord μ R h word with ⟨-, -, hv⟩ | ⟨pipe, -, hv, -⟩
    · cases hv.symm.trans hf
      exact ⟨_, rfl, rfl⟩
    · cases hv.symm.trans hf
  | transmit max =>
    obtain ⟨tx, -, hv, -⟩ := perform_transmit μ R h max
    cases hv.symm.trans hf
  | nextTxWord =>
    rcases perform_nextTxWord μ R h with ⟨-, hv⟩ | ⟨word, pipe, -, hv, -⟩
    · cases hv.symm.trans hf
      exact ⟨_, rfl, rfl⟩
    · cases hv.symm.trans hf
  | receive max =>
    obtain ⟨rx, -, hv, -⟩ := perform_receive μ R h max
    cases hv.symm.trans hf
  | read buffer =>
    obtain ⟨pipe, -, hv, -⟩ := perform_read μ R h buffer
    rw [hv] at hf
    split at hf
    · cases hf
      exact ⟨_, rfl, rfl⟩
    · cases hf
  | readWord =>
    rcases perform_readWord μ R h with ⟨-, -, hv⟩ | ⟨word, pipe, -, hv, -⟩
    · cases hv.symm.trans hf
      exact ⟨_, rfl, rfl⟩
    · cases hv.symm.trans hf
  | poll maxTx maxRx =>
    obtain ⟨report, hv, -⟩ := poll_gate μ R h maxTx maxRx
    cases hv.symm.trans hf
  | fifos command => exact absurd rfl (hact command)

namespace Driver

variable {μ R : Type} {ports words bytes : Nat} {s : Driver μ R ports words bytes} {d : Descriptor}

/-- A live entry stands for the port, in the given mode. -/
def Holds (s : Driver μ R ports words bytes) (p : Fin ports) (mode : PortMode) : Prop :=
  ∃ (i : Fin ports) (e : Entry ports), s.entries.get i = some e ∧ e.port = p ∧ e.mode = mode

/-- What the tables of a driver say of each other. -/
structure Consistent (s : Driver μ R ports words bytes) : Prop where
  /-- Before common init no slot is live. -/
  closed : s.initialized = false → ∀ i : Fin ports, s.entries.get i = none
  /-- No free slot lies before a live one. -/
  packed : ∀ i j : Fin ports, i < j → (s.entries.get j).isSome = true →
    (s.entries.get i).isSome = true
  /-- Live slots stand for ports that exist and differ. -/
  distinct : ∀ (i j : Fin ports) (e f : Entry ports), s.entries.get i = some e →
    s.entries.get j = some f → e.port.val < ports ∧ (e.port = f.port → i = j)
  numbered : s.initialized = true → ∀ p : Fin ports, (s.devices.get p).port = p
  configured : ∀ p : Fin ports,
    (s.devices.get p).configured = true ↔ ∃ mode, s.Holds p mode
  bound : ∀ (p : Fin ports) (mode : PortMode), s.Holds p mode →
    (s.devices.get p).mode = mode ∧ (s.devices.get p).binding.isMapped = true
  running : ∀ p : Fin ports, ∀ q ∈ [(s.devices.get p).txQueue, (s.devices.get p).rxQueue],
    (q.initialized = true ↔ s.Holds p .serial) ∧ (q.initialized = false → q.ring.toList = [])
  /-- Words on their way out are not complete. -/
  loose : ∀ (i : Fin ports) (e : Entry ports), s.entries.get i = some e →
    e.txDraining.isFull = false ∧ e.rxDraining.isFull = false
  /-- An incomplete word has one to three bytes and nothing above them. -/
  staged : ∀ (i : Fin ports) (e : Entry ports), s.entries.get i = some e →
    ∀ w ∈ [e.txFilling, e.txDraining, e.rxFilling, e.rxDraining], ∀ word len,
      w = .part word len → 1 ≤ len ∧ len ≤ 3 ∧ word.toNat < 2 ^ (8 * len)

theorem Invariant.device_cases (h : s.Invariant) (p : Fin ports) :
    (∃ mode, s.Holds p mode ∧ (s.devices.get p).OpenAs mode) ∨
      ((∀ mode, ¬ s.Holds p mode) ∧ (s.devices.get p).Closed) := by
  by_cases hp : ∃ mode, s.Holds p mode
  · obtain ⟨mode, i, e, he, rfl, rfl⟩ := hp
    exact .inl ⟨e.mode, ⟨i, e, he, rfl, rfl⟩, (h.opened i e he).1⟩
  · have hnone : ∀ mode, ¬ s.Holds p mode := fun mode hm => hp ⟨mode, hm⟩
    exact .inr ⟨hnone, h.shut p fun i e he hep => hnone e.mode ⟨i, e, he, hep, rfl⟩⟩

theorem Invariant.holds_unique (h : s.Invariant) {p : Fin ports} {m n : PortMode}
    (hm : s.Holds p m) (hn : s.Holds p n) : m = n := by
  obtain ⟨i, e, he, hep, rfl⟩ := hm
  obtain ⟨j, f, hf, hfp, rfl⟩ := hn
  have hij := h.distinct i j e f he hf (hep.trans hfp.symm)
  subst hij
  cases he.symm.trans hf
  rfl

theorem Invariant.queue_running (h : s.Invariant) (p : Fin ports) {q : WordQueue words}
    (hq : q = (s.devices.get p).txQueue ∨ q = (s.devices.get p).rxQueue) :
    (q.initialized = true ↔ s.Holds p .serial) ∧ (q.initialized = false → q.ring.toList = []) := by
  have hidle (hi : q.Idle) (hp : ¬ s.Holds p .serial) : (q.initialized = true ↔
      s.Holds p .serial) ∧ (q.initialized = false → q.ring.toList = []) := by
    refine ⟨⟨fun ht => ?_, fun hs => absurd hs hp⟩, fun _ => hi.2⟩
    cases hi.1.symm.trans ht
  rcases h.device_cases p with ⟨mode, hp, ho⟩ | ⟨hp, hc⟩
  · cases mode with
    | serial =>
      obtain ⟨htx, hrx⟩ := ho.running rfl
      have hrun : q.initialized = true := by rcases hq with rfl | rfl <;> assumption
      exact ⟨⟨fun _ => hp, fun _ => hrun⟩, fun hf => by cases hf.symm.trans hrun⟩
    | discrete =>
      obtain ⟨htx, hrx⟩ := ho.idle rfl
      refine hidle (by rcases hq with rfl | rfl <;> assumption) ?_
      intro hs
      cases h.holds_unique hp hs
  · refine hidle ?_ (hp .serial)
    rcases hq with rfl | rfl
    · exact hc.tx
    · exact hc.rx

theorem Invariant.consistent (h : s.Invariant) : s.Consistent where
  closed := h.closed
  packed := h.packed
  distinct i j e f he hf := ⟨e.port.isLt, h.distinct i j e f he hf⟩
  numbered := h.numbered
  configured p := by
    rcases h.device_cases p with ⟨mode, hp, ho⟩ | ⟨hp, hc⟩
    · exact ⟨fun _ => ⟨mode, hp⟩, fun _ => ho.configured⟩
    · constructor
      · intro ht
        cases hc.unconfigured.symm.trans ht
      · rintro ⟨mode, hm⟩
        exact absurd hm (hp mode)
  bound := by
    rintro p mode ⟨i, e, he, rfl, rfl⟩
    have ho := (h.opened i e he).1
    exact ⟨ho.mode_eq, ho.mapped⟩
  running p q hq := by
    apply h.queue_running p
    simpa using hq
  loose i e he := by
    have hs := (h.opened i e he).2
    exact ⟨hs.txLoose, hs.rxLoose⟩
  staged i e he w hw word len hwl := by
    have hs := (h.opened i e he).2
    have hc : w.Canonical := by
      simp only [List.mem_cons, List.not_mem_nil, or_false] at hw
      rcases hw with rfl | rfl | rfl | rfl
      · exact hs.txFilling
      · exact hs.txDraining
      · exact hs.rxFilling
      · exact hs.rxDraining
    rw [hwl] at hc
    simpa [ShiftWord.Canonical, Nat.one_shiftLeft] using hc

/-- Ports and slots are equally many, so a port without a slot leaves a slot without a port. -/
theorem Invariant.exists_freeSlot (h : s.Invariant) {p : Fin ports}
    (hp : s.descriptorFor? p = none) : ∃ slot, s.freeSlot? = some slot := by
  rcases hf : s.freeSlot? with _ | slot
  · have hlive (i : Fin ports) : ∃ e, s.entries.get i = some e := by
      have hi := List.find?_eq_none.1 hf i (List.mem_finRange i)
      exact Option.ne_none_iff_exists'.1 (by simpa using hi)
    choose entry hentry using hlive
    have hinj : Function.Injective fun i => (entry i).port := fun i j hij =>
      h.distinct i j _ _ (hentry i) (hentry j) hij
    obtain ⟨i, hi⟩ := Finite.injective_iff_surjective.1 hinj p
    exact absurd (congrArg Fin.val hi) (descriptorFor?_eq_none.1 hp i _ (hentry i))
  · exact ⟨slot, rfl⟩

theorem entry_error {cause : SetupError} (h : s.entry d = .error cause) :
    cause = .notInitialized := by
  unfold entry at h
  repeat' split at h
  all_goals cases h
  all_goals rfl

theorem device_eq_map (s : Driver μ R ports words bytes) (d : Descriptor) :
    s.device d = (s.entry d).map fun (_, e) => s.devices.get e.port := by
  unfold Driver.device
  cases s.entry d <;> rfl

theorem mode_eq_map (s : Driver μ R ports words bytes) (d : Descriptor) :
    s.mode d = (s.entry d).map fun (_, e) => e.mode := by
  unfold Driver.mode
  cases s.entry d <;> rfl

theorem resolve_refusal {mode : PortMode} {cause : SetupError}
    (h : s.resolve d mode = .error cause) : (Error.setup cause).IsRefusal := by
  unfold resolve at h
  split at h
  · rename_i he
    cases h
    exact .inl (by rw [entry_error he])
  · split at h
    · cases h
    · cases h
      exact .inr rfl

theorem resolve_of_mode {mode : PortMode} (h : s.mode d = .ok mode) :
    ∃ slot e, s.resolve d mode = .ok (slot, e) := by
  unfold Driver.mode at h
  split at h
  · cases h
  · rename_i slot e he
    cases h
    exact ⟨slot, e, resolve_eq_ok.2 ⟨he, rfl⟩⟩

theorem Invariant.registers (h : s.Invariant) {mode : PortMode} {slot : Fin ports}
    {e : Entry ports} (hr : s.resolve d mode = .ok (slot, e)) :
    (s.devices.get e.port).binding.registers ≠ none := by
  have hmapped := (h.opened slot e (resolve_entries hr).1).1.mapped
  intro hnone
  simp [Binding.isMapped, hnone] at hmapped

theorem Invariant.tryOpen_fails [Mapper μ R] (h : s.Invariant) (port : Nat) (mode : PortMode) :
    (s.tryOpen port mode).value ≠ .error .noFreeDescriptor := by
  rcases s.tryOpen_cases port mode with ⟨cause, ho, hc⟩ | ⟨d, log, -, ho⟩ | ⟨p, -, -, hp, ho⟩
  · rw [ho]
    exact fun he => hc (Except.error.inj he)
  · rw [ho]
    exact nofun
  · obtain ⟨slot, hslot⟩ := h.exists_freeSlot hp
    rw [ho]
    intro he
    rcases s.openClosed_cases p mode with ⟨cause, hv, -, hnone⟩ | ⟨_, -, -, hv, -⟩
    · cases he.symm.trans hv
      cases (hnone rfl).symm.trans hslot
    · cases he.symm.trans hv

variable [RegisterAccess R]

theorem Invariant.setControl_fails (h : s.Invariant) {line : ControlLine} {on : Bool} {e : Error}
    (he : (s.setControl line on d).value = .error e) : e.IsRefusal := by
  unfold setControl at he
  split at he
  · rename_i hr
    cases he
    exact resolve_refusal hr
  · rename_i hr
    simp only at he
    split at he
    · exact absurd ‹_› (h.registers hr)
    · cases he

theorem Invariant.control_fails (h : s.Invariant) {line : ControlLine} {e : Error}
    (he : s.control line d = .error e) : e.IsRefusal := by
  unfold control at he
  split at he
  · rename_i hr
    cases he
    exact resolve_refusal hr
  · rename_i hr
    split at he
    · exact absurd ‹_› (h.registers hr)
    · cases he

theorem Invariant.actPin_fails (h : s.Invariant) {act : PinAct} {e : Error}
    (he : (s.actPin d act).value = .error e) : e.IsRefusal := by
  have hset (on : Bool) (he : (s.setPin d on).value = .error e) : e.IsRefusal :=
    h.setControl_fails (map_eq_error_iff.1 he)
  cases act with
  | descriptor => cases he
  | setHigh => exact hset true he
  | setLow => exact hset false he
  | set high => exact hset high he
  | toggle =>
    simp only [actPin] at he
    split at he
    · rename_i hc
      cases he
      exact h.control_fails hc
    · exact hset _ he
  | isHigh => exact h.control_fails (map_eq_error_iff.1 he)
  | isLow => exact h.control_fails (map_eq_error_iff.1 he)

theorem Invariant.actPins_fail (h : s.Invariant) (acts : List PinAct) :
    ∀ e ∈ pinErrors (s.actPins d acts).value, e.IsRefusal := by
  induction acts generalizing s with
  | nil =>
    intro e he
    cases he
  | cons act rest ih =>
    have hnext := ih (actPin_induct (P := Invariant) (d := d)
      (fun _ on h => setControl_invariant h .discrete on d) h act)
    intro e he
    simp only [actPins, pinErrors, List.filterMap_cons] at he
    rcases hv : (s.actPin d act).value with cause | reply
    · rw [hv] at he
      rcases List.mem_cons.1 he with rfl | he
      · exact h.actPin_fails hv
      · exact hnext e he
    · rw [hv] at he
      exact hnext e he

variable [Mapper μ R]

theorem Invariant.isControl_fails (h : s.Invariant) {call : Call μ}
    (hc : call.isControl = true) {e : Error} (he : e ∈ Reply.errors (s.perform call).value) :
    e.IsRefusal := by
  cases call with
  | setControl line on d =>
    simp only [perform, Outcome.reply] at he
    split at he
    · rename_i hv
      cases List.mem_singleton.1 he
      exact h.setControl_fails hv
    · cases he
  | control line d =>
    simp only [perform, Outcome.query] at he
    rcases hv : s.control line d with cause | on
    · rw [hv] at he
      cases List.mem_singleton.1 he
      exact h.control_fails hv
    · rw [hv] at he
      cases he
  | discretePin d acts =>
    simp only [perform, discretePin, Outcome.reply] at he
    rcases hr : s.resolve d .discrete with cause | ⟨slot, entry⟩
    · rw [hr] at he
      cases List.mem_singleton.1 he
      exact resolve_refusal hr
    · rw [hr] at he
      exact h.actPins_fail acts e he
  | _ => cases hc

theorem Invariant.transfer_fails (h : s.Invariant) {call : Call μ} {act : Act}
    (hc : call.transfer? = some (d, act)) (hm : s.mode d = .ok .serial) {f : Failure}
    (hf : (s.perform call).value = .error f) :
    ∃ cause, act.shortage? = some cause ∧ f.error? = some (.capacity cause) := by
  obtain ⟨slot, e, hr⟩ := resolve_of_mode hm
  obtain ⟨he, hmode⟩ := resolve_entries hr
  rw [perform_transfer hc hr] at hf
  refine Channel.perform_fails μ R (channel_ready h he hmode) ?_ hf
  rintro command rfl
  cases call <;> cases hc

theorem perform_pins {call : Call μ} {replies : List (Except Error PinReply)}
    (h : (s.perform call).value = .ok (.pins replies)) : call.isControl = true := by
  cases call with
  | setControl | control | discretePin => rfl
  | tryOpen | write | writeWord | transmit | nextTxWord | receive | read | readWord | poll =>
    simp only [perform, Outcome.reply] at h
    split at h <;> cases h
  | fifos =>
    simp only [perform, Outcome.reply] at h
    split at h
    · cases h
    · split at h <;> cases h
  | device d =>
    simp only [perform, Outcome.query] at h
    rcases hv : s.device d with cause | device <;> rw [hv] at h <;> cases h
  | mode d =>
    simp only [perform, Outcome.query] at h
    rcases hv : s.mode d with cause | mode <;> rw [hv] at h <;> cases h
  | _ => cases h

theorem Invariant.transfer_errors (h : s.Invariant) {call : Call μ} {act : Act}
    (hc : call.transfer? = some (d, act)) {f : Failure} (hf : (s.perform call).value = .error f) :
    f.error? ≠ some (.setup .noFreeDescriptor) := by
  rcases hr : s.resolve d .serial with cause | ⟨slot, entry⟩
  · rw [perform_refused hc hr] at hf
    rw [Act.error?_of_refusal hf]
    intro heq
    exact (resolve_refusal hr).ne_setup (by decide) (by decide) (Option.some.inj heq)
  · obtain ⟨hentry, hmode⟩ := resolve_eq_ok.1 hr
    have hm : s.mode d = .ok .serial := by rw [Driver.mode, hentry, ← hmode]
    obtain ⟨cause, -, hcause⟩ := h.transfer_fails hc hm hf
    rw [hcause]
    intro heq
    cases heq

theorem Invariant.perform_errors (h : s.Invariant) (call : Call μ) :
    .setup .noFreeDescriptor ∉ Reply.errors (s.perform call).value := by
  intro he
  by_cases hcontrol : call.isControl = true
  · exact (h.isControl_fails hcontrol he).ne_setup (by decide) (by decide) rfl
  rcases Reply.mem_errors he with ⟨f, hf, herror⟩ | ⟨replies, hpins, -⟩
  · rcases hc : call.transfer? with _ | ⟨d, act⟩
    · cases call with
      | tryOpen port mode =>
        simp only [perform, Outcome.reply] at hf
        split at hf
        · rename_i cause hv
          cases hf
          cases herror
          exact h.tryOpen_fails port mode hv
        · cases hf
      | device d =>
        simp only [perform, Outcome.query, device_eq_map] at hf
        rcases hv : s.entry d with cause | entry
        · rw [hv] at hf
          cases hf
          cases herror
          cases entry_error hv
        · rw [hv] at hf
          cases hf
      | mode d =>
        simp only [perform, Outcome.query, mode_eq_map] at hf
        rcases hv : s.entry d with cause | entry
        · rw [hv] at hf
          cases hf
          cases herror
          cases entry_error hv
        · rw [hv] at hf
          cases hf
      | fifos port command =>
        simp only [perform, Outcome.reply] at hf
        split at hf
        · cases hf
          cases herror
        · cases hf
      | setControl | control | discretePin => exact hcontrol rfl
      | write | writeWord | transmit | nextTxWord | receive | read | readWord | poll => cases hc
      | _ => cases hf
    · exact h.transfer_errors hc hf herror
  · exact hcontrol (perform_pins hpins)

/-- In every state that calls and hardware steps can lead to, whatever the mappers do, the tables
of the driver agree. So no reply reports a lack of descriptors, none of a control line reports
missing registers, and a transfer on a live serial descriptor fails only for what it can be short
of, which for sending into the FIFO, receiving from it and polling is nothing. -/
theorem reachable_consistent (h : s.Reachable) :
    s.Consistent ∧
      (∀ call : Call μ, .setup .noFreeDescriptor ∉ Reply.errors (s.perform call).value) ∧
      (∀ call : Call μ, call.isControl = true →
        .setup .mappingFailed ∉ Reply.errors (s.perform call).value) ∧
      ∀ (d : Descriptor) (call : Call μ) (act : Act) (f : Failure), s.mode d = .ok .serial →
        call.transfer? = some (d, act) → (s.perform call).value = .error f →
        ∃ cause, act.shortage? = some cause ∧ f.error? = some (.capacity cause) := by
  have hs := reachable_invariant h
  refine ⟨hs.consistent, hs.perform_errors, ?_, ?_⟩
  · intro call hc he
    exact (hs.isControl_fails hc he).ne_setup (by decide) (by decide) rfl
  · intro d call act f hm hc hf
    exact hs.transfer_fails hc hm hf

theorem reachable_consistent_sample :
    let s := ((sample [7]).run [.write (.ofIndex 0) [1, 2, 3, 4, 5, 6, 7, 8]]).2
    s.Consistent ∧ s.mode (.ofIndex 0) = .ok .serial ∧
      .setup .mappingFailed ∉ Reply.errors
        (s.perform (.discretePin (.ofIndex 0) [.toggle, .isHigh])).value ∧
      (s.perform (.writeWord (.ofIndex 0) 9)).value = .error (.general (.capacity .txFull)) ∧
      ∃ cause, (Act.writeWord 9).shortage? = some cause ∧
        (Failure.general (.capacity .txFull)).error? = some (.capacity cause) := by
  intro s
  have hreach : s.Reachable := (sample_justOpened [7]).reachable.run _
  obtain ⟨hs, -, hcontrol, htransfer⟩ := reachable_consistent hreach
  have hmode : s.mode (.ofIndex 0) = .ok .serial := by with_unfolding_all rfl
  have hfull : (s.perform (.writeWord (.ofIndex 0) 9)).value =
      .error (.general (.capacity .txFull)) := by with_unfolding_all rfl
  exact ⟨hs, hmode, hcontrol _ rfl, hfull, htransfer _ _ _ _ hmode rfl hfull⟩

end Driver

end PolledUart
