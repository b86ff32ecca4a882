import PolledUart.Proofs.Chunking
import PolledUart.Proofs.Independence

/-!
# Calls that fail

A call on a descriptor is refused before it starts, exactly if the descriptor is not live or live
in the other mode. Past that it can fail for want of room or of data, and then it has changed
nothing, except that a write that stops early has done what a write of the accepted bytes does.
-/

set_option autoImplicit false

namespace PolledUart

def Failure.transferred : Failure → Nat
  | .transfer stop => stop.transferred
  | _ => 0

/-- The descriptor that a call needs to be live, and the mode it has to be open in, if one is
required. -/
def Call.target? {μ : Type} : Call μ → Option (Descriptor × Option PortMode)
  | .device d | .mode d => some (d, none)
  | .setControl line _ d | .control line d => some (d, some line.mode)
  | .discretePin d _ => some (d, some .discrete)
  | call => call.transfer?.map fun (d, _) => (d, some .serial)

theorem Call.target?_of_transfer {μ : Type} {call : Call μ} {d : Descriptor} {act : Act}
    (h : call.transfer? = some (d, act)) : call.target? = some (d, some .serial) := by
  cases call <;> cases h <;> rfl

theorem WordPipe.pushAll_take {n : Nat} {p q : WordPipe n} {data : List UInt8} {taken : Nat}
    {e : QueueError} (h : p.pushAll data = (taken, some e, q)) :
    p.pushAll (data.take taken) = (taken, none, q) := by
  induction data generalizing p taken with
  | nil => cases h
  | cons byte rest ih =>
    rcases hp : p.push byte with cause | v
    · simp only [pushAll, hp] at h
      cases h
      rfl
    · rcases hv : v.pushAll rest with ⟨more, stop, u⟩
      simp only [pushAll, hp, hv] at h
      cases h
      simp only [List.take_succ_cons, pushAll, hp, ih hv]

theorem WordPipe.take_of_bytes_nil {n : Nat} {p : WordPipe n} (h : p.Ready) (hb : p.bytes = [])
    (max : Nat) : p.take max = ([], none, p) := by
  cases max with
  | zero => rfl
  | succ max =>
    rcases pop_ready h with ⟨-, hp⟩ | ⟨byte, q, -, -, hcons⟩
    · simp only [take, hp]
    · cases hb.symm.trans hcons

/-- A write that stops early has done what a write of the accepted bytes does. -/
theorem Transmitter.write_stopped {words bytes : Nat} {t : Transmitter words bytes}
    (h : t.pipe.Ready) {data : List UInt8} {stop : TransferError}
    (hstop : (t.write data).1 = .error stop) : stop.error = .capacity .txFull ∧
      t.write (data.take stop.transferred) = (.ok stop.transferred, (t.write data).2) := by
  obtain ⟨q, hq, -⟩ := WordPipe.pushAll_ready h data
  by_cases hfit : data.length ≤ t.pipe.room
  · obtain ⟨pipe, hw, -⟩ := write_ready h data
    rw [hw, if_pos hfit] at hstop
    cases hstop
  · rw [if_neg hfit] at hq
    have hflush : q.flush = .error .full := by
      have hlast := WordPipe.pushAll_stop (p := t.pipe) data (e := .full)
      rw [hq] at hlast
      exact hlast rfl
    simp only [write, hq] at hstop
    cases hstop
    exact ⟨rfl, by simp only [write, WordPipe.pushAll_take hq, hflush, hq]⟩

namespace Channel

variable {words bytes : Nat} (μ R : Type) {c : Channel words bytes}

theorem perform_write_stopped (h : c.Ready) {data : List UInt8} {f : Failure}
    (hf : (c.perform μ R (.write data)).value = .error f) :
    ∃ taken, f = .transfer ⟨.capacity .txFull, taken⟩ ∧
      (c.perform μ R (.write (data.take taken))).state = (c.perform μ R (.write data)).state ∧
      (c.perform μ R (.write (data.take taken))).value = .ok (.count taken) := by
  rcases hw : (c.tx.write data).1 with ⟨error, taken⟩ | taken
  · obtain ⟨herror, hstopped⟩ := Transmitter.write_stopped h.tx hw
    dsimp only at herror hstopped
    subst herror
    have hvalue : (c.perform μ R (.write data)).value =
        .error (.transfer ⟨.capacity .txFull, taken⟩) := by
      simp only [perform, Outcome.reply, Outcome.ofStep, onTx, hw]
    cases hvalue.symm.trans hf
    refine ⟨taken, rfl, ?_, ?_⟩ <;>
      simp only [perform, Outcome.reply, Outcome.ofStep, onTx, hstopped]
  · simp only [perform, Outcome.reply, Outcome.ofStep, onTx, hw] at hf
    cases hf

theorem perform_fails_unchanged (h : c.Ready) {act : Act} (hw : ∀ data, act ≠ .write data)
    (hact : ∀ command, act ≠ .fifos command) {f : Failure}
    (hf : (c.perform μ R act).value = .error f) : (c.perform μ R act).state = c := by
  cases act with
  | write data => exact absurd rfl (hw data)
  | fifos command => exact absurd rfl (hact command)
  | writeWord word =>
    rcases perform_writeWord μ R h word with ⟨-, hs, -⟩ | ⟨pipe, -, hv, -⟩
    · exact hs
    · cases hv.symm.trans hf
  | transmit max =>
    obtain ⟨tx, -, hv, -⟩ := perform_transmit μ R h max
    cases hv.symm.trans hf
  | nextTxWord =>
    rcases perform_nextTxWord μ R h with ⟨hs, -⟩ | ⟨word, pipe, -, hv, -⟩
    · exact hs
    · cases hv.symm.trans hf
  | receive max =>
    obtain ⟨rx, -, hv, -⟩ := perform_receive μ R h max
    cases hv.symm.trans hf
  | read buffer =>
    -- Only an empty pipe fails, and nothing can be taken out of it.
    obtain ⟨-, -, hv, -⟩ := perform_read μ R h buffer
    rw [hv] at hf
    split at hf
    · rename_i hnone
      have htake := WordPipe.take_of_bytes_nil h.rx hnone.1 buffer.length
      have hread : (c.rx.read buffer).2 = c.rx := by
        rw [(c.rx.read_eq buffer).2.2, htake]
      simp only [perform, Outcome.reply, Outcome.ofStep, onRx, hread]
    · cases hf
  | readWord =>
    rcases perform_readWord μ R h with ⟨-, hs, -⟩ | ⟨word, pipe, -, hv, -⟩
    · exact hs
    · cases hv.symm.trans hf
  | poll maxTx maxRx =>
    obtain ⟨report, hv, -⟩ := poll_gate μ R h maxTx maxRx
    cases hv.symm.trans hf

end Channel

namespace Driver

variable {μ R : Type} {ports words bytes : Nat} {s : Driver μ R ports words bytes} {d : Descriptor}
  {required : Option PortMode}

def Names (s : Driver μ R ports words bytes) (d : Descriptor) (e : Entry ports) : Prop :=
  ∃ slot : Fin ports, d.index? = some slot.val ∧ s.entries.get slot = some e

/-- The slot and entry of a descriptor that is live, in the mode that is required, if one is. -/
def admission (s : Driver μ R ports words bytes) (d : Descriptor) :
    Option PortMode → Except SetupError (Fin ports × Entry ports)
  | none => s.entry d
  | some mode => s.resolve d mode

theorem entry_eq_error_iff {cause : SetupError} : s.entry d = .error cause ↔
    cause = .notInitialized ∧ (s.initialized = false ∨ ∀ e, ¬ s.Names d e) := by
  constructor
  · intro h
    refine ⟨entry_error h, ?_⟩
    by_contra hlive
    simp only [not_or, Bool.not_eq_false, not_forall, not_not] at hlive
    obtain ⟨hinit, e, slot, hd, he⟩ := hlive
    cases h.symm.trans (entry_eq_ok.2 ⟨hinit, hd, he⟩)
  · rintro ⟨rfl, hdead⟩
    rcases h : s.entry d with cause | ⟨slot, e⟩
    · rw [entry_error h]
    · obtain ⟨hinit, hd, he⟩ := entry_eq_ok.1 h
      rcases hdead with hno | hnone
      · cases hinit.symm.trans hno
      · exact absurd ⟨slot, hd, he⟩ (hnone e)

theorem Names.unique {e f : Entry ports} (he : s.Names d e) (hf : s.Names d f) : e = f := by
  obtain ⟨i, hi, hie⟩ := he
  obtain ⟨j, hj, hjf⟩ := hf
  cases Fin.ext (Option.some.inj (hi.symm.trans hj))
  exact Option.some.inj (hie.symm.trans hjf)

theorem admission_eq_error_iff {cause : SetupError} : s.admission d required = .error cause ↔
    (cause = .notInitialized ∧ (s.initialized = false ∨ ∀ e, ¬ s.Names d e)) ∨
      (cause = .notConfigured ∧ s.initialized = true ∧
        ∃ e mode, s.Names d e ∧ required = some mode ∧ e.mode ≠ mode) := by
  cases required with
  | none => simp [admission, entry_eq_error_iff]
  | some mode =>
    rcases h : s.entry d with absent | ⟨slot, f⟩
    · obtain ⟨rfl, hdead⟩ := entry_eq_error_iff.1 h
      simp only [admission, resolve, h, Except.error.injEq]
      constructor
      · rintro rfl
        exact .inl ⟨rfl, hdead⟩
      · rintro (⟨rfl, -⟩ | ⟨-, hinit, e, -, hnames, -⟩)
        · rfl
        · rcases hdead with hno | hnone
          · cases hinit.symm.trans hno
          · exact absurd hnames (hnone e)
    · obtain ⟨hinit, hd, hslot⟩ := entry_eq_ok.1 h
      have hf : s.Names d f := ⟨slot, hd, hslot⟩
      have hlive : ¬ (s.initialized = false ∨ ∀ e, ¬ s.Names d e) := by
        rintro (hno | hnone)
        · cases hinit.symm.trans hno
        · exact hnone f hf
      by_cases hm : f.mode = mode
      · simp only [admission, resolve, h, if_pos hm, hlive, and_false, false_or, reduceCtorEq,
          false_iff]
        rintro ⟨-, -, e, _, hnames, ⟨⟩, hne⟩
        exact hne (hnames.unique hf ▸ hm)
      · simp only [admission, resolve, h, if_neg hm, hlive, and_false, false_or, Except.error.injEq]
        constructor
        · rintro rfl
          exact ⟨rfl, hinit, f, mode, hf, rfl, hm⟩
        · rintro ⟨rfl, -⟩
          rfl

variable [RegisterAccess R] [Mapper μ R] {call : Call μ}

theorem perform_not_admitted (hc : call.target? = some (d, required)) {cause : SetupError}
    (ha : s.admission d required = .error cause) :
    ∃ f, s.perform call = ⟨.error f, s, []⟩ ∧ f.error? = some (.setup cause) ∧
      f.transferred = 0 := by
  rcases htransfer : call.transfer? with _ | ⟨target, act⟩
  · cases call with
    | device | mode =>
      cases hc
      simp only [perform, Outcome.query, device_eq_map, mode_eq_map, show s.entry d = _ from ha]
      exact ⟨_, rfl, rfl, rfl⟩
    | setControl | control | discretePin =>
      cases hc
      simp only [perform, Outcome.query, Outcome.reply, setControl, control, discretePin,
        show s.resolve d _ = _ from ha]
      exact ⟨_, rfl, rfl, rfl⟩
    | write | writeWord | transmit | nextTxWord | receive | read | readWord | poll =>
      cases htransfer
    | _ => cases hc
  · cases hc.symm.trans (Call.target?_of_transfer htransfer)
    rw [perform_refused htransfer ha]
    cases act <;> exact ⟨_, rfl, rfl, rfl⟩

theorem Invariant.admitted_fails (h : s.Invariant) (hc : call.target? = some (d, required))
    {slot : Fin ports} {e : Entry ports} (ha : s.admission d required = .ok (slot, e)) {f : Failure}
    (hf : (s.perform call).value = .error f) :
    (∃ cause, f.error? = some (.capacity cause)) ∧ ∃ act, call.transfer? = some (d, act) ∧
      s.resolve d .serial = .ok (slot, e) := by
  rcases htransfer : call.transfer? with _ | ⟨target, act⟩
  · cases call with
    | device | mode =>
      cases hc
      simp only [perform, Outcome.query, device_eq_map, mode_eq_map, show s.entry d = _ from ha]
        at hf
      cases hf
    | setControl line on =>
      cases hc
      obtain ⟨block, hb⟩ := Option.ne_none_iff_exists'.1 (h.registers ha)
      simp only [perform, Outcome.reply, setControl_ok ha hb] at hf
      cases hf
    | control line =>
      cases hc
      obtain ⟨block, hb⟩ := Option.ne_none_iff_exists'.1 (h.registers ha)
      simp only [perform, Outcome.query, control, show s.resolve d _ = _ from ha, hb] at hf
      cases hf
    | discretePin =>
      cases hc
      simp only [perform, Outcome.reply, discretePin, show s.resolve d _ = _ from ha] at hf
      cases hf
    | write | writeWord | transmit | nextTxWord | receive | read | readWord | poll =>
      cases htransfer
    | _ => cases hc
  · cases hc.symm.trans (Call.target?_of_transfer htransfer)
    have hr : s.resolve d .serial = .ok (slot, e) := ha
    obtain ⟨hentry, hmode⟩ := resolve_eq_ok.1 hr
    have hm : s.mode d = .ok .serial := by rw [Driver.mode, hentry, ← hmode]
    obtain ⟨cause, -, hcause⟩ := h.transfer_fails htransfer hm hf
    exact ⟨⟨cause, hcause⟩, act, rfl, hr⟩

def FailsFor (s : Driver μ R ports words bytes) (call : Call μ) (cause : SetupError) : Prop :=
  ∃ f, (s.perform call).value = .error f ∧ f.error? = some (.setup cause)

/-- What a failed call on a descriptor leaves behind. -/
structure FailsIntact (s : Driver μ R ports words bytes) (call : Call μ) (d : Descriptor)
    (f : Failure) : Prop where
  unchanged : (∀ taken, f ≠ .transfer ⟨.capacity .txFull, taken⟩) → (s.perform call).state = s
  /-- A write that stopped early did what a write of the accepted bytes does. -/
  accepted : ∀ taken, f = .transfer ⟨.capacity .txFull, taken⟩ → ∃ data, call = .write d data ∧
    (s.perform (.write d (data.take taken))).state = (s.perform call).state ∧
    (s.perform (.write d (data.take taken))).value = .ok (.count taken)
  buffer : ∀ buffer, call = .read d buffer → (s.read d buffer).value.2 = buffer
  early : ∀ cause, f.error? = some (.setup cause) → f.transferred = 0

theorem not_admitted_intact (hc : call.target? = some (d, required)) {cause : SetupError}
    (ha : s.admission d required = .error cause) {f : Failure}
    (hf : (s.perform call).value = .error f) : s.FailsIntact call d f := by
  obtain ⟨g, hperform, herror, hnone⟩ := perform_not_admitted hc ha
  rw [hperform] at hf
  cases hf
  refine ⟨fun _ => by rw [hperform], ?_, ?_, fun _ _ => hnone⟩
  · rintro taken rfl
    cases herror
  · rintro buffer rfl
    cases hc
    simp only [read, onChannel, show s.resolve d .serial = _ from ha]

theorem Invariant.admitted_intact (h : s.Invariant) (hc : call.target? = some (d, required))
    {slot : Fin ports} {e : Entry ports} (ha : s.admission d required = .ok (slot, e)) {f : Failure}
    (hf : (s.perform call).value = .error f) : s.FailsIntact call d f := by
  obtain ⟨⟨cause, herror⟩, act, htransfer, hr⟩ := h.admitted_fails hc ha hf
  obtain ⟨he, hm⟩ := resolve_entries hr
  have hready := channel_ready h he hm
  have hact : ∀ command, act ≠ .fifos command := by
    rintro command rfl
    cases call <;> cases htransfer
  rw [perform_transfer htransfer hr] at hf
  refine ⟨?_, ?_, ?_, ?_⟩
  · intro hnot
    have hw : ∀ data, act ≠ .write data := by
      rintro data rfl
      obtain ⟨taken, htaken, -⟩ := Channel.perform_write_stopped μ R hready hf
      exact hnot taken htaken
    rw [perform_transfer htransfer hr, Channel.perform_fails_unchanged μ R hready hw hact hf]
    exact withChannel_channel he
  · rintro taken rfl
    obtain ⟨_, hshort, ⟨⟩⟩ := Channel.perform_fails μ R hready hact hf
    cases act with
    | write data =>
      obtain ⟨_, ⟨⟩, hstate, hvalue⟩ := Channel.perform_write_stopped μ R hready hf
      have hpart : (Call.write d (data.take taken) : Call μ).transfer? =
          some (d, .write (data.take taken)) := rfl
      have hcall : call = .write d data := by cases call <;> cases htransfer; rfl
      refine ⟨data, hcall, ?_⟩
      rw [perform_transfer htransfer hr, perform_transfer hpart hr, hstate, hvalue]
      exact ⟨rfl, rfl⟩
    | writeWord word =>
      simp only [Channel.perform, Outcome.reply, Outcome.ofStep] at hf
      split at hf <;> cases hf
    | _ => cases hshort
  · rintro buffer rfl
    cases htransfer
    have hfills := Receiver.read_fills hready.rx buffer
    simp only [read, onChannel_resolved hr, Channel.onRx]
    rcases hv : ((s.channel e).rx.read buffer).1.1 with stop | taken
    · simpa [hv, hfills.failure stop hv, movedBy] using hfills.kept
    · simp only [Channel.perform, Outcome.reply, Outcome.ofStep, Channel.onRx, hv] at hf
      cases hf
  · intro setup hsetup
    cases herror.symm.trans hsetup

theorem Invariant.failsFor_iff (h : s.Invariant) (hc : call.target? = some (d, required))
    {cause : SetupError} : s.FailsFor call cause ↔ s.admission d required = .error cause := by
  constructor
  · rintro ⟨f, hf, herror⟩
    rcases ha : s.admission d required with refusal | ⟨slot, e⟩
    · obtain ⟨g, hperform, hrefusal, -⟩ := perform_not_admitted hc ha
      rw [hperform] at hf
      cases hf
      cases hrefusal.symm.trans herror
      rfl
    · obtain ⟨⟨shortage, hshort⟩, -⟩ := h.admitted_fails hc ha hf
      cases hshort.symm.trans herror
  · intro ha
    obtain ⟨f, hperform, herror, -⟩ := perform_not_admitted hc ha
    exact ⟨f, by rw [hperform], herror⟩

/-- A call on a descriptor that fails has changed nothing, no place of a buffer either, except that
a write that stopped for want of room has done what a write of the accepted bytes does. It fails
as not initialized exactly if common init has not run or the descriptor stands for no live slot,
and as not configured exactly if the slot is live in the other mode; then no byte was moved. -/
theorem errors_leave_state (h : s.Reachable) (hc : call.target? = some (d, required)) :
    (∀ f, (s.perform call).value = .error f → s.FailsIntact call d f) ∧
      (s.FailsFor call .notInitialized ↔ s.initialized = false ∨ ∀ e, ¬ s.Names d e) ∧
      (s.FailsFor call .notConfigured ↔ s.initialized = true ∧
        ∃ e mode, s.Names d e ∧ required = some mode ∧ e.mode ≠ mode) := by
  have hs := reachable_invariant h
  refine ⟨fun f hf => ?_, ?_, ?_⟩
  · rcases ha : s.admission d required with refusal | ⟨slot, e⟩
    · exact not_admitted_intact hc ha hf
    · exact hs.admitted_intact hc ha hf
  · rw [hs.failsFor_iff hc, admission_eq_error_iff]
    simp
  · rw [hs.failsFor_iff hc, admission_eq_error_iff]
    simp

theorem errors_leave_state_sample :
    let s := sample [7]
    let call := Call.write (.ofIndex 0) [1, 2, 3, 4, 5, 6, 7, 8, 9]
    (s.perform call).value = .error (.transfer ⟨.capacity .txFull, 8⟩) ∧
      (s.perform (.write (.ofIndex 0) [1, 2, 3, 4, 5, 6, 7, 8])).state = (s.perform call).state ∧
      s.FailsFor (.control .discrete (.ofIndex 0)) .notConfigured := by
  intro s call
  have hs : s.Reachable := (sample_justOpened [7]).reachable
  have hfull : (s.perform call).value = .error (.transfer ⟨.capacity .txFull, 8⟩) := by
    with_unfolding_all rfl
  have hwrite : call.target? = some (.ofIndex 0, some .serial) := rfl
  have hcontrol : (Call.control .discrete (.ofIndex 0) : Call ShadowMapper).target? =
      some (.ofIndex 0, some .discrete) := rfl
  obtain ⟨hintact, -⟩ := errors_leave_state hs hwrite
  obtain ⟨-, -, hother⟩ := errors_leave_state hs hcontrol
  obtain ⟨data, hdata, hstate, -⟩ := (hintact _ hfull).accepted 8 rfl
  obtain ⟨-, rfl⟩ := Call.write.inj hdata
  exact ⟨hfull, hstate, hother.2 ⟨rfl, .new 0 .serial, .discrete, ⟨0, rfl, rfl⟩, rfl, nofun⟩⟩

end Driver

end PolledUart
