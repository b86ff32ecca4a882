import PolledUart.Proofs.Invariant

/-!
# One port of the driver

Seen from an open serial port a run of the driver is a run of its channel: calls on its descriptor
and hardware steps on its FIFOs are acts of the channel, and every other call but common init
leaves the channel as it is.
-/

set_option autoImplicit false

namespace PolledUart

theorem Descriptor.index?_injective {d d' : Descriptor} {i : Nat} (h : d.index? = some i)
    (h' : d'.index? = some i) : d = d' := by
  obtain ⟨raw⟩ := d
  obtain ⟨raw'⟩ := d'
  have hpos (r : UInt32) (hr : r ≠ 0) : 0 < r.toNat :=
    Nat.pos_of_ne_zero fun hz => hr (UInt32.toNat_inj.1 hz)
  by_cases hz : raw = 0
  · simp [index?, hz] at h
  · by_cases hz' : raw' = 0
    · simp [index?, hz'] at h'
    · simp only [index?, hz, hz', if_false, Option.some.injEq] at h h'
      have hr := hpos raw hz
      have hr' := hpos raw' hz'
      have heq : raw.toNat = raw'.toNat := by omega
      rw [UInt32.toNat_inj.1 heq]

namespace Call

variable {μ R : Type} {ports : Nat} {d : Descriptor} {p : Fin ports} {call : Call μ} {act : Act}

/-- The act that a call is for the port which the descriptor stands for, if it is one. -/
def onPort (d : Descriptor) (p : Fin ports) (call : Call μ) : Option Act :=
  match call with
  | .fifos port command => if port = p then some (.fifos command) else none
  | call => call.transfer?.bind fun (target, act) => if target = d then some act else none

theorem onPort_of_transfer (h : call.transfer? = some (d, act)) :
    call.onPort d p = some act := by
  cases call with
  | fifos => cases h
  | _ => simp only [onPort, h, Option.bind_some, if_true]

theorem onPort_eq_some (h : call.onPort d p = some act) :
    (∃ command, call = .fifos p command ∧ act = .fifos command) ∨
      call.transfer? = some (d, act) := by
  cases call with
  | fifos port command =>
    simp only [onPort, Option.ite_none_right_eq_some, Option.some.injEq] at h
    obtain ⟨rfl, rfl⟩ := h
    exact .inl ⟨command, rfl, rfl⟩
  | _ =>
    simp only [onPort, Option.bind_eq_some_iff, Option.ite_none_right_eq_some,
      Option.some.injEq] at h
    obtain ⟨⟨target, other⟩, hc, rfl, rfl⟩ := h
    exact .inr hc

end Call

namespace Driver

variable {μ R : Type} {ports words bytes : Nat}

/-- The descriptor is live for the port in serial mode, and the port's channel is the given one. -/
def Serves (s : Driver μ R ports words bytes) (d : Descriptor) (p : Fin ports)
    (c : Channel words bytes) : Prop :=
  ∃ slot e, s.resolve d .serial = .ok (slot, e) ∧ e.port = p ∧ s.channel e = c

variable {s t : Driver μ R ports words bytes} {d : Descriptor} {p : Fin ports}
  {c : Channel words bytes}

theorem Serves.unique {c' : Channel words bytes} (h : s.Serves d p c) (h' : s.Serves d p c') :
    c = c' := by
  obtain ⟨slot, e, hr, -, rfl⟩ := h
  obtain ⟨slot', e', hr', -, rfl⟩ := h'
  cases hr.symm.trans hr'
  rfl

theorem Serves.fifos (h : s.Serves d p c) : s.fifos.get p = c.fifos := by
  obtain ⟨slot, e, -, rfl, rfl⟩ := h
  rfl

theorem Serves.ready (h : s.Serves d p c) (hs : s.Invariant) : c.Ready := by
  obtain ⟨slot, e, hr, -, rfl⟩ := h
  obtain ⟨he, hm⟩ := resolve_entries hr
  exact channel_ready hs he hm

theorem Serves.sendableWords (h : s.Serves d p c) :
    s.sendableWords d = c.tx.pipe.queue.size + if c.tx.pipe.filling.isFull then 1 else 0 := by
  obtain ⟨slot, e, hr, -, rfl⟩ := h
  simp only [Driver.sendableWords, (resolve_eq_ok.1 hr).1]
  rfl

theorem Serves.readableBytes (h : s.Serves d p c) (hs : s.Invariant) :
    s.readableBytes d = c.rx.pipe.bytes.length := by
  rw [← WordPipe.size_eq_length (h.ready hs).rx.toCanonical]
  obtain ⟨slot, e, hr, -, rfl⟩ := h
  simp only [Driver.readableBytes, (resolve_eq_ok.1 hr).1]

theorem Serves.frame (h : s.Serves d p c) (hi : t.initialized = s.initialized)
    (he : ∀ (i : Fin ports) (e : Entry ports), s.entries.get i = some e → e.port = p →
      t.entries.get i = some e)
    (htx : (t.devices.get p).txQueue = (s.devices.get p).txQueue)
    (hrx : (t.devices.get p).rxQueue = (s.devices.get p).rxQueue)
    (hf : t.fifos.get p = s.fifos.get p) : t.Serves d p c := by
  obtain ⟨slot, e, hr, rfl, rfl⟩ := h
  obtain ⟨hentry, hm⟩ := resolve_eq_ok.1 hr
  obtain ⟨hinit, hd, hslot⟩ := entry_eq_ok.1 hentry
  have hlive : t.entry d = .ok (slot, e) :=
    entry_eq_ok.2 ⟨hi.trans hinit, hd, he slot e hslot rfl⟩
  have hsame : t.channel e = s.channel e := by simp only [channel, htx, hrx, hf]
  exact ⟨slot, e, resolve_eq_ok.2 ⟨hlive, hm⟩, rfl, hsame⟩

theorem resolve_withChannel {slot : Fin ports} {e : Entry ports}
    (hr : s.resolve d .serial = .ok (slot, e)) (c : Channel words bytes) :
    (s.withChannel slot e c).resolve d .serial = .ok (slot, e.withWords c) := by
  obtain ⟨hentry, hm⟩ := resolve_eq_ok.1 hr
  obtain ⟨hinit, hd, -⟩ := entry_eq_ok.1 hentry
  have hslot : (s.withChannel slot e c).entries.get slot = some (e.withWords c) := by
    simp only [Driver.withChannel, get_setAt, if_true]
  exact resolve_eq_ok.2 ⟨entry_eq_ok.2 ⟨hinit, hd, hslot⟩, hm⟩

theorem Serves.withChannel {slot : Fin ports} {e : Entry ports} {c : Channel words bytes}
    (hr : s.resolve d .serial = .ok (slot, e)) : (s.withChannel slot e c).Serves d e.port c :=
  ⟨slot, e.withWords c, resolve_withChannel hr c, rfl, channel_withChannel s slot e c⟩

theorem Serves.withChannel_other (h : s.Serves d p c) (hs : s.Invariant) {d' : Descriptor}
    (hne : d' ≠ d) {slot : Fin ports} {e : Entry ports}
    (hr : s.resolve d' .serial = .ok (slot, e)) (c' : Channel words bytes) :
    (s.withChannel slot e c').Serves d p c := by
  obtain ⟨-, hd', hslot'⟩ := entry_eq_ok.1 (resolve_eq_ok.1 hr).1
  obtain ⟨own, f, hown, hport, -⟩ := id h
  obtain ⟨-, hd, hslot⟩ := entry_eq_ok.1 (resolve_eq_ok.1 hown).1
  have hi : slot ≠ own := by
    rintro rfl
    exact hne (Descriptor.index?_injective hd' hd)
  have hp : e.port ≠ p := by
    intro hep
    exact hi (hs.distinct slot own e f hslot' hslot (hep.trans hport.symm))
  apply h.frame
  · rfl
  · intro i g hg hgp
    have hig : slot ≠ i := by
      rintro rfl
      cases hslot'.symm.trans hg
      exact hp hgp
    simp only [Driver.withChannel, get_setAt, if_neg hig, hg]
  · simp only [Driver.withChannel, get_setAt, if_neg hp]
  · simp only [Driver.withChannel, get_setAt, if_neg hp]
  · simp only [Driver.withChannel, get_setAt, if_neg hp]

theorem setControl_serves [RegisterAccess R] (h : s.Serves d p c) (line : ControlLine) (on : Bool)
    (d' : Descriptor) : (s.setControl line on d').state.Serves d p c := by
  rcases s.setControl_cases line on d' with hs | ⟨slot, e, block, memory, -, hs⟩
  · exact hs.symm ▸ h
  · -- Only the binding of the device changes.
    rw [hs]
    apply h.frame
    · rfl
    · exact fun i g hg _ => hg
    · exact get_setAt_congr s.devices Device.txQueue e.port p rfl
    · exact get_setAt_congr s.devices Device.rxQueue e.port p rfl
    · rfl

theorem hardware_serves (h : s.Serves d p c) (command : FifoCommand) :
    (s.hardware p command).state.Serves d p (c.withFifos (c.fifos.execute command).2) := by
  have hf := h.fifos
  obtain ⟨slot, e, hr, rfl, rfl⟩ := h
  simp only [hardware, e.port.isLt, dite_true, Fin.eta, hf]
  refine ⟨slot, e, hr, rfl, ?_⟩
  simp only [channel, Channel.withFifos, get_setAt_self]

theorem hardware_serves_other (h : s.Serves d p c) {port : Nat} (hp : port ≠ p)
    (command : FifoCommand) : (s.hardware port command).state.Serves d p c := by
  unfold hardware
  split
  · apply h.frame
    · rfl
    · exact fun i g hg _ => hg
    · rfl
    · rfl
    · simp only [get_setAt, Fin.ext_iff, if_neg hp]
  · exact h

theorem claim_serves (h : s.Serves d p c) {slot q : Fin ports} (hslot : s.freeSlot? = some slot)
    (hq : q ≠ p) (mode : PortMode) : (s.claim slot q mode).Serves d p c := by
  apply h.frame
  · rfl
  · intro i g hg _
    have hi : slot ≠ i := by
      rintro rfl
      exact nomatch (freeSlot?_eq_some hslot).1.symm.trans hg
    simp only [claim, get_setAt, if_neg hi, hg]
  · simp only [claim, get_setAt, if_neg hq]
  · simp only [claim, get_setAt, if_neg hq]
  · rfl

theorem claim_channel (s : Driver μ R ports words bytes) (slot p : Fin ports) :
    ((s.claim slot p .serial).channel (Entry.new p .serial)).tx.pipe.bytes = [] ∧
      ((s.claim slot p .serial).channel (Entry.new p .serial)).rx.pipe.bytes = [] := by
  have hdevice : (s.claim slot p .serial).devices.get p = (s.devices.get p).configure .serial := by
    simp only [claim, get_setAt, if_true]
  simp only [channel, Entry.new, hdevice]
  exact ⟨rfl, rfl⟩

theorem claim_entries (s : Driver μ R ports words bytes) (slot p : Fin ports) (mode : PortMode) :
    (s.claim slot p mode).entries.get slot = some (Entry.new p mode) := by
  simp only [claim, get_setAt, if_true]

variable [Mapper μ R]

theorem openClosed_serves (h : s.Serves d p c) {q : Fin ports} (hq : s.descriptorFor? q = none)
    (mode : PortMode) : (s.openClosed q mode).state.Serves d p c := by
  obtain ⟨own, f, hown, hport, -⟩ := id h
  have hslot := (resolve_entries hown).1
  have hqp : q ≠ p := by
    rintro rfl
    exact descriptorFor?_eq_none.1 hq own f hslot (congrArg Fin.val hport)
  have hmapped : (s.afterMapping q).Serves d p c := by
    apply h.frame
    · rfl
    · exact fun i g hg _ => hg
    · simp only [afterMapping, get_setAt, if_neg hqp]
    · simp only [afterMapping, get_setAt, if_neg hqp]
    · rfl
  rcases s.openClosed_cases q mode with ⟨cause, -, hs, -⟩ | ⟨slot, hfree, -, -, hs⟩
  · exact hs ▸ hmapped
  · exact hs ▸ claim_serves hmapped hfree hqp mode

theorem tryOpen_serves (h : s.Serves d p c) (port : Nat) (mode : PortMode) :
    (s.tryOpen port mode).state.Serves d p c := by
  rcases s.tryOpen_cases port mode with ⟨cause, ho, -⟩ | ⟨d', log, -, ho⟩ | ⟨q, -, -, hq, ho⟩
  · exact ho ▸ h
  · exact ho ▸ h
  · exact ho ▸ openClosed_serves h hq mode

theorem openClosed_eq_ok {q : Fin ports} {mode : PortMode}
    (h : (s.openClosed q mode).value = .ok d) :
    ∃ (mapped : Driver μ R ports words bytes) (slot : Fin ports),
      mapped.initialized = s.initialized ∧ d = Descriptor.ofIndex slot ∧
        (s.openClosed q mode).state = mapped.claim slot q mode := by
  rcases s.openClosed_cases q mode with ⟨cause, hv, -⟩ | ⟨slot, -, -, hv, hs⟩
  · cases hv.symm.trans h
  · cases hv.symm.trans h
    exact ⟨s.afterMapping q, slot, rfl, rfl, hs⟩

variable [RegisterAccess R]

theorem transfer_serves (h : s.Serves d p c) {call : Call μ} {act : Act}
    (hc : call.transfer? = some (d, act)) :
    (s.perform call).state.Serves d p (c.perform μ R act).state ∧
      (s.perform call).value = (c.perform μ R act).value := by
  obtain ⟨slot, e, hr, rfl, rfl⟩ := h
  rw [perform_transfer hc hr]
  exact ⟨Serves.withChannel hr, rfl⟩

theorem transfer_serves_other (h : s.Serves d p c) (hs : s.Invariant) {call : Call μ}
    {d' : Descriptor} {act : Act} (hc : call.transfer? = some (d', act)) (hne : d' ≠ d) :
    (s.perform call).state.Serves d p c := by
  rcases hr : s.resolve d' .serial with cause | ⟨slot, e⟩
  · rw [perform_refused hc hr]
    exact h
  · rw [perform_transfer hc hr]
    exact h.withChannel_other hs hne hr _

theorem fifos_serves (h : s.Serves d p c) (command : FifoCommand) :
    (s.perform (.fifos p command)).state.Serves d p (c.perform μ R (.fifos command)).state ∧
      (s.perform (.fifos p command)).value = (c.perform μ R (.fifos command)).value := by
  constructor
  · exact hardware_serves h command
  · simp only [perform, Channel.perform, hardware, p.isLt, dite_true, Fin.eta, h.fifos,
      Outcome.reply, Outcome.ofStep]
    rcases (c.fifos.execute command).1 with cause | reply <;> rfl

theorem onPort_serves (h : s.Serves d p c) {call : Call μ} {act : Act}
    (hact : call.onPort d p = some act) :
    (s.perform call).state.Serves d p (c.perform μ R act).state ∧
      (s.perform call).value = (c.perform μ R act).value := by
  rcases Call.onPort_eq_some hact with ⟨command, rfl, rfl⟩ | hc
  · exact fifos_serves h command
  · exact transfer_serves h hc

theorem offPort_serves (h : s.Serves d p c) (hs : s.Invariant) {call : Call μ}
    (hcall : call ≠ .commonInit) (hnone : call.onPort d p = none) :
    (s.perform call).state.Serves d p c := by
  rcases hc : call.transfer? with _ | ⟨target, act⟩
  · cases call with
    | commonInit => exact absurd rfl hcall
    | fifos port command =>
      have hp : port ≠ p := by
        intro hp
        simp only [Call.onPort, hp, if_true, reduceCtorEq] at hnone
      exact hardware_serves_other h hp command
    | tryOpen port mode => exact tryOpen_serves h port mode
    | openPort port mode => exact tryOpen_serves h port mode
    | setControl line on target => exact setControl_serves h line on target
    | discretePin target acts =>
      exact discretePin_induct (P := (Serves · d p c))
        (fun _ on h => setControl_serves h .discrete on target) h acts
    | swapMapper | store => exact h.frame rfl (fun _ _ he _ => he) rfl rfl rfl
    | write | writeWord | transmit | nextTxWord | receive | read | readWord | poll => cases hc
    | _ => exact h
  · have hne : target ≠ d := by
      rintro rfl
      rw [Call.onPort_of_transfer hc] at hnone
      cases hnone
    exact transfer_serves_other h hs hc hne

/-- What happens at a port during a run, as its descriptor sees it. -/
def portSteps (s : Driver μ R ports words bytes) (d : Descriptor) (p : Fin ports) :
    List (Call μ) → List (PortStep μ R words bytes)
  | [] => []
  | call :: rest =>
    let o := s.perform call
    match call.onPort d p with
    | some act => ⟨s.fifos.get p, act, o.value⟩ :: o.state.portSteps d p rest
    | none => o.state.portSteps d p rest

/-- Seen from an open port, a run without common init is the run of its channel. -/
theorem run_serves (h : s.Serves d p c) (hs : s.Invariant) {calls : List (Call μ)}
    (hcalls : .commonInit ∉ calls) :
    (s.run calls).2.Serves d p (c.after μ R (calls.filterMap (Call.onPort d p))) ∧
      s.portSteps d p calls = c.steps μ R (calls.filterMap (Call.onPort d p)) := by
  induction calls generalizing s c with
  | nil => exact ⟨h, rfl⟩
  | cons call rest ih =>
    obtain ⟨hcall, hrest⟩ := not_or.1 (mt List.mem_cons.2 hcalls)
    have hnext := perform_invariant hs call
    rcases hp : call.onPort d p with _ | act
    · have hserves := offPort_serves h hs (Ne.symm hcall) hp
      obtain ⟨hfinal, hsteps⟩ := ih hserves hnext hrest
      simp only [portSteps, hp, hsteps, List.filterMap_cons]
      exact ⟨hfinal, trivial⟩
    · obtain ⟨hserves, hvalue⟩ := onPort_serves h hp
      obtain ⟨hfinal, hsteps⟩ := ih hserves hnext hrest
      simp only [portSteps, hp, hsteps, List.filterMap_cons, Channel.after, Channel.steps,
        Channel.step, hvalue, h.fifos]
      exact ⟨hfinal, trivial⟩

/-- The port was closed in a reachable state, and opening it in serial mode gave the descriptor. -/
def JustOpened (s : Driver μ R ports words bytes) (d : Descriptor) (p : Fin ports) : Prop :=
  ∃ closed : Driver μ R ports words bytes, closed.Reachable ∧ closed.descriptorFor? p = none ∧
    (closed.tryOpen p .serial).value = .ok d ∧ (closed.tryOpen p .serial).state = s

theorem JustOpened.reachable (h : s.JustOpened d p) : s.Reachable := by
  obtain ⟨closed, hreach, -, -, rfl⟩ := h
  exact hreach.run [.tryOpen p .serial]

theorem JustOpened.invariant (h : s.JustOpened d p) : s.Invariant :=
  reachable_invariant h.reachable

theorem JustOpened.claimed (h : s.JustOpened d p) :
    s.initialized = true ∧ ∃ (mapped : Driver μ R ports words bytes) (slot : Fin ports),
      d = Descriptor.ofIndex slot ∧ s = mapped.claim slot p .serial := by
  obtain ⟨closed, -, hclosed, hvalue, rfl⟩ := h
  by_cases hinit : closed.initialized = true
  · rw [tryOpen_of_closed hinit hclosed] at hvalue ⊢
    obtain ⟨mapped, slot, hm, hd, hstate⟩ := openClosed_eq_ok hvalue
    rw [hstate]
    exact ⟨hm.trans hinit, mapped, slot, hd, rfl⟩
  · simp [tryOpen, hinit] at hvalue

theorem JustOpened.empty (h : s.JustOpened d p) (hc : s.Serves d p c) :
    c.tx.pipe.bytes = [] ∧ c.rx.pipe.bytes = [] := by
  have hs := h.invariant
  obtain ⟨-, mapped, slot, -, rfl⟩ := h.claimed
  obtain ⟨own, e, hr, hport, rfl⟩ := hc
  have hown := (resolve_entries hr).1
  have hslot := claim_entries mapped slot p .serial
  -- Only one slot stands for the port, so the descriptor has the new entry.
  have heq := hs.distinct own slot e _ hown hslot hport
  subst heq
  cases hown.symm.trans hslot
  exact claim_channel mapped own p

/-- With fewer ports than handles the handle given out names the claimed slot. -/
theorem JustOpened.serves (h : s.JustOpened d p) (hports : ports < 2 ^ 32) :
    ∃ c, s.Serves d p c ∧ c.tx.pipe.bytes = [] ∧ c.rx.pipe.bytes = [] := by
  obtain ⟨hinit, mapped, slot, hd, hs⟩ := h.claimed
  have hslot : s.entries.get slot = some (Entry.new p .serial) :=
    hs ▸ claim_entries mapped slot p .serial
  have hentry : s.entry d = .ok (slot, Entry.new p .serial) :=
    hd ▸ entry_ofIndex hports hinit hslot
  have hserves : s.Serves d p (s.channel (Entry.new p .serial)) :=
    ⟨slot, _, resolve_eq_ok.2 ⟨hentry, rfl⟩, rfl, rfl⟩
  exact ⟨_, hserves, h.empty hserves⟩

def sampleClosed (early : List UInt8) : Driver ShadowMapper RegisterBlock 1 1 2 :=
  ((Driver.new 1 1 2 ⟨⟩ Memory.zeroed).run
    [.commonInit, .fifos 0 (.feed .tx early), .fifos 0 (.feed .rx early)]).2

def sample (early : List UInt8) : Driver ShadowMapper RegisterBlock 1 1 2 :=
  ((sampleClosed early).tryOpen 0 .serial).state

theorem sample_justOpened (early : List UInt8) :
    (sample early).JustOpened (Descriptor.ofIndex 0) 0 :=
  ⟨sampleClosed early, ⟨_, _, _, rfl⟩, rfl, rfl, rfl⟩

end Driver

end PolledUart
