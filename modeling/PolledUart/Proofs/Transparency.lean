import Mathlib.Data.List.Forall2
import PolledUart.Proofs.ChannelImage
import PolledUart.Proofs.Invariant

/-!
# Byte values pass through

A driver that is given other bytes does the same with them. Replace every byte that goes in, of
written data, of a written word or into a FIFO, by its image under any map: counts, failures, logs,
descriptors and registers stay as they are, and every byte that comes out is the image of the byte
that came out before. Control lines and registers are not payload.
-/

set_option autoImplicit false

namespace PolledUart

variable {f : UInt8 → UInt8} {words bytes : Nat}

structure Entry.Image {ports : Nat} (f : UInt8 → UInt8) (e g : Entry ports) : Prop where
  port : g.port = e.port
  mode : g.mode = e.mode
  txFilling : e.txFilling.Image f g.txFilling
  txDraining : e.txDraining.Image f g.txDraining
  rxFilling : e.rxFilling.Image f g.rxFilling
  rxDraining : e.rxDraining.Image f g.rxDraining

theorem Entry.image_new {ports : Nat} (port : Fin ports) (mode : PortMode) :
    (Entry.new port mode).Image f (Entry.new port mode) :=
  ⟨rfl, rfl, ShiftWord.image_empty, ShiftWord.image_empty, ShiftWord.image_empty,
    ShiftWord.image_empty⟩

theorem Entry.Image.withWords {ports : Nat} {e g : Entry ports} (h : e.Image f g)
    {c d : Channel words bytes} (hc : c.Image f d) : (e.withWords c).Image f (g.withWords d) :=
  ⟨h.port, h.mode, hc.tx.pipe.filling, hc.tx.pipe.draining, hc.rx.pipe.filling,
    hc.rx.pipe.draining⟩

def Call.image {μ : Type} (f : UInt8 → UInt8) : Call μ → Call μ
  | .write d data => .write d (data.map f)
  | .writeWord d word => .writeWord d (word.image f)
  | .fifos port command => .fifos port (command.image f)
  | call => call

theorem Call.transfer?_image {μ : Type} {call : Call μ} {d : Descriptor} {act : Act}
    (h : call.transfer? = some (d, act)) : (call.image f).transfer? = some (d, act.image f) := by
  cases call <;> cases h <;> rfl

section setAt

variable {α β : Type} {n : Nat} {A : α → β → Prop} {v : Vector α n} {w : Vector β n}

theorem setAt_rel (h : ∀ j, A (v.get j) (w.get j)) {a : α} {b : β} (hab : A a b) (i : Fin n) :
    ∀ j, A ((setAt v i a).get j) ((setAt w i b).get j) := by
  intro j
  simp only [get_setAt]
  split
  · exact hab
  · exact h j

end setAt

namespace Driver

variable {μ R : Type} {ports : Nat}

/-- The same tables with images of the bytes they hold, over the same registers and memory. -/
structure Image (f : UInt8 → UInt8) (s t : Driver μ R ports words bytes) : Prop where
  mapper : t.mapper = s.mapper
  devices : ∀ p, (s.devices.get p).Image f (t.devices.get p)
  entries : ∀ i, Option.Rel (Entry.Image f) (s.entries.get i) (t.entries.get i)
  fifos : ∀ p, (s.fifos.get p).Image f (t.fifos.get p)
  initialized : t.initialized = s.initialized
  memory : t.memory = s.memory

variable {s t : Driver μ R ports words bytes}

theorem image_new (mapper : μ) (memory : Memory) :
    (Driver.new ports words bytes mapper memory : Driver μ R ports words bytes).Image f
      (Driver.new ports words bytes mapper memory) := by
  refine ⟨rfl, ?_, ?_, ?_, rfl, rfl⟩
  · intro p
    simp only [Driver.new, get_replicate]
    exact ⟨rfl, rfl, rfl, rfl, ⟨rfl, rfl⟩, ⟨rfl, rfl⟩⟩
  · intro i
    simp only [Driver.new, get_replicate]
    exact .none
  · intro p
    simp only [Driver.new, get_replicate]
    exact ⟨rfl, rfl⟩

/-- Common init drops all bytes, so what was held before makes no difference. -/
theorem image_commonInit (hm : s.mapper = t.mapper) (hmemory : s.memory = t.memory)
    (hb : ∀ p, (s.devices.get p).binding = (t.devices.get p).binding) :
    s.commonInit.state.Image f t.commonInit.state := by
  refine ⟨hm.symm, ?_, ?_, ?_, rfl, hmemory.symm⟩
  · intro p
    simp only [commonInit, get_ofFn]
    exact ⟨rfl, (hb p).symm, rfl, rfl, WordQueue.image_stop _ _, WordQueue.image_stop _ _⟩
  · intro i
    simp only [commonInit, get_replicate]
    exact .none
  · intro p
    have hreset (v : Vector (PortFifos bytes) ports) :
        (v.map PortFifos.reset).get p = (v.get p).reset := by
      simp [Vector.get]
    simp only [commonInit, hreset]
    exact ⟨Ring.image_reset _ _, Ring.image_reset _ _⟩

theorem Image.isSome (h : s.Image f t) (i : Fin ports) :
    (t.entries.get i).isSome = (s.entries.get i).isSome := by
  have hentry := h.entries i
  generalize s.entries.get i = x, t.entries.get i = y at hentry
  cases hentry <;> rfl

theorem Image.freeSlot? (h : s.Image f t) : t.freeSlot? = s.freeSlot? := by
  simp only [Driver.freeSlot?, ← Option.not_isSome, h.isSome]

theorem Image.liveDescriptors (h : s.Image f t) : t.liveDescriptors = s.liveDescriptors := by
  simp only [Driver.liveDescriptors, h.isSome]

theorem Image.describe (h : s.Image f t) : t.describe = s.describe := by
  unfold Driver.describe
  rw [h.liveDescriptors, h.initialized]

theorem Image.descriptorFor? (h : s.Image f t) (port : Nat) :
    t.descriptorFor? port = s.descriptorFor? port := by
  have hholds (i : Fin ports) : t.holdsPort port i = s.holdsPort port i := by
    have hentry := h.entries i
    simp only [holdsPort]
    generalize s.entries.get i = x, t.entries.get i = y at hentry
    cases hentry with
    | none => rfl
    | some he => simp only [he.port]
  simp only [Driver.descriptorFor?, slotOf?, funext hholds]

theorem Image.entry (h : s.Image f t) (d : Descriptor) :
    Lockstep (fun x y => y.1 = x.1 ∧ x.2.Image f y.2) (s.entry d) (t.entry d) := by
  simp only [Driver.entry, h.initialized]
  split
  · exact .error _
  · split
    · exact .error _
    · split
      · rename_i i _ hi
        have hentry := h.entries ⟨i, hi⟩
        generalize s.entries.get ⟨i, hi⟩ = x, t.entries.get ⟨i, hi⟩ = y at hentry ⊢
        cases hentry with
        | none => exact .error _
        | some he => exact .ok ⟨rfl, he⟩
      · exact .error _

theorem Image.resolve (h : s.Image f t) (d : Descriptor) (mode : PortMode) :
    Lockstep (fun x y => y.1 = x.1 ∧ x.2.Image f y.2) (s.resolve d mode) (t.resolve d mode) := by
  have hentry := h.entry d
  simp only [Driver.resolve]
  generalize s.entry d = x, t.entry d = y at hentry ⊢
  cases hentry with
  | error e => exact .error e
  | ok he =>
    simp only [he.2.mode]
    split
    · exact .ok he
    · exact .error _

theorem Image.channel (h : s.Image f t) {e g : Entry ports} (he : e.Image f g) :
    (s.channel e).Image f (t.channel g) := by
  have hdevice := h.devices e.port
  have hfifos := h.fifos e.port
  simp only [Driver.channel, he.port]
  exact ⟨⟨⟨he.txFilling, hdevice.txQueue, he.txDraining⟩, hfifos.tx⟩,
    ⟨hfifos.rx, ⟨he.rxFilling, hdevice.rxQueue, he.rxDraining⟩⟩⟩

theorem Image.withChannel (h : s.Image f t) {e g : Entry ports} (he : e.Image f g)
    {c c' : Channel words bytes} (hc : c.Image f c') (slot : Fin ports) :
    (s.withChannel slot e c).Image f (t.withChannel slot g c') := by
  have hdevice := h.devices e.port
  have hqueues : Device.Image f
      { s.devices.get e.port with txQueue := c.tx.pipe.queue, rxQueue := c.rx.pipe.queue }
      { t.devices.get e.port with txQueue := c'.tx.pipe.queue, rxQueue := c'.rx.pipe.queue } :=
    ⟨hdevice.port, hdevice.binding, hdevice.configured, hdevice.mode, hc.tx.pipe.queue,
      hc.rx.pipe.queue⟩
  have hfifos : PortFifos.Image f ⟨c.tx.fifo, c.rx.fifo⟩ ⟨c'.tx.fifo, c'.rx.fifo⟩ :=
    ⟨hc.tx.fifo, hc.rx.fifo⟩
  simp only [Driver.withChannel, he.port]
  exact ⟨h.mapper, setAt_rel h.devices hqueues e.port,
    setAt_rel h.entries (.some (he.withWords hc)) slot, setAt_rel h.fifos hfifos e.port,
    h.initialized, h.memory⟩

section

variable [RegisterAccess R]

theorem Image.control (h : s.Image f t) (line : ControlLine) (d : Descriptor) :
    t.control line d = s.control line d := by
  have hresolve := h.resolve d line.mode
  simp only [Driver.control]
  generalize s.resolve d line.mode = x, t.resolve d line.mode = y at hresolve ⊢
  cases hresolve with
  | error e => rfl
  | @ok a b he =>
    have hdevice := h.devices a.2.port
    simp only [he.2.port, hdevice.binding, h.memory]

theorem Image.setControl (h : s.Image f t) (line : ControlLine) (on : Bool) (d : Descriptor) :
    Outcome.Rel (Image f) Eq (s.setControl line on d) (t.setControl line on d) := by
  have hresolve := h.resolve d line.mode
  simp only [Driver.setControl]
  generalize s.resolve d line.mode = x, t.resolve d line.mode = y at hresolve ⊢
  cases hresolve with
  | error e => exact ⟨rfl, h, rfl⟩
  | @ok a b he =>
    have hdevice := h.devices a.2.port
    simp only [he.2.port, hdevice.binding, h.memory]
    split
    · exact ⟨rfl, h, rfl⟩
    · have hrebound (binding : Binding R) :=
        setAt_rel h.devices (hdevice.rebind binding) a.2.port
      exact ⟨rfl, ⟨h.mapper, hrebound _, h.entries, h.fifos, h.initialized, rfl⟩,
        congrArg (fun port => [Event.controlChanged port line.bits on]) hdevice.port⟩

theorem Image.setPin (h : s.Image f t) (d : Descriptor) (high : Bool) :
    Outcome.Rel (Image f) Eq (s.setPin d high) (t.setPin d high) := by
  have hset := h.setControl .discrete high d
  exact ⟨congrArg (Except.map fun _ => PinReply.done) hset.value, hset.state, hset.log⟩

theorem Image.actPin (h : s.Image f t) (d : Descriptor) (act : PinAct) :
    Outcome.Rel (Image f) Eq (s.actPin d act) (t.actPin d act) := by
  cases act with
  | descriptor => exact ⟨rfl, h, rfl⟩
  | setHigh => exact h.setPin d true
  | setLow => exact h.setPin d false
  | set high => exact h.setPin d high
  | toggle =>
    simp only [Driver.actPin, h.control]
    split
    · exact ⟨rfl, h, rfl⟩
    · exact h.setPin d _
  | isHigh | isLow =>
    simp only [Driver.actPin, h.control]
    exact ⟨rfl, h, rfl⟩

theorem Image.actPins (h : s.Image f t) (d : Descriptor) (acts : List PinAct) :
    Outcome.Rel (Image f) Eq (s.actPins d acts) (t.actPins d acts) := by
  induction acts generalizing s t with
  | nil => exact ⟨rfl, h, rfl⟩
  | cons act rest ih =>
    have hfirst := h.actPin d act
    have hothers := ih hfirst.state
    refine ⟨?_, hothers.state, ?_⟩
    · simp only [Driver.actPins, hfirst.value, hothers.value]
    · simp only [Driver.actPins, hfirst.log, hothers.log]

theorem Image.discretePin (h : s.Image f t) (d : Descriptor) (acts : List PinAct) :
    Outcome.Rel (Image f) Eq (s.discretePin d acts) (t.discretePin d acts) := by
  have hresolve := h.resolve d .discrete
  have hacts := h.actPins d acts
  simp only [Driver.discretePin]
  generalize s.resolve d .discrete = x, t.resolve d .discrete = y at hresolve ⊢
  cases hresolve with
  | error e => exact ⟨rfl, h, rfl⟩
  | ok he => exact ⟨congrArg Except.ok hacts.value, hacts.state, hacts.log⟩

end

theorem Image.claim (h : s.Image f t) (slot port : Fin ports) (mode : PortMode) :
    (s.claim slot port mode).Image f (t.claim slot port mode) :=
  ⟨h.mapper, setAt_rel h.devices ((h.devices port).configure mode) port,
    setAt_rel h.entries (.some (Entry.image_new port mode)) slot, h.fifos, h.initialized, h.memory⟩

theorem Image.hardware (h : s.Image f t) (port : Nat) (command : FifoCommand) :
    Outcome.Rel (Image f) (Lockstep fun a b => b = a.map (FifoReply.image f))
      (s.hardware port command) (t.hardware port (command.image f)) := by
  simp only [Driver.hardware]
  split
  · rename_i hport
    obtain ⟨hresult, hpair⟩ := (h.fifos ⟨port, hport⟩).execute command
    have hstate := setAt_rel h.fifos hpair ⟨port, hport⟩
    refine ⟨?_, ⟨h.mapper, h.devices, h.entries, hstate, h.initialized, h.memory⟩, rfl⟩
    simp only [hresult]
    rcases ((s.fifos.get ⟨port, hport⟩).execute command).1 with e | reply
    · exact .error e
    · exact .ok rfl
  · exact ⟨.ok rfl, h, rfl⟩

theorem Image.device (h : s.Image f t) (d : Descriptor) :
    Lockstep (Device.Image f) (s.device d) (t.device d) := by
  have hentry := h.entry d
  simp only [Driver.device]
  generalize s.entry d = x, t.entry d = y at hentry ⊢
  cases hentry with
  | error e => exact .error _
  | @ok a b he =>
    have hdevice := h.devices a.2.port
    simp only [he.2.port]
    exact .ok hdevice

theorem Image.mode (h : s.Image f t) (d : Descriptor) : t.mode d = s.mode d := by
  have hentry := h.entry d
  simp only [Driver.mode]
  generalize s.entry d = x, t.entry d = y at hentry ⊢
  cases hentry with
  | error e => rfl
  | ok he => exact congrArg Except.ok he.2.mode

theorem Image.sendableWords (h : s.Image f t) (d : Descriptor) :
    t.sendableWords d = s.sendableWords d := by
  have hentry := h.entry d
  simp only [Driver.sendableWords]
  generalize s.entry d = x, t.entry d = y at hentry ⊢
  cases hentry with
  | error e => rfl
  | @ok a b he => simp only [he.2.port, (h.devices a.2.port).txQueue.size, he.2.txFilling.isFull]

theorem Image.receivedWords (h : s.Image f t) (d : Descriptor) :
    t.receivedWords d = s.receivedWords d := by
  have hentry := h.entry d
  simp only [Driver.receivedWords]
  generalize s.entry d = x, t.entry d = y at hentry ⊢
  cases hentry with
  | error e => rfl
  | @ok a b he => simp only [he.2.port, (h.devices a.2.port).rxQueue.size]

theorem Image.readableBytes (h : s.Image f t) (d : Descriptor) :
    t.readableBytes d = s.readableBytes d := by
  have hentry := h.entry d
  simp only [Driver.readableBytes]
  generalize s.entry d = x, t.entry d = y at hentry ⊢
  cases hentry with
  | error e => rfl
  | ok he => exact (h.channel he.2).rx.pipe.size

variable [Mapper μ R]

theorem Image.openClosed (h : s.Image f t) (port : Fin ports) (mode : PortMode) :
    Outcome.Rel (Image f) Eq (s.openClosed port mode) (t.openClosed port mode) := by
  have hdevice := h.devices port
  have hmapped (mapper : μ) (binding : Binding R) : Image f
      { s with
        mapper, devices := setAt s.devices port { s.devices.get port with binding } }
      { t with
        mapper, devices := setAt t.devices port { t.devices.get port with binding } } :=
    ⟨rfl, setAt_rel h.devices (hdevice.rebind binding) port, h.entries, h.fifos, h.initialized,
      h.memory⟩
  -- Mapper and binding are the same in both, so the mapper is asked the same and does the same.
  simp only [Driver.openClosed, h.mapper, hdevice.binding, (hmapped _ _).freeSlot?]
  split
  · exact ⟨rfl, hmapped _ _, rfl⟩
  · split
    · exact ⟨rfl, hmapped _ _, rfl⟩
    · split
      · exact ⟨rfl, hmapped _ _, rfl⟩
      · exact ⟨rfl, (hmapped _ _).claim _ port mode, rfl⟩

theorem Image.tryOpen (h : s.Image f t) (port : Nat) (mode : PortMode) :
    Outcome.Rel (Image f) Eq (s.tryOpen port mode) (t.tryOpen port mode) := by
  simp only [Driver.tryOpen, h.initialized, h.descriptorFor?]
  split
  · exact ⟨rfl, h, rfl⟩
  · split
    · split
      · rename_i hport _ _ _
        simp only [(h.devices ⟨port, hport⟩).mode]
        exact ⟨rfl, h, rfl⟩
      · exact h.openClosed _ mode
    · exact ⟨rfl, h, rfl⟩

variable [RegisterAccess R]

theorem Image.transfer (h : s.Image f t) (hs : s.Invariant) {call : Call μ} {d : Descriptor}
    {act : Act} (hc : call.transfer? = some (d, act)) :
    Outcome.Rel (Image f) (Lockstep (Answer.Image f)) (s.perform call)
      (t.perform (call.image f)) := by
  rw [perform_eq_act hc, perform_eq_act (Call.transfer?_image hc)]
  have hresolve := h.resolve d .serial
  rcases hr : s.resolve d .serial with cause | ⟨slot, e⟩
  · rw [hr] at hresolve
    generalize t.resolve d .serial = y at hresolve ⊢
    cases hresolve
    exact ⟨act.refusal_image cause, h, rfl⟩
  · rw [hr] at hresolve
    generalize t.resolve d .serial = y at hresolve ⊢
    cases hresolve with
    | @ok _ b he =>
      obtain ⟨slot', g⟩ := b
      obtain ⟨rfl, he⟩ := he
      obtain ⟨hentry, hmode⟩ := resolve_entries hr
      -- The invariant of the first run readies its channel; the second needs none of its own.
      have hact := (h.channel he).perform (μ := μ) (R := R) (channel_ready hs hentry hmode) act
      exact ⟨hact.value, h.withChannel he hact.state slot', act.log_image d hact.value⟩

/-- One call, and the call with its payload replaced. -/
theorem Image.perform (h : s.Image f t) (hs : s.Invariant) (call : Call μ) :
    Outcome.Rel (Image f) (Lockstep (Answer.Image f)) (s.perform call)
      (t.perform (call.image f)) := by
  rcases hc : call.transfer? with _ | ⟨d, act⟩
  · cases call with
    | commonInit =>
      have hbindings := fun p => (h.devices p).binding.symm
      exact ⟨.ok rfl, image_commonInit h.mapper.symm h.memory.symm hbindings, rfl⟩
    | isInitialized => exact ⟨.ok (congrArg Answer.flag h.initialized), h, rfl⟩
    | portCount => exact ⟨.ok rfl, h, rfl⟩
    | describe => exact ⟨.ok (congrArg Answer.text h.describe), h, rfl⟩
    | tryOpen port mode => exact (h.tryOpen port mode).reply_eq fun _ => rfl
    | openPort port mode =>
      have hopen := h.tryOpen port mode
      have hvalue : (t.openPort port mode).value = (s.openPort port mode).value := by
        simp only [openPort, hopen.value]
      exact ⟨.ok (congrArg Answer.opened hvalue), hopen.state, hopen.log⟩
    | descriptorFor port => exact ⟨.ok (congrArg Answer.found (h.descriptorFor? port)), h, rfl⟩
    | device d => exact ⟨(h.device d).answer fun _ _ hd => hd, h, rfl⟩
    | mode d =>
      have hmode := Lockstep.of_eq (h.mode d)
      exact ⟨hmode.answer (by rintro a _ rfl; rfl), h, rfl⟩
    | sendableWords d => exact ⟨.ok (congrArg Answer.count (h.sendableWords d)), h, rfl⟩
    | receivedWords d => exact ⟨.ok (congrArg Answer.count (h.receivedWords d)), h, rfl⟩
    | readableBytes d => exact ⟨.ok (congrArg Answer.count (h.readableBytes d)), h, rfl⟩
    | setControl line on d => exact (h.setControl line on d).reply_eq fun _ => rfl
    | control line d =>
      have hlevel := Lockstep.of_eq (h.control line d)
      exact ⟨hlevel.answer (by rintro a _ rfl; rfl), h, rfl⟩
    | discretePin d acts => exact (h.discretePin d acts).reply_eq fun _ => rfl
    | swapMapper mapper =>
      exact ⟨.ok (congrArg Answer.mapper h.mapper),
        ⟨rfl, h.devices, h.entries, h.fifos, h.initialized, h.memory⟩, rfl⟩
    | fifos port command =>
      refine (h.hardware port command).reply ?_
      rintro (_ | reply) _ rfl <;> rfl
    | store address value =>
      exact ⟨.ok rfl, ⟨h.mapper, h.devices, h.entries, h.fifos, h.initialized,
        congrArg (·.store address value) h.memory⟩, rfl⟩
    | write | writeWord | transmit | nextTxWord | receive | read | readWord | poll => cases hc
  · exact h.transfer hs hc

def ReportImage (f : UInt8 → UInt8) (r r' : Reply μ R words × List Event) : Prop :=
  Lockstep (Answer.Image f) r.1 r'.1 ∧ r'.2 = r.2

theorem Image.run (h : s.Image f t) (hs : s.Invariant) (calls : List (Call μ)) :
    List.Forall₂ (ReportImage f) (s.run calls).1 (t.run (calls.map (Call.image f))).1 ∧
      (s.run calls).2.Image f (t.run (calls.map (Call.image f))).2 := by
  induction calls generalizing s t with
  | nil => exact ⟨.nil, h⟩
  | cons call rest ih =>
    have hfirst := h.perform hs call
    obtain ⟨hreports, hfinal⟩ := ih hfirst.state (perform_invariant hs call)
    exact ⟨.cons ⟨hfirst.value, hfirst.log⟩ hreports, hfinal⟩

/-- A new driver that is given images of the bytes replies with images of the bytes, and with the
same counts, failures and logs; at every point it has the same descriptors, devices, registers and
memory, and images of the bytes in its queues and FIFOs. -/
theorem payload_passes_through (f : UInt8 → UInt8) (mapper : μ) (memory : Memory)
    (calls : List (Call μ)) :
    List.Forall₂ (ReportImage f) ((Driver.new ports words bytes mapper memory).run calls).1
        ((Driver.new ports words bytes mapper memory).run (calls.map (Call.image f))).1 ∧
      ((Driver.new ports words bytes mapper memory).run calls).2.Image f
        ((Driver.new ports words bytes mapper memory).run (calls.map (Call.image f))).2 :=
  (image_new mapper memory).run (new_invariant mapper memory) calls

end Driver

end PolledUart
