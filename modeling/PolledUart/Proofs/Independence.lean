import PolledUart.Proofs.Projection

/-!
# Ports on their own

A call on an open port works on one site: the port's slot, its device with the modem control
register, and its FIFOs. The call's reply depends on nothing but its site, and it changes nothing
else, so two calls at different sites can be made in either order. On one serial port the same is
true of a call that only sends and one that only receives.
-/

set_option autoImplicit false

namespace PolledUart

namespace RegisterBlock

def address? (block : RegisterBlock) (offset : Nat) : Option Nat :=
  match block with
  | .shadow _ => none
  | .mapped base => some (base + offset)

variable (block : RegisterBlock) {m n : Memory} {offset : Nat}

theorem read_congr (h : ∀ a, block.address? offset = some a → n a = m a) :
    block.read n offset = block.read m offset := by
  cases block with
  | shadow registers => rfl
  | mapped base => simp only [read, h _ rfl]

theorem modify_congr (h : ∀ a, block.address? offset = some a → n a = m a) (f : UInt8 → UInt8) :
    (RegisterAccess.modify block n offset f).1 = (RegisterAccess.modify block m offset f).1 ∧
      ∀ a, block.address? offset = some a →
        (RegisterAccess.modify block n offset f).2 a =
          (RegisterAccess.modify block m offset f).2 a := by
  have hread := block.read_congr h
  cases block with
  | shadow registers => exact ⟨rfl, fun a ha => nomatch ha⟩
  | mapped base =>
    refine ⟨rfl, ?_⟩
    rintro a ⟨⟩
    simp only [RegisterAccess.modify, access_read, access_write, write, hread]
    split
    · simp only [Memory.store_self]
    · exact h _ rfl

theorem modify_frame (m : Memory) (f : UInt8 → UInt8) {a : Nat}
    (h : block.address? offset ≠ some a) : (RegisterAccess.modify block m offset f).2 a = m a := by
  cases block with
  | shadow registers => rfl
  | mapped base =>
    have hne : a ≠ base + offset := fun ha => h (congrArg some ha.symm)
    simp only [RegisterAccess.modify, access_write, write]
    split
    · exact Memory.store_of_ne m _ hne
    · rfl

theorem address?_modify (m : Memory) (f : UInt8 → UInt8) (other : Nat) :
    (RegisterAccess.modify block m offset f).1.address? other = block.address? other := by
  cases block <;> rfl

end RegisterBlock

def Device.controlAddress? {words : Nat} (d : Device RegisterBlock words) : Option Nat :=
  d.binding.registers.bind (·.address? Register.modemControl)

theorem Device.controlAddress?_of_bound {words : Nat} {d : Device RegisterBlock words}
    {block : RegisterBlock} (h : d.binding.registers = some block) :
    d.controlAddress? = block.address? Register.modemControl := by
  simp only [controlAddress?, h, Option.bind_some]

def Act.sends : Act → Bool
  | .write _ | .writeWord _ | .transmit _ | .nextTxWord => true
  | _ => false

def Act.receives : Act → Bool
  | .receive _ | .read _ | .readWord => true
  | _ => false

namespace Channel

variable {words bytes : Nat} (μ R : Type) (c : Channel words bytes) {act : Act}

theorem perform_tx (h : act.sends = true) (rx : Receiver words bytes) :
    (perform μ R { c with rx } act).value = (c.perform μ R act).value ∧
      (perform μ R { c with rx } act).state = { (c.perform μ R act).state with rx } := by
  cases act with
  | write | writeWord | transmit | nextTxWord => exact ⟨rfl, rfl⟩
  | _ => cases h

theorem perform_rx (h : act.receives = true) (tx : Transmitter words bytes) :
    (perform μ R { c with tx } act).value = (c.perform μ R act).value ∧
      (perform μ R { c with tx } act).state = { (c.perform μ R act).state with tx } := by
  cases act with
  | receive | read | readWord => exact ⟨rfl, rfl⟩
  | _ => cases h

theorem perform_comm {act other : Act} (hs : act.sends = true) (hr : other.receives = true) :
    ((c.perform μ R act).state.perform μ R other).value = (c.perform μ R other).value ∧
      ((c.perform μ R other).state.perform μ R act).value = (c.perform μ R act).value ∧
      ((c.perform μ R act).state.perform μ R other).state =
        ((c.perform μ R other).state.perform μ R act).state := by
  have hsent : (c.perform μ R act).state = { c with tx := (c.perform μ R act).state.tx } := by
    rw [(perform_tx μ R c hs c.rx).2]
  have hreceived : (c.perform μ R other).state =
      { c with rx := (c.perform μ R other).state.rx } := by
    rw [(perform_rx μ R c hr c.tx).2]
  obtain ⟨hrv, hrs⟩ := perform_rx μ R c hr (c.perform μ R act).state.tx
  obtain ⟨hsv, hss⟩ := perform_tx μ R c hs (c.perform μ R other).state.rx
  rw [← hsent] at hrv hrs
  rw [← hreceived] at hsv hss
  exact ⟨hrv, hsv, hrs.trans hss.symm⟩

end Channel

namespace Call

variable {μ : Type} {ports : Nat}

/-- The call moves data through the port, works on its FIFOs, or sets or asks for a line of the
descriptor that stands for it. -/
inductive WorksOn (d : Descriptor) (p : Fin ports) : Call μ → Prop
  | act {call : Call μ} {act : Act} (h : call.onPort d p = some act) : WorksOn d p call
  | setControl (line : ControlLine) (on : Bool) : WorksOn d p (.setControl line on d)
  | control (line : ControlLine) : WorksOn d p (.control line d)

end Call

namespace Driver

variable {μ : Type} {ports words bytes : Nat}

/-- The states agree on a site. -/
structure AgreesAt (s t : Driver μ RegisterBlock ports words bytes) (slot p : Fin ports) :
    Prop where
  initialized : t.initialized = s.initialized
  entry : t.entries.get slot = s.entries.get slot
  device : t.devices.get p = s.devices.get p
  fifos : t.fifos.get p = s.fifos.get p
  memory : ∀ a, (s.devices.get p).controlAddress? = some a → t.memory a = s.memory a

/-- Outside a site nothing changed, and its control register is where it was. -/
structure ChangesOnly (s t : Driver μ RegisterBlock ports words bytes) (slot p : Fin ports) :
    Prop where
  mapper : t.mapper = s.mapper
  initialized : t.initialized = s.initialized
  entries : ∀ i, i ≠ slot → t.entries.get i = s.entries.get i
  devices : ∀ q, q ≠ p → t.devices.get q = s.devices.get q
  fifos : ∀ q, q ≠ p → t.fifos.get q = s.fifos.get q
  memory : ∀ a, (s.devices.get p).controlAddress? ≠ some a → t.memory a = s.memory a
  control : (t.devices.get p).controlAddress? = (s.devices.get p).controlAddress?

/-- The registers of the two ports are not one mapped block. -/
def SeparateBlocks (s : Driver μ RegisterBlock ports words bytes) (p q : Fin ports) : Prop :=
  ∀ base base', (s.devices.get p).binding.registers = some (.mapped base) →
    (s.devices.get q).binding.registers = some (.mapped base') → base ≠ base'

/-- No byte of memory is the control register of both ports. -/
def Apart (s : Driver μ RegisterBlock ports words bytes) (p q : Fin ports) : Prop :=
  ∀ a, (s.devices.get p).controlAddress? = some a → (s.devices.get q).controlAddress? ≠ some a

variable {s t u : Driver μ RegisterBlock ports words bytes} {d : Descriptor}
  {slot i j p q : Fin ports} {e : Entry ports}

theorem slot_ne {a b : Descriptor} {f : Entry ports} (ha : s.entry a = .ok (i, e))
    (hb : s.entry b = .ok (j, f)) (hport : e.port ≠ f.port) : i ≠ j := by
  rintro rfl
  cases (entry_eq_ok.1 ha).2.2.symm.trans (entry_eq_ok.1 hb).2.2
  exact hport rfl

theorem AgreesAt.refl (s : Driver μ RegisterBlock ports words bytes) (slot p : Fin ports) :
    s.AgreesAt s slot p := ⟨rfl, rfl, rfl, rfl, fun _ _ => rfl⟩

theorem AgreesAt.symm (h : s.AgreesAt t slot p) : t.AgreesAt s slot p where
  initialized := h.initialized.symm
  entry := h.entry.symm
  device := h.device.symm
  fifos := h.fifos.symm
  memory a ha := (h.memory a (h.device ▸ ha)).symm

theorem AgreesAt.trans (h : s.AgreesAt t slot p) (h' : t.AgreesAt u slot p) :
    s.AgreesAt u slot p where
  initialized := h'.initialized.trans h.initialized
  entry := h'.entry.trans h.entry
  device := h'.device.trans h.device
  fifos := h'.fifos.trans h.fifos
  memory a ha := (h'.memory a (h.device.symm ▸ ha)).trans (h.memory a ha)

theorem ChangesOnly.refl (s : Driver μ RegisterBlock ports words bytes) (slot p : Fin ports) :
    s.ChangesOnly s slot p :=
  ⟨rfl, rfl, fun _ _ => rfl, fun _ _ => rfl, fun _ _ => rfl, fun _ _ => rfl, rfl⟩

theorem Apart.symm (h : s.Apart p q) : s.Apart q p := fun a hq hp => h a hp hq

theorem SeparateBlocks.apart (h : s.SeparateBlocks p q) : s.Apart p q := by
  intro a hp hq
  obtain ⟨block, hb, ha⟩ := Option.bind_eq_some_iff.1 hp
  obtain ⟨block', hb', ha'⟩ := Option.bind_eq_some_iff.1 hq
  cases block with
  | shadow registers => cases ha
  | mapped base =>
    cases block' with
    | shadow registers => cases ha'
    | mapped base' =>
      have hbase := Option.some.inj (ha.trans ha'.symm)
      exact h base base' hb hb' (Nat.add_right_cancel hbase)

theorem ChangesOnly.agreesAt (h : s.ChangesOnly t i p) (hij : i ≠ j) (hpq : p ≠ q)
    (hapart : s.Apart p q) : s.AgreesAt t j q where
  initialized := h.initialized
  entry := h.entries j hij.symm
  device := h.devices q hpq.symm
  fifos := h.fifos q hpq.symm
  memory a ha := h.memory a fun hp => hapart a hp ha

theorem ChangesOnly.apart (h : s.ChangesOnly t i p) (hpq : p ≠ q) (hapart : s.Apart p q) :
    t.Apart p q := by
  intro a
  rw [h.control, h.devices q hpq.symm]
  exact hapart a

theorem AgreesAt.entry_eq (h : s.AgreesAt t slot p) (hd : s.entry d = .ok (slot, e)) :
    t.entry d = .ok (slot, e) := by
  obtain ⟨hinit, hindex, hslot⟩ := entry_eq_ok.1 hd
  exact entry_eq_ok.2 ⟨h.initialized.trans hinit, hindex, h.entry.trans hslot⟩

theorem AgreesAt.resolve (h : s.AgreesAt t slot p) (hd : s.entry d = .ok (slot, e))
    (mode : PortMode) : t.resolve d mode = s.resolve d mode := by
  simp only [Driver.resolve, hd, h.entry_eq hd]

theorem AgreesAt.channel (h : s.AgreesAt t slot e.port) : t.channel e = s.channel e := by
  simp only [Driver.channel, h.device, h.fifos]

theorem AgreesAt.withChannel (h : s.AgreesAt t slot e.port) (c : Channel words bytes) :
    (s.withChannel slot e c).AgreesAt (t.withChannel slot e c) slot e.port where
  initialized := h.initialized
  entry := by simp only [Driver.withChannel, get_setAt_self]
  device := by simp only [Driver.withChannel, get_setAt_self, h.device]
  fifos := by simp only [Driver.withChannel, get_setAt_self]
  memory a ha := by
    simp only [Driver.withChannel, get_setAt_self] at ha
    exact h.memory a ha

theorem withChannel_changesOnly (s : Driver μ RegisterBlock ports words bytes) (slot : Fin ports)
    (e : Entry ports) (c : Channel words bytes) :
    s.ChangesOnly (s.withChannel slot e c) slot e.port where
  mapper := rfl
  initialized := rfl
  entries i hi := by simp only [withChannel, get_setAt, if_neg hi.symm]
  devices q hq := by simp only [withChannel, get_setAt, if_neg hq.symm]
  fifos q hq := by simp only [withChannel, get_setAt, if_neg hq.symm]
  memory _ _ := rfl
  control := by
    simp only [withChannel, get_setAt_self]
    rfl

theorem AgreesAt.withControl (h : s.AgreesAt t slot p) {block : RegisterBlock}
    (hb : (s.devices.get p).binding.registers = some block) (f : UInt8 → UInt8) :
    (s.withControl p block f).AgreesAt (t.withControl p block f) slot p := by
  have haddress := Device.controlAddress?_of_bound hb
  obtain ⟨hblock, hmemory⟩ := block.modify_congr (fun a ha => h.memory a (haddress.trans ha)) f
  refine ⟨h.initialized, h.entry, ?_, h.fifos, ?_⟩
  · simp only [Driver.withControl, get_setAt_self, h.device, hblock]
  · intro a ha
    simp only [Driver.withControl, get_setAt_self, Device.controlAddress?, Option.bind_some,
      RegisterBlock.address?_modify] at ha
    exact hmemory a ha

theorem withControl_changesOnly {block : RegisterBlock}
    (hb : (s.devices.get p).binding.registers = some block) (f : UInt8 → UInt8)
    (slot : Fin ports) : s.ChangesOnly (s.withControl p block f) slot p := by
  have haddress := Device.controlAddress?_of_bound hb
  refine ⟨rfl, rfl, fun _ _ => rfl, ?_, fun _ _ => rfl, ?_, ?_⟩
  · intro q hq
    simp only [withControl, get_setAt, if_neg hq.symm]
  · intro a ha
    exact block.modify_frame s.memory f (haddress ▸ ha)
  · rw [haddress]
    simp only [withControl, get_setAt_self, Device.controlAddress?, Option.bind_some,
      RegisterBlock.address?_modify]

theorem ChangesOnly.elsewhere (h : s.ChangesOnly t i p) (h' : t.ChangesOnly u j q) (hpq : p ≠ q) :
    u.mapper = s.mapper ∧ u.initialized = s.initialized ∧
      (∀ k, k ≠ i → k ≠ j → u.entries.get k = s.entries.get k) ∧
      (∀ r, r ≠ p → r ≠ q → u.devices.get r = s.devices.get r ∧ u.fifos.get r = s.fifos.get r) ∧
      ∀ a, (u.devices.get p).controlAddress? ≠ some a → (u.devices.get q).controlAddress? ≠ some a →
        u.memory a = s.memory a := by
  refine ⟨h'.mapper.trans h.mapper, h'.initialized.trans h.initialized, ?_, ?_, ?_⟩
  · exact fun k hi hj => (h'.entries k hj).trans (h.entries k hi)
  · exact fun r hp hq => ⟨(h'.devices r hq).trans (h.devices r hp),
      (h'.fifos r hq).trans (h.fifos r hp)⟩
  · intro a hp hq
    rw [h'.devices p hpq, h.control] at hp
    rw [h'.control] at hq
    exact (h'.memory a hq).trans (h.memory a hp)

/-- Changes at two sites, made in either order, that agree on both sites. -/
theorem ChangesOnly.eq {v w : Driver μ RegisterBlock ports words bytes} (h : s.ChangesOnly t i p)
    (hu : t.ChangesOnly u j q) (h' : s.ChangesOnly v j q) (hw : v.ChangesOnly w i p)
    (hpq : p ≠ q) (hi : w.AgreesAt u i p) (hj : w.AgreesAt u j q) : u = w := by
  obtain ⟨hmu, hnu, heu, hdu, hau⟩ := h.elsewhere hu hpq
  obtain ⟨hmw, hnw, hew, hdw, haw⟩ := h'.elsewhere hw hpq.symm
  have hentries (k : Fin ports) : u.entries.get k = w.entries.get k := by
    by_cases hki : k = i
    · exact hki ▸ hi.entry
    · by_cases hkj : k = j
      · exact hkj ▸ hj.entry
      · exact (heu k hki hkj).trans (hew k hkj hki).symm
  have hports (r : Fin ports) :
      u.devices.get r = w.devices.get r ∧ u.fifos.get r = w.fifos.get r := by
    by_cases hrp : r = p
    · exact hrp ▸ ⟨hi.device, hi.fifos⟩
    · by_cases hrq : r = q
      · exact hrq ▸ ⟨hj.device, hj.fifos⟩
      · obtain ⟨hd, hf⟩ := hdu r hrp hrq
        obtain ⟨hd', hf'⟩ := hdw r hrq hrp
        exact ⟨hd.trans hd'.symm, hf.trans hf'.symm⟩
  have hmemory (a : Nat) : u.memory a = w.memory a := by
    by_cases hap : (w.devices.get p).controlAddress? = some a
    · exact hi.memory a hap
    · by_cases haq : (w.devices.get q).controlAddress? = some a
      · exact hj.memory a haq
      · rw [haw a haq hap]
        exact hau a (hi.device ▸ hap) (hj.device ▸ haq)
  have hext {α : Type} {x y : Vector α ports} (hxy : ∀ k, x.get k = y.get k) : x = y :=
    Vector.ext fun k hk => hxy ⟨k, hk⟩
  obtain ⟨mapper, devices, entries, fifos, initialized, memory⟩ := u
  obtain ⟨mapper', devices', entries', fifos', initialized', memory'⟩ := w
  cases hmu.trans hmw.symm
  cases hnu.trans hnw.symm
  cases hext hentries
  cases hext fun r => (hports r).1
  cases hext fun r => (hports r).2
  cases funext hmemory
  rfl

variable [Mapper μ RegisterBlock]

def report (s : Driver μ RegisterBlock ports words bytes) (call : Call μ) :
    Reply μ RegisterBlock words × List Event :=
  ((s.perform call).value, (s.perform call).log)

/-- A call is local to a site: states that agree there give the same report and agree there
afterwards, and only the site changes. -/
def LocalTo (s : Driver μ RegisterBlock ports words bytes) (call : Call μ)
    (slot p : Fin ports) : Prop :=
  s.ChangesOnly (s.perform call).state slot p ∧
    ∀ t, s.AgreesAt t slot p → t.report call = s.report call ∧
      (s.perform call).state.AgreesAt (t.perform call).state slot p

theorem LocalTo.of_unchanged {call : Call μ} (h : ∀ t, s.AgreesAt t slot p →
    (t.perform call).state = t ∧ t.report call = s.report call) : s.LocalTo call slot p := by
  have hs := (h s (AgreesAt.refl s slot p)).1
  constructor
  · rw [hs]
    exact ChangesOnly.refl s slot p
  · intro t ht
    obtain ⟨hstate, hreport⟩ := h t ht
    rw [hs, hstate]
    exact ⟨hreport, ht⟩

theorem transfer_local (hd : s.entry d = .ok (slot, e)) {call : Call μ} {act : Act}
    (h : call.transfer? = some (d, act)) : s.LocalTo call slot e.port := by
  rcases hr : s.resolve d .serial with cause | ⟨i, f⟩
  · apply LocalTo.of_unchanged
    intro t ht
    have hrt := (ht.resolve hd .serial).trans hr
    simp only [report, perform_refused h hr, perform_refused h hrt, and_self]
  · cases hd.symm.trans (resolve_eq_ok.1 hr).1
    constructor
    · rw [perform_transfer h hr]
      exact withChannel_changesOnly s slot e _
    · intro t ht
      have hrt := (ht.resolve hd .serial).trans hr
      simp only [report, perform_transfer h hr, perform_transfer h hrt, ht.channel]
      exact ⟨trivial, ht.withChannel _⟩

theorem fifos_local (s : Driver μ RegisterBlock ports words bytes) (slot p : Fin ports)
    (command : FifoCommand) : s.LocalTo (.fifos p command) slot p := by
  constructor
  · refine ⟨?_, ?_, ?_, ?_, ?_, ?_, ?_⟩ <;>
      simp only [perform, Outcome.reply, hardware, p.isLt, dite_true, Fin.eta, implies_true]
    intro q hq
    simp only [get_setAt, if_neg hq.symm]
  · intro t ht
    simp only [report, perform, Outcome.reply, hardware, p.isLt, dite_true, Fin.eta, ht.fifos]
    refine ⟨trivial, ht.initialized, ht.entry, ht.device, ?_, ht.memory⟩
    simp only [get_setAt_self]

theorem setControl_local (hd : s.entry d = .ok (slot, e)) (line : ControlLine) (on : Bool) :
    s.LocalTo (.setControl line on d : Call μ) slot e.port := by
  rcases hr : s.resolve d line.mode with cause | ⟨i, f⟩
  · apply LocalTo.of_unchanged
    intro t ht
    have hrt := (ht.resolve hd line.mode).trans hr
    simp only [report, perform, Outcome.reply, setControl, hr, hrt, and_self]
  · cases hd.symm.trans (resolve_eq_ok.1 hr).1
    rcases hb : (s.devices.get e.port).binding.registers with _ | block
    · apply LocalTo.of_unchanged
      intro t ht
      have hrt := (ht.resolve hd line.mode).trans hr
      simp only [report, perform, Outcome.reply, setControl, hr, hrt, ht.device, hb, and_self]
    · constructor
      · simp only [perform, Outcome.reply, setControl_ok hr hb]
        exact withControl_changesOnly hb _ slot
      · intro t ht
        have hrt := (ht.resolve hd line.mode).trans hr
        have hbt : (t.devices.get e.port).binding.registers = some block := ht.device ▸ hb
        simp only [report, perform, Outcome.reply, setControl_ok hr hb, setControl_ok hrt hbt,
          ht.device]
        exact ⟨trivial, ht.withControl hb _⟩

theorem control_local (hd : s.entry d = .ok (slot, e)) (line : ControlLine) :
    s.LocalTo (.control line d : Call μ) slot e.port := by
  apply LocalTo.of_unchanged
  intro t ht
  have hcontrol : t.control line d = s.control line d := by
    simp only [control, ht.resolve hd line.mode]
    rcases hr : s.resolve d line.mode with cause | ⟨i, f⟩
    · rfl
    · cases hd.symm.trans (resolve_eq_ok.1 hr).1
      simp only [ht.device]
      rcases hb : (s.devices.get e.port).binding.registers with _ | block
      · rfl
      · have haddress := Device.controlAddress?_of_bound hb
        simp only [RegisterAccess.bitsSet, RegisterBlock.access_read,
          block.read_congr fun a ha => ht.memory a (haddress.trans ha)]
  simp only [report, perform, Outcome.query, hcontrol, and_self]

theorem worksOn_local (hd : s.entry d = .ok (slot, e)) {call : Call μ}
    (h : call.WorksOn d e.port) : s.LocalTo call slot e.port := by
  cases h with
  | act h =>
    rcases Call.onPort_eq_some h with ⟨command, rfl, -⟩ | hc
    · exact fifos_local s slot e.port command
    · exact transfer_local hd hc
  | setControl line on => exact setControl_local hd line on
  | control line => exact control_local hd line

/-- The calls can be made in either order: their reports and the final state are the same. -/
def Commute (s : Driver μ RegisterBlock ports words bytes) (x y : Call μ) : Prop :=
  ∃ first second final, s.run [x, y] = ([first, second], final) ∧
    s.run [y, x] = ([second, first], final)

theorem Commute.of_eq {x y : Call μ} (hy : (s.perform x).state.report y = s.report y)
    (hx : (s.perform y).state.report x = s.report x)
    (hs : ((s.perform x).state.perform y).state = ((s.perform y).state.perform x).state) :
    s.Commute x y := by
  refine ⟨s.report x, s.report y, ((s.perform x).state.perform y).state, ?_, ?_⟩
  · rw [← hy]
    rfl
  · rw [← hx, hs]
    rfl

theorem sites_commute {a b : Descriptor} {f : Entry ports} (ha : s.entry a = .ok (i, e))
    (hb : s.entry b = .ok (j, f)) (hport : e.port ≠ f.port) (hapart : s.Apart e.port f.port)
    {x y : Call μ} (hx : x.WorksOn a e.port) (hy : y.WorksOn b f.port) : s.Commute x y := by
  have hij := slot_ne ha hb hport
  obtain ⟨hx1, hxlocal⟩ := worksOn_local ha hx
  obtain ⟨hy1, hylocal⟩ := worksOn_local hb hy
  have hj := hx1.agreesAt hij hport hapart
  have hi := hy1.agreesAt hij.symm hport.symm hapart.symm
  have hy2 := (worksOn_local (hj.entry_eq hb) hy).1
  have hx2 := (worksOn_local (hi.entry_eq ha) hx).1
  obtain ⟨hyreport, hyagrees⟩ := hylocal _ hj
  obtain ⟨hxreport, hxagrees⟩ := hxlocal _ hi
  -- At each site the final states have what the call there made of it.
  have hfirst := hxagrees.symm.trans
    (hy2.agreesAt hij.symm hport.symm (hx1.apart hport hapart).symm)
  have hsecond := (hx2.agreesAt hij hport (hy1.apart hport.symm hapart.symm).symm).symm.trans
    hyagrees
  exact Commute.of_eq hyreport hxreport (hx1.eq hy2 hy1 hx2 hport hfirst hsecond)

theorem sides_commute (hr : s.resolve d .serial = .ok (slot, e)) {x y : Call μ} {act other : Act}
    (hx : x.transfer? = some (d, act)) (hs : act.sends = true)
    (hy : y.transfer? = some (d, other)) (ho : other.receives = true) : s.Commute x y := by
  obtain ⟨hreceived, hsent, hstate⟩ := Channel.perform_comm μ RegisterBlock (s.channel e) hs ho
  have hrx := resolve_withChannel hr ((s.channel e).perform μ RegisterBlock act).state
  have hry := resolve_withChannel hr ((s.channel e).perform μ RegisterBlock other).state
  apply Commute.of_eq
  · simp only [report, perform_transfer hx hr, perform_transfer hy hr, perform_transfer hy hrx,
      channel_withChannel, hreceived]
  · simp only [report, perform_transfer hx hr, perform_transfer hy hr, perform_transfer hx hry,
      channel_withChannel, hsent]
  · simp only [perform_transfer hx hr, perform_transfer hy hr, perform_transfer hy hrx,
      perform_transfer hx hry, withChannel_withChannel, channel_withChannel, hstate]

/-- Calls on two live descriptors of different ports, whose registers are not one mapped block,
can be made in either order, and the one on the first leaves the second's entry, device and FIFOs
as they are. On one serial descriptor every call that sends can change places with every call that
receives. -/
theorem calls_commute (s : Driver μ RegisterBlock ports words bytes) :
    (∀ (a b : Descriptor) (i j : Fin ports) (e f : Entry ports), s.entry a = .ok (i, e) →
      s.entry b = .ok (j, f) → e.port ≠ f.port → s.SeparateBlocks e.port f.port →
      ∀ x y : Call μ, x.WorksOn a e.port → y.WorksOn b f.port →
        s.Commute x y ∧ (s.perform x).state.entry b = s.entry b ∧
          (s.perform x).state.devices.get f.port = s.devices.get f.port ∧
          (s.perform x).state.fifos.get f.port = s.fifos.get f.port) ∧
    ∀ (d : Descriptor) (slot : Fin ports) (e : Entry ports),
      s.resolve d .serial = .ok (slot, e) → ∀ (x y : Call μ) (act other : Act),
        x.transfer? = some (d, act) → act.sends = true →
        y.transfer? = some (d, other) → other.receives = true → s.Commute x y := by
  constructor
  · intro a b i j e f ha hb hport hblocks x y hx hy
    have hagrees :=
      (worksOn_local ha hx).1.agreesAt (slot_ne ha hb hport) hport hblocks.apart
    exact ⟨sites_commute ha hb hport hblocks.apart hx hy, (hagrees.entry_eq hb).trans hb.symm,
      hagrees.device, hagrees.fifos⟩
  · exact fun d slot e hr x y act other hx hs hy ho => sides_commute hr hx hs hy ho

def mappedPair : Driver TableMapper RegisterBlock 2 1 2 :=
  ((Driver.new 2 1 2 ⟨[16, 32]⟩ Memory.zeroed).run
    [.commonInit, .tryOpen 1 .serial, .tryOpen 0 .discrete, .fifos 1 (.feed .rx [7, 8])]).2

theorem calls_commute_sample :
    (mappedPair.perform (.setControl .loopback true (.ofIndex 0))).value = .ok .done ∧
      (mappedPair.perform (.setControl .discrete true (.ofIndex 1))).value = .ok .done ∧
      mappedPair.Commute (.setControl .loopback true (.ofIndex 0))
        (.setControl .discrete true (.ofIndex 1)) ∧
      mappedPair.Commute (.write (.ofIndex 0) [1, 2, 3, 4, 5, 6, 7, 8, 9])
        (.receive (.ofIndex 0) 1) := by
  obtain ⟨hsites, hsides⟩ := calls_commute mappedPair
  have hserial : mappedPair.entry (.ofIndex 0) = .ok (0, .new 1 .serial) := rfl
  have hdiscrete : mappedPair.entry (.ofIndex 1) = .ok (1, .new 0 .discrete) := rfl
  have hblocks : mappedPair.SeparateBlocks 1 0 := by
    rintro base base' ⟨⟩ ⟨⟩
    decide
  have hports : (1 : Fin 2) ≠ 0 := by decide
  exact ⟨rfl, rfl, (hsites _ _ _ _ _ _ hserial hdiscrete hports hblocks _ _
      (.setControl .loopback true) (.setControl .discrete true)).1,
    hsides (.ofIndex 0) 0 (.new 1 .serial) rfl _ _ _ _ rfl rfl rfl rfl⟩

end Driver

end PolledUart
