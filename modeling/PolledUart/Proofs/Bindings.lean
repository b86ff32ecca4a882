import PolledUart.Proofs.Opening

/-!
# Bindings that stay

A mapper settles a port's binding if it fails without a trace, or binds registers and then has
nothing to add. Both mappers do that for every port and whatever they find bound. So under either
of them a failed opening leaves no trace in the driver, and what a port was bound to when it was
opened it is bound to ever after, however often it is closed and opened again; of a shadow file
the calls on control lines change the values, and nothing else does.
-/

set_option autoImplicit false

namespace PolledUart

/-- The same binding, but a shadow file may hold other values. -/
inductive Binding.Like : Binding RegisterBlock → Binding RegisterBlock → Prop
  | same (b : Binding RegisterBlock) : Like b b
  | file (old new : Vector UInt8 Register.count) (name : Option String) (base : Nat) :
    Like ⟨some (.shadow old), name, base⟩ ⟨some (.shadow new), name, base⟩

namespace Binding.Like

variable {b c d : Binding RegisterBlock}

theorem trans (h : b.Like c) (h' : c.Like d) : b.Like d := by
  cases h with
  | same => exact h'
  | file old new name base =>
    cases h' with
    | same => exact .file old new name base
    | file _ last => exact .file old last name base

theorem isMapped (h : b.Like c) : c.isMapped = b.isMapped := by
  cases h <;> rfl

end Binding.Like

theorem RegisterBlock.modify_like {b : Binding RegisterBlock} {block : RegisterBlock}
    (hb : b.registers = some block) (m : Memory) (offset : Nat) (f : UInt8 → UInt8) :
    b.Like { b with registers := some (RegisterAccess.modify block m offset f).1 } := by
  obtain ⟨registers, name, base⟩ := b
  cases hb
  cases block with
  | shadow old => exact .file old _ name base
  | mapped address => exact .same _

/-- A mapper that stays as it is, leaves a binding alone if it fails, binds registers if it does
not, and asked once more answers the same and leaves the binding alone. -/
structure Mapper.Settles {μ R : Type} [Mapper μ R] (m : μ) : Prop where
  same : ∀ (port : Nat) (b : Binding R), (Mapper.map m port b).mapper = m
  fails : ∀ (port : Nat) (b : Binding R) (cause : SetupError),
    (Mapper.map m port b).result = .error cause → (Mapper.map m port b).binding = b
  binds : ∀ (port : Nat) (b : Binding R), (Mapper.map m port b).result = .ok () →
    (Mapper.map m port b).binding.isMapped = true
  again : ∀ (port : Nat) (b : Binding R),
    Mapper.map m port (Mapper.map m port b).binding = Mapper.map m port b

/-- The mapper has nothing to add to the binding. -/
def Mapper.Fixes {μ R : Type} [Mapper μ R] (m : μ) (port : Nat) (b : Binding R) : Prop :=
  Mapper.map m port b = ⟨.ok (), b, m⟩

def Mapper.LooksPast {μ : Type} [Mapper μ RegisterBlock] (m : μ) : Prop :=
  ∀ (port : Nat) (b c : Binding RegisterBlock), b.Like c → Mapper.Fixes m port b →
    Mapper.Fixes m port c

/-- A mapper settles bindings if to each port it answers the same for every binding: it fails and
leaves the binding alone, or it binds registers in a way that is not done again. -/
theorem Mapper.settles_of_cases {μ R : Type} [Mapper μ R] {m : μ}
    (h : ∀ port, (∃ cause, ∀ b, Mapper.map m port b = ⟨.error cause, b, m⟩) ∨
      ∃ bind : Binding R → Binding R, ∀ b, Mapper.map m port b = ⟨.ok (), bind b, m⟩ ∧
        (bind b).isMapped = true ∧ bind (bind b) = bind b) : Mapper.Settles m where
  same port b := by
    rcases h port with ⟨cause, hfails⟩ | ⟨bind, hbinds⟩
    · rw [hfails]
    · rw [(hbinds b).1]
  fails port b cause hfail := by
    rcases h port with ⟨_, hfails⟩ | ⟨bind, hbinds⟩
    · rw [hfails]
    · rw [(hbinds b).1] at hfail
      cases hfail
  binds port b hok := by
    rcases h port with ⟨cause, hfails⟩ | ⟨bind, hbinds⟩
    · rw [hfails] at hok
      cases hok
    · obtain ⟨hmap, hmapped, -⟩ := hbinds b
      rw [hmap]
      exact hmapped
  again port b := by
    rcases h port with ⟨cause, hfails⟩ | ⟨bind, hbinds⟩
    · rw [hfails, hfails]
    · obtain ⟨hmap, -, htwice⟩ := hbinds b
      rw [hmap, (hbinds (bind b)).1, htwice]

theorem Mapper.Settles.fixes {μ R : Type} [Mapper μ R] {m : μ} (h : Mapper.Settles m) {port : Nat}
    {b : Binding R} (hok : (Mapper.map m port b).result = .ok ()) :
    Mapper.Fixes m port (Mapper.map m port b).binding := by
  have hsame := h.same port b
  rw [Mapper.Fixes, h.again]
  generalize Mapper.map m port b = asked at hok hsame
  cases asked
  cases hok
  cases hsame
  rfl

namespace ShadowMapper

variable (m : ShadowMapper) {port : Nat} (b : Binding RegisterBlock)

theorem map_unnamed (h : deviceNames[port]? = none) :
    Mapper.map m port b = ⟨.error .invalidArgument, b, m⟩ := by
  simp only [Mapper.map, bind, h]

theorem map_named {name : String} (h : deviceNames[port]? = some name) :
    Mapper.map m port b = ⟨.ok (), {
      registers := some (b.registers.getD .zeroed)
      name := b.name.or (some name)
      base := if b.isMapped then b.base else port * registerStride }, m⟩ := by
  obtain ⟨registers, old, base⟩ := b
  cases registers <;> simp only [Mapper.map, bind, h] <;> rfl

theorem named_iff : (∃ name, deviceNames[port]? = some name) ↔ port < 8 := by
  rw [← Option.isSome_iff_exists, isSome_getElem?]
  rfl

theorem settles : Mapper.Settles m := by
  apply Mapper.settles_of_cases
  intro port
  rcases h : deviceNames[port]? with _ | name
  · exact .inl ⟨_, fun b => map_unnamed m b h⟩
  · refine .inr ⟨_, fun b => ⟨map_named m b h, rfl, ?_⟩⟩
    obtain ⟨registers, old, base⟩ := b
    cases registers <;> cases old <;> rfl

theorem looksPast : Mapper.LooksPast m := by
  intro port b c hlike hfixed
  cases hlike with
  | same => exact hfixed
  | file old new name base =>
    rcases h : deviceNames[port]? with _ | known
    · rw [Mapper.Fixes, map_unnamed m _ h] at hfixed
      cases hfixed
    · rw [Mapper.Fixes, map_named m _ h] at hfixed ⊢
      cases name with
      | none => cases hfixed
      | some name => rfl

structure Binds (port : Nat) (b : Binding RegisterBlock)
    (asked : Mapping ShadowMapper RegisterBlock) : Prop where
  result : asked.result = if port < 8 then .ok () else .error .invalidArgument
  name : ∀ name, b.name = some name → asked.binding.name = some name
  kept : b.isMapped = true →
    asked.binding.registers = b.registers ∧ asked.binding.base = b.base
  fresh : b.isMapped = false → port < 8 →
    asked.binding.registers = some .zeroed ∧ asked.binding.base = port * registerStride

theorem binds (port : Nat) : Binds port b (Mapper.map m port b) := by
  rcases h : deviceNames[port]? with _ | name
  · have hport : ¬ port < 8 := by
      rw [← named_iff, h]
      exact fun hname => nomatch hname
    rw [map_unnamed m b h]
    exact ⟨(if_neg hport).symm, fun _ hname => hname, fun _ => ⟨rfl, rfl⟩,
      fun _ hlt => absurd hlt hport⟩
  · have hport : port < 8 := named_iff.1 ⟨name, h⟩
    rw [map_named m b h]
    obtain ⟨registers, old, base⟩ := b
    refine ⟨(if_pos hport).symm, ?_, ?_, ?_⟩
    · rintro _ rfl
      rfl
    · intro hmapped
      cases registers with
      | none => cases hmapped
      | some block => exact ⟨rfl, rfl⟩
    · intro hunmapped _
      cases registers with
      | none => exact ⟨rfl, rfl⟩
      | some block => cases hunmapped

end ShadowMapper

namespace TableMapper

variable (m : TableMapper) {port : Nat} (b : Binding RegisterBlock)

theorem map_baseless (h : m.base? port = none) :
    Mapper.map m port b = ⟨.error .mappingFailed, b, m⟩ := by
  simp only [Mapper.map, bind_refused h]

theorem map_based {base : Nat} (h : m.base? port = some base) :
    Mapper.map m port b = ⟨.ok (), {
      registers := some (.mapped base)
      name := b.name.or deviceNames[port]?
      base }, m⟩ := by
  simp only [Mapper.map, bind, h, RegisterBlock.mapped?, if_neg (base?_eq_some h).2]

theorem settles : Mapper.Settles m := by
  apply Mapper.settles_of_cases
  intro port
  rcases h : m.base? port with _ | base
  · exact .inl ⟨_, fun b => map_baseless m b h⟩
  · refine .inr ⟨_, fun b => ⟨map_based m b h, rfl, ?_⟩⟩
    rw [Option.or_assoc, Option.or_self]

theorem looksPast : Mapper.LooksPast m := by
  intro port b c hlike hfixed
  cases hlike with
  | same => exact hfixed
  | file old new name base =>
    -- The mapper never leaves a shadow file.
    rcases h : m.base? port with _ | address
    · rw [Mapper.Fixes, map_baseless m _ h] at hfixed
      cases hfixed
    · rw [Mapper.Fixes, map_based m _ h] at hfixed
      cases hfixed

structure Binds (port : Nat) (b : Binding RegisterBlock)
    (asked : Mapping TableMapper RegisterBlock) : Prop where
  result : asked.result = if (m.base? port).isSome then .ok () else .error .mappingFailed
  name : ∀ name, b.name = some name → asked.binding.name = some name
  block : ∀ base, m.base? port = some base →
    asked.binding.registers = some (.mapped base) ∧ asked.binding.base = base

theorem binds (port : Nat) : Binds m port b (Mapper.map m port b) := by
  rcases h : m.base? port with _ | base
  · rw [map_baseless m b h]
    exact ⟨by rw [h]; rfl, fun _ hname => hname, fun _ hbase => nomatch h.symm.trans hbase⟩
  · rw [map_based m b h]
    refine ⟨by rw [h]; rfl, ?_, ?_⟩
    · intro name hname
      simp only [hname, Option.some_or]
    · intro other hother
      cases h.symm.trans hother
      exact ⟨rfl, rfl⟩

end TableMapper

def Call.keepsMapper {μ : Type} : Call μ → Bool
  | .swapMapper _ => false
  | _ => true

namespace Driver

variable {μ : Type} {ports words bytes : Nat}

def binding (s : Driver μ RegisterBlock ports words bytes) (p : Fin ports) :
    Binding RegisterBlock :=
  (s.devices.get p).binding

def KeepsBindings (s t : Driver μ RegisterBlock ports words bytes) : Prop :=
  ∀ p, (s.binding p).isMapped = true → t.binding p = s.binding p

def KeepsBlocks (s t : Driver μ RegisterBlock ports words bytes) : Prop :=
  ∀ p, (s.binding p).isMapped = true → (s.binding p).Like (t.binding p)

variable {s t u : Driver μ RegisterBlock ports words bytes} {p q : Fin ports}

theorem KeepsBindings.trans (h : s.KeepsBindings t) (h' : t.KeepsBindings u) :
    s.KeepsBindings u := by
  intro p hp
  have hsame := h p hp
  rw [h' p (hsame ▸ hp), hsame]

theorem KeepsBindings.keepsBlocks (h : s.KeepsBindings t) : s.KeepsBlocks t := by
  intro p hp
  rw [h p hp]
  exact .same _

theorem KeepsBlocks.trans (h : s.KeepsBlocks t) (h' : t.KeepsBlocks u) : s.KeepsBlocks u := by
  intro p hp
  have hlike := h p hp
  exact hlike.trans (h' p (hlike.isMapped.trans hp))

theorem setControl_like (s : Driver μ RegisterBlock ports words bytes) (line : ControlLine)
    (on : Bool) (d : Descriptor) (p : Fin ports) :
    (s.binding p).Like ((s.setControl line on d).state.binding p) := by
  rcases hr : s.resolve d line.mode with cause | ⟨slot, e⟩
  · simp only [setControl, hr]
    exact .same _
  · rcases hb : (s.devices.get e.port).binding.registers with _ | block
    · simp only [setControl, hr, hb]
      exact .same _
    · rw [setControl_ok hr hb]
      by_cases hp : e.port = p
      · subst hp
        simp only [binding, withControl, get_setAt_self]
        exact RegisterBlock.modify_like hb _ _ _
      · simp only [binding, withControl, get_setAt, if_neg hp]
        exact .same _

theorem claim_binding (s : Driver μ RegisterBlock ports words bytes) (slot port p : Fin ports)
    (mode : PortMode) : (s.claim slot port mode).binding p = s.binding p :=
  get_setAt_congr s.devices Device.binding port p ((s.devices.get port).configure_keeps mode).1

theorem withChannel_binding (s : Driver μ RegisterBlock ports words bytes) (slot : Fin ports)
    (e : Entry ports) (c : Channel words bytes) (p : Fin ports) :
    (s.withChannel slot e c).binding p = s.binding p :=
  get_setAt_congr s.devices Device.binding e.port p rfl

theorem Invariant.isMapped (h : s.Invariant) {d : Descriptor} (hd : s.descriptorFor? p = some d) :
    (s.binding p).isMapped = true := by
  obtain ⟨slot, e, he, hport, -⟩ := descriptorFor?_eq_some hd
  rw [← Fin.ext hport]
  exact (h.opened slot e he).1.mapped

variable [Mapper μ RegisterBlock] {m : μ}

/-- The mapper is the one given, and has nothing to add to a binding with registers. -/
structure Settled (s : Driver μ RegisterBlock ports words bytes) (m : μ) : Prop where
  mapper : s.mapper = m
  fixed : ∀ p : Fin ports, (s.binding p).isMapped = true → Mapper.Fixes m p (s.binding p)

theorem new_settled (m : μ) (memory : Memory) :
    (Driver.new ports words bytes m memory).Settled m := by
  refine ⟨rfl, fun p hp => ?_⟩
  simp only [binding, Driver.new, get_replicate] at hp
  cases hp

theorem Settled.of_like (h : s.Settled m) (hm : Mapper.LooksPast m) (hmapper : t.mapper = s.mapper)
    (hlike : ∀ p, (s.binding p).Like (t.binding p)) : t.Settled m := by
  refine ⟨hmapper.trans h.mapper, fun p hp => ?_⟩
  exact hm p _ _ (hlike p) (h.fixed p ((hlike p).isMapped.symm.trans hp))

theorem afterMapping_binding (h : s.Settled m) (p q : Fin ports) : (s.afterMapping p).binding q =
    if p = q then (Mapper.map m p (s.binding p)).binding else s.binding q := by
  simp only [binding, afterMapping, get_setAt, h.mapper]
  split <;> rfl

theorem afterMapping_settled (hm : Mapper.Settles m) (h : s.Settled m) (p : Fin ports) :
    (s.afterMapping p).Settled m ∧ s.KeepsBindings (s.afterMapping p) := by
  have hkeeps : s.KeepsBindings (s.afterMapping p) := by
    intro q hq
    rw [afterMapping_binding h]
    by_cases hpq : p = q
    · subst hpq
      rw [if_pos rfl, h.fixed p hq]
    · rw [if_neg hpq]
  refine ⟨⟨?_, fun q hq => ?_⟩, hkeeps⟩
  · show (Mapper.map s.mapper p (s.devices.get p).binding).mapper = m
    rw [h.mapper]
    exact hm.same p _
  · rw [afterMapping_binding h] at hq ⊢
    by_cases hpq : p = q
    · subst hpq
      rw [if_pos rfl] at hq ⊢
      rcases hr : (Mapper.map m p (s.binding p)).result with cause | _
      · rw [hm.fails p _ cause hr] at hq ⊢
        exact h.fixed p hq
      · exact hm.fixes hr
    · rw [if_neg hpq] at hq ⊢
      exact h.fixed q hq

theorem tryOpen_settled (hm : Mapper.Settles m) (h : s.Settled m) (port : Nat) (mode : PortMode) :
    (s.tryOpen port mode).state.Settled m ∧ s.KeepsBindings (s.tryOpen port mode).state := by
  rcases s.tryOpen_cases port mode with ⟨cause, ho, -⟩ | ⟨d, log, -, ho⟩ | ⟨p, -, -, -, ho⟩
  · rw [ho]
    exact ⟨h, fun _ _ => rfl⟩
  · rw [ho]
    exact ⟨h, fun _ _ => rfl⟩
  · obtain ⟨hsettled, hkeeps⟩ := afterMapping_settled hm h p
    rw [ho]
    rcases s.openClosed_cases p mode with ⟨cause, -, ht, -⟩ | ⟨slot, -, -, -, ht⟩
    · exact ht ▸ ⟨hsettled, hkeeps⟩
    · have hclaim (q : Fin ports) := (s.afterMapping p).claim_binding slot p q mode
      rw [ht]
      refine ⟨⟨hsettled.mapper, fun q hq => ?_⟩, fun q hq => (hclaim q).trans (hkeeps q hq)⟩
      rw [hclaim] at hq ⊢
      exact hsettled.fixed q hq

theorem tryOpen_failed (hm : Mapper.Settles m) (hinv : s.Invariant) (h : s.Settled m) {port : Nat}
    {mode : PortMode} {cause : SetupError} (hfail : (s.tryOpen port mode).value = .error cause) :
    (s.tryOpen port mode).state = s := by
  rcases s.tryOpen_cases port mode with ⟨_, ho, -⟩ | ⟨d, log, -, ho⟩ | ⟨p, -, -, hp, ho⟩
  · rw [ho]
  · rw [ho]
  · rw [ho] at hfail ⊢
    have hmapper := h.mapper
    rcases hr : (Mapper.map s.mapper p (s.devices.get p).binding).result with refusal | _
    · rw [openClosed_of_error hr]
      subst hmapper
      simp only [afterMapping, hm.same, hm.fails _ _ _ hr]
      exact congrArg (fun devices => { s with devices }) (setAt_get s.devices p)
    · -- The mapper bound registers and a slot is free, so the opening did not fail.
      obtain ⟨slot, hslot⟩ := hinv.exists_freeSlot hp
      subst hmapper
      rw [openClosed_of_mapped hslot hr (hm.binds _ _ hr)] at hfail
      cases hfail

theorem isControl_like {call : Call μ} (hc : call.isControl = true) (p : Fin ports) :
    (s.binding p).Like ((s.perform call).state.binding p) := by
  cases call with
  | setControl line on d => exact s.setControl_like line on d p
  | control line d => exact .same _
  | discretePin d acts =>
    exact discretePin_induct (P := fun t => (s.binding p).Like (t.binding p))
      (fun t on ht => ht.trans (t.setControl_like .discrete on d p)) (.same _) acts
  | _ => cases hc

theorem perform_keepsBindings (hm : Mapper.Settles m) (hpast : Mapper.LooksPast m)
    (h : s.Settled m) {call : Call μ} (hcall : call.keepsMapper = true)
    (hc : call.isControl = false) :
    (s.perform call).state.Settled m ∧ s.KeepsBindings (s.perform call).state := by
  have hsame {t : Driver μ RegisterBlock ports words bytes} (hmapper : t.mapper = s.mapper)
      (hb : ∀ p, t.binding p = s.binding p) : t.Settled m ∧ s.KeepsBindings t :=
    ⟨h.of_like hpast hmapper fun p => hb p ▸ .same _, fun p _ => hb p⟩
  rcases ht : call.transfer? with _ | ⟨d, act⟩
  · cases call with
    | setControl | control | discretePin => cases hc
    | swapMapper => cases hcall
    | write | writeWord | transmit | nextTxWord | receive | read | readWord | poll => cases ht
    | tryOpen port mode | openPort port mode => exact tryOpen_settled hm h port mode
    | commonInit =>
      refine hsame rfl fun p => ?_
      simp only [binding, perform, commonInit, get_ofFn]
      rfl
    | fifos port command =>
      simp only [perform, Outcome.reply, hardware]
      split <;> exact hsame rfl fun _ => rfl
    | _ => exact hsame rfl fun _ => rfl
  · rcases hr : s.resolve d .serial with cause | ⟨slot, e⟩
    · rw [perform_refused ht hr]
      exact hsame rfl fun _ => rfl
    · rw [perform_transfer ht hr]
      exact hsame rfl (s.withChannel_binding slot e _)

/-- One call: ports with registers stay bound as they are, and only calls on control lines change
what a file holds. -/
theorem perform_settled (hm : Mapper.Settles m) (hpast : Mapper.LooksPast m) (h : s.Settled m)
    {call : Call μ} (hcall : call.keepsMapper = true) :
    (s.perform call).state.Settled m ∧ s.KeepsBlocks (s.perform call).state ∧
      (call.isControl = false → s.KeepsBindings (s.perform call).state) := by
  rcases hc : call.isControl
  · obtain ⟨hsettled, hkeeps⟩ := perform_keepsBindings hm hpast h hcall hc
    exact ⟨hsettled, hkeeps.keepsBlocks, fun _ => hkeeps⟩
  · have hlike := isControl_like (s := s) hc
    refine ⟨h.of_like hpast (s.isControl_same hc).mapper hlike, fun p _ => hlike p, ?_⟩
    intro hplain
    cases hplain

theorem run_settled (hm : Mapper.Settles m) (hpast : Mapper.LooksPast m) (h : s.Settled m)
    {calls : List (Call μ)} (hcalls : ∀ call ∈ calls, call.keepsMapper = true) :
    (s.run calls).2.Settled m ∧ s.KeepsBlocks (s.run calls).2 ∧
      ((∀ call ∈ calls, call.isControl = false) → s.KeepsBindings (s.run calls).2) := by
  induction calls generalizing s with
  | nil => exact ⟨h, fun _ _ => .same _, fun _ _ _ => rfl⟩
  | cons call rest ih =>
    obtain ⟨hcall, hrest⟩ := List.forall_mem_cons.1 hcalls
    obtain ⟨hnext, hblocks, hbindings⟩ := perform_settled hm hpast h hcall
    obtain ⟨hlast, hmore, hexact⟩ := ih hnext hrest
    refine ⟨hlast, hblocks.trans hmore, fun hplain => ?_⟩
    obtain ⟨hc, hothers⟩ := List.forall_mem_cons.1 hplain
    exact (hbindings hc).trans (hexact hothers)

/-- What every run without a new mapper makes of bindings: an opening that fails changes nothing,
and an open port is bound, and stays bound as it is in all that follows, but for what calls on
control lines write into a shadow file. -/
structure BindsForGood (m : μ) (ports words bytes : Nat) (memory : Memory) : Prop where
  failed : ∀ calls : List (Call μ), (∀ call ∈ calls, call.keepsMapper = true) →
    ∀ (port : Nat) (mode : PortMode) (cause : SetupError),
      let s := ((Driver.new ports words bytes m memory).run calls).2
      (s.tryOpen port mode).value = .error cause → (s.tryOpen port mode).state = s
  opened : ∀ before after : List (Call μ),
    (∀ call ∈ before ++ after, call.keepsMapper = true) →
      let s := ((Driver.new ports words bytes m memory).run before).2
      let t := (s.run after).2
      ∀ (p : Fin ports) (d : Descriptor), s.descriptorFor? p = some d →
        (s.binding p).isMapped = true ∧ (s.binding p).Like (t.binding p) ∧
          ((∀ call ∈ after, call.isControl = false) → t.binding p = s.binding p)

theorem bindsForGood_of_settles (hm : Mapper.Settles m) (hpast : Mapper.LooksPast m)
    (memory : Memory) : BindsForGood m ports words bytes memory where
  failed calls hcalls port mode cause := by
    have hnew : (Driver.new ports words bytes m memory).Settled m := new_settled m memory
    obtain ⟨hsettled, -⟩ := run_settled hm hpast hnew hcalls
    exact tryOpen_failed hm (run_invariant (new_invariant m memory) calls) hsettled
  opened before after hcalls := by
    intro s t p d hd
    obtain ⟨hbefore, hafter⟩ := List.forall_mem_append.1 hcalls
    have hnew : (Driver.new ports words bytes m memory).Settled m := new_settled m memory
    obtain ⟨hsettled, -⟩ := run_settled hm hpast hnew hbefore
    obtain ⟨-, hblocks, hbindings⟩ := run_settled hm hpast hsettled hafter
    have hmapped : (s.binding p).isMapped = true :=
      (run_invariant (new_invariant m memory) before).isMapped hd
    exact ⟨hmapped, hblocks p hmapped, fun hplain => hbindings hplain p hmapped⟩

/-- Both mappers leave a binding alone if they fail, bind registers if they do not, and have nothing
to add when they are asked again. One fails past its eight names and otherwise keeps what is
bound; the other fails where its table has no address and otherwise binds the block there. Under
either a failed opening changes nothing, and a port that was opened stays bound as it is. -/
theorem mappers_bind_for_good (ports words bytes : Nat) (memory : Memory) :
    (∀ m : ShadowMapper, Mapper.Settles m ∧
      (∀ port b, ShadowMapper.Binds port b (Mapper.map m port b)) ∧
      BindsForGood m ports words bytes memory) ∧
    ∀ m : TableMapper, Mapper.Settles m ∧
      (∀ port b, TableMapper.Binds m port b (Mapper.map m port b)) ∧
      BindsForGood m ports words bytes memory :=
  ⟨fun m => ⟨m.settles, fun port b => m.binds b port,
      bindsForGood_of_settles m.settles m.looksPast memory⟩,
    fun m => ⟨m.settles, fun port b => m.binds b port,
      bindsForGood_of_settles m.settles m.looksPast memory⟩⟩

theorem mappers_bind_for_good_sample :
    let d := Descriptor.ofIndex 0
    let s := ((Driver.new 9 1 2 (⟨⟩ : ShadowMapper) Memory.zeroed).run
      [.commonInit, .tryOpen 3 .serial]).2
    let t := (s.run [.setControl .loopback true d, .commonInit, .tryOpen 8 .serial,
      .tryOpen 3 .discrete]).2
    let u := ((Driver.new 4 1 2 (⟨[16, 0, 16]⟩ : TableMapper) Memory.zeroed).run
      [.commonInit, .tryOpen 2 .discrete]).2
    let v := (u.run [.store 20 0xFF, .commonInit, .tryOpen 1 .serial, .tryOpen 2 .serial]).2
    ((s.tryOpen 8 .serial).value = .error .invalidArgument ∧ (s.tryOpen 8 .serial).state = s) ∧
      ((s.binding 3).Like (t.binding 3) ∧ t.binding 3 ≠ s.binding 3) ∧
      (u.tryOpen 3 .serial).state = u ∧
      v.binding 2 = ⟨some (.mapped 16), some "uart2", 16⟩ := by
  intro d s t u v
  obtain ⟨-, -, hshadow⟩ := (mappers_bind_for_good 9 1 2 Memory.zeroed).1 ⟨⟩
  obtain ⟨-, -, htable⟩ := (mappers_bind_for_good 4 1 2 Memory.zeroed).2 ⟨[16, 0, 16]⟩
  have height : (s.tryOpen 8 .serial).value = .error .invalidArgument := by decide +kernel
  have hthree : (u.tryOpen 3 .serial).value = .error .mappingFailed := by decide +kernel
  obtain ⟨-, hlike, -⟩ := hshadow.opened [.commonInit, .tryOpen 3 .serial]
    [.setControl .loopback true d, .commonInit, .tryOpen 8 .serial, .tryOpen 3 .discrete]
    (by decide) 3 d (by decide +kernel)
  obtain ⟨-, -, hsame⟩ := htable.opened [.commonInit, .tryOpen 2 .discrete]
    [.store 20 0xFF, .commonInit, .tryOpen 1 .serial, .tryOpen 2 .serial]
    (by decide) 2 d (by decide +kernel)
  exact ⟨⟨height, hshadow.failed _ (by decide) 8 .serial _ height⟩,
    ⟨hlike, by decide +kernel⟩, htable.failed _ (by decide) 3 .serial _ hthree,
    (hsame (by decide)).trans (by decide +kernel)⟩

end Driver

end PolledUart
