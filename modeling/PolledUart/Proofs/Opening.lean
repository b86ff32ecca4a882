import PolledUart.Proofs.Consistency
import PolledUart.Proofs.Handles

/-!
# Every way an opening can end

A refused opening, and one that finds its port open, never reach the mapper and change nothing.
Opening a closed port asks the mapper once. Whatever it did to itself and to the binding stays;
the port stays closed unless there are registers afterwards, and then it takes the lowest free
slot, which there always is.
-/

set_option autoImplicit false

namespace PolledUart

/-- A mapper that notes each request, in a list that only grows at its end. -/
def Mapper.Notes {μ R α : Type} [Mapper μ R] (notes : μ → List α) (note : Nat → Binding R → α) :
    Prop :=
  ∀ (m : μ) (port : Nat) (b : Binding R),
    notes (Mapper.map m port b).mapper = notes m ++ [note port b]

theorem PlannedMapper.notes_calls : Mapper.Notes calls fun port _ => port := by
  intro m port b
  simp only [Mapper.map]
  split
  · split <;> rfl
  · split <;> rfl

theorem WordQueue.Idle.toList_eq {n : Nat} {q : WordQueue n} (h : q.Idle) : q.toList = [] := by
  rw [toList, h.1]
  rfl

theorem Device.Closed.toList_configure {R : Type} {words : Nat} {d : Device R words} (h : d.Closed)
    (mode : PortMode) :
    (d.configure mode).txQueue.toList = [] ∧ (d.configure mode).rxQueue.toList = [] := by
  cases mode with
  | serial => exact ⟨WordQueue.toList_start _, WordQueue.toList_start _⟩
  | discrete => exact ⟨h.tx.toList_eq, h.rx.toList_eq⟩

namespace Driver

variable {μ R : Type} {ports words bytes : Nat} {s : Driver μ R ports words bytes} {p : Fin ports}

theorem claim_found {slot : Fin ports} {mode : PortMode}
    (h : (s.claim slot p mode).Invariant) (hinit : s.initialized = true) :
    (s.claim slot p mode).descriptorFor? p = some (.ofIndex slot) ∧
      (ports < 2 ^ 32 →
        (s.claim slot p mode).entry (.ofIndex slot) = .ok (slot, .new p mode)) := by
  have hentry := claim_entries s slot p mode
  have hdone : (s.claim slot p mode).initialized = true := hinit
  exact ⟨h.descriptorFor?_of_entry hentry, fun hports => entry_ofIndex hports hdone hentry⟩

variable [Mapper μ R]

theorem openClosed_eq (s : Driver μ R ports words bytes) (p : Fin ports) (mode : PortMode) :
    let asked := Mapper.map s.mapper p (s.devices.get p).binding
    s.openClosed p mode = match asked.result with
      | .error cause =>
        ⟨.error (if cause = .invalidArgument then .invalidArgument else .mappingFailed),
          s.afterMapping p, [.mapperFailed p cause]⟩
      | .ok () =>
        if !asked.binding.isMapped then
          ⟨.error .mappingFailed, s.afterMapping p, [.leftUnmapped p]⟩
        else match s.freeSlot? with
          | none => ⟨.error .noFreeDescriptor, s.afterMapping p, [.noFreeDescriptor p]⟩
          | some slot => ⟨.ok (.ofIndex slot), (s.afterMapping p).claim slot p mode,
              [.opened p asked.binding.name (.ofIndex slot) mode]⟩ := rfl

theorem openClosed_of_error {cause : SetupError}
    (hr : (Mapper.map s.mapper p (s.devices.get p).binding).result = .error cause)
    (mode : PortMode) : s.openClosed p mode =
      ⟨.error (if cause = .invalidArgument then .invalidArgument else .mappingFailed),
        s.afterMapping p, [.mapperFailed p cause]⟩ := by
  simp only [openClosed_eq, hr]

theorem openClosed_of_unmapped
    (hr : (Mapper.map s.mapper p (s.devices.get p).binding).result = .ok ())
    (hm : (Mapper.map s.mapper p (s.devices.get p).binding).binding.registers = none)
    (mode : PortMode) : s.openClosed p mode =
      ⟨.error .mappingFailed, s.afterMapping p, [.leftUnmapped p]⟩ := by
  simp only [openClosed_eq, hr, Binding.isMapped, hm]
  rfl

theorem openClosed_of_mapped {slot : Fin ports} (hslot : s.freeSlot? = some slot)
    (hr : (Mapper.map s.mapper p (s.devices.get p).binding).result = .ok ())
    (hm : (Mapper.map s.mapper p (s.devices.get p).binding).binding.isMapped = true)
    (mode : PortMode) : s.openClosed p mode =
      ⟨.ok (.ofIndex slot), (s.afterMapping p).claim slot p mode, [.opened p
        (Mapper.map s.mapper p (s.devices.get p).binding).binding.name (.ofIndex slot) mode]⟩ := by
  simp only [openClosed_eq, hr, hm, hslot]
  rfl

theorem openClosed_mapper (s : Driver μ R ports words bytes) (p : Fin ports) (mode : PortMode) :
    (s.openClosed p mode).state.mapper =
      (Mapper.map s.mapper p (s.devices.get p).binding).mapper := by
  rcases s.openClosed_cases p mode with ⟨_, -, hs, -⟩ | ⟨_, -, -, -, hs⟩
  · rw [hs]
    rfl
  · rw [hs]
    rfl

theorem claim_afterMapping (s : Driver μ R ports words bytes) (slot p : Fin ports)
    (mode : PortMode) :
    let device := s.devices.get p
    let asked := Mapper.map s.mapper p device.binding
    (s.afterMapping p).claim slot p mode = { s with
      mapper := asked.mapper
      entries := setAt s.entries slot (some (.new p mode))
      devices := setAt s.devices p ({ device with binding := asked.binding }.configure mode) } := by
  simp only [claim, afterMapping, get_setAt_self, setAt_setAt]

/-- Before common init, past the last port and at an open port the mapper is not asked and nothing
changes. For a closed port it is asked once, with the binding the port has. If it fails or leaves
no registers, nothing else changed; otherwise the lowest free slot gets a fresh entry and the
device is configured for the mode, with nothing queued, and all else stays. -/
theorem tryOpen_exits [RegisterAccess R] (h : s.Reachable) (mode : PortMode) :
    (∀ port, s.initialized = false → s.tryOpen port mode = ⟨.error .notInitialized, s, []⟩) ∧
      (∀ port, s.initialized = true → ports ≤ port →
        s.tryOpen port mode = ⟨.error .invalidArgument, s, []⟩) ∧
      (∀ slot e, s.entries.get slot = some e → s.tryOpen e.port mode =
        ⟨.ok (.ofIndex slot), s, if e.mode = mode then [] else [.alreadyOpen e.port e.mode mode]⟩) ∧
      ∀ p : Fin ports, s.initialized = true →
        (∀ slot e, s.entries.get slot = some e → e.port ≠ p) →
        let device := s.devices.get p
        let asked := Mapper.map s.mapper p device.binding
        let left := { s with
          mapper := asked.mapper
          devices := setAt s.devices p { device with binding := asked.binding } }
        (∀ {α : Type} (notes : μ → List α) (note : Nat → Binding R → α), Mapper.Notes notes note →
          notes (s.tryOpen p mode).state.mapper = notes s.mapper ++ [note p device.binding]) ∧
        left.descriptorFor? p = none ∧
        (∀ cause, asked.result = .error cause → s.tryOpen p mode =
          ⟨.error (if cause = .invalidArgument then .invalidArgument else .mappingFailed), left,
            [.mapperFailed p cause]⟩) ∧
        (asked.result = .ok () → asked.binding.registers = none → s.tryOpen p mode =
          ⟨.error .mappingFailed, left, [.leftUnmapped p]⟩) ∧
        (asked.result = .ok () → asked.binding.registers ≠ none →
          ∃ (slot : Fin ports) (opened : Device R words),
            let e : Entry ports := ⟨p, mode, .empty, .empty, .empty, .empty⟩
            let t := { s with
              mapper := asked.mapper
              entries := setAt s.entries slot (some e)
              devices := setAt s.devices p opened }
            s.tryOpen p mode = ⟨.ok (.ofIndex slot), t,
              [.opened p asked.binding.name (.ofIndex slot) mode]⟩ ∧
            s.entries.get slot = none ∧
            (∀ lower : Fin ports, lower < slot → (s.entries.get lower).isSome = true) ∧
            t.descriptorFor? p = some (.ofIndex slot) ∧
            (ports < 2 ^ 32 → t.entry (.ofIndex slot) = .ok (slot, e)) ∧
            opened.OpenAs mode ∧ opened.binding = asked.binding ∧ opened.port = p ∧
            opened.txQueue.toList = [] ∧ opened.rxQueue.toList = []) := by
  have hs := reachable_invariant h
  refine ⟨fun port hinit => ?_, fun port hinit hport => ?_, fun slot e he => ?_,
    fun p hinit hfree => ?_⟩
  · simp only [tryOpen, hinit]
    rfl
  · simp only [tryOpen, hinit, Nat.not_lt.2 hport]
    rfl
  · rw [tryOpen_of_open (hs.initialized_of_entry he) e.port (hs.descriptorFor?_of_entry he),
      (hs.opened slot e he).1.mode_eq]
  · have hp : s.descriptorFor? p = none :=
      descriptorFor?_eq_none.2 fun i e he hep => hfree i e he (Fin.ext hep)
    rw [tryOpen_of_closed hinit hp, openClosed_mapper]
    intro device asked left
    refine ⟨fun notes note hnotes => hnotes s.mapper p device.binding, hp,
      fun _ hr => openClosed_of_error hr mode, fun hr hm => openClosed_of_unmapped hr hm mode,
      fun hr hm => ?_⟩
    obtain ⟨slot, hslot⟩ := hs.exists_freeSlot hp
    obtain ⟨hnone, hlower⟩ := freeSlot?_eq_some hslot
    have hmapped : asked.binding.isMapped = true := Option.isSome_iff_ne_none.2 hm
    let bound : Device R words := { device with binding := asked.binding }
    -- The mapper had the binding only, so the device is still as closing left it.
    have hclosed : bound.Closed := by
      have hshut := hs.shut p hfree
      exact ⟨hshut.unconfigured, hshut.tx, hshut.rx⟩
    obtain ⟨hbinding, hport⟩ := bound.configure_keeps mode
    have hclaim := claim_afterMapping s slot p mode
    have ht := claim_invariant (afterMapping_invariant hs hp) hinit hslot hfree
      (by simpa [afterMapping] using hmapped) mode
    obtain ⟨hfound, hlive⟩ := claim_found ht hinit
    have hopen := openClosed_of_mapped hslot hr hmapped mode
    rw [hclaim] at hfound hlive hopen
    exact ⟨slot, bound.configure mode, hopen, hnone, hlower, hfound, hlive,
      Device.configure_openAs hclosed hmapped mode, hbinding,
      hport.trans (hs.numbered hinit p), hclosed.toList_configure mode⟩

theorem tryOpen_exits_sample :
    let fresh : Driver PlannedMapper RegisterBlock 4 1 2 := Driver.new 4 1 2 (.ofPlans
      [(0, ⟨some .zeroed, none, none, false, some .notConfigured⟩),
        (1, ⟨none, none, none, true, none⟩)]) Memory.zeroed
    let s := (fresh.run [.commonInit, .tryOpen 2 .serial]).2
    fresh.tryOpen 2 .serial = ⟨.error .notInitialized, fresh, []⟩ ∧
      s.tryOpen 4 .serial = ⟨.error .invalidArgument, s, []⟩ ∧
      s.tryOpen 2 .discrete = ⟨.ok (.ofIndex 0), s, [.alreadyOpen 2 .serial .discrete]⟩ ∧
      (s.tryOpen 0 .serial).value = .error .mappingFailed ∧
      ((s.tryOpen 0 .serial).state.devices.get 0).binding.registers = some .zeroed ∧
      (s.tryOpen 0 .serial).state.mapper.calls = [2, 0] ∧
      (s.tryOpen 1 .serial).value = .error .mappingFailed ∧
      (s.tryOpen 3 .serial).value = .ok (.ofIndex 1) ∧
      (s.tryOpen 3 .serial).state.entry (.ofIndex 1) = .ok (1, .new 3 .serial) := by
  intro fresh s
  have hfresh : fresh.Reachable := ⟨_, _, [], rfl⟩
  have hs : s.Reachable := hfresh.run _
  have hslots : ∀ slot : Fin 4, s.entries.get slot =
      if slot = 0 then some (.new 2 .serial) else none := by decide +kernel
  have hinit : s.initialized = true := by decide +kernel
  have hclosed (p : Fin 4) (hp : p ≠ 2) (slot : Fin 4) (e : Entry 4)
      (he : s.entries.get slot = some e) : e.port ≠ p := by
    rw [hslots] at he
    split at he
    · cases he
      exact hp.symm
    · cases he
  obtain ⟨hearly, -⟩ := tryOpen_exits hfresh .serial
  obtain ⟨-, hbeyond, -, hask⟩ := tryOpen_exits hs .serial
  obtain ⟨-, -, hagain, -⟩ := tryOpen_exits hs .discrete
  obtain ⟨hnotes, -, hfails, -⟩ := hask 0 hinit (hclosed 0 (by decide))
  obtain ⟨-, -, -, hunmapped, -⟩ := hask 1 hinit (hclosed 1 (by decide))
  obtain ⟨-, -, -, -, hopens⟩ := hask 3 hinit (hclosed 3 (by decide))
  have hzero := hfails .notConfigured (by decide +kernel)
  obtain ⟨slot, _, hthree, hnone, hlower, -, hlive, -⟩ :=
    hopens (by decide +kernel) (by decide +kernel)
  have hsecond : ∀ slot : Fin 4, s.entries.get slot = none →
      (∀ lower : Fin 4, lower < slot → (s.entries.get lower).isSome = true) → slot = 1 := by
    simp only [hslots]
    decide
  have hcalls : s.mapper.calls = [2] := by decide +kernel
  have hasked := hnotes _ _ PlannedMapper.notes_calls
  rw [hcalls] at hasked
  obtain rfl : slot = 1 := hsecond slot hnone hlower
  refine ⟨hearly 2 rfl, hbeyond 4 hinit (Nat.le_refl 4), hagain 0 _ (hslots 0),
    congrArg Outcome.value hzero, ?_, hasked,
    congrArg Outcome.value (hunmapped (by decide +kernel) (by decide +kernel)),
    congrArg Outcome.value hthree, ?_⟩
  · rw [show s.tryOpen 0 .serial = _ from hzero]
    decide +kernel
  · rw [show s.tryOpen 3 .serial = _ from hthree]
    exact hlive (by decide)

end Driver

end PolledUart
