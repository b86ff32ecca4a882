import PolledUart.Proofs.Port

/-!
# What every reachable driver satisfies

The devices, the descriptor table and the flag are written by different calls, and agree all the
same: live slots come first and stand for different ports, a device is configured exactly for its
live entry, its queues run exactly in serial mode, and no word is kept complete at the outgoing
end. Every call keeps this, whatever the mapper does.
-/

set_option autoImplicit false

namespace PolledUart

def WordQueue.Idle {n : Nat} (q : WordQueue n) : Prop :=
  q.initialized = false ∧ q.ring.toList = []

theorem WordQueue.idle_stop {n : Nat} (q : WordQueue n) : q.stop.Idle := ⟨rfl, rfl⟩

structure Device.Closed {R : Type} {words : Nat} (d : Device R words) : Prop where
  unconfigured : d.configured = false
  tx : d.txQueue.Idle
  rx : d.rxQueue.Idle

structure Device.OpenAs {R : Type} {words : Nat} (d : Device R words) (mode : PortMode) : Prop where
  configured : d.configured = true
  mode_eq : d.mode = mode
  mapped : d.binding.isMapped = true
  running : mode = .serial → d.txQueue.initialized = true ∧ d.rxQueue.initialized = true
  idle : mode = .discrete → d.txQueue.Idle ∧ d.rxQueue.Idle

theorem Device.configure_openAs {R : Type} {words : Nat} {d : Device R words} (h : d.Closed)
    (hm : d.binding.isMapped = true) (mode : PortMode) : (d.configure mode).OpenAs mode := by
  cases mode with
  | serial => exact ⟨rfl, rfl, hm, fun _ => ⟨rfl, rfl⟩, fun h => nomatch h⟩
  | discrete => exact ⟨rfl, rfl, hm, (fun h => nomatch h), fun _ => ⟨h.tx, h.rx⟩⟩

theorem Device.configure_keeps {R : Type} {words : Nat} (d : Device R words) (mode : PortMode) :
    (d.configure mode).binding = d.binding ∧ (d.configure mode).port = d.port := by
  cases mode <;> exact ⟨rfl, rfl⟩

structure Entry.Staged {ports : Nat} (e : Entry ports) : Prop where
  txFilling : e.txFilling.Canonical
  txDraining : e.txDraining.Canonical
  rxFilling : e.rxFilling.Canonical
  rxDraining : e.rxDraining.Canonical
  txLoose : e.txDraining.isFull = false
  rxLoose : e.rxDraining.isFull = false

theorem Entry.staged_new {ports : Nat} (port : Fin ports) (mode : PortMode) :
    (Entry.new port mode).Staged := ⟨trivial, trivial, trivial, trivial, rfl, rfl⟩

namespace Driver

variable {μ R : Type} {ports words bytes : Nat}

structure Invariant (s : Driver μ R ports words bytes) : Prop where
  closed : s.initialized = false → ∀ i : Fin ports, s.entries.get i = none
  packed : ∀ i j : Fin ports, i < j → (s.entries.get j).isSome = true →
    (s.entries.get i).isSome = true
  distinct : ∀ (i j : Fin ports) (e f : Entry ports), s.entries.get i = some e →
    s.entries.get j = some f → e.port = f.port → i = j
  numbered : s.initialized = true → ∀ p : Fin ports, (s.devices.get p).port = p
  opened : ∀ (i : Fin ports) (e : Entry ports), s.entries.get i = some e →
    (s.devices.get e.port).OpenAs e.mode ∧ e.Staged
  shut : ∀ p : Fin ports, (∀ (i : Fin ports) (e : Entry ports), s.entries.get i = some e →
    e.port ≠ p) → (s.devices.get p).Closed

theorem Invariant.initialized_of_entry {s : Driver μ R ports words bytes} (h : s.Invariant)
    {slot : Fin ports} {e : Entry ports} (he : s.entries.get slot = some e) :
    s.initialized = true := by
  rcases hi : s.initialized with _ | _
  · have hnone := h.closed hi slot
    rw [he] at hnone
    cases hnone
  · rfl

theorem new_invariant (mapper : μ) (memory : Memory) :
    (Driver.new ports words bytes mapper memory : Driver μ R ports words bytes).Invariant where
  closed := by simp [Driver.new]
  packed := by simp [Driver.new]
  distinct := by simp [Driver.new]
  numbered := by simp [Driver.new]
  opened := by simp [Driver.new]
  shut := by
    intro p _
    simp only [Driver.new, get_replicate]
    exact ⟨rfl, ⟨rfl, rfl⟩, ⟨rfl, rfl⟩⟩

theorem commonInit_invariant (s : Driver μ R ports words bytes) : s.commonInit.state.Invariant where
  closed := by simp [commonInit]
  packed := by simp [commonInit]
  distinct := by simp [commonInit]
  numbered := by simp [commonInit, Device.reset]
  opened := by simp [commonInit]
  shut := by
    intro p _
    simp only [commonInit, get_ofFn]
    exact ⟨rfl, WordQueue.idle_stop _, WordQueue.idle_stop _⟩

/-- A device may change in any way that keeps its number and suits its entry, or the lack of one. -/
theorem Invariant.set_device {s t : Driver μ R ports words bytes} (h : s.Invariant) (p : Fin ports)
    (d : Device R words) (hi : t.initialized = s.initialized) (he : t.entries = s.entries)
    (hd : t.devices = setAt s.devices p d) (hport : d.port = (s.devices.get p).port)
    (hopen : ∀ (i : Fin ports) (e : Entry ports), s.entries.get i = some e → e.port = p →
      d.OpenAs e.mode)
    (hshut : (∀ (i : Fin ports) (e : Entry ports), s.entries.get i = some e → e.port ≠ p) →
      d.Closed) : t.Invariant where
  closed := by rw [hi, he]; exact h.closed
  packed := by rw [he]; exact h.packed
  distinct := by rw [he]; exact h.distinct
  numbered := by
    rw [hi, hd]
    intro hinit q
    exact (get_setAt_congr s.devices Device.port p q hport).trans (h.numbered hinit q)
  opened := by
    intro i e hie
    rw [he] at hie
    rw [hd, get_setAt]
    split
    · exact ⟨hopen i e hie (by simp_all), (h.opened i e hie).2⟩
    · exact h.opened i e hie
  shut := by
    intro q hq
    rw [he] at hq
    rw [hd, get_setAt]
    split
    · rename_i hpq
      exact hshut (hpq ▸ hq)
    · exact h.shut q hq

theorem channel_ready {s : Driver μ R ports words bytes} (h : s.Invariant) {slot : Fin ports}
    {e : Entry ports} (he : s.entries.get slot = some e) (hm : e.mode = .serial) :
    (s.channel e).Ready := by
  obtain ⟨ho, hs⟩ := h.opened slot e he
  obtain ⟨htx, hrx⟩ := ho.running hm
  exact ⟨⟨⟨hs.txFilling, hs.txDraining⟩, htx, hs.txLoose⟩,
    ⟨⟨hs.rxFilling, hs.rxDraining⟩, hrx, hs.rxLoose⟩⟩

theorem withChannel_invariant {s : Driver μ R ports words bytes} (h : s.Invariant)
    {slot : Fin ports} {e : Entry ports} (he : s.entries.get slot = some e) (hm : e.mode = .serial)
    {c : Channel words bytes} (hc : c.Ready) : (s.withChannel slot e c).Invariant where
  closed := by
    intro hi i
    cases (h.initialized_of_entry he).symm.trans hi
  packed := by
    intro i j hij
    have hsome (k : Fin ports) :
        ((s.withChannel slot e c).entries.get k).isSome = (s.entries.get k).isSome := by
      apply get_setAt_congr s.entries Option.isSome
      rw [he]
      rfl
    rw [hsome, hsome]
    exact h.packed i j hij
  distinct := by
    intro i j f g
    simp only [withChannel, get_setAt]
    have hport : (e.withWords c).port = e.port := rfl
    split <;> split <;> intro hf hg hfg
    · simp_all
    · cases hf
      exact (h.distinct slot j e g he hg hfg).symm ▸ ‹slot = i›.symm
    · cases hg
      exact (h.distinct i slot f e hf he hfg).trans ‹slot = j›
    · exact h.distinct i j f g hf hg hfg
  numbered := by
    intro hi p
    have hport : ((s.withChannel slot e c).devices.get p).port = (s.devices.get p).port :=
      get_setAt_congr s.devices Device.port e.port p rfl
    exact hport.trans (h.numbered hi p)
  opened := by
    intro i f hf
    have ho := (h.opened slot e he).1
    simp only [withChannel, get_setAt] at hf ⊢
    split at hf
    · cases hf
      refine ⟨?_, hc.tx.filling, hc.tx.draining, hc.rx.filling, hc.rx.draining, hc.tx.loose,
        hc.rx.loose⟩
      rw [if_pos (show e.port = (e.withWords c).port from rfl)]
      have hserial : e.mode ≠ .discrete := by
        intro hd
        cases hm.symm.trans hd
      exact ⟨ho.configured, ho.mode_eq, ho.mapped, fun _ => ⟨hc.tx.started, hc.rx.started⟩,
        fun hd => absurd hd hserial⟩
    · rename_i hi
      have hne : e.port ≠ f.port := fun hp => hi (h.distinct slot i e f he hf hp)
      rw [if_neg hne]
      exact h.opened i f hf
  shut := by
    intro p hp
    simp only [withChannel, get_setAt] at hp ⊢
    have hne : e.port ≠ p := hp slot (e.withWords c) (if_pos rfl)
    rw [if_neg hne]
    apply h.shut p
    intro i f hf
    by_cases hi : slot = i
    · subst hi
      rw [he] at hf
      cases hf
      exact hne
    · exact hp i f (by rw [if_neg hi, hf])

theorem entry_eq_ok {s : Driver μ R ports words bytes} {d : Descriptor} {slot : Fin ports}
    {e : Entry ports} : s.entry d = .ok (slot, e) ↔
      s.initialized = true ∧ d.index? = some slot.val ∧ s.entries.get slot = some e := by
  unfold entry
  by_cases hi : s.initialized = true
  · rcases hx : d.index? with _ | i
    · simp [hi]
    · by_cases hlt : i < ports
      · rcases he : s.entries.get ⟨i, hlt⟩ with _ | f
        · simp only [hi, hlt, he, Bool.not_true, Bool.false_eq_true, if_false, dite_true]
          constructor
          · intro h
            cases h
          · rintro ⟨-, hslot, hf⟩
            cases hslot
            exact nomatch he.symm.trans hf
        · simp only [hi, hlt, he, Bool.not_true, Bool.false_eq_true, if_false, dite_true]
          constructor
          · intro h
            cases h
            exact ⟨trivial, rfl, he⟩
          · rintro ⟨-, hslot, hf⟩
            cases hslot
            cases he.symm.trans hf
            rfl
      · have hne : ¬ i = slot.val := fun h => hlt (h ▸ slot.isLt)
        simp [hi, hlt, hne]
  · simp [hi]

theorem entry_ofIndex {s : Driver μ R ports words bytes} (hports : ports < 2 ^ 32)
    (hinit : s.initialized = true) {slot : Fin ports} {e : Entry ports}
    (he : s.entries.get slot = some e) : s.entry (.ofIndex slot) = .ok (slot, e) :=
  entry_eq_ok.2
    ⟨hinit, Descriptor.index?_ofIndex (Nat.lt_of_le_of_lt slot.isLt hports), he⟩

theorem resolve_eq_ok {s : Driver μ R ports words bytes} {d : Descriptor} {mode : PortMode}
    {slot : Fin ports} {e : Entry ports} : s.resolve d mode = .ok (slot, e) ↔
      s.entry d = .ok (slot, e) ∧ e.mode = mode := by
  unfold resolve
  rcases s.entry d with cause | ⟨i, f⟩
  · simp
  · by_cases hm : f.mode = mode
    · simp only [hm, if_true, Except.ok.injEq, Prod.mk.injEq]
      exact ⟨fun h => ⟨h, h.2 ▸ hm⟩, fun h => h.1⟩
    · simp only [hm, if_false, Except.ok.injEq, Prod.mk.injEq, reduceCtorEq, false_iff]
      rintro ⟨⟨-, rfl⟩, h⟩
      exact hm h

theorem resolve_entries {s : Driver μ R ports words bytes} {d : Descriptor} {mode : PortMode}
    {slot : Fin ports} {e : Entry ports} (h : s.resolve d mode = .ok (slot, e)) :
    s.entries.get slot = some e ∧ e.mode = mode := by
  obtain ⟨hentry, hm⟩ := resolve_eq_ok.1 h
  obtain ⟨-, -, he⟩ := entry_eq_ok.1 hentry
  exact ⟨he, hm⟩

theorem find?_finRange {f : Fin ports → Bool} {i : Fin ports}
    (h : (List.finRange ports).find? f = some i) :
    f i = true ∧ ∀ j : Fin ports, j < i → f j = false := by
  obtain ⟨hi, k, hk, hki, hbefore⟩ := List.find?_eq_some_iff_getElem.1 h
  constructor
  · exact hi
  · intro j hj
    rw [List.getElem_finRange] at hki
    have hjk : j.val < k := by
      have hval := congrArg Fin.val hki
      simp only [Fin.val_cast] at hval
      omega
    simpa using hbefore j.val hjk

theorem freeSlot?_eq_some {s : Driver μ R ports words bytes} {slot : Fin ports}
    (h : s.freeSlot? = some slot) :
    s.entries.get slot = none ∧ ∀ i : Fin ports, i < slot → (s.entries.get i).isSome = true := by
  obtain ⟨hslot, hbefore⟩ := find?_finRange h
  constructor
  · exact Option.isNone_iff_eq_none.1 hslot
  · intro i hi
    simpa using hbefore i hi

theorem holdsPort_eq_true {s : Driver μ R ports words bytes} {port : Nat} {slot : Fin ports} :
    s.holdsPort port slot = true ↔ ∃ e, s.entries.get slot = some e ∧ e.port.val = port := by
  unfold holdsPort
  rcases s.entries.get slot with _ | e <;> simp

theorem descriptorFor?_eq_none {s : Driver μ R ports words bytes} {port : Nat} :
    s.descriptorFor? port = none ↔
      ∀ (i : Fin ports) (e : Entry ports), s.entries.get i = some e → e.port.val ≠ port := by
  simp only [descriptorFor?, Option.map_eq_none_iff, slotOf?, List.find?_eq_none]
  constructor
  · intro h i e he hp
    exact h i (List.mem_finRange i) (holdsPort_eq_true.2 ⟨e, he, hp⟩)
  · intro h i _ hi
    obtain ⟨e, he, hp⟩ := holdsPort_eq_true.1 hi
    exact h i e he hp

theorem entries_ne_of_closed {s : Driver μ R ports words bytes} {p : Fin ports}
    (hp : s.descriptorFor? p = none) (i : Fin ports) (e : Entry ports)
    (he : s.entries.get i = some e) : e.port ≠ p :=
  fun hep => descriptorFor?_eq_none.1 hp i e he (congrArg Fin.val hep)

theorem claim_invariant {s : Driver μ R ports words bytes} (h : s.Invariant)
    (hinit : s.initialized = true) {slot p : Fin ports} (hslot : s.freeSlot? = some slot)
    (hp : ∀ (i : Fin ports) (e : Entry ports), s.entries.get i = some e → e.port ≠ p)
    (hm : (s.devices.get p).binding.isMapped = true) (mode : PortMode) :
    (s.claim slot p mode).Invariant where
  closed := by
    intro hi
    exact absurd hinit (by simpa [claim] using hi)
  packed := by
    obtain ⟨-, hbefore⟩ := freeSlot?_eq_some hslot
    intro i j hij
    have hold := h.packed i j hij
    simp only [claim, get_setAt]
    split <;> split
    · simp
    · rename_i hj hi
      exact fun _ => hbefore i (hj ▸ hij)
    · simp
    · exact hold
  distinct := by
    intro i j e f
    simp only [claim, get_setAt]
    split <;> split <;> intro he hf hef
    · simp_all
    · cases he
      exact absurd hef.symm (hp j f hf)
    · cases hf
      exact absurd hef (hp i e he)
    · exact h.distinct i j e f he hf hef
  numbered := by
    intro _ q
    have hport := ((s.devices.get p).configure_keeps mode).2
    exact (get_setAt_congr s.devices Device.port p q hport).trans (h.numbered hinit q)
  opened := by
    intro i e he
    simp only [claim, get_setAt] at he ⊢
    split at he
    · cases he
      rw [if_pos (show p = (Entry.new p mode).port from rfl)]
      exact ⟨Device.configure_openAs (h.shut p hp) hm mode, Entry.staged_new p mode⟩
    · rw [if_neg (hp i e he).symm]
      exact h.opened i e he
  shut := by
    obtain ⟨hfree, -⟩ := freeSlot?_eq_some hslot
    intro q hq
    simp only [claim, get_setAt] at hq ⊢
    have hne : p ≠ q := hq slot (Entry.new p mode) (if_pos rfl)
    rw [if_neg hne]
    apply h.shut q
    intro i e he
    apply hq i e
    have hi : slot ≠ i := by
      rintro rfl
      exact nomatch hfree.symm.trans he
    rw [if_neg hi, he]

section

variable [RegisterAccess R]

theorem setControl_invariant {s : Driver μ R ports words bytes} (h : s.Invariant)
    (line : ControlLine) (on : Bool) (d : Descriptor) :
    (s.setControl line on d).state.Invariant := by
  rcases s.setControl_cases line on d with hs | ⟨slot, e, block, memory, hr, hs⟩
  · exact hs.symm ▸ h
  · rw [hs]
    refine h.set_device e.port _ rfl rfl rfl rfl ?_ ?_
    · intro i f hf hp
      have ho : (s.devices.get e.port).OpenAs f.mode := by
        simpa only [hp] using (h.opened i f hf).1
      exact ⟨ho.configured, ho.mode_eq, rfl, ho.running, ho.idle⟩
    · intro hnone
      exact absurd rfl (hnone slot e (resolve_entries hr).1)

theorem actPin_induct {P : Driver μ R ports words bytes → Prop} {d : Descriptor}
    (hset : ∀ (s : Driver μ R ports words bytes) (on : Bool), P s →
      P (s.setControl .discrete on d).state)
    {s : Driver μ R ports words bytes} (h : P s) (act : PinAct) : P (s.actPin d act).state := by
  cases act with
  | toggle =>
    simp only [actPin]
    split
    · exact h
    · exact hset s _ h
  | setHigh => exact hset s true h
  | setLow => exact hset s false h
  | set high => exact hset s high h
  | descriptor => exact h
  | isHigh => exact h
  | isLow => exact h

theorem discretePin_induct {P : Driver μ R ports words bytes → Prop} {d : Descriptor}
    (hset : ∀ (s : Driver μ R ports words bytes) (on : Bool), P s →
      P (s.setControl .discrete on d).state)
    {s : Driver μ R ports words bytes} (h : P s) (acts : List PinAct) :
    P (s.discretePin d acts).state := by
  have hacts : P (s.actPins d acts).state := by
    induction acts generalizing s with
    | nil => exact h
    | cons act rest ih => exact ih (actPin_induct hset h act)
  unfold discretePin
  rcases s.resolve d .discrete with cause | ⟨slot, e⟩
  · exact h
  · exact hacts

end

theorem hardware_invariant {s : Driver μ R ports words bytes} (h : s.Invariant) (port : Nat)
    (command : FifoCommand) : (s.hardware port command).state.Invariant := by
  unfold hardware
  split
  · exact ⟨h.closed, h.packed, h.distinct, h.numbered, h.opened, h.shut⟩
  · exact h

variable [Mapper μ R]

theorem afterMapping_invariant {s : Driver μ R ports words bytes} (h : s.Invariant) {p : Fin ports}
    (hp : s.descriptorFor? p = none) : (s.afterMapping p).Invariant := by
  have hfree := entries_ne_of_closed hp
  have hc := h.shut p hfree
  exact h.set_device p _ rfl rfl rfl rfl (fun i e he hep => absurd hep (hfree i e he))
    fun _ => ⟨hc.unconfigured, hc.tx, hc.rx⟩

theorem openClosed_invariant {s : Driver μ R ports words bytes} (h : s.Invariant)
    (hinit : s.initialized = true) {p : Fin ports} (hp : s.descriptorFor? p = none)
    (mode : PortMode) : (s.openClosed p mode).state.Invariant := by
  have hmapped := afterMapping_invariant h hp
  rcases s.openClosed_cases p mode with ⟨cause, -, hs, -⟩ | ⟨slot, hslot, hb, -, hs⟩
  · exact hs ▸ hmapped
  · exact hs ▸ claim_invariant hmapped hinit hslot (entries_ne_of_closed hp) hb mode

theorem tryOpen_invariant {s : Driver μ R ports words bytes} (h : s.Invariant) (port : Nat)
    (mode : PortMode) : (s.tryOpen port mode).state.Invariant := by
  rcases s.tryOpen_cases port mode with ⟨cause, ho, -⟩ | ⟨d, log, -, ho⟩ | ⟨p, -, hinit, hp, ho⟩
  · exact ho ▸ h
  · exact ho ▸ h
  · exact ho ▸ openClosed_invariant h hinit hp mode

variable [RegisterAccess R]

theorem transfer_invariant {s : Driver μ R ports words bytes} (h : s.Invariant) {call : Call μ}
    {d : Descriptor} {act : Act} (hc : call.transfer? = some (d, act)) :
    (s.perform call).state.Invariant := by
  rcases hr : s.resolve d .serial with cause | ⟨slot, e⟩
  · rw [perform_refused hc hr]
    exact h
  · obtain ⟨he, hm⟩ := resolve_entries hr
    rw [perform_transfer hc hr]
    exact withChannel_invariant h he hm (Channel.perform_ready μ R (channel_ready h he hm) act)

theorem perform_invariant {s : Driver μ R ports words bytes} (h : s.Invariant) (call : Call μ) :
    (s.perform call).state.Invariant := by
  rcases hc : call.transfer? with _ | ⟨d, act⟩
  · cases call with
    | commonInit => exact commonInit_invariant s
    | tryOpen port mode => exact tryOpen_invariant h port mode
    | openPort port mode => exact tryOpen_invariant h port mode
    | setControl line on d => exact setControl_invariant h line on d
    | discretePin d acts =>
      exact discretePin_induct (P := Invariant)
        (fun _ on h => setControl_invariant h .discrete on d) h acts
    | swapMapper mapper => exact ⟨h.closed, h.packed, h.distinct, h.numbered, h.opened, h.shut⟩
    | fifos port command => exact hardware_invariant h port command
    | store address value =>
      exact ⟨h.closed, h.packed, h.distinct, h.numbered, h.opened, h.shut⟩
    | write | writeWord | transmit | nextTxWord | receive | read | readWord | poll => cases hc
    | _ => exact h
  · exact transfer_invariant h hc

theorem run_invariant {s : Driver μ R ports words bytes} (h : s.Invariant) (calls : List (Call μ)) :
    (s.run calls).2.Invariant := by
  induction calls generalizing s with
  | nil => exact h
  | cons call rest ih => exact ih (perform_invariant h call)

/-- What calls can make of a new driver. -/
def Reachable (s : Driver μ R ports words bytes) : Prop :=
  ∃ mapper memory calls, s = ((Driver.new ports words bytes mapper memory).run calls).2

theorem Reachable.run {s : Driver μ R ports words bytes} (h : s.Reachable)
    (calls : List (Call μ)) : (s.run calls).2.Reachable := by
  obtain ⟨mapper, memory, before, rfl⟩ := h
  exact ⟨mapper, memory, before ++ calls, by rw [run_append]⟩

theorem reachable_invariant {s : Driver μ R ports words bytes} (h : s.Reachable) : s.Invariant := by
  obtain ⟨mapper, memory, calls, rfl⟩ := h
  exact run_invariant (new_invariant mapper memory) calls

end Driver

end PolledUart
