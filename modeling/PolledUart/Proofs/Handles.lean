import PolledUart.Proofs.Registers

/-!
# Handles count openings

From one common init to the next the descriptor table fills from its first slot on and no slot is
given back. So the handle of a port tells how many ports were open when it was opened: the ports
opened so far, in the order of their first openings, have the handles one, two, three and so on,
and no other handle is live.
-/

set_option autoImplicit false

namespace PolledUart

structure Opening where
  port : Nat
  mode : PortMode
  descriptor : Descriptor
  deriving DecidableEq, Repr

/-- The opening that a call made, going by its reply. -/
def Call.opening? {μ R : Type} {words : Nat} : Call μ → Reply μ R words → Option Opening
  | .tryOpen port asked, .ok (.opened d) => some ⟨port, asked, d⟩
  | .openPort port asked, .ok (.opened d) => if d.isValid then some ⟨port, asked, d⟩ else none
  | _, _ => none

/-- A port's first opening is noted, later ones are not. -/
def Opening.note (known : List Opening) : Option Opening → List Opening
  | none => known
  | some x => if x.port ∈ known.map Opening.port then known else known ++ [x]

theorem Opening.note_grow (known : List Opening) (x : Option Opening) :
    ∃ now, Opening.note known x = known ++ now := by
  rcases x with _ | x
  · exact ⟨[], (List.append_nil known).symm⟩
  · rw [Opening.note]
    split
    · exact ⟨[], (List.append_nil known).symm⟩
    · exact ⟨[x], rfl⟩

def Entry.stands {ports : Nat} (e : Entry ports) : Nat × PortMode := (e.port, e.mode)

def Opening.stands (x : Opening) : Nat × PortMode := (x.port, x.mode)

theorem Descriptor.toNat_ofIndex {i : Nat} (h : i + 1 < 2 ^ 32) :
    (ofIndex i).raw.toNat = i + 1 := by
  simp only [ofIndex, UInt32.toNat_ofNat']
  exact Nat.mod_eq_of_lt h

theorem Descriptor.index?_eq_some {d : Descriptor} {i : Nat} :
    d.index? = some i ↔ d.raw.toNat = i + 1 := by
  have hzero : d.raw = 0 ↔ d.raw.toNat = 0 := by rw [← UInt32.toNat_inj]; rfl
  unfold index?
  split
  · rename_i h
    simp [hzero.1 h]
  · rename_i h
    have hpos := mt hzero.2 h
    rw [Option.some.injEq]
    omega

theorem Descriptor.isValid_ofIndex {i : Nat} (h : i + 1 < 2 ^ 32) :
    (ofIndex i).isValid = true := by
  have hn := toNat_ofIndex h
  simp only [isValid, bne_iff_ne, ne_eq]
  intro hz
  rw [hz] at hn
  cases hn

namespace Driver

variable {μ R : Type} {ports words bytes : Nat}

/-- The port's handle is found and names its device, in the mode it was opened in. Opening the
port again, in whatever mode and with whatever mapper, hands out the same handle and changes
nothing. -/
structure Stands (t : Driver μ R ports words bytes) (x : Opening) : Prop where
  found : t.descriptorFor? x.port = some x.descriptor
  mode : t.mode x.descriptor = .ok x.mode
  device : ∃ device, t.device x.descriptor = .ok device ∧ device.port = x.port
  again : ∀ [Mapper μ R] (mode : PortMode),
    let log := if x.mode = mode then [] else [.alreadyOpen x.port x.mode mode]
    t.tryOpen x.port mode = ⟨.ok x.descriptor, t, log⟩ ∧
      t.openPort x.port mode = ⟨x.descriptor, t, log⟩

/-- The slots are taken by the given openings, in their order. -/
structure Opened (s : Driver μ R ports words bytes) (known : List Opening) : Prop where
  invariant : s.Invariant
  initialized : s.initialized = true
  length_le : known.length ≤ ports
  slots : ∀ i : Fin ports,
    (s.entries.get i).map Entry.stands = known[i.val]?.map Opening.stands
  handles : ∀ (k : Nat) (x : Opening), known[k]? = some x → x.descriptor = .ofIndex k

structure SameSlots (s t : Driver μ R ports words bytes) : Prop where
  initialized : t.initialized = s.initialized
  slots : ∀ i, (t.entries.get i).map Entry.stands = (s.entries.get i).map Entry.stands

variable {s t : Driver μ R ports words bytes} {known : List Opening} {d : Descriptor}

theorem SameSlots.of_entries (hi : t.initialized = s.initialized) (he : t.entries = s.entries) :
    s.SameSlots t := ⟨hi, fun i => by rw [he]⟩

theorem Opened.of_sameSlots (h : s.Opened known) (ht : t.Invariant) (hst : s.SameSlots t) :
    t.Opened known where
  invariant := ht
  initialized := hst.initialized.trans h.initialized
  length_le := h.length_le
  slots i := (hst.slots i).trans (h.slots i)
  handles := h.handles

theorem withChannel_sameSlots {slot : Fin ports} {e : Entry ports}
    (he : s.entries.get slot = some e) (c : Channel words bytes) :
    s.SameSlots (s.withChannel slot e c) where
  initialized := rfl
  slots i := by
    apply get_setAt_congr s.entries (Option.map Entry.stands)
    rw [he]
    rfl

theorem hardware_sameSlots (s : Driver μ R ports words bytes) (port : Nat) (command : FifoCommand) :
    s.SameSlots (s.hardware port command).state := by
  unfold hardware
  split <;> exact .of_entries rfl rfl

theorem descriptorFor?_eq_some {port : Nat} (h : s.descriptorFor? port = some d) :
    ∃ (slot : Fin ports) (e : Entry ports),
      s.entries.get slot = some e ∧ e.port.val = port ∧ d = .ofIndex slot := by
  obtain ⟨slot, hfind, rfl⟩ := Option.map_eq_some_iff.1 h
  obtain ⟨e, he, hport⟩ := holdsPort_eq_true.1 (find?_finRange hfind).1
  exact ⟨slot, e, he, hport, rfl⟩

theorem Invariant.descriptorFor?_of_entry (h : s.Invariant) {slot : Fin ports} {e : Entry ports}
    (he : s.entries.get slot = some e) : s.descriptorFor? e.port = some (.ofIndex slot) := by
  rcases hd : s.descriptorFor? e.port with _ | d
  · exact absurd rfl (descriptorFor?_eq_none.1 hd slot e he)
  · obtain ⟨i, f, hf, hport, rfl⟩ := descriptorFor?_eq_some hd
    rw [h.distinct i slot f e hf he (Fin.ext hport)]

namespace Opened

theorem slot (h : s.Opened known) {k : Nat} {x : Opening} (hx : known[k]? = some x) :
    ∃ (slot : Fin ports) (e : Entry ports), slot.val = k ∧ s.entries.get slot = some e ∧
      e.port.val = x.port ∧ e.mode = x.mode := by
  obtain ⟨hk, -⟩ := List.getElem?_eq_some_iff.1 hx
  have hslot := h.slots ⟨k, Nat.lt_of_lt_of_le hk h.length_le⟩
  simp only [hx] at hslot
  obtain ⟨e, he, hstands⟩ := Option.map_eq_some_iff.1 hslot
  obtain ⟨hport, hmode⟩ := Prod.mk.inj hstands
  exact ⟨_, e, rfl, he, hport, hmode⟩

theorem opening (h : s.Opened known) {i : Fin ports} {e : Entry ports}
    (he : s.entries.get i = some e) : ∃ x, known[i.val]? = some x ∧ x.port = e.port := by
  have hslot := h.slots i
  rw [he] at hslot
  obtain ⟨x, hx, hstands⟩ := Option.map_eq_some_iff.1 hslot.symm
  exact ⟨x, hx, (Prod.mk.inj hstands).1⟩

theorem slot_lt_iff (h : s.Opened known) (i : Fin ports) :
    (s.entries.get i).isSome = true ↔ i.val < known.length := by
  rw [← Option.isSome_map (f := Entry.stands), h.slots i, Option.isSome_map, isSome_getElem?]

theorem nodup (h : s.Opened known) : (known.map Opening.port).Nodup := by
  rw [List.Nodup, List.pairwise_iff_getElem]
  intro i j hi hj hij hport
  simp only [List.length_map] at hi hj
  obtain ⟨a, e, rfl, he, hep, -⟩ := h.slot (List.getElem?_eq_getElem hi)
  obtain ⟨b, f, rfl, hf, hfp, -⟩ := h.slot (List.getElem?_eq_getElem hj)
  rw [List.getElem_map, List.getElem_map, ← hep, ← hfp] at hport
  have hab := h.invariant.distinct a b e f he hf (Fin.ext hport)
  omega

theorem descriptorFor? (h : s.Opened known) {k : Nat} {x : Opening} (hx : known[k]? = some x) :
    s.descriptorFor? x.port = some x.descriptor := by
  obtain ⟨slot, e, rfl, he, hport, -⟩ := h.slot hx
  rw [← hport, h.invariant.descriptorFor?_of_entry he, h.handles _ x hx]

theorem mem_ports (h : s.Opened known) {port : Nat} (hd : s.descriptorFor? port = some d) :
    port ∈ known.map Opening.port := by
  obtain ⟨slot, e, he, rfl, -⟩ := descriptorFor?_eq_some hd
  obtain ⟨x, hx, hport⟩ := h.opening he
  exact List.mem_map.2 ⟨x, List.mem_of_getElem? hx, hport⟩

theorem not_mem_ports (h : s.Opened known) {port : Nat} (hd : s.descriptorFor? port = none) :
    port ∉ known.map Opening.port := by
  intro hmem
  obtain ⟨x, hx, rfl⟩ := List.mem_map.1 hmem
  obtain ⟨k, hk⟩ := List.getElem?_of_mem hx
  cases hd.symm.trans (h.descriptorFor? hk)

theorem freeSlot (h : s.Opened known) {slot : Fin ports} (hf : s.freeSlot? = some slot) :
    slot.val = known.length := by
  obtain ⟨hnone, hbefore⟩ := freeSlot?_eq_some hf
  have hfree : ¬ slot.val < known.length := by
    rw [← h.slot_lt_iff slot, hnone]
    simp
  have htaken : ¬ known.length < slot.val := by
    intro hlt
    have hlast := hbefore ⟨known.length, by omega⟩ hlt
    rw [h.slot_lt_iff] at hlast
    exact Nat.lt_irrefl _ hlast
  omega

theorem claim (h : s.Opened known) {slot p : Fin ports} (hslot : slot.val = known.length)
    {mode : PortMode} (hc : (s.claim slot p mode).Invariant) :
    (s.claim slot p mode).Opened (known ++ [⟨p, mode, .ofIndex slot⟩]) where
  invariant := hc
  initialized := h.initialized
  length_le := by
    rw [List.length_append, List.length_singleton, ← hslot]
    exact slot.isLt
  slots i := by
    simp only [Driver.claim, get_setAt]
    split
    · rename_i hi
      rw [← hi, hslot, List.getElem?_concat_length]
      rfl
    · rename_i hi
      have hne : i.val ≠ known.length := fun he => hi (Fin.ext (hslot.trans he.symm))
      rw [h.slots i]
      rcases Nat.lt_or_gt_of_ne hne with hlt | hgt
      · rw [List.getElem?_append_left hlt]
      · rw [List.getElem?_eq_none (by omega), List.getElem?_eq_none (by simp; omega)]
  handles k x hx := by
    rcases Nat.lt_or_ge k known.length with hlt | hge
    · rw [List.getElem?_append_left hlt] at hx
      exact h.handles k x hx
    · have hk : k = known.length := by
        obtain ⟨hlt, -⟩ := List.getElem?_eq_some_iff.1 hx
        simp only [List.length_append, List.length_singleton] at hlt
        omega
      subst hk
      rw [List.getElem?_concat_length, Option.some.injEq] at hx
      rw [← hx, ← hslot]

theorem entry_ok (h : s.Opened known) (hports : ports < 2 ^ 32) {k : Nat} {x : Opening}
    (hx : known[k]? = some x) : ∃ (slot : Fin ports) (e : Entry ports), slot.val = k ∧
      s.entry x.descriptor = .ok (slot, e) ∧ e.port.val = x.port ∧ e.mode = x.mode := by
  obtain ⟨slot, e, rfl, he, hport, hmode⟩ := h.slot hx
  have hentry : s.entry x.descriptor = .ok (slot, e) := by
    rw [h.handles _ x hx]
    exact entry_ofIndex hports h.initialized he
  exact ⟨slot, e, rfl, hentry, hport, hmode⟩

theorem stands (h : s.Opened known) (hports : ports < 2 ^ 32) {k : Nat} {x : Opening}
    (hx : known[k]? = some x) : s.Stands x := by
  obtain ⟨slot, e, rfl, hentry, hport, hmode⟩ := h.entry_ok hports hx
  have hopen := (h.invariant.opened slot e (entry_eq_ok.1 hentry).2.2).1
  have hfound := h.descriptorFor? hx
  refine ⟨hfound, ?_, ?_, ?_⟩
  · rw [mode_eq_map, hentry, ← hmode]
    rfl
  · refine ⟨s.devices.get e.port, ?_, ?_⟩
    · rw [device_eq_map, hentry]
      rfl
    · rw [h.invariant.numbered h.initialized, hport]
  · intro _ mode
    rw [← hport] at hfound ⊢
    have ho := tryOpen_of_open h.initialized e.port hfound mode
    rw [hopen.mode_eq, hmode] at ho
    exact ⟨ho, by simp only [openPort, ho]; rfl⟩

theorem entry_ok_iff (h : s.Opened known) : (∃ found, s.entry d = .ok found) ↔
    1 ≤ d.raw.toNat ∧ d.raw.toNat ≤ known.length := by
  constructor
  · rintro ⟨⟨slot, e⟩, hentry⟩
    obtain ⟨-, hindex, he⟩ := entry_eq_ok.1 hentry
    have hraw := Descriptor.index?_eq_some.1 hindex
    have hlt := (h.slot_lt_iff slot).1 (by rw [he]; rfl)
    omega
  · rintro ⟨hpos, hle⟩
    have hindex : d.index? = some (d.raw.toNat - 1) := Descriptor.index?_eq_some.2 (by omega)
    have hlt : d.raw.toNat - 1 < known.length := by omega
    obtain ⟨slot, e, hslot, he, -⟩ := h.slot (List.getElem?_eq_getElem hlt)
    exact ⟨(slot, e), entry_eq_ok.2 ⟨h.initialized, hslot ▸ hindex, he⟩⟩

theorem device_port_injective (h : s.Opened known) {d' : Descriptor}
    {device device' : Device R words} (hd : s.device d = .ok device)
    (hd' : s.device d' = .ok device') (hport : device.port = device'.port) : d = d' := by
  have hlive {d : Descriptor} {device : Device R words} (hd : s.device d = .ok device) :
      ∃ slot e, d.index? = some slot.val ∧ s.entries.get slot = some e ∧
        device.port = e.port := by
    rw [device_eq_map] at hd
    rcases hentry : s.entry d with cause | ⟨slot, e⟩
    · rw [hentry] at hd
      cases hd
    · rw [hentry] at hd
      cases hd
      obtain ⟨hinit, hindex, he⟩ := entry_eq_ok.1 hentry
      exact ⟨slot, e, hindex, he, h.invariant.numbered hinit e.port⟩
  obtain ⟨i, e, hi, he, hep⟩ := hlive hd
  obtain ⟨j, f, hj, hf, hfp⟩ := hlive hd'
  have hij := h.invariant.distinct i j e f he hf (Fin.ext (hep.symm.trans (hport.trans hfp)))
  exact Descriptor.index?_injective hi (hij ▸ hj)

end Opened

theorem commonInit_opened (s : Driver μ R ports words bytes) : s.commonInit.state.Opened [] where
  invariant := commonInit_invariant s
  initialized := rfl
  length_le := Nat.zero_le ports
  slots := by simp [commonInit]
  handles := by simp

variable [Mapper μ R] {call : Call μ}

theorem Opened.tryOpen (h : s.Opened known) (port : Nat) (mode : PortMode) :
    (s.tryOpen port mode).state.Opened (Opening.note known
      ((s.tryOpen port mode).value.toOption.map fun d => ⟨port, mode, d⟩)) := by
  rcases s.tryOpen_cases port mode with ⟨cause, ho, -⟩ | ⟨d, log, hd, ho⟩ | ⟨p, rfl, -, hp, ho⟩
  · rw [ho]
    exact h
  · rw [ho]
    simp only [Except.toOption, Option.map_some, Opening.note, if_pos (h.mem_ports hd)]
    exact h
  · have hmapped : (s.afterMapping p).Opened known :=
      h.of_sameSlots (afterMapping_invariant h.invariant hp) (.of_entries rfl rfl)
    have hnext := tryOpen_invariant h.invariant p mode
    rw [ho] at hnext ⊢
    rcases s.openClosed_cases p mode with ⟨cause, hv, hs, -⟩ | ⟨slot, hslot, -, hv, hs⟩
    · rw [hv, hs]
      exact hmapped
    · rw [hs] at hnext
      rw [hv, hs]
      simp only [Except.toOption, Option.map_some, Opening.note, if_neg (h.not_mem_ports hp)]
      exact hmapped.claim (h.freeSlot hslot) hnext

theorem tryOpen_isValid (hports : ports < 2 ^ 32) {port : Nat} {mode : PortMode}
    (h : (s.tryOpen port mode).value = .ok d) : d.isValid = true := by
  have hslot (slot : Fin ports) : (Descriptor.ofIndex slot).isValid = true :=
    Descriptor.isValid_ofIndex (Nat.lt_of_le_of_lt slot.isLt hports)
  rcases s.tryOpen_cases port mode with ⟨cause, ho, -⟩ | ⟨d', log, hd, ho⟩ | ⟨p, -, -, -, ho⟩
  · rw [ho] at h
    cases h
  · rw [ho] at h
    cases h
    obtain ⟨slot, -, -, -, rfl⟩ := descriptorFor?_eq_some hd
    exact hslot slot
  · rw [ho] at h
    rcases s.openClosed_cases p mode with ⟨cause, hv, -⟩ | ⟨slot, -, -, hv, -⟩
    · cases hv.symm.trans h
    · cases hv.symm.trans h
      exact hslot slot

variable [RegisterAccess R]

/-- The ports opened so far and in a run, each with its first opening, in the order of these. -/
def openings (s : Driver μ R ports words bytes) (known : List Opening) :
    List (Call μ) → List Opening
  | [] => known
  | call :: rest =>
    let o := s.perform call
    o.state.openings (Opening.note known (call.opening? o.value)) rest

theorem openings_append (s : Driver μ R ports words bytes) (known : List Opening)
    (calls more : List (Call μ)) : s.openings known (calls ++ more) =
      (s.run calls).2.openings (s.openings known calls) more := by
  induction calls generalizing s known with
  | nil => rfl
  | cons call rest ih => exact ih _ _

theorem openings_grow (s : Driver μ R ports words bytes) (known : List Opening)
    (calls : List (Call μ)) : ∃ later, s.openings known calls = known ++ later := by
  induction calls generalizing s known with
  | nil => exact ⟨[], (List.append_nil known).symm⟩
  | cons call rest ih =>
    obtain ⟨now, hnow⟩ := Opening.note_grow known (call.opening? (s.perform call).value)
    obtain ⟨later, hlater⟩ := ih (s.perform call).state (known ++ now)
    refine ⟨now ++ later, ?_⟩
    rw [openings, hnow, hlater, List.append_assoc]

theorem opening?_tryOpen (s : Driver μ R ports words bytes) (port : Nat) (mode : PortMode) :
    (Call.tryOpen port mode).opening? (s.perform (.tryOpen port mode)).value =
      (s.tryOpen port mode).value.toOption.map fun d => ⟨port, mode, d⟩ := by
  simp only [perform, Outcome.reply]
  rcases (s.tryOpen port mode).value with cause | d <;> rfl

theorem opening?_openPort (hports : ports < 2 ^ 32) (s : Driver μ R ports words bytes)
    (port : Nat) (mode : PortMode) :
    (Call.openPort port mode).opening? (s.perform (.openPort port mode)).value =
      (s.tryOpen port mode).value.toOption.map fun d => ⟨port, mode, d⟩ := by
  simp only [perform, openPort]
  rcases hv : (s.tryOpen port mode).value with cause | d
  · rfl
  · have hd := tryOpen_isValid hports hv
    simp only [Except.toOption, Option.getD_some, Call.opening?, hd, if_true, Option.map_some]

/-- One call notes what it opened. -/
theorem Opened.perform (h : s.Opened known) (hports : ports < 2 ^ 32) (hcall : call ≠ .commonInit) :
    (s.perform call).state.Opened (Opening.note known (call.opening? (s.perform call).value)) := by
  have hnext := perform_invariant h.invariant call
  have hcontrol (hc : call.isControl = true) : (s.perform call).state.Opened known :=
    have hsame := s.isControl_same hc
    h.of_sameSlots hnext (.of_entries hsame.initialized hsame.entries)
  rcases hc : call.transfer? with _ | ⟨d, act⟩
  · cases call with
    | commonInit => exact absurd rfl hcall
    | tryOpen port mode =>
      rw [opening?_tryOpen]
      exact h.tryOpen port mode
    | openPort port mode =>
      rw [opening?_openPort hports]
      exact h.tryOpen port mode
    | setControl | discretePin => exact hcontrol rfl
    | fifos port command => exact h.of_sameSlots hnext (hardware_sameSlots s port command)
    | swapMapper | store => exact h.of_sameSlots hnext (.of_entries rfl rfl)
    | write | writeWord | transmit | nextTxWord | receive | read | readWord | poll => cases hc
    | _ => exact h
  · have hnone : call.opening? (s.perform call).value = none := by
      cases call <;> first | rfl | cases hc
    rw [hnone]
    rcases hr : s.resolve d .serial with cause | ⟨slot, e⟩
    · rw [perform_refused hc hr]
      exact h
    · rw [perform_transfer hc hr] at hnext ⊢
      exact h.of_sameSlots hnext (withChannel_sameSlots (resolve_entries hr).1 _)

theorem Opened.run (h : s.Opened known) (hports : ports < 2 ^ 32) {calls : List (Call μ)}
    (hcalls : .commonInit ∉ calls) : (s.run calls).2.Opened (s.openings known calls) := by
  induction calls generalizing s known with
  | nil => exact h
  | cons call rest ih =>
    obtain ⟨hcall, hrest⟩ := not_or.1 (mt List.mem_cons.2 hcalls)
    exact ih (h.perform hports (Ne.symm hcall)) hrest

/-- At every moment after common init and before the next one: the ports opened so far are
different, the first of them has handle one, the second handle two and so on, and each stands as
it was opened first, from then on. A handle is live exactly if it is one of these, and no two stand
for the same port. -/
theorem handles_count_openings (hports : ports < 2 ^ 32) (s : Driver μ R ports words bytes)
    {calls : List (Call μ)} (hcalls : .commonInit ∉ calls) :
    let openings := (s.perform .commonInit).state.openings []
    let opened := openings calls
    let t := (s.run (.commonInit :: calls)).2
    (opened.map Opening.port).Nodup ∧
      (∀ more, ∃ later, openings (calls ++ more) = opened ++ later) ∧
      (∀ k x, opened[k]? = some x → x.descriptor.raw.toNat = k + 1 ∧ t.Stands x) ∧
      (∀ d : Descriptor, (∃ found, t.entry d = .ok found) ↔
        1 ≤ d.raw.toNat ∧ d.raw.toNat ≤ opened.length) ∧
      ∀ d d' device device', t.device d = .ok device → t.device d' = .ok device' →
        device.port = device'.port → d = d' := by
  intro openings opened t
  have h : t.Opened opened := (commonInit_opened s).run hports hcalls
  refine ⟨h.nodup, fun more => ?_, fun k x hx => ?_, fun d => h.entry_ok_iff,
    fun d d' _ _ => h.device_port_injective⟩
  · obtain ⟨later, hlater⟩ := t.openings_grow opened more
    exact ⟨later, ((s.perform .commonInit).state.openings_append [] calls more).trans hlater⟩
  · obtain ⟨hk, -⟩ := List.getElem?_eq_some_iff.1 hx
    have hlt : k + 1 < 2 ^ 32 := by
      have := h.length_le
      omega
    rw [h.handles k x hx]
    exact ⟨Descriptor.toNat_ofIndex hlt, h.stands hports hx⟩

theorem handles_count_openings_sample :
    let s : Driver PlannedMapper RegisterBlock 3 1 2 := Driver.new 3 1 2
      (.ofPlans [(1, ⟨none, none, none, false, some .notConfigured⟩)]) Memory.zeroed
    let calls : List (Call PlannedMapper) := [.tryOpen 2 .serial, .tryOpen 1 .discrete,
      .swapMapper default, .openPort 1 .discrete, .tryOpen 2 .discrete, .tryOpen 3 .serial]
    let t := (s.run (.commonInit :: calls)).2
    (s.perform .commonInit).state.openings [] calls =
        [⟨2, .serial, .ofIndex 0⟩, ⟨1, .discrete, .ofIndex 1⟩] ∧
      t.Stands ⟨2, .serial, .ofIndex 0⟩ ∧ t.Stands ⟨1, .discrete, .ofIndex 1⟩ ∧
      ¬ ∃ found, t.entry (.ofIndex 2) = .ok found := by
  intro s calls t
  have hcalls : .commonInit ∉ calls := by simp [calls]
  have hopened : (s.perform .commonInit).state.openings [] calls =
      [⟨2, .serial, .ofIndex 0⟩, ⟨1, .discrete, .ofIndex 1⟩] := by
    decide +kernel
  obtain ⟨-, -, hstands, hlive, -⟩ := handles_count_openings (by decide) s hcalls
  rw [hopened] at hstands hlive
  exact ⟨hopened, (hstands 0 _ rfl).2, (hstands 1 _ rfl).2, mt (hlive _).1 (by decide)⟩

end Driver

end PolledUart
