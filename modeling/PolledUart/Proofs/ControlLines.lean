import PolledUart.Proofs.FailedCalls
import PolledUart.Proofs.Registers

/-!
# Control lines own their bits

What a run makes of a register block follows from the replies to the calls that drive a line of a
port bound there: each line's bit is where the last successful one left it, all other bits are
where they were. A line can be asked for its level at any time, and a pin held on it acts like a
switch that starts at the bit's level.
-/

set_option autoImplicit false

namespace PolledUart

namespace PinAct

def turn (level : Bool) : PinAct → Bool
  | .setHigh => true
  | .setLow => false
  | .set high => high
  | .toggle => !level
  | .descriptor | .isHigh | .isLow => level

def answer (d : Descriptor) (level : Bool) : PinAct → PinReply
  | .descriptor => .descriptor d
  | .isHigh => .level level
  | .isLow => .level !level
  | .setHigh | .setLow | .set _ | .toggle => .done

def replies (d : Descriptor) (level : Bool) : List PinAct → List (Except Error PinReply)
  | [] => []
  | act :: acts => .ok (act.answer d level) :: replies d (act.turn level) acts

def turnAll (level : Bool) : List PinAct → List (Except Error PinReply) → Bool
  | act :: acts, reply :: replies =>
    turnAll (if reply.isOk then act.turn level else level) acts replies
  | _, _ => level

theorem turnAll_replies (d : Descriptor) (level : Bool) (acts : List PinAct) :
    turnAll level acts (replies d level acts) = acts.foldl turn level := by
  induction acts generalizing level with
  | nil => rfl
  | cons act acts ih => exact ih (act.turn level)

end PinAct

/-- The level of a line after a call on a port of its site, going by the reply. -/
def Call.turn {μ : Type} {words : Nat} (line : ControlLine) (level : Bool) :
    Call μ → Reply μ RegisterBlock words → Bool
  | .setControl driven on _, .ok _ => if driven = line then on else level
  | .discretePin _ acts, .ok (.pins replies) =>
    if line = .discrete then PinAct.turnAll level acts replies else level
  | _, _ => level

namespace Driver

variable {μ : Type} {ports words bytes : Nat}

def targetSite? (s : Driver μ RegisterBlock ports words bytes) (call : Call μ) :
    Option (Site ports) :=
  call.target?.bind fun (d, _) =>
    match s.entry d with
    | .ok (_, e) => s.site? e.port
    | .error _ => none

def turned [Mapper μ RegisterBlock] (s : Driver μ RegisterBlock ports words bytes)
    (call : Call μ) (σ : Site ports) (line : ControlLine) (level : Bool) : Bool :=
  if s.targetSite? call = some σ then call.turn line level (s.perform call).value else level

/-- The level of a line of a site after a run: where the last call left it that drove the line at
a port of the site. -/
def lastLevel [Mapper μ RegisterBlock] (s : Driver μ RegisterBlock ports words bytes)
    (σ : Site ports) (line : ControlLine) (level : Bool) : List (Call μ) → Bool
  | [] => level
  | call :: rest => (s.perform call).state.lastLevel σ line (s.turned call σ line level) rest

/-- The bound ports stay at their sites, where the lines are turned and nothing else changes. -/
structure Turns (s t : Driver μ RegisterBlock ports words bytes)
    (turn : Site ports → ControlLine → Bool → Bool) : Prop where
  site : ∀ p σ, s.site? p = some σ → t.site? p = some σ
  others : ∀ p σ, s.site? p = some σ →
    ChangedIn ControlLine.allBits (s.register p) (t.register p)
  level : ∀ p σ line, s.site? p = some σ → t.level p line = turn σ line (s.level p line)

variable {s t u : Driver μ RegisterBlock ports words bytes} {m : μ}
  {sites : Fin ports → Option (Site ports)} {p q : Fin ports} {σ : Site ports}
  {line : ControlLine} {d : Descriptor} {slot : Fin ports} {e : Entry ports}

theorem control_level (hr : s.resolve d line.mode = .ok (slot, e)) (hσ : s.site? e.port = some σ) :
    s.control line d = .ok (s.level e.port line) := by
  obtain ⟨block, hb, -⟩ := site?_eq_some hσ
  have hregisters : (s.devices.get e.port).binding.registers = some block := hb
  simp only [control, hr, hregisters, level, register_of_registers? hb]
  rfl

theorem Turns.trans {f g : Site ports → ControlLine → Bool → Bool} (h : s.Turns t f)
    (h' : t.Turns u g) : s.Turns u fun σ line level => g σ line (f σ line level) where
  site p σ hp := h'.site p σ (h.site p σ hp)
  others p σ hp := (h.others p σ hp).trans (h'.others p σ (h.site p σ hp))
  level p σ line hp := by rw [h'.level p σ line (h.site p σ hp), h.level p σ line hp]

theorem Invariant.site (h : s.Invariant) {mode : PortMode}
    (hr : s.resolve d mode = .ok (slot, e)) : ∃ σ, s.site? e.port = some σ := by
  obtain ⟨block, hb⟩ := Option.ne_none_iff_exists'.1 (h.registers hr)
  exact ⟨_, site?_of_registers? hb⟩

theorem new_bound (m : μ) (memory : Memory) (sites : Fin ports → Option (Site ports)) :
    (Driver.new ports words bytes m memory).Bound m sites := by
  refine ⟨rfl, fun p block hb => ?_⟩
  simp only [registers?, Driver.new, get_replicate] at hb
  cases hb

variable [Mapper μ RegisterBlock]

theorem setControl_steers (line : ControlLine) (hm : Mapper.Steady m sites) (hs : s.Bound m sites)
    (hr : s.resolve d line.mode = .ok (slot, e)) (hσ : s.site? e.port = some σ) (on : Bool) :
    ∃ t log, s.setControl line on d = ⟨.ok (), t, log⟩ ∧ s.Steers t σ line ∧
      t.level e.port line = on := by
  obtain ⟨block, hb, rfl⟩ := site?_eq_some hσ
  exact ⟨_, _, setControl_ok hr hb on, withControl_steers hm hs hb line on⟩

theorem actPin_steers (hm : Mapper.Steady m sites) (hs : s.Bound m sites)
    (hr : s.resolve d .discrete = .ok (slot, e)) (hσ : s.site? e.port = some σ) (act : PinAct) :
    ∃ t log, s.actPin d act = ⟨.ok (act.answer d (s.level e.port .discrete)), t, log⟩ ∧
      s.Steers t σ .discrete ∧
      t.level e.port .discrete = act.turn (s.level e.port .discrete) := by
  have hset (on : Bool) : ∃ t log, s.setPin d on = ⟨.ok .done, t, log⟩ ∧ s.Steers t σ .discrete ∧
      t.level e.port .discrete = on := by
    obtain ⟨t, log, hset, ht⟩ := setControl_steers .discrete hm hs hr hσ on
    exact ⟨t, log, by simp only [setPin, hset]; rfl, ht⟩
  have hcontrol : s.control .discrete d = .ok (s.level e.port .discrete) := control_level hr hσ
  cases act with
  | setHigh => exact hset true
  | setLow => exact hset false
  | set high => exact hset high
  | toggle =>
    simp only [actPin, hcontrol]
    exact hset _
  | descriptor => exact ⟨s, [], rfl, .refl s σ _, rfl⟩
  | isHigh => exact ⟨s, [], by simp only [actPin, hcontrol]; rfl, .refl s σ _, rfl⟩
  | isLow => exact ⟨s, [], by simp only [actPin, hcontrol]; rfl, .refl s σ _, rfl⟩

theorem actPins_steers (hm : Mapper.Steady m sites) (hs : s.Bound m sites)
    (hr : s.resolve d .discrete = .ok (slot, e)) (hσ : s.site? e.port = some σ)
    (acts : List PinAct) :
    ∃ t log, s.actPins d acts = ⟨PinAct.replies d (s.level e.port .discrete) acts, t, log⟩ ∧
      s.Steers t σ .discrete ∧
      t.level e.port .discrete = acts.foldl PinAct.turn (s.level e.port .discrete) := by
  induction acts generalizing s with
  | nil => exact ⟨s, [], rfl, .refl s σ _, rfl⟩
  | cons act acts ih =>
    obtain ⟨t, log, hact, ht, hlevel⟩ := actPin_steers hm hs hr hσ act
    -- The act changed no entry and no site, so the pin is still held on the same port.
    obtain ⟨u, log', hacts, hu, hlast⟩ :=
      ih (ht.bound hs) ((ht.same.resolve d _).trans hr) ((ht.sites e.port).trans hσ)
    refine ⟨u, log ++ log', ?_, ht.trans hu, ?_⟩
    · simp only [actPins, hact, hacts, hlevel, PinAct.replies]
    · rw [hlast, hlevel, List.foldl_cons]

theorem KeepsRegisters.turned {call : Call μ} (h : s.KeepsRegisters (s.perform call).state)
    (hturn : ∀ line level, call.turn line level (s.perform call).value = level) :
    s.Turns (s.perform call).state (s.turned call) := by
  refine ⟨fun p σ hp => h.site hp, fun p σ hp => ?_, fun p σ line hp => ?_⟩
  · rw [h.register hp]
    exact .refl _ _
  · rw [Driver.turned, hturn, ite_self, level, level, h.register hp]

theorem Steers.turned {call : Call μ} {answer : Answer μ RegisterBlock words} {log : List Event}
    (h : s.Steers t σ line) (hr : s.resolve d line.mode = .ok (slot, e))
    (hσ : s.site? e.port = some σ) (hc : call.target? = some (d, some line.mode))
    (hdone : s.perform call = ⟨.ok answer, t, log⟩)
    (hline : call.turn line (s.level e.port line) (.ok answer : Reply μ RegisterBlock words) =
      t.level e.port line)
    (hother : ∀ other level, other ≠ line →
      call.turn other level (.ok answer : Reply μ RegisterBlock words) = level) :
    s.Turns t (s.turned call) := by
  have htarget : s.targetSite? call = some σ := by
    simp only [targetSite?, hc, Option.bind_some, (resolve_eq_ok.1 hr).1, hσ]
  refine ⟨fun q τ hq => (h.sites q).trans hq, fun q _ _ => h.changedIn q, fun q τ other hq => ?_⟩
  rw [Driver.turned, htarget, hdone]
  split
  · rename_i hτ
    cases hτ
    by_cases ho : other = line
    · subst ho
      rw [level_eq_of_site hσ hq, hline]
      exact level_eq_of_site ((h.sites e.port).trans hσ) ((h.sites q).trans hq) other
    · rw [hother other _ ho]
      exact h.level fun _ => ho
  · rename_i hne
    exact h.level fun hτ => absurd (hτ.symm.trans hq) hne

theorem turned_of_error {call : Call μ} {f : Failure} {log : List Event}
    (h : s.perform call = ⟨.error f, s, log⟩) : s.Turns (s.perform call).state (s.turned call) := by
  have hkeeps : s.KeepsRegisters (s.perform call).state := by
    rw [h]
    exact .refl s
  refine hkeeps.turned fun line level => ?_
  rw [h]
  cases call <;> rfl

theorem setControl_turns (hinv : s.Invariant) (hm : Mapper.Steady m sites) (hs : s.Bound m sites)
    (line : ControlLine) (on : Bool) (d : Descriptor) :
    let call : Call μ := .setControl line on d
    (s.perform call).state.Bound m sites ∧ s.Turns (s.perform call).state (s.turned call) := by
  intro call
  rcases hr : s.resolve d line.mode with cause | ⟨slot, e⟩
  · have hrefused : s.perform call = ⟨.error (.general (.setup cause)), s, []⟩ := by
      simp only [call, perform, setControl, hr, Outcome.reply]
    exact ⟨by rw [hrefused]; exact hs, turned_of_error hrefused⟩
  · obtain ⟨σ, hσ⟩ := hinv.site hr
    obtain ⟨t, log, hset, ht, hlevel⟩ := setControl_steers line hm hs hr hσ on
    have hdone : s.perform call = ⟨.ok .done, t, log⟩ := by
      simp only [call, perform, hset, Outcome.reply]
    have hturns : s.Turns t (s.turned call) := by
      refine ht.turned hr hσ rfl hdone ?_ fun other level ho => if_neg (Ne.symm ho)
      rw [hlevel]
      exact if_pos rfl
    rw [hdone]
    exact ⟨ht.bound hs, hturns⟩

theorem discretePin_turns (hinv : s.Invariant) (hm : Mapper.Steady m sites) (hs : s.Bound m sites)
    (d : Descriptor) (acts : List PinAct) :
    let call : Call μ := .discretePin d acts
    (s.perform call).state.Bound m sites ∧ s.Turns (s.perform call).state (s.turned call) := by
  intro call
  rcases hr : s.resolve d .discrete with cause | ⟨slot, e⟩
  · have hrefused : s.perform call = ⟨.error (.pin (.setup cause)), s, []⟩ := by
      simp only [call, perform, discretePin, hr, Outcome.reply]
    exact ⟨by rw [hrefused]; exact hs, turned_of_error hrefused⟩
  · obtain ⟨σ, hσ⟩ := hinv.site hr
    obtain ⟨t, log, hacts, ht, hlevel⟩ := actPins_steers hm hs hr hσ acts
    have hdone : s.perform call =
        ⟨.ok (.pins (PinAct.replies d (s.level e.port .discrete) acts)), t, log⟩ := by
      simp only [call, perform, discretePin, hr, hacts, Outcome.reply]
    have hturns : s.Turns t (s.turned call) := by
      refine ht.turned hr hσ rfl hdone ?_ fun other level ho => if_neg ho
      rw [hlevel, ← PinAct.turnAll_replies d]
      rfl
    rw [hdone]
    exact ⟨ht.bound hs, hturns⟩

/-- Every call turns the lines of its target's site as its reply says, and nothing else. -/
theorem perform_turns (hinv : s.Invariant) (hm : Mapper.Steady m sites) (hs : s.Bound m sites)
    {call : Call μ} (hplain : call.isPlain = true) :
    (s.perform call).state.Bound m sites ∧ s.Turns (s.perform call).state (s.turned call) := by
  rcases hc : call.isControl
  · obtain ⟨hkeeps, hbound⟩ := perform_keeps hm hs hplain hc
    refine ⟨hbound, hkeeps.turned fun line level => ?_⟩
    cases call with
    | setControl | control | discretePin => cases hc
    | _ => rfl
  · cases call with
    | setControl line on d => exact setControl_turns hinv hm hs line on d
    | discretePin d acts => exact discretePin_turns hinv hm hs d acts
    | control line d =>
      have hkeeps : s.KeepsRegisters (s.perform (.control line d)).state := .refl s
      exact ⟨hs, hkeeps.turned fun _ _ => rfl⟩
    | _ => cases hc

theorem run_turns (hinv : s.Invariant) (hm : Mapper.Steady m sites) (hs : s.Bound m sites)
    {calls : List (Call μ)} (hplain : ∀ call ∈ calls, call.isPlain = true) :
    (s.run calls).2.Bound m sites ∧
      s.Turns (s.run calls).2 fun σ line level => s.lastLevel σ line level calls := by
  induction calls generalizing s with
  | nil => exact ⟨hs, fun _ _ hp => hp, fun _ _ _ => .refl _ _, fun _ _ _ _ => rfl⟩
  | cons call rest ih =>
    obtain ⟨hcall, hrest⟩ := List.forall_mem_cons.1 hplain
    obtain ⟨hbound, hturns⟩ := perform_turns hinv hm hs hcall
    obtain ⟨hfinal, hothers⟩ := ih (perform_invariant hinv call) hbound hrest
    exact ⟨hfinal, hturns.trans hothers⟩

/-- What the calls between two moments make of the registers bound at the first one, and what
can be asked and done at the second. -/
structure LinesOwnBits (u v : Driver μ RegisterBlock ports words bytes) (calls : List (Call μ)) :
    Prop where
  bound : ∀ p σ, u.site? p = some σ → v.site? p = some σ
  others : ∀ p q σ, u.site? p = some σ → v.site? q = some σ →
    ChangedIn (ModemControl.loopback ||| ModemControl.discreteLine) (u.register p) (v.register q)
  lines : ∀ p q σ line, u.site? p = some σ → v.site? q = some σ →
    v.level q line = u.lastLevel σ line (u.level p line) calls
  driven : ∀ d line on slot e, v.resolve d line.mode = .ok (slot, e) →
    (v.setControl line on d).value = .ok ()
  asked : ∀ d line slot e, v.resolve d line.mode = .ok (slot, e) →
    v.control line d = .ok (v.level e.port line)
  held : ∀ d acts slot e, v.resolve d .discrete = .ok (slot, e) →
    (v.discretePin d acts).value = .ok (PinAct.replies d (v.level e.port .discrete) acts)
  data : ∀ call : Call μ, call.isControl = true → v.SameButRegisters (v.perform call).state
  registers : ∀ call : Call μ, call.isPlain = true → call.isControl = false →
    v.KeepsRegisters (v.perform call).state

theorem linesOwnBits_of_steady (hm : Mapper.Steady m sites) (memory : Memory)
    {before after : List (Call μ)} (hplain : ∀ call ∈ before ++ after, call.isPlain = true) :
    let u := ((Driver.new ports words bytes m memory).run before).2
    u.LinesOwnBits (u.run after).2 after := by
  intro u
  obtain ⟨hbefore, hafter⟩ := List.forall_mem_append.1 hplain
  have hu : u.Invariant := reachable_invariant ⟨m, memory, before, rfl⟩
  obtain ⟨hubound, -⟩ := run_turns (new_invariant m memory) hm (new_bound m memory sites) hbefore
  obtain ⟨hvbound, hturns⟩ := run_turns hu hm hubound hafter
  have hv := run_invariant hu after
  refine ⟨hturns.site, fun p q σ hp hq => ?_, fun p q σ line hp hq => ?_, ?_, ?_, ?_, ?_, ?_⟩
  · rw [register_eq_of_site (hturns.site p σ hp) hq]
    exact hturns.others p σ hp
  · rw [level_eq_of_site (hturns.site p σ hp) hq]
    exact hturns.level p σ line hp
  · intro d line on slot e hr
    obtain ⟨σ, hσ⟩ := hv.site hr
    obtain ⟨t, log, hset, -⟩ := setControl_steers line hm hvbound hr hσ on
    rw [hset]
  · intro d line slot e hr
    obtain ⟨σ, hσ⟩ := hv.site hr
    exact control_level hr hσ
  · intro d acts slot e hr
    obtain ⟨σ, hσ⟩ := hv.site hr
    obtain ⟨t, log, hacts, -⟩ := actPins_steers hm hvbound hr hσ acts
    simp only [discretePin, hr, hacts]
  · exact fun call hc => isControl_same _ hc
  · exact fun call hcall hc => (perform_keeps hm hvbound hcall hc).1

/-- With shadow registers, and with a table of blocks that do not overlap, the bit of each control
line in a register block is always the one that the last successful call on the line left there,
through whatever port, or the one that the block had when a port was first bound to it. All other
bits of the block stay as they were. A line of a live descriptor can be driven, tells its bit when
it is asked for, and is acted on by a held pin. Calls on control lines change nothing but this, and
no other call changes a register. -/
theorem control_lines_own_bits (ports words bytes : Nat) (memory : Memory) :
    (∀ before after : List (Call ShadowMapper),
      (∀ call ∈ before ++ after, call.isPlain = true) →
        let u := ((Driver.new ports words bytes ⟨⟩ memory).run before).2
        u.LinesOwnBits (u.run after).2 after) ∧
    ∀ m : TableMapper, m.BlocksApart → ∀ before after : List (Call TableMapper),
      (∀ call ∈ before ++ after, call.isPlain = true) →
        let u := ((Driver.new ports words bytes m memory).run before).2
        u.LinesOwnBits (u.run after).2 after :=
  ⟨fun _ _ hplain => linesOwnBits_of_steady (ShadowMapper.steady ⟨⟩) memory hplain,
    fun _ hm _ _ hplain => linesOwnBits_of_steady (TableMapper.steady hm) memory hplain⟩

theorem control_lines_own_bits_sample :
    let memory := Memory.zeroed.store 20 0xA5
    let u := ((Driver.new 3 1 2 (⟨[16, 0, 16]⟩ : TableMapper) memory).run
      [.commonInit, .tryOpen 0 .discrete]).2
    let v := (u.run [.discretePin (.ofIndex 0) [.toggle, .isHigh], .tryOpen 2 .serial,
      .setControl .loopback true (.ofIndex 1), .commonInit, .tryOpen 2 .discrete]).2
    v.register 2 Register.modemControl &&& ~~~0x12 = 0xA5 ∧ v.level 2 .loopback = true ∧
      v.level 2 .discrete = true ∧ v.control .discrete (.ofIndex 0) = .ok true := by
  intro memory u v
  have h := (control_lines_own_bits 3 1 2 memory).2 ⟨[16, 0, 16]⟩ (by decide)
    [.commonInit, .tryOpen 0 .discrete]
    [.discretePin (.ofIndex 0) [.toggle, .isHigh], .tryOpen 2 .serial,
      .setControl .loopback true (.ofIndex 1), .commonInit, .tryOpen 2 .discrete] (by decide)
  have hu : u.site? 0 = some (.memory 16) := by decide +kernel
  have hv : v.site? 2 = some (.memory 16) := by decide +kernel
  have hr : v.resolve (.ofIndex 0) .discrete = .ok (0, .new 2 .discrete) := by decide +kernel
  have hbits := (h.others 0 2 _ hu hv).control
  have hloopback := h.lines 0 2 _ .loopback hu hv
  have hdiscrete := h.lines 0 2 _ .discrete hu hv
  have hasked := h.asked (.ofIndex 0) .discrete 0 (.new 2 .discrete) hr
  have hset : v.level 2 .discrete = true := hdiscrete.trans (by decide +kernel)
  exact ⟨hbits.trans (by decide +kernel), hloopback.trans (by decide +kernel), hset,
    hasked.trans (congrArg Except.ok hset)⟩

end Driver

end PolledUart
