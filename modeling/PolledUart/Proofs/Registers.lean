import PolledUart.Proofs.Consistency
import PolledUart.Proofs.Independence

/-!
# Registers over a run

A port's registers are kept at one site: in a file of its own, or in a block of memory that other
ports may be bound to as well. A mapper is steady if it never changes, binds each port at one
site whenever it is asked, and no two sites overlap. Under a steady mapper a bound port stays at
its site, every port of a site reads the same, and a change of a control line changes one bit of
one register there and of no other site.
-/

set_option autoImplicit false

namespace PolledUart

section bits

variable (v b c : UInt8)

theorem or_and_cancel : (v ||| b) &&& b = b := by
  rw [← UInt8.toBitVec_inj]
  ext i hi
  simp only [UInt8.toBitVec_and, UInt8.toBitVec_or, BitVec.getElem_and, BitVec.getElem_or]
  exact Bool.and_eq_right_iff_imp.2 fun hb => by rw [hb, Bool.or_true]

theorem or_and_not_cancel : (v ||| b) &&& ~~~b = v &&& ~~~b := by
  rw [← UInt8.toBitVec_inj]
  ext i hi
  simp only [UInt8.toBitVec_and, UInt8.toBitVec_or, UInt8.toBitVec_not, BitVec.getElem_and,
    BitVec.getElem_or, BitVec.getElem_not]
  cases b.toBitVec[i] <;> simp

theorem not_or_eq_and : ~~~(b ||| c) = ~~~b &&& ~~~c := by
  rw [← UInt8.toBitVec_inj]
  ext i hi
  simp

end bits

/-- Where the registers of a port are kept. -/
inductive Site (ports : Nat) where
  | file (port : Fin ports)
  | memory (base : Nat)
  deriving DecidableEq, Repr

/-- At most the given bits of the modem control register changed. -/
structure ChangedIn (bits : UInt8) (old new : Nat → UInt8) : Prop where
  others : ∀ offset, offset ≠ Register.modemControl → new offset = old offset
  control : new Register.modemControl &&& ~~~bits = old Register.modemControl &&& ~~~bits

namespace ChangedIn

variable {bits more : UInt8} {old mid new : Nat → UInt8}

theorem refl (bits : UInt8) (old : Nat → UInt8) : ChangedIn bits old old := ⟨fun _ _ => rfl, rfl⟩

theorem trans (h : ChangedIn bits old mid) (h' : ChangedIn bits mid new) :
    ChangedIn bits old new :=
  ⟨fun offset ho => (h'.others offset ho).trans (h.others offset ho), h'.control.trans h.control⟩

theorem mono (h : ChangedIn bits old new) (hm : bits ||| more = more) :
    ChangedIn more old new := by
  refine ⟨h.others, ?_⟩
  rw [← hm, not_or_eq_and, ← UInt8.and_assoc, h.control, UInt8.and_assoc]

theorem and_eq (h : ChangedIn bits old new) (hm : ~~~bits &&& more = more) :
    new Register.modemControl &&& more = old Register.modemControl &&& more := by
  rw [← hm, ← UInt8.and_assoc, h.control, UInt8.and_assoc]

end ChangedIn

namespace ControlLine

def allBits : UInt8 := ControlLine.loopback.bits ||| ControlLine.discrete.bits

theorem bits_or_allBits (line : ControlLine) : line.bits ||| allBits = allBits := by
  cases line <;> rfl

theorem not_bits_and {line other : ControlLine} (h : other ≠ line) :
    ~~~line.bits &&& other.bits = other.bits := by
  cases line <;> cases other <;> first | rfl | exact absurd rfl h

theorem change_and (line : ControlLine) (on : Bool) (v : UInt8) :
    (line.change on v &&& line.bits == line.bits) = on := by
  cases on with
  | true =>
    rw [beq_iff_eq]
    exact or_and_cancel v line.bits
  | false =>
    have hzero : line.change false v &&& line.bits = 0 := by
      show v &&& ~~~line.bits &&& line.bits = 0
      rw [UInt8.and_assoc, UInt8.not_and_self, UInt8.and_zero]
    rw [hzero]
    cases line <;> rfl

theorem change_and_not (line : ControlLine) (on : Bool) (v : UInt8) :
    line.change on v &&& ~~~line.bits = v &&& ~~~line.bits := by
  cases on with
  | true => exact or_and_not_cancel v line.bits
  | false =>
    show v &&& ~~~line.bits &&& ~~~line.bits = v &&& ~~~line.bits
    rw [UInt8.and_assoc, UInt8.and_self]

end ControlLine

namespace RegisterBlock

def site {ports : Nat} (block : RegisterBlock) (p : Fin ports) : Site ports :=
  match block with
  | .shadow _ => .file p
  | .mapped base => .memory base

variable (block : RegisterBlock) (m : Memory) {offset : Nat} (f : UInt8 → UInt8)

theorem site_modify {ports : Nat} (p : Fin ports) :
    (RegisterAccess.modify block m offset f).1.site p = block.site p := by
  cases block <;> rfl

theorem read_modify (h : offset < Register.count) (other : Nat) :
    (RegisterAccess.modify block m offset f).1.read
        (RegisterAccess.modify block m offset f).2 other =
      if other = offset then f (block.read m offset) else block.read m other := by
  split
  · rename_i ho
    rw [ho]
    exact block.read_write_self m h _
  · rename_i ho
    exact block.read_write_of_ne m ho _

theorem read_modify_apart {a b : Nat} (h : offset < Register.count)
    (hab : a + Register.count ≤ b ∨ b + Register.count ≤ a) (other : Nat) :
    (mapped b).read (RegisterAccess.modify (mapped a) m offset f).2 other =
      (mapped b).read m other := by
  simp only [read]
  split
  · apply modify_frame
    simp only [address?, ne_eq, Option.some.injEq]
    omega
  · rfl

/-- The block of another port sees a change only if it is the same block of memory. -/
theorem read_modify_other {ports : Nat} {p q : Fin ports} (hpq : p ≠ q) (other : RegisterBlock)
    (h : offset < Register.count)
    (hapart : ∀ a b, block = mapped a → other = mapped b →
      a = b ∨ a + Register.count ≤ b ∨ b + Register.count ≤ a) (place : Nat) :
    other.read (RegisterAccess.modify block m offset f).2 place =
      if other.site q = block.site p ∧ place = offset then f (other.read m offset)
      else other.read m place := by
  cases other with
  | shadow registers =>
    have hne : (shadow registers).site q ≠ block.site p := by
      cases block with
      | shadow registers' => exact fun hsite => hpq (Site.file.inj hsite).symm
      | mapped a => exact nofun
    rw [if_neg fun h => hne h.1]
    rfl
  | mapped b =>
    cases block with
    | shadow registers =>
      rw [if_neg fun h => nomatch h.1]
      rfl
    | mapped a =>
      rcases hapart a b rfl rfl with rfl | hab
      · have hsite : (mapped a).site q = (mapped a).site p := rfl
        simp only [hsite, true_and]
        exact (mapped a).read_modify m f h place
      · have hne : b ≠ a := by
          simp only [Register.count] at hab
          omega
        rw [if_neg fun h => hne (Site.memory.inj h.1)]
        exact read_modify_apart m f h hab place

end RegisterBlock

/-- A mapper that stays as it is and always binds a port at the same site. What is bound there
stays, and blocks of memory are the same or apart. -/
structure Mapper.Steady {μ : Type} [Mapper μ RegisterBlock] {ports : Nat} (m : μ)
    (sites : Fin ports → Option (Site ports)) : Prop where
  same : ∀ (p : Fin ports) (b : Binding RegisterBlock), (Mapper.map m p b).mapper = m
  keeps : ∀ (p : Fin ports) (b : Binding RegisterBlock) (block : RegisterBlock),
    b.registers = some block → sites p = some (block.site p) →
      (Mapper.map m p b).binding.registers = some block
  places : ∀ (p : Fin ports) (b : Binding RegisterBlock) (block : RegisterBlock),
    b.registers = none → (Mapper.map m p b).binding.registers = some block →
      sites p = some (block.site p)
  apart : ∀ (p q : Fin ports) (x y : Nat), sites p = some (.memory x) →
    sites q = some (.memory y) → x = y ∨ x + Register.count ≤ y ∨ y + Register.count ≤ x

theorem ShadowMapper.steady {ports : Nat} (m : ShadowMapper) :
    Mapper.Steady m fun p : Fin ports => some (.file p) where
  same _ _ := rfl
  keeps p b block hb _ := by
    simp only [Mapper.map, bind, hb]
    rcases deviceNames[p.val]? with _ | name
    · exact hb
    · rfl
  places p b block hb hnew := by
    rcases hname : deviceNames[p.val]? with _ | name
    · simp only [Mapper.map, bind, hname] at hnew
      exact nomatch hb.symm.trans hnew
    · simp only [Mapper.map, bind, hname, hb] at hnew
      cases hnew
      rfl
  apart _ _ _ _ hx _ := nomatch hx

namespace TableMapper

def site? {ports : Nat} (m : TableMapper) (p : Fin ports) : Option (Site ports) :=
  (m.base? p).map .memory

/-- Two blocks of the table are the same or do not overlap. -/
def BlocksApart (m : TableMapper) : Prop :=
  ∀ a ∈ m.bases, ∀ b ∈ m.bases, a ≠ 0 → b ≠ 0 →
    a = b ∨ a + Register.count ≤ b ∨ b + Register.count ≤ a

instance (m : TableMapper) : Decidable m.BlocksApart :=
  inferInstanceAs (Decidable (∀ a ∈ m.bases, ∀ b ∈ m.bases, a ≠ 0 → b ≠ 0 →
    a = b ∨ a + Register.count ≤ b ∨ b + Register.count ≤ a))

variable {m : TableMapper} {port base : Nat}

theorem base?_eq_some (h : m.base? port = some base) : base ∈ m.bases ∧ base ≠ 0 := by
  obtain ⟨hget, hne⟩ := Option.filter_eq_some_iff.1 h
  exact ⟨List.mem_of_getElem? hget, by simpa using hne⟩

theorem bind_registers {b : Binding RegisterBlock} (hbase : m.base? port = some base) :
    ∃ bound, m.bind port b = .ok bound ∧ bound.registers = some (.mapped base) := by
  simp only [bind, hbase, RegisterBlock.mapped?, if_neg (base?_eq_some hbase).2]
  exact ⟨_, rfl, rfl⟩

theorem bind_refused {b : Binding RegisterBlock} (hbase : m.base? port = none) :
    m.bind port b = .error .mappingFailed := by
  simp only [bind, hbase]

theorem steady {ports : Nat} (h : m.BlocksApart) :
    Mapper.Steady m (m.site? : Fin ports → Option (Site ports)) where
  same p b := by
    simp only [Mapper.map]
    split <;> rfl
  keeps p b block hb hsite := by
    obtain ⟨base, hbase, hblock⟩ := Option.map_eq_some_iff.1 hsite
    obtain ⟨bound, hbind, hbound⟩ := bind_registers (b := b) hbase
    cases block with
    | shadow registers => cases hblock
    | mapped x =>
      cases hblock
      simp only [Mapper.map, hbind, hbound]
  places p b block hb hnew := by
    rcases hbase : m.base? p with _ | base
    · simp only [Mapper.map, bind_refused hbase] at hnew
      exact nomatch hb.symm.trans hnew
    · obtain ⟨bound, hbind, hbound⟩ := bind_registers (b := b) hbase
      simp only [Mapper.map, hbind] at hnew
      cases hbound.symm.trans hnew
      simp only [site?, hbase]
      rfl
  apart p q x y hx hy := by
    obtain ⟨a, ha, hax⟩ := Option.map_eq_some_iff.1 hx
    obtain ⟨b, hb, hby⟩ := Option.map_eq_some_iff.1 hy
    cases hax
    cases hby
    obtain ⟨hamem, hazero⟩ := base?_eq_some ha
    obtain ⟨hbmem, hbzero⟩ := base?_eq_some hb
    exact h x hamem y hbmem hazero hbzero

end TableMapper

/-- Neither replaces the mapper nor has the hardware change memory. -/
def Call.isPlain {μ : Type} : Call μ → Bool
  | .swapMapper _ | .store _ _ => false
  | _ => true

namespace Driver

section

variable {μ R : Type} {ports words bytes : Nat}

def registers? (s : Driver μ R ports words bytes) (p : Fin ports) : Option R :=
  (s.devices.get p).binding.registers

/-- Nothing changed but registers: no descriptor, no staged byte, no queue and no FIFO. -/
structure SameButRegisters (s t : Driver μ R ports words bytes) : Prop where
  mapper : t.mapper = s.mapper
  initialized : t.initialized = s.initialized
  entries : t.entries = s.entries
  fifos : t.fifos = s.fifos
  devices : ∀ p, t.devices.get p = { s.devices.get p with
    binding := { (s.devices.get p).binding with registers := t.registers? p } }

variable {s t u : Driver μ R ports words bytes}

theorem SameButRegisters.refl (s : Driver μ R ports words bytes) : s.SameButRegisters s :=
  ⟨rfl, rfl, rfl, rfl, fun _ => rfl⟩

theorem SameButRegisters.trans (h : s.SameButRegisters t) (h' : t.SameButRegisters u) :
    s.SameButRegisters u where
  mapper := h'.mapper.trans h.mapper
  initialized := h'.initialized.trans h.initialized
  entries := h'.entries.trans h.entries
  fifos := h'.fifos.trans h.fifos
  devices p := by rw [h'.devices p, h.devices p]

theorem SameButRegisters.entry (h : s.SameButRegisters t) (d : Descriptor) :
    t.entry d = s.entry d := by
  simp only [Driver.entry, h.initialized, h.entries]

theorem SameButRegisters.resolve (h : s.SameButRegisters t) (d : Descriptor) (mode : PortMode) :
    t.resolve d mode = s.resolve d mode := by
  simp only [Driver.resolve, h.entry]

theorem rebound_same (s : Driver μ R ports words bytes) (p : Fin ports)
    (registers : Option R) (memory : Memory) : s.SameButRegisters { s with
      devices := setAt s.devices p { s.devices.get p with
        binding := { (s.devices.get p).binding with registers } }
      memory } := by
  refine ⟨rfl, rfl, rfl, rfl, fun q => ?_⟩
  simp only [registers?, get_setAt]
  split
  · rename_i hpq
    rw [← hpq]
  · rfl

theorem claim_registers (s : Driver μ R ports words bytes) (slot port q : Fin ports)
    (mode : PortMode) : (s.claim slot port mode).registers? q = s.registers? q := by
  apply get_setAt_congr s.devices fun device : Device R words => device.binding.registers
  cases mode <;> rfl

theorem withChannel_registers (s : Driver μ R ports words bytes) (slot : Fin ports)
    (e : Entry ports) (c : Channel words bytes) (q : Fin ports) :
    (s.withChannel slot e c).registers? q = s.registers? q :=
  get_setAt_congr s.devices (fun device : Device R words => device.binding.registers) e.port q rfl

variable [RegisterAccess R]

theorem setControl_same (s : Driver μ R ports words bytes) (line : ControlLine) (on : Bool)
    (d : Descriptor) : s.SameButRegisters (s.setControl line on d).state := by
  rcases s.setControl_cases line on d with hs | ⟨slot, e, block, memory, -, hs⟩
  · exact hs.symm ▸ .refl s
  · rw [hs]
    exact s.rebound_same e.port (some block) memory

theorem isControl_same [Mapper μ R] (s : Driver μ R ports words bytes) {call : Call μ}
    (hc : call.isControl = true) : s.SameButRegisters (s.perform call).state := by
  cases call with
  | setControl line on d => exact s.setControl_same line on d
  | control line d => exact .refl s
  | discretePin d acts =>
    exact discretePin_induct (P := s.SameButRegisters)
      (fun t on ht => ht.trans (t.setControl_same .discrete on d)) (.refl s) acts
  | _ => cases hc

end

variable {μ : Type} {ports words bytes : Nat}

def site? (s : Driver μ RegisterBlock ports words bytes) (p : Fin ports) : Option (Site ports) :=
  (s.registers? p).map (·.site p)

def register (s : Driver μ RegisterBlock ports words bytes) (p : Fin ports) (offset : Nat) :
    UInt8 :=
  match s.registers? p with
  | some block => block.read s.memory offset
  | none => 0

def level (s : Driver μ RegisterBlock ports words bytes) (p : Fin ports) (line : ControlLine) :
    Bool :=
  s.register p Register.modemControl &&& line.bits == line.bits

structure Bound (s : Driver μ RegisterBlock ports words bytes) (m : μ)
    (sites : Fin ports → Option (Site ports)) : Prop where
  mapper : s.mapper = m
  sited : ∀ p block, s.registers? p = some block → sites p = some (block.site p)

structure KeepsRegisters (s t : Driver μ RegisterBlock ports words bytes) : Prop where
  memory : t.memory = s.memory
  registers : ∀ p block, s.registers? p = some block → t.registers? p = some block

/-- Nothing changed but the line's bit at one site. -/
structure Steers (s t : Driver μ RegisterBlock ports words bytes) (σ : Site ports)
    (line : ControlLine) : Prop where
  same : s.SameButRegisters t
  sites : ∀ p, t.site? p = s.site? p
  here : ∀ p, s.site? p = some σ → ChangedIn line.bits (s.register p) (t.register p)
  elsewhere : ∀ p, s.site? p ≠ some σ → t.register p = s.register p

variable {s t u : Driver μ RegisterBlock ports words bytes} {m : μ}
  {sites : Fin ports → Option (Site ports)} {p q : Fin ports} {σ : Site ports}
  {line : ControlLine} {block : RegisterBlock}

theorem site?_of_registers? (h : s.registers? p = some block) :
    s.site? p = some (block.site p) := by
  rw [site?, h]
  rfl

theorem site?_eq_some (h : s.site? p = some σ) :
    ∃ block, s.registers? p = some block ∧ block.site p = σ := Option.map_eq_some_iff.1 h

theorem register_of_registers? (h : s.registers? p = some block) :
    s.register p = block.read s.memory := by
  funext offset
  rw [register, h]

theorem register_eq_of_site (hp : s.site? p = some σ) (hq : s.site? q = some σ) :
    s.register q = s.register p := by
  obtain ⟨block, hb, rfl⟩ := site?_eq_some hp
  obtain ⟨block', hb', hsite⟩ := site?_eq_some hq
  cases block with
  | shadow registers =>
    cases block' with
    | shadow registers' =>
      cases hsite
      rfl
    | mapped base => cases hsite
  | mapped base =>
    cases block' with
    | shadow registers => cases hsite
    | mapped base' =>
      cases hsite
      rw [register_of_registers? hb, register_of_registers? hb']

theorem level_eq_of_site (hp : s.site? p = some σ) (hq : s.site? q = some σ)
    (line : ControlLine) : s.level q line = s.level p line := by
  rw [level, level, register_eq_of_site hp hq]

theorem Bound.of_same (h : s.Bound m sites) (hm : t.mapper = s.mapper)
    (hr : ∀ p, t.registers? p = s.registers? p) : t.Bound m sites :=
  ⟨hm.trans h.mapper, fun p block hb => h.sited p block ((hr p).symm.trans hb)⟩

namespace KeepsRegisters

theorem refl (s : Driver μ RegisterBlock ports words bytes) : s.KeepsRegisters s :=
  ⟨rfl, fun _ _ hb => hb⟩

theorem of_same (hm : t.memory = s.memory) (hr : ∀ p, t.registers? p = s.registers? p) :
    s.KeepsRegisters t := ⟨hm, fun p _ hb => (hr p).trans hb⟩

theorem site (h : s.KeepsRegisters t) (hp : s.site? p = some σ) : t.site? p = some σ := by
  obtain ⟨block, hb, rfl⟩ := site?_eq_some hp
  exact site?_of_registers? (h.registers p block hb)

theorem register (h : s.KeepsRegisters t) (hp : s.site? p = some σ) :
    t.register p = s.register p := by
  obtain ⟨block, hb, -⟩ := site?_eq_some hp
  rw [register_of_registers? hb, register_of_registers? (h.registers p block hb), h.memory]

end KeepsRegisters

theorem withControl_site (hb : s.registers? p = some block) (f : UInt8 → UInt8) (q : Fin ports) :
    (s.withControl p block f).site? q = s.site? q := by
  have hold : (s.devices.get p).binding.registers = some block := hb
  apply get_setAt_congr s.devices fun device : Device RegisterBlock words =>
    device.binding.registers.map (·.site q)
  rw [hold, Option.map_some, Option.map_some, RegisterBlock.site_modify]

namespace Steers

theorem refl (s : Driver μ RegisterBlock ports words bytes) (σ : Site ports) (line : ControlLine) :
    s.Steers s σ line :=
  ⟨.refl s, fun _ => rfl, fun _ _ => .refl _ _, fun _ _ => rfl⟩

theorem trans (h : s.Steers t σ line) (h' : t.Steers u σ line) : s.Steers u σ line where
  same := h.same.trans h'.same
  sites p := (h'.sites p).trans (h.sites p)
  here p hp := (h.here p hp).trans (h'.here p ((h.sites p).trans hp))
  elsewhere p hp := (h'.elsewhere p (h.sites p ▸ hp)).trans (h.elsewhere p hp)

theorem bound (h : s.Steers t σ line) (hs : s.Bound m sites) : t.Bound m sites := by
  refine ⟨h.same.mapper.trans hs.mapper, fun p block hb => ?_⟩
  have hsite := (h.sites p).symm.trans (site?_of_registers? hb)
  obtain ⟨block', hb', heq⟩ := site?_eq_some hsite
  rw [← heq]
  exact hs.sited p block' hb'

theorem level (h : s.Steers t σ line) {other : ControlLine}
    (hne : s.site? p = some σ → other ≠ line) : t.level p other = s.level p other := by
  by_cases hp : s.site? p = some σ
  · rw [Driver.level, Driver.level, (h.here p hp).and_eq (ControlLine.not_bits_and (hne hp))]
  · rw [Driver.level, Driver.level, h.elsewhere p hp]

theorem changedIn (h : s.Steers t σ line) (p : Fin ports) :
    ChangedIn ControlLine.allBits (s.register p) (t.register p) := by
  by_cases hp : s.site? p = some σ
  · exact (h.here p hp).mono line.bits_or_allBits
  · rw [h.elsewhere p hp]
    exact .refl _ _

end Steers

variable [Mapper μ RegisterBlock]

/-- What every port reads once the control register of one was changed. -/
theorem register_withControl (hm : Mapper.Steady m sites) (hs : s.Bound m sites)
    (hb : s.registers? p = some block) (f : UInt8 → UInt8) (q : Fin ports) (offset : Nat) :
    (s.withControl p block f).register q offset =
      if s.site? q = some (block.site p) ∧ offset = Register.modemControl then
        f (s.register q Register.modemControl)
      else s.register q offset := by
  have hcontrol : Register.modemControl < Register.count := by decide
  by_cases hqp : p = q
  · subst hqp
    have hnew : (s.withControl p block f).registers? p =
        some (RegisterAccess.modify block s.memory Register.modemControl f).1 := by
      simp only [registers?, withControl, get_setAt_self]
    rw [register_of_registers? hnew, register_of_registers? hb]
    simp only [site?_of_registers? hb, true_and]
    exact block.read_modify s.memory f hcontrol offset
  · have hsame : (s.withControl p block f).registers? q = s.registers? q := by
      simp only [registers?, withControl, get_setAt, if_neg hqp]
    -- What another port reads changes only through memory, and only if it has the same block.
    rcases hbq : s.registers? q with _ | other
    · simp only [register, site?, hsame, hbq, Option.map_none, reduceCtorEq, false_and, if_false]
    · have hread := register_of_registers? (hsame.trans hbq)
      have hapart (a b : Nat) : block = .mapped a → other = .mapped b →
          a = b ∨ a + Register.count ≤ b ∨ b + Register.count ≤ a := by
        rintro rfl rfl
        exact hm.apart p q a b (hs.sited p _ hb) (hs.sited q _ hbq)
      simp only [hread, register_of_registers? hbq, site?_of_registers? hbq, Option.some.injEq]
      exact block.read_modify_other s.memory f hqp other hcontrol hapart offset

theorem withControl_steers (hm : Mapper.Steady m sites) (hs : s.Bound m sites)
    (hb : s.registers? p = some block) (line : ControlLine) (on : Bool) :
    s.Steers (s.withControl p block (line.change on)) (block.site p) line ∧
      (s.withControl p block (line.change on)).level p line = on := by
  have hread := register_withControl hm hs hb (line.change on)
  constructor
  · refine ⟨s.rebound_same p _ _, withControl_site hb _, fun q hq => ⟨?_, ?_⟩, fun q hq => ?_⟩
    · intro offset ho
      rw [hread, if_neg fun h => ho h.2]
    · rw [hread, if_pos ⟨hq, rfl⟩]
      exact line.change_and_not on _
    · funext offset
      rw [hread, if_neg fun h => hq h.1]
  · rw [level, hread, if_pos ⟨site?_of_registers? hb, rfl⟩]
    exact line.change_and on _

theorem afterMapping_keeps (hm : Mapper.Steady m sites) (hs : s.Bound m sites) (p : Fin ports) :
    s.KeepsRegisters (s.afterMapping p) ∧ (s.afterMapping p).Bound m sites := by
  have hother (q : Fin ports) (hq : p ≠ q) : (s.afterMapping p).registers? q = s.registers? q := by
    simp only [registers?, afterMapping, get_setAt, if_neg hq]
  have hself : (s.afterMapping p).registers? p =
      (Mapper.map m p (s.devices.get p).binding).binding.registers := by
    simp only [registers?, afterMapping, get_setAt_self, hs.mapper]
  have hkeeps (q : Fin ports) (block : RegisterBlock) (hb : s.registers? q = some block) :
      (s.afterMapping p).registers? q = some block := by
    by_cases hq : p = q
    · subst hq
      rw [hself]
      exact hm.keeps p _ block hb (hs.sited p block hb)
    · rw [hother q hq, hb]
  refine ⟨⟨rfl, hkeeps⟩, ?_, fun q block hb => ?_⟩
  · show (Mapper.map s.mapper p (s.devices.get p).binding).mapper = m
    rw [hs.mapper]
    exact hm.same p _
  · -- A block that is new was placed by the mapper, any other was at its site before.
    rcases hold : s.registers? q with _ | old
    · by_cases hq : p = q
      · subst hq
        exact hm.places p _ block hold (hself.symm.trans hb)
      · have hnew := (hother q hq).symm.trans hb
        cases hold.symm.trans hnew
    · cases (hkeeps q old hold).symm.trans hb
      exact hs.sited q _ hold

theorem tryOpen_keeps (hm : Mapper.Steady m sites) (hs : s.Bound m sites) (port : Nat)
    (mode : PortMode) : s.KeepsRegisters (s.tryOpen port mode).state ∧
      (s.tryOpen port mode).state.Bound m sites := by
  rcases s.tryOpen_cases port mode with ⟨cause, ho, -⟩ | ⟨d, log, -, ho⟩ | ⟨p, -, -, -, ho⟩
  · rw [ho]
    exact ⟨.refl s, hs⟩
  · rw [ho]
    exact ⟨.refl s, hs⟩
  · rw [ho]
    obtain ⟨hkeeps, hbound⟩ := afterMapping_keeps hm hs p
    rcases s.openClosed_cases p mode with ⟨cause, -, ht, -⟩ | ⟨slot, -, -, -, ht⟩
    · exact ht ▸ ⟨hkeeps, hbound⟩
    · have hclaim (q : Fin ports) := (s.afterMapping p).claim_registers slot p q mode
      rw [ht]
      refine ⟨⟨hkeeps.memory, fun q block hb => ?_⟩, hbound.of_same rfl hclaim⟩
      rw [hclaim, hkeeps.registers q block hb]

/-- No call but those on control lines changes a register. -/
theorem perform_keeps (hm : Mapper.Steady m sites) (hs : s.Bound m sites) {call : Call μ}
    (hplain : call.isPlain = true) (hc : call.isControl = false) :
    s.KeepsRegisters (s.perform call).state ∧ (s.perform call).state.Bound m sites := by
  have hsame {t : Driver μ RegisterBlock ports words bytes} (hmapper : t.mapper = s.mapper)
      (hmemory : t.memory = s.memory) (hr : ∀ q, t.registers? q = s.registers? q) :
      s.KeepsRegisters t ∧ t.Bound m sites := ⟨.of_same hmemory hr, hs.of_same hmapper hr⟩
  rcases ht : call.transfer? with _ | ⟨d, act⟩
  · cases call with
    | setControl | control | discretePin => cases hc
    | swapMapper | store => cases hplain
    | write | writeWord | transmit | nextTxWord | receive | read | readWord | poll => cases ht
    | commonInit =>
      refine hsame rfl rfl fun q => ?_
      simp only [registers?, perform, commonInit, get_ofFn]
      rfl
    | tryOpen port mode => exact tryOpen_keeps hm hs port mode
    | openPort port mode => exact tryOpen_keeps hm hs port mode
    | fifos port command =>
      simp only [perform, Outcome.reply, hardware]
      split <;> exact hsame rfl rfl fun _ => rfl
    | _ => exact hsame rfl rfl fun _ => rfl
  · rcases hr : s.resolve d .serial with cause | ⟨slot, e⟩
    · rw [perform_refused ht hr]
      exact hsame rfl rfl fun _ => rfl
    · rw [perform_transfer ht hr]
      exact hsame rfl rfl (withChannel_registers s slot e _)

end Driver

end PolledUart
