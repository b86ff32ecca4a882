import PolledUart.Critical.Shared

/-!
# Shared access is exclusive

A critical section runs its body once, so an access is its borrow, its body and the release. The
borrow follows from the accesses that are inside: an access stays out if it may change the value and
any other is inside, or if one is inside that may change it. Whatever was tried inside, the cell
is free again once the outermost access has left. So contexts that share a driver use it as if each
had it alone, one call after the other.
-/

set_option autoImplicit false

namespace PolledUart

/-- Inside the given accesses, outermost first, an access is refused. -/
def Access.StaysOut (inside : List Access) (a : Access) : Prop :=
  (a.mayChange = true ∧ inside ≠ []) ∨
    (a.mayChange = false ∧ ∃ b ∈ inside, b.mayChange = true)

def Borrow.held (inside : List Access) : Borrow :=
  if inside.any Access.mayChange then .writer else .readers inside.length

namespace Access

variable {inside : List Access} {a : Access}

theorem acquire?_of_staysOut (h : a.StaysOut inside) : a.acquire? (.held inside) = none := by
  rcases h with ⟨ha, hinside⟩ | ⟨ha, hwriter⟩
  · obtain ⟨first, rest, rfl⟩ := List.exists_cons_of_ne_nil hinside
    unfold Borrow.held
    split
    · cases a <;> rfl
    · cases a with
      | shared => cases ha
      | exclusive | attempt => rfl
  · have hany : inside.any mayChange = true := by simpa using hwriter
    rw [Borrow.held, if_pos hany]
    cases a <;> rfl

theorem acquire?_of_not_staysOut (h : ¬ a.StaysOut inside) :
    a.acquire? (.held inside) = some (.held (inside ++ [a])) := by
  cases a with
  | exclusive | attempt =>
    have hnil : inside = [] := Decidable.byContradiction fun hne => h (.inl ⟨rfl, hne⟩)
    subst hnil
    rfl
  | shared =>
    have hany : inside.any mayChange = false := by
      rcases hc : inside.any mayChange
      · rfl
      · exact absurd (.inr ⟨rfl, by simpa using hc⟩) h
    simp [Borrow.held, hany, acquire?, mayChange]

end Access

namespace Cell

variable {σ α : Type}

theorem enter_refused {c : Cell σ} {a : Access} (h : a.acquire? c.borrow = none)
    (body : Cell σ → α × Cell σ) : c.enter a body = (a.refusal, c) := by
  simp only [enter, h]

theorem enter_granted {c : Cell σ} {a : Access} {b : Borrow} (h : a.acquire? c.borrow = some b)
    {body : Cell σ → α × Cell σ} {result : α} {value : σ}
    (hbody : body { c with borrow := b } = (result, ⟨value, b⟩)) :
    c.enter a body = (.granted result, ⟨value, c.borrow⟩) := by
  simp only [enter, h, hbody, Access.release_acquire? h]

end Cell

def Visit.refused {σ α : Type} : Visit σ α → Entered α
  | .attempt _ => .declined
  | .exclusive _ | .look _ => .aborted

namespace Cell

variable {σ α : Type}

theorem visitNested_changing (s : σ) (v : Visit σ α) (hv : v.access.mayChange = true)
    (inner : Option (Visit σ α)) : (Cell.new s).visitNested ⟨v, inner⟩ =
      (.granted ⟨inner.map Visit.refused, (v.act s).1⟩, Cell.new (v.act s).2) := by
  have hfree : v.access.acquire? (Cell.new s).borrow = some .writer := by
    cases v with
    | look => cases hv
    | exclusive | attempt => rfl
  apply enter_granted hfree
  cases inner with
  | none => rfl
  | some w => cases w <;> rfl

end Cell

namespace SharedDriver

/-- A step of a context: it makes a call in an exclusive visit or in an attempt, where any other
visit may be tried first, or it asks whether common init has run. -/
inductive Step (μ R : Type) (ports words bytes : Nat) where
  | exclusive (call : Call μ)
    (inner : Option (Visit (Driver μ R ports words bytes) (Reply μ R words × List Event)))
  | attempt (call : Call μ)
    (inner : Option (Visit (Driver μ R ports words bytes) (Reply μ R words × List Event)))
  | isInitialized

namespace Step

variable {μ R : Type} {ports words bytes : Nat}

def visit [RegisterAccess R] [Mapper μ R] : Step μ R ports words bytes →
    NestedVisit (Driver μ R ports words bytes) (Reply μ R words × List Event)
  | .exclusive call inner => ⟨.exclusive (SharedDriver.call call), inner⟩
  | .attempt call inner => ⟨.attempt (SharedDriver.call call), inner⟩
  | .isInitialized =>
    ⟨.look fun s => (.ok (.flag (SharedDriver.isInitialized.act s).1), []), none⟩

def call : Step μ R ports words bytes → Call μ
  | .exclusive call _ | .attempt call _ => call
  | .isInitialized => .isInitialized

def inner? : Step μ R ports words bytes →
    Option (Visit (Driver μ R ports words bytes) (Reply μ R words × List Event))
  | .exclusive _ inner | .attempt _ inner => inner
  | .isInitialized => none

def report (step : Step μ R ports words bytes) (answer : Reply μ R words × List Event) :
    Entered (NestedReport (Reply μ R words × List Event)) :=
  .granted ⟨step.inner?.map Visit.refused, answer⟩

variable [RegisterAccess R] [Mapper μ R]

/-- One step on a shared driver is one call on the driver. -/
theorem visitNested_visit (s : Driver μ R ports words bytes) (step : Step μ R ports words bytes) :
    (Cell.new s).visitNested step.visit =
      (step.report ((s.perform step.call).value, (s.perform step.call).log),
        Cell.new (s.perform step.call).state) := by
  cases step with
  | exclusive call inner => exact Cell.visitNested_changing s (.exclusive _) rfl inner
  | attempt call inner => exact Cell.visitNested_changing s (.attempt _) rfl inner
  | isInitialized => rfl

theorem visitAll_visit (s : Driver μ R ports words bytes)
    (steps : List (Step μ R ports words bytes)) :
    (Cell.new s).visitAll (steps.map visit) =
      (List.zipWith report steps (s.run (steps.map call)).1,
        Cell.new (s.run (steps.map call)).2) := by
  induction steps generalizing s with
  | nil => rfl
  | cons step rest ih =>
    simp only [List.map_cons, Cell.visitAll, visitNested_visit, ih, Driver.run_cons,
      List.zipWith_cons_cons]

end Step

end SharedDriver

namespace Cell

def chain : List (Visit UInt32 UInt32) → Cell UInt32 → Nested × Cell UInt32
  | [], c => (.none, c)
  | v :: rest, c =>
    let (entered, c) := c.enter v.access fun c =>
      let (result, c) := v.inside c
      let (inner, c) := chain rest c
      (Nested.inside v.access result inner, c)
    match entered with
    | .granted report => (report, c)
    | .declined => (.declined, c)
    | .aborted => (.aborted, c)

def chains (c : Cell UInt32) : List (List (Visit UInt32 UInt32)) → List Nested × Cell UInt32
  | [] => ([], c)
  | visits :: rest =>
    let (report, c) := chain visits c
    let (reports, c) := c.chains rest
    (report :: reports, c)

end Cell

def Access.adding (add : UInt32) : Access → Visit UInt32 UInt32
  | .exclusive => .exclusive fun value => (value + add, value + add)
  | .attempt => .attempt fun value => (value + add, value + add)
  | .shared => .look id

theorem Cell.nest_eq_chain (add : UInt32) (accesses : List Access) (c : Cell UInt32) :
    Cell.nest add accesses c = Cell.chain (accesses.map (Access.adding add)) c := by
  induction accesses generalizing c with
  | nil => rfl
  | cons a rest ih =>
    have hrest : Cell.nest add rest = Cell.chain (rest.map (Access.adding add)) := funext ih
    simp only [List.map_cons, Cell.nest, Cell.chain, hrest]
    cases a <;> rfl

def Access.turnedAway : Access → Nested
  | .attempt => .declined
  | .exclusive | .shared => .aborted

/-- `Nested.Ruled inside visits value report final`: tried inside the given accesses, the visits
report this and make `final` of the value, if each one that stays out does nothing and ends the
chain, and each other one does its work. -/
inductive Nested.Ruled :
    List Access → List (Visit UInt32 UInt32) → UInt32 → Nested → UInt32 → Prop
  | done (inside : List Access) (value : UInt32) : Ruled inside [] value .none value
  | refused {inside : List Access} {v : Visit UInt32 UInt32} (rest : List (Visit UInt32 UInt32))
    (value : UInt32) (hout : v.access.StaysOut inside) :
    Ruled inside (v :: rest) value v.access.turnedAway value
  | granted {inside : List Access} {v : Visit UInt32 UInt32} {rest : List (Visit UInt32 UInt32)}
    {value final : UInt32} {inner : Nested} (hin : ¬ v.access.StaysOut inside)
    (hinner : Ruled (inside ++ [v.access]) rest (v.act value).2 inner final) :
    Ruled inside (v :: rest) value (.inside v.access (v.act value).1 inner) final

/-- A chain on a cell with the given accesses inside keeps the rule, and leaves the borrow. -/
theorem Cell.chain_ruled (visits : List (Visit UInt32 UInt32)) (inside : List Access)
    (value : UInt32) : ∃ (report : Nested) (final : UInt32),
      Cell.chain visits ⟨value, .held inside⟩ = (report, ⟨final, .held inside⟩) ∧
        Nested.Ruled inside visits value report final := by
  induction visits generalizing inside value with
  | nil => exact ⟨.none, value, rfl, .done inside value⟩
  | cons v rest ih =>
    by_cases hout : v.access.StaysOut inside
    · refine ⟨v.access.turnedAway, value, ?_, .refused rest value hout⟩
      rw [Cell.chain, Cell.enter_refused (Access.acquire?_of_staysOut hout)]
      cases v <;> rfl
    · obtain ⟨inner, final, hchain, hruled⟩ := ih (inside ++ [v.access]) (v.act value).2
      refine ⟨.inside v.access (v.act value).1 inner, final, ?_, .granted hout hruled⟩
      rw [Cell.chain, Cell.enter_granted (Access.acquire?_of_not_staysOut hout)]
      simp only [Visit.inside, hchain]

namespace Nested

theorem Ruled.value_eq {inside : List Access} {visits : List (Visit UInt32 UInt32)}
    {value final : UInt32} {report : Nested} (h : Ruled inside visits value report final)
    (hinside : inside ≠ []) : final = value := by
  induction h with
  | done | refused => rfl
  | @granted inside v rest value final inner hin hinner ih =>
    rw [ih (by simp)]
    cases v with
    | look => rfl
    | exclusive | attempt => exact absurd (.inl ⟨rfl, hinside⟩) hin

inductive RuledAll : List (List (Visit UInt32 UInt32)) → UInt32 → List Nested → UInt32 → Prop
  | done (value : UInt32) : RuledAll [] value [] value
  | next {visits : List (Visit UInt32 UInt32)} {rest : List (List (Visit UInt32 UInt32))}
    {value mid final : UInt32} {report : Nested} {reports : List Nested}
    (hfirst : Ruled [] visits value report mid) (hrest : RuledAll rest mid reports final) :
    RuledAll (visits :: rest) value (report :: reports) final

end Nested

namespace Cell

def outermost (value : UInt32) (visits : List (Visit UInt32 UInt32)) : UInt32 :=
  visits.head?.elim value fun v => (v.act value).2

theorem chain_new (visits : List (Visit UInt32 UInt32)) (value : UInt32) : ∃ report : Nested,
    chain visits (Cell.new value) = (report, Cell.new (outermost value visits)) ∧
      Nested.Ruled [] visits value report (outermost value visits) := by
  obtain ⟨report, final, hchain, hruled⟩ := chain_ruled visits [] value
  have hfinal : final = outermost value visits := by
    cases hruled with
    | done => rfl
    | refused _ _ hout => rcases hout with ⟨-, h⟩ | ⟨-, _, h, -⟩ <;> simp at h
    | granted _ hinner => exact hinner.value_eq (by simp)
  subst hfinal
  exact ⟨report, hchain, hruled⟩

theorem chains_new (visits : List (List (Visit UInt32 UInt32))) (value : UInt32) :
    ∃ reports : List Nested,
      (Cell.new value).chains visits = (reports, Cell.new (visits.foldl outermost value)) ∧
        Nested.RuledAll visits value reports (visits.foldl outermost value) := by
  induction visits generalizing value with
  | nil => exact ⟨[], rfl, .done value⟩
  | cons first rest ih =>
    obtain ⟨report, hchain, hruled⟩ := chain_new first value
    obtain ⟨reports, hchains, hruledAll⟩ := ih (outermost value first)
    refine ⟨report :: reports, ?_, .next hruled hruledAll⟩
    simp only [chains, hchain, hchains, List.foldl_cons]

/-- Readers nest. A writer inside of them is turned away, and so is a reader inside of a writer. -/
example : (Cell.new 5).chains
    [[.look id, .look (· + 1), .attempt fun value => (value, value + 1)],
      [.exclusive fun value => (value, value + 2), .look id]] =
    ([.inside .shared 5 (.inside .shared 6 .declined), .inside .exclusive 5 .aborted],
      Cell.new 7) := by
  decide

end Cell

/-- On a shared driver every outer access is let in, every inner one is kept out and does nothing,
and the answers and the driver in the end are those of the calls on a driver that nobody shares.
On a counter a chain lets in exactly those accesses that do not stay out, does nothing from the
first that does, changes the value by its outermost access alone and leaves the cell free. -/
theorem SharedDriver.shared_access_exclusive (μ R : Type) [RegisterAccess R] [Mapper μ R]
    (ports words bytes : Nat) :
    (∀ (s : Driver μ R ports words bytes) (steps : List (SharedDriver.Step μ R ports words bytes)),
      (Cell.new s).visitAll (steps.map SharedDriver.Step.visit) =
        (List.zipWith SharedDriver.Step.report steps
            (s.run (steps.map SharedDriver.Step.call)).1,
          Cell.new (s.run (steps.map SharedDriver.Step.call)).2)) ∧
      (∀ (value : UInt32) (visits : List (List (Visit UInt32 UInt32))),
        ∃ reports : List Nested,
          (Cell.new value).chains visits =
              (reports, Cell.new (visits.foldl Cell.outermost value)) ∧
            Nested.RuledAll visits value reports (visits.foldl Cell.outermost value)) ∧
      ∀ (add : UInt32) (via : List Access) (c : Cell UInt32),
        Cell.nest add via c = Cell.chain (via.map (Access.adding add)) c :=
  ⟨SharedDriver.Step.visitAll_visit, fun value visits => Cell.chains_new visits value,
    Cell.nest_eq_chain⟩

end PolledUart
