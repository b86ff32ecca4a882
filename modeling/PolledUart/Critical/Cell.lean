/-!
# Cells for critical sections

A cell guards a value that several contexts share. An access borrows the value while its body
runs: exclusively, to change it, or shared, to look at it. Shared borrows nest with each other,
nothing nests with or inside an exclusive one. A refused access does not run its body; it
aborts, unless it was only an attempt.
-/

set_option autoImplicit false

namespace PolledUart

/-- Who is inside: a number of readers, none of them for a free cell, or one writer. -/
inductive Borrow where
  | readers (count : Nat)
  | writer
  deriving DecidableEq, Repr

inductive Access where
  /-- To change the value; aborts if the cell is borrowed. -/
  | exclusive
  /-- To change the value; does nothing if the cell is borrowed. -/
  | attempt
  /-- To look at the value; aborts if someone may be changing it. -/
  | shared
  deriving DecidableEq, Repr

inductive Entered (α : Type) where
  | granted (value : α)
  | declined
  | aborted
  deriving DecidableEq, Repr

namespace Access

def acquire? : Access → Borrow → Option Borrow
  | .exclusive, .readers 0 => some .writer
  | .attempt, .readers 0 => some .writer
  | .shared, .readers n => some (.readers (n + 1))
  | _, _ => none

def release : Borrow → Borrow
  | .writer => .readers 0
  | .readers n => .readers (n - 1)

def mayChange : Access → Bool
  | .exclusive | .attempt => true
  | .shared => false

def refusal {α : Type} : Access → Entered α
  | .attempt => .declined
  | .exclusive | .shared => .aborted

theorem release_acquire? {a : Access} {b c : Borrow} (h : a.acquire? b = some c) :
    release c = b := by
  unfold acquire? at h
  split at h <;> simp at h <;> subst h <;> rfl

end Access

structure Cell (σ : Type) where
  value : σ
  borrow : Borrow
  deriving DecidableEq, Repr

namespace Cell

variable {σ α : Type}

def new (value : σ) : Cell σ := ⟨value, .readers 0⟩

/-- Runs the body on the borrowed cell, and gives the borrow back afterwards. -/
def enter (c : Cell σ) (a : Access) (body : Cell σ → α × Cell σ) : Entered α × Cell σ :=
  match a.acquire? c.borrow with
  | none => (a.refusal, c)
  | some borrow =>
    let (result, inside) := body { c with borrow }
    (.granted result, { inside with borrow := Access.release inside.borrow })

end Cell

inductive Visit (σ α : Type) where
  | exclusive (act : σ → α × σ)
  | attempt (act : σ → α × σ)
  | look (view : σ → α)

namespace Visit

variable {σ α : Type}

def access : Visit σ α → Access
  | .exclusive _ => .exclusive
  | .attempt _ => .attempt
  | .look _ => .shared

def act : Visit σ α → σ → α × σ
  | .exclusive act | .attempt act => act
  | .look view => fun s => (view s, s)

def inside (v : Visit σ α) (c : Cell σ) : α × Cell σ :=
  let (result, value) := v.act c.value
  (result, { c with value })

end Visit

/-- A visit, and another that is tried from inside it before it does its own work. -/
structure NestedVisit (σ α : Type) where
  outer : Visit σ α
  inner : Option (Visit σ α)

structure NestedReport (α : Type) where
  inner : Option (Entered α)
  outer : α
  deriving DecidableEq, Repr

namespace Cell

variable {σ α : Type}

def visit (c : Cell σ) (v : Visit σ α) : Entered α × Cell σ := c.enter v.access v.inside

def visitNested (c : Cell σ) (v : NestedVisit σ α) : Entered (NestedReport α) × Cell σ :=
  c.enter v.outer.access fun c =>
    match v.inner with
    | none =>
      let (outer, c) := v.outer.inside c
      (⟨none, outer⟩, c)
    | some w =>
      let (inner, c) := c.visit w
      let (outer, c) := v.outer.inside c
      (⟨some inner, outer⟩, c)

def visitAll (c : Cell σ) :
    List (NestedVisit σ α) → List (Entered (NestedReport α)) × Cell σ
  | [] => ([], c)
  | v :: rest =>
    let (report, c) := c.visitNested v
    let (reports, c) := c.visitAll rest
    (report :: reports, c)

end Cell

inductive Nested where
  | none
  | inside (access : Access) (value : UInt32) (inner : Nested)
  | declined
  | aborted
  deriving DecidableEq, Repr

namespace Cell

/-- Nested accesses to a counter, outermost first: each that may change it adds to it, then lets
the next try. -/
def nest (add : UInt32) : List Access → Cell UInt32 → Nested × Cell UInt32
  | [], c => (.none, c)
  | a :: rest, c =>
    let (entered, c) := c.enter a fun c =>
      let c := if a.mayChange then { c with value := c.value + add } else c
      let (inner, inside) := nest add rest c
      (Nested.inside a c.value inner, inside)
    match entered with
    | .granted report => (report, c)
    | .declined => (.declined, c)
    | .aborted => (.aborted, c)

end Cell

end PolledUart
