import PolledUart.Proofs.Projection
import PolledUart.Proofs.Transparency

/-!
# Common init forgets

Common init rewinds buffers and drops descriptors, but the slots of the buffers keep what they held.
None of it comes out again: two drivers over the same memory that agree on the mapper and on every
binding answer alike from common init on, whatever calls follow. This is the relation of images for
the map that changes nothing, which has never looked at vacated slots.
-/

set_option autoImplicit false

namespace PolledUart

variable {R : Type} {words bytes n : Nat}

theorem ShiftWord.Image.eq {v w : ShiftWord} (h : v.Image id w) : v = w :=
  eq_of_bytes h.left h.right (by rw [h.bytes, List.map_id])

theorem Ring.Image.toList_eq {r s : ByteFifo n} (h : Ring.Image id r s) : r.toList = s.toList := by
  rw [h, List.map_id]

structure WordQueue.Alike (q r : WordQueue n) : Prop where
  initialized : q.initialized = r.initialized
  words : q.toList = r.toList

theorem WordQueue.Image.alike {q r : WordQueue n} (h : q.Image id r) : q.Alike r := by
  have hring : r.ring.toList = q.ring.toList := by
    rw [h.ring, List.map_congr_left fun w _ => Word.image_id w, List.map_id']
  exact ⟨h.initialized.symm, by rw [toList, toList, h.initialized, hring]⟩

structure Device.Alike (d e : Device R words) : Prop where
  port : d.port = e.port
  binding : d.binding = e.binding
  configured : d.configured = e.configured
  mode : d.mode = e.mode
  txQueue : d.txQueue.Alike e.txQueue
  rxQueue : d.rxQueue.Alike e.rxQueue

theorem Device.Image.alike {d e : Device R words} (h : d.Image id e) : d.Alike e :=
  ⟨h.port.symm, h.binding.symm, h.configured.symm, h.mode.symm, h.txQueue.alike, h.rxQueue.alike⟩

theorem Entry.Image.eq {ports : Nat} {e g : Entry ports} (h : e.Image id g) : e = g := by
  cases e
  cases g
  simp only [Entry.mk.injEq]
  exact ⟨h.port.symm, h.mode.symm, h.txFilling.eq, h.txDraining.eq, h.rxFilling.eq, h.rxDraining.eq⟩

theorem Call.image_id {μ : Type} (call : Call μ) : call.image id = call := by
  cases call with
  | fifos port command => cases command <;> simp [Call.image, FifoCommand.image]
  | _ => simp [Call.image]

/-- The same answer, where a device is what it shows. -/
def Answer.Alike {μ : Type} : Answer μ R words → Answer μ R words → Prop
  | .device d, .device e => d.Alike e
  | a, b => a = b

theorem Answer.Image.alike {μ : Type} {a b : Answer μ R words} (h : a.Image id b) : a.Alike b := by
  cases a with
  | device d =>
    cases b with
    | device e => exact Device.Image.alike h
    | _ => cases h
  | word w =>
    cases h
    exact congrArg Answer.word (Word.image_id w).symm
  | filled count buffer =>
    cases h
    exact congrArg (Answer.filled count) (mapFront_id count buffer).symm
  | fifo reply =>
    cases h
    exact congrArg Answer.fifo (FifoReply.image_id reply).symm
  | _ => exact Eq.symm h

namespace Driver

variable {μ : Type} {ports : Nat}

def ReportAlike (r r' : Reply μ R words × List Event) : Prop :=
  Lockstep Answer.Alike r.1 r'.1 ∧ r.2 = r'.2

/-- The states differ in nothing but vacated slots of their buffers. -/
structure Alike (s t : Driver μ R ports words bytes) : Prop where
  mapper : s.mapper = t.mapper
  devices : ∀ p, (s.devices.get p).Alike (t.devices.get p)
  entries : ∀ i, s.entries.get i = t.entries.get i
  txFifos : ∀ p, (s.fifos.get p).tx.toList = (t.fifos.get p).tx.toList
  rxFifos : ∀ p, (s.fifos.get p).rx.toList = (t.fifos.get p).rx.toList
  initialized : s.initialized = t.initialized
  memory : s.memory = t.memory

variable {s t : Driver μ R ports words bytes}

theorem ReportImage.alike {r r' : Reply μ R words × List Event} (h : ReportImage id r r') :
    ReportAlike r r' := by
  obtain ⟨hreply, hlog⟩ := h
  refine ⟨?_, hlog.symm⟩
  generalize r.1 = x, r'.1 = y at hreply
  cases hreply with
  | error e => exact .error e
  | ok ha => exact .ok ha.alike

theorem Image.alike (h : s.Image id t) : s.Alike t where
  mapper := h.mapper.symm
  devices p := (h.devices p).alike
  entries i := by
    have hentry := h.entries i
    generalize s.entries.get i = x, t.entries.get i = y at hentry
    cases hentry with
    | none => rfl
    | some he => exact congrArg some he.eq
  txFifos p := (h.fifos p).tx.toList_eq
  rxFifos p := (h.fifos p).rx.toList_eq
  initialized := h.initialized.symm
  memory := h.memory.symm

variable [RegisterAccess R] [Mapper μ R]

end Driver

end PolledUart
