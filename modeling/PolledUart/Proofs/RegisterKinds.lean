import PolledUart.Register

/-!
# Shadow and mapped registers alike

A mapped block shows eight bytes of memory as registers, a shadow file keeps eight of its own. A
file that starts with the bytes of the area keeps them in every act on both: the replies are the
same, and the bytes around the area are out of reach of both.
-/

set_option autoImplicit false

namespace PolledUart

inductive RegisterAct where
  | read (offset : Nat)
  | write (offset : Nat) (value : UInt8)
  | modify (offset : Nat) (f : UInt8 → UInt8)
  | setBits (offset : Nat) (bits : UInt8)
  | clearBits (offset : Nat) (bits : UInt8)
  | bitsSet (offset : Nat) (bits : UInt8)

inductive RegisterReply where
  | done
  | byte (value : UInt8)
  | flag (value : Bool)
  deriving DecidableEq, Repr

/-- The bytes of memory that a block at the base address has as registers. -/
def Memory.window (m : Memory) (base : Nat) : Vector UInt8 Register.count :=
  Vector.ofFn fun i => m (base + i)

namespace RegisterBlock

def act (block : RegisterBlock) (m : Memory) :
    RegisterAct → RegisterReply × RegisterBlock × Memory
  | .read offset => (.byte (block.read m offset), block, m)
  | .write offset value => (.done, block.write m offset value)
  | .modify offset f => (.done, RegisterAccess.modify block m offset f)
  | .setBits offset bits => (.done, RegisterAccess.setBits block m offset bits)
  | .clearBits offset bits => (.done, RegisterAccess.clearBits block m offset bits)
  | .bitsSet offset bits => (.flag (RegisterAccess.bitsSet block m offset bits), block, m)

def actAll (block : RegisterBlock) (m : Memory) :
    List RegisterAct → List RegisterReply × RegisterBlock × Memory
  | [] => ([], block, m)
  | act :: rest =>
    let (reply, block, m) := block.act m act
    let (replies, block, m) := block.actAll m rest
    (reply :: replies, block, m)

variable (m other : Memory) (base offset : Nat)

theorem read_window :
    (shadow (m.window base)).read other offset = (mapped base).read m offset := by
  by_cases h : offset < Register.count
  · simp [read, Memory.window, h]
  · simp [read, h]

theorem write_window (value : UInt8) : (shadow (m.window base)).write other offset value =
    (shadow (((mapped base).write m offset value).2.window base), other) := by
  simp only [write, Prod.mk.injEq, shadow.injEq, and_true]
  ext i hi
  rw [Vector.getElem_setIfInBounds]
  by_cases h : offset = i
  · subst h
    simp [Memory.window, hi]
  · have hne : base + i ≠ base + offset := by omega
    by_cases ho : offset < Register.count
    · simp [Memory.window, h, ho, Memory.store_of_ne m value hne]
    · simp [Memory.window, h, ho]

theorem write_outside (value : UInt8) {a : Nat} (h : a < base ∨ base + Register.count ≤ a) :
    ((mapped base).write m offset value).2 a = m a := by
  by_cases ho : offset < Register.count
  · have hne : a ≠ base + offset := by omega
    simp [write, ho, Memory.store_of_ne m value hne]
  · simp [write, ho]

/-- One act on both: the same reply, and still the same bytes. -/
theorem act_window (act : RegisterAct) : ∃ (reply : RegisterReply) (m' : Memory),
    (mapped base).act m act = (reply, mapped base, m') ∧
      (shadow (m.window base)).act other act = (reply, shadow (m'.window base), other) ∧
      ∀ a, a < base ∨ base + Register.count ≤ a → m' a = m a := by
  have hwrite (offset : Nat) (value : UInt8) := write_window m other base offset value
  have hframe (offset : Nat) (value : UInt8) {a : Nat} :=
    write_outside m base offset value (a := a)
  cases act with
  | read offset =>
    refine ⟨_, m, rfl, ?_, fun _ _ => rfl⟩
    rw [RegisterBlock.act, read_window]
  | bitsSet offset bits =>
    refine ⟨_, m, rfl, ?_, fun _ _ => rfl⟩
    rw [RegisterBlock.act, RegisterAccess.bitsSet, access_read, read_window]
    rfl
  | write offset value =>
    exact ⟨_, _, rfl, congrArg (Prod.mk _) (hwrite offset value), fun _ => hframe offset value⟩
  | modify offset f | setBits offset f | clearBits offset f =>
    refine ⟨_, _, rfl, ?_, fun _ => hframe offset _⟩
    simp only [RegisterBlock.act, RegisterAccess.setBits, RegisterAccess.clearBits,
      RegisterAccess.modify, access_read, access_write, read_window, hwrite]
    rfl

theorem actAll_window (acts : List RegisterAct) : ∃ (replies : List RegisterReply) (m' : Memory),
    (mapped base).actAll m acts = (replies, mapped base, m') ∧
      (shadow (m.window base)).actAll other acts = (replies, shadow (m'.window base), other) ∧
      ∀ a, a < base ∨ base + Register.count ≤ a → m' a = m a := by
  induction acts generalizing m with
  | nil => exact ⟨[], m, rfl, rfl, fun _ _ => rfl⟩
  | cons act rest ih =>
    obtain ⟨reply, mid, hmapped, hshadow, hframe⟩ := act_window m other base act
    obtain ⟨replies, last, hmappeds, hshadows, hframes⟩ := ih mid
    refine ⟨reply :: replies, last, ?_, ?_, fun a ha => (hframes a ha).trans (hframe a ha)⟩
    · simp only [actAll, hmapped, hmappeds]
    · simp only [actAll, hshadow, hshadows]

variable {base}

/-- A block of memory at an address that is not zero and a file that starts with its eight bytes
give the same replies to any acts, have the same values after each of them, and leave memory
around the block alone. An act beyond the eight registers finds zero and changes nothing. -/
theorem shadow_and_mapped_agree (hbase : base ≠ 0) (acts : List RegisterAct) :
    (∃ (block : RegisterBlock) (replies : List RegisterReply) (m' : Memory),
      mapped? base = some block ∧ block.actAll m acts = (replies, block, m') ∧
        (shadow (m.window base)).actAll other acts = (replies, shadow (m'.window base), other) ∧
        ∀ a, a < base ∨ base + Register.count ≤ a → m' a = m a) ∧
      ∀ (block : RegisterBlock) (offset : Nat), Register.count ≤ offset →
        block.read m offset = 0 ∧ (∀ value, block.write m offset value = (block, m)) ∧
          (∀ f, RegisterAccess.modify block m offset f = (block, m)) ∧
          ∀ bits, RegisterAccess.setBits block m offset bits = (block, m) ∧
            RegisterAccess.clearBits block m offset bits = (block, m) ∧
            (RegisterAccess.bitsSet block m offset bits = true ↔ bits = 0) := by
  constructor
  · obtain ⟨replies, m', hmapped, hshadow, hframe⟩ := actAll_window m other base acts
    exact ⟨mapped base, replies, m', if_neg hbase, hmapped, hshadow, hframe⟩
  · intro block offset h
    have hread := block.read_out_of_range m h
    have hwrite := block.write_out_of_range m h
    refine ⟨hread, hwrite, fun f => hwrite _, fun bits => ⟨hwrite _, hwrite _, ?_⟩⟩
    rw [RegisterAccess.bitsSet, access_read, hread, UInt8.zero_and, beq_iff_eq]
    exact eq_comm

theorem shadow_and_mapped_agree_sample :
    let m := (Memory.zeroed.store 23 0xF0).store 24 0x77
    let acts : List RegisterAct := [.setBits 4 0x12, .clearBits 4 0x02, .modify 7 (· + 0x21),
      .write 8 1, .modify 8 (· + 1), .read 8, .bitsSet 9 0, .bitsSet 4 0x10]
    ∃ m' : Memory,
      (mapped 16).actAll m acts =
        ([.done, .done, .done, .done, .done, .byte 0, .flag true, .flag true], mapped 16, m') ∧
      ((shadow (m.window 16)).actAll Memory.zeroed acts).2.1 =
        shadow #v[0, 0, 0, 0, 0x10, 0, 0, 0x11] ∧
      m' 24 = 0x77 ∧ (mapped 16).read m 18446744073709551615 = 0 := by
  intro m acts
  obtain ⟨⟨block, replies, m', hblock, hmapped, hshadow, hframe⟩, hbeyond⟩ :=
    shadow_and_mapped_agree m Memory.zeroed (show 16 ≠ 0 by decide) acts
  cases hblock
  have hreplies : replies =
      [.done, .done, .done, .done, .done, .byte 0, .flag true, .flag true] :=
    (congrArg Prod.fst hmapped).symm.trans (by decide)
  have hvalues : shadow (m'.window 16) = shadow #v[0, 0, 0, 0, 0x10, 0, 0, 0x11] :=
    (congrArg (fun r => r.2.1) hshadow).symm.trans (by decide)
  refine ⟨m', hreplies ▸ hmapped, ?_, ?_, (hbeyond (mapped 16) _ (by decide)).1⟩
  · rw [hshadow]
    exact hvalues
  · exact (hframe 24 (.inr (by decide))).trans (by decide)

end RegisterBlock

end PolledUart
