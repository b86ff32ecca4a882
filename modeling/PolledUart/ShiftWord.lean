import PolledUart.Word

/-!
# A word on its way to or from bytes

A shift word holds up to four bytes of one word, packed lowest first: bytes are pushed above
the held ones and popped from below. `ShiftWord.bytes` is the held sequence, and on canonical
shift words, the only ones that can arise, pushing appends to it and popping takes its first.
-/

set_option autoImplicit false

namespace PolledUart

inductive ShiftWord where
  | empty
  | part (word : Word) (len : Nat)
  | full (word : Word)
  deriving DecidableEq, Repr, Inhabited

namespace ShiftWord

def ofWord (word : Word) : ShiftWord := .full word

def len : ShiftWord → Nat
  | .empty => 0
  | .part _ len => len
  | .full _ => Word.size

def isEmpty : ShiftWord → Bool
  | .empty => true
  | _ => false

def isFull : ShiftWord → Bool
  | .full _ => true
  | _ => false

def fullWord? : ShiftWord → Option Word
  | .full word => some word
  | _ => none

/-- The held bytes, first in first. -/
def bytes : ShiftWord → List UInt8
  | .empty => []
  | .part word len => word.bytes.take len
  | .full word => word.bytes

def push? (byte : UInt8) : ShiftWord → Option ShiftWord
  | .empty => some (.part byte.toUInt32 1)
  | .part word len =>
    let word := word ||| byte.toUInt32 <<< (8 * UInt32.ofNat len)
    some (if len + 1 = Word.size then .full word else .part word (len + 1))
  | .full _ => none

def push (byte : UInt8) (s : ShiftWord) : ShiftWord := (s.push? byte).getD s

def peek? : ShiftWord → Option UInt8
  | .empty => none
  | .part word _ | .full word => some word.toUInt8

/-- What is left of a word of `len + 1` bytes once its lowest has gone. -/
def dropLow (word : Word) : Nat → ShiftWord
  | 0 => .empty
  | len + 1 => .part (word >>> 8) (len + 1)

def pop? : ShiftWord → Option (UInt8 × ShiftWord)
  | .empty => none
  | .part word len => some (word.toUInt8, dropLow word (len - 1))
  | .full word => some (word.toUInt8, dropLow word (Word.size - 1))

def take (s : ShiftWord) : ShiftWord × ShiftWord := (s, .empty)

/-- A part holds one to three bytes, and nothing above them. -/
def Canonical : ShiftWord → Prop
  | .part word len => 1 ≤ len ∧ len ≤ 3 ∧ word.toNat < 1 <<< (8 * len)
  | _ => True

@[simp] theorem canonical_empty : Canonical .empty := trivial

@[simp] theorem canonical_full (w : Word) : Canonical (.full w) := trivial

@[simp] theorem bytes_empty : bytes .empty = [] := rfl

@[simp] theorem bytes_full (w : Word) : bytes (.full w) = w.bytes := rfl

theorem fullWord?_eq_some_iff {s : ShiftWord} {w : Word} : s.fullWord? = some w ↔ s = .full w := by
  cases s <;> simp [fullWord?]

theorem isFull_eq_false_iff {s : ShiftWord} : s.isFull = false ↔ s.fullWord? = none := by
  cases s <;> simp [fullWord?, isFull]

theorem isEmpty_eq_true_iff {s : ShiftWord} : s.isEmpty = true ↔ s = .empty := by
  cases s <;> simp [isEmpty]

theorem length_bytes {s : ShiftWord} (h : s.Canonical) : s.bytes.length = s.len := by
  match s, h with
  | .empty, _ => rfl
  | .full _, _ => rfl
  | .part _ len, ⟨_, h3, _⟩ => simp [bytes, ShiftWord.len]; omega

theorem isEmpty_iff {s : ShiftWord} (h : s.Canonical) : s.isEmpty = true ↔ s.bytes = [] := by
  match s, h with
  | .empty, _ => simp [isEmpty]
  | .full _, _ => simp [isEmpty, Word.bytes]
  | .part w (len + 1), _ => simp [isEmpty, bytes, Word.bytes]

theorem len_le {s : ShiftWord} (h : s.Canonical) : s.len ≤ 4 := by
  match s, h with
  | .empty, _ => simp [len]
  | .full _, _ => simp [len, Word.size]
  | .part _ _, ⟨_, h3, _⟩ => simp only [len]; omega

theorem isFull_iff_len {s : ShiftWord} (h : s.Canonical) : s.isFull = true ↔ s.len = 4 := by
  match s, h with
  | .empty, _ => simp [isFull, len]
  | .full _, _ => simp [isFull, len, Word.size]
  | .part _ _, ⟨_, h3, _⟩ => simp only [isFull, len]; simp; omega

theorem toNat_or_shift {word : Word} (byte : UInt8) {len : Nat} (hl : len ≤ 3)
    (h : word.toNat < 1 <<< (8 * len)) :
    (word ||| byte.toUInt32 <<< (8 * UInt32.ofNat len)).toNat =
      word.toNat + byte.toNat <<< (8 * len) := by
  have hb : byte.toNat < 256 := byte.toNat_lt
  have hw : word.toNat < 2 ^ (8 * len) := by simpa only [Nat.one_shiftLeft] using h
  have he : (8 * UInt32.ofNat len).toNat % 32 = 8 * len := by
    simp only [UInt32.toNat_mul, UInt32.toNat_ofNat']
    simp
    omega
  have hs : byte.toNat <<< (8 * len) % 2 ^ 32 = byte.toNat <<< (8 * len) := by
    apply Nat.mod_eq_of_lt
    rw [Nat.shiftLeft_eq]
    calc byte.toNat * 2 ^ (8 * len) < 256 * 2 ^ (8 * len) :=
          Nat.mul_lt_mul_of_pos_right hb (Nat.pow_pos (by decide))
      _ ≤ 256 * 2 ^ 24 := Nat.mul_le_mul_left _ (Nat.pow_le_pow_right (by decide) (by omega))
      _ = 2 ^ 32 := by decide
  rw [UInt32.toNat_or, Nat.or_comm, UInt32.toNat_shiftLeft, UInt8.toNat_toUInt32, he, hs,
    ← Nat.shiftLeft_add_eq_or_of_lt hw, Nat.add_comm]

theorem push?_eq_none_iff {s : ShiftWord} {byte : UInt8} :
    s.push? byte = none ↔ s.isFull = true := by
  cases s <;> simp [push?, isFull]

theorem canonical_push {s : ShiftWord} (h : s.Canonical) (byte : UInt8) :
    (s.push byte).Canonical := by
  have hb : byte.toNat < 256 := byte.toNat_lt
  match s, h with
  | .empty, _ => exact ⟨Nat.le_refl 1, by decide, by simpa using hb⟩
  | .full _, _ => trivial
  | .part word len, ⟨h1, h3, hw⟩ =>
    by_cases h4 : len + 1 = 4
    · simp [push, push?, Word.size, h4]
    · simp only [push, push?, Word.size, h4, if_false, Option.getD_some, Canonical]
      refine ⟨by omega, by omega, ?_⟩
      rw [toNat_or_shift byte h3 hw]
      simp only [Nat.shiftLeft_eq] at hw ⊢
      calc word.toNat + byte.toNat * 2 ^ (8 * len)
          < 1 * 2 ^ (8 * len) + byte.toNat * 2 ^ (8 * len) := Nat.add_lt_add_right hw _
        _ = (byte.toNat + 1) * 2 ^ (8 * len) := by rw [← Nat.add_mul, Nat.add_comm]
        _ ≤ 2 ^ 8 * 2 ^ (8 * len) := Nat.mul_le_mul_right _ hb
        _ = 1 * 2 ^ (8 * (len + 1)) := by
          rw [← Nat.pow_add, Nat.one_mul, Nat.add_comm]
          rfl

theorem take_bytes_add {v w : Word} {byte : UInt8} {len : Nat} (hl : len ≤ 3)
    (hw : w.toNat < 1 <<< (8 * len)) (hv : v.toNat = w.toNat + byte.toNat <<< (8 * len)) :
    v.bytes.take (len + 1) = w.bytes.take len ++ [byte] := by
  have hb : byte.toNat < 256 := byte.toNat_lt
  rcases (by omega : len = 0 ∨ len = 1 ∨ len = 2 ∨ len = 3) with rfl | rfl | rfl | rfl
  all_goals
    simp only [Word.bytes, List.take, List.cons_append, List.nil_append, List.cons.injEq,
      and_true, ← UInt8.toNat_inj, UInt32.toNat_toUInt8, UInt32.toNat_shiftRight,
      Nat.shiftRight_eq_div_pow, hv]
    simp
    omega

theorem bytes_push {s : ShiftWord} (h : s.Canonical) (hf : s.isFull = false) (byte : UInt8) :
    (s.push byte).bytes = s.bytes ++ [byte] := by
  match s, h with
  | .empty, _ => simp [push, push?, bytes, Word.bytes]
  | .full _, _ => simp [isFull] at hf
  | .part word len, ⟨h1, h3, hw⟩ =>
    have ht := take_bytes_add h3 hw (toNat_or_shift byte h3 hw)
    by_cases h4 : len + 1 = 4
    · rw [h4, List.take_of_length_le (by simp)] at ht
      simpa [push, push?, Word.size, h4, bytes] using ht
    · simpa [push, push?, Word.size, h4, bytes] using ht

theorem pop?_eq_none_iff {s : ShiftWord} : s.pop? = none ↔ s = .empty := by
  cases s <;> simp [pop?]

theorem canonical_dropLow {w : Word} {len : Nat} (hl : len ≤ 3)
    (hw : w.toNat < 1 <<< (8 * (len + 1))) : (dropLow w len).Canonical := by
  cases len with
  | zero => trivial
  | succ len =>
    refine ⟨by omega, hl, ?_⟩
    have hlow : (w >>> 8).toNat = w.toNat / 256 := by
      rw [UInt32.toNat_shiftRight, Nat.shiftRight_eq_div_pow]
      rfl
    rw [Word.shiftLeft_succ_byte] at hw
    rw [hlow]
    omega

theorem bytes_dropLow {w : Word} {len : Nat} (hl : len ≤ 3) :
    w.toUInt8 :: (dropLow w len).bytes = w.bytes.take (len + 1) := by
  have h8 : ((w >>> 8) >>> 8).toUInt8 = (w >>> 16).toUInt8 :=
    Word.toUInt8_shiftRight_shiftRight w (by decide)
  have h16 : ((w >>> 8) >>> 16).toUInt8 = (w >>> 24).toUInt8 :=
    Word.toUInt8_shiftRight_shiftRight w (by decide)
  match len, hl with
  | 0, _ => rfl
  | 1, _ => rfl
  | 2, _ => simp [dropLow, bytes, Word.bytes, h8]
  | 3, _ => simp [dropLow, bytes, Word.bytes, h8, h16]

theorem canonical_pop {s t : ShiftWord} {byte : UInt8} (h : s.Canonical)
    (hp : s.pop? = some (byte, t)) : t.Canonical := by
  match s, h with
  | .empty, _ => simp [pop?] at hp
  | .full word, _ =>
    simp only [pop?, Option.some.injEq, Prod.mk.injEq] at hp
    exact hp.2 ▸ canonical_dropLow (by decide) word.toNat_lt
  | .part word (len + 1), ⟨h1, h3, hw⟩ =>
    simp only [pop?, Option.some.injEq, Prod.mk.injEq] at hp
    exact hp.2 ▸ canonical_dropLow (by omega) hw

theorem bytes_pop {s t : ShiftWord} {byte : UInt8} (h : s.Canonical)
    (hp : s.pop? = some (byte, t)) : s.bytes = byte :: t.bytes := by
  match s, h with
  | .empty, _ => simp [pop?] at hp
  | .full word, _ =>
    simp only [pop?, Option.some.injEq, Prod.mk.injEq] at hp
    rw [← hp.1, ← hp.2, bytes_dropLow (by decide)]
    rfl
  | .part word (len + 1), ⟨h1, h3, hw⟩ =>
    simp only [pop?, Option.some.injEq, Prod.mk.injEq] at hp
    rw [← hp.1, ← hp.2, Nat.add_sub_cancel, bytes_dropLow (by omega)]
    rfl

theorem eq_of_bytes {v w : ShiftWord} (hv : v.Canonical) (hw : w.Canonical)
    (h : v.bytes = w.bytes) : v = w := by
  have hlen : v.len = w.len := by rw [← length_bytes hv, ← length_bytes hw, h]
  match v, w, hv, hw with
  | .empty, .empty, _, _ => rfl
  | .full v, .full w, _, _ => exact congrArg ShiftWord.full (Word.bytes_injective h)
  | .part v i, .part w j, ⟨_, h3, hv⟩, ⟨_, _, hw⟩ =>
    cases hlen
    rw [Word.eq_of_take_bytes h3 hv hw h]
  | .empty, .part _ _, _, ⟨h1, _, _⟩ | .part _ _, .empty, ⟨h1, _, _⟩, _
  | .part _ _, .full _, ⟨_, h1, _⟩, _ | .full _, .part _ _, _, ⟨_, h1, _⟩ =>
    simp only [len, Word.size] at hlen
    omega

end ShiftWord

end PolledUart
