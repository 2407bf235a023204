import Dcpu.Text

/-!
Characters of a byte string. A byte that starts no well-formed sequence is read as U+FFFD and takes
one byte, so decoding always gets on and never fails.
-/

set_option autoImplicit false

namespace Dcpu

namespace Text

def replacement : Char := '\ufffd'

/-- Continuation bytes to come, the bits in hand, and the least value that needs this length. -/
def leadByte? (b : UInt8) : Option (Nat × Nat × Nat) :=
  if b < 0x80 then some (0, b.toNat, 0)
  else if b < 0xC0 then none
  else if b < 0xE0 then some (1, b.toNat % 32, 0x80)
  else if b < 0xF0 then some (2, b.toNat % 16, 0x800)
  else if b < 0xF8 then some (3, b.toNat % 8, 0x10000)
  else none

def continueBits : Nat → Nat → Text → Option Nat
  | 0, bits, _ => some bits
  | _ + 1, _, [] => none
  | n + 1, bits, b :: rest =>
      if 0x80 ≤ b ∧ b < 0xC0 then continueBits n (bits * 64 + b.toNat % 64) rest else none

def sequence? (b : UInt8) (rest : Text) : Option (Char × Nat) := do
  -- No surrogates, no overlong forms.
  let (more, bits, least) ← leadByte? b
  let value ← continueBits more bits rest
  if h : value.isValidChar then
    if least ≤ value then some (Char.ofNatAux value h, more + 1) else none
  else none

def decodeFirst (b : UInt8) (rest : Text) : Char × Nat :=
  (sequence? b rest).getD (replacement, 1)

theorem leadByte?_le {b : UInt8} {more bits least : Nat}
    (h : leadByte? b = some (more, bits, least)) : more ≤ 3 := by
  unfold leadByte? at h
  grind

theorem sequence?_width {b : UInt8} {rest : Text} {c : Char} {n : Nat}
    (h : sequence? b rest = some (c, n)) : 1 ≤ n ∧ n ≤ 4 := by
  obtain ⟨⟨more, bits, least⟩, lead, h⟩ := Option.bind_eq_some_iff.1 h
  obtain ⟨value, _, result⟩ := Option.bind_eq_some_iff.1 h
  have := leadByte?_le lead
  by_cases valid : value.isValidChar
  · rw [dif_pos valid] at result
    by_cases whole : least ≤ value
    · rw [if_pos whole] at result
      cases result
      omega
    · rw [if_neg whole] at result
      cases result
  · rw [dif_neg valid] at result
    cases result

theorem decodeFirst_width (b : UInt8) (rest : Text) :
    1 ≤ (decodeFirst b rest).2 ∧ (decodeFirst b rest).2 ≤ 4 := by
  unfold decodeFirst
  cases h : sequence? b rest with
  | none => simp
  | some found => exact sequence?_width (c := found.1) h

def charsAfter (found : List Char) : Text → List Char
  -- What was found stands last first.
  | [] => found.reverse
  | b :: rest =>
      let first := decodeFirst b rest
      charsAfter (first.1 :: found) (rest.drop (first.2 - 1))
termination_by t => t.length
decreasing_by simp only [List.length_drop, List.length_cons]; omega

/-- The characters, with U+FFFD for each byte that is not part of one. -/
def chars (t : Text) : List Char := charsAfter [] t

theorem charsAfter_eq (found : List Char) (t : Text) :
    charsAfter found t = found.reverse ++ charsAfter [] t := by
  induction h : t.length using Nat.strongRecOn generalizing found t with
  | ind n ih =>
      cases t with
      | nil => simp [charsAfter]
      | cons b rest =>
          have step := ih (rest.drop ((decodeFirst b rest).2 - 1)).length
            (by simp at h; simp; omega)
          rw [charsAfter, step _ _ rfl, charsAfter, step [_] _ rfl]
          simp

@[simp] theorem chars_nil : chars [] = [] := by simp [chars, charsAfter]

theorem chars_cons (b : UInt8) (rest : Text) :
    chars (b :: rest) =
      (decodeFirst b rest).1 :: chars (rest.drop ((decodeFirst b rest).2 - 1)) := by
  rw [chars, charsAfter, charsAfter_eq]
  rfl

def isUtf8 : Text → Bool
  | [] => true
  | b :: rest =>
      match sequence? b rest with
      | none => false
      | some (_, width) => isUtf8 (rest.drop (width - 1))
termination_by t => t.length
decreasing_by simp only [List.length_drop, List.length_cons]; omega

def ofChar (c : Char) : Text := String.utf8EncodeChar c

def padRight (width : Nat) (t : Text) : Text :=
  t ++ List.replicate (width - t.chars.length) 0x20

end Text

end Dcpu
