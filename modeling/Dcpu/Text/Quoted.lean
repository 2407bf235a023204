import Dcpu.Text.Utf8

/-!
Quoted literals: the bytes that stand for what is written between two quotes. Escapes that name a
byte (`\x`, octal) give that byte alone; escapes that name a character give its UTF-8 bytes, and so
does a character that stands for itself, which turns a stray byte into U+FFFD.
-/

set_option autoImplicit false

namespace Dcpu

namespace Text

def backslash : UInt8 := 0x5c

def digitValue? (b : UInt8) : Option Nat :=
  if 0x30 ≤ b ∧ b ≤ 0x39 then some (b.toNat - 0x30)
  else if 0x61 ≤ b ∧ b ≤ 0x7a then some (b.toNat - 0x61 + 10)
  else if 0x41 ≤ b ∧ b ≤ 0x5a then some (b.toNat - 0x41 + 10)
  else none

def readDigits (base : Nat) : Nat → Nat → Text → Option (Nat × Text)
  | 0, value, rest => some (value, rest)
  | _ + 1, _, [] => none
  | n + 1, value, b :: rest =>
      match digitValue? b with
      | none => none
      | some d => if d < base then readDigits base n (value * base + d) rest else none

theorem readDigits_rest_le {base n value result : Nat} {t rest : Text}
    (h : readDigits base n value t = some (result, rest)) : rest.length ≤ t.length := by
  induction n generalizing value t with
  | zero => simp [readDigits] at h; simp [h.2]
  | succ n ih =>
      cases t with
      | nil => simp [readDigits] at h
      | cons b t =>
          simp only [readDigits] at h
          split at h
          · simp at h
          · split at h
            · have := ih h
              simp; omega
            · simp at h

def byteEscape (base count limit : Nat) (t : Text) : Option (Text × Text) :=
  match readDigits base count 0 t with
  | some (n, rest) => if n ≤ limit then some ([n.toUInt8], rest) else none
  | none => none

def charEscape (count : Nat) (t : Text) : Option (Text × Text) :=
  match readDigits 16 count 0 t with
  | some (n, rest) =>
      if h : n.isValidChar then some (ofChar (Char.ofNatAux n h), rest) else none
  | none => none

def readEscape (quote : UInt8) : Text → Option (Text × Text)
  | [] => none
  | b :: rest =>
      match Char.ofUInt8 b with
      | 'a' => some ([0x07], rest)
      | 'b' => some ([0x08], rest)
      | 't' => some ([0x09], rest)
      | 'n' => some ([0x0a], rest)
      | 'v' => some ([0x0b], rest)
      | 'f' => some ([0x0c], rest)
      | 'r' => some ([0x0d], rest)
      | '\\' => some ([backslash], rest)
      | '\'' | '"' => if b = quote then some ([b], rest) else none
      | 'x' => byteEscape 16 2 255 rest
      | 'u' => charEscape 4 rest
      | 'U' => charEscape 8 rest
      | _ => byteEscape 8 3 255 (b :: rest)

def readItem (quote b : UInt8) (rest : Text) : Option (Text × Text) :=
  if b = backslash then readEscape quote rest
  else if b = quote then none
  else
    let (c, width) := decodeFirst b rest
    some (ofChar c, rest.drop (width - 1))

theorem byteEscape_rest_le {base count limit : Nat} {t bytes rest : Text}
    (h : byteEscape base count limit t = some (bytes, rest)) : rest.length ≤ t.length := by
  unfold byteEscape at h
  split at h
  · rename_i read
    have := readDigits_rest_le read
    grind
  · simp at h

theorem charEscape_rest_le {count : Nat} {t bytes rest : Text}
    (h : charEscape count t = some (bytes, rest)) : rest.length ≤ t.length := by
  unfold charEscape at h
  split at h
  · rename_i n _ read
    by_cases valid : n.isValidChar
    · rw [dif_pos valid] at h
      cases h
      exact readDigits_rest_le read
    · rw [dif_neg valid] at h
      cases h
  · simp at h

theorem readEscape_rest_le {quote : UInt8} {t bytes rest : Text}
    (h : readEscape quote t = some (bytes, rest)) : rest.length ≤ t.length := by
  cases t with
  | nil => simp [readEscape] at h
  | cons b t =>
      simp only [readEscape] at h
      split at h
      case h_11 => exact Nat.le_succ_of_le (byteEscape_rest_le h)
      case h_12 | h_13 => exact Nat.le_succ_of_le (charEscape_rest_le h)
      case h_14 => exact byteEscape_rest_le h
      all_goals grind

theorem readItem_rest_le {quote b : UInt8} {t bytes rest : Text}
    (h : readItem quote b t = some (bytes, rest)) : rest.length ≤ t.length := by
  unfold readItem at h
  split at h
  · exact readEscape_rest_le h
  · split at h
    · simp at h
    · simp only [Option.some.injEq, Prod.mk.injEq] at h
      simp [← h.2]

def readItems (quote : UInt8) (found : Text) : Text → Option Text
  -- What was found stands last first.
  | [] => some found.reverse
  | b :: rest =>
      match _read : readItem quote b rest with
      | none => none
      | some (bytes, after) => readItems quote (bytes.reverse ++ found) after
termination_by t => t.length
decreasing_by
  have := readItem_rest_le _read
  simp only [List.length_cons]
  omega

def doubleQuote : UInt8 := 0x22

def singleQuote : UInt8 := 0x27

def unquoteString (inner : Text) : Option Text := readItems doubleQuote [] inner

def unquoteCharacter : Text → Option Text
  -- There must be exactly one item.
  | [] => none
  | b :: rest =>
      match readItem singleQuote b rest with
      | some (bytes, []) => some bytes
      | _ => none

end Text

end Dcpu
