import Dcpu.Text.Utf8

/-!
Lower case, as far as names need it. The names of the language are ASCII, and outside ASCII only
two characters have an ASCII lower case; every other character is kept, which no name can equal.
-/

set_option autoImplicit false

namespace Dcpu

namespace Text

def lowerChar (c : Char) : Char :=
  if c = '\u0130' then 'i'
  else if c = '\u212a' then 'k'
  else c.toLower

def lower (t : Text) : Text := t.chars.flatMap fun c => ofChar (lowerChar c)

def upperByte (b : UInt8) : UInt8 := if 0x61 ≤ b ∧ b ≤ 0x7a then b - 0x20 else b

def upper (t : Text) : Text := t.map upperByte

end Text

end Dcpu
