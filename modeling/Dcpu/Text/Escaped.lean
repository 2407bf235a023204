import Dcpu.Text.Digits
import Dcpu.Text.Utf8

set_option autoImplicit false

namespace Dcpu

namespace Text

def isControl (c : Char) : Bool :=
  c.toNat < 0x20 || 0x7f ≤ c.toNat && c.toNat < 0xa0 || c.toNat == 0xad

def escapedChar (c : Char) : Text :=
  match c with
  | '"' => "\\\""
  | '\\' => "\\\\"
  | '\x07' => "\\a"
  | '\x08' => "\\b"
  | '\x0c' => "\\f"
  | '\n' => "\\n"
  | '\r' => "\\r"
  | '\t' => "\\t"
  | '\x0b' => "\\v"
  | _ =>
      if !isControl c then ofChar c
      else if c.toNat < 0x80 then "\\x" ++ hexDigits 2 c.toNat
      else "\\u" ++ hexDigits 4 c.toNat

def escapedBytes (taken : Nat) : Text → Text
  | [] => []
  | b :: rest =>
      match taken with
      | taken + 1 => escapedBytes taken rest
      | 0 =>
          match sequence? b rest with
          | some (c, width) => escapedChar c ++ escapedBytes (width - 1) rest
          | none => "\\x" ++ hexDigits 2 b.toNat ++ escapedBytes 0 rest

def escaped (t : Text) : Text := "\"" ++ escapedBytes 0 t ++ "\""

end Text

end Dcpu
