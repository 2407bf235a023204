import Dcpu.Text.Utf8
import Dcpu.Yaml

set_option autoImplicit false

namespace Dcpu

namespace Yaml

def isAllowed (c : Char) : Bool :=
  let n := c.toNat
  n == 0x09 || n == 0x0a || n == 0x0d || (0x20 ≤ n && n ≤ 0x7e) || n == 0x85 ||
    (0xa0 ≤ n && n ≤ 0xfffd) || 0x10000 ≤ n

def byteOrderMark : Char := '\ufeff'

def encodingProblem (b : UInt8) (rest : Text) : Text :=
  match Text.leadByte? b with
  | none => "invalid leading UTF-8 octet"
  | some (more, bits, least) =>
      if rest.length < more then "incomplete UTF-8 octet sequence"
      else
        match Text.continueBits more bits rest with
        | none => "invalid trailing UTF-8 octet"
        | some value =>
            if value < least then "invalid length of a UTF-8 sequence"
            else "invalid Unicode character"

def characterError (problem : Text) : SyntaxError := ⟨.characters, 1, 1, problem⟩

def charactersAfter (found : List Char) (taken : Nat) : Text → Except SyntaxError (List Char)
  -- What was found stands last first, and as many bytes as `taken` belong to the last character.
  | [] => .ok found.reverse
  | b :: rest =>
      match taken with
      | taken + 1 => charactersAfter found taken rest
      | 0 =>
          match Text.sequence? b rest with
          | none => .error (characterError (encodingProblem b rest))
          | some (c, width) =>
              if isAllowed c then charactersAfter (c :: found) (width - 1) rest
              else .error (characterError "control characters are not allowed")

def characters (t : Text) : Except SyntaxError (List Char) := do
  -- A byte order mark in front is no part of the document.
  match ← charactersAfter [] 0 t with
  | c :: rest => return if c = byteOrderMark then rest else c :: rest
  | [] => return []

end Yaml

end Dcpu
