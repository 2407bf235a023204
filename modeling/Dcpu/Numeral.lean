import Dcpu.Text.Quoted

set_option autoImplicit false

namespace Dcpu

structure NumeralRules where
  binary : Bool
  underscore : Bool
deriving DecidableEq, Repr

inductive NumeralError
  | binaryDisabled
  | separatorDisabled
  | misplacedSeparator
  | malformed
  | badDigit
  | outOfRange
deriving DecidableEq, Repr

namespace Numeral

def largest : Nat := 0x7fffffffffffffff

def underscore : UInt8 := 0x5f

def splitBase (rules : NumeralRules) : Text → Except NumeralError (Nat × Text)
  -- Two bytes are too few for a mark of the base and a digit.
  | 0x30 :: mark :: d :: rest =>
      if mark = 0x78 ∨ mark = 0x58 then .ok (16, d :: rest)
      else if mark = 0x62 ∨ mark = 0x42 then
        if rules.binary then .ok (2, d :: rest) else .error .binaryDisabled
      else .ok (10, 0x30 :: mark :: d :: rest)
  | t => .ok (10, t)

def dropSeparators (rules : NumeralRules) (digits : Text) : Except NumeralError Text :=
  if underscore ∉ digits then .ok digits
  else if !rules.underscore then .error .separatorDisabled
  else if digits.head? = some underscore ∨ digits.getLast? = some underscore then
    .error .misplacedSeparator
  else .ok (digits.filter (· != underscore))

def readValue (base : Nat) : Nat → Text → Except NumeralError Nat
  | value, [] => .ok value
  | value, b :: rest =>
      match Text.digitValue? b with
      | none => .error .badDigit
      | some d =>
          if base ≤ d then .error .badDigit
          -- A value past 64 bits ends the reading, so that a bad digit further on does not count.
          else if 0x10000000000000000 ≤ value * base + d then .error .outOfRange
          else readValue base (value * base + d) rest

def decode (rules : NumeralRules) (t : Text) : Except NumeralError Nat := do
  let (base, marked) ← splitBase rules t
  let digits ← dropSeparators rules marked
  match digits.head? with
  | none | some 0x2b | some 0x2d => .error .malformed
  | _ =>
      let value ← readValue base 0 digits
      if value ≤ largest then .ok value else .error .outOfRange

end Numeral

namespace NumeralError

def message : NumeralError → Text
  | .binaryDisabled => "Binary literals not enabled"
  | .separatorDisabled => "Underscores in numbers not enabled"
  | .misplacedSeparator => "Invalid digit separator"
  | .malformed => "Invalid number"
  | .badDigit => "invalid syntax"
  | .outOfRange => "value out of range"

/-- What stands in for the value. -/
def value : NumeralError → Nat
  | .outOfRange => Numeral.largest
  | _ => 0

end NumeralError

end Dcpu
