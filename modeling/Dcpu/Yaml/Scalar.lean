import Dcpu.Text.Digits
import Dcpu.Text.Quoted
import Dcpu.Yaml

set_option autoImplicit false

namespace Dcpu

namespace Yaml

inductive ScalarValue
  | null
  | bool (value : Bool)
  | integer
  | float
  | timestamp
  | string
deriving DecidableEq, Repr

namespace ScalarValue

def tag : ScalarValue → Text
  | .null => "!!null"
  | .bool _ => "!!bool"
  | .integer => "!!int"
  | .float => "!!float"
  | .timestamp => "!!timestamp"
  | .string => "!!str"

end ScalarValue

open Text (isDigit)

def isSign (b : UInt8) : Bool := b == 0x2b || b == 0x2d

def withoutSign (t : Text) : Text :=
  match t with
  | b :: rest => if isSign b then rest else t
  | [] => []

def natural? (base : Nat) (t : Text) : Option Nat :=
  if t.isEmpty then none
  else
    t.foldlM (fun n b => do
      let d ← Text.digitValue? b
      if d < base then some (n * base + d) else none) 0

def baseAndDigits (t : Text) : Nat × Text :=
  match t with
  | 0x30 :: b :: rest =>
      let letter := b ||| 0x20
      if letter = 0x78 then (16, rest)
      else if letter = 0x62 then (2, rest)
      else if letter = 0x6f then (8, rest)
      else (8, b :: rest)
  | _ => (10, t)

def fits (t : Text) (n : Nat) : Bool :=
  match t.head? with
  | some 0x2d => n ≤ 0x8000000000000000
  | some 0x2b => n < 0x8000000000000000
  | _ => n < 0x10000000000000000

def isInteger (t : Text) : Bool :=
  let (base, digits) := baseAndDigits (withoutSign t)
  (natural? base digits).any (fits t)

def isSignedDigits (t : Text) : Bool :=
  -- Binary and octal numbers may also have their sign behind the base.
  match t with
  | 0x30 :: b :: rest =>
      rest.head?.any isSign &&
        (b == 0x62 && (natural? 2 (withoutSign rest)).any (fits rest) ||
          b == 0x6f && (natural? 8 (withoutSign rest)).any (fits rest))
  | _ => false

def exponent? (t : Text) : Option Int :=
  match t with
  | [] => some 0
  | b :: rest =>
      if b ||| 0x20 = 0x65 then
        (natural? 10 (withoutSign rest)).map fun n =>
          if rest.head? = some 0x2d then -(n : Int) else n
      else none

/-- The least number that is too large for 64 bits of floating point. -/
def floatLimit : Nat := 1 <<< 1024 - 1 <<< 970

def belowLimit (digits : Nat) (exponent : Int) : Bool :=
  if digits = 0 ∨ exponent + (Text.decimal digits).length < 300 then true
  -- Beyond 400 digits the answer is known.
  else if 400 < exponent + (Text.decimal digits).length then false
  else if 0 ≤ exponent then digits * Nat.pow 10 exponent.toNat < floatLimit
  else digits < floatLimit * Nat.pow 10 (-exponent).toNat

def isFloat (t : Text) : Bool :=
  let t := withoutSign t
  let whole := t.takeWhile isDigit
  let rest := t.dropWhile isDigit
  let (fraction, rest) : Text × Text :=
    match rest with
    | 0x2e :: rest => (rest.takeWhile isDigit, rest.dropWhile isDigit)
    | _ => ([], rest)
  match natural? 10 (whole ++ fraction), exponent? rest with
  | some digits, some exponent => belowLimit digits (exponent - fraction.length)
  | _, _ => false

def clockNumber? (least most : Nat) (t : Text) : Option (Nat × Text) := do
  let digits := (t.take 2).takeWhile isDigit
  let n ← natural? 10 digits
  if least ≤ n ∧ n ≤ most then some (n, t.drop digits.length) else none

def expect? (b : UInt8) (t : Text) : Option Text :=
  if t.head? = some b then some (t.drop 1) else none

def daysIn (year month : Nat) : Nat :=
  if month = 2 then
    if year % 4 = 0 ∧ (year % 100 ≠ 0 ∨ year % 400 = 0) then 29 else 28
  else if month = 4 ∨ month = 6 ∨ month = 9 ∨ month = 11 then 30
  else 31

def afterDate? (t : Text) : Option Text := do
  let digits := t.takeWhile isDigit
  if digits.length ≠ 4 then none
  else
    let year ← natural? 10 digits
    let (month, rest) ← clockNumber? 1 12 (← expect? 0x2d (t.drop 4))
    let (_, rest) ← clockNumber? 1 (daysIn year month) (← expect? 0x2d rest)
    some rest

def afterTime? (t : Text) : Option Text := do
  let (_, rest) ← clockNumber? 0 23 t
  let (_, rest) ← clockNumber? 0 59 (← expect? 0x3a rest)
  let (_, rest) ← clockNumber? 0 59 (← expect? 0x3a rest)
  match rest with
  | b :: d :: more =>
      if (b = 0x2e ∨ b = 0x2c) ∧ isDigit d then some (more.dropWhile isDigit) else some rest
  | _ => some rest

def twoDigits? (most : Nat) (t : Text) : Option Text :=
  match t with
  | a :: b :: rest =>
      if (natural? 10 [a, b]).any (· ≤ most) then some rest else none
  | _ => none

def isZone (t : Text) : Bool :=
  match t with
  | [0x5a] => true
  | b :: rest =>
      isSign b &&
        (twoDigits? 24 rest >>= expect? 0x3a >>= twoDigits? 60) == some []
  | [] => false

def isTimestamp (t : Text) : Bool :=
  -- A date, or a date with a time: behind a letter with a time zone, behind a blank without.
  match afterDate? t with
  | none => false
  | some [] => true
  | some (b :: rest) =>
      match afterTime? rest with
      | none => false
      | some zone => if b = 0x20 then zone.isEmpty else b ||| 0x20 == 0x74 && isZone zone

def nullNames : List Text := ["", "~", "null", "Null", "NULL"]

def trueNames : List Text := ["true", "True", "TRUE"]

def falseNames : List Text := ["false", "False", "FALSE"]

def floatNames : List Text :=
  [".nan", ".NaN", ".NAN", ".inf", ".Inf", ".INF", "+.inf", "+.Inf", "+.INF", "-.inf", "-.Inf",
    "-.INF"]

def numberValue (t : Text) : ScalarValue :=
  -- A number that starts with a digit or a sign may have underscores among its digits.
  let digits := t.filter (· != 0x5f)
  if isTimestamp t then .timestamp
  else if isInteger digits then .integer
  else if isFloat digits then .float
  else if isSignedDigits digits then .integer
  else .string

def plainValue (t : Text) : ScalarValue :=
  if nullNames.contains t then .null
  else if trueNames.contains t then .bool true
  else if falseNames.contains t then .bool false
  else if floatNames.contains t then .float
  else
    match t with
    | b :: _ =>
        if isSign b || isDigit b then numberValue t
        else if b == 0x2e && isFloat t then .float
        else .string
    | [] => .string

def scalarValue (quoted : Bool) (t : Text) : ScalarValue :=
  if quoted then .string else plainValue t

end Yaml

end Dcpu
