import Dcpu.Word

set_option autoImplicit false

namespace Dcpu

inductive CodeKind
  | instruction
  | literal
  -- the value of a label, by its index
  | label
  -- the value of a difference, by its index
  | difference
  | other (number : UInt8)
deriving DecidableEq, Repr

structure Code where
  kind : CodeKind
  value : Word
  -- whether the word is the negative of what the kind says
  negated : Bool := false
  -- whether the word is data where its kind does not show it
  inData : Bool := false
deriving DecidableEq, Repr

namespace Code

def instruction (word : Word) : Code := { kind := .instruction, value := word }

def literal (word : Word) : Code := { kind := .literal, value := word }

def label (index : Nat) : Code := { kind := .label, value := index.toUInt16 }

def difference (index : Nat) : Code := { kind := .difference, value := index.toUInt16 }

def negate (code : Code) : Code := { code with negated := !code.negated }

end Code

/-- How far the target is from the base. -/
structure Difference where
  base : Code
  target : Code
deriving DecidableEq, Repr

end Dcpu
