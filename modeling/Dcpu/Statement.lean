import Dcpu.Position

set_option autoImplicit false

namespace Dcpu

inductive Atom
  | number (value : Int) (position : Position)
  | character (value : Int) (position : Position)
  | identifier (name : Text) (position : Position)
  -- `~target`: how far the target is from here
  | difference (target : Atom) (position : Position)
  | absent
deriving DecidableEq, Repr

namespace Atom

def position : Atom → Position
  | .number _ p | .character _ p | .identifier _ p | .difference _ p => p
  | .absent => .nowhere

end Atom

/-- `head`, or `head~tail`: how far the tail is from the head. -/
structure Expression where
  head : Atom
  tail : Option Atom
  position : Position
deriving DecidableEq, Repr

inductive StackAccess
  | push
  | pop
  | peek
  | pick
  | unknown
deriving DecidableEq, Repr

inductive OffsetSign
  | plus
  | minus
  | unknown
deriving DecidableEq, Repr

structure RegisterName where
  name : Text
  position : Position
deriving DecidableEq, Repr

inductive Argument
  | register (name : Text) (position : Position)
  | special (name : Text) (position : Position)
  -- `[register]`
  | lookup (register : Option RegisterName) (position : Position)
  -- `[register+offset]` or `[register-offset]`
  | offsetLookup (register : Option RegisterName) (sign : OffsetSign)
      (offset : Option Expression) (position : Position)
  | stack (access : StackAccess) (offset : Option Expression) (position : Position)
  | literal (value : Option Expression) (position : Position)
  -- `[value]`
  | literalLookup (value : Option Expression) (position : Position)
deriving DecidableEq, Repr

namespace Argument

def position : Argument → Position
  | .register _ p | .special _ p | .lookup _ p | .offsetLookup _ _ _ p | .stack _ _ p
  | .literal _ p | .literalLookup _ p => p

end Argument

inductive DataValue
  | string (text : Text) (position : Position)
  -- `~`: the number of words that follow in the same directive
  | lengthMarker (position : Position)
  | word (value : Expression)
deriving DecidableEq, Repr

namespace DataValue

def position : DataValue → Position
  | .string _ p | .lengthMarker p => p
  | .word value => value.position

end DataValue

inductive Body
  -- `@ value`: the label of the line stands for the value
  | addressFix (value : Option Expression) (position : Position)
  | basic (opcode : Text) (a b : Option Argument) (position : Position)
  | extended (opcode : Text) (argument : Option Argument) (position : Position)
  | data (values : List (Option DataValue)) (position : Position)
deriving DecidableEq, Repr

structure LabelDefinition where
  name : Text
  position : Position
deriving DecidableEq, Repr

structure Statement where
  label : Option LabelDefinition
  body : Option Body
  position : Position
deriving DecidableEq, Repr

end Dcpu
