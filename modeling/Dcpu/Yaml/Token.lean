import Dcpu.Yaml

set_option autoImplicit false

namespace Dcpu

namespace Yaml

inductive TokenKind
  | documentStart
  | documentEnd
  | blockSequenceStart
  | blockMappingStart
  | blockEnd
  | flowSequenceStart
  | flowSequenceEnd
  | flowMappingStart
  | flowMappingEnd
  -- the dash in front of an item of a block sequence
  | dash
  | comma
  | key
  | value
  | scalar (quoted : Bool) (text : Text)
  | streamEnd
  -- the text cannot be read any further
  | fault (error : SyntaxError)
deriving DecidableEq, Repr

structure Token where
  kind : TokenKind
  line : Nat
deriving DecidableEq, Repr

end Yaml

end Dcpu
