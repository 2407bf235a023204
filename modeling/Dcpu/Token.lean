import Dcpu.Position

set_option autoImplicit false

namespace Dcpu

inductive TokenKind
  | endOfLine
  | identifier
  | literal
  | character
  | string
  | colon
  | comma
  | atSign
  | plus
  | minus
  | leftBracket
  | rightBracket
  | tilde
  -- a kind that no token has
  | invalid
deriving DecidableEq, Repr

namespace TokenKind

def describe : TokenKind → Text
  | .endOfLine => "End of line"
  | .identifier => "Identifier"
  | .literal => "Literal"
  | .character => "Character"
  | .string => "String"
  | .colon => "':'"
  | .comma => "','"
  | .atSign => "'@'"
  | .plus => "'+'"
  | .minus => "'-'"
  | .leftBracket => "'['"
  | .rightBracket => "']'"
  | .tilde => "'~'"
  | .invalid => "<invalid>"

def ofChar? : Char → Option TokenKind
  | ':' => some .colon
  | ',' => some .comma
  | '@' => some .atSign
  | '+' => some .plus
  | '-' => some .minus
  | '[' => some .leftBracket
  | ']' => some .rightBracket
  | '~' => some .tilde
  | _ => none

end TokenKind

/-- The value of a string or character token is what it stands for, of any other what is written. -/
structure Token where
  kind : TokenKind
  position : Position
  value : Text
deriving DecidableEq, Repr

end Dcpu
