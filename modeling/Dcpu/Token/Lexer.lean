import Dcpu.Diagnostic
import Dcpu.Text.Blank
import Dcpu.Text.Quoted

set_option autoImplicit false

namespace Dcpu

/-- Which characters besides letters, digits and underscores a name may have. -/
structure NameRules where
  dots : Bool
  dollars : Bool
deriving DecidableEq, Repr

namespace NameRules

def isLetter (b : UInt8) : Bool := (0x41 ≤ b && b ≤ 0x5a) || (0x61 ≤ b && b ≤ 0x7a)

def isUnderscore (b : UInt8) : Bool := b == 0x5f

def startsName (rules : NameRules) (b : UInt8) : Bool :=
  isLetter b || isUnderscore b || (b == 0x2e && rules.dots) || (b == 0x24 && rules.dollars)

def inName (rules : NameRules) (b : UInt8) : Bool := Text.isDigit b || rules.startsName b

def inNumeral (b : UInt8) : Bool := Text.isDigit b || isLetter b || isUnderscore b

end NameRules

/-- What stands at the front of the rest of a line. `more` counts its bytes after the first. -/
inductive Lexeme
  | blank (more : Nat)
  | token (kind : TokenKind) (value : Text) (more : Nat)
  | error (cause : Cause) (more : Nat)
  -- a comment, to the end of the line
  | comment
  -- a quote that nothing closes, to the end of the line
  | unclosed (cause : Cause)
deriving DecidableEq, Repr

namespace Lexeme

def beforeQuote? (quote : UInt8) (found : Text) : Text → Option Text
  | [] => none
  | b :: rest =>
      if b = Text.backslash then
        match rest with
        | [] => none
        -- A backslash takes the byte behind it along.
        | escaped :: after => beforeQuote? quote (escaped :: b :: found) after
      else if b = quote then some found.reverse
      else beforeQuote? quote (b :: found) rest

def quoted (kind : TokenKind) (cause : Cause) (quote : UInt8)
    (unquote : Text → Option Text) (rest : Text) : Lexeme :=
  match beforeQuote? quote [] rest with
  | none => .unclosed cause
  | some inner =>
      match unquote inner with
      | some value => .token kind value (inner.length + 1)
      | none => .error cause (inner.length + 1)

def run (kind : TokenKind) (accept : UInt8 → Bool) (b : UInt8) (rest : Text) : Lexeme :=
  let further := rest.takeWhile accept
  .token kind (b :: further) further.length

def ofChar (c : Char) (b : UInt8) (more : Nat) : Lexeme :=
  match TokenKind.ofChar? c with
  | some kind => .token kind [b] more
  | none => .error (.unexpectedCharacter c) more

def next (rules : NameRules) (b : UInt8) (rest : Text) : Lexeme :=
  let (c, width) := Text.decodeFirst b rest
  if Text.isBlank c then .blank (width - 1)
  else if c = ';' then .comment
  else if c = '"' then quoted .string .invalidString Text.doubleQuote Text.unquoteString rest
  else if c = '\'' then
    quoted .character .invalidCharacter Text.singleQuote Text.unquoteCharacter rest
  else if Text.isDigit b then run .literal NameRules.inNumeral b rest
  else if rules.startsName b then run .identifier rules.inName b rest
  else ofChar c b (width - 1)

end Lexeme

structure LineStart where
  line : Nat
  byte : Nat
deriving DecidableEq, Repr

namespace LineStart

def position (start : LineStart) (offset size : Nat) : Position where
  line := start.line
  column := offset + 1
  byte := start.byte + offset
  size := size
  lineByte := start.byte

end LineStart

structure LineTokens where
  tokens : List Token
  errors : List Diagnostic
deriving DecidableEq, Repr

namespace LineTokens

def readFrom (rules : NameRules) (start : LineStart) (tokens : List Token)
    (errors : List Diagnostic) (offset : Nat) : Text → LineTokens
  -- What is in the lists stands last first.
  | [] => ⟨tokens.reverse, errors.reverse⟩
  | b :: rest =>
      match Lexeme.next rules b rest with
      | .blank more => readFrom rules start tokens errors (offset + more + 1) (rest.drop more)
      | .token kind value more =>
          readFrom rules start (⟨kind, start.position offset (more + 1), value⟩ :: tokens) errors
            (offset + more + 1) (rest.drop more)
      | .error cause more =>
          readFrom rules start tokens (⟨start.position offset (more + 1), cause⟩ :: errors)
            (offset + more + 1) (rest.drop more)
      | .comment => ⟨tokens.reverse, errors.reverse⟩
      | .unclosed cause =>
          ⟨tokens.reverse,
            (⟨start.position offset (rest.length + 1), cause⟩ :: errors).reverse⟩
termination_by t => t.length
decreasing_by all_goals simp only [List.length_drop, List.length_cons]; omega

def ofLine (rules : NameRules) (start : LineStart) (line : Text) : LineTokens :=
  readFrom rules start [] [] 0 line

end LineTokens

end Dcpu
