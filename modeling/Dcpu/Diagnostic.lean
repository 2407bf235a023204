import Dcpu.Layout
import Dcpu.Text.Utf8
import Dcpu.Token

set_option autoImplicit false

namespace Dcpu

inductive Construct
  | opcode (name : Text)
  | missingArgument
  | register (name : Text)
  | registerLookup
  | registerOffsetLookup
  | pickOnLayout (layout : Layout)
  | pickWithoutOffset
  | stackOperation
  | argumentFor (name : Text)
  | missingLiteral
  | differenceLiteral
  | emptyLiteral
  | lengthMarker
  | emptyDataValue
  | emptyStatement
  | addressFix
  | addressFixWithoutLabel
deriving DecidableEq, Repr

namespace Construct

def describe : Construct → Text
  | .opcode name => "opcode '" ++ name ++ "'"
  | .missingArgument => "missing argument"
  | .register name => "register '" ++ name ++ "'"
  | .registerLookup => "register lookup"
  | .registerOffsetLookup => "register offset lookup"
  | .pickOnLayout layout => "pick on layout " ++ layout.name
  | .pickWithoutOffset => "pick without offset"
  | .stackOperation => "stack operation"
  | .argumentFor name => "argument for '" ++ name ++ "'"
  | .missingLiteral => "missing literal"
  | .differenceLiteral => "difference literal"
  | .emptyLiteral => "literal <nil>"
  | .lengthMarker => "length marker"
  | .emptyDataValue => "data value <nil>"
  | .emptyStatement => "statement <nil>"
  | .addressFix => "address fix"
  | .addressFixWithoutLabel => "address fix without a label"

end Construct

inductive Cause
  | duplicateLabel (name : Text) (first : Position)
  | undefinedLabel (name : Text)
  | circularLabel (name target : Text)
  | differenceFix
  | unexpectedConstruct (construct : Construct)
  | numericOverflow (value : Int)
  | oversizedImage
  | invalidOperand (required : List TokenKind) (received : TokenKind)
  | argumentCount (required received : Nat)
  | invalidLiteral
  | invalidString
  | invalidCharacter
  | unexpectedCharacter (received : Char)
  | unexpectedToken (received : Text)
  | unknownIdentifier (name : Text)
deriving DecidableEq, Repr

namespace Cause

def alternatives : List Text → Text
  | [] => []
  | [x] => x
  | [x, y] => x ++ " or " ++ y
  | x :: y :: rest => x ++ ", " ++ afterFirst y rest
where
  afterFirst (x : Text) : List Text → Text
    | [] => "or " ++ x
    | y :: rest => x ++ ", " ++ afterFirst y rest

def describe : Cause → Text
  | .duplicateLabel name first =>
      "Redeclaration of label '" ++ name ++ "'\n\tfirst:" ++ first.lineColumn
  | .undefinedLabel name => "Label '" ++ name ++ "' never defined"
  | .circularLabel name target =>
      "Label '" ++ name ++ "' cannot be fixed to '" ++ target ++ "', which refers back to it"
  | .differenceFix => "Labels cannot be fixed to difference literals"
  | .unexpectedConstruct construct => "Unexpected " ++ construct.describe
  | .numericOverflow value => "Literal exceeds allowed size\n\thave:" ++ Text.integer value
  | .oversizedImage => "Image exceeds allowed size"
  | .invalidOperand required received =>
      "Invalid operands\n\twant:" ++ alternatives (required.map TokenKind.describe) ++
        "\n\thave:" ++ received.describe
  | .argumentCount required received =>
      "Invalid number of arguments\n\twant:" ++ Text.decimal required ++
        "\n\thave:" ++ Text.decimal received
  | .invalidLiteral => "Invalid numeric literal"
  | .invalidString => "Invalid string literal"
  | .invalidCharacter => "Invalid character literal"
  | .unexpectedCharacter received => "Unexpected character " ++ Text.ofChar received
  | .unexpectedToken received => "Unexpected '" ++ received ++ "'"
  | .unknownIdentifier name => "Unknown identifier '" ++ name ++ "'"

end Cause

structure Diagnostic where
  position : Position
  cause : Cause
deriving DecidableEq, Repr

namespace Diagnostic

def message (d : Diagnostic) : Text := d.position.lineColumn ++ ": " ++ d.cause.describe

def unexpected (position : Position) (construct : Construct) : Diagnostic :=
  ⟨position, .unexpectedConstruct construct⟩

end Diagnostic

inductive AssemblyError
  | located (diagnostic : Diagnostic)
  | unknownLayout (name : Text)
  | invalidLayout (number : UInt8)
  | lineTooLong
deriving DecidableEq, Repr

namespace AssemblyError

def message : AssemblyError → Text
  | .located diagnostic => diagnostic.message
  | .unknownLayout name => "unknown instruction layout '" ++ name ++ "'"
  | .invalidLayout number => "invalid instruction layout " ++ Text.decimal number.toNat
  | .lineTooLong => "bufio.Scanner: token too long"

def position? : AssemblyError → Option Position
  | .located diagnostic => some diagnostic.position
  | _ => none

end AssemblyError

/-- Why there is no result: the program is wrong, or a part of the library was used wrongly. -/
inductive Failure
  | rejected (error : AssemblyError)
  | breach (breach : Breach)
deriving DecidableEq, Repr

namespace Failure

def located (diagnostic : Diagnostic) : Failure := .rejected (.located diagnostic)

end Failure

end Dcpu
