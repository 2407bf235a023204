import Dcpu.Statement.Parser
import Dcpu.Token.Lexer

set_option autoImplicit false

namespace Dcpu

/-- The statements of a source and what is wrong with it; the statements count only if nothing is. -/
structure Source where
  statements : List Statement
  errors : List AssemblyError
deriving DecidableEq, Repr

namespace Source

/-- A line may not have that many bytes before its newline. -/
def lineLimit : Nat := 0x10000

def lineContent (line : Text) : Text :=
  (line.dropEnding [Text.newline]).dropEnding [Text.carriageReturn]

def readLine (dialect : Dialect) (layout : Layout) (start : LineStart) (line : Text) :
    Except (List Diagnostic) (Option Statement) :=
  let content := lineContent line
  let read := LineTokens.ofLine ⟨dialect.localLabels, dialect.extendedLabelNames⟩ start content
  if !read.errors.isEmpty then .error read.errors
  else if read.tokens.isEmpty then .ok none
  else
    let reader : StatementReader :=
      ⟨dialect.signedNumbers, dialect.numeralRules, layout, start.position content.length 1⟩
    match reader.statement read.tokens with
    | .ok statement => .ok (some statement)
    | .error diagnostic => .error [diagnostic]

def readFrom (dialect : Dialect) (layout : Layout) (start : LineStart)
    (statements : List Statement) (errors : List AssemblyError) : Text → Source
  -- What was found before stands last first.
  | [] => ⟨statements.reverse, errors.reverse⟩
  | b :: text =>
      match _split : Text.splitLine (b :: text) with
      | (line, rest) =>
          if lineLimit ≤ (line.dropEnding [Text.newline]).length then
            ⟨statements.reverse, (.lineTooLong :: errors).reverse⟩
          else
            let next : LineStart := ⟨start.line + 1, start.byte + line.length⟩
            match readLine dialect layout start line with
            | .error found =>
                readFrom dialect layout next statements
                  ((found.map .located).reverse ++ errors) rest
            | .ok none => readFrom dialect layout next statements errors rest
            | .ok (some statement) =>
                readFrom dialect layout next (statement :: statements) errors rest
termination_by t => t.length
decreasing_by
  all_goals
    have := Text.splitLine_rest_length b text
    rw [_split] at this
    exact this

def read (dialect : Dialect) (text : Text) : Source :=
  match dialect.layout with
  | .error e => ⟨[], [e]⟩
  | .ok layout => readFrom dialect layout ⟨1, 0⟩ [] [] text

end Source

end Dcpu
