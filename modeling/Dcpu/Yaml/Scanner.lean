import Dcpu.Yaml.ScalarText
import Dcpu.Yaml.Token

/-!
From characters to tokens. That something was a key shows only at the colon behind it, so where a key
may have started is remembered, for every flow collection that is open, and a token is put there
later.
-/

set_option autoImplicit false

namespace Dcpu

namespace Yaml

/-- Where a key may have started: the token that is its first, and whether there must be a key. -/
structure PossibleKey where
  token : Nat
  required : Bool
  mark : Mark
deriving DecidableEq, Repr

namespace PossibleKey

def isValid (k : PossibleKey) (mark : Mark) : Bool :=
  -- A key stands in one line and is not too long.
  k.mark.line == mark.line && mark.index ≤ k.mark.index + 1024

end PossibleKey

structure Scanner where
  rest : List Char
  mark : Mark
  -- columns of the block collections that are open, innermost first
  indents : List Nat
  key : Option PossibleKey
  -- the possible keys around the flow collections that are open, innermost first
  outerKeys : List (Option PossibleKey)
  -- whether a key may start here
  keyAllowed : Bool
  tokens : Array Token

namespace Scanner

def start (cs : List Char) : Scanner :=
  { rest := cs, mark := .start, indents := [], key := none, outerKeys := [], keyAllowed := true
    tokens := #[] }

def inFlow (s : Scanner) : Bool := !s.outerKeys.isEmpty

def fault {α : Type} (s : Scanner) (context : Nat) (problem : Text) : Except SyntaxError α :=
  .error ⟨.tokens, context, s.mark.line, problem⟩

def add (s : Scanner) (kind : TokenKind) : Scanner :=
  { s with tokens := s.tokens.push ⟨kind, s.mark.line⟩ }

def insert (s : Scanner) (index : Nat) (t : Token) : Scanner :=
  { s with tokens := (s.tokens.take index).push t ++ s.tokens.drop index }

def forward (s : Scanner) (n : Nat) : Scanner :=
  { s with rest := s.rest.drop n, mark := s.mark.forward n }

def skipGaps (inFlow : Bool) (keyAllowed inComment : Bool) (mark : Mark) :
    List Char → List Char × Mark × Bool
  -- Blanks, comments and line breaks up to the next token. A tab is no indentation.
  | [] => ([], mark, keyAllowed)
  | c :: rest =>
      if startsBreak c rest then skipGaps inFlow keyAllowed inComment mark.halfBreak rest
      else if isBreak c then skipGaps inFlow (keyAllowed || !inFlow) false mark.nextLine rest
      else if inComment || c == '#' then skipGaps inFlow keyAllowed true mark.next rest
      else if c == ' ' || c == '\t' && (inFlow || !keyAllowed) then
        skipGaps inFlow keyAllowed false mark.next rest
      else (c :: rest, mark, keyAllowed)

def toNextToken (s : Scanner) : Scanner :=
  let (rest, mark, keyAllowed) := skipGaps s.inFlow s.keyAllowed false s.mark s.rest
  { s with rest, mark, keyAllowed }

def closeBlocks (s : Scanner) (column : Int) : Scanner :=
  if s.inFlow then s
  else
    let closed := s.indents.takeWhile fun (indent : Nat) => column < indent
    closed.foldl (fun s _ => s.add .blockEnd) { s with indents := s.indents.drop closed.length }

def openBlock (s : Scanner) (kind : TokenKind) (mark : Mark) (index : Nat) : Scanner :=
  if s.inFlow || s.indents.head?.any fun indent => mark.column ≤ indent then s
  else { s with indents := mark.column :: s.indents }.insert index ⟨kind, mark.line⟩

def noColon : Text := "could not find expected ':'"

def dropKey (s : Scanner) : Except SyntaxError Scanner :=
  match s.key with
  | some k => if k.required then s.fault k.mark.line noColon else .ok { s with key := none }
  | none => .ok s

def markKey (s : Scanner) : Except SyntaxError Scanner := do
  if s.keyAllowed then
    let required := !s.inFlow && s.indents.head? == some s.mark.column
    let s ← s.dropKey
    return { s with key := some ⟨s.tokens.size, required, s.mark⟩ }
  else return s

def documentMark (s : Scanner) (kind : TokenKind) : Except SyntaxError Scanner := do
  let s ← (s.closeBlocks (-1)).dropKey
  return ({ s with keyAllowed := false }.add kind).forward 3

def flowStart (s : Scanner) (kind : TokenKind) : Except SyntaxError Scanner := do
  let s ← s.markKey
  let s := { s with outerKeys := s.key :: s.outerKeys, key := none, keyAllowed := true }
  return (s.add kind).forward 1

def flowEnd (s : Scanner) (kind : TokenKind) : Except SyntaxError Scanner := do
  let s ← s.dropKey
  let s :=
    match s.outerKeys with
    | key :: outerKeys => { s with key, outerKeys }
    | [] => s
  return ({ s with keyAllowed := false }.add kind).forward 1

def comma (s : Scanner) : Except SyntaxError Scanner := do
  let s ← s.dropKey
  return ({ s with keyAllowed := true }.add .comma).forward 1

def dash (s : Scanner) : Except SyntaxError Scanner := do
  if !s.inFlow && !s.keyAllowed then
    s.fault s.mark.line "block sequence entries are not allowed in this context"
  else
    let s ← (s.openBlock .blockSequenceStart s.mark s.tokens.size).dropKey
    return ({ s with keyAllowed := true }.add .dash).forward 1

def bareColon (s : Scanner) : Except SyntaxError Scanner :=
  if s.inFlow then .ok { s with keyAllowed := false }
  else if s.keyAllowed then .ok (s.openBlock .blockMappingStart s.mark s.tokens.size)
  else s.fault s.mark.line "mapping values are not allowed in this context"

def colon (s : Scanner) : Except SyntaxError Scanner := do
  let s ←
    match s.key with
    | none => s.bareColon
    | some k =>
        if k.isValid s.mark then
          let s := { s with key := none, keyAllowed := false }.insert k.token ⟨.key, k.mark.line⟩
          Except.ok (s.openBlock .blockMappingStart k.mark k.token)
        else if k.required then s.fault k.mark.line noColon
        else bareColon { s with key := none }
  return (s.add .value).forward 1

def quoted (s : Scanner) (double : Bool) : Except SyntaxError Scanner := do
  let s ← s.markKey
  let r ← readQuoted s.mark double .empty .none s.mark.next (s.rest.drop 1)
  let s := s.add (.scalar true r.text)
  return { s with rest := r.rest, mark := r.mark, keyAllowed := false }

def plain (s : Scanner) : Except SyntaxError Scanner := do
  let s ← s.markKey
  let indent := (s.indents.head?.map (· + 1)).getD 0
  let r ← readPlain s.mark indent s.inFlow .empty s.mark s.rest
  let s := s.add (.scalar false r.text)
  return { s with rest := r.rest, mark := r.mark, keyAllowed := r.crossed }

def possibleKeys (s : Scanner) : List PossibleKey := (s.key :: s.outerKeys).filterMap id

def streamEnd (s : Scanner) : Except SyntaxError Scanner :=
  match s.possibleKeys.find? fun k => k.required with
  | some k => s.fault k.mark.line noColon
  | none =>
      -- The end of the text is the start of a line.
      let mark := if s.mark.column = 0 then s.mark else s.mark.nextLine
      let s := { s with mark }.closeBlocks (-1)
      .ok ({ s with key := none, keyAllowed := false }.add .streamEnd)

def isIndicator (c : Char) : Bool :=
  flowIndicator c || c == '-' || c == ':' || c == '#' || c == '&' || c == '*' || c == '!' ||
    c == '|' || c == '>' || c == '\'' || c == '"' || c == '%' || c == '@' || c == '\x60'

def startsPlain (s : Scanner) (c : Char) (rest : List Char) : Bool :=
  !isGap c &&
    (!isIndicator c || !atGap rest && (c == '-' || !s.inFlow && (c == '?' || c == ':')))

def token (s : Scanner) (c : Char) (rest : List Char) : Except SyntaxError Scanner :=
  if s.mark.column = 0 ∧ atDocumentMark s.rest then
    s.documentMark (if c = '-' then .documentStart else .documentEnd)
  else if c = '[' then s.flowStart .flowSequenceStart
  else if c = '\x7b' then s.flowStart .flowMappingStart
  else if c = ']' then s.flowEnd .flowSequenceEnd
  else if c = '\x7d' then s.flowEnd .flowMappingEnd
  else if c = ',' then s.comma
  else if c = '-' ∧ atGap rest then s.dash
  else if c = ':' ∧ (s.inFlow ∨ atGap rest) then s.colon
  else if c = '\'' then s.quoted false
  else if c = '"' then s.quoted true
  else if s.startsPlain c rest then s.plain
  else s.fault s.mark.line "found character that cannot start any token"

def next (s : Scanner) : Except SyntaxError Scanner :=
  match s.possibleKeys.find? fun k => k.required && !k.isValid s.mark with
  | some k => s.fault k.mark.line noColon
  | none =>
      let s := s.toNextToken
      let s := s.closeBlocks s.mark.column
      match s.rest with
      | [] => s.streamEnd
      | c :: rest => s.token c rest

def broken (s : Scanner) (e : SyntaxError) : List Token :=
  -- Tokens are handed on when two more have been read and when they can no longer turn out to be a
  -- key, so an error comes in place of those that were not.
  let pending := s.possibleKeys.filter fun k => k.required || k.isValid s.mark
  let handedOn := (pending.map PossibleKey.token).foldl min (s.tokens.size - 2)
  (s.tokens.take handedOn).toList ++ [⟨.fault e, s.mark.line⟩]

def tokensWithin : Nat → Scanner → List Token
  | 0, s => s.tokens.toList
  | n + 1, s =>
      match s.next with
      | .error e => s.broken e
      | .ok after => if s.rest.isEmpty then after.tokens.toList else tokensWithin n after

end Scanner

/-- Every token but the last takes at least one character. -/
def tokens (cs : List Char) : List Token := (Scanner.start cs).tokensWithin (cs.length + 1)

end Yaml

end Dcpu
