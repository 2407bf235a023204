import Dcpu.Text.Utf8
import Dcpu.Yaml

set_option autoImplicit false

namespace Dcpu

namespace Yaml

structure Mark where
  line : Nat
  column : Nat
  index : Nat
deriving DecidableEq, Repr

namespace Mark

def start : Mark := ⟨1, 0, 0⟩

def next (m : Mark) : Mark := ⟨m.line, m.column + 1, m.index + 1⟩

def nextLine (m : Mark) : Mark := ⟨m.line + 1, 0, m.index + 1⟩

def halfBreak (m : Mark) : Mark := { m with index := m.index + 1 }

def forward (m : Mark) (n : Nat) : Mark := ⟨m.line, m.column + n, m.index + n⟩

end Mark

def isBreak (c : Char) : Bool :=
  c == '\n' || c == '\r' || c == '\u0085' || c == '\u2028' || c == '\u2029'

def startsBreak (c : Char) (rest : List Char) : Bool := c == '\r' && rest.head? == some '\n'

def isGap (c : Char) : Bool := c == ' ' || c == '\t'

def atGap (rest : List Char) : Bool := rest.head?.all fun c => isGap c || isBreak c

def atDocumentMark : List Char → Bool
  | a :: b :: c :: rest => (a == '-' || a == '.') && b == a && c == a && atGap rest
  | _ => false

/-- A scalar as far as it has been read, last character first, and what may or may not belong to it:
blanks of the same line, or line breaks. -/
structure Partial where
  text : List Char
  gaps : List Char
  breaks : Nat
  -- a line break that does not count has been read
  escapedBreak : Bool
deriving DecidableEq, Repr

namespace Partial

def empty : Partial := ⟨[], [], 0, false⟩

def isOpen (p : Partial) : Bool := !p.gaps.isEmpty || p.breaks != 0 || p.escapedBreak

def settle (p : Partial) : List Char :=
  if p.escapedBreak then List.replicate p.breaks '\n' ++ p.text
  else
    match p.breaks with
    | 0 => p.gaps ++ p.text
    | 1 => ' ' :: p.text
    | n + 2 => List.replicate (n + 1) '\n' ++ p.text

def add (p : Partial) (c : Char) : Partial := ⟨c :: p.settle, [], 0, false⟩

def addGap (p : Partial) (c : Char) : Partial :=
  if p.breaks = 0 && !p.escapedBreak then { p with gaps := c :: p.gaps } else p

def addBreak (p : Partial) : Partial := { p with gaps := [], breaks := p.breaks + 1 }

def addEscapedBreak (p : Partial) : Partial := ⟨p.settle, [], 0, true⟩

def toText (cs : List Char) : Text := cs.reverse.flatMap Text.ofChar

end Partial

structure ReadScalar where
  text : Text
  rest : List Char
  mark : Mark
  -- whether line breaks were read behind it
  crossed : Bool

def flowIndicator (c : Char) : Bool :=
  c == ',' || c == '?' || c == '[' || c == ']' || c == '\x7b' || c == '\x7d'

def plainEnds (indent : Nat) (inFlow : Bool) (p : Partial) (mark : Mark) (c : Char)
    (rest : List Char) : Bool :=
  p.isOpen &&
      ((!inFlow && mark.column < indent) || (mark.column == 0 && atDocumentMark (c :: rest)) ||
        c == '#') ||
    c == ':' && atGap rest || inFlow && flowIndicator c

def readPlain (start : Mark) (indent : Nat) (inFlow : Bool) (p : Partial) (mark : Mark) :
    List Char → Except SyntaxError ReadScalar
  | [] => .ok ⟨Partial.toText p.text, [], mark, p.breaks != 0⟩
  | c :: rest =>
      if startsBreak c rest then readPlain start indent inFlow p mark.halfBreak rest
      else if isBreak c then readPlain start indent inFlow p.addBreak mark.nextLine rest
      else if isGap c then
        if c = '\t' ∧ p.breaks ≠ 0 ∧ mark.column < indent then
          .error ⟨.tokens, start.line, mark.line,
            "found a tab character that violates indentation"⟩
        else readPlain start indent inFlow (p.addGap c) mark.next rest
      else if plainEnds indent inFlow p mark c rest then
        .ok ⟨Partial.toText p.text, c :: rest, mark, p.breaks != 0⟩
      else readPlain start indent inFlow (p.add c) mark.next rest

/-- What the characters behind a backslash, or behind a quote that is written twice, are part of. -/
inductive Escape
  | none
  | quote
  | backslash
  | code (digits value : Nat)
deriving DecidableEq, Repr

def escapeChar? (c : Char) : Option Char :=
  match c with
  | '0' => some '\x00'
  | 'a' => some '\x07'
  | 'b' => some '\x08'
  | 't' | '\t' => some '\t'
  | 'n' => some '\n'
  | 'v' => some '\x0b'
  | 'f' => some '\x0c'
  | 'r' => some '\r'
  | 'e' => some '\x1b'
  | ' ' | '"' | '\'' | '/' | '\\' => some c
  | 'N' => some '\u0085'
  | '_' => some '\u00a0'
  | 'L' => some '\u2028'
  | 'P' => some '\u2029'
  | _ => Option.none

def escapeDigits (c : Char) : Nat :=
  match c with
  | 'x' => 2
  | 'u' => 4
  | 'U' => 8
  | _ => 0

def hexDigit? (c : Char) : Option Nat :=
  if '0' ≤ c ∧ c ≤ '9' then some (c.toNat - 48)
  else if 'a' ≤ c ∧ c ≤ 'f' then some (c.toNat - 87)
  else if 'A' ≤ c ∧ c ≤ 'F' then some (c.toNat - 55)
  else Option.none

def readQuoted (start : Mark) (double : Bool) (p : Partial) (escape : Escape) (mark : Mark) :
    List Char → Except SyntaxError ReadScalar
  | [] => .error ⟨.tokens, start.line, mark.line, "found unexpected end of stream"⟩
  | c :: rest =>
      let fault (problem : Text) : Except SyntaxError ReadScalar :=
        .error ⟨.tokens, start.line, mark.line, problem⟩
      match escape with
      | .quote => readQuoted start double (p.add c) .none mark.next rest
      | .code digits value =>
          match hexDigit? c with
          | Option.none => fault "did not find expected hexdecimal number"
          | some d =>
              let value := value * 16 + d
              if digits = 1 then
                if h : value.isValidChar then
                  readQuoted start double (p.add (Char.ofNatAux value h)) .none mark.next rest
                else fault "found invalid Unicode character escape code"
              else readQuoted start double p (.code (digits - 1) value) mark.next rest
      | .backslash =>
          if startsBreak c rest then readQuoted start double p .backslash mark.halfBreak rest
          else if isBreak c then
            readQuoted start double p.addEscapedBreak .none mark.nextLine rest
          else if escapeDigits c ≠ 0 then
            readQuoted start double p (.code (escapeDigits c) 0) mark.next rest
          else
            match escapeChar? c with
            | some e => readQuoted start double (p.add e) .none mark.next rest
            | Option.none => fault "found unknown escape character"
      | .none =>
          if startsBreak c rest then readQuoted start double p .none mark.halfBreak rest
          else if isBreak c then readQuoted start double p.addBreak .none mark.nextLine rest
          else if isGap c then readQuoted start double (p.addGap c) .none mark.next rest
          else if mark.column = 0 ∧ atDocumentMark (c :: rest) then
            fault "found unexpected document indicator"
          else if double ∧ c = '\\' then readQuoted start double p .backslash mark.next rest
          else if !double ∧ c = '\'' ∧ rest.head? = some '\'' then
            readQuoted start double p .quote mark.next rest
          else if c = (if double then '"' else '\'') then
            .ok ⟨Partial.toText p.settle, rest, mark.next, false⟩
          else readQuoted start double (p.add c) .none mark.next rest

end Yaml

end Dcpu
