import Dcpu.Dialect
import Dcpu.Layout.Operation
import Dcpu.Layout.Operand
import Dcpu.Statement

/-!
Statements from the tokens of a line.

    statement = [':' name] [body]
    body      = '@' word | dat value {',' value} | basic argument ',' argument | extended argument
    value     = string | '~' | word
    argument  = register | special | push | pop | peek | pick word | '[' lookup ']' | word
    lookup    = '-' '-' sp | sp | sp '+' '+' | sp '+' word
              | register | register ('+' | '-') word | word ['+' register]
    word      = atom ['~' atom]
    atom      = '~' atom | [sign] numeral | character | name

A name is read as a keyword or a register wherever it can be one.
-/

set_option autoImplicit false

namespace Dcpu

structure StatementReader where
  signedNumbers : Bool
  numerals : NumeralRules
  layout : Layout
  -- the place behind the last byte of the line
  lineEnd : Position

namespace StatementReader

variable (reader : StatementReader)

def reject {α : Type} (position : Position) (cause : Cause) : Except Diagnostic α :=
  .error ⟨position, cause⟩

def refuse {α : Type} (required : List TokenKind) : List Token → Except Diagnostic α
  | [] => reject reader.lineEnd (.invalidOperand required .endOfLine)
  | t :: _ => reject t.position (.invalidOperand required t.kind)

def expect (required : List TokenKind) : List Token → Except Diagnostic (Token × List Token)
  | [] => reader.refuse required []
  | t :: rest => if t.kind ∈ required then .ok (t, rest) else reader.refuse required (t :: rest)

def keyword (t : Token) (word : Text) : Bool := t.kind == .identifier && t.value.lower == word

def registerName? (t : Token) : Option RegisterName :=
  if t.kind = .identifier ∧ (Register.ofName? t.value).isSome then
    some ⟨t.value.lower, t.position⟩
  else none

def numeral (t : Token) : Except Diagnostic Int :=
  match Numeral.decode reader.numerals t.value with
  | .ok value => .ok value
  | .error .outOfRange => reject t.position (.numericOverflow NumeralError.outOfRange.value)
  | .error _ => reject t.position .invalidLiteral

def characterValue : Text → Int
  | [] => Text.replacement.toNat
  | b :: rest => (Text.decodeFirst b rest).1.toNat

def signedNumber (sign : Token) (tokens : List Token) :
    Except Diagnostic (Atom × List Token) :=
  if reader.signedNumbers then do
    let (digits, rest) ← reader.expect [.literal] tokens
    let value ← reader.numeral digits
    let signed := if sign.kind = .minus then -value else value
    return (.number signed (sign.position.span digits.position), rest)
  else reject sign.position (.unexpectedToken sign.value)

def atom : List Token → Except Diagnostic (Atom × List Token)
  | [] => reader.refuse [.literal, .character, .identifier] []
  | t :: rest =>
      match t.kind with
      | .tilde => do
          let (target, rest) ← atom rest
          return (.difference target (t.position.span target.position), rest)
      | .plus | .minus => reader.signedNumber t rest
      | .literal => do
          let value ← reader.numeral t
          return (.number value t.position, rest)
      | .character => .ok (.character (characterValue t.value) t.position, rest)
      | .identifier => .ok (.identifier t.value t.position, rest)
      | _ => reader.refuse [.literal, .character, .identifier] (t :: rest)

def expression (tokens : List Token) : Except Diagnostic (Expression × List Token) := do
  let (head, rest) ← reader.atom tokens
  match rest with
  | ⟨.tilde, _, _⟩ :: after =>
      let (tail, rest) ← reader.atom after
      return (⟨head, some tail, head.position.span tail.position⟩, rest)
  | _ => return (⟨head, none, head.position⟩, rest)

def closeStack (opening : Position) (access : StackAccess) (offset : Option Expression)
    (tokens : List Token) : Except Diagnostic (Argument × List Token) := do
  let (closing, rest) ← reader.expect [.rightBracket] tokens
  return (.stack access offset (opening.span closing.position), rest)

def stackLookup (opening : Position) : List Token → Except Diagnostic (Argument × List Token)
  -- Behind `[sp`.
  | ⟨.rightBracket, p, v⟩ :: rest =>
      reader.closeStack opening .peek none (⟨.rightBracket, p, v⟩ :: rest)
  | ⟨.plus, _, _⟩ :: ⟨.plus, _, _⟩ :: rest => reader.closeStack opening .pop none rest
  | ⟨.plus, _, _⟩ :: rest => do
      let (offset, rest) ← reader.expression rest
      reader.closeStack opening .pick (some offset) rest
  | tokens => reader.refuse [.plus, .rightBracket] tokens

def offsetLookup (opening : Position) (register : RegisterName) (sign : OffsetSign)
    (tokens : List Token) : Except Diagnostic (Argument × List Token) := do
  -- Behind `[register` and a sign.
  let (offset, rest) ← reader.expression tokens
  let (closing, rest) ← reader.expect [.rightBracket] rest
  return (.offsetLookup (some register) sign (some offset) (opening.span closing.position), rest)

def registerLookup (opening : Position) (register : RegisterName) :
    List Token → Except Diagnostic (Argument × List Token)
  -- Behind `[register`.
  | ⟨.rightBracket, p, _⟩ :: rest => .ok (.lookup (some register) (opening.span p), rest)
  | ⟨.plus, _, _⟩ :: rest => reader.offsetLookup opening register .plus rest
  | ⟨.minus, _, _⟩ :: rest => reader.offsetLookup opening register .minus rest
  | tokens => reader.refuse [.plus, .minus, .rightBracket] tokens

def literalLookup (opening : Position) (tokens : List Token) :
    Except Diagnostic (Argument × List Token) := do
  -- Behind `[`, where neither the stack pointer nor a register follows.
  let (value, rest) ← reader.expression tokens
  let (sign, rest) ← reader.expect [.plus, .rightBracket] rest
  if sign.kind = .rightBracket then
    return (.literalLookup (some value) (opening.span sign.position), rest)
  let (name, rest) ← reader.expect [.identifier] rest
  match registerName? name with
  | none => reject name.position (.unknownIdentifier name.value)
  | some register =>
      let (closing, rest) ← reader.expect [.rightBracket] rest
      return (.offsetLookup (some register) .plus (some value) (opening.span closing.position),
        rest)

def afterDecrement? : List Token → Option (List Token)
  -- Behind `--sp`, if that is what the tokens start with.
  | ⟨.minus, _, _⟩ :: ⟨.minus, _, _⟩ :: t :: rest => if keyword t "sp" then some rest else none
  | _ => none

def lookup (opening : Position) (tokens : List Token) : Except Diagnostic (Argument × List Token) :=
  -- Behind `[`.
  match afterDecrement? tokens with
  | some rest => reader.closeStack opening .push none rest
  | none =>
      match tokens with
      | [] => reader.literalLookup opening []
      | t :: rest =>
          if keyword t "sp" then reader.stackLookup opening rest
          else
            match registerName? t with
            | some register => reader.registerLookup opening register rest
            | none => reader.literalLookup opening (t :: rest)

def literalArgument (tokens : List Token) : Except Diagnostic (Argument × List Token) := do
  let (value, rest) ← reader.expression tokens
  return (.literal (some value) value.position, rest)

def namedArgument (t : Token) (rest : List Token) : Except Diagnostic (Argument × List Token) :=
  let name := t.value.lower
  if (Register.ofName? name).isSome then .ok (.register name t.position, rest)
  else if (reader.layout.special? name).isSome then .ok (.special name t.position, rest)
  else if name = "push" then .ok (.stack .push none t.position, rest)
  else if name = "pop" then .ok (.stack .pop none t.position, rest)
  else if name = "peek" then .ok (.stack .peek none t.position, rest)
  else if name = "pick" then do
    let (offset, rest) ← reader.expression rest
    return (.stack .pick (some offset) (t.position.span offset.position), rest)
  else reader.literalArgument (t :: rest)

def argument (tokens : List Token) : Except Diagnostic (Argument × List Token) :=
  match tokens with
  | ⟨.identifier, p, v⟩ :: rest => reader.namedArgument ⟨.identifier, p, v⟩ rest
  | ⟨.leftBracket, p, _⟩ :: rest => reader.lookup p rest
  | _ => reader.literalArgument tokens

def valueEnds : List Token → Bool
  | [] => true
  | t :: _ => t.kind == .comma

def dataValue (tokens : List Token) : Except Diagnostic (DataValue × List Token) :=
  match tokens with
  | ⟨.string, p, v⟩ :: rest => .ok (.string v p, rest)
  | ⟨.tilde, p, v⟩ :: rest =>
      if valueEnds rest then .ok (.lengthMarker p, rest)
      else do
        let (value, rest) ← reader.expression (⟨.tilde, p, v⟩ :: rest)
        return (.word value, rest)
  | _ => do
      let (value, rest) ← reader.expression tokens
      return (.word value, rest)

theorem bind_eq_ok {ε α β : Type} {x : Except ε α} {f : α → Except ε β} {b : β} :
    (x >>= f) = .ok b ↔ ∃ a, x = .ok a ∧ f a = .ok b := by
  cases x <;> simp [bind, Except.bind]

theorem refuse_ne_ok {α : Type} {required : List TokenKind} {tokens : List Token} {a : α} :
    reader.refuse required tokens ≠ .ok a := by
  cases tokens <;> simp [refuse, reject]

theorem expect_suffix {required : List TokenKind} {tokens rest : List Token} {t : Token}
    (h : reader.expect required tokens = .ok (t, rest)) : rest <:+ tokens := by
  cases tokens with
  | nil => exact absurd h (by simp [expect, refuse_ne_ok])
  | cons u us =>
      simp only [expect] at h
      split at h
      · simp only [Except.ok.injEq, Prod.mk.injEq] at h
        exact h.2 ▸ List.suffix_cons u us
      · exact absurd h (refuse_ne_ok reader)

theorem signedNumber_suffix {sign : Token} {tokens rest : List Token} {found : Atom}
    (h : reader.signedNumber sign tokens = .ok (found, rest)) : rest <:+ tokens := by
  unfold signedNumber at h
  split at h
  · obtain ⟨⟨digits, after⟩, read, h⟩ := bind_eq_ok.1 h
    obtain ⟨value, _, result⟩ := bind_eq_ok.1 h
    simp only [pure, Except.pure, Except.ok.injEq, Prod.mk.injEq] at result
    exact result.2 ▸ reader.expect_suffix read
  · simp [reject] at h

theorem atom_suffix {tokens rest : List Token} {found : Atom}
    (h : reader.atom tokens = .ok (found, rest)) : rest <:+ tokens := by
  induction tokens generalizing found rest with
  | nil => exact absurd h (by simp [atom, refuse_ne_ok])
  | cons t ts ih =>
      simp only [atom] at h
      split at h
      · obtain ⟨⟨target, after⟩, read, result⟩ := bind_eq_ok.1 h
        simp only [pure, Except.pure, Except.ok.injEq, Prod.mk.injEq] at result
        exact result.2 ▸ (ih read).trans (List.suffix_cons t ts)
      · exact (reader.signedNumber_suffix h).trans (List.suffix_cons t ts)
      · exact (reader.signedNumber_suffix h).trans (List.suffix_cons t ts)
      · obtain ⟨value, _, result⟩ := bind_eq_ok.1 h
        simp only [pure, Except.pure, Except.ok.injEq, Prod.mk.injEq] at result
        exact result.2 ▸ List.suffix_cons t ts
      · simp only [Except.ok.injEq, Prod.mk.injEq] at h
        exact h.2 ▸ List.suffix_cons t ts
      · simp only [Except.ok.injEq, Prod.mk.injEq] at h
        exact h.2 ▸ List.suffix_cons t ts
      · exact absurd h (refuse_ne_ok reader)

theorem expression_suffix {tokens rest : List Token} {found : Expression}
    (h : reader.expression tokens = .ok (found, rest)) : rest <:+ tokens := by
  obtain ⟨⟨head, after⟩, read, h⟩ := bind_eq_ok.1 h
  have front := reader.atom_suffix read
  simp only at h
  split at h
  · rename_i p v further
    obtain ⟨⟨tail, final⟩, second, result⟩ := bind_eq_ok.1 h
    simp only [pure, Except.pure, Except.ok.injEq, Prod.mk.injEq] at result
    exact result.2 ▸ ((reader.atom_suffix second).trans (List.suffix_cons _ _)).trans front
  · simp only [pure, Except.pure, Except.ok.injEq, Prod.mk.injEq] at h
    exact h.2 ▸ front

theorem closeStack_suffix {opening : Position} {access : StackAccess} {offset : Option Expression}
    {tokens rest : List Token} {found : Argument}
    (h : reader.closeStack opening access offset tokens = .ok (found, rest)) :
    rest <:+ tokens := by
  obtain ⟨⟨closing, after⟩, read, result⟩ := bind_eq_ok.1 h
  simp only [pure, Except.pure, Except.ok.injEq, Prod.mk.injEq] at result
  exact result.2 ▸ reader.expect_suffix read

theorem stackLookup_suffix {opening : Position} {tokens rest : List Token} {found : Argument}
    (h : reader.stackLookup opening tokens = .ok (found, rest)) : rest <:+ tokens := by
  unfold stackLookup at h
  split at h
  · exact reader.closeStack_suffix h
  · exact (reader.closeStack_suffix h).trans
      ((List.suffix_cons _ _).trans (List.suffix_cons _ _))
  · obtain ⟨⟨offset, after⟩, read, h⟩ := bind_eq_ok.1 h
    exact ((reader.closeStack_suffix h).trans (reader.expression_suffix read)).trans
      (List.suffix_cons _ _)
  · exact absurd h (refuse_ne_ok reader)

theorem offsetLookup_suffix {opening : Position} {register : RegisterName} {sign : OffsetSign}
    {tokens rest : List Token} {found : Argument}
    (h : reader.offsetLookup opening register sign tokens = .ok (found, rest)) :
    rest <:+ tokens := by
  obtain ⟨⟨offset, after⟩, read, h⟩ := bind_eq_ok.1 h
  obtain ⟨⟨closing, final⟩, close, result⟩ := bind_eq_ok.1 h
  simp only [pure, Except.pure, Except.ok.injEq, Prod.mk.injEq] at result
  exact result.2 ▸ (reader.expect_suffix close).trans (reader.expression_suffix read)

theorem registerLookup_suffix {opening : Position} {register : RegisterName}
    {tokens rest : List Token} {found : Argument}
    (h : reader.registerLookup opening register tokens = .ok (found, rest)) :
    rest <:+ tokens := by
  unfold registerLookup at h
  split at h
  · simp only [Except.ok.injEq, Prod.mk.injEq] at h
    exact h.2 ▸ List.suffix_cons _ _
  · exact (reader.offsetLookup_suffix h).trans (List.suffix_cons _ _)
  · exact (reader.offsetLookup_suffix h).trans (List.suffix_cons _ _)
  · exact absurd h (refuse_ne_ok reader)

theorem literalLookup_suffix {opening : Position} {tokens rest : List Token} {found : Argument}
    (h : reader.literalLookup opening tokens = .ok (found, rest)) : rest <:+ tokens := by
  obtain ⟨⟨value, after⟩, read, h⟩ := bind_eq_ok.1 h
  obtain ⟨⟨sign, further⟩, next, h⟩ := bind_eq_ok.1 h
  have front := (reader.expect_suffix next).trans (reader.expression_suffix read)
  simp only at h
  split at h
  · simp only [pure, Except.pure, Except.ok.injEq, Prod.mk.injEq] at h
    exact h.2 ▸ front
  · obtain ⟨⟨name, behind⟩, named, h⟩ := bind_eq_ok.1 h
    simp only at h
    split at h
    · exact absurd h (by simp [reject])
    · obtain ⟨⟨closing, final⟩, close, result⟩ := bind_eq_ok.1 h
      simp only [pure, Except.pure, Except.ok.injEq, Prod.mk.injEq] at result
      exact result.2 ▸
        ((reader.expect_suffix close).trans (reader.expect_suffix named)).trans front

theorem afterDecrement?_suffix {tokens rest : List Token}
    (h : afterDecrement? tokens = some rest) : rest <:+ tokens := by
  unfold afterDecrement? at h
  split at h
  · split at h
    · simp only [Option.some.injEq] at h
      exact h ▸ ((List.suffix_cons _ _).trans (List.suffix_cons _ _)).trans (List.suffix_cons _ _)
    · simp at h
  · simp at h

theorem lookup_suffix {opening : Position} {tokens rest : List Token} {found : Argument}
    (h : reader.lookup opening tokens = .ok (found, rest)) : rest <:+ tokens := by
  unfold lookup at h
  split at h
  · rename_i after cut
    exact (reader.closeStack_suffix h).trans (afterDecrement?_suffix cut)
  · split at h
    · exact reader.literalLookup_suffix h
    · split at h
      · exact (reader.stackLookup_suffix h).trans (List.suffix_cons _ _)
      · split at h
        · exact (reader.registerLookup_suffix h).trans (List.suffix_cons _ _)
        · exact reader.literalLookup_suffix h

theorem literalArgument_suffix {tokens rest : List Token} {found : Argument}
    (h : reader.literalArgument tokens = .ok (found, rest)) : rest <:+ tokens := by
  obtain ⟨⟨value, after⟩, read, result⟩ := bind_eq_ok.1 h
  simp only [pure, Except.pure, Except.ok.injEq, Prod.mk.injEq] at result
  exact result.2 ▸ reader.expression_suffix read

theorem namedArgument_suffix {t : Token} {ts rest : List Token} {found : Argument}
    (h : reader.namedArgument t ts = .ok (found, rest)) : rest <:+ t :: ts := by
  simp only [namedArgument] at h
  repeat' split at h
  all_goals first
    | exact reader.literalArgument_suffix h
    | (simp only [Except.ok.injEq, Prod.mk.injEq] at h
       exact h.2 ▸ List.suffix_cons _ _)
    | (obtain ⟨⟨offset, after⟩, read, result⟩ := bind_eq_ok.1 h
       simp only [pure, Except.pure, Except.ok.injEq, Prod.mk.injEq] at result
       exact result.2 ▸ (reader.expression_suffix read).trans (List.suffix_cons _ _))

theorem argument_suffix {tokens rest : List Token} {found : Argument}
    (h : reader.argument tokens = .ok (found, rest)) : rest <:+ tokens := by
  unfold argument at h
  split at h
  · exact reader.namedArgument_suffix h
  · exact (reader.lookup_suffix h).trans (List.suffix_cons _ _)
  · exact reader.literalArgument_suffix h

theorem dataValue_suffix {tokens rest : List Token} {found : DataValue}
    (h : reader.dataValue tokens = .ok (found, rest)) : rest <:+ tokens := by
  unfold dataValue at h
  split at h
  · simp only [Except.ok.injEq, Prod.mk.injEq] at h
    exact h.2 ▸ List.suffix_cons _ _
  · split at h
    · simp only [Except.ok.injEq, Prod.mk.injEq] at h
      exact h.2 ▸ List.suffix_cons _ _
    · obtain ⟨⟨value, after⟩, read, result⟩ := bind_eq_ok.1 h
      simp only [pure, Except.pure, Except.ok.injEq, Prod.mk.injEq] at result
      exact result.2 ▸ reader.expression_suffix read
  · obtain ⟨⟨value, after⟩, read, result⟩ := bind_eq_ok.1 h
    simp only [pure, Except.pure, Except.ok.injEq, Prod.mk.injEq] at result
    exact result.2 ▸ reader.expression_suffix read

def argumentsAfter (found : List Argument) (tokens : List Token) :
    Except Diagnostic (List Argument) :=
  -- What was found stands last first, and a comma may stand behind the last argument.
  match tokens with
  | [] => .ok found.reverse
  | t :: ts =>
      match _read : reader.argument (t :: ts) with
      | .error e => .error e
      | .ok (next, []) => .ok (next :: found).reverse
      | .ok (next, separator :: rest) =>
          if separator.kind = .comma then argumentsAfter (next :: found) rest
          else reject separator.position (.unexpectedToken separator.value)
termination_by tokens.length
decreasing_by
  have := (reader.argument_suffix _read).length_le
  simp only [List.length_cons] at this ⊢
  omega

def arguments (name : Token) (count : Nat) (tokens : List Token) :
    Except Diagnostic (List Argument) := do
  let found ← reader.argumentsAfter [] tokens
  if found.length = count then return found
  else reject name.position (.argumentCount count found.length)

def dataAfter (name : Token) (found : List (Option DataValue)) (tokens : List Token) :
    Except Diagnostic (Body × List Token) :=
  -- What was found stands last first.
  match _read : reader.dataValue tokens with
  | .error e => .error e
  | .ok (value, ⟨.comma, _, _⟩ :: rest) => dataAfter name (some value :: found) rest
  | .ok (value, rest) =>
      .ok (.data (some value :: found).reverse (name.position.span value.position), rest)
termination_by tokens.length
decreasing_by
  have := (reader.dataValue_suffix _read).length_le
  simp only [List.length_cons] at this
  omega

def data (name : Token) (tokens : List Token) : Except Diagnostic (Body × List Token) :=
  if tokens.isEmpty then reject name.position (.argumentCount 1 0)
  else reader.dataAfter name [] tokens

def namedBody (t : Token) (tokens : List Token) : Except Diagnostic (Body × List Token) := do
  let name := t.value.lower
  if name = "dat" then reader.data t tokens
  else if (reader.layout.basicOpcode? name).isSome then
    let found ← reader.arguments t 2 tokens
    return (.basic name found[0]? found[1]? t.position, [])
  else if (reader.layout.extendedOpcode? name).isSome then
    let found ← reader.arguments t 1 tokens
    return (.extended name found[0]? t.position, [])
  else reject t.position (.unknownIdentifier t.value)

def body : List Token → Except Diagnostic (Body × List Token)
  | ⟨.atSign, p, _⟩ :: rest => do
      let (value, rest) ← reader.expression rest
      return (.addressFix (some value) (p.span value.position), rest)
  | ⟨.identifier, p, v⟩ :: rest => reader.namedBody ⟨.identifier, p, v⟩ rest
  | tokens => reader.refuse [.colon, .atSign, .identifier] tokens

def label? : List Token → Except Diagnostic (Option LabelDefinition × List Token)
  | ⟨.colon, p, _⟩ :: rest => do
      let (name, rest) ← reader.expect [.identifier] rest
      return (some ⟨name.value, p.span name.position⟩, rest)
  | tokens => .ok (none, tokens)

def startPosition : List Token → Position
  | [] => reader.lineEnd
  | t :: _ => t.position

def statement (tokens : List Token) : Except Diagnostic Statement := do
  let position := reader.startPosition tokens
  let (label, rest) ← reader.label? tokens
  if rest.isEmpty then return ⟨label, none, position⟩
  let (body, rest) ← reader.body rest
  match rest with
  | [] => return ⟨label, some body, position⟩
  | t :: _ => reject t.position (.unexpectedToken t.value)

end StatementReader

end Dcpu
