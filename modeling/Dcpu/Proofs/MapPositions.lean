import Dcpu.Statement.Parser

set_option autoImplicit false

namespace Dcpu

section Places

variable (move : Position → Position)

def Token.mapPosition (t : Token) : Token := { t with position := move t.position }

def Atom.mapPositions : Atom → Atom
  | .number value position => .number value (move position)
  | .character value position => .character value (move position)
  | .identifier name position => .identifier name (move position)
  | .difference target position => .difference target.mapPositions (move position)
  | .absent => .absent

def Expression.mapPositions (e : Expression) : Expression where
  head := e.head.mapPositions move
  tail := e.tail.map (Atom.mapPositions move)
  position := move e.position

def RegisterName.mapPosition (register : RegisterName) : RegisterName where
  name := register.name
  position := move register.position

def Argument.mapPositions : Argument → Argument
  | .register name position => .register name (move position)
  | .special name position => .special name (move position)
  | .lookup named position =>
      .lookup (named.map (RegisterName.mapPosition move)) (move position)
  | .offsetLookup named sign offset position =>
      .offsetLookup (named.map (RegisterName.mapPosition move)) sign
        (offset.map (Expression.mapPositions move)) (move position)
  | .stack access offset position =>
      .stack access (offset.map (Expression.mapPositions move)) (move position)
  | .literal value position =>
      .literal (value.map (Expression.mapPositions move)) (move position)
  | .literalLookup value position =>
      .literalLookup (value.map (Expression.mapPositions move)) (move position)

def DataValue.mapPositions : DataValue → DataValue
  | .string text position => .string text (move position)
  | .lengthMarker position => .lengthMarker (move position)
  | .word value => .word (value.mapPositions move)

def Body.mapPositions : Body → Body
  | .addressFix value position =>
      .addressFix (value.map (Expression.mapPositions move)) (move position)
  | .basic opcode a b position =>
      .basic opcode (a.map (Argument.mapPositions move)) (b.map (Argument.mapPositions move))
        (move position)
  | .extended opcode argument position =>
      .extended opcode (argument.map (Argument.mapPositions move)) (move position)
  | .data values position =>
      .data (values.map (Option.map (DataValue.mapPositions move))) (move position)

def LabelDefinition.mapPosition (label : LabelDefinition) : LabelDefinition where
  name := label.name
  position := move label.position

def Statement.mapPositions (s : Statement) : Statement where
  label := s.label.map (LabelDefinition.mapPosition move)
  body := s.body.map (Body.mapPositions move)
  position := move s.position

def Cause.mapPosition : Cause → Cause
  | .duplicateLabel name first => .duplicateLabel name (move first)
  | cause => cause

def Diagnostic.mapPositions (d : Diagnostic) : Diagnostic where
  position := move d.position
  cause := d.cause.mapPosition move

def AssemblyError.mapPositions : AssemblyError → AssemblyError
  | .located diagnostic => .located (diagnostic.mapPositions move)
  | error => error

def StatementReader.mapPosition (reader : StatementReader) : StatementReader :=
  { reader with lineEnd := move reader.lineEnd }

@[simp] theorem Token.kind_mapPosition (t : Token) : (t.mapPosition move).kind = t.kind := rfl

@[simp] theorem Token.value_mapPosition (t : Token) : (t.mapPosition move).value = t.value := rfl

@[simp] theorem Token.position_mapPosition (t : Token) :
    (t.mapPosition move).position = move t.position := rfl

@[simp] theorem DataValue.position_mapPositions (value : DataValue) :
    (value.mapPositions move).position = move value.position := by
  cases value <;> rfl

end Places

inductive Moved {α β : Type} (move : Position → Position) (related : α → β → Prop) :
    Except Diagnostic α → Except Diagnostic β → Prop
  | ok {a : α} {b : β} (results : related a b) : Moved move related (.ok a) (.ok b)
  | error (d : Diagnostic) : Moved move related (.error d) (.error (d.mapPositions move))

namespace Moved

variable {α β γ δ : Type} {move : Position → Position} {related : α → β → Prop}
  {x x' : Except Diagnostic α} {y y' : Except Diagnostic β}

theorem bind {related' : γ → δ → Prop} {f : α → Except Diagnostic γ} {g : β → Except Diagnostic δ}
    (first : Moved move related x y)
    (second : ∀ a b, related a b → Moved move related' (f a) (g b)) :
    Moved move related' (x >>= f) (y >>= g) := by
  cases first with
  | ok results => exact second _ _ results
  | error d => exact .error d

theorem ite {c c' : Prop} [Decidable c] [Decidable c'] (same : c ↔ c')
    (yes : Moved move related x y) (no : Moved move related x' y') :
    Moved move related (if c then x else x') (if c' then y else y') := by
  by_cases holds : c
  · rwa [if_pos holds, if_pos (same.1 holds)]
  · rwa [if_neg holds, if_neg (mt same.2 holds)]

theorem of_eq_ok {a : α} (moved : Moved move related x y) (result : x = .ok a) :
    ∃ b, y = .ok b ∧ related a b := by
  cases moved with
  | ok results =>
      cases result
      exact ⟨_, rfl, results⟩
  | error d => cases result

theorem of_eq_ok_right {b : β} (moved : Moved move related x y) (result : y = .ok b) :
    ∃ a, x = .ok a ∧ related a b := by
  cases moved with
  | ok results =>
      cases result
      exact ⟨_, rfl, results⟩
  | error d => cases result

theorem of_eq_error {d : Diagnostic} (moved : Moved move related x y) (result : x = .error d) :
    y = .error (d.mapPositions move) := by
  cases moved with
  | ok results => cases result
  | error d =>
      cases result
      rfl

end Moved

end Dcpu
