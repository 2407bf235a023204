import Dcpu.Statement

set_option autoImplicit false

namespace Dcpu

variable (rename : Text → Text)

def Atom.mapNames : Atom → Atom
  | .number value position => .number value position
  | .character value position => .character value position
  | .identifier name position => .identifier (rename name) position
  | .difference target position => .difference target.mapNames position
  | .absent => .absent

def Expression.mapNames (e : Expression) : Expression where
  head := e.head.mapNames rename
  tail := e.tail.map (Atom.mapNames rename)
  position := e.position

def Argument.mapNames : Argument → Argument
  | .register name position => .register name position
  | .special name position => .special name position
  | .lookup named position => .lookup named position
  | .offsetLookup named sign offset position =>
      .offsetLookup named sign (offset.map (Expression.mapNames rename)) position
  -- Only `pick` looks at its offset, but a name in any other is a name all the same.
  | .stack access offset position =>
      .stack access (offset.map (Expression.mapNames rename)) position
  | .literal value position => .literal (value.map (Expression.mapNames rename)) position
  | .literalLookup value position =>
      .literalLookup (value.map (Expression.mapNames rename)) position

def DataValue.mapNames : DataValue → DataValue
  | .string text position => .string text position
  | .lengthMarker position => .lengthMarker position
  | .word value => .word (value.mapNames rename)

def Body.mapNames : Body → Body
  | .addressFix value position => .addressFix (value.map (Expression.mapNames rename)) position
  | .basic opcode a b position =>
      .basic opcode (a.map (Argument.mapNames rename)) (b.map (Argument.mapNames rename)) position
  | .extended opcode argument position =>
      .extended opcode (argument.map (Argument.mapNames rename)) position
  | .data values position =>
      .data (values.map (Option.map (DataValue.mapNames rename))) position

def LabelDefinition.mapName (label : LabelDefinition) : LabelDefinition where
  name := rename label.name
  position := label.position

def Statement.mapNames (s : Statement) : Statement where
  label := s.label.map (LabelDefinition.mapName rename)
  body := s.body.map (Body.mapNames rename)
  position := s.position

theorem Atom.mapNames_id : Atom.mapNames id = id := by
  funext a
  induction a with
  | difference target position ih => exact congrArg (Atom.difference · position) ih
  | _ => rfl

theorem Expression.mapNames_id : Expression.mapNames id = id := by
  funext e
  simp [mapNames, Atom.mapNames_id]

theorem Argument.mapNames_id : Argument.mapNames id = id := by
  funext argument
  cases argument <;> simp [mapNames, Expression.mapNames_id]

theorem DataValue.mapNames_id : DataValue.mapNames id = id := by
  funext value
  cases value <;> simp [mapNames, Expression.mapNames_id]

theorem Body.mapNames_id : Body.mapNames id = id := by
  funext body
  cases body <;>
    simp [mapNames, Expression.mapNames_id, Argument.mapNames_id, DataValue.mapNames_id]

theorem Statement.mapNames_id : Statement.mapNames id = id := by
  funext s
  have label : LabelDefinition.mapName id = id := rfl
  simp [mapNames, label, Body.mapNames_id]

@[simp] theorem Argument.position_mapNames (argument : Argument) :
    (argument.mapNames rename).position = argument.position := by
  cases argument <;> rfl

end Dcpu
