import Dcpu.Encoder

set_option autoImplicit false

namespace Dcpu

namespace Atom

def WellFormed (rules : EncodingRules) : Atom → Prop
  | .number n _ => (if rules.signedNumbers then -0x8000 else 0) ≤ n ∧ n ≤ 0xffff
  | .character n _ => 0 ≤ n ∧ n ≤ 0xffff
  | .identifier .. => True
  | .difference target _ => rules.differenceLiterals = true ∧ target.WellFormed rules
  | .absent => False

instance decidableWellFormed (rules : EncodingRules) : (atom : Atom) → Decidable (atom.WellFormed rules)
  | .number n _ =>
      inferInstanceAs (Decidable ((if rules.signedNumbers then -0x8000 else 0) ≤ n ∧ n ≤ 0xffff))
  | .character n _ => inferInstanceAs (Decidable (0 ≤ n ∧ n ≤ 0xffff))
  | .identifier .. => isTrue trivial
  | .difference target _ =>
      have := decidableWellFormed rules target
      inferInstanceAs (Decidable (rules.differenceLiterals = true ∧ target.WellFormed rules))
  | .absent => isFalse id

end Atom

namespace Expression

def WellFormed (rules : EncodingRules) (e : Expression) : Prop :=
  e.head.WellFormed rules ∧
    ∀ tail ∈ e.tail, rules.differenceLiterals = true ∧ tail.WellFormed rules

instance (rules : EncodingRules) (e : Expression) : Decidable (e.WellFormed rules) :=
  inferInstanceAs (Decidable (_ ∧ _))

def isDifference : Expression → Bool
  | ⟨.difference .., _, _⟩ | ⟨_, some _, _⟩ => true
  | _ => false

end Expression

namespace Argument

def Known (named : RegisterName) : Prop := (Register.ofName? named.name).isSome = true

instance (named : RegisterName) : Decidable (Known named) :=
  inferInstanceAs (Decidable (_ = true))

def WellFormed (rules : EncodingRules) : Argument → Prop
  | .register name _ => (Register.ofName? name).isSome = true
  | .special name _ => (rules.layout.special? name).isSome = true
  | .lookup named _ => ∃ r ∈ named, Known r
  | .offsetLookup named _ offset _ => (∃ r ∈ named, Known r) ∧ ∃ v ∈ offset, v.WellFormed rules
  | .stack .pick offset _ => rules.layout.hasPick = true ∧ ∃ v ∈ offset, v.WellFormed rules
  | .stack .unknown _ _ => False
  | .stack .. => True
  | .literal value _ | .literalLookup value _ => ∃ v ∈ value, v.WellFormed rules

instance decidableWellFormed (rules : EncodingRules) :
    (argument : Argument) → Decidable (argument.WellFormed rules)
  | .register name _ => inferInstanceAs (Decidable ((Register.ofName? name).isSome = true))
  | .special name _ => inferInstanceAs (Decidable ((rules.layout.special? name).isSome = true))
  | .lookup named _ => inferInstanceAs (Decidable (∃ r ∈ named, Known r))
  | .offsetLookup named _ offset _ =>
      inferInstanceAs (Decidable ((∃ r ∈ named, Known r) ∧ ∃ v ∈ offset, v.WellFormed rules))
  | .stack .pick offset _ =>
      inferInstanceAs (Decidable (rules.layout.hasPick = true ∧ ∃ v ∈ offset, v.WellFormed rules))
  | .stack .unknown _ _ => isFalse id
  | .stack .push _ _ | .stack .pop _ _ | .stack .peek _ _ => isTrue trivial
  | .literal value _ | .literalLookup value _ =>
      inferInstanceAs (Decidable (∃ v ∈ value, v.WellFormed rules))

end Argument

namespace Body

def DataWellFormed (rules : EncodingRules) : List (Option DataValue) → Prop
  | [] => True
  | some (.string ..) :: rest => DataWellFormed rules rest
  -- A marker counts what is behind it in the same `dat`.
  | some (.lengthMarker _) :: rest =>
      (rules.datLengthCounting = true ∧ EncodingRules.dataSizes rest ≤ 0xffff) ∧
        DataWellFormed rules rest
  | some (.word value) :: rest => value.WellFormed rules ∧ DataWellFormed rules rest
  | none :: _ => False

instance decidableData (rules : EncodingRules) :
    (values : List (Option DataValue)) → Decidable (DataWellFormed rules values)
  | [] => isTrue trivial
  | some (.string ..) :: rest => decidableData rules rest
  | some (.lengthMarker _) :: rest =>
      have := decidableData rules rest
      inferInstanceAs (Decidable ((rules.datLengthCounting = true ∧
        EncodingRules.dataSizes rest ≤ 0xffff) ∧ DataWellFormed rules rest))
  | some (.word value) :: rest =>
      have := decidableData rules rest
      inferInstanceAs (Decidable (value.WellFormed rules ∧ DataWellFormed rules rest))
  | none :: _ => isFalse id

def WellFormed (rules : EncodingRules) : Body → Prop
  -- A label cannot be fixed to a difference.
  | .addressFix value _ => ∃ v ∈ value, v.WellFormed rules ∧ v.isDifference = false
  | .basic opcode a b _ =>
      (rules.layout.basicOpcode? opcode).isSome = true ∧
        (∃ x ∈ a, x.WellFormed rules) ∧ ∃ y ∈ b, y.WellFormed rules
  | .extended opcode argument _ =>
      (rules.layout.extendedOpcode? opcode).isSome = true ∧ ∃ x ∈ argument, x.WellFormed rules
  | .data values _ => DataWellFormed rules values

instance decidableWellFormed (rules : EncodingRules) :
    (body : Body) → Decidable (body.WellFormed rules)
  | .addressFix value _ =>
      inferInstanceAs (Decidable (∃ v ∈ value, v.WellFormed rules ∧ v.isDifference = false))
  | .basic opcode a b _ =>
      inferInstanceAs (Decidable ((rules.layout.basicOpcode? opcode).isSome = true ∧
        (∃ x ∈ a, x.WellFormed rules) ∧ ∃ y ∈ b, y.WellFormed rules))
  | .extended opcode argument _ =>
      inferInstanceAs (Decidable ((rules.layout.extendedOpcode? opcode).isSome = true ∧
        ∃ x ∈ argument, x.WellFormed rules))
  | .data values _ => decidableData rules values

end Body

end Dcpu
