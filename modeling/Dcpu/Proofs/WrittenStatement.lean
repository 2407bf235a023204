import Dcpu.Proofs.Grammar
import Dcpu.Proofs.LineElements

set_option autoImplicit false

namespace Dcpu

namespace Element

def colon : Element := .mark 0x3a

def comma : Element := .mark 0x2c

def atSign : Element := .mark 0x40

def plus : Element := .mark 0x2b

def minus : Element := .mark 0x2d

def tilde : Element := .mark 0x7e

def bracketed (inner : List Element) : List Element := .mark 0x5b :: (inner ++ [.mark 0x5d])

end Element

open Element (bracketed colon comma atSign plus minus tilde Parted Respelled)

def Atom.elements : Atom → List Element
  | .number value _ =>
      if value < 0 then [minus, .numeral value.natAbs] else [.numeral value.natAbs]
  | .character value _ => [.character value.toNat]
  | .identifier name _ => [.name name]
  | .difference target _ => tilde :: target.elements
  | .absent => []

def Expression.elements (e : Expression) : List Element :=
  match e.tail with
  | none => e.head.elements
  | some tail => e.head.elements ++ tilde :: tail.elements

/-- An operand, in its other form if it has two and that is asked for: a stack operand in brackets,
an offset before its register. -/
def Argument.elements (other : Bool) : Argument → List Element
  | .register name _ | .special name _ => [.keyword name]
  | .lookup (some named) _ => bracketed [.keyword named.name]
  | .offsetLookup (some named) sign (some offset) _ =>
      if other then bracketed (offset.elements ++ [plus, .keyword named.name])
      else
        bracketed (.keyword named.name :: (if sign = .minus then minus else plus) ::
          offset.elements)
  | .stack .push none _ =>
      if other then bracketed [minus, minus, .keyword "sp"] else [.keyword "push"]
  | .stack .pop none _ =>
      if other then bracketed [.keyword "sp", plus, plus] else [.keyword "pop"]
  | .stack .peek none _ => if other then bracketed [.keyword "sp"] else [.keyword "peek"]
  | .stack .pick (some offset) _ =>
      if other then bracketed (.keyword "sp" :: plus :: offset.elements)
      else .keyword "pick" :: .blank :: offset.elements
  | .literal (some value) _ => value.elements
  | .literalLookup (some value) _ => bracketed value.elements
  | _ => []

def DataValue.elements : DataValue → List Element
  | .string text _ => [.string text]
  | .lengthMarker _ => [tilde]
  | .word value => value.elements

def DataValue.listed : List DataValue → List Element
  | [] => []
  | [value] => value.elements
  | value :: next :: rest => value.elements ++ comma :: .blank :: listed (next :: rest)

structure Forms where
  first : Bool
  second : Bool
deriving DecidableEq, Repr

def Body.elements (forms : Forms) : Body → List Element
  | .addressFix (some value) _ => atSign :: .blank :: value.elements
  | .basic opcode (some a) (some b) _ =>
      .keyword opcode :: .blank ::
        (a.elements forms.first ++ comma :: .blank :: b.elements forms.second)
  | .extended opcode (some argument) _ =>
      .keyword opcode :: .blank :: argument.elements forms.first
  | .data values _ => .keyword "dat" :: .blank :: DataValue.listed (values.filterMap id)
  | _ => []

def Statement.elements (forms : Forms) (s : Statement) : List Element :=
  match s.label, s.body with
  | none, none => []
  | some label, none => [colon, .name label.name]
  | none, some body => body.elements forms
  | some label, some body => colon :: .name label.name :: .blank :: body.elements forms

/-- A line that says the statement, with the letters of mnemonics, registers and keywords in either
case. -/
def Statement.WrittenAs (forms : Forms) (s : Statement) (line : Text) : Prop :=
  ∃ written, List.Forall₂ Respelled (s.elements forms) written ∧ line = written.flatMap Element.text

def Dialect.nameRules (d : Dialect) : NameRules := ⟨d.localLabels, d.extendedLabelNames⟩

def Layout.lookupWords : List Text := "sp" :: Register.all.map Register.name

def Layout.operandWords (layout : Layout) : List Text :=
  Register.all.map Register.name ++ SpecialRegister.all.map layout.specialName ++
    Token.stackWords

section Language

variable (d : Dialect) (layout : Layout)

inductive Atom.Sayable : Atom → Prop
  | number {value : Int} {position : Position} (fits : value.natAbs ≤ Numeral.largest)
      (signed : value < 0 → d.signedNumbers = true) : Sayable (.number value position)
  | character {position : Position} (c : Char) : Sayable (.character c.toNat position)
  | identifier {name : Text} {position : Position} (legal : d.nameRules.Legal name) :
      Sayable (.identifier name position)
  | difference {target : Atom} {position : Position} (sayable : Sayable target) :
      Sayable (.difference target position)

structure Expression.Sayable (e : Expression) : Prop where
  head : e.head.Sayable d
  tail : ∀ tail ∈ e.tail, tail.Sayable d

def Expression.HeadNot (words : List Text) (e : Expression) : Prop :=
  ∀ name position, e.head = .identifier name position → name.lower ∉ words

inductive Argument.Sayable : Bool → Argument → Prop
  | register {other : Bool} {name : Text} {position : Position} (r : Register)
      (named : name.SameLetters r.name) : Sayable other (.register name position)
  | special {other : Bool} {name : Text} {position : Position} (r : SpecialRegister)
      (named : name.SameLetters (layout.specialName r)) : Sayable other (.special name position)
  | lookup {other : Bool} {named : RegisterName} {position : Position} (r : Register)
      (same : named.name.SameLetters r.name) : Sayable other (.lookup (some named) position)
  | offsetLookup {named : RegisterName} {sign : OffsetSign} {offset : Expression}
      {position : Position} (r : Register) (same : named.name.SameLetters r.name)
      (signs : sign = .plus ∨ sign = .minus) (sayable : offset.Sayable d) :
      Sayable false (.offsetLookup (some named) sign (some offset) position)
  | offsetFirst {named : RegisterName} {offset : Expression} {position : Position} (r : Register)
      (same : named.name.SameLetters r.name) (sayable : offset.Sayable d)
      (free : offset.HeadNot Layout.lookupWords) :
      Sayable true (.offsetLookup (some named) .plus (some offset) position)
  | push {other : Bool} {position : Position} : Sayable other (.stack .push none position)
  | pop {other : Bool} {position : Position} : Sayable other (.stack .pop none position)
  | peek {other : Bool} {position : Position} : Sayable other (.stack .peek none position)
  | pick {other : Bool} {offset : Expression} {position : Position} (sayable : offset.Sayable d) :
      Sayable other (.stack .pick (some offset) position)
  | literal {other : Bool} {value : Expression} {position : Position} (sayable : value.Sayable d)
      (free : value.HeadNot layout.operandWords) : Sayable other (.literal (some value) position)
  | literalLookup {other : Bool} {value : Expression} {position : Position}
      (sayable : value.Sayable d) (free : value.HeadNot Layout.lookupWords) :
      Sayable other (.literalLookup (some value) position)

inductive DataValue.Sayable : DataValue → Prop
  | string {text : Text} {position : Position} : Sayable (.string text position)
  | lengthMarker {position : Position} : Sayable (.lengthMarker position)
  | word {value : Expression} (sayable : value.Sayable d) : Sayable (.word value)

inductive Body.Sayable (forms : Forms) : Body → Prop
  | addressFix {value : Expression} {position : Position} (sayable : value.Sayable d) :
      Sayable forms (.addressFix (some value) position)
  | basic {opcode : Text} {a b : Argument} {position : Position} (op : BasicOp)
      (known : op ∈ layout.basicTable.map (·.1)) (named : opcode.SameLetters op.mnemonic)
      (first : a.Sayable d layout forms.first) (second : b.Sayable d layout forms.second) :
      Sayable forms (.basic opcode (some a) (some b) position)
  | extended {opcode : Text} {argument : Argument} {position : Position} (op : ExtendedOp)
      (known : op ∈ layout.extendedTable.map (·.1)) (named : opcode.SameLetters op.mnemonic)
      (sayable : argument.Sayable d layout forms.first) :
      Sayable forms (.extended opcode (some argument) position)
  | data {values : List DataValue} {position : Position} (listed : values ≠ [])
      (sayable : ∀ value ∈ values, value.Sayable d) :
      Sayable forms (.data (values.map some) position)

structure Statement.Sayable (forms : Forms) (s : Statement) : Prop where
  label : ∀ label ∈ s.label, d.nameRules.Legal label.name
  body : ∀ body ∈ s.body, body.Sayable d layout forms
  some : s.label.isSome ∨ s.body.isSome

end Language

theorem Register.isKeyword_name (r : Register) : r.name.IsKeyword := by cases r <;> decide

theorem Layout.isKeyword_specialName (layout : Layout) (r : SpecialRegister) :
    (layout.specialName r).IsKeyword := by
  cases layout <;> cases r <;> decide

theorem BasicOp.isKeyword_mnemonic (op : BasicOp) : op.mnemonic.IsKeyword := by
  cases op <;> decide

theorem ExtendedOp.isKeyword_mnemonic (op : ExtendedOp) : op.mnemonic.IsKeyword := by
  cases op <;> decide

theorem Text.SameLetters.formed {rules : NameRules} {t word : Text} (same : t.SameLetters word)
    (keyword : word.IsKeyword) : (Element.keyword t).Formed rules := by
  refine ⟨?_, same.letters keyword.letters⟩
  rintro rfl
  exact keyword.some (List.map_eq_nil_iff.1 same.symm)

theorem Text.IsKeyword.formed {rules : NameRules} {word : Text} (keyword : word.IsKeyword) :
    (Element.keyword word).Formed rules :=
  ⟨keyword.some, keyword.letters⟩

theorem Element.Parted.bracketed {rules : NameRules} {inner : List Element}
    (parted : Parted rules inner) : Parted rules (bracketed inner) :=
  .mark (by decide) (parted.append_mark (by decide) trivial)

section Parted

variable {d : Dialect} {layout : Layout}

theorem Atom.Sayable.parted {a : Atom} (sayable : a.Sayable d) :
    Parted d.nameRules a.elements := by
  induction sayable with
  | number fits signed =>
      rw [Atom.elements]
      split
      · exact .mark (by decide) (.last trivial)
      · exact .last trivial
  | character c => exact .last c.valid
  | identifier legal => exact .last legal
  | difference _ ih => exact .mark (by decide) ih

theorem Expression.Sayable.parted {e : Expression} (sayable : e.Sayable d) :
    Parted d.nameRules e.elements := by
  obtain ⟨head, tail, position⟩ := e
  cases tail with
  | none => exact sayable.head.parted
  | some tail => exact sayable.head.parted.append_mark (by decide) (sayable.tail tail rfl).parted

theorem Argument.Sayable.parted {other : Bool} {x : Argument} (sayable : x.Sayable d layout other) :
    Parted d.nameRules (x.elements other) := by
  have sp : (Element.keyword "sp").Formed d.nameRules :=
    Text.IsKeyword.formed (by decide)
  -- The other form of an operand stands in brackets, where marks part its words.
  cases sayable with
  | register r named => exact .last (named.formed r.isKeyword_name)
  | special r named => exact .last (named.formed (layout.isKeyword_specialName r))
  | lookup r same => exact .bracketed (.last (same.formed r.isKeyword_name))
  | offsetLookup r same signs sayable =>
      refine .bracketed (.word (same.formed r.isKeyword_name) ?_ ?_)
      · split <;> rfl
      · split
        · exact .mark (by decide) sayable.parted
        · exact .mark (by decide) sayable.parted
  | offsetFirst r same sayable free =>
      exact .bracketed (sayable.parted.append_mark (by decide)
        (.last (same.formed r.isKeyword_name)))
  | push =>
      cases other with
      | false => exact .last (Text.IsKeyword.formed (by decide))
      | true => exact .bracketed (.mark (by decide) (.mark (by decide) (.last sp)))
  | pop =>
      cases other with
      | false => exact .last (Text.IsKeyword.formed (by decide))
      | true =>
          exact .bracketed (.word sp rfl (.mark (by decide) (.mark (by decide) trivial)))
  | peek =>
      cases other with
      | false => exact .last (Text.IsKeyword.formed (by decide))
      | true => exact .bracketed (.last sp)
  | pick sayable =>
      cases other with
      | false =>
          exact .word (Text.IsKeyword.formed (by decide)) rfl (.blank sayable.parted)
      | true => exact .bracketed (.word sp rfl (.mark (by decide) sayable.parted))
  | literal sayable free => exact sayable.parted
  | literalLookup sayable free => exact .bracketed sayable.parted

theorem DataValue.Sayable.parted {value : DataValue} (sayable : value.Sayable d) :
    Parted d.nameRules value.elements := by
  cases sayable with
  | string => exact .last trivial
  | lengthMarker => exact .mark (by decide) trivial
  | word sayable => exact sayable.parted

theorem DataValue.parted_listed {values : List DataValue}
    (sayable : ∀ value ∈ values, value.Sayable d) : Parted d.nameRules (listed values) := by
  induction values with
  | nil => trivial
  | cons value rest ih =>
      have first := (sayable value (.head _)).parted
      cases rest with
      | nil => exact first
      | cons next rest =>
          have others := ih fun value member => sayable value (.tail _ member)
          exact first.append_mark (by decide) others.blank

theorem Body.Sayable.parted {forms : Forms} {body : Body} (sayable : body.Sayable d layout forms) :
    Parted d.nameRules (body.elements forms) := by
  cases sayable with
  | addressFix sayable => exact .mark (by decide) sayable.parted.blank
  | basic op known named first second =>
      exact .word (named.formed op.isKeyword_mnemonic) rfl
        (.blank (first.parted.append_mark (by decide) second.parted.blank))
  | extended op known named sayable =>
      exact .word (named.formed op.isKeyword_mnemonic) rfl sayable.parted.blank
  | data listed sayable =>
      rw [Body.elements, List.filterMap_map, Function.id_comp, List.filterMap_some]
      exact .word (Text.IsKeyword.formed (by decide)) rfl
        (.blank (DataValue.parted_listed sayable))

theorem Statement.Sayable.parted {forms : Forms} {s : Statement}
    (sayable : s.Sayable d layout forms) : Parted d.nameRules (s.elements forms) := by
  obtain ⟨label, body, position⟩ := s
  obtain ⟨legal, body_sayable, some⟩ := sayable
  cases label with
  | none =>
      cases body with
      | none => trivial
      | some body => exact (body_sayable body rfl).parted
  | some label =>
      have name : (Element.name label.name).Formed d.nameRules := legal label rfl
      cases body with
      | none => exact .mark (by decide) (.last name)
      | some body => exact .mark (by decide) (.word name rfl (body_sayable body rfl).parted.blank)

end Parted

def RegisterName.lowered (register : RegisterName) : RegisterName where
  name := register.name.lower
  position := register.position

def Argument.lowered : Argument → Argument
  | .register name position => .register name.lower position
  | .special name position => .special name.lower position
  | .lookup named position => .lookup (named.map RegisterName.lowered) position
  | .offsetLookup named sign offset position =>
      .offsetLookup (named.map RegisterName.lowered) sign offset position
  | argument => argument

def Body.lowered : Body → Body
  | .basic opcode a b position =>
      .basic opcode.lower (a.map Argument.lowered) (b.map Argument.lowered) position
  | .extended opcode argument position =>
      .extended opcode.lower (argument.map Argument.lowered) position
  | body => body

def Statement.lowered (s : Statement) : Statement :=
  { s with body := s.body.map Body.lowered }

end Dcpu
