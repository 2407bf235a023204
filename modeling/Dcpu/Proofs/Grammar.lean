import Dcpu.Statement.Parser

set_option autoImplicit false

namespace Dcpu

structure Token.Names (t : Token) (word : Text) : Prop where
  kind : t.kind = .identifier
  lower : t.value.lower = word

namespace Token

def NamesRegister (t : Token) : Prop := ∃ r : Register, t.Names r.name

/-- What a name is read as in brackets if it can be. -/
def ReservedInside (t : Token) : Prop := t.NamesRegister ∨ t.Names "sp"

def stackWords : List Text := ["push", "pop", "peek", "pick"]

def Reserved (layout : Layout) (t : Token) : Prop :=
  t.NamesRegister ∨ (∃ r, t.Names (layout.specialName r)) ∨ ∃ word ∈ stackWords, t.Names word

end Token

namespace StatementReader

variable (reader : StatementReader)

inductive SpellsAtom : List Token → Atom → Prop
  | difference {t : Token} {tokens : List Token} {target : Atom} (tilde : t.kind = .tilde)
      (spells : SpellsAtom tokens target) :
      SpellsAtom (t :: tokens) (.difference target (t.position.span target.position))
  | plus {sign digits : Token} {value : Nat} (signed : reader.signedNumbers = true)
      (plus : sign.kind = .plus) (numeral : digits.kind = .literal)
      (decodes : Numeral.decode reader.numerals digits.value = .ok value) :
      SpellsAtom [sign, digits] (.number value (sign.position.span digits.position))
  | minus {sign digits : Token} {value : Nat} (signed : reader.signedNumbers = true)
      (minus : sign.kind = .minus) (numeral : digits.kind = .literal)
      (decodes : Numeral.decode reader.numerals digits.value = .ok value) :
      SpellsAtom [sign, digits] (.number (-value) (sign.position.span digits.position))
  | number {t : Token} {value : Nat} (numeral : t.kind = .literal)
      (decodes : Numeral.decode reader.numerals t.value = .ok value) :
      SpellsAtom [t] (.number value t.position)
  | character {t : Token} (character : t.kind = .character) :
      SpellsAtom [t] (.character (characterValue t.value) t.position)
  | identifier {t : Token} (name : t.kind = .identifier) :
      SpellsAtom [t] (.identifier t.value t.position)

inductive SpellsWord : List Token → Expression → Prop
  | single {tokens : List Token} {head : Atom} (spells : reader.SpellsAtom tokens head) :
      SpellsWord tokens ⟨head, none, head.position⟩
  | pair {first second : List Token} {t : Token} {head tail : Atom}
      (base : reader.SpellsAtom first head) (tilde : t.kind = .tilde)
      (target : reader.SpellsAtom second tail) :
      SpellsWord (first ++ t :: second) ⟨head, some tail, head.position.span tail.position⟩

inductive SpellsLookup : List Token → (Position → Argument) → Prop
  | decrement {first second sp : Token} (minus : first.kind = .minus)
      (minus' : second.kind = .minus) (named : sp.Names "sp") :
      SpellsLookup [first, second, sp] (.stack .push none)
  | peek {sp : Token} (named : sp.Names "sp") : SpellsLookup [sp] (.stack .peek none)
  | increment {sp first second : Token} (named : sp.Names "sp") (plus : first.kind = .plus)
      (plus' : second.kind = .plus) : SpellsLookup [sp, first, second] (.stack .pop none)
  | pick {sp sign : Token} {tokens : List Token} {offset : Expression} (named : sp.Names "sp")
      (plus : sign.kind = .plus) (spells : reader.SpellsWord tokens offset)
      (single : ∀ t ∈ tokens.head?, t.kind ≠ .plus) :
      SpellsLookup (sp :: sign :: tokens) (.stack .pick (some offset))
  | register {t : Token} (r : Register) (named : t.Names r.name) :
      SpellsLookup [t] (.lookup (some ⟨r.name, t.position⟩))
  | plus {t sign : Token} {tokens : List Token} {offset : Expression} (r : Register)
      (named : t.Names r.name) (plus : sign.kind = .plus)
      (spells : reader.SpellsWord tokens offset) :
      SpellsLookup (t :: sign :: tokens)
        (.offsetLookup (some ⟨r.name, t.position⟩) .plus (some offset))
  | minus {t sign : Token} {tokens : List Token} {offset : Expression} (r : Register)
      (named : t.Names r.name) (minus : sign.kind = .minus)
      (spells : reader.SpellsWord tokens offset) :
      SpellsLookup (t :: sign :: tokens)
        (.offsetLookup (some ⟨r.name, t.position⟩) .minus (some offset))
  | word {tokens : List Token} {value : Expression} (spells : reader.SpellsWord tokens value)
      (free : ∀ t ∈ tokens.head?, ¬ t.ReservedInside) :
      SpellsLookup tokens (.literalLookup (some value))
  | wordPlus {tokens : List Token} {value : Expression} {sign t : Token} (r : Register)
      (spells : reader.SpellsWord tokens value)
      (free : ∀ t ∈ tokens.head?, ¬ t.ReservedInside) (plus : sign.kind = .plus)
      (named : t.Names r.name) :
      SpellsLookup (tokens ++ [sign, t])
        (.offsetLookup (some ⟨r.name, t.position⟩) .plus (some value))

inductive SpellsArgument : List Token → Argument → Prop
  | register {t : Token} (r : Register) (named : t.Names r.name) :
      SpellsArgument [t] (.register r.name t.position)
  | special {t : Token} (r : SpecialRegister) (named : t.Names (reader.layout.specialName r)) :
      SpellsArgument [t] (.special (reader.layout.specialName r) t.position)
  | push {t : Token} (named : t.Names "push") : SpellsArgument [t] (.stack .push none t.position)
  | pop {t : Token} (named : t.Names "pop") : SpellsArgument [t] (.stack .pop none t.position)
  | peek {t : Token} (named : t.Names "peek") : SpellsArgument [t] (.stack .peek none t.position)
  | pick {t : Token} {tokens : List Token} {offset : Expression} (named : t.Names "pick")
      (spells : reader.SpellsWord tokens offset) :
      SpellsArgument (t :: tokens)
        (.stack .pick (some offset) (t.position.span offset.position))
  | lookup {opening closing : Token} {tokens : List Token} {make : Position → Argument}
      (opens : opening.kind = .leftBracket) (spells : reader.SpellsLookup tokens make)
      (closes : closing.kind = .rightBracket) :
      SpellsArgument (opening :: (tokens ++ [closing]))
        (make (opening.position.span closing.position))
  | word {tokens : List Token} {value : Expression} (spells : reader.SpellsWord tokens value)
      (free : ∀ t ∈ tokens.head?, ¬ t.Reserved reader.layout) :
      SpellsArgument tokens (.literal (some value) value.position)

inductive SpellsValue : List Token → DataValue → Prop
  | string {t : Token} (string : t.kind = .string) : SpellsValue [t] (.string t.value t.position)
  | lengthMarker {t : Token} (tilde : t.kind = .tilde) : SpellsValue [t] (.lengthMarker t.position)
  | word {tokens : List Token} {value : Expression} (spells : reader.SpellsWord tokens value) :
      SpellsValue tokens (.word value)

inductive SpellsValues : List Token → List DataValue → DataValue → Prop
  | last {tokens : List Token} {value : DataValue} (spells : reader.SpellsValue tokens value) :
      SpellsValues tokens [value] value
  | more {first others : List Token} {separator : Token} {value last : DataValue}
      {values : List DataValue} (spells : reader.SpellsValue first value)
      (comma : separator.kind = .comma) (rest : SpellsValues others values last) :
      SpellsValues (first ++ separator :: others) (value :: values) last

inductive SpellsBody : List Token → Body → Prop
  | addressFix {t : Token} {tokens : List Token} {value : Expression} (atSign : t.kind = .atSign)
      (spells : reader.SpellsWord tokens value) :
      SpellsBody (t :: tokens) (.addressFix (some value) (t.position.span value.position))
  | data {t : Token} {tokens : List Token} {values : List DataValue} {last : DataValue}
      (named : t.Names "dat") (spells : reader.SpellsValues tokens values last) :
      SpellsBody (t :: tokens) (.data (values.map some) (t.position.span last.position))
  | basic {t separator : Token} {first second : List Token} {a b : Argument} {op : BasicOp}
      (named : t.Names op.mnemonic) (known : op ∈ reader.layout.basicTable.map (·.1))
      (spellsA : reader.SpellsArgument first a) (comma : separator.kind = .comma)
      (spellsB : reader.SpellsArgument second b) :
      SpellsBody (t :: (first ++ separator :: second))
        (.basic op.mnemonic (some a) (some b) t.position)
  | extended {t : Token} {tokens : List Token} {argument : Argument} {op : ExtendedOp}
      (named : t.Names op.mnemonic) (known : op ∈ reader.layout.extendedTable.map (·.1))
      (spells : reader.SpellsArgument tokens argument) :
      SpellsBody (t :: tokens) (.extended op.mnemonic (some argument) t.position)

inductive SpellsLabel : List Token → Option LabelDefinition → Prop
  | none : SpellsLabel [] none
  | some {t name : Token} (colon : t.kind = .colon) (named : name.kind = .identifier) :
      SpellsLabel [t, name] (some ⟨name.value, t.position.span name.position⟩)

inductive SpellsBody? : List Token → Option Body → Prop
  | none : SpellsBody? [] none
  | some {tokens : List Token} {body : Body} (spells : reader.SpellsBody tokens body) :
      SpellsBody? tokens (some body)

inductive SpellsStatement : List Token → Statement → Prop
  | intro {first second : List Token} {label : Option LabelDefinition} {body : Option Body}
      (labels : SpellsLabel first label) (spells : reader.SpellsBody? second body) :
      SpellsStatement (first ++ second) ⟨label, body, reader.startPosition (first ++ second)⟩

end StatementReader

end Dcpu
