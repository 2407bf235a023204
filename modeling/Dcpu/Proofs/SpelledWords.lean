import Dcpu.Proofs.MapPositions
import Dcpu.Proofs.WrittenStatement

set_option autoImplicit false

namespace Dcpu

open Element (tilde Respelled)

def Position.forget (_ : Position) : Position := .nowhere

theorem Position.forget_span (first last : Position) :
    (first.span last).forget = first.forget.span last.forget := rfl

@[simp] theorem Atom.position_forget (a : Atom) :
    (a.mapPositions Position.forget).position = .nowhere := by
  cases a <;> rfl

@[simp] theorem DataValue.position_forget (value : DataValue) :
    (value.mapPositions Position.forget).position = .nowhere :=
  value.position_mapPositions _

namespace Element

def tokens (elements : List Element) : List Token :=
  (elements.filterMap shape?).map fun shape => ⟨shape.1, .nowhere, shape.2⟩

@[simp] theorem tokens_append (before after : List Element) :
    tokens (before ++ after) = tokens before ++ tokens after := by
  simp [tokens]

theorem tokens_eq_of_shapes {found : List Token} {elements : List Element}
    (shapes : found.map Token.shape = elements.filterMap shape?) :
    found.map (Token.mapPosition Position.forget) = tokens elements := by
  rw [tokens, ← shapes, List.map_map]
  rfl

def isKeyword : Element → Bool
  | .keyword _ => true
  | _ => false

namespace Respelled

variable {e : Element} {elements before after written : List Element} {word : Text}

theorem cons_plain (plain : e.isKeyword = false)
    (respelled : List.Forall₂ Respelled (e :: elements) written) :
    ∃ written', written = e :: written' ∧ List.Forall₂ Respelled elements written' := by
  cases respelled with
  | cons first others =>
      cases first with
      | same => exact ⟨_, rfl, others⟩
      | letters => cases plain

theorem cons_keyword (respelled : List.Forall₂ Respelled (.keyword word :: elements) written) :
    ∃ word' written', written = .keyword word' :: written' ∧ word'.SameLetters word ∧
      List.Forall₂ Respelled elements written' := by
  cases respelled with
  | cons first others =>
      cases first with
      | same => exact ⟨_, _, rfl, rfl, others⟩
      | letters same => exact ⟨_, _, rfl, same, others⟩

theorem append (respelled : List.Forall₂ Respelled (before ++ after) written) :
    ∃ first second, written = first ++ second ∧ List.Forall₂ Respelled before first ∧
      List.Forall₂ Respelled after second := by
  induction before generalizing written with
  | nil => exact ⟨[], written, rfl, .nil, respelled⟩
  | cons e before ih =>
      cases respelled with
      | cons respelled others =>
          obtain ⟨first, second, rfl, left, right⟩ := ih others
          exact ⟨_ :: first, second, rfl, .cons respelled left, right⟩

theorem eq_of_plain (plain : ∀ e ∈ elements, e.isKeyword = false)
    (respelled : List.Forall₂ Respelled elements written) : written = elements := by
  induction elements generalizing written with
  | nil =>
      cases respelled
      rfl
  | cons e elements ih =>
      obtain ⟨written', rfl, others⟩ := cons_plain (plain e (.head _)) respelled
      rw [ih (fun e member => plain e (.tail _ member)) others]

theorem bracketed (respelled : List.Forall₂ Respelled (Element.bracketed elements) written) :
    ∃ inner, written = Element.bracketed inner ∧ List.Forall₂ Respelled elements inner := by
  obtain ⟨_, rfl, others⟩ := cons_plain rfl respelled
  obtain ⟨inner, _, rfl, inside, last⟩ := append others
  obtain ⟨_, rfl, none⟩ := cons_plain rfl last
  cases none
  exact ⟨inner, rfl, inside⟩

end Respelled

end Element

theorem Text.SameLetters.names {t t' word : Text} (same : t.SameLetters word)
    (keyword : word.IsKeyword) (respelled : t'.SameLetters t) :
    (⟨.identifier, .nowhere, t'⟩ : Token).Names word :=
  ⟨rfl, Text.SameLetters.lower (Eq.trans respelled same) keyword⟩

theorem Atom.plain_elements (a : Atom) : ∀ e ∈ a.elements, e.isKeyword = false := by
  induction a with
  | number value position =>
      intro e member
      rw [Atom.elements] at member
      split at member
      · rcases List.mem_cons.1 member with rfl | member
        · rfl
        · obtain rfl := List.mem_singleton.1 member
          rfl
      · obtain rfl := List.mem_singleton.1 member
        rfl
  | difference target position ih => exact List.forall_mem_cons.2 ⟨rfl, ih⟩
  | character | identifier => exact List.forall_mem_singleton.2 rfl
  | absent => exact fun e member => absurd member List.not_mem_nil

theorem Expression.plain_elements (e : Expression) : ∀ x ∈ e.elements, x.isKeyword = false := by
  obtain ⟨head, tail, position⟩ := e
  cases tail with
  | none => exact head.plain_elements
  | some tail =>
      exact List.forall_mem_append.2 ⟨head.plain_elements,
        List.forall_mem_cons.2 ⟨rfl, tail.plain_elements⟩⟩

theorem DataValue.plain_listed (values : List DataValue) :
    ∀ x ∈ listed values, x.isKeyword = false := by
  have plain (value : DataValue) : ∀ x ∈ value.elements, x.isKeyword = false := by
    cases value with
    | word e => exact e.plain_elements
    | string | lengthMarker => exact List.forall_mem_singleton.2 rfl
  induction values with
  | nil => exact fun x member => absurd member List.not_mem_nil
  | cons value rest ih =>
      cases rest with
      | nil => exact plain value
      | cons next rest =>
          exact List.forall_mem_append.2 ⟨plain value,
            List.forall_mem_cons.2 ⟨rfl, List.forall_mem_cons.2 ⟨rfl, ih⟩⟩⟩

theorem StatementReader.characterValue_ofChar (c : Char) :
    characterValue (Text.ofChar c) = c.toNat := by
  obtain ⟨b, further, bytes, read⟩ := Text.exists_ofChar_eq_cons c
  have first := read []
  rw [List.append_nil] at first
  rw [bytes, characterValue, first]

section Spells

open Element (tokens)

variable {reader : StatementReader} {d : Dialect} {written : List Element}
  (signed : reader.signedNumbers = d.signedNumbers)

section Words

include signed

theorem Atom.Sayable.spells {a : Atom} (sayable : a.Sayable d) :
    reader.SpellsAtom (tokens a.elements) (a.mapPositions Position.forget) := by
  induction sayable with
  | @number value position fits allowed =>
      have decodes : Numeral.decode reader.numerals (Text.decimal value.natAbs) =
          .ok value.natAbs := Numeral.decode_decimal_le fits
      rw [Atom.elements, Atom.mapPositions]
      split
      · rename_i negative
        have spells : reader.SpellsAtom
            [⟨.minus, .nowhere, [0x2d]⟩, ⟨.literal, .nowhere, Text.decimal value.natAbs⟩]
            (.number (-(value.natAbs : Int)) .nowhere) :=
          .minus (signed.trans (allowed negative)) rfl rfl decodes
        rwa [show -(value.natAbs : Int) = value by omega] at spells
      · rename_i least
        have spells : reader.SpellsAtom [⟨.literal, .nowhere, Text.decimal value.natAbs⟩]
            (.number value.natAbs .nowhere) :=
          .number rfl decodes
        rwa [show (value.natAbs : Int) = value by omega] at spells
  | character c =>
      have spells : reader.SpellsAtom [⟨.character, .nowhere, Text.ofChar c⟩]
          (.character (StatementReader.characterValue (Text.ofChar c)) .nowhere) :=
        .character rfl
      have same : Char.ofNat (c.toNat : Int).toNat = c := Char.ofNat_toNat c
      rw [StatementReader.characterValue_ofChar] at spells
      simpa [Atom.elements, Atom.mapPositions, Position.forget, tokens, Element.shape?, same]
        using spells
  | identifier legal => exact .identifier rfl
  | @difference target position _ ih =>
      have spells : reader.SpellsAtom (⟨.tilde, .nowhere, [0x7e]⟩ :: tokens target.elements)
          (.difference (target.mapPositions Position.forget)
            (Position.nowhere.span (target.mapPositions Position.forget).position)) :=
        .difference rfl ih
      rwa [Atom.position_forget] at spells

theorem Expression.Sayable.spells {e : Expression} (sayable : e.Sayable d) :
    reader.SpellsWord (tokens e.elements) (e.mapPositions Position.forget) := by
  obtain ⟨head, tail, position⟩ := e
  have first := sayable.head.spells signed
  cases tail with
  | none =>
      have spells := StatementReader.SpellsWord.single first
      rwa [Atom.position_forget] at spells
  | some tail =>
      have second := (sayable.tail tail rfl).spells signed
      have spells := StatementReader.SpellsWord.pair (t := ⟨.tilde, .nowhere, [0x7e]⟩) first rfl
        second
      rw [Atom.position_forget, Atom.position_forget] at spells
      rw [Expression.elements, Element.tokens_append]
      exact spells

end Words

theorem Expression.Sayable.head_token {e : Expression} (sayable : e.Sayable d) :
    ∃ t rest, tokens e.elements = t :: rest ∧ t.kind ≠ .plus ∧
      (t.kind = .identifier → ∃ position, e.head = .identifier t.value position) := by
  obtain ⟨head, tail, position⟩ := e
  have front : ∃ t rest, tokens head.elements = t :: rest ∧ t.kind ≠ .plus ∧
      (t.kind = .identifier → ∃ position, head = .identifier t.value position) := by
    cases sayable.head with
    | @number value position fits allowed =>
        rw [Atom.elements]
        split
        · exact ⟨⟨.minus, .nowhere, _⟩, _, rfl, by simp, by simp⟩
        · exact ⟨⟨.literal, .nowhere, _⟩, _, rfl, by simp, by simp⟩
    | character c => exact ⟨⟨.character, .nowhere, _⟩, _, rfl, by simp, by simp⟩
    | identifier legal => exact ⟨⟨.identifier, .nowhere, _⟩, _, rfl, by simp, fun _ => ⟨_, rfl⟩⟩
    | difference _ => exact ⟨⟨.tilde, .nowhere, _⟩, _, rfl, by simp, by simp⟩
  obtain ⟨t, rest, first, other, named⟩ := front
  cases tail with
  | none => exact ⟨t, rest, first, other, named⟩
  | some tail =>
      refine ⟨t, rest ++ tokens (tilde :: tail.elements), ?_, other, named⟩
      rw [Expression.elements, Element.tokens_append, first, List.cons_append]

theorem Expression.Sayable.not_names {e : Expression} {words : List Text} (sayable : e.Sayable d)
    (free : e.HeadNot words) : ∀ t ∈ (tokens e.elements).head?, ∀ word ∈ words, ¬ t.Names word := by
  obtain ⟨t, rest, first, _, named⟩ := sayable.head_token
  rw [first]
  rintro _ ⟨⟩ word member names
  obtain ⟨position, head⟩ := named names.kind
  exact free t.value position head (names.lower ▸ member)

theorem Register.name_mem (r : Register) : r.name ∈ Register.all.map Register.name :=
  List.mem_map_of_mem (by cases r <;> decide)

theorem Expression.Sayable.not_reservedInside {e : Expression} (sayable : e.Sayable d)
    (free : e.HeadNot Layout.lookupWords) :
    ∀ t ∈ (tokens e.elements).head?, ¬ t.ReservedInside := by
  intro t first reserved
  rcases reserved with ⟨r, named⟩ | named
  · exact sayable.not_names free t first _ (.tail _ r.name_mem) named
  · exact sayable.not_names free t first _ (.head _) named

theorem Expression.Sayable.not_reserved {e : Expression} {layout : Layout} (sayable : e.Sayable d)
    (free : e.HeadNot layout.operandWords) :
    ∀ t ∈ (tokens e.elements).head?, ¬ t.Reserved layout := by
  intro t first reserved
  rcases reserved with ⟨r, named⟩ | ⟨r, named⟩ | ⟨word, member, named⟩
  · exact sayable.not_names free t first _
      (List.mem_append_left _ (List.mem_append_left _ r.name_mem)) named
  · have special : layout.specialName r ∈ SpecialRegister.all.map layout.specialName :=
      List.mem_map_of_mem (by cases r <;> decide)
    exact sayable.not_names free t first _
      (List.mem_append_left _ (List.mem_append_right _ special)) named
  · exact sayable.not_names free t first _ (List.mem_append_right _ member) named

theorem Text.IsKeyword.names {t word : Text} (keyword : word.IsKeyword)
    (same : t.SameLetters word) : (⟨.identifier, .nowhere, t⟩ : Token).Names word :=
  ⟨rfl, same.lower keyword⟩

theorem Expression.respelled_eq {e : Expression} {after : List Element}
    (respelled : List.Forall₂ Respelled (e.elements ++ after) written) :
    ∃ after', written = e.elements ++ after' ∧ List.Forall₂ Respelled after after' := by
  obtain ⟨first, second, rfl, left, right⟩ := Respelled.append respelled
  obtain rfl := Respelled.eq_of_plain e.plain_elements left
  exact ⟨second, rfl, right⟩

end Spells

end Dcpu
