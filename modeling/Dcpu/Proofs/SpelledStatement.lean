import Dcpu.Proofs.SpelledWords

set_option autoImplicit false

namespace Dcpu

open Element (bracketed comma minus plus tokens Respelled)

section Spells

variable {reader : StatementReader} {d : Dialect} {written : List Element}
  (signed : reader.signedNumbers = d.signedNumbers)

theorem StatementReader.SpellsArgument.bracketed {inner : List Element}
    {make : Position → Argument} (spells : reader.SpellsLookup (tokens inner) make) :
    reader.SpellsArgument (tokens (bracketed inner)) (make .nowhere) := by
  have whole : reader.SpellsArgument
      (⟨.leftBracket, .nowhere, [0x5b]⟩ :: (tokens inner ++ [⟨.rightBracket, .nowhere, [0x5d]⟩]))
      (make (Position.nowhere.span .nowhere)) :=
    .lookup rfl spells rfl
  have same : tokens (Element.bracketed inner) =
      ⟨.leftBracket, .nowhere, [0x5b]⟩ :: (tokens inner ++ [⟨.rightBracket, .nowhere, [0x5d]⟩]) := by
    change _ :: tokens (inner ++ _) = _
    rw [Element.tokens_append]
    rfl
  rw [same]
  exact whole

section Operands

include signed

theorem Argument.Sayable.spells_lookup {sign : OffsetSign} {named : RegisterName}
    {offset : Expression} (r : Register) (same : named.name.SameLetters r.name)
    (signs : sign = .plus ∨ sign = .minus) (sayable : offset.Sayable d)
    (respelled : List.Forall₂ Respelled
      (.keyword named.name :: (if sign = .minus then minus else plus) :: offset.elements) written) :
    reader.SpellsLookup (tokens written) (.offsetLookup (some ⟨r.name, .nowhere⟩) sign
      (some (offset.mapPositions Position.forget))) := by
  obtain ⟨word, _, rfl, letters, others⟩ := Respelled.cons_keyword respelled
  have name := same.names r.isKeyword_name letters
  have spells := sayable.spells signed
  rcases signs with rfl | rfl
  · rw [if_neg (by decide)] at others
    obtain ⟨_, rfl, offsets⟩ := Respelled.cons_plain rfl others
    obtain rfl := Respelled.eq_of_plain offset.plain_elements offsets
    exact .plus r name rfl spells
  · rw [if_pos rfl] at others
    obtain ⟨_, rfl, offsets⟩ := Respelled.cons_plain rfl others
    obtain rfl := Respelled.eq_of_plain offset.plain_elements offsets
    exact .minus r name rfl spells

theorem Argument.Sayable.spells {other : Bool} {x : Argument}
    (sayable : x.Sayable d reader.layout other)
    (respelled : List.Forall₂ Respelled (x.elements other) written) :
    reader.SpellsArgument (tokens written) (x.lowered.mapPositions Position.forget) := by
  have sp : Text.IsKeyword "sp" := by decide
  cases sayable with
  | @register other name position r named =>
      obtain ⟨word, _, rfl, same, none⟩ := Respelled.cons_keyword respelled
      cases none
      rw [Argument.lowered, named.lower r.isKeyword_name]
      exact .register r (named.names r.isKeyword_name same)
  | @special other name position r named =>
      obtain ⟨word, _, rfl, same, none⟩ := Respelled.cons_keyword respelled
      cases none
      have keyword := reader.layout.isKeyword_specialName r
      rw [Argument.lowered, named.lower keyword]
      exact .special r (named.names keyword same)
  | @lookup other named position r same =>
      obtain ⟨_, rfl, inside⟩ := Respelled.bracketed respelled
      obtain ⟨word, _, rfl, letters, none⟩ := Respelled.cons_keyword inside
      cases none
      rw [Argument.lowered, Option.map_some, RegisterName.lowered, same.lower r.isKeyword_name]
      exact .bracketed (.register r (same.names r.isKeyword_name letters))
  | @offsetLookup named sign offset position r same signs sayable =>
      obtain ⟨_, rfl, inside⟩ := Respelled.bracketed respelled
      rw [Argument.lowered, Option.map_some, RegisterName.lowered, same.lower r.isKeyword_name]
      exact .bracketed (Argument.Sayable.spells_lookup signed r same signs sayable inside)
  | @offsetFirst named offset position r same sayable free =>
      obtain ⟨_, rfl, inside⟩ := Respelled.bracketed respelled
      obtain ⟨_, rfl, others⟩ := Expression.respelled_eq inside
      obtain ⟨_, rfl, last⟩ := Respelled.cons_plain rfl others
      obtain ⟨word, _, rfl, letters, none⟩ := Respelled.cons_keyword last
      cases none
      rw [Argument.lowered, Option.map_some, RegisterName.lowered, same.lower r.isKeyword_name]
      refine .bracketed ?_
      rw [Element.tokens_append]
      exact .wordPlus r (sayable.spells signed) (sayable.not_reservedInside free) rfl
        (same.names r.isKeyword_name letters)
  | push =>
      cases other with
      | false =>
          obtain ⟨word, _, rfl, letters, none⟩ := Respelled.cons_keyword respelled
          cases none
          exact .push (Text.IsKeyword.names (by decide) letters)
      | true =>
          obtain ⟨_, rfl, inside⟩ := Respelled.bracketed respelled
          obtain ⟨_, rfl, behind⟩ := Respelled.cons_plain rfl inside
          obtain ⟨_, rfl, last⟩ := Respelled.cons_plain rfl behind
          obtain ⟨word, _, rfl, letters, none⟩ := Respelled.cons_keyword last
          cases none
          exact .bracketed (.decrement rfl rfl (sp.names letters))
  | pop =>
      cases other with
      | false =>
          obtain ⟨word, _, rfl, letters, none⟩ := Respelled.cons_keyword respelled
          cases none
          exact .pop (Text.IsKeyword.names (by decide) letters)
      | true =>
          obtain ⟨_, rfl, inside⟩ := Respelled.bracketed respelled
          obtain ⟨word, _, rfl, letters, signs⟩ := Respelled.cons_keyword inside
          obtain ⟨_, rfl, last⟩ := Respelled.cons_plain rfl signs
          obtain ⟨_, rfl, none⟩ := Respelled.cons_plain rfl last
          cases none
          exact .bracketed (.increment (sp.names letters) rfl rfl)
  | peek =>
      cases other with
      | false =>
          obtain ⟨word, _, rfl, letters, none⟩ := Respelled.cons_keyword respelled
          cases none
          exact .peek (Text.IsKeyword.names (by decide) letters)
      | true =>
          obtain ⟨_, rfl, inside⟩ := Respelled.bracketed respelled
          obtain ⟨word, _, rfl, letters, none⟩ := Respelled.cons_keyword inside
          cases none
          exact .bracketed (.peek (sp.names letters))
  | @pick other offset position sayable =>
      cases other with
      | false =>
          obtain ⟨word, _, rfl, letters, others⟩ := Respelled.cons_keyword respelled
          obtain ⟨_, rfl, offsets⟩ := Respelled.cons_plain rfl others
          obtain rfl := Respelled.eq_of_plain offset.plain_elements offsets
          exact .pick (Text.IsKeyword.names (by decide) letters) (sayable.spells signed)
      | true =>
          obtain ⟨_, rfl, inside⟩ := Respelled.bracketed respelled
          obtain ⟨word, _, rfl, letters, others⟩ := Respelled.cons_keyword inside
          obtain ⟨_, rfl, offsets⟩ := Respelled.cons_plain rfl others
          obtain rfl := Respelled.eq_of_plain offset.plain_elements offsets
          -- A number is written without a plus sign, so the sign behind `sp` stands alone.
          have single : ∀ t ∈ (tokens offset.elements).head?, t.kind ≠ .plus := by
            obtain ⟨t, rest, first, other, _⟩ := sayable.head_token
            rw [first]
            rintro _ ⟨⟩
            exact other
          exact .bracketed (.pick (sp.names letters) rfl (sayable.spells signed) single)
  | @literal other value position sayable free =>
      obtain rfl := Respelled.eq_of_plain value.plain_elements respelled
      exact .word (sayable.spells signed) (sayable.not_reserved free)
  | @literalLookup other value position sayable free =>
      obtain ⟨_, rfl, inside⟩ := Respelled.bracketed respelled
      obtain rfl := Respelled.eq_of_plain value.plain_elements inside
      exact .bracketed (.word (sayable.spells signed) (sayable.not_reservedInside free))

theorem DataValue.Sayable.spells {value : DataValue} (sayable : value.Sayable d) :
    reader.SpellsValue (tokens value.elements) (value.mapPositions Position.forget) := by
  cases sayable with
  | string => exact .string rfl
  | lengthMarker => exact .lengthMarker rfl
  | word sayable => exact .word (sayable.spells signed)

theorem DataValue.spells_listed {values : List DataValue} (listed : values ≠ [])
    (sayable : ∀ value ∈ values, value.Sayable d) :
    ∃ last : DataValue, reader.SpellsValues (tokens (DataValue.listed values))
      (values.map (DataValue.mapPositions Position.forget)) (last.mapPositions Position.forget) := by
  induction values with
  | nil => exact absurd rfl listed
  | cons value rest ih =>
      have first := (sayable value (.head _)).spells signed
      cases rest with
      | nil => exact ⟨value, .last first⟩
      | cons next rest =>
          obtain ⟨last, others⟩ := ih (by simp) fun value member => sayable value (.tail _ member)
          refine ⟨last, ?_⟩
          rw [DataValue.listed, Element.tokens_append]
          exact .more first rfl others

theorem Body.Sayable.spells {forms : Forms} {body : Body}
    (sayable : body.Sayable d reader.layout forms)
    (respelled : List.Forall₂ Respelled (body.elements forms) written) :
    reader.SpellsBody (tokens written) (body.lowered.mapPositions Position.forget) := by
  cases sayable with
  | @addressFix value position sayable =>
      obtain ⟨_, rfl, others⟩ := Respelled.cons_plain rfl respelled
      obtain ⟨_, rfl, words⟩ := Respelled.cons_plain rfl others
      obtain rfl := Respelled.eq_of_plain value.plain_elements words
      exact .addressFix rfl (sayable.spells signed)
  | @basic opcode a b position op known named first second =>
      obtain ⟨word, _, rfl, letters, others⟩ := Respelled.cons_keyword respelled
      obtain ⟨_, rfl, operands⟩ := Respelled.cons_plain rfl others
      obtain ⟨before, _, rfl, left, behind⟩ := Respelled.append operands
      obtain ⟨_, rfl, apart⟩ := Respelled.cons_plain rfl behind
      obtain ⟨after, rfl, right⟩ := Respelled.cons_plain rfl apart
      rw [Body.lowered, named.lower op.isKeyword_mnemonic]
      have spells : reader.SpellsBody
          (⟨.identifier, .nowhere, word⟩ ::
            (tokens before ++ ⟨.comma, .nowhere, [0x2c]⟩ :: tokens after))
          (.basic op.mnemonic (some (a.lowered.mapPositions Position.forget))
            (some (b.lowered.mapPositions Position.forget)) .nowhere) :=
        .basic (named.names op.isKeyword_mnemonic letters) known (first.spells signed left) rfl
          (second.spells signed right)
      have same : tokens (.keyword word :: .blank :: (before ++ comma :: .blank :: after)) =
          ⟨.identifier, .nowhere, word⟩ ::
            (tokens before ++ ⟨.comma, .nowhere, [0x2c]⟩ :: tokens after) := by
        change _ :: tokens (before ++ _) = _
        rw [Element.tokens_append]
        rfl
      rw [same]
      exact spells
  | @extended opcode argument position op known named sayable =>
      obtain ⟨word, _, rfl, letters, others⟩ := Respelled.cons_keyword respelled
      obtain ⟨_, rfl, operand⟩ := Respelled.cons_plain rfl others
      have spells := sayable.spells signed operand
      rw [Body.lowered, named.lower op.isKeyword_mnemonic]
      exact .extended (named.names op.isKeyword_mnemonic letters) known spells
  | @data values position listed sayable =>
      rw [Body.elements, List.filterMap_map, Function.id_comp, List.filterMap_some] at respelled
      obtain ⟨word, _, rfl, letters, others⟩ := Respelled.cons_keyword respelled
      obtain ⟨_, rfl, values_eq⟩ := Respelled.cons_plain rfl others
      obtain rfl := Respelled.eq_of_plain (DataValue.plain_listed values) values_eq
      obtain ⟨last, spells⟩ := DataValue.spells_listed signed listed sayable
      have whole := StatementReader.SpellsBody.data
        (t := ⟨.identifier, .nowhere, word⟩) (Text.IsKeyword.names (by decide) letters) spells
      have same : (values.map some).map (Option.map (DataValue.mapPositions Position.forget)) =
          (values.map (DataValue.mapPositions Position.forget)).map some := by
        simp
      rw [DataValue.position_forget, ← same] at whole
      exact whole

theorem Statement.Sayable.spells {forms : Forms} {s : Statement}
    (sayable : s.Sayable d reader.layout forms) (nowhere : reader.lineEnd = .nowhere)
    (respelled : List.Forall₂ Respelled (s.elements forms) written) :
    reader.SpellsStatement (tokens written) (s.lowered.mapPositions Position.forget) := by
  obtain ⟨label, body, position⟩ := s
  obtain ⟨_, bodies, some⟩ := sayable
  have labels (name : Text) : StatementReader.SpellsLabel
      [⟨.colon, .nowhere, [0x3a]⟩, ⟨.identifier, .nowhere, name⟩] (.some ⟨name, .nowhere⟩) :=
    .some rfl rfl
  cases label with
  | none =>
      cases body with
      | none => simp at some
      | some body =>
          have spells := (bodies body rfl).spells signed respelled
          have whole := StatementReader.SpellsStatement.intro .none (.some spells)
          have start : reader.startPosition (tokens written) = .nowhere := by
            rw [tokens]
            cases written.filterMap Element.shape? with
            | nil => exact nowhere
            | cons shape rest => rfl
          rw [List.nil_append, start] at whole
          exact whole
  | some label =>
      cases body with
      | none =>
          obtain ⟨_, rfl, named⟩ := Respelled.cons_plain rfl respelled
          obtain ⟨_, rfl, none⟩ := Respelled.cons_plain rfl named
          cases none
          exact StatementReader.SpellsStatement.intro (labels label.name) .none
      | some body =>
          obtain ⟨_, rfl, named⟩ := Respelled.cons_plain rfl respelled
          obtain ⟨_, rfl, behind⟩ := Respelled.cons_plain rfl named
          obtain ⟨rest, rfl, others⟩ := Respelled.cons_plain rfl behind
          have spells := (bodies body rfl).spells signed others
          exact StatementReader.SpellsStatement.intro (labels label.name) (.some spells)

end Operands

end Spells

end Dcpu
