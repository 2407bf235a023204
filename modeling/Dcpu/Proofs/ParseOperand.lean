import Dcpu.Proofs.LinePieces
import Dcpu.Statement.Parser

set_option autoImplicit false

namespace Dcpu

def Expression.IsNumber (value : Word) (e : Expression) : Prop :=
  ∃ position place, e = ⟨.number value.toNat position, none, place⟩

def DataValue.IsNumber (word : Word) (value : Option DataValue) : Prop :=
  ∃ e : Expression, e.IsNumber word ∧ value = some (.word e)

/-- The argument is the operand, written with the value of its tail if it has one. -/
inductive Argument.Shows (layout : Layout) (value : Word) : Operand → Argument → Prop
  | register (r : Register) (p : Position) : Shows layout value (.register r) (.register r.name p)
  | indirect (r : Register) (p q : Position) :
      Shows layout value (.indirect r) (.lookup (some ⟨r.name, p⟩) q)
  | indexed (r : Register) (p q : Position) {e : Expression} (number : e.IsNumber value) :
      Shows layout value (.indexed r) (.offsetLookup (some ⟨r.name, p⟩) .plus (some e) q)
  | push (p : Position) : Shows layout value .push (.stack .push none p)
  | pop (p : Position) : Shows layout value .pop (.stack .pop none p)
  | peek (p : Position) : Shows layout value .peek (.stack .peek none p)
  | pick (p : Position) {e : Expression} (number : e.IsNumber value) :
      Shows layout value .pick (.stack .pick (some e) p)
  | sp (p : Position) : Shows layout value .sp (.special (layout.specialName .sp) p)
  | pc (p : Position) : Shows layout value .pc (.special (layout.specialName .pc) p)
  | ex (p : Position) : Shows layout value .ex (.special (layout.specialName .ex) p)
  | direct (p : Position) {e : Expression} (number : e.IsNumber value) :
      Shows layout value .direct (.literalLookup (some e) p)
  | literal (p : Position) {e : Expression} (number : e.IsNumber value) :
      Shows layout value .literal (.literal (some e) p)
  | short (n : Word) (p : Position) {e : Expression} (number : e.IsNumber n) :
      Shows layout value (.short n) (.literal (some e) p)

theorem Token.map_shape_eq_cons {tokens : List Token} {kind : TokenKind} {value : Text}
    {shapes : List (TokenKind × Text)} (same : tokens.map shape = (kind, value) :: shapes) :
    ∃ position rest, tokens = ⟨kind, position, value⟩ :: rest ∧ rest.map shape = shapes := by
  obtain ⟨t, rest, rfl, first, others⟩ := List.map_eq_cons_iff.1 same
  obtain ⟨rfl, rfl⟩ := Prod.mk.inj first
  exact ⟨t.position, rest, rfl, others⟩

theorem Token.map_shape_eq_singleton {tokens : List Token} {kind : TokenKind} {value : Text}
    (same : tokens.map shape = [(kind, value)]) :
    ∃ position, tokens = [⟨kind, position, value⟩] := by
  obtain ⟨position, rest, rfl, nothing⟩ := map_shape_eq_cons same
  obtain rfl := List.map_eq_nil_iff.1 nothing
  exact ⟨position, rfl⟩

theorem Register.lower_name (r : Register) : r.name.lower = r.name := by
  cases r <;> exact Text.lower_eq_self (by decide) (by decide)

theorem Register.ofName?_name (r : Register) : ofName? r.name = some r := by
  rw [ofName?, lower_name]
  cases r <;> decide

namespace Layout

theorem lower_specialName (layout : Layout) (r : SpecialRegister) :
    (layout.specialName r).lower = layout.specialName r := by
  cases layout <;> cases r <;> exact Text.lower_eq_self (by decide) (by decide)

theorem special?_specialName (layout : Layout) (r : SpecialRegister) :
    layout.special? (layout.specialName r) = some r := by
  rw [special?, lower_specialName]
  cases layout <;> cases r <;> decide

theorem ofName?_specialName (layout : Layout) (r : SpecialRegister) :
    Register.ofName? (layout.specialName r) = none := by
  rw [Register.ofName?, lower_specialName]
  cases layout <;> cases r <;> decide

end Layout

namespace StatementReader

variable {reader : StatementReader} {value : Word} {rest tokens : List Token} {p : Position}

def Stops (tokens : List Token) : Prop := ∀ t ∈ tokens.head?, t.kind ≠ .tilde

theorem expression_numeral {written : Text}
    (read : Numeral.decode reader.numerals written = .ok value.toNat) (stops : Stops rest) :
    ∃ e : Expression, e.IsNumber value ∧
      reader.expression (⟨.literal, p, written⟩ :: rest) = .ok (e, rest) := by
  have number : reader.numeral ⟨.literal, p, written⟩ = .ok (value.toNat : Int) := by
    rw [numeral, read]
  have atom : reader.atom (⟨.literal, p, written⟩ :: rest) =
      .ok (.number value.toNat p, rest) := by
    simp [StatementReader.atom, number, bind, Except.bind, pure, Except.pure]
  refine ⟨⟨.number value.toNat p, none, p⟩, ⟨p, p, rfl⟩, ?_⟩
  simp only [expression, atom, bind, Except.bind]
  split
  · exact absurd rfl (stops _ rfl)
  · rfl

theorem expression_literal (reader : StatementReader) (value : Word) (p : Position)
    (stops : Stops rest) :
    ∃ e : Expression, e.IsNumber value ∧
      reader.expression (⟨.literal, p, Listing.literal value⟩ :: rest) = .ok (e, rest) :=
  expression_numeral (Listing.decode_literal _ value) stops

theorem argument_register (r : Register) :
    reader.argument (⟨.identifier, p, r.name⟩ :: rest) = .ok (.register r.name p, rest) := by
  simp [argument, namedArgument, r.lower_name, r.ofName?_name]

theorem argument_special (r : SpecialRegister) :
    reader.argument (⟨.identifier, p, reader.layout.specialName r⟩ :: rest) =
      .ok (.special (reader.layout.specialName r) p, rest) := by
  simp [argument, namedArgument, reader.layout.lower_specialName, reader.layout.ofName?_specialName,
    reader.layout.special?_specialName]

theorem stack_words (layout : Layout) (word : Text)
    (listed : word ∈ ([("push" : Text), "pop", "peek", "pick"] : List Text)) :
    word.lower = word ∧ Register.ofName? word = none ∧ layout.special? word = none := by
  have all : ∀ word ∈ ([("push" : Text), "pop", "peek", "pick"] : List Text),
      (word.Ascii ∧ word.map Text.lowerByte = word) ∧
        (Register.all.find? fun r => r.name == word) = none ∧
        (SpecialRegister.all.find? fun r => layout.specialName r == word) = none := by
    cases layout <;> decide
  obtain ⟨⟨ascii, lower⟩, register, special⟩ := all word listed
  have lowered := Text.lower_eq_self ascii lower
  refine ⟨lowered, ?_, ?_⟩
  · rw [Register.ofName?, lowered, register]
  · rw [Layout.special?, lowered, special]

theorem argument_push :
    reader.argument (⟨.identifier, p, "push"⟩ :: rest) = .ok (.stack .push none p, rest) := by
  obtain ⟨lowered, register, special⟩ := stack_words reader.layout "push" (by decide)
  simp [argument, namedArgument, lowered, register, special]

theorem argument_pop :
    reader.argument (⟨.identifier, p, "pop"⟩ :: rest) = .ok (.stack .pop none p, rest) := by
  obtain ⟨lowered, register, special⟩ := stack_words reader.layout "pop" (by decide)
  have other : ("pop" : Text) ≠ "push" := by decide
  simp [argument, namedArgument, lowered, register, special, other]

theorem argument_peek :
    reader.argument (⟨.identifier, p, "peek"⟩ :: rest) = .ok (.stack .peek none p, rest) := by
  obtain ⟨lowered, register, special⟩ := stack_words reader.layout "peek" (by decide)
  have others : ("peek" : Text) ≠ "push" ∧ ("peek" : Text) ≠ "pop" := by decide
  simp [argument, namedArgument, lowered, register, special, others]

theorem argument_pick (stops : Stops rest) {q : Position} :
    ∃ (e : Expression) (place : Position), e.IsNumber value ∧
      reader.argument (⟨.identifier, p, "pick"⟩ :: ⟨.literal, q, Listing.literal value⟩ :: rest) =
        .ok (.stack .pick (some e) place, rest) := by
  obtain ⟨lowered, register, special⟩ := stack_words reader.layout "pick" (by decide)
  have others : ("pick" : Text) ≠ "push" ∧ ("pick" : Text) ≠ "pop" ∧ ("pick" : Text) ≠ "peek" := by
    decide
  obtain ⟨e, number, read⟩ := expression_literal reader value q stops
  refine ⟨e, p.span e.position, number, ?_⟩
  simp [argument, namedArgument, lowered, register, special, others, read, bind, Except.bind, pure,
    Except.pure]

theorem registerName?_name (r : Register) :
    registerName? ⟨.identifier, p, r.name⟩ = some ⟨r.name, p⟩ := by
  simp [registerName?, r.ofName?_name, r.lower_name]

theorem lookup_register (r : Register) {opening : Position} :
    reader.lookup opening (⟨.identifier, p, r.name⟩ :: rest) =
      reader.registerLookup opening ⟨r.name, p⟩ rest := by
  -- In brackets, `sp` is looked for before any register.
  have other : r.name ≠ "sp" := by cases r <;> decide
  have keyword : keyword ⟨.identifier, p, r.name⟩ "sp" = false := by
    simp [StatementReader.keyword, r.lower_name, other]
  simp [lookup, afterDecrement?, keyword, registerName?_name]

theorem lookup_numeral {opening : Position} {written : Text} :
    reader.lookup opening (⟨.literal, p, written⟩ :: rest) =
      reader.literalLookup opening (⟨.literal, p, written⟩ :: rest) := by
  have keyword : keyword ⟨.literal, p, written⟩ "sp" = false := rfl
  have named : registerName? ⟨.literal, p, written⟩ = none := rfl
  simp [lookup, afterDecrement?, keyword, named]

theorem lookup_direct {opening q : Position} {bracket : Text} :
    ∃ (e : Expression) (place : Position), e.IsNumber value ∧
      reader.lookup opening
          (⟨.literal, p, Listing.literal value⟩ :: ⟨.rightBracket, q, bracket⟩ :: rest) =
        .ok (.literalLookup (some e) place, rest) := by
  have stops : Stops (⟨.rightBracket, q, bracket⟩ :: rest) := by simp [Stops]
  obtain ⟨e, number, read⟩ := expression_literal reader value p stops
  refine ⟨e, opening.span q, number, ?_⟩
  rw [lookup_numeral]
  simp [literalLookup, read, expect, bind, Except.bind, pure, Except.pure]

theorem lookup_indexed (r : Register) {opening q place bracket : Position}
    {plus : Text} :
    ∃ (e : Expression) (span : Position), e.IsNumber value ∧
      reader.lookup opening (⟨.literal, p, Listing.literal value⟩ :: ⟨.plus, q, plus⟩ ::
          ⟨.identifier, place, r.name⟩ :: ⟨.rightBracket, bracket, [0x5d]⟩ :: rest) =
        .ok (.offsetLookup (some ⟨r.name, place⟩) .plus (some e) span, rest) := by
  have stops : Stops (⟨.plus, q, plus⟩ :: ⟨.identifier, place, r.name⟩ ::
      ⟨.rightBracket, bracket, [0x5d]⟩ :: rest) := by simp [Stops]
  obtain ⟨e, number, read⟩ := expression_literal reader value p stops
  refine ⟨e, opening.span bracket, number, ?_⟩
  rw [lookup_numeral]
  simp [literalLookup, read, expect, registerName?_name, bind, Except.bind, pure, Except.pure]

theorem argument_operand (operand : Operand) (stops : Stops rest)
    (shapes : tokens.map Token.shape =
      (Listing.operandPieces reader.layout value operand).filterMap Piece.shape?) :
    ∃ argument, argument.Shows reader.layout value operand ∧
      reader.argument (tokens ++ rest) = .ok (argument, rest) := by
  -- The shapes of an operand say which tokens there are, and leave their places open.
  cases operand with
  | register r =>
      obtain ⟨p, rfl⟩ := Token.map_shape_eq_singleton shapes
      exact ⟨_, .register r p, argument_register r⟩
  | indirect r =>
      obtain ⟨opening, inner, rfl, inside⟩ := Token.map_shape_eq_cons shapes
      obtain ⟨p, closing, rfl, closed⟩ := Token.map_shape_eq_cons inside
      obtain ⟨q, rfl⟩ := Token.map_shape_eq_singleton closed
      exact ⟨_, .indirect r p _, lookup_register r⟩
  | indexed r =>
      obtain ⟨opening, inner, rfl, inside⟩ := Token.map_shape_eq_cons shapes
      obtain ⟨p, sign, rfl, signed⟩ := Token.map_shape_eq_cons inside
      obtain ⟨plus, named, rfl, register⟩ := Token.map_shape_eq_cons signed
      obtain ⟨place, closing, rfl, closed⟩ := Token.map_shape_eq_cons register
      obtain ⟨q, rfl⟩ := Token.map_shape_eq_singleton closed
      obtain ⟨e, span, number, read⟩ := lookup_indexed r
      exact ⟨_, .indexed r place span number, read⟩
  | push =>
      obtain ⟨p, rfl⟩ := Token.map_shape_eq_singleton shapes
      exact ⟨_, .push p, argument_push⟩
  | pop =>
      obtain ⟨p, rfl⟩ := Token.map_shape_eq_singleton shapes
      exact ⟨_, .pop p, argument_pop⟩
  | peek =>
      obtain ⟨p, rfl⟩ := Token.map_shape_eq_singleton shapes
      exact ⟨_, .peek p, argument_peek⟩
  | pick =>
      obtain ⟨p, offset, rfl, counted⟩ := Token.map_shape_eq_cons shapes
      obtain ⟨q, rfl⟩ := Token.map_shape_eq_singleton counted
      obtain ⟨e, place, number, read⟩ := argument_pick stops
      exact ⟨_, .pick place number, read⟩
  | sp =>
      obtain ⟨p, rfl⟩ := Token.map_shape_eq_singleton shapes
      exact ⟨_, .sp p, argument_special .sp⟩
  | pc =>
      obtain ⟨p, rfl⟩ := Token.map_shape_eq_singleton shapes
      exact ⟨_, .pc p, argument_special .pc⟩
  | ex =>
      obtain ⟨p, rfl⟩ := Token.map_shape_eq_singleton shapes
      exact ⟨_, .ex p, argument_special .ex⟩
  | direct =>
      obtain ⟨opening, inner, rfl, inside⟩ := Token.map_shape_eq_cons shapes
      obtain ⟨p, closing, rfl, closed⟩ := Token.map_shape_eq_cons inside
      obtain ⟨q, rfl⟩ := Token.map_shape_eq_singleton closed
      obtain ⟨e, place, number, read⟩ := lookup_direct
      exact ⟨_, .direct place number, read⟩
  | literal =>
      obtain ⟨p, rfl⟩ := Token.map_shape_eq_singleton shapes
      obtain ⟨e, number, read⟩ := expression_literal reader value p stops
      refine ⟨_, .literal e.position number, ?_⟩
      simp [argument, literalArgument, read, bind, Except.bind, pure, Except.pure]
  | short n =>
      obtain ⟨p, rfl⟩ := Token.map_shape_eq_singleton shapes
      obtain ⟨e, number, read⟩ := expression_literal reader n p stops
      refine ⟨_, .short n e.position number, ?_⟩
      simp [argument, literalArgument, read, bind, Except.bind, pure, Except.pure]

end StatementReader

end Dcpu
