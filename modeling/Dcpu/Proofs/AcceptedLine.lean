import Dcpu.Proofs.AcceptedTokens
import Dcpu.Proofs.ExtendedDialect

set_option autoImplicit false

namespace Dcpu

namespace StatementReader

variable {reader : StatementReader} {front rest : List Token}

theorem SpellsValues.read {values : List DataValue} {last : DataValue}
    (spells : reader.SpellsValues front values last) (name : Token)
    (found : List (Option DataValue)) :
    reader.dataAfter name found front =
      .ok (.data (found.reverse ++ values.map some) (name.position.span last.position), []) := by
  induction spells generalizing found with
  | last spells =>
      have read : reader.dataValue (_ ++ []) = .ok (_, []) := spells.read rfl
      rw [List.append_nil] at read
      rw [dataAfter_last read]
      simp
  | more spells comma _ ih =>
      rw [dataAfter_more (spells.read (valueEnds_of_comma comma)) comma, ih]
      simp

theorem SpellsValue.ne_nil {value : DataValue} (spells : reader.SpellsValue front value) :
    front ≠ [] := by
  rintro rfl
  cases spells with
  | word spells =>
      obtain ⟨_, _, nothing, _⟩ := spells.head
      cases nothing

theorem SpellsValues.ne_nil {values : List DataValue} {last : DataValue}
    (spells : reader.SpellsValues front values last) : front ≠ [] := by
  cases spells with
  | last spells => exact spells.ne_nil
  | more _ _ _ => simp

theorem SpellsArgument.ne_nil {x : Argument} (spells : reader.SpellsArgument front x) :
    front ≠ [] := by
  rintro rfl
  cases spells with
  | word spells _ =>
      obtain ⟨_, _, nothing, _⟩ := spells.head
      cases nothing

theorem SpellsArguments.read {xs : List Argument} (spells : reader.SpellsArguments front xs)
    (found : List Argument) :
    reader.argumentsAfter found front = .ok (found.reverse ++ xs) := by
  induction spells generalizing found with
  | nil =>
      rw [argumentsAfter.eq_def, List.append_nil]
  | last spells =>
      have read := spells.read stops_nil
      rw [List.append_nil] at read
      rw [argumentsAfter_last spells.ne_nil read, List.reverse_cons]
  | more spells comma _ ih =>
      rw [argumentsAfter_more (by simp) (spells.read (stops_of_comma comma)) comma, ih]
      simp

theorem namedBody_basic {t : Token} {tokens : List Token} {op : BasicOp} {a b : Argument}
    (named : t.Names op.mnemonic) (known : op ∈ reader.layout.basicTable.map (·.1))
    (spells : reader.SpellsArguments tokens [a, b]) :
    reader.namedBody t tokens = .ok (.basic op.mnemonic (some a) (some b) t.position, []) := by
  have other : op.mnemonic ≠ "dat" := by cases op <;> decide
  have found := (reader.layout.isSome_basicOpcode?_iff op.mnemonic).2
    ⟨op, known, Layout.lower_mnemonic op⟩
  simp [namedBody, named.lower, other, found, arguments, spells.read, bind, Except.bind, pure,
    Except.pure]

theorem namedBody_extended {t : Token} {tokens : List Token} {op : ExtendedOp} {x : Argument}
    (named : t.Names op.mnemonic) (known : op ∈ reader.layout.extendedTable.map (·.1))
    (spells : reader.SpellsArguments tokens [x]) :
    reader.namedBody t tokens = .ok (.extended op.mnemonic (some x) t.position, []) := by
  have other : op.mnemonic ≠ "dat" := by cases op <;> decide
  have found := (reader.layout.isSome_extendedOpcode?_iff op.mnemonic).2
    ⟨op, known, Layout.lower_extendedMnemonic op⟩
  simp [namedBody, named.lower, other, Layout.basicOpcode?_extendedMnemonic, found, arguments,
    spells.read, bind, Except.bind, pure, Except.pure]

theorem body_of_names {t : Token} {tokens : List Token} (name : t.kind = .identifier) :
    reader.body (t :: tokens) = reader.namedBody t tokens := by
  obtain ⟨kind, p, v⟩ := t
  obtain rfl : kind = .identifier := name
  rfl

theorem SpellsBody.read {body : Body} (spells : reader.SpellsBody front body) :
    reader.body front = .ok (body, []) := by
  cases spells with
  | @addressFix t tokens value atSign spells =>
      obtain ⟨kind, p, v⟩ := t
      obtain rfl : kind = .atSign := atSign
      have read := spells.read stops_nil
      rw [List.append_nil] at read
      simp only [StatementReader.body, read, bind, Except.bind, pure, Except.pure]
  | @data t tokens values last named spells =>
      have some : tokens.isEmpty = false := List.isEmpty_eq_false_iff.2 spells.ne_nil
      simp only [body_of_names named.kind, namedBody, named.lower, if_true, StatementReader.data,
        some, Bool.false_eq_true, if_false, spells.read t []]
      rfl
  | basic named known spellsA comma spellsB =>
      rw [body_of_names named.kind]
      exact namedBody_basic named known (.more spellsA comma (.last spellsB))
  | extended named known spells =>
      rw [body_of_names named.kind]
      exact namedBody_extended named known (.last spells)

theorem SpellsBodyComma.read {body : Body} (spells : reader.SpellsBodyComma front body) :
    reader.body front = .ok (body, []) := by
  cases spells with
  | plain spells => exact spells.read
  | @comma tokens _ t spells operation comma =>
      cases spells with
      | addressFix _ _ => cases operation
      | data _ _ => cases operation
      | basic named known spellsA comma' spellsB =>
          rw [List.cons_append, body_of_names named.kind, List.append_assoc]
          exact namedBody_basic named known (.more spellsA comma' (.more spellsB comma .nil))
      | extended named known spells =>
          rw [List.cons_append, body_of_names named.kind]
          exact namedBody_extended named known (.more spells comma .nil)

theorem SpellsBody.starts {body : Body} (spells : reader.SpellsBody front body) :
    ∀ t ∈ front.head?, t.kind ≠ .colon := by
  cases spells with
  | addressFix atSign _ => simp [atSign]
  | data named _ => simp [named.kind]
  | basic named _ _ _ _ => simp [named.kind]
  | extended named _ _ => simp [named.kind]

theorem SpellsLabel.read {label : Option LabelDefinition} (labels : SpellsLabel front label)
    (free : ∀ t ∈ rest.head?, t.kind ≠ .colon) :
    reader.label? (front ++ rest) = .ok (label, rest) := by
  cases labels with
  | none =>
      cases rest with
      | nil => rfl
      | cons t rest =>
          obtain ⟨kind, p, v⟩ := t
          cases kind with
          | colon => exact absurd rfl (free _ rfl)
          | _ => rfl
  | @some t name colon named =>
      obtain ⟨kind, p, v⟩ := t
      obtain rfl : kind = .colon := colon
      have expected := reader.expect_of_kind rest (List.mem_singleton.2 named)
      simp only [List.cons_append, List.nil_append, label?, expected, bind, Except.bind, pure,
        Except.pure]

theorem statement_of_body {tokens : List Token} {label : Option LabelDefinition} {body : Body}
    (labels : SpellsLabel front label) (some : tokens ≠ [])
    (free : ∀ t ∈ tokens.head?, t.kind ≠ .colon) (read : reader.body tokens = .ok (body, [])) :
    reader.statement (front ++ tokens) =
      .ok ⟨label, body, reader.startPosition (front ++ tokens)⟩ := by
  have more : tokens.isEmpty = false := List.isEmpty_eq_false_iff.2 some
  simp only [statement, labels.read free, more, Bool.false_eq_true, if_false, read, bind,
    Except.bind, pure, Except.pure]

theorem SpellsStatement.read {s : Statement} (spells : reader.SpellsStatement front s) :
    reader.statement front = .ok s := by
  obtain ⟨labels, bodies⟩ := spells
  cases bodies with
  | none =>
      have read : reader.label? (_ ++ []) = .ok (_, []) := labels.read (by simp)
      simp only [statement, read, List.isEmpty_nil, if_true, bind, Except.bind, pure, Except.pure]
  | some spells => exact statement_of_body labels spells.ne_nil spells.starts spells.read

theorem SpellsStatementComma.read {s : Statement} (spells : reader.SpellsStatementComma front s) :
    reader.statement front = .ok s := by
  cases spells with
  | plain spells => exact spells.read
  | @comma tokens _ t spells operation comma =>
      obtain @⟨first, second, label, body, labels, bodies⟩ := spells
      cases bodies with
      | none => cases operation
      | @some _ body spells =>
          have behind : reader.SpellsBodyComma (second ++ [t]) body := .comma spells operation comma
          have starts := spells.starts
          obtain ⟨u, rest, rfl⟩ := List.exists_cons_of_ne_nil spells.ne_nil
          have read : reader.statement (first ++ (u :: rest ++ [t])) = _ :=
            statement_of_body labels (by simp) (by simpa using starts) behind.read
          rw [List.append_assoc, read]
          cases first <;> rfl

def EndsWhole (tokens : List Token) : Prop := ∃ front t, tokens = front ++ [t] ∧ t.kind ≠ .comma

namespace EndsWhole

variable {tokens : List Token}

theorem one {t : Token} (other : t.kind ≠ .comma) : EndsWhole [t] := ⟨[], t, rfl, other⟩

theorem behind (first : List Token) (ends : EndsWhole tokens) : EndsWhole (first ++ tokens) := by
  obtain ⟨front, t, rfl, other⟩ := ends
  exact ⟨first ++ front, t, (List.append_assoc _ _ _).symm, other⟩

theorem cons (t : Token) (ends : EndsWhole tokens) : EndsWhole (t :: tokens) := ends.behind [t]

theorem not_comma {t : Token} (comma : t.kind = .comma) : ¬ EndsWhole (tokens ++ [t]) := by
  rintro ⟨front, u, same, other⟩
  obtain rfl := (List.cons.inj (List.append_inj_right' same rfl)).1
  exact other comma

end EndsWhole

theorem SpellsAtom.endsWhole {a : Atom} (spells : reader.SpellsAtom front a) : EndsWhole front := by
  induction spells with
  | difference _ _ ih => exact ih.cons _
  | plus _ _ numeral _ => exact (EndsWhole.one (by simp [numeral])).cons _
  | minus _ _ numeral _ => exact (EndsWhole.one (by simp [numeral])).cons _
  | number numeral _ => exact .one (by simp [numeral])
  | character character => exact .one (by simp [character])
  | identifier name => exact .one (by simp [name])

theorem SpellsWord.endsWhole {e : Expression} (spells : reader.SpellsWord front e) :
    EndsWhole front := by
  cases spells with
  | single spells => exact spells.endsWhole
  | pair _ _ target => exact (target.endsWhole.cons _).behind _

theorem SpellsArgument.endsWhole {x : Argument} (spells : reader.SpellsArgument front x) :
    EndsWhole front := by
  cases spells with
  | register _ named => exact .one (by simp [named.kind])
  | special _ named => exact .one (by simp [named.kind])
  | push named => exact .one (by simp [named.kind])
  | pop named => exact .one (by simp [named.kind])
  | peek named => exact .one (by simp [named.kind])
  | pick _ spells => exact spells.endsWhole.cons _
  | lookup _ _ closes => exact ((EndsWhole.one (by simp [closes])).behind _).cons _
  | word spells _ => exact spells.endsWhole

theorem SpellsValues.endsWhole {values : List DataValue} {last : DataValue}
    (spells : reader.SpellsValues front values last) : EndsWhole front := by
  induction spells with
  | last spells =>
      cases spells with
      | string string => exact .one (by simp [string])
      | lengthMarker tilde => exact .one (by simp [tilde])
      | word spells => exact spells.endsWhole
  | more _ _ _ ih => exact (ih.cons _).behind _

theorem SpellsBody.endsWhole {body : Body} (spells : reader.SpellsBody front body) :
    EndsWhole front := by
  cases spells with
  | addressFix _ spells => exact spells.endsWhole.cons _
  | data _ spells => exact spells.endsWhole.cons _
  | basic _ _ _ _ spells => exact ((spells.endsWhole.cons _).behind _).cons _
  | extended _ _ spells => exact spells.endsWhole.cons _

theorem SpellsStatement.endsWhole {s : Statement} (spells : reader.SpellsStatement front s)
    (some : front ≠ []) : EndsWhole front := by
  obtain ⟨labels, bodies⟩ := spells
  cases bodies with
  | some spells => exact spells.endsWhole.behind _
  | none =>
      cases labels with
      | none => exact absurd rfl some
      | some _ named => exact (EndsWhole.one (by simp [named])).cons _

/-- A line is read as a statement exactly if its tokens spell the statement, or if they spell it and
it is an operation with one comma behind its operands. -/
theorem statement_eq_ok_iff (reader : StatementReader) (tokens : List Token) (s : Statement) :
    reader.statement tokens = .ok s ↔
      reader.SpellsStatement tokens s ∨
        ∃ front comma, tokens = front ++ [comma] ∧ comma.kind = .comma ∧
          reader.SpellsStatement front s ∧ s.isOperation = true := by
  constructor
  · intro read
    have answers : Answers (fun _ => True) (reader.SpellsStatementComma tokens)
        (reader.statement tokens) :=
      statement_answers trivial fun _ _ => trivial
    rw [read] at answers
    cases answers with
    | ok spells =>
        cases spells with
        | plain spells => exact .inl spells
        | comma spells operation comma => exact .inr ⟨_, _, rfl, comma, spells, operation⟩
  · rintro (spells | ⟨front, comma, rfl, kind, spells, operation⟩)
    · exact spells.read
    · exact (SpellsStatementComma.comma spells operation kind).read

def commaLine : Text := "set a, b,"

def commaTokens : List Token :=
  let place (column size : Nat) := LineStart.position ⟨1, 0⟩ column size
  [⟨.identifier, place 0 3, "set"⟩, ⟨.identifier, place 4 1, "a"⟩, ⟨.comma, place 5 1, ","⟩,
    ⟨.identifier, place 7 1, "b"⟩, ⟨.comma, place 8 1, ","⟩]

theorem lineTokens_commaLine :
    Source.lineTokens .extended ⟨1, 0⟩ commaLine = ⟨commaTokens, []⟩ := by
  decide +kernel

/-- The comma is accepted although it makes the line one that the grammar does not have. -/
theorem comma_accepted :
    (Source.lineTokens .extended ⟨1, 0⟩ commaLine).errors = [] ∧
      (∃ s, (Source.lineReader .extended .v2 ⟨1, 0⟩ commaLine).statement
        (Source.lineTokens .extended ⟨1, 0⟩ commaLine).tokens = .ok s) ∧
      ¬ ∃ s, (Source.lineReader .extended .v2 ⟨1, 0⟩ commaLine).SpellsStatement
        (Source.lineTokens .extended ⟨1, 0⟩ commaLine).tokens s := by
  rw [lineTokens_commaLine]
  refine ⟨rfl, ?_, ?_⟩
  · have accepted : ((Source.lineReader .extended .v2 ⟨1, 0⟩ commaLine).statement
        commaTokens).toOption.isSome = true := by decide +kernel
    cases read : (Source.lineReader .extended .v2 ⟨1, 0⟩ commaLine).statement commaTokens with
    | ok s => exact ⟨s, rfl⟩
    | error d => rw [read] at accepted; cases accepted
  · rintro ⟨s, spells⟩
    have ends : EndsWhole (commaTokens.dropLast ++ [⟨.comma, _, ","⟩]) :=
      spells.endsWhole (by decide)
    exact EndsWhole.not_comma rfl ends

end StatementReader

end Dcpu
