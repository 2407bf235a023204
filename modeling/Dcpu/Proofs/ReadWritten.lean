import Dcpu.Proofs.AcceptedLine
import Dcpu.Proofs.ReadElsewhere
import Dcpu.Proofs.SourceLines
import Dcpu.Proofs.SpelledStatement

set_option autoImplicit false

namespace Dcpu

open Element (Respelled)

theorem Statement.Sayable.elements_ne_nil {d : Dialect} {layout : Layout} {forms : Forms}
    {s : Statement} (sayable : s.Sayable d layout forms) : s.elements forms ≠ [] := by
  obtain ⟨label, body, position⟩ := s
  obtain ⟨_, bodies, some⟩ := sayable
  cases label with
  | none =>
      cases body with
      | none => simp at some
      | some body =>
          change body.elements forms ≠ []
          cases bodies body rfl <;> simp [Body.elements]
  | some label => cases body <;> simp [Statement.elements]

namespace Source

variable {dialect : Dialect} {layout : Layout} {forms : Forms} {s : Statement} {line : Text}

theorem printable_of_written (sayable : s.Sayable dialect layout forms)
    (written : s.WrittenAs forms line) : line.Printable := by
  obtain ⟨elements, respelled, rfl⟩ := written
  refine (Respelled.parted respelled sayable.parted).printable ?_
  intro nothing
  rw [nothing] at respelled
  exact sayable.elements_ne_nil (List.forall₂_nil_right_iff.1 respelled)

theorem readLine_written (sayable : s.Sayable dialect layout forms)
    (written : s.WrittenAs forms line) (start : LineStart) :
    ∃ found : Statement, readLine dialect layout start line = .ok (some found) ∧
      found.mapPositions Position.forget = s.lowered.mapPositions Position.forget := by
  have printable := printable_of_written sayable written
  obtain ⟨elements, respelled, rfl⟩ := written
  have parted := Respelled.parted respelled sayable.parted
  obtain ⟨tokens, shapes, lexed⟩ := Element.ofLine_elements parted start
  have tokens_eq : lineTokens dialect start (elements.flatMap Element.text) = ⟨tokens, []⟩ := by
    rw [lineTokens, lineContent_eq printable]
    exact lexed
  -- Where the tokens stand does not matter for what they spell.
  have moved := StatementReader.statement_moved Position.forget_span tokens
    (lineReader dialect layout start (elements.flatMap Element.text))
  rw [Element.tokens_eq_of_shapes shapes] at moved
  have spells : ((lineReader dialect layout start (elements.flatMap Element.text)).mapPosition
      Position.forget).SpellsStatement (Element.tokens elements)
        (s.lowered.mapPositions Position.forget) :=
    sayable.spells rfl rfl respelled
  obtain ⟨found, read, same⟩ := moved.of_eq_ok_right spells.read
  refine ⟨found, ?_, same.symm⟩
  have some : tokens ≠ [] := by
    rintro rfl
    obtain rfl := Except.ok.inj read
    have label : s.label.isSome = false := by
      simpa [Statement.mapPositions, Statement.lowered] using congrArg Statement.label same
    have body : s.body.isSome = false := by
      simpa [Statement.mapPositions, Statement.lowered] using congrArg Statement.body same
    simpa [label, body] using sayable.some
  rw [readLine_eq, tokens_eq, if_pos rfl, if_neg some, read]

/-- A statement of the language is recovered from every line that says it. It is the only statement of
that line, nothing is wrong with the line, and all but the places is as it was, with mnemonics and
registers in lower case. -/
theorem read_written (chosen : dialect.layout = .ok layout) (forms : Forms) (s : Statement)
    (sayable : s.Sayable dialect layout forms) (line : Text) (written : s.WrittenAs forms line)
    (short : line.length < lineLimit) :
    ∃ found : Statement, read dialect line = ⟨[found], []⟩ ∧
      found.mapPositions Position.forget = s.lowered.mapPositions Position.forget := by
  have printable := printable_of_written sayable written
  obtain ⟨found, readLine_eq, same⟩ := readLine_written sayable written ⟨1, 0⟩
  have fits : (line.dropEnding [Text.newline]).length < lineLimit := by
    rwa [printable.dropEnding (by decide)]
  refine ⟨found, ?_, same⟩
  rw [read_eq_readFrom chosen,
    readFrom_split printable.some printable.splitLine_eq fits readLine_eq, readFrom_nil]
  rfl

/-- `:.x SET [sp+~y~-5], '😀'` -/
def pickLine : Statement :=
  ⟨some ⟨".x", .nowhere⟩,
    some (.basic "SET"
      (some (.stack .pick
        (some ⟨.difference (.identifier "y" .nowhere) .nowhere, some (.number (-5) .nowhere),
          .nowhere⟩) .nowhere))
      (some (.literal (some ⟨.character 0x1f600 .nowhere, none, .nowhere⟩) .nowhere)) .nowhere),
    .nowhere⟩

theorem sayable_pickLine : pickLine.Sayable .extended .v2 ⟨true, false⟩ := by
  have legal {name : Text} (starts : ∃ b ∈ name.head?, NameRules.startsName ⟨true, true⟩ b = true)
      (goes : name.all (NameRules.inName ⟨true, true⟩) = true) :
      Dialect.extended.nameRules.Legal name :=
    ⟨starts, List.all_eq_true.1 goes⟩
  constructor
  · rintro _ ⟨⟩
    exact legal ⟨0x2e, rfl, rfl⟩ rfl
  · rintro _ ⟨⟩
    refine .basic .set (by decide) (by decide) (.pick ⟨?_, ?_⟩) (.literal ⟨?_, ?_⟩ ?_)
    · exact .difference (.identifier (legal ⟨0x79, rfl, rfl⟩ rfl))
    · rintro _ ⟨⟩
      exact .number (by decide) fun _ => rfl
    · exact .character '😀'
    · rintro _ ⟨⟩
    · intro name position head
      cases head
  · exact .inl rfl

theorem written_pickLine :
    pickLine.WrittenAs ⟨true, false⟩ ":.x SeT [sP+~y~-5], '\\U0001f600'" := by
  refine ⟨[.mark 0x3a, .name ".x", .blank, .keyword "SeT", .blank, .mark 0x5b, .keyword "sP",
    .mark 0x2b, .mark 0x7e, .name "y", .mark 0x7e, .mark 0x2d, .numeral 5, .mark 0x5d, .mark 0x2c,
    .blank, .character 0x1f600], ?_, by decide +kernel⟩
  exact .cons (.same _) <| .cons (.same _) <| .cons (.same _) <| .cons (.letters (by decide)) <|
    .cons (.same _) <| .cons (.same _) <| .cons (.letters (by decide)) <| .cons (.same _) <|
    .cons (.same _) <| .cons (.same _) <| .cons (.same _) <| .cons (.same _) <| .cons (.same _) <|
    .cons (.same _) <| .cons (.same _) <| .cons (.same _) <| .cons (.same _) .nil

theorem read_written_pickLine :
    pickLine.Sayable .extended .v2 ⟨true, false⟩ ∧
      pickLine.WrittenAs ⟨true, false⟩ ":.x SeT [sP+~y~-5], '\\U0001f600'" ∧
      ∃ found : Statement, read .extended ":.x SeT [sP+~y~-5], '\\U0001f600'" = ⟨[found], []⟩ ∧
        found.mapPositions Position.forget = pickLine.lowered.mapPositions Position.forget :=
  ⟨sayable_pickLine, written_pickLine,
    read_written Dialect.layout_extended _ _ sayable_pickLine _ written_pickLine (by decide)⟩

end Source

end Dcpu
