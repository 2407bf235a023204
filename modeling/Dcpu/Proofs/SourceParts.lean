import Dcpu.Proofs.ExtendedDialect
import Dcpu.Proofs.ReadElsewhere
import Dcpu.Proofs.SourceLines

set_option autoImplicit false

namespace Dcpu

def Position.shift (lines bytes : Nat) (p : Position) : Position :=
  { p with
    line := p.line + lines
    byte := p.byte + bytes
    lineByte := p.lineByte + bytes }

theorem Position.shift_span (lines bytes : Nat) (first last : Position) :
    (first.span last).shift lines bytes =
      (first.shift lines bytes).span (last.shift lines bytes) := by
  simp only [span, shift, mk.injEq, true_and, and_true]
  omega

namespace LineStart

def behind (start : LineStart) (lines bytes : Nat) : LineStart :=
  ⟨start.line + lines, start.byte + bytes⟩

theorem position_behind (start : LineStart) (lines bytes offset size : Nat) :
    (start.behind lines bytes).position offset size =
      (start.position offset size).shift lines bytes := by
  simp only [behind, position, Position.shift, Position.mk.injEq, true_and]
  omega

end LineStart

namespace Text

def LinesBelow (limit : Nat) (t : Text) : Prop :=
  ∀ line : Text, line <:+: t → newline ∉ line → line.length < limit

theorem LinesBelow.suffix {limit : Nat} {t rest : Text} (short : t.LinesBelow limit)
    (suffix : rest <:+ t) : rest.LinesBelow limit :=
  fun line infix_ free => short line (infix_.trans suffix.isInfix) free

theorem splitLine_of_not_mem {line : Text} (free : newline ∉ line) (rest : Text) :
    splitLine (line ++ newline :: rest) = (line ++ [newline], rest) := by
  have before : ∀ b ∈ line, (b != newline) = true := by
    intro b member
    rw [bne_iff_ne]
    rintro rfl
    exact free member
  rw [splitLine, List.dropWhile_append_of_pos before, List.takeWhile_append_of_pos before]
  simp

def Whole (t : Text) : Prop := t = [] ∨ t.getLast? = some newline

theorem Whole.exists_line {t : Text} (whole : t.Whole) (some : t ≠ []) :
    ∃ line rest : Text, t = line ++ newline :: rest ∧ newline ∉ line ∧ rest.Whole := by
  have last := whole.resolve_left some
  obtain ⟨line, rest, rfl, free⟩ := List.eq_append_cons_of_mem (List.mem_of_getLast? last)
  refine ⟨line, rest, rfl, free, ?_⟩
  cases rest with
  | nil => exact .inl rfl
  | cons b rest =>
      rw [List.getLast?_append, List.getLast?_cons_cons] at last
      refine .inr ?_
      cases found : (b :: rest).getLast? with
      | none => simp at found
      | some c => rwa [found] at last

end Text

namespace LineTokens

variable {rules : NameRules}

def mapPositions (move : Position → Position) (read : LineTokens) : LineTokens :=
  ⟨read.tokens.map (Token.mapPosition move), read.errors.map (Diagnostic.mapPositions move)⟩

theorem mapPosition_of_next {b : UInt8} {rest : Text} {cause : Cause}
    (move : Position → Position)
    (found : (∃ more, Lexeme.next rules b rest = .error cause more) ∨
      Lexeme.next rules b rest = .unclosed cause) : cause.mapPosition move = cause := by
  -- No cause that the lexer gives has a place of its own.
  have quoted {kind : TokenKind} {cause' : Cause} {quote : UInt8} {unquote : Text → Option Text}
      (found : (∃ more, Lexeme.quoted kind cause' quote unquote rest = .error cause more) ∨
        Lexeme.quoted kind cause' quote unquote rest = .unclosed cause) : cause' = cause := by
    unfold Lexeme.quoted at found
    grind
  have single {c : Char} {more : Nat}
      (found : (∃ more', Lexeme.ofChar c b more = .error cause more') ∨
        Lexeme.ofChar c b more = .unclosed cause) : Cause.unexpectedCharacter c = cause := by
    unfold Lexeme.ofChar at found
    grind
  unfold Lexeme.next at found
  dsimp only at found
  split at found
  · simp at found
  split at found
  · simp at found
  split at found
  · rw [← quoted found]
    rfl
  split at found
  · rw [← quoted found]
    rfl
  split at found
  · simp [Lexeme.run] at found
  split at found
  · simp [Lexeme.run] at found
  · rw [← single found]
    rfl

theorem readFrom_behind (start : LineStart) (lines bytes : Nat) (tokens : List Token)
    (errors : List Diagnostic) (offset : Nat) (t : Text) :
    readFrom rules (start.behind lines bytes)
        (tokens.map (Token.mapPosition (Position.shift lines bytes)))
        (errors.map (Diagnostic.mapPositions (Position.shift lines bytes))) offset t =
      (readFrom rules start tokens errors offset t).mapPositions (Position.shift lines bytes) := by
  -- The lexemes do not depend on where the line starts, only their places do.
  induction tokens, errors, offset, t using readFrom.induct rules start with
  | case1 tokens errors offset =>
      rw [readFrom_nil, readFrom_nil, mapPositions, List.map_reverse, List.map_reverse]
  | case2 tokens errors offset b rest more found ih =>
      simp only [readFrom_cons, found]
      exact ih
  | case3 tokens errors offset b rest kind value more found ih =>
      simp only [readFrom_cons, found, LineStart.position_behind]
      exact ih
  | case4 tokens errors offset b rest cause more found ih =>
      have same := mapPosition_of_next (Position.shift lines bytes) (.inl ⟨more, found⟩)
      rw [List.map_cons, Diagnostic.mapPositions, same] at ih
      simp only [readFrom_cons, found, LineStart.position_behind]
      exact ih
  | case5 tokens errors offset b rest found =>
      simp only [readFrom_cons, found, mapPositions, List.map_reverse]
  | case6 tokens errors offset b rest cause found =>
      have same := mapPosition_of_next (Position.shift lines bytes) (.inr found)
      simp only [readFrom_cons, found, mapPositions, List.map_reverse, List.map_cons,
        Diagnostic.mapPositions, same, LineStart.position_behind]

end LineTokens

namespace Source

variable {dialect : Dialect} {layout : Layout}

def mapPositions (move : Position → Position) (source : Source) : Source :=
  ⟨source.statements.map (Statement.mapPositions move),
    source.errors.map (AssemblyError.mapPositions move)⟩

def append (first second : Source) : Source :=
  ⟨first.statements ++ second.statements, first.errors ++ second.errors⟩

theorem append_assoc (first second third : Source) :
    (first.append second).append third = first.append (second.append third) := by
  simp only [append, List.append_assoc]

theorem mapPositions_append (move : Position → Position) (first second : Source) :
    (first.append second).mapPositions move =
      (first.mapPositions move).append (second.mapPositions move) := by
  simp only [mapPositions, append, List.map_append]

def ofLine : Except (List Diagnostic) (Option Statement) → Source
  | .ok statement => ⟨statement.toList, []⟩
  | .error found => ⟨[], found.map .located⟩

theorem readFrom_step {start : LineStart} {statements : List Statement}
    {errors : List AssemblyError} {b : UInt8} {text line rest : Text}
    (parts : Text.splitLine (b :: text) = (line, rest))
    (short : (line.dropEnding [Text.newline]).length < lineLimit) :
    readFrom dialect layout start statements errors (b :: text) =
      readFrom dialect layout (start.behind 1 line.length)
        ((ofLine (readLine dialect layout start line)).statements.reverse ++ statements)
        ((ofLine (readLine dialect layout start line)).errors.reverse ++ errors) rest := by
  rw [readFrom_cons parts, if_neg (Nat.not_le.2 short)]
  dsimp only
  split <;> rename_i read <;> rw [read] <;> rfl

theorem readFrom_eq_append (start : LineStart) (statements : List Statement)
    (errors : List AssemblyError) (text : Text) :
    readFrom dialect layout start statements errors text =
      append ⟨statements.reverse, errors.reverse⟩ (readFrom dialect layout start [] [] text) := by
  induction size : text.length using Nat.strongRecOn generalizing start statements errors text with
  | ind size ih =>
    subst size
    cases text with
    | nil => simp [readFrom_nil, append]
    | cons b text =>
        rcases parts : Text.splitLine (b :: text) with ⟨line, rest⟩
        by_cases long : lineLimit ≤ (line.dropEnding [Text.newline]).length
        · simp [readFrom_cons parts, long, append]
        · have shorter : rest.length < (b :: text).length := by
            have := Text.splitLine_rest_length b text
            rwa [parts] at this
          -- The rest is read behind what both the source and the line hold, or the line alone.
          rw [readFrom_step parts (Nat.not_le.1 long), readFrom_step parts (Nat.not_le.1 long),
            ih _ shorter _ _ _ _ rfl, ih _ shorter _ (_ ++ []) (_ ++ []) _ rfl]
          simp [append]

theorem readFrom_first {b : UInt8} {text line rest : Text}
    (parts : Text.splitLine (b :: text) = (line, rest))
    (short : (line.dropEnding [Text.newline]).length < lineLimit) (start : LineStart) :
    readFrom dialect layout start [] [] (b :: text) =
      (ofLine (readLine dialect layout start line)).append
        (readFrom dialect layout (start.behind 1 line.length) [] [] rest) := by
  rw [readFrom_step parts short, readFrom_eq_append]
  simp [append]

theorem readFrom_line {line : Text} (free : Text.newline ∉ line) (short : line.length < lineLimit)
    (start : LineStart) (rest : Text) :
    readFrom dialect layout start [] [] (line ++ Text.newline :: rest) =
      (ofLine (readLine dialect layout start (line ++ [Text.newline]))).append
        (readFrom dialect layout (start.behind 1 (line ++ [Text.newline]).length) [] [] rest) := by
  obtain ⟨b, text, cut⟩ : ∃ b text, line ++ Text.newline :: rest = b :: text :=
    List.exists_cons_of_ne_nil (by simp)
  have parts := Text.splitLine_of_not_mem free rest
  rw [cut] at parts ⊢
  exact readFrom_first parts (by rwa [Text.dropEnding_append]) start

theorem readFrom_append {first : Text} (whole : first.Whole) (short : first.LinesBelow lineLimit)
    (start : LineStart) (second : Text) :
    readFrom dialect layout start [] [] (first ++ second) =
      (readFrom dialect layout start [] [] first).append
        (readFrom dialect layout (start.behind (first.count Text.newline) first.length) [] []
          second) := by
  -- Lines are taken off the front. Each of them is whole, so what is left is whole, too.
  induction size : first.length using Nat.strongRecOn generalizing start first with
  | ind size ih =>
    subst size
    by_cases empty : first = []
    · subst empty
      rw [List.nil_append, readFrom_nil]
      rfl
    · obtain ⟨line, rest, rfl, free, whole⟩ := whole.exists_line empty
      have fits : line.length < lineLimit :=
        short line (List.prefix_append _ _).isInfix free
      have others : rest.LinesBelow lineLimit :=
        short.suffix ((List.suffix_cons _ rest).trans (List.suffix_append _ _))
      have behind : (start.behind 1 (line ++ [Text.newline]).length).behind
          (rest.count Text.newline) rest.length =
          start.behind ((line ++ Text.newline :: rest).count Text.newline)
            (line ++ Text.newline :: rest).length := by
        simp only [LineStart.behind, List.count_append, List.count_eq_zero_of_not_mem free,
          List.count_cons_self, List.length_append, List.length_cons, List.length_nil,
          LineStart.mk.injEq]
        omega
      have shorter : rest.length < (line ++ Text.newline :: rest).length := by
        simp only [List.length_append, List.length_cons]
        omega
      rw [List.append_assoc, List.cons_append, readFrom_line free fits, readFrom_line free fits,
        ih rest.length shorter whole others _ rfl, append_assoc, behind]

theorem readLine_behind (start : LineStart) (lines bytes : Nat) (line : Text) :
    ofLine (readLine dialect layout (start.behind lines bytes) line) =
      (ofLine (readLine dialect layout start line)).mapPositions (Position.shift lines bytes) := by
  have tokens : lineTokens dialect (start.behind lines bytes) line =
      (lineTokens dialect start line).mapPositions (Position.shift lines bytes) :=
    LineTokens.readFrom_behind start lines bytes [] [] 0 _
  have reader : lineReader dialect layout (start.behind lines bytes) line =
      (lineReader dialect layout start line).mapPosition (Position.shift lines bytes) := by
    simp only [lineReader, StatementReader.mapPosition, LineStart.position_behind]
  rw [readLine_eq, readLine_eq, tokens, reader]
  simp only [LineTokens.mapPositions, List.map_eq_nil_iff]
  split
  · split
    · rfl
    · have moved := StatementReader.statement_moved (Position.shift_span lines bytes)
        (lineTokens dialect start line).tokens (lineReader dialect layout start line)
      cases read : (lineReader dialect layout start line).statement
          (lineTokens dialect start line).tokens with
      | ok s =>
          obtain ⟨_, read', rfl⟩ := moved.of_eq_ok read
          rw [read']
          rfl
      | error d =>
          rw [moved.of_eq_error read]
          rfl
  · simp [ofLine, mapPositions, AssemblyError.mapPositions]

theorem readFrom_behind (start : LineStart) (lines bytes : Nat) (text : Text) :
    readFrom dialect layout (start.behind lines bytes) [] [] text =
      (readFrom dialect layout start [] [] text).mapPositions (Position.shift lines bytes) := by
  induction size : text.length using Nat.strongRecOn generalizing start text with
  | ind size ih =>
    subst size
    cases text with
    | nil => simp [readFrom_nil, mapPositions]
    | cons b text =>
        rcases parts : Text.splitLine (b :: text) with ⟨line, rest⟩
        by_cases long : lineLimit ≤ (line.dropEnding [Text.newline]).length
        · rw [readFrom_cons parts, readFrom_cons parts, if_pos long, if_pos long]
          rfl
        · have shorter : rest.length < (b :: text).length := by
            have := Text.splitLine_rest_length b text
            rwa [parts] at this
          have swapped : (start.behind lines bytes).behind 1 line.length =
              (start.behind 1 line.length).behind lines bytes := by
            simp only [LineStart.behind, LineStart.mk.injEq]
            omega
          rw [readFrom_first parts (Nat.not_le.1 long), readFrom_first parts (Nat.not_le.1 long),
            mapPositions_append, readLine_behind, swapped, ih _ shorter _ _ rfl]

/-- Lines are read independently. Behind a text that ends with a newline, whatever is right or wrong
with that text, a source is read as it is alone: only the lines and bytes before it are added to its
places. Should the second text have a line that is too long, that is found too. -/
theorem read_append (chosen : dialect.layout = .ok layout) (first second : Text)
    (whole : first.Whole) (short : first.LinesBelow lineLimit) :
    read dialect (first ++ second) =
      (read dialect first).append ((read dialect second).mapPositions
        (Position.shift (first.count Text.newline) first.length)) := by
  rw [read_eq_readFrom chosen, read_eq_readFrom chosen, read_eq_readFrom chosen,
    readFrom_append whole short, readFrom_behind]

theorem read_append_bad_line :
    Dialect.extended.layout = .ok .v2 ∧ Text.Whole "set a\r\n" ∧
      Text.LinesBelow lineLimit "set a\r\n" ∧
      read .extended ("set a\r\n" ++ "set b, 1" : Text) =
        (read .extended "set a\r\n").append
          ((read .extended "set b, 1").mapPositions (Position.shift 1 7)) := by
  have whole : Text.Whole "set a\r\n" := .inr rfl
  have short : Text.LinesBelow lineLimit "set a\r\n" :=
    fun line within _ => Nat.lt_of_le_of_lt within.length_le (by decide)
  exact ⟨Dialect.layout_extended, whole, short, read_append Dialect.layout_extended _ _ whole short⟩

end Source

end Dcpu
