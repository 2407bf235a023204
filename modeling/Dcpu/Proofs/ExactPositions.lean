import Dcpu.Assembly
import Dcpu.Proofs.PlacedFailures
import Dcpu.Proofs.SourceParts
import Mathlib.Data.List.Forall2

set_option autoImplicit false

namespace Dcpu

namespace Text

/-- The text has that line, which starts at that offset. Lines are counted from one, and each ends
before a newline or where the text does. Behind the last newline there is a line only if there are
bytes. -/
def HasLine (text : Text) (number offset : Nat) (line : Text) : Prop :=
  ∃ before rest : Text, text = before ++ (line ++ rest) ∧ before.Whole ∧ newline ∉ line ∧
    (∀ b ∈ rest.head?, b = newline) ∧ line ++ rest ≠ [] ∧ number = before.count newline + 1 ∧
    offset = before.length

theorem dropEnding_of_not_mem {t : Text} {b : UInt8} (free : b ∉ t) : t.dropEnding [b] = t := by
  rw [dropEnding, if_neg]
  intro ending
  exact free ((List.isSuffixOf_iff_suffix.1 ending).subset (.head _))

structure FirstLine (t line ending rest : Text) : Prop where
  split : t.splitLine = (line ++ ending, rest)
  free : newline ∉ line
  ends : ending = [] ∧ rest = [] ∨ ending = [newline]

theorem exists_firstLine (t : Text) : ∃ line ending rest, FirstLine t line ending rest := by
  by_cases member : newline ∈ t
  · obtain ⟨line, rest, rfl, free⟩ := List.eq_append_cons_of_mem member
    exact ⟨line, [newline], rest, splitLine_of_not_mem free rest, free, .inr rfl⟩
  · refine ⟨t, [], [], ?_, member, .inl ⟨rfl, rfl⟩⟩
    have nothing : t.dropWhile (· != newline) = [] := by
      rw [List.dropWhile_eq_nil_iff]
      intro b there
      rw [bne_iff_ne]
      rintro rfl
      exact member there
    rw [splitLine, nothing, List.append_nil]

namespace FirstLine

variable {t line ending rest : Text}

theorem parts (first : FirstLine t line ending rest) : t = line ++ (ending ++ rest) := by
  have joined := splitLine_append t
  rw [first.split, List.append_assoc] at joined
  exact joined.symm

theorem dropEnding_newline (first : FirstLine t line ending rest) :
    (line ++ ending : Text).dropEnding [newline] = line := by
  rcases first.ends with ⟨rfl, rfl⟩ | rfl
  · rw [List.append_nil, dropEnding_of_not_mem first.free]
  · exact dropEnding_append line _

theorem hasLine (first : FirstLine t line ending rest) (some : t ≠ []) {before : Text}
    (whole : before.Whole) :
    HasLine (before ++ t) (before.count newline + 1) before.length line := by
  have stops : ∀ b ∈ (ending ++ rest).head?, b = newline := by
    rcases first.ends with ⟨rfl, rfl⟩ | rfl <;> simp
  exact ⟨before, ending ++ rest, first.parts ▸ rfl, whole, first.free, stops, first.parts ▸ some,
    rfl, rfl⟩

end FirstLine

end Text

/-- The place is on that line of the text: it starts within the line or at its end, and takes at
least one byte and none beyond the end. The carriage return before a newline belongs to the end. -/
structure Position.OnLine (text line : Text) (p : Position) : Prop where
  there : ∃ number offset : Nat, text.HasLine number offset line ∧ p.line = number ∧
    p.lineByte = offset
  column : p.column = p.byte - p.lineByte + 1
  from_start : p.lineByte ≤ p.byte
  up_to_end : p.byte ≤ p.lineByte + (line.dropEnding [Text.carriageReturn]).length
  within : p.byte + p.size ≤ p.lineByte + (line.dropEnding [Text.carriageReturn]).length + 1
  size_pos : 1 ≤ p.size

namespace LineStart

def after (before : Text) : LineStart := ⟨before.count Text.newline + 1, before.length⟩

theorem behind_after (before : Text) {line : Text} (free : Text.newline ∉ line) :
    (after before).behind 1 (line ++ [Text.newline]).length =
      after (before ++ (line ++ [Text.newline])) := by
  simp [after, behind, List.count_eq_zero_of_not_mem free]

end LineStart

def Position.Exact (text : Text) (p : Position) : Prop := p.line ≠ 0 → ∃ line, p.OnLine text line

theorem LineStart.Along.exact {text line : Text} {start : LineStart} {p : Position}
    (there : text.HasLine start.line start.byte line)
    (along : start.Along (line.dropEnding [Text.carriageReturn]).length p) : p.Exact text := by
  obtain ⟨offset, size, rfl, some, first, last⟩ := along
  intro _
  refine ⟨line, ⟨start.line, start.byte, there, rfl, rfl⟩, ?_, ?_, ?_, ?_, ?_⟩
  all_goals simp only [LineStart.position]; omega

namespace Dialect

variable {P : Position → Prop} {d : Dialect} {e : AssemblyError}

theorem at_of_layout (fails : d.layout = .error e) : Failure.At P (.rejected e) := by
  rw [layout] at fails
  split at fails
  · cases fails
  · split at fails
    · cases fails
    · cases fails
      rintro p ⟨⟩

theorem at_of_assemblyRules (fails : d.assemblyRules = .error e) : Failure.At P (.rejected e) := by
  rw [assemblyRules] at fails
  cases chosen : d.layout with
  | ok layout =>
      rw [chosen] at fails
      cases fails
  | error e' =>
      rw [chosen] at fails
      cases fails
      exact at_of_layout chosen

end Dialect

namespace Source

variable {dialect : Dialect} {layout : Layout} {P : Position → Prop}

structure Placed (P : Position → Prop) (source : Source) : Prop where
  statements : ∀ s ∈ source.statements, s.Placed P
  errors : ∀ e ∈ source.errors, Failure.At P (.rejected e)

theorem Placed.append {first second : Source} (placed : first.Placed P)
    (placed' : second.Placed P) : (first.append second).Placed P :=
  ⟨List.forall_mem_append.2 ⟨placed.statements, placed'.statements⟩,
    List.forall_mem_append.2 ⟨placed.errors, placed'.errors⟩⟩

theorem Placed.nil : Placed P ⟨[], []⟩ := ⟨by simp, by simp⟩

theorem readLine_placed {start : LineStart} {line : Text}
    (along : ∀ p, start.Along (lineContent line).length p → P p) :
    (ofLine (readLine dialect layout start line)).Placed P := by
  have lines : ∃ found wrong, lineTokens dialect start line = ⟨found, wrong⟩ ∧
      LineTokens.Laid start (lineContent line).length 0 found ∧
      ∀ d ∈ wrong, start.Along (lineContent line).length d.position :=
    LineTokens.readFrom_laid _ start [] [] 0 _ (Nat.zero_add _)
  obtain ⟨found, wrong, read, laid, wrongAlong⟩ := lines
  have atEnd : P (lineReader dialect layout start line).lineEnd :=
    along _ ⟨_, 1, rfl, Nat.le_refl _, Nat.le_refl _, Nat.le_refl _⟩
  -- A part of the statement reaches from one token to another.
  have stretches : LineTokens.Stretches P found := fun first rest suffix last member =>
    along _ (laid.stretches first rest suffix last member)
  rw [readLine_eq, read]
  dsimp only
  split
  · split
    · exact .nil
    · have answers := StatementReader.statement_placed atEnd stretches
      generalize (lineReader dialect layout start line).statement found = result at answers
      cases answers with
      | ok placed => exact ⟨List.forall_mem_singleton.2 placed, by simp [ofLine]⟩
      | error place =>
          exact ⟨by simp [ofLine], List.forall_mem_singleton.2 (Failure.at_located place)⟩
  · refine ⟨by simp [ofLine], ?_⟩
    rw [ofLine, List.forall_mem_map]
    exact fun d member => Failure.at_located (along _ (wrongAlong d member))

theorem readFrom_exact {before t : Text} (whole : before.Whole) :
    (readFrom dialect layout (.after before) [] [] t).Placed (Position.Exact (before ++ t)) := by
  -- The lines before this one are whole, so this one starts where the reader is.
  induction size : t.length using Nat.strongRecOn generalizing before t with
  | ind size ih =>
    subst size
    cases t with
    | nil => exact readFrom_nil ▸ .nil
    | cons b t =>
        obtain ⟨line, ending, rest, first⟩ := Text.exists_firstLine (b :: t)
        by_cases long : lineLimit ≤ ((line ++ ending : Text).dropEnding [Text.newline]).length
        · rw [readFrom_cons first.split, if_pos long]
          refine ⟨by simp, List.forall_mem_singleton.2 ?_⟩
          rintro p ⟨⟩
        · rw [readFrom_first first.split (Nat.not_le.1 long)]
          refine .append (readLine_placed ?_) ?_
          · rw [lineContent, first.dropEnding_newline]
            exact fun p along => along.exact (first.hasLine (List.cons_ne_nil b t) whole)
          · rcases first.ends with ⟨rfl, rfl⟩ | rfl
            · exact readFrom_nil ▸ .nil
            · have shorter : rest.length < (b :: t).length := by
                have := Text.splitLine_rest_length b t
                rwa [first.split] at this
              have whole' : Text.Whole (before ++ (line ++ [Text.newline])) :=
                .inr (by rw [← List.append_assoc, List.getLast?_concat])
              have behind := ih _ shorter whole' rfl
              rw [LineStart.behind_after before first.free, first.parts]
              simpa only [List.append_assoc] using behind

theorem read_exact (dialect : Dialect) (text : Text) :
    (read dialect text).Placed (Position.Exact text) := by
  cases chosen : dialect.layout with
  | error e =>
      rw [read, chosen]
      exact ⟨by simp, List.forall_mem_singleton.2 (Dialect.at_of_layout chosen)⟩
  | ok layout =>
      rw [read_eq_readFrom chosen]
      exact readFrom_exact (.inl rfl)

end Source

namespace Report

variable {text line : Text} {p : Position} {failure : Failure}

theorem bytesAfter_eq (found before line rest : Text) (free : Text.newline ∉ line)
    (ends : ∀ b ∈ rest.head?, b = Text.newline) :
    bytesAfter (before ++ (line ++ rest)).toArray found before.length (line ++ rest).length =
      found.reverse ++ line := by
  induction line generalizing found before with
  | nil =>
      cases rest with
      | nil => simp [bytesAfter]
      | cons b rest =>
          obtain rfl := ends b rfl
          simp [bytesAfter]
  | cons b line ih =>
      obtain ⟨other, free⟩ := List.ne_and_not_mem_of_not_mem_cons free
      have further := ih (b :: found) (before ++ [b]) free
      simp only [List.append_assoc, List.singleton_append, List.length_append, List.length_cons,
        List.length_nil, List.reverse_cons] at further
      simp [bytesAfter, other.symm, further]

theorem line_eq (there : p.OnLine text line) :
    Report.line text.toArray p.lineByte.toNat =
      line.dropLastWhile (· == Text.carriageReturn) := by
  obtain ⟨number, offset, ⟨before, rest, rfl, _, free, ends, _, rfl, rfl⟩, _, starts⟩ :=
    there.there
  have left : (before ++ (line ++ rest)).toArray.size - before.length = (line ++ rest).length := by
    simp
  rw [starts, Int.toNat_natCast, Report.line, left, bytesAfter_eq _ _ _ _ free ends]
  rfl

/-- What a report says of a failure: its message and, under it, the line of the text that it is on
with a mark under the place. A failure that is on no line has its message alone. -/
inductive Shows (text : Text) (failure : Failure) : Text → Prop
  | message (apart : ∀ p ∈ (Entry.ofFailure failure).position?, p.line = 0) :
      Shows text failure ((Entry.ofFailure failure).message ++ "\n")
  | line {p : Position} {line : Text} (placed : (Entry.ofFailure failure).position? = some p)
      (there : p.OnLine text line) :
      Shows text failure ((Entry.ofFailure failure).message ++ "\n" ++
        line.dropLastWhile (· == Text.carriageReturn) ++ "\n\x1b[31m" ++ underline p ++
        "\x1b[0m\n")

theorem entry_shows (placed : failure.At (Position.Exact text)) :
    ∃ shown, entry text.toArray (.ofFailure failure) = .ok shown ∧ Shows text failure shown := by
  cases place : (Entry.ofFailure failure).position? with
  | none =>
      refine ⟨_, by rw [entry, place], .message ?_⟩
      simp [place]
  | some p =>
      by_cases apart : p.line = 0
      · refine ⟨_, by simp only [entry, place, if_pos apart], .message ?_⟩
        simp [place, apart]
      · obtain ⟨line, there⟩ := placed p place apart
        have inside : ¬ p.lineByte < 0 := by
          obtain ⟨_, offset, _, _, starts⟩ := there.there
          omega
        refine ⟨_, ?_, .line place there⟩
        simp only [entry, place, if_neg apart, if_neg inside, located, line_eq there]

theorem render_shows {failures : List Failure}
    (placed : ∀ failure ∈ failures, failure.At (Position.Exact text)) (label : Text) :
    ∃ shown, render label text (failures.map .ofFailure) = .ok (shown.flatMap (label ++ ·)) ∧
      List.Forall₂ (Shows text) failures shown := by
  have entries : ∃ shown, (failures.map .ofFailure).mapM (entry text.toArray) = .ok shown ∧
      List.Forall₂ (Shows text) failures shown := by
    induction failures with
    | nil => exact ⟨[], rfl, .nil⟩
    | cons failure rest ih =>
        obtain ⟨here, others⟩ := List.forall_mem_cons.1 placed
        obtain ⟨first, shows, is⟩ := entry_shows here
        obtain ⟨shown, all, are⟩ := ih others
        refine ⟨first :: shown, ?_, .cons is are⟩
        rw [List.map_cons, List.mapM_cons, shows, all]
        rfl
  obtain ⟨shown, all, are⟩ := entries
  exact ⟨shown, by rw [render, all]; rfl, are⟩

end Report

namespace Assembly

theorem at_exact_of_ofSource {dialect : Dialect} {text : Text} {failures : List Failure}
    (fails : ofSource dialect text = .error failures) :
    ∀ failure ∈ failures, failure.At (Position.Exact text) := by
  have placed := Source.read_exact dialect text
  have nowhere : Position.Exact text .nowhere := fun inside => absurd rfl inside
  rw [ofSource] at fails
  split at fails
  · cases fails
    rw [List.forall_mem_map]
    exact placed.errors
  · split at fails
    · rename_i refused
      cases fails
      exact List.forall_mem_singleton.2 (Dialect.at_of_assemblyRules refused)
    · rename_i rules _
      have reports := ofStatements_reports nowhere rules placed.statements
      generalize ofStatements rules _ = result at reports fails
      cases reports with
      | ok is => cases fails
      | error place =>
          cases fails
          exact List.forall_mem_singleton.2 place

/-- Each mistake in a source is reported on the line that it is on, and within that line or at its
end. A report of the mistakes always succeeds, and shows each line that one of them is on. -/
theorem ofSource_reports_exactly {dialect : Dialect} {text : Text} {failures : List Failure}
    (fails : ofSource dialect text = .error failures) (label : Text) :
    (∀ failure ∈ failures, ∀ p ∈ (Report.Entry.ofFailure failure).position?, p.line ≠ 0 →
      ∃ line, p.OnLine text line) ∧
    ∃ shown, Report.render label text (failures.map .ofFailure) =
        .ok (shown.flatMap (label ++ ·)) ∧
      List.Forall₂ (Report.Shows text) failures shown :=
  ⟨at_exact_of_ofSource fails, Report.render_shows (at_exact_of_ofSource fails) label⟩

theorem ofSource_reports_exactly_missing_operand :
    ofSource .extended "set a, 1\r\nset b\r\n" =
      .error [.located ⟨⟨2, 1, 10, 3, 10⟩, .argumentCount 2 1⟩] ∧
    (∀ failure ∈ [Failure.located ⟨⟨2, 1, 10, 3, 10⟩, .argumentCount 2 1⟩],
      ∀ p ∈ (Report.Entry.ofFailure failure).position?, p.line ≠ 0 →
        ∃ line, p.OnLine "set a, 1\r\nset b\r\n" line) ∧
    ∃ shown, Report.render "at: " "set a, 1\r\nset b\r\n"
        [.ofFailure (.located ⟨⟨2, 1, 10, 3, 10⟩, .argumentCount 2 1⟩)] =
        .ok (shown.flatMap (("at: " : Text) ++ ·)) ∧
      List.Forall₂ (Report.Shows "set a, 1\r\nset b\r\n")
        [.located ⟨⟨2, 1, 10, 3, 10⟩, .argumentCount 2 1⟩] shown := by
  have fails : ofSource .extended "set a, 1\r\nset b\r\n" =
      .error [.located ⟨⟨2, 1, 10, 3, 10⟩, .argumentCount 2 1⟩] := by
    decide +kernel
  exact ⟨fails, ofSource_reports_exactly fails _⟩

end Assembly

end Dcpu
