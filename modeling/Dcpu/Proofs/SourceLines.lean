import Dcpu.Source
import Mathlib.Data.List.Forall2
import Mathlib.Data.List.TakeWhile

set_option autoImplicit false

namespace Dcpu

structure Text.Printable (t : Text) : Prop where
  some : t ≠ []
  bytes : ∀ b ∈ t, 0x20 ≤ b

namespace Text

variable {t : Text}

theorem Printable.dropEnding (printable : t.Printable) {b : UInt8} (control : b < 0x20) :
    t.dropEnding [b] = t := by
  rw [Text.dropEnding, if_neg]
  intro ending
  have member : b ∈ t := (List.isSuffixOf_iff_suffix.1 ending).subset (.head _)
  have least := printable.bytes b member
  rw [UInt8.le_iff_toNat_le] at least
  rw [UInt8.lt_iff_toNat_lt] at control
  omega

theorem Printable.ne_newline (printable : t.Printable) :
    ∀ b ∈ t, (b != newline) = true := by
  intro b member
  have least := printable.bytes b member
  rw [bne_iff_ne]
  rintro rfl
  exact absurd least (by decide)

theorem Printable.splitLine_append (printable : t.Printable) (rest : Text) :
    splitLine (t ++ newline :: rest) = (t ++ [newline], rest) := by
  rw [splitLine, List.dropWhile_append_of_pos printable.ne_newline,
    List.takeWhile_append_of_pos printable.ne_newline]
  simp

theorem Printable.splitLine_eq (printable : t.Printable) : splitLine t = (t, []) := by
  have nothing : t.dropWhile (· != newline) = [] :=
    List.dropWhile_eq_nil_iff.2 printable.ne_newline
  rw [splitLine, nothing]

end Text

namespace Source

variable {dialect : Dialect} {layout : Layout} {line : Text}

theorem lineContent_eq (printable : line.Printable) : lineContent line = line := by
  rw [lineContent, printable.dropEnding (by decide), printable.dropEnding (by decide)]

theorem lineContent_newline (printable : line.Printable) :
    lineContent (line ++ [Text.newline]) = line := by
  rw [lineContent, Text.dropEnding_append, printable.dropEnding (by decide)]

theorem readLine_newline (printable : line.Printable) (start : LineStart) :
    readLine dialect layout start (line ++ [Text.newline]) = readLine dialect layout start line := by
  rw [readLine, lineContent_newline printable, readLine, lineContent_eq printable]

structure Readable (dialect : Dialect) (layout : Layout) (P : Statement → Prop) (line : Text) :
    Prop where
  printable : line.Printable
  short : line.length < lineLimit
  read : ∀ start, ∃ statement, readLine dialect layout start line = .ok (some statement) ∧
    P statement

theorem readFrom_split {text first rest : Text} {statement : Statement} {start : LineStart}
    (some : text ≠ []) (split : text.splitLine = (first, rest))
    (short : (first.dropEnding [Text.newline]).length < lineLimit)
    (read : readLine dialect layout start first = .ok (.some statement))
    (statements : List Statement) (errors : List AssemblyError) :
    readFrom dialect layout start statements errors text =
      readFrom dialect layout ⟨start.line + 1, start.byte + first.length⟩
        (statement :: statements) errors rest := by
  obtain ⟨b, further, rfl⟩ := List.exists_cons_of_ne_nil some
  rw [readFrom.eq_2]
  split
  rename_i line after found
  obtain ⟨rfl, rfl⟩ := Prod.mk.inj (split.symm.trans found)
  rw [if_neg (Nat.not_le.2 short)]
  dsimp only
  rw [read]

theorem Readable.readFrom_append {P : Statement → Prop} (readable : Readable dialect layout P line)
    (start : LineStart) (statements : List Statement) (errors : List AssemblyError) (rest : Text) :
    ∃ statement, P statement ∧
      readFrom dialect layout start statements errors (line ++ Text.newline :: rest) =
        readFrom dialect layout ⟨start.line + 1, start.byte + (line ++ [Text.newline]).length⟩
          (statement :: statements) errors rest := by
  obtain ⟨printable, short, read⟩ := readable
  obtain ⟨statement, read, holds⟩ := read start
  have fits : ((line ++ [Text.newline]).dropEnding [Text.newline]).length < lineLimit := by
    rwa [Text.dropEnding_append]
  rw [← readLine_newline printable] at read
  exact ⟨statement, holds,
    readFrom_split (by simp) (printable.splitLine_append rest) fits read statements errors⟩

theorem readFrom_lines {α : Type} {text : α → Text} {P : α → Statement → Prop} {items : List α}
    (readable : ∀ item ∈ items, Readable dialect layout (P item) (text item)) (start : LineStart)
    (statements : List Statement) (errors : List AssemblyError) :
    ∃ found : List Statement, List.Forall₂ P items found ∧
      readFrom dialect layout start statements errors
          (items.flatMap fun item => text item ++ [Text.newline]) =
        ⟨statements.reverse ++ found, errors.reverse⟩ := by
  induction items generalizing start statements with
  | nil =>
      refine ⟨[], .nil, ?_⟩
      rw [List.flatMap_nil, readFrom.eq_1, List.append_nil]
  | cons item rest ih =>
      obtain ⟨statement, holds, read⟩ := (readable item (.head _)).readFrom_append start statements
        errors (rest.flatMap fun item => text item ++ [Text.newline])
      obtain ⟨found, all, after⟩ := ih (fun next member => readable next (.tail _ member))
        ⟨start.line + 1, start.byte + (text item ++ [Text.newline]).length⟩
        (statement :: statements)
      refine ⟨statement :: found, .cons holds all, ?_⟩
      rw [List.flatMap_cons, List.append_assoc, List.singleton_append, read, after]
      simp

theorem readFrom_join {α : Type} {text : α → Text} {P : α → Statement → Prop} {items : List α}
    (readable : ∀ item ∈ items, Readable dialect layout (P item) (text item)) (start : LineStart)
    (statements : List Statement) (errors : List AssemblyError) :
    ∃ found : List Statement, List.Forall₂ P items found ∧
      readFrom dialect layout start statements errors (Text.join "\n" (items.map text)) =
        ⟨statements.reverse ++ found, errors.reverse⟩ := by
  induction items generalizing start statements with
  | nil =>
      refine ⟨[], .nil, ?_⟩
      rw [show Text.join "\n" (List.map text []) = [] from rfl, readFrom.eq_1, List.append_nil]
  | cons item rest ih =>
      have others := fun next member => readable next (.tail _ member)
      cases rest with
      | nil =>
          -- The last line has no newline behind it.
          obtain ⟨printable, short, read⟩ := readable item (.head _)
          obtain ⟨statement, read, holds⟩ := read start
          have fits : ((text item).dropEnding [Text.newline]).length < lineLimit := by
            rwa [printable.dropEnding (by decide)]
          have alone : Text.join "\n" ([item].map text) = text item := by
            simp [Text.join, List.intercalate]
          refine ⟨[statement], .cons holds .nil, ?_⟩
          rw [alone, readFrom_split printable.some printable.splitLine_eq fits read, readFrom.eq_1,
            List.reverse_cons]
      | cons next further =>
          have joined : Text.join "\n" ((item :: next :: further).map text) =
              text item ++ Text.newline :: Text.join "\n" ((next :: further).map text) := by
            rw [Text.join, List.map_cons, List.map_cons, List.intercalate_cons_cons,
              List.append_assoc]
            rfl
          obtain ⟨statement, holds, read⟩ := (readable item (.head _)).readFrom_append start
            statements errors (Text.join "\n" ((next :: further).map text))
          obtain ⟨found, all, after⟩ := ih others
            ⟨start.line + 1, start.byte + (text item ++ [Text.newline]).length⟩
            (statement :: statements)
          refine ⟨statement :: found, .cons holds all, ?_⟩
          rw [joined, read, after]
          simp

end Source

end Dcpu
