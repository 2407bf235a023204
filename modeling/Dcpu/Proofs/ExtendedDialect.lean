import Dcpu.Assembly
import Dcpu.Proofs.ExtendedStatement
import Mathlib

set_option autoImplicit false

namespace Dcpu

/-- Every extension that is on here is on there. -/
structure Dialect.Within (d wider : Dialect) : Prop where
  signedNumbers : d.signedNumbers = true → wider.signedNumbers = true
  underscoreInNumbers : d.underscoreInNumbers = true → wider.underscoreInNumbers = true
  binaryLiterals : d.binaryLiterals = true → wider.binaryLiterals = true
  localLabels : d.localLabels = true → wider.localLabels = true
  extendedLabelNames : d.extendedLabelNames = true → wider.extendedLabelNames = true
  datLengthCounting : d.datLengthCounting = true → wider.datLengthCounting = true
  differenceLiterals : d.differenceLiterals = true → wider.differenceLiterals = true

namespace Source

variable {d wider : Dialect} {layout : Layout} {rename : Text → Text}

def lineTokens (d : Dialect) (start : LineStart) (line : Text) : LineTokens :=
  LineTokens.ofLine ⟨d.localLabels, d.extendedLabelNames⟩ start (lineContent line)

def lineReader (d : Dialect) (layout : Layout) (start : LineStart) (line : Text) :
    StatementReader :=
  ⟨d.signedNumbers, d.numeralRules, layout, start.position (lineContent line).length 1⟩

theorem readLine_eq (start : LineStart) (line : Text) :
    readLine d layout start line =
      if (lineTokens d start line).errors = [] then
        if (lineTokens d start line).tokens = [] then .ok none
        else
          match (lineReader d layout start line).statement (lineTokens d start line).tokens with
          | .ok statement => .ok (some statement)
          | .error diagnostic => .error [diagnostic]
      else .error (lineTokens d start line).errors := by
  simp only [readLine, lineTokens, lineReader, Bool.not_eq_eq_eq_not, Bool.not_true,
    List.isEmpty_eq_false_iff, List.isEmpty_iff, ne_eq, ite_not]
  rfl

theorem ne_nil_of_readLine {start : LineStart} {line : Text} {found : List Diagnostic}
    (failed : readLine d layout start line = .error found) : found ≠ [] := by
  rw [readLine_eq] at failed
  split at failed
  case isFalse errors =>
    cases failed
    exact errors
  split at failed
  · cases failed
  split at failed
  · cases failed
  · cases failed
    simp

variable {start : LineStart} {statements : List Statement} {errors : List AssemblyError}
  {text : Text}

theorem readFrom_nil :
    readFrom d layout start statements errors [] = ⟨statements.reverse, errors.reverse⟩ := by
  rw [readFrom.eq_1]

theorem readFrom_cons {b : UInt8} {line rest : Text}
    (parts : Text.splitLine (b :: text) = (line, rest)) :
    readFrom d layout start statements errors (b :: text) =
      if lineLimit ≤ (line.dropEnding [Text.newline]).length then
        ⟨statements.reverse, (.lineTooLong :: errors).reverse⟩
      else
        let next : LineStart := ⟨start.line + 1, start.byte + line.length⟩
        match readLine d layout start line with
        | .error found =>
            readFrom d layout next statements ((found.map .located).reverse ++ errors) rest
        | .ok none => readFrom d layout next statements errors rest
        | .ok (some statement) =>
            readFrom d layout next (statement :: statements) errors rest := by
  rw [readFrom.eq_2]
  split
  rename_i line' rest' found
  obtain ⟨rfl, rfl⟩ := Prod.mk.inj (parts.symm.trans found)
  rfl

theorem read_eq_readFrom (chosen : d.layout = .ok layout) (text : Text) :
    read d text = readFrom d layout ⟨1, 0⟩ [] [] text := by
  rw [read, chosen]

theorem errors_eq_nil_of_readFrom
    (clean : (readFrom d layout start statements errors text).errors = []) : errors = [] := by
  induction start, statements, errors, text using readFrom.induct d layout with
  | case1 start statements errors =>
      rw [readFrom_nil] at clean
      exact List.reverse_eq_nil_iff.1 clean
  | case2 start statements errors b text line rest parts long =>
      rw [readFrom_cons parts, if_pos long] at clean
      simp at clean
  | case3 start statements errors b text line rest parts short next found failed ih =>
      simp only [readFrom_cons parts, if_neg short, failed] at clean
      exact (List.append_eq_nil_iff.1 (ih clean)).2
  | case4 start statements errors b text line rest parts short next empty ih =>
      simp only [readFrom_cons parts, if_neg short, empty] at clean
      exact ih clean
  | case5 start statements errors b text line rest parts short next s read ih =>
      simp only [readFrom_cons parts, if_neg short, read] at clean
      exact ih clean

section Reading

variable (within : d.Within wider)
  (keeps : ∀ name : Text, (d.localLabels = false → name.isDotted = false) → rename name = name)
include within keeps

theorem readLine_within (layout : Layout) (start : LineStart) (line : Text) :
    Follows True (fun r r' => r' = r ∧ ∀ s ∈ r, s.mapNames rename = s)
      (readLine d layout start line) (readLine wider layout start line) := by
  have names : NameRules.Within ⟨d.localLabels, d.extendedLabelNames⟩
      ⟨wider.localLabels, wider.extendedLabelNames⟩ :=
    ⟨within.localLabels, within.extendedLabelNames⟩
  have readers : (lineReader d layout start line).Within (lineReader wider layout start line) :=
    ⟨within.signedNumbers, ⟨within.binaryLiterals, within.underscoreInNumbers⟩, rfl, rfl⟩
  rw [readLine_eq, readLine_eq]
  by_cases clean : (lineTokens d start line).errors = []
  case neg =>
    rw [if_neg clean]
    exact .excused trivial _ _
  have same : lineTokens wider start line = lineTokens d start line :=
    LineTokens.readFrom_within names clean
  -- Only names with a dot in front are renamed, and without local labels there are none.
  have kept : StatementReader.Kept rename (lineTokens d start line).tokens := by
    intro t member name
    apply keeps
    intro off
    exact LineTokens.not_isDotted_of_readFrom off (by simp) member name
  rw [same, if_pos clean, if_pos clean]
  split
  · exact .ok ⟨rfl, by simp⟩
  cases read : (lineReader d layout start line).statement (lineTokens d start line).tokens with
  | error diagnostic => exact .excused trivial _ _
  | ok s =>
      obtain ⟨_, read', rfl, taken⟩ :=
        (StatementReader.statement_within readers kept).of_eq_ok read
      rw [read']
      exact .ok ⟨rfl, by simpa using taken⟩

theorem readFrom_within (before : ∀ s ∈ statements, s.mapNames rename = s)
    (clean : (readFrom d layout start statements errors text).errors = []) :
    readFrom wider layout start statements errors text =
        readFrom d layout start statements errors text ∧
      ∀ s ∈ (readFrom d layout start statements errors text).statements,
        s.mapNames rename = s := by
  induction start, statements, errors, text using readFrom.induct d layout with
  | case1 start statements errors =>
      rw [readFrom_nil, readFrom_nil]
      exact ⟨rfl, fun s member => before s (List.mem_reverse.1 member)⟩
  | case2 start statements errors b text line rest parts long =>
      rw [readFrom_cons parts, if_pos long] at clean
      simp at clean
  | case3 start statements errors b text line rest parts short next found failed ih =>
      simp only [readFrom_cons parts, if_neg short, failed] at clean
      -- What is wrong with a line stays wrong with the source.
      have none := (List.append_eq_nil_iff.1 (errors_eq_nil_of_readFrom clean)).1
      exact absurd (by simpa using none) (ne_nil_of_readLine failed)
  | case4 start statements errors b text line rest parts short next empty ih =>
      obtain ⟨_, empty', rfl, _⟩ := (readLine_within within keeps layout start line).of_eq_ok empty
      simp only [readFrom_cons parts, if_neg short, empty, empty'] at clean ⊢
      exact ih before clean
  | case5 start statements errors b text line rest parts short next s read ih =>
      obtain ⟨_, read', rfl, taken⟩ :=
        (readLine_within within keeps layout start line).of_eq_ok read
      simp only [readFrom_cons parts, if_neg short, read, read'] at clean ⊢
      exact ih (List.forall_mem_cons.2 ⟨taken s rfl, before⟩) clean

end Reading

end Source

namespace Dialect

variable {d wider : Dialect} {layout : Layout}

theorem layout_uniform (extensions : Bool) (layout : Layout) :
    (uniform extensions layout.name).layout = .ok layout := by
  have lower : Text.lower layout.name = layout.name := by
    cases layout <;> exact Text.lower_eq_self (by decide) (by decide)
  have named : Layout.ofName? layout.name = some layout := by
    rw [Layout.ofName?, lower]
    cases layout <;> decide
  have some : layout.name ≠ [] := by cases layout <;> decide
  simp only [Dialect.layout, uniform, if_neg some, named]

theorem layout_extended : extended.layout = .ok .v2 := layout_uniform true .v2

def rulesFor (d : Dialect) (layout : Layout) : AssemblyRules where
  localLabels := d.localLabels
  datLengthCounting := d.datLengthCounting
  differenceLiterals := d.differenceLiterals
  signedNumbers := d.signedNumbers
  layout := layout.number

def encodingRules (d : Dialect) (layout : Layout) : EncodingRules :=
  (d.rulesFor layout).encodingRules layout

theorem Within.permits (within : d.Within wider) (layout : Layout) :
    (d.encodingRules layout).Permits True (wider.encodingRules layout) where
  layout := rfl
  differenceLiterals := .of_imp within.differenceLiterals
  datLengthCounting := .of_imp within.datLengthCounting
  signedNumbers := .of_imp within.signedNumbers

end Dialect

namespace Assembly

variable {d wider : Dialect} {layout : Layout} {text : Text} {assembly : Assembly}

theorem ofStatements_rulesFor (d : Dialect) (layout : Layout) (statements : List Statement) :
    ofStatements (d.rulesFor layout) statements =
      ((Program.empty d.localLabels).writeStatements (d.encodingRules layout) statements >>=
        Program.finish) := by
  cases layout <;> rfl

theorem ofSource_eq_ok_iff (chosen : d.layout = .ok layout) :
    ofSource d text = .ok assembly ↔
      (Source.readFrom d layout ⟨1, 0⟩ [] [] text).errors = [] ∧
        ((Program.empty d.localLabels).writeStatements (d.encodingRules layout)
          (Source.readFrom d layout ⟨1, 0⟩ [] [] text).statements >>= Program.finish) =
            .ok assembly := by
  have rules : d.assemblyRules = .ok (d.rulesFor layout) := by
    rw [Dialect.assemblyRules, chosen]
    rfl
  simp only [ofSource, Source.read_eq_readFrom chosen, rules, ofStatements_rulesFor]
  generalize Source.readFrom d layout ⟨1, 0⟩ [] [] text = source
  generalize (Program.empty d.localLabels).writeStatements (d.encodingRules layout)
    source.statements >>= Program.finish = result
  cases source.errors <;> cases result <;> simp [Except.mapError]

theorem ofStatements_of_ofSource (chosen : d.layout = .ok layout)
    (accepted : ofSource d text = .ok assembly) :
    (d.rulesFor layout).chosenLayout = .ok layout ∧
      ofStatements (d.rulesFor layout) (Source.read d text).statements = .ok assembly := by
  rw [Source.read_eq_readFrom chosen, ofStatements_rulesFor]
  exact ⟨by cases layout <;> rfl, ((ofSource_eq_ok_iff chosen).1 accepted).2⟩

theorem whole_eq_self (off : d.localLabels = false) (owner name : Text)
    (plain : d.localLabels = false → name.isDotted = false) : Text.whole owner name = name := by
  rw [Text.whole, plain off]
  rfl

/-- Extensions are conservative: a source that is accepted with some of them is assembled into the
same words and labels with more. -/
theorem ofSource_of_within (within : d.Within wider) (chosen : d.layout = .ok layout)
    (chosen' : wider.layout = .ok layout) (accepted : ofSource d text = .ok assembly) :
    ofSource wider text = .ok assembly := by
  obtain ⟨clean, assembled⟩ := (ofSource_eq_ok_iff chosen).1 accepted
  obtain ⟨same, -⟩ := Source.readFrom_within within (fun name _ => id_eq name) (by simp) clean
  have follows := Program.assemble_permits (within.permits layout) (Program.empty d.localLabels)
    (Source.readFrom d layout ⟨1, 0⟩ [] [] text).statements
  obtain ⟨_, assembled', rfl⟩ := follows.of_eq_ok assembled
  rw [ofSource_eq_ok_iff chosen', same]
  refine ⟨clean, ?_⟩
  -- No extension but local labels could give another meaning to what was written already.
  cases off : d.localLabels with
  | true =>
      rw [within.localLabels off, ← off]
      exact assembled'
  | false =>
      rw [off] at assembled'
      cases wider.localLabels with
      | false => exact assembled'
      | true =>
          have plain (owner : Text) :=
            (Source.readFrom_within within (whole_eq_self off owner) (by simp) clean).2
          rw [Program.assemble_of_plain _ plain]
          exact assembled'

/-- `:a dat a`, a word that holds its own address. -/
def labelLine : Text := ":a dat a"

def labelStatement : Statement :=
  let name : Position := ⟨1, 8, 7, 1, 0⟩
  ⟨some ⟨"a", ⟨1, 1, 0, 2, 0⟩⟩,
    some (.data [some (.word ⟨.identifier "a" name, none, name⟩)] ⟨1, 4, 3, 5, 0⟩), ⟨1, 1, 0, 1, 0⟩⟩

theorem lineTokens_labelLine : Source.lineTokens Dialect.standard ⟨1, 0⟩ labelLine =
    ⟨[⟨.colon, ⟨1, 1, 0, 1, 0⟩, ":"⟩, ⟨.identifier, ⟨1, 2, 1, 1, 0⟩, "a"⟩,
      ⟨.identifier, ⟨1, 4, 3, 3, 0⟩, "dat"⟩, ⟨.identifier, ⟨1, 8, 7, 1, 0⟩, "a"⟩], []⟩ := by
  have bytes : Source.lineContent labelLine = [0x3a, 0x61, 0x20, 0x64, 0x61, 0x74, 0x20, 0x61] := by
    decide
  have colon : Lexeme.next ⟨false, false⟩ 0x3a [0x61, 0x20, 0x64, 0x61, 0x74, 0x20, 0x61] =
      .token .colon [0x3a] 0 := by decide
  have label : Lexeme.next ⟨false, false⟩ 0x61 [0x20, 0x64, 0x61, 0x74, 0x20, 0x61] =
      .token .identifier [0x61] 0 := by decide
  have dat : Lexeme.next ⟨false, false⟩ 0x64 [0x61, 0x74, 0x20, 0x61] =
      .token .identifier [0x64, 0x61, 0x74] 2 := by decide
  have value : Lexeme.next ⟨false, false⟩ 0x61 [] = .token .identifier [0x61] 0 := by decide
  rw [Source.lineTokens, bytes]
  simp [LineTokens.ofLine, Dialect.standard, Dialect.uniform, LineTokens.readFrom_cons,
    LineTokens.readFrom_nil, LineStart.position, Piece.next_blank, colon, label, dat, value]
  decide

theorem readLine_labelLine :
    Source.readLine Dialect.standard .v2 ⟨1, 0⟩ labelLine = .ok (some labelStatement) := by
  have dat : Text.lower "dat" = "dat" := Text.lower_eq_self (by decide) (by decide)
  rw [Source.readLine_eq, lineTokens_labelLine]
  simp [StatementReader.statement, StatementReader.label?, StatementReader.expect,
    StatementReader.body, StatementReader.namedBody, dat, StatementReader.data,
    StatementReader.dataAfter_eq, StatementReader.dataValue, StatementReader.expression,
    StatementReader.atom, StatementReader.startPosition, bind, Except.bind, pure, Except.pure]
  decide

theorem ofSource_of_within_labelLine :
    ∃ assembly, ofSource Dialect.standard labelLine = .ok assembly ∧
      ofSource Dialect.extended labelLine = .ok assembly ∧ assembly.image = #[0] := by
  have within : Dialect.standard.Within Dialect.extended :=
    ⟨fun _ => rfl, fun _ => rfl, fun _ => rfl, fun _ => rfl, fun _ => rfl, fun _ => rfl, fun _ => rfl⟩
  have chosen : Dialect.standard.layout = .ok .v2 := Dialect.layout_uniform false .v2
  have chosen' : Dialect.extended.layout = .ok .v2 := Dialect.layout_uniform true .v2
  have read : Source.readFrom Dialect.standard .v2 ⟨1, 0⟩ [] [] labelLine =
      ⟨[labelStatement], []⟩ := by
    have parts : Text.splitLine labelLine = (labelLine, []) := by cbv
    have short : ¬ Source.lineLimit ≤ (labelLine.dropEnding [Text.newline]).length := by decide
    refine (Source.readFrom_cons parts).trans ?_
    rw [if_neg short]
    dsimp only
    rw [readLine_labelLine]
    exact Source.readFrom_nil
  have accepted : ofSource Dialect.standard labelLine = .ok ⟨#[0],
      [⟨"a", 0, .data⟩, ⟨Symbol.codeStart, 0, .data⟩, ⟨Symbol.codeEnd, 1, .unknown⟩]⟩ := by
    rw [ofSource_eq_ok_iff chosen, read]
    exact ⟨rfl, by cbv⟩
  exact ⟨_, accepted, ofSource_of_within within chosen chosen' accepted, rfl⟩

end Assembly

end Dcpu
