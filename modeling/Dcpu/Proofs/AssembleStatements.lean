import Dcpu.Proofs.AsciiText
import Dcpu.Proofs.FinishProgram

set_option autoImplicit false

namespace Dcpu

namespace AssemblyRules

def programRules (rules : AssemblyRules) (layout : Layout) : ProgramRules where
  toEncodingRules := rules.encodingRules layout
  localLabels := rules.localLabels

end AssemblyRules

namespace ProgramRules

variable {rules : ProgramRules} {statements : List Statement}

structure Acceptable (rules : ProgramRules) (statements : List Statement) : Prop where
  formed : ∀ s ∈ statements, ∀ body ∈ s.body, body.WellFormed rules.toEncodingRules
  labelled : ∀ s ∈ statements, s.isFix = true → s.label.isSome = true
  once : ((rules.definitions statements).map Prod.fst).Nodup
  free : ∀ name ∈ bounds, name ∉ (rules.definitions statements).map Prod.fst
  defined : ∀ name ∈ rules.mentions statements,
    name ∈ (rules.definitions statements).map Prod.fst ∨ name ∈ bounds
  acyclic : ∀ name, ¬ Relation.TransGen (rules.Alias statements) name name
  words_le : (statements.map (Statement.size rules.layout)).sum ≤ addressSpace
  differences_le : (statements.map Statement.differenceCount).sum ≤ addressSpace
  names_le : (rules.mentions statements ++ bounds).dedup.length ≤ addressSpace

theorem acceptable_iff :
    rules.Acceptable statements ↔ rules.Sound statements ∧ rules.Complete statements := by
  constructor
  · intro acceptable
    exact ⟨{
        formed := acceptable.formed
        labelled := acceptable.labelled
        once := acceptable.once
        acyclic := acceptable.acyclic
        words_le := rules.address_behind statements ▸ acceptable.words_le
        differences_le := acceptable.differences_le
        names_le := Nat.le_trans (length_dedup_le (List.subset_append_left _ _))
          acceptable.names_le },
      ⟨acceptable.free, acceptable.defined, acceptable.names_le⟩⟩
  · rintro ⟨sound, complete⟩
    exact {
      formed := sound.formed
      labelled := sound.labelled
      once := sound.once
      free := complete.free
      defined := complete.defined
      acyclic := sound.acyclic
      words_le := rules.address_behind statements ▸ sound.words_le
      differences_le := sound.differences_le
      names_le := complete.names_le }

theorem meaning?_eq_some {s : Statement}
    (formed : ∀ body ∈ s.body, body.WellFormed rules.toEncodingRules) (site : Site) :
    ∃ definition, rules.meaning? site s = some definition := by
  rw [meaning?]
  split
  · rename_i value place fix
    obtain ⟨e, rfl, formed, plain⟩ := formed _ fix
    exact Expression.definition?_eq_some formed plain (rules.qualify site)
  · exact ⟨_, rfl⟩

/-- What an assembled program says about a statement behind others: its label has the value that it
is fixed to or else the address of the statement, and at that address stand its words. -/
structure Renders (rules : ProgramRules) (assembly : Assembly) (before : List Statement)
    (s : Statement) : Prop where
  address : (rules.siteOf before s).address = (before.map (Statement.size rules.layout)).sum
  label : ∀ label ∈ s.label, ∃ definition,
    rules.meaning? (rules.siteOf before s) s = some definition ∧
      assembly.valueOf (rules.qualify (rules.siteOf before s) label.name) =
        definition.valueIn assembly.valueOf
  words : (assembly.image.toList.drop (rules.siteOf before s).address).take (s.size rules.layout) =
    rules.statementWords (rules.siteOf before s) s assembly.valueOf

theorem Describes.size_image {assembly : Assembly} (describes : rules.Describes statements assembly) :
    assembly.image.size = (statements.map (Statement.size rules.layout)).sum := by
  rw [← Array.length_toList, describes.image, length_words, address_behind]

theorem Describes.valueOf_codeStart {assembly : Assembly}
    (describes : rules.Describes statements assembly) : assembly.valueOf Symbol.codeStart = 0 :=
  describes.definitions Symbol.codeStart (.value 0) (by simp [allDefinitions])

theorem Describes.valueOf_codeEnd {assembly : Assembly}
    (describes : rules.Describes statements assembly) :
    assembly.valueOf Symbol.codeEnd = assembly.image.size.toUInt16 := by
  rw [describes.size_image, ← address_behind]
  exact describes.definitions Symbol.codeEnd (.value (rules.behind statements).here)
    (by simp [allDefinitions])

theorem Describes.renders {assembly : Assembly} (describes : rules.Describes statements assembly)
    (formed : ∀ s ∈ statements, ∀ body ∈ s.body, body.WellFormed rules.toEncodingRules)
    {before after : List Statement} {s : Statement} (there : statements = before ++ s :: after) :
    rules.Renders assembly before s := by
  have placed : (rules.siteOf before s, s) ∈ rules.placed statements :=
    rules.mem_placed_iff.2 ⟨before, after, there, rfl⟩
  refine ⟨by rw [address_siteOf, address_behind], fun label labelled => ?_, ?_⟩
  · obtain ⟨definition, means⟩ :=
      meaning?_eq_some (formed s (by simp [there])) (rules.siteOf before s)
    refine ⟨definition, means, describes.definitions _ _ (List.mem_append_left _ ?_)⟩
    refine List.mem_filterMap.2 ⟨_, placed, ?_⟩
    simp [statementDefinition?, Option.mem_def.1 labelled, means]
  · rw [describes.image]
    exact rules.take_drop_words assembly.valueOf placed

end ProgramRules

namespace Assembly

variable {rules : AssemblyRules} {layout : Layout} {statements : List Statement}

def wordsOf (assembly : Assembly) (layout : Layout) (before : List Statement) (s : Statement) :
    List Word :=
  (assembly.image.toList.drop (before.map (Statement.size layout)).sum).take (s.size layout)

theorem wordsOf_eq {rules : ProgramRules} {assembly : Assembly} {before : List Statement}
    {s : Statement} {body : Body} (renders : rules.Renders assembly before s)
    (has : s.body = some body) :
    ∃ env here, assembly.wordsOf rules.layout before s =
      (body.parts rules.layout).map (Part.word env here) := by
  have words := renders.words
  rw [renders.address, ProgramRules.statementWords, Statement.parts, has] at words
  exact ⟨_, _, words⟩

theorem ofStatements_outcome (chosen : rules.chosenLayout = .ok layout)
    (statements : List Statement) :
    Outcome ((rules.programRules layout).Acceptable statements)
      ((rules.programRules layout).Describes statements) (ofStatements rules statements) := by
  have split : ofStatements rules statements =
      (Program.empty rules.localLabels).writeStatements (rules.encodingRules layout) statements >>=
        Program.finish := by
    rw [ofStatements, chosen]
    rfl
  rw [split]
  refine ((Program.writeStatements_outcome (Program.represents_empty (rules.programRules layout))
    ProgramRules.sound_nil statements).bind
    ((rules.programRules layout).Complete statements) ?_).of_iff ProgramRules.acceptable_iff.symm
  intro p sound represents
  exact Program.finish_outcome represents sound

theorem chosenLayout_of_ok {assembly : Assembly}
    (assembled : ofStatements rules statements = .ok assembly) :
    ∃ layout, rules.chosenLayout = .ok layout := by
  cases chosen : rules.chosenLayout with
  | ok layout => exact ⟨layout, rfl⟩
  | error failure =>
      rw [ofStatements, chosen] at assembled
      exact absurd assembled (by simp [bind, Except.bind])

/-- The words of all statements make up the image, each at its address with the values that names
have in the end. -/
theorem ofStatements_renders {assembly : Assembly}
    (assembled : ofStatements rules statements = .ok assembly) :
    ∃ layout, rules.chosenLayout = .ok layout ∧
      assembly.image.size = (statements.map (Statement.size layout)).sum ∧
      (∀ symbol ∈ assembly.symbols, assembly.valueOf symbol.name = symbol.value) ∧
      (∀ name ∈ (rules.programRules layout).mentions statements,
        ∃ symbol ∈ assembly.symbols, symbol.name = name) ∧
      ∀ before s after, statements = before ++ s :: after →
        (rules.programRules layout).Renders assembly before s := by
  obtain ⟨layout, chosen⟩ := chosenLayout_of_ok assembled
  have outcome := ofStatements_outcome chosen statements
  rw [assembled] at outcome
  obtain ⟨acceptable, describes⟩ := outcome.of_ok
  refine ⟨layout, chosen, ?_, describes.values, ?_, ?_⟩
  · rw [← Array.length_toList, describes.image, ProgramRules.length_words,
      ProgramRules.address_behind]
    rfl
  · intro name mentioned
    exact (describes.names name).2 (List.mem_append_left _ mentioned)
  · intro before s after there
    exact describes.renders acceptable.formed there

def sample : List Statement :=
  [⟨some ⟨"start", .nowhere⟩, some (.basic "set" (some (.register "a" .nowhere))
      (some (.literal (some ⟨.identifier "twice" .nowhere, none, .nowhere⟩) .nowhere)) .nowhere),
      .nowhere⟩,
    ⟨some ⟨"twice", .nowhere⟩,
      some (.addressFix (some ⟨.identifier "data" .nowhere, none, .nowhere⟩) .nowhere), .nowhere⟩,
    ⟨some ⟨"data", .nowhere⟩,
      some (.data [some (.word ⟨.number 7 .nowhere, none, .nowhere⟩)] .nowhere), .nowhere⟩]

def sampleRules : AssemblyRules := ⟨false, false, false, false, ⟨0⟩⟩

theorem sample_acceptable : (sampleRules.programRules .v2).Acceptable sample where
  formed := by
    have known : (Layout.v2.basicOpcode? "set").isSome = true := by
      rw [Layout.basicOpcode?, Layout.basicEntry?, Text.lower_eq_self (by decide) (by decide)]
      decide
    have named : (Register.ofName? "a").isSome = true := by
      rw [Register.ofName?, Text.lower_eq_self (by decide) (by decide)]
      decide
    simp [sample, Body.WellFormed, Argument.WellFormed, Expression.WellFormed, Atom.WellFormed,
      Body.DataWellFormed, Expression.isDifference, AssemblyRules.programRules,
      AssemblyRules.encodingRules, known, named, sampleRules]
  labelled := by decide
  once := by decide
  free := by decide
  defined := by decide
  acyclic name cycle := by
    have definitions : (sampleRules.programRules .v2).definitions sample =
      [(("start" : Text), .value 0), (("twice" : Text), .sameAs "data"),
        (("data" : Text), .value 2)] := by decide
    -- There is one alias, so a cycle would start and end with it.
    obtain ⟨_, first, _⟩ := Relation.TransGen.head'_iff.1 cycle
    obtain ⟨_, _, last⟩ := Relation.TransGen.tail'_iff.1 cycle
    rw [ProgramRules.Alias, definitions] at first last
    simp at first last
    exact absurd (first.1.symm.trans last.2) (by decide)
  words_le := by decide
  differences_le := by decide
  names_le := by decide

theorem ofStatements_renders_sample :
    ∃ assembly, ofStatements sampleRules sample = .ok assembly ∧ assembly.image.size = 3 ∧
      assembly.valueOf "twice" = 2 := by
  have chosen : sampleRules.chosenLayout = .ok .v2 := rfl
  obtain ⟨assembly, assembled⟩ := (ofStatements_outcome chosen sample).isOk_iff.2 sample_acceptable
  obtain ⟨layout, chosen', size, _, _, renders⟩ := ofStatements_renders assembled
  obtain rfl : Layout.v2 = layout := Except.ok.inj (chosen.symm.trans chosen')
  have whole (site : Site) (name : Text) : (sampleRules.programRules .v2).qualify site name = name :=
    rfl
  obtain ⟨definition, means, fixed⟩ := (renders [_] _ [_] rfl).label _ rfl
  obtain ⟨definition', means', labelled⟩ := (renders [_, _] _ [] rfl).label _ rfl
  obtain rfl : .sameAs "data" = definition := Option.some.inj means
  obtain rfl : .value 2 = definition' := Option.some.inj means'
  rw [whole] at fixed labelled
  exact ⟨assembly, assembled, size, fixed.trans labelled⟩

/-- Statements are assembled exactly if nothing is wrong with them. -/
theorem exists_ofStatements_iff_acceptable (chosen : rules.chosenLayout = .ok layout) :
    (∃ assembly, ofStatements rules statements = .ok assembly) ↔
      (rules.programRules layout).Acceptable statements :=
  (ofStatements_outcome chosen statements).isOk_iff

theorem exists_ofStatements_iff_acceptable_sample :
    sampleRules.chosenLayout = .ok .v2 ∧ ∃ assembly, ofStatements sampleRules sample = .ok assembly :=
  ⟨rfl, (exists_ofStatements_iff_acceptable rfl).2 sample_acceptable⟩

end Assembly

end Dcpu
