import Dcpu.Assembly
import Dcpu.Proofs.AssembleStatements
import Dcpu.Proofs.EncodeWithin
import Dcpu.Proofs.ReadWithin

set_option autoImplicit false

namespace Dcpu

namespace SymbolTable

theorem lt_of_value {table : SymbolTable} {index : Nat} {value : Word}
    (isOk : table.value index = .ok value) : index < table.size := by
  rw [SymbolTable.value] at isOk
  split at isOk
  · rename_i label found
    rw [target?] at found
    split at found
    · rename_i last resolved
      obtain ⟨steps, reaches⟩ := resolve?_eq_some_iff.1 resolved
      exact reaches.first_lt
    · cases found
  · cases isOk

def setType? (label : Label) (type : SymbolType) : Option Label :=
  -- An alias has no type of its own that could be set.
  if label.isAlias then none else some { label with type }

def classifyLabel? (code : Array Code) (label : Label) : Option Label :=
  if label.isAlias then some label
  else
    match code[label.ownValue.toNat]? with
    | some word => setType? label (typeOfCode word)
    | none => some label

theorem classifyLabel?_eq (code : Array Code) (label : Label) :
    classifyLabel? code label = some (classifyLabel code label) := by
  unfold classifyLabel? classifyLabel
  cases isAlias : label.isAlias with
  | true => rfl
  | false =>
      simp only [Bool.false_eq_true, if_false]
      cases code[label.ownValue.toNat]? with
      | none => rfl
      | some word => simp [setType?, isAlias]

theorem mapM_classifyLabel? (table : SymbolTable) (code : Array Code) :
    table.labels.toList.mapM (classifyLabel? code) = some (table.classify code).labels.toList := by
  have total : classifyLabel? code = fun label => pure (classifyLabel code label) :=
    funext (classifyLabel?_eq code)
  rw [total, List.mapM_pure, classify, Array.toList_map]
  rfl

end SymbolTable

namespace Code

open StatementReader (bind_eq_ok)

/-- A word that refers only to what is there, as do the words it refers to, and so on down to words
that refer to nothing. -/
inductive Resolves (symbols : SymbolTable) (differences : Array Difference) : Code → Prop
  | plain {code : Code} (kind : code.kind = .instruction ∨ code.kind = .literal) :
      Resolves symbols differences code
  | label {code : Code} (kind : code.kind = .label) (within : code.value.toNat < symbols.size) :
      Resolves symbols differences code
  | difference {code : Code} {difference : Difference} (kind : code.kind = .difference)
      (kept : differences[code.value.toNat]? = some difference)
      (target : Resolves symbols differences difference.target)
      (base : Resolves symbols differences difference.base) : Resolves symbols differences code

theorem resolves_of_evaluate {symbols : SymbolTable} {differences : Array Difference} {depth : Nat}
    {code : Code} {value : Word} (isOk : code.evaluate symbols differences depth = .ok value) :
    code.Resolves symbols differences := by
  -- Each difference that is followed takes one off the depth.
  induction depth generalizing code value with
  | zero =>
      rw [evaluate] at isOk
      split at isOk
      · exact .plain (.inl ‹_›)
      · exact .plain (.inr ‹_›)
      · obtain ⟨_, found, _⟩ := bind_eq_ok.1 isOk
        exact .label ‹_› (SymbolTable.lt_of_value found)
      · cases isOk
      · cases isOk
  | succ depth ih =>
      rw [evaluate] at isOk
      split at isOk
      · exact .plain (.inl ‹_›)
      · exact .plain (.inr ‹_›)
      · obtain ⟨_, found, _⟩ := bind_eq_ok.1 isOk
        exact .label ‹_› (SymbolTable.lt_of_value found)
      · split at isOk
        · cases isOk
        · obtain ⟨target, targetOk, isOk⟩ := bind_eq_ok.1 isOk
          obtain ⟨base, baseOk, _⟩ := bind_eq_ok.1 isOk
          exact .difference ‹_› ‹_› (ih targetOk) (ih baseOk)
      · cases isOk

end Code

namespace Program

variable {p q : Program} {rules : ProgramRules} {statements : List Statement}

theorem resolves_of_bounded (represents : Represents rules statements p)
    (sound : rules.Sound statements) (isOk : p.bounded = .ok q) {word : Code}
    (member : word ∈ q.code) :
    word.Resolves (q.symbols.classify q.code) q.differences := by
  have entered := ((bounded_outcome represents).of_eq_ok isOk).2
  -- All words get a value, and getting one means that nothing was missing.
  have settles := represents.settles _ _ (entered.completes represents sound)
  rw [← entered.code] at settles
  obtain ⟨index, within, rfl⟩ := List.getElem_of_mem (Array.mem_toList_iff.2 member)
  exact Code.resolves_of_evaluate (settles.get within (settles.length_eq ▸ within))

end Program

namespace AssemblyRules

theorem chosenLayout_rejects {rules : AssemblyRules} {failure : Failure}
    (fails : rules.chosenLayout = .error failure) : ∃ error, failure = .rejected error := by
  rw [chosenLayout] at fails
  split at fails
  · cases fails
  · split at fails
    · cases fails
    · exact ⟨_, (Except.error.inj fails).symm⟩

end AssemblyRules

namespace Assembly

theorem ofStatements_answers (rules : AssemblyRules) (statements : List Statement) :
    (∃ assembly, ofStatements rules statements = .ok assembly) ∨
      ∃ error, ofStatements rules statements = .error (.rejected error) := by
  cases chosen : rules.chosenLayout with
  | error failure =>
      obtain ⟨error, rfl⟩ := AssemblyRules.chosenLayout_rejects chosen
      refine .inr ⟨error, ?_⟩
      rw [ofStatements, chosen]
      rfl
  | ok layout =>
      cases answer : ofStatements rules statements with
      | ok assembly => exact .inl ⟨assembly, rfl⟩
      | error failure =>
          obtain ⟨error, rfl⟩ := (ofStatements_outcome chosen statements).rejects answer
          exact .inr ⟨error, rfl⟩

theorem ofSource_answers (dialect : Dialect) (text : Text) :
    (∃ assembly, ofSource dialect text = .ok assembly) ∨
      ∃ errors, errors ≠ [] ∧ ofSource dialect text = .error (errors.map .rejected) := by
  rw [ofSource]
  split
  · rename_i some_errors
    exact .inr ⟨_, by simpa using some_errors, rfl⟩
  · split
    · rename_i error _
      exact .inr ⟨[error], by simp, rfl⟩
    · rename_i rules _
      rcases ofStatements_answers rules (Source.read dialect text).statements with
        ⟨assembly, isOk⟩ | ⟨error, isError⟩
      · exact .inl ⟨assembly, by rw [isOk]; rfl⟩
      · exact .inr ⟨[error], by simp, by rw [isError]; rfl⟩

/-- Assembling ends with a program or with at least one mistake in what was assembled, for every text
and for all statements, whatever they leave out. On the way there a line is read within its tokens,
operand codes fit into their fields, a difference refers only to those kept before it, no alias gets
a type of its own, and each word refers, without going round in a circle, to what is there. -/
theorem never_breaches :
    (∀ dialect text, (∃ assembly, ofSource dialect text = .ok assembly) ∨
      ∃ errors, errors ≠ [] ∧ ofSource dialect text = .error (errors.map .rejected)) ∧
    (∀ rules statements, (∃ assembly, ofStatements rules statements = .ok assembly) ∨
      ∃ error, ofStatements rules statements = .error (.rejected error)) ∧
    (∀ (reader : StatementReader) tokens, reader.ReadsWithin tokens) ∧
    (∀ (rules : EncodingRules) (p : Program), rules.EncodesWithin p) ∧
    (∀ (table : SymbolTable) code, table.labels.toList.mapM (SymbolTable.classifyLabel? code) =
      some (table.classify code).labels.toList) ∧
    ∀ (rules : AssemblyRules) layout statements (written final : Program),
      (Program.empty rules.localLabels).writeStatements (rules.encodingRules layout) statements =
        .ok written →
      written.bounded = .ok final →
      ∀ word ∈ final.code,
        word.Resolves (final.symbols.classify final.code) final.differences := by
  refine ⟨ofSource_answers, ofStatements_answers, StatementReader.readsWithin,
    EncodingRules.encodesWithin, SymbolTable.mapM_classifyLabel?, ?_⟩
  intro rules layout statements written final isOk bounded word
  have started := Program.represents_empty (rules.programRules layout)
  obtain ⟨sound, represents⟩ :=
    (Program.writeStatements_outcome started ProgramRules.sound_nil statements).of_eq_ok isOk
  exact Program.resolves_of_bounded represents sound bounded

end Assembly

end Dcpu
