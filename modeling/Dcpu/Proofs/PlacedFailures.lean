import Dcpu.Proofs.PlacedEncoding

set_option autoImplicit false

namespace Dcpu

open Failure (Reports)

namespace Program

variable {P : Position → Prop} {p : Program} {position : Position}

theorem define_reports {label : LabelDefinition} (used : p.symbols.UsedAt P)
    (place : P label.position) :
    Reports P (fun done => done.2.symbols.UsedAt P) (p.define label) := by
  rw [define]
  split
  · exact index_reports used _ place
  · exact index_reports (by exact used) _ place

theorem fixValue_reports (used : p.symbols.UsedAt P) (index : Nat) (value : Word)
    (place : P position) :
    Reports P (fun q => q.symbols.UsedAt P) (p.fixValue index value position) := by
  have answers := SymbolTable.fixValue_answers used index value place
  rw [fixValue]
  generalize p.symbols.fixValue index value position = fixed at answers
  cases answers with
  | ok used => exact .ok used
  | error place => exact .error place

theorem fixAlias_reports (used : p.symbols.UsedAt P) (index target : Nat) (place : P position) :
    Reports P (fun q => q.symbols.UsedAt P) (p.fixAlias index target position) := by
  have answers := SymbolTable.fixAlias_answers used index target place
  rw [fixAlias]
  generalize p.symbols.fixAlias index target position = fixed at answers
  cases answers with
  | ok used => exact .ok used
  | error place => exact .error place

variable (rules : EncodingRules)

theorem fixAddress_reports (nowhere : P .nowhere) (used : p.symbols.UsedAt P) (index : Nat)
    {value : Option Expression} {at_ : Position} (placed : ∀ e ∈ value, e.Placed P)
    (placeValue : P at_) (place : P position) :
    Reports P (fun q => q.symbols.UsedAt P) (p.fixAddress rules index value at_ position) := by
  refine (rules.expression_places nowhere placed p used).bind fun done used => ?_
  dsimp only
  split
  · exact fixValue_reports used _ _ place
  · exact fixAlias_reports used _ _ place
  · exact .error (Failure.at_located placeValue)
  · exact .error (Failure.at_located placeValue)

theorem writeBody?_reports (nowhere : P .nowhere) (used : p.symbols.UsedAt P) {body : Option Body}
    (placed : ∀ b ∈ body, b.Placed P) (place : P position) :
    Reports P (fun q => q.symbols.UsedAt P) (p.writeBody? rules body position) := by
  cases body with
  | none => exact .ok used
  | some body =>
      refine (rules.body_places nowhere placed p used).bind fun done used => ?_
      dsimp only
      split
      · exact .error (Failure.at_located place)
      · exact .ok used

theorem writeStatement_reports (nowhere : P .nowhere) (used : p.symbols.UsedAt P) {s : Statement}
    (placed : s.Placed P) :
    Reports P (fun q => q.symbols.UsedAt P) (p.writeStatement rules s) := by
  obtain ⟨place, placeLabel, placedBody⟩ := placed
  obtain ⟨label, body, position⟩ := s
  rw [writeStatement.eq_def]
  dsimp only at place placeLabel placedBody ⊢
  split
  · exact .error (Failure.at_located (placedBody _ rfl).1)
  · exact writeBody?_reports rules nowhere used placedBody place
  · refine (define_reports used (placeLabel _ rfl)).bind fun done used => ?_
    exact fixAddress_reports rules nowhere used _ (placedBody _ rfl).2 (placedBody _ rfl).1
      (placeLabel _ rfl)
  · refine (define_reports used (placeLabel _ rfl)).bind fun done used => ?_
    refine (fixValue_reports used _ _ (placeLabel _ rfl)).bind fun q used => ?_
    exact writeBody?_reports rules nowhere used placedBody place

theorem writeStatements_reports (nowhere : P .nowhere) (used : p.symbols.UsedAt P)
    {statements : List Statement} (placed : ∀ s ∈ statements, s.Placed P) :
    Reports P (fun q => q.symbols.UsedAt P) (p.writeStatements rules statements) := by
  induction statements generalizing p with
  | nil => exact .ok used
  | cons s rest ih =>
      obtain ⟨placedFirst, placedRest⟩ := List.forall_mem_cons.1 placed
      have reports := writeStatement_reports rules nowhere used placedFirst
      rw [writeStatements]
      generalize p.writeStatement rules s = written at reports
      cases reports with
      | ok used => exact ih used placedRest
      | error place => exact .error place

theorem fixBound_reports (nowhere : P .nowhere) (used : p.symbols.UsedAt P) (name : Text)
    (value : Word) : Reports P (fun q => q.symbols.UsedAt P) (p.fixBound name value) :=
  (index_reports used name nowhere).bind fun _ used => fixValue_reports used _ value nowhere

theorem finish_reports (nowhere : P .nowhere) (used : p.symbols.UsedAt P) :
    Reports P (fun _ => True) p.finish := by
  -- The bounds of the code are defined last and nowhere, so they may also be seen there first.
  refine (fixBound_reports nowhere used _ _).bind fun q used => ?_
  refine (fixBound_reports nowhere used _ _).bind fun q used => ?_
  dsimp only
  split
  · exact .error (Failure.at_located (SymbolTable.position_of_validate used ‹_›))
  · split
    · exact .error (Failure.at_breach _)
    · exact .ok trivial

end Program

theorem AssemblyRules.chosenLayout_reports {P : Position → Prop} (rules : AssemblyRules) :
    Reports P (fun _ => True) rules.chosenLayout := by
  rw [chosenLayout]
  split
  · exact .ok trivial
  · split
    · exact .ok trivial
    · refine .error ?_
      rintro p ⟨⟩

theorem Assembly.ofStatements_reports {P : Position → Prop} (nowhere : P .nowhere)
    (rules : AssemblyRules) {statements : List Statement}
    (placed : ∀ s ∈ statements, s.Placed P) :
    Reports P (fun _ => True) (ofStatements rules statements) := by
  have empty : (Program.empty rules.localLabels).symbols.UsedAt P := fun label member =>
    absurd member (Array.not_mem_empty label)
  refine rules.chosenLayout_reports.bind fun layout _ => ?_
  refine (Program.writeStatements_reports _ nowhere empty placed).bind fun q used => ?_
  exact Program.finish_reports nowhere used

end Dcpu
