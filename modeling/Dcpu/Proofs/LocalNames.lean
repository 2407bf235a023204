import Dcpu.Proofs.WriteInStep

set_option autoImplicit false

namespace Dcpu

def Text.isDotted (name : Text) : Bool := name.head? == some 0x2e

def Text.whole (owner name : Text) : Text := if name.isDotted then owner ++ name else name

namespace Statement

/-- The label that local names belong to behind these statements: the last that is not local. -/
def owner (statements : List Statement) : Text :=
  (((statements.filterMap label).map LabelDefinition.name).filter (!Text.isDotted ·)).getLast?.getD
    Program.outerScope

def expandAfter (before : List Statement) : List Statement → List Statement
  | [] => []
  | s :: rest => s.mapNames (Text.whole (owner (before ++ [s]))) :: expandAfter (before ++ [s]) rest

/-- The statements with whole names for local ones. A label counts for its own statement. -/
def expand (statements : List Statement) : List Statement := expandAfter [] statements

theorem owner_concat (before : List Statement) (s : Statement) :
    owner (before ++ [s]) =
      match s.label with
      | some label => if label.name.isDotted then owner before else label.name
      | none => owner before := by
  cases labelled : s.label with
  | none => simp [owner, labelled]
  | some label =>
      cases dotted : label.name.isDotted <;> simp [owner, labelled, dotted]

theorem expandAfter_eq_self {before rest : List Statement}
    (plain : ∀ owner, ∀ s ∈ rest, s.mapNames (Text.whole owner) = s) :
    expandAfter before rest = rest := by
  induction rest generalizing before with
  | nil => rfl
  | cons s rest ih =>
      have later : ∀ owner, ∀ s ∈ rest, s.mapNames (Text.whole owner) = s :=
        fun owner s member => plain owner s (List.mem_cons_of_mem _ member)
      rw [expandAfter, plain _ s List.mem_cons_self, ih later]

end Statement

namespace Program

open Statement

variable {p q : Program} {before : List Statement}

def Expanded (owner : Text) (p q : Program) : Prop :=
  ∃ scope, Twin ⟨true, owner⟩ ⟨false, scope⟩ p q

theorem qualify_whole (owner scope name : Text) :
    Naming.qualify ⟨false, scope⟩ (Text.whole owner name) = Naming.qualify ⟨true, owner⟩ name :=
  rfl

theorem define_of_local {label : LabelDefinition} (isLocal : p.isLocal label.name = true) :
    p.define label = p.index (p.scope ++ label.name) label.position := by
  rw [define, if_pos isLocal, qualify, if_pos isLocal]

theorem define_of_not_local {label : LabelDefinition} (global : p.isLocal label.name = false) :
    p.define label = { p with scope := label.name }.index label.name label.position := by
  simp only [define, qualify, global, Bool.false_eq_true, if_false]

theorem define_whole {scope : Text} {label : LabelDefinition} {s : Statement}
    (twin : Twin ⟨true, owner before⟩ ⟨false, scope⟩ p q) (labelled : s.label = some label) :
    Follows False
      (Paired ⟨true, owner (before ++ [s])⟩ ⟨false, Text.whole (owner (before ++ [s])) label.name⟩)
      (p.define label) (q.define (label.mapName (Text.whole (owner (before ++ [s]))))) := by
  have on : p.localLabels = true := congrArg Naming.localLabels twin.naming
  have within : p.scope = owner before := congrArg Naming.scope twin.naming
  have off : q.localLabels = false := congrArg Naming.localLabels twin.naming'
  have isLocal : p.isLocal label.name = label.name.isDotted := by rw [Program.isLocal, on]; rfl
  have owned := owner_concat before s
  rw [labelled] at owned
  dsimp only at owned
  -- In the second program every label opens a scope, but no name is local there.
  rw [define_of_not_local (p := q) (by rw [Program.isLocal, off]; rfl)]
  by_cases dotted : label.name.isDotted = true
  · rw [if_pos dotted] at owned
    rw [define_of_local (isLocal.trans dotted), owned, within, LabelDefinition.mapName, Text.whole,
      if_pos dotted]
    exact (twin.scopeSecond _).index _ _
  · rw [if_neg dotted] at owned
    rw [define_of_not_local (isLocal.trans (Bool.eq_false_iff.2 dotted)), owned,
      LabelDefinition.mapName, Text.whole, if_neg dotted]
    exact ((twin.scopeFirst _).scopeSecond _).index _ _

theorem Expanded.writeStatement (rules : EncodingRules) (s : Statement)
    (expanded : Expanded (owner before) p q) :
    Follows False (Expanded (owner (before ++ [s]))) (p.writeStatement rules s)
      (q.writeStatement rules (s.mapNames (Text.whole (owner (before ++ [s]))))) := by
  obtain ⟨scope, twin⟩ := expanded
  have permits := EncodingRules.Permits.refl False rules
  cases labelled : s.label with
  | none =>
      have kept := owner_concat before s
      rw [labelled] at kept
      rw [kept]
      refine (writeStatement_inStep permits (qualify_whole _ scope) (fun _ => twin) ?_).imp ?_
      · intro label other
        simp [labelled] at other
      · exact fun _ _ twin => ⟨scope, twin⟩
  | some label =>
      let scope' := Text.whole (owner (before ++ [s])) label.name
      refine (writeStatement_inStep permits (qualify_whole _ scope') ?_ ?_).imp ?_
      · simp [labelled]
      · intro label' there
        obtain rfl : label = label' := Option.some.inj (labelled.symm.trans there)
        exact define_whole twin labelled
      · exact fun _ _ twin => ⟨scope', twin⟩

theorem Expanded.writeStatements (rules : EncodingRules) (rest : List Statement)
    (expanded : Expanded (owner before) p q) :
    Follows False (Expanded (owner (before ++ rest))) (p.writeStatements rules rest)
      (q.writeStatements rules (expandAfter before rest)) := by
  -- The owner grows with the statements that are done, so those are generalized too.
  induction rest generalizing before p q with
  | nil =>
      rw [List.append_nil]
      exact .ok expanded
  | cons s rest ih =>
      rw [expandAfter, writeStatements_cons, writeStatements_cons, List.append_cons]
      exact (expanded.writeStatement rules s).bind fun _ _ expanded => ih expanded

theorem expanded_empty : Expanded (owner []) (empty true) (empty false) :=
  ⟨outerScope, rfl, rfl, rfl, rfl, rfl⟩

theorem assemble_expand (rules : EncodingRules) (statements : List Statement) :
    ((empty true).writeStatements rules statements >>= finish) =
      ((empty false).writeStatements rules (expand statements) >>= finish) := by
  apply Follows.eq
  apply (expanded_empty.writeStatements rules statements).bind
  rintro p q ⟨scope, twin⟩
  exact twin.finish

theorem assemble_of_plain (rules : EncodingRules) {statements : List Statement}
    (plain : ∀ owner, ∀ s ∈ statements, s.mapNames (Text.whole owner) = s) :
    ((empty true).writeStatements rules statements >>= finish) =
      ((empty false).writeStatements rules statements >>= finish) := by
  rw [assemble_expand, Statement.expand, Statement.expandAfter_eq_self plain]

end Program

/-- Local labels only abbreviate: a program in which every local name is written out is assembled
into the same words and labels without them, or rejected with the same error. -/
theorem Assembly.ofStatements_expand (rules : AssemblyRules) (statements : List Statement) :
    ofStatements { rules with localLabels := true } statements =
      ofStatements { rules with localLabels := false } (Statement.expand statements) := by
  change rules.chosenLayout >>= _ = rules.chosenLayout >>= _
  apply bind_congr
  intro layout
  exact Program.assemble_expand (rules.encodingRules layout) statements

-- The own label of a statement counts for what it is fixed to.
example :
    let fix (label target : Text) : Statement :=
      ⟨some ⟨label, .nowhere⟩,
        some (.addressFix (some ⟨.identifier target .nowhere, none, .nowhere⟩) .nowhere), .nowhere⟩
    Statement.expand [fix ".a" "main", fix "main" ".b", fix ".b" ".a"] =
      [fix "__GLOBAL__.a" "main", fix "main" "main.b", fix "main.b" "main.a"] := by
  decide

end Dcpu
