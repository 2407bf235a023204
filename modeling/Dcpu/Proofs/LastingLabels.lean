import Dcpu.Proofs.SymbolHistory

set_option autoImplicit false

namespace Dcpu

namespace SymbolCall

def defines? : SymbolCall → Option (Nat × Position)
  | .fixValue index _ position | .fixAlias index _ position => some (index, position)
  | .lookup .. | .validate | .classify _ => none

end SymbolCall

namespace SymbolTable

variable {table table' : SymbolTable} {index steps last : Nat} {label final : Label}
  {position : Position} {c : SymbolCall}

section Step

@[simp] theorem defined_classifyLabel (code : Array Code) (label : Label) :
    (classifyLabel code label).defined = label.defined := by
  unfold classifyLabel
  split
  · rfl
  · split <;> rfl

theorem call_of_defined (found : table.labels[index]? = some label)
    (isDefined : label.isDefined = true) (defines : c.defines? = some (index, position)) :
    table.call c =
      (.error (.located ⟨position, .duplicateLabel label.name label.defined⟩), table) := by
  have refused : table.openLabel index position =
      .error (.located ⟨position, .duplicateLabel label.name label.defined⟩) := by
    simp only [openLabel, found, isDefined, if_true]
  cases c with
  | fixValue index' value position' =>
      obtain ⟨rfl, rfl⟩ := Prod.mk.inj (Option.some.inj defines)
      simp only [call, fixValue, refused]
  | fixAlias index' target position' =>
      obtain ⟨rfl, rfl⟩ := Prod.mk.inj (Option.some.inj defines)
      simp only [call, fixAlias, refused]
  | _ => contradiction

theorem openLabel_eq_ok_iff :
    table.openLabel index position = .ok label ↔
      table.labels[index]? = some label ∧ label.isDefined = false := by
  rw [openLabel]
  cases table.labels[index]? with
  | none => simp
  | some other =>
      dsimp only
      by_cases isDefined : other.isDefined = true
      · rw [if_pos isDefined]
        simp only [reduceCtorEq, Option.some.injEq, false_iff, not_and]
        rintro rfl
        simp [isDefined]
      · rw [if_neg isDefined, Except.ok.injEq, Option.some.injEq, iff_self_and]
        rintro rfl
        simpa using isDefined

theorem define_of_call (defines : c.defines? = some (index, position))
    (isOk : (table.call c).1 = .ok ()) :
    ∃ label binding, table.labels[index]? = some label ∧ label.isDefined = false ∧
      binding ≠ .unbound ∧ table.after c = table.define index binding position := by
  -- Only two calls define a label, and both want it open.
  cases c with
  | fixValue index' value position' =>
      obtain ⟨rfl, rfl⟩ := Prod.mk.inj (Option.some.inj defines)
      rw [after]
      simp only [call, fixValue] at isOk ⊢
      cases opened : table.openLabel index' position' with
      | error failure => simp [opened] at isOk
      | ok label =>
          obtain ⟨found, isOpen⟩ := openLabel_eq_ok_iff.1 opened
          exact ⟨label, .value value, found, isOpen, by simp, rfl⟩
  | fixAlias index' target position' =>
      obtain ⟨rfl, rfl⟩ := Prod.mk.inj (Option.some.inj defines)
      rw [after]
      simp only [call, fixAlias] at isOk ⊢
      cases opened : table.openLabel index' position' with
      | error failure => simp [opened] at isOk
      | ok label =>
          obtain ⟨found, isOpen⟩ := openLabel_eq_ok_iff.1 opened
          cases refused : table.aliasFailure? index' target label position' with
          | some failure => simp [opened, refused] at isOk
          | none =>
              refine ⟨label, .alias target, found, isOpen, by simp, ?_⟩
              simp only [refused]
  | _ => contradiction

theorem labels_after (valid : table.Valid) (other : c.defines? = none)
    (found : table.labels[index]? = some label) :
    ∃ later, (table.after c).labels[index]? = some later ∧ later.name = label.name ∧
      later.binding = label.binding ∧ later.defined = label.defined := by
  cases c with
  | lookup name position =>
      refine ⟨label, ?_, rfl, rfl, rfl⟩
      rcases after_lookup valid name position with ⟨made, _⟩ | ⟨same, _⟩
      · rw [made]
        exact labels_note found
      · rwa [same]
  | validate => exact ⟨label, by rwa [after_validate], rfl, rfl, rfl⟩
  | classify code =>
      refine ⟨classifyLabel code label, ?_, by simp, by simp, by simp⟩
      change (table.classify code).labels[index]? = _
      rw [labels_classify, found, Option.map_some]
  | _ => contradiction

theorem isDefined_of_new (valid : table.Valid) (other : c.defines? = none)
    (missing : table.labels[index]? = none) (found : (table.after c).labels[index]? = some label) :
    label.isDefined = false := by
  -- Only asking for a name makes labels, and those are fresh.
  cases c with
  | lookup name position =>
      rcases after_lookup valid name position with ⟨made, _⟩ | ⟨same, _⟩
      · rw [made, note] at found
        split at found
        · simp [missing] at found
        · rw [Array.getElem?_push, missing] at found
          split at found
          · obtain rfl := Option.some.inj found
            rfl
          · cases found
      · simp [same, missing] at found
  | validate => simp [after_validate, missing] at found
  | classify code =>
      change (table.classify code).labels[index]? = _ at found
      simp [labels_classify, missing] at found
  | _ => contradiction

end Step

section Lasting

/-- Labels keep their names, and those that are defined also what they are defined to be. -/
def Lasts (table table' : SymbolTable) : Prop :=
  ∀ (index : Nat) (label : Label), table.labels[index]? = some label →
    ∃ later, table'.labels[index]? = some later ∧ later.name = label.name ∧
      (label.isDefined = true → later.binding = label.binding ∧ later.defined = label.defined)

theorem Lasts.refl (table : SymbolTable) : table.Lasts table :=
  fun _ label found => ⟨label, found, rfl, fun _ => ⟨rfl, rfl⟩⟩

theorem isDefined_congr {later : Label} (same : later.binding = label.binding) :
    later.isDefined = label.isDefined := by
  simp only [Label.isDefined, Label.isFixed, Label.isAlias, same]

theorem Lasts.trans {table'' : SymbolTable} (first : table.Lasts table')
    (second : table'.Lasts table'') : table.Lasts table'' := by
  intro index label found
  obtain ⟨next, found', named, kept⟩ := first index label found
  obtain ⟨later, found'', named', kept'⟩ := second index next found'
  refine ⟨later, found'', named'.trans named, fun isDefined => ?_⟩
  obtain ⟨binding, position⟩ := kept isDefined
  obtain ⟨binding', position'⟩ := kept' ((isDefined_congr binding).trans isDefined)
  exact ⟨binding'.trans binding, position'.trans position⟩

theorem lasts_define {binding : Binding} (found : table.labels[index]? = some label)
    (isOpen : label.isDefined = false) : table.Lasts (table.define index binding position) := by
  intro other label' found'
  by_cases same : index = other
  · subst same
    obtain rfl := Option.some.inj (found.symm.trans found')
    exact ⟨_, labels_define_self found, rfl, fun isDefined => by simp [isOpen] at isDefined⟩
  · exact ⟨label', by rwa [labels_define_other same], rfl, fun _ => ⟨rfl, rfl⟩⟩

theorem lasts_after (valid : table.Valid) (c : SymbolCall) : table.Lasts (table.after c) := by
  cases defines : c.defines? with
  | none =>
      intro index label found
      obtain ⟨later, found', named, binding, position⟩ := labels_after valid defines found
      exact ⟨later, found', named, fun _ => ⟨binding, position⟩⟩
  | some target =>
      cases made : (table.call c).1 with
      | error failure =>
          rw [after_of_error made]
          exact .refl table
      | ok =>
          obtain ⟨label, binding, found, isOpen, _, same⟩ := define_of_call defines made
          rw [same]
          exact lasts_define found isOpen

theorem lasts_history (calls more : List SymbolCall) :
    (history calls).Lasts (history (calls ++ more)) := by
  -- By the last call, so that the table before it is one that calls have made, and valid.
  induction more using List.reverseRecOn with
  | nil =>
      rw [List.append_nil]
      exact .refl _
  | append_singleton more c ih =>
      rw [← List.append_assoc, history_concat]
      exact ih.trans (lasts_after (history_valid _) c)

theorem Lasts.reaches (lasts : table.Lasts table') (reaches : Reaches table.labels index steps last)
    (found : table.labels[last]? = some final) (fixed : final.isFixed = true) :
    Reaches table'.labels index steps last := by
  -- A chain that ends at a value is made of defined labels only, so none of its links changes.
  induction reaches with
  | here found' ends =>
      obtain rfl := Option.some.inj (found'.symm.trans found)
      obtain ⟨later, there, _, kept⟩ := lasts _ _ found
      obtain ⟨binding, _⟩ := kept (by simp [Label.isDefined, fixed])
      exact .here there (by simpa [Label.isAlias, binding] using ends)
  | next found' goes _ ih =>
      obtain ⟨later, there, _, kept⟩ := lasts _ _ found'
      obtain ⟨binding, _⟩ := kept (by simp [Label.isDefined, Label.isAlias, goes])
      exact .next there (binding.trans goes) (ih found)

structure Tells (table : SymbolTable) (index : Nat) (name : Text) (defined : Position)
    (value : Word) : Prop where
  label : ∃ label, table.labels[index]? = some label ∧ label.name = name ∧ label.defined = defined
  fixed : table.isFixed index = true
  value : table.value index = .ok value

theorem tells_of_reaches (reaches : Reaches table.labels index steps last)
    (found : table.labels[index]? = some label) (ended : table.labels[last]? = some final)
    (fixed : final.isFixed = true) :
    table.Tells index label.name label.defined final.ownValue := by
  have target : table.target? index = some final := by
    simp only [target?, resolve?_eq_some_iff.2 ⟨steps, reaches⟩, ended]
  exact {
    label := ⟨label, found, rfl, rfl⟩
    fixed := by simp only [isFixed, target, fixed]
    value := by simp only [SymbolTable.value, target] }

theorem isDefined_of_reaches (reaches : Reaches table.labels index steps last)
    (found : table.labels[index]? = some label) (ended : table.labels[last]? = some final)
    (fixed : final.isFixed = true) : label.isDefined = true := by
  cases reaches with
  | here _ _ =>
      obtain rfl := Option.some.inj (found.symm.trans ended)
      simp [Label.isDefined, fixed]
  | next found' goes _ =>
      obtain rfl := Option.some.inj (found.symm.trans found')
      simp [Label.isDefined, Label.isAlias, goes]

theorem Lasts.tells (lasts : table.Lasts table') (reaches : Reaches table.labels index steps last)
    (found : table.labels[index]? = some label) (ended : table.labels[last]? = some final)
    (fixed : final.isFixed = true) :
    table'.Tells index label.name label.defined final.ownValue := by
  obtain ⟨later, found', named, kept⟩ := lasts index label found
  obtain ⟨final', ended', _, kept'⟩ := lasts last final ended
  obtain ⟨_, position⟩ := kept (isDefined_of_reaches reaches found ended fixed)
  obtain ⟨binding, _⟩ := kept' (by simp [Label.isDefined, fixed])
  have tells := tells_of_reaches (lasts.reaches reaches ended fixed) found' ended'
    (by simpa only [Label.isFixed, binding] using fixed)
  rw [named, position] at tells
  simpa only [Label.ownValue, binding] using tells

end Lasting

section Once

def definedBy? (table : SymbolTable) (index : Nat) (c : SymbolCall) : Option Position :=
  match c.defines?, (table.call c).1 with
  | some (target, position), .ok _ => if target = index then some position else none
  | _, _ => none

def definitionsFrom (table : SymbolTable) (index : Nat) : List SymbolCall → List Position
  | [] => []
  | c :: rest =>
      (table.definedBy? index c).toList ++ definitionsFrom (table.after c) index rest

theorem definitionsFrom_concat (table : SymbolTable) (index : Nat) (calls : List SymbolCall)
    (c : SymbolCall) :
    table.definitionsFrom index (calls ++ [c]) =
      table.definitionsFrom index calls ++
        ((calls.foldl after table).definedBy? index c).toList := by
  induction calls generalizing table with
  | nil => simp [definitionsFrom]
  | cons first rest ih =>
      rw [List.cons_append, definitionsFrom, ih, definitionsFrom, List.append_assoc]
      rfl

def definedAt? (table : SymbolTable) (index : Nat) : Option Position :=
  ((table.labels[index]?).filter Label.isDefined).map Label.defined

theorem definedAt?_eq_some_iff :
    table.definedAt? index = some position ↔
      ∃ label, table.labels[index]? = some label ∧ label.isDefined = true ∧
        label.defined = position := by
  simp [definedAt?, Option.filter_eq_some_iff, and_assoc]

theorem definedAt?_of_other (valid : table.Valid) (other : c.defines? = none) :
    (table.after c).definedAt? index = table.definedAt? index := by
  cases found : table.labels[index]? with
  | some label =>
      obtain ⟨later, found', _, binding, position⟩ := labels_after valid other found
      simp only [definedAt?, found, found', Option.filter_some, isDefined_congr binding]
      split <;> simp [position]
  | none =>
      cases found' : (table.after c).labels[index]? with
      | none => simp [definedAt?, found, found']
      | some label => simp [definedAt?, found, found', isDefined_of_new valid other found found']

theorem definedAt?_after (valid : table.Valid) (index : Nat) (c : SymbolCall) :
    ((table.after c).definedAt? index).toList =
      (table.definedAt? index).toList ++ (table.definedBy? index c).toList := by
  -- At most one of the two is there: a definition is accepted only where none was.
  cases defines : c.defines? with
  | none => simp [definedAt?_of_other valid defines, definedBy?, defines]
  | some attempt =>
      obtain ⟨target, position⟩ := attempt
      cases made : (table.call c).1 with
      | error failure => simp [after_of_error made, definedBy?, defines, made]
      | ok =>
          obtain ⟨label, binding, found, isOpen, bound, after⟩ := define_of_call defines made
          rw [after]
          by_cases same : target = index
          · subst same
            have isDefined :
                ({ label with binding, defined := position } : Label).isDefined = true := by
              cases binding <;> simp_all [Label.isDefined, Label.isFixed, Label.isAlias]
            simp [definedBy?, defines, made, definedAt?, labels_define_self found, found, isOpen,
              Option.filter_some, isDefined]
          · simp [definedBy?, defines, made, definedAt?, labels_define_other same, same]

def definitionsOf (index : Nat) (calls : List SymbolCall) : List Position :=
  empty.definitionsFrom index calls

theorem definitionsOf_eq (index : Nat) (calls : List SymbolCall) :
    definitionsOf index calls = ((history calls).definedAt? index).toList := by
  induction calls using List.reverseRecOn with
  | nil => simp [definitionsOf, definitionsFrom, history, definedAt?, empty]
  | append_singleton calls c ih =>
      rw [definitionsOf] at ih ⊢
      rw [definitionsFrom_concat, ih, history_concat, definedAt?_after (history_valid calls)]
      rfl

end Once

structure Lasting (calls more : List SymbolCall) : Prop where
  resolved : ∀ index last final, Relation.ReflTransGen (history calls).Forwards index last →
    (history calls).labels[last]? = some final → final.isFixed = true →
      ∃ name defined, (history calls).Tells index name defined final.ownValue ∧
        (history (calls ++ more)).Tells index name defined final.ownValue
  once : ∀ index, (definitionsOf index calls).length ≤ 1
  refused : ∀ index first c position, first ∈ definitionsOf index calls →
    c.defines? = some (index, position) →
      ∃ label, (history (calls ++ more)).labels[index]? = some label ∧
        (history (calls ++ more)).call c =
          (.error (.located ⟨position, .duplicateLabel label.name first⟩), history (calls ++ more))
  accepted : ∀ index value position, index < (history calls).size → definitionsOf index calls = [] →
    ∃ table, (history calls).call (.fixValue index value position) = (.ok (), table)

/-- A label that has a value keeps it, and none is defined twice. -/
theorem history_lasting (calls more : List SymbolCall) : Lasting calls more where
  resolved index last final chain ended fixed := by
    -- A label with a value of its own is no alias.
    have ends : final.isAlias = false := by
      unfold Label.isFixed at fixed
      split at fixed
      · simp [Label.isAlias, *]
      · cases fixed
    obtain ⟨steps, reaches⟩ := reaches_of_forwards ended ends chain
    obtain ⟨label, found⟩ := reaches.first_found
    exact ⟨_, _, tells_of_reaches reaches found ended fixed,
      (lasts_history calls more).tells reaches found ended fixed⟩
  once index := by
    rw [definitionsOf_eq]
    cases (history calls).definedAt? index <;> simp
  refused index first c position member defines := by
    rw [definitionsOf_eq, Option.mem_toList, definedAt?_eq_some_iff] at member
    obtain ⟨label, found, isDefined, rfl⟩ := member
    obtain ⟨later, found', named, kept⟩ := lasts_history calls more index label found
    obtain ⟨binding, position'⟩ := kept isDefined
    refine ⟨later, found', ?_⟩
    rw [← position']
    exact call_of_defined found' ((isDefined_congr binding).trans isDefined) defines
  accepted index value position within none_yet := by
    rw [definitionsOf_eq, Option.toList_eq_nil_iff] at none_yet
    have found : (history calls).labels[index]? = some (history calls).labels[index] :=
      Array.getElem?_eq_getElem within
    have isOpen : (history calls).labels[index].isDefined = false := by
      simpa [definedAt?, found, Option.filter_some] using none_yet
    have opened : (history calls).openLabel index position = .ok (history calls).labels[index] :=
      openLabel_eq_ok_iff.2 ⟨found, isOpen⟩
    exact ⟨_, by simp only [call, fixValue, opened]; rfl⟩

def aliased : List SymbolCall :=
  [.lookup "first" ⟨1, 1, 1, 1, 1⟩, .lookup "second" ⟨1, 2, 1, 1, 1⟩,
    .fixAlias 0 1 ⟨2, 1, 1, 1, 1⟩, .fixValue 1 7 ⟨3, 1, 1, 1, 1⟩]

theorem labels_aliased :
    (history aliased).labels[0]? =
      some ⟨"first", ⟨1, 1, 1, 1, 1⟩, ⟨2, 1, 1, 1, 1⟩, .alias 1, .unknown⟩ ∧
    (history aliased).labels[1]? =
      some ⟨"second", ⟨1, 2, 1, 1, 1⟩, ⟨3, 1, 1, 1, 1⟩, .value 7, .unknown⟩ := by
  have other : ("first" : Text) ≠ "second" := by decide
  simp [history, aliased, after, call, lookup, empty, size, addressSpace, fixAlias, fixValue,
    openLabel, aliasFailure?, resolve?, resolveWithin, labels_define, Label.isDefined,
    Label.isFixed, Label.isAlias, other]

theorem history_lasting_aliased :
    (∃ name defined, (history aliased).Tells 0 name defined 7 ∧
      (history (aliased ++ [.fixValue 0 9 .nowhere, .classify #[]])).Tells 0 name defined 7) ∧
    ∃ label, (history aliased).call (.fixValue 0 9 .nowhere) =
      (.error (.located ⟨.nowhere, .duplicateLabel label ⟨2, 1, 1, 1, 1⟩⟩), history aliased) := by
  obtain ⟨first, second⟩ := labels_aliased
  have chain : Relation.ReflTransGen (history aliased).Forwards 0 1 := .single ⟨_, first, rfl⟩
  have member : ⟨2, 1, 1, 1, 1⟩ ∈ definitionsOf 0 aliased := by
    rw [definitionsOf_eq, Option.mem_toList, definedAt?_eq_some_iff]
    exact ⟨_, first, rfl, rfl⟩
  have lasting := history_lasting aliased [.fixValue 0 9 .nowhere, .classify #[]]
  obtain ⟨label, _, refused⟩ :=
    (history_lasting aliased []).refused 0 _ (.fixValue 0 9 .nowhere) .nowhere member rfl
  rw [List.append_nil] at refused
  exact ⟨lasting.resolved 0 1 _ chain second rfl, label.name, refused⟩

end SymbolTable

end Dcpu
