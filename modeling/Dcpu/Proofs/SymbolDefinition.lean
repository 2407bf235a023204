import Dcpu.Proofs.SymbolTable

set_option autoImplicit false

namespace Dcpu

namespace SymbolTable

section Define

variable {table : SymbolTable} {index : Nat} {label : Label} {binding : Binding}
  {position : Position}

theorem labels_define (other : Nat) :
    (table.define index binding position).labels[other]? =
      if index = other then
        (table.labels[other]?).map fun l => { l with binding, defined := position }
      else table.labels[other]? := by
  simp [define, Array.getElem?_modify]

theorem labels_define_self (there : table.labels[index]? = some label) :
    (table.define index binding position).labels[index]? =
      some { label with binding, defined := position } := by
  simp [labels_define, there]

theorem labels_define_other {other : Nat} (distinct : index ≠ other) :
    (table.define index binding position).labels[other]? = table.labels[other]? := by
  simp [labels_define, distinct]

theorem size_define : (table.define index binding position).size = table.size := by
  simp [define, size]

theorem meaning_define (other : Binding) :
    meaning (table.define index binding position).labels other = meaning table.labels other := by
  cases other with
  | unbound => rfl
  | value _ => rfl
  | «alias» target =>
      simp only [meaning, labels_define]
      split
      · cases table.labels[target]? <;> rfl
      · rfl

namespace Reaches

variable {start steps last : Nat}

theorem define_other (reaches : Reaches table.labels start steps last)
    (there : table.labels[index]? = some label) (isOpen : label.isAlias = false)
    (distinct : index ≠ last) :
    Reaches (table.define index binding position).labels start steps last := by
  -- A chain that does not end at an open label does not pass it.
  induction reaches with
  | here found ends => exact .here (by rwa [labels_define_other distinct]) ends
  | @next start target steps last label' found goes _ ih =>
      have passed : index ≠ start := by
        rintro rfl
        exact binding_ne_alias there isOpen found target goes
      exact .next (by rwa [labels_define_other passed]) goes (ih distinct)

theorem define_self {final : Nat} (reaches : Reaches table.labels start steps final)
    (ended : final = index) (there : table.labels[index]? = some label)
    (isOpen : label.isAlias = false) {steps' : Nat}
    (goesOn : Reaches (table.define index binding position).labels index steps' last) :
    ∃ steps'', Reaches (table.define index binding position).labels start steps'' last := by
  induction reaches with
  | here _ _ => exact ⟨steps', ended ▸ goesOn⟩
  | @next start target steps final label' found goes _ ih =>
      obtain ⟨steps'', rest⟩ := ih ended
      have passed : index ≠ start := by
        rintro rfl
        exact binding_ne_alias there isOpen found target goes
      exact ⟨steps'' + 1, .next (by rwa [labels_define_other passed]) goes rest⟩

end Reaches

theorem define_valid (valid : table.Valid) (there : table.labels[index]? = some label)
    (isOpen : label.isAlias = false) {steps last : Nat}
    (goesOn : Reaches (table.define index binding position).labels index steps last) :
    (table.define index binding position).Valid := by
  refine ⟨fun name other => ?_, by simpa [size_define] using valid.size_le, fun other within => ?_⟩
  · rw [show (table.define index binding position).names = table.names from rfl, valid.names,
      labels_define]
    split
    · cases table.labels[other]? <;> simp
    · rfl
  · rw [size_define] at within
    obtain ⟨steps', last', reaches⟩ := valid.ends other within
    -- Only a chain that ended at the defined label goes on from there.
    by_cases ended : last' = index
    · obtain ⟨steps'', reaches'⟩ := reaches.define_self ended there isOpen goesOn
      exact ⟨steps'', last, reaches'⟩
    · exact ⟨steps', last', reaches.define_other there isOpen (Ne.symm ended)⟩

theorem definition?_define (valid : table.Valid) {name : Text}
    (found : table.names[name]? = some index) (other : Text) :
    (table.define index binding position).definition? other =
      if other = name then meaning table.labels binding else table.definition? other := by
  obtain ⟨label, there, named⟩ := (valid.names _ _).1 found
  have names : (table.define index binding position).names = table.names := rfl
  by_cases same : other = name
  · subst same
    simp only [definition?, names, found, Option.bind_some, labels_define_self there,
      meaning_define, if_true]
  · cases found' : table.names[other]? with
    | none => simp only [definition?, names, found', same, if_false, Option.bind_none]
    | some index' =>
        have distinct : index ≠ index' := by
          rintro rfl
          obtain ⟨label', there', named'⟩ := (valid.names _ _).1 found'
          obtain rfl := Option.some.inj (there.symm.trans there')
          exact same (named'.symm.trans named)
        simp only [definition?, names, found', same, if_false, Option.bind_some,
          labels_define_other distinct, meaning_define]

end Define

section Fix

variable {table : SymbolTable} {name : Text} {index : Nat} {position : Position}

theorem openLabel_cases (valid : table.Valid) (found : table.names[name]? = some index)
    (position : Position) :
    (∃ label, table.openLabel index position = .ok label ∧ table.labels[index]? = some label ∧
      label.isAlias = false ∧ table.definition? name = none) ∨
    (∃ diagnostic, table.openLabel index position = .error (.located diagnostic) ∧
      table.definition? name ≠ none) := by
  obtain ⟨label, there, named⟩ := (valid.names _ _).1 found
  have known : table.definition? name = none ↔ label.isDefined = false := by
    rw [← named, valid.definition?_eq there, meaning_eq_none_iff valid there]
  cases isDefined : label.isDefined with
  | true =>
      refine .inr ⟨⟨position, .duplicateLabel label.name label.defined⟩, ?_, ?_⟩
      · simp [openLabel, there, isDefined]
      · simp [known, isDefined]
  | false =>
      have parts : label.isFixed = false ∧ label.isAlias = false := by
        simpa [Label.isDefined] using isDefined
      exact .inl ⟨label, by simp [openLabel, there, isDefined], there, parts.2, known.2 isDefined⟩

theorem fixValue_cases (valid : table.Valid) (found : table.names[name]? = some index)
    (value : Word) (position : Position) :
    (table.fixValue index value position = (.ok (), table.define index (.value value) position) ∧
      (table.define index (.value value) position).Valid ∧ table.definition? name = none) ∨
    (∃ diagnostic, table.fixValue index value position = (.error (.located diagnostic), table) ∧
      table.definition? name ≠ none) := by
  obtain ⟨label, isOk, there, isOpen, undefined⟩ | ⟨diagnostic, isError, defined⟩ :=
    openLabel_cases valid found position
  · refine .inl ⟨by simp only [fixValue, isOk], ?_, undefined⟩
    exact define_valid valid there isOpen (.here (labels_define_self there) rfl)
  · exact .inr ⟨diagnostic, by simp only [fixValue, isError], defined⟩

theorem fixAlias_cases (valid : table.Valid) (found : table.names[name]? = some index)
    {target : Text} {index' : Nat} (found' : table.names[target]? = some index')
    (position : Position) :
    (table.fixAlias index index' position =
        (.ok (), table.define index (.alias index') position) ∧
      (table.define index (.alias index') position).Valid ∧ table.definition? name = none ∧
      ¬ Relation.ReflTransGen table.Links target name) ∨
    (∃ diagnostic, table.fixAlias index index' position = (.error (.located diagnostic), table) ∧
      ¬ (table.definition? name = none ∧ ¬ Relation.ReflTransGen table.Links target name)) := by
  obtain ⟨label, isOk, there, isOpen, undefined⟩ | ⟨diagnostic, isError, defined⟩ :=
    openLabel_cases valid found position
  · obtain ⟨last, resolved⟩ := valid.resolves (valid.named_lt found')
    obtain ⟨other, there', _⟩ := (valid.names _ _).1 found'
    have circular := resolve?_eq_iff_links valid found found' undefined
    rw [resolved, Option.some.injEq] at circular
    by_cases back : last = index
    · refine .inr ⟨⟨position, .circularLabel label.name other.name⟩, ?_, ?_⟩
      · simp only [fixAlias, isOk, aliasFailure?, resolved, there', back, if_true]
      · exact fun both => both.2 (circular.1 back)
    · refine .inl ⟨?_, ?_, undefined, fun links => back (circular.2 links)⟩
      · simp only [fixAlias, isOk, aliasFailure?, resolved, there', back, if_false]
      · obtain ⟨steps, reaches⟩ := resolve?_eq_some_iff.1 resolved
        -- The chain of the target ends elsewhere, so the definition does not make it longer.
        have goesOn : Reaches (table.define index (.alias index') position).labels index' steps
            last := reaches.define_other there isOpen (Ne.symm back)
        exact define_valid valid there isOpen (.next (labels_define_self there) rfl goesOn)
  · refine .inr ⟨diagnostic, by simp only [fixAlias, isError], fun both => defined both.1⟩

end Fix

end SymbolTable

end Dcpu
