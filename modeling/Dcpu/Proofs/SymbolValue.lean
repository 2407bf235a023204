import Dcpu.Proofs.SymbolDefinition

set_option autoImplicit false

namespace Dcpu

namespace SymbolTable

variable {table : SymbolTable} {name : Text} {index : Nat}

theorem value?_of_reaches {steps last : Nat} {label : Label}
    (found : table.names[name]? = some index) (reaches : Reaches table.labels index steps last)
    (there : table.labels[last]? = some label) : table.value? name = some label.ownValue := by
  have resolved := resolve?_eq_some_iff.2 ⟨steps, reaches⟩
  simp only [value?, found, Option.bind_some, target?, resolved, there, Option.map_some]

theorem value?_eq_some (valid : table.Valid) (member : name ∈ table.names) :
    ∃ value, table.value? name = some value := by
  obtain ⟨index, found⟩ := mem_names_iff.1 member
  obtain ⟨steps, last, reaches⟩ := valid.ends index (valid.named_lt found)
  obtain ⟨label, there, _⟩ := reaches.last_found
  exact ⟨_, value?_of_reaches found reaches there⟩

theorem value_of_value? {value : Word} (found : table.names[name]? = some index)
    (known : table.value? name = some value) : table.value index = .ok value := by
  obtain ⟨label, target, rfl⟩ : ∃ label, table.target? index = some label ∧
      label.ownValue = value := by
    simpa [value?, found] using known
  simp only [SymbolTable.value, target]

theorem definition?_some (valid : table.Valid) {definition : Definition}
    (defined : table.definition? name = some definition) :
    ∃ index label, table.names[name]? = some index ∧ table.labels[index]? = some label ∧
      meaning table.labels label.binding = some definition := by
  cases found : table.names[name]? with
  | none => simp [definition?, found] at defined
  | some index =>
      obtain ⟨label, there, named⟩ := (valid.names _ _).1 found
      rw [← named, valid.definition?_eq there] at defined
      exact ⟨index, label, rfl, there, defined⟩

theorem value?_of_value (valid : table.Valid) {value : Word}
    (defined : table.definition? name = some (.value value)) : table.value? name = some value := by
  obtain ⟨index, label, found, there, means⟩ := definition?_some valid defined
  cases goes : label.binding with
  | unbound => simp [meaning, goes] at means
  | value own =>
      have same : own = value := by simpa [meaning, goes] using means
      have ends : label.isAlias = false := by simp [Label.isAlias, goes]
      rw [value?_of_reaches found (.here there ends) there, Label.ownValue, goes, same]
  | «alias» target =>
      cases other : table.labels[target]? <;> simp [meaning, goes, other] at means

theorem value?_of_sameAs (valid : table.Valid) {target : Text}
    (defined : table.definition? name = some (.sameAs target)) :
    table.value? name = table.value? target := by
  obtain ⟨index, label, found, there, means⟩ := definition?_some valid defined
  cases goes : label.binding with
  | unbound => simp [meaning, goes] at means
  | value _ => simp [meaning, goes] at means
  | «alias» next =>
      obtain ⟨other, there'⟩ := valid.target_found there goes
      have named : other.name = target := by simpa [meaning, goes, there'] using means
      have found' := valid.name_at there'
      rw [named] at found'
      obtain ⟨steps, last, reaches⟩ := valid.ends next (valid.named_lt found')
      obtain ⟨final, ended, _⟩ := reaches.last_found
      rw [value?_of_reaches found' reaches ended,
        value?_of_reaches found (.next there goes reaches) ended]

theorem isFixed_of_defined (valid : table.Valid)
    (defined : ∀ n ∈ table.names, table.definition? n ≠ none) (within : index < table.size) :
    table.isFixed index = true := by
  obtain ⟨steps, last, reaches⟩ := valid.ends index within
  obtain ⟨label, there, ends⟩ := reaches.last_found
  have resolved := resolve?_eq_some_iff.2 ⟨steps, reaches⟩
  -- The last label has a definition too, and that is not an alias.
  have isDefined := defined _ (mem_names_iff.2 ⟨last, valid.name_at there⟩)
  rw [valid.definition?_eq there, Ne, meaning_eq_none_iff valid there] at isDefined
  have fixed : label.isFixed = true := by simpa [Label.isDefined, ends] using isDefined
  simp only [isFixed, target?, resolved, there, fixed]

theorem defined_of_isFixed (valid : table.Valid) (found : table.names[name]? = some index)
    (fixed : table.isFixed index = true) : table.definition? name ≠ none := by
  obtain ⟨label, there, named⟩ := (valid.names _ _).1 found
  rw [← named, valid.definition?_eq there, Ne, meaning_eq_none_iff valid there]
  intro isOpen
  have parts : label.isFixed = false ∧ label.isAlias = false := by
    simpa [Label.isDefined] using isOpen
  have resolved := resolve?_eq_some_iff.2 ⟨0, .here there parts.2⟩
  simp [isFixed, target?, resolved, there, parts.1] at fixed

theorem validate_cases (valid : table.Valid) :
    (table.validate = .ok () ∧ ∀ n ∈ table.names, table.definition? n ≠ none) ∨
    (∃ diagnostic, table.validate = .error diagnostic ∧
      ¬ ∀ n ∈ table.names, table.definition? n ≠ none) := by
  cases first : table.undefined? with
  | none =>
      refine .inl ⟨by simp [validate, first], fun n member => ?_⟩
      obtain ⟨index, found⟩ := mem_names_iff.1 member
      have all : ∀ label i, (label, i) ∈ table.labels.toList.zipIdx → table.isFixed i = true := by
        simpa [undefined?] using first
      obtain ⟨label, there, _⟩ := (valid.names _ _).1 found
      -- The search goes over the labels with their indices.
      have entry : (label, index) ∈ table.labels.toList.zipIdx := by
        rw [List.mem_zipIdx_iff_getElem?]
        simpa using there
      exact defined_of_isFixed valid found (all label index entry)
  | some label =>
      refine .inr ⟨⟨label.used, .undefinedLabel label.name⟩, by simp [validate, first], ?_⟩
      intro defined
      obtain ⟨⟨label', index⟩, search, _⟩ := Option.map_eq_some_iff.1 first
      have entry := List.mem_of_find?_eq_some search
      rw [List.mem_zipIdx_iff_getElem?] at entry
      have within : index < table.size := by
        simpa [size] using (List.getElem?_eq_some_iff.1 entry).1
      have unfixed := List.find?_some search
      simp [isFixed_of_defined valid defined within] at unfixed

section Classify

variable {code : Array Code}

theorem labels_classify (index : Nat) :
    (table.classify code).labels[index]? = (table.labels[index]?).map (classifyLabel code) := by
  simp [classify]

@[simp] theorem name_classifyLabel (label : Label) :
    (classifyLabel code label).name = label.name := by
  unfold classifyLabel
  split
  · rfl
  · split <;> rfl

@[simp] theorem binding_classifyLabel (label : Label) :
    (classifyLabel code label).binding = label.binding := by
  unfold classifyLabel
  split
  · rfl
  · split <;> rfl

theorem Reaches.classify {steps last : Nat} (reaches : Reaches table.labels index steps last) :
    Reaches (table.classify code).labels index steps last := by
  induction reaches with
  | @here index label found ends =>
      have there : (table.classify code).labels[index]? = some (classifyLabel code label) := by
        rw [labels_classify, found, Option.map_some]
      exact .here there (by simpa [Label.isAlias] using ends)
  | @next index target steps last label found goes _ ih =>
      have there : (table.classify code).labels[index]? = some (classifyLabel code label) := by
        rw [labels_classify, found, Option.map_some]
      exact .next there (by simpa using goes) ih

theorem classify_valid (valid : table.Valid) : (table.classify code).Valid where
  names name index := by
    rw [show (table.classify code).names = table.names from rfl, valid.names, labels_classify]
    simp
  size_le := by simpa [classify, size] using valid.size_le
  ends index within := by
    obtain ⟨steps, last, reaches⟩ := valid.ends index (by simpa [classify, size] using within)
    exact ⟨steps, last, reaches.classify⟩

theorem value?_classify (valid : table.Valid) :
    (table.classify code).value? name = table.value? name := by
  have names : (table.classify code).names = table.names := rfl
  cases found : table.names[name]? with
  | none => simp only [value?, names, found, Option.bind_none]
  | some index =>
      obtain ⟨steps, last, reaches⟩ := valid.ends index (valid.named_lt found)
      obtain ⟨label, there, _⟩ := reaches.last_found
      have there' : (table.classify code).labels[last]? = some (classifyLabel code label) := by
        rw [labels_classify, there, Option.map_some]
      rw [value?_of_reaches found reaches there,
        value?_of_reaches (names ▸ found) reaches.classify there']
      simp [Label.ownValue]

end Classify

theorem symbolAt_name (label : Label) (index : Nat) :
    (table.symbolAt label index).name = label.name := by
  unfold symbolAt
  split <;> rfl

theorem value?_of_symbolAt (valid : table.Valid) {label : Label}
    (there : table.labels[index]? = some label) :
    table.value? label.name = some (table.symbolAt label index).value := by
  have found := valid.name_at there
  obtain ⟨steps, last, reaches⟩ := valid.ends index (valid.named_lt found)
  obtain ⟨final, ended, _⟩ := reaches.last_found
  have resolved := resolve?_eq_some_iff.2 ⟨steps, reaches⟩
  rw [value?_of_reaches found reaches ended]
  simp only [symbolAt, target?, resolved, ended]

theorem mem_symbols_iff {symbol : Symbol} :
    symbol ∈ table.symbols ↔
      ∃ index label, table.labels[index]? = some label ∧ table.symbolAt label index = symbol := by
  simp only [symbols, List.mem_mergeSort, List.mem_map, Prod.exists, List.mem_zipIdx_iff_getElem?,
    Array.getElem?_toList]
  exact exists_comm

theorem find?_symbols (valid : table.Valid) (name : Text) :
    (table.symbols.find? (·.name == name)).map Symbol.value = table.value? name := by
  cases search : table.symbols.find? (·.name == name) with
  | some symbol =>
      obtain ⟨index, label, there, rfl⟩ := mem_symbols_iff.1 (List.mem_of_find?_eq_some search)
      have named := List.find?_some search
      rw [symbolAt_name, beq_iff_eq] at named
      rw [← named, value?_of_symbolAt valid there, Option.map_some]
  | none =>
      cases found : table.names[name]? with
      | none => simp only [value?, found, Option.bind_none, Option.map_none]
      | some index =>
          obtain ⟨label, there, named⟩ := (valid.names _ _).1 found
          have missing := List.find?_eq_none.1 search _ (mem_symbols_iff.2 ⟨index, label, there, rfl⟩)
          simp [symbolAt_name, named] at missing

end SymbolTable

end Dcpu
