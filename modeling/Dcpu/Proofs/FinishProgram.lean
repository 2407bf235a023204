import Dcpu.Proofs.WriteStatement

set_option autoImplicit false

namespace Dcpu

namespace Assembly

def valueOf (assembly : Assembly) (name : Text) : Word :=
  ((assembly.symbols.find? (·.name == name)).map Symbol.value).getD 0

end Assembly

namespace ProgramRules

variable (rules : ProgramRules)

def bounds : List Text := [Symbol.codeStart, Symbol.codeEnd]

structure Complete (statements : List Statement) : Prop where
  free : ∀ name ∈ bounds, name ∉ (rules.definitions statements).map Prod.fst
  defined : ∀ name ∈ rules.mentions statements,
    name ∈ (rules.definitions statements).map Prod.fst ∨ name ∈ bounds
  names_le : (rules.mentions statements ++ bounds).dedup.length ≤ addressSpace

def allDefinitions (statements : List Statement) : List (Text × Definition) :=
  rules.definitions statements ++ [(Symbol.codeStart, .value 0),
    (Symbol.codeEnd, .value (rules.behind statements).here)]

structure Describes (statements : List Statement) (assembly : Assembly) : Prop where
  image : assembly.image.toList = rules.words assembly.valueOf statements
  values : ∀ symbol ∈ assembly.symbols, assembly.valueOf symbol.name = symbol.value
  names : ∀ name, (∃ symbol ∈ assembly.symbols, symbol.name = name) ↔
    name ∈ rules.mentions statements ++ bounds
  definitions : ∀ name definition, (name, definition) ∈ rules.allDefinitions statements →
    assembly.valueOf name = definition.valueIn assembly.valueOf

end ProgramRules

namespace Program

variable {p q r : Program} {rules : ProgramRules} {statements : List Statement}

theorem fixBound_outcome (valid : p.symbols.Valid) (name : Text) (value : Word) :
    Outcome ((p.symbols.note name .nowhere).size ≤ addressSpace ∧ p.symbols.definition? name = none)
      (Entered p [name] [(name, .value value)]) (p.fixBound name value) := by
  refine (index_outcome valid name .nowhere).bind _ ?_
  rintro ⟨index, q⟩ _ ⟨noted, found⟩
  exact noted.fixValue_outcome found value .nowhere

def bounded (p : Program) : Except Failure Program := do
  let program ← p.fixBound Symbol.codeStart 0
  program.fixBound Symbol.codeEnd program.address

theorem finish_eq (p : Program) : p.finish = (do
    let program ← p.bounded
    match program.symbols.validate with
    | .error diagnostic => .error (.located diagnostic)
    | .ok () =>
        let symbols := program.symbols.classify program.code
        match Code.evaluateAll program.code symbols program.differences with
        | .error breach => .error (.breach breach)
        | .ok image => return ⟨image, symbols.symbols⟩) := by
  rw [finish, ← bind_assoc]
  rfl

theorem mapM_eq_ok {α β ε : Type} {f : α → Except ε β} {xs : List α} {ys : List β}
    (all : List.Forall₂ (fun x y => f x = .ok y) xs ys) : xs.mapM f = .ok ys := by
  induction all with
  | nil => rfl
  | cons first _ ih =>
      rw [List.mapM_cons, first, ih]
      rfl

theorem evaluateAll_eq_ok {code : Array Code} {symbols : SymbolTable}
    {differences : Array Difference} {words : List Word}
    (all : List.Forall₂
      (fun code word => code.evaluate symbols differences differences.size = .ok word)
      code.toList words) :
    Code.evaluateAll code symbols differences = .ok words.toArray := by
  rw [Code.evaluateAll, Array.mapM_eq_mapM_toList, mapM_eq_ok all]
  rfl

theorem Entered.undefined_iff {mentions : List Text} {definitions : List (Text × Definition)}
    (entered : Entered p mentions definitions q) (name : Text) :
    q.symbols.definition? name = none ↔
      p.symbols.definition? name = none ∧ name ∉ definitions.map Prod.fst := by
  simp only [Option.eq_none_iff_forall_ne_some, ne_eq, entered.definitions, List.mem_map,
    Prod.exists, exists_and_right, exists_eq_right, not_exists, not_or, forall_and]

theorem bounded_outcome (represents : Represents rules statements p) :
    Outcome ((∀ name ∈ ProgramRules.bounds, name ∉ (rules.definitions statements).map Prod.fst) ∧
        (rules.mentions statements ++ ProgramRules.bounds).dedup.length ≤ addressSpace)
      (Entered p ProgramRules.bounds [(Symbol.codeStart, .value 0),
        (Symbol.codeEnd, .value (rules.behind statements).here)]) p.bounded := by
  have distinct : Symbol.codeEnd ≠ Symbol.codeStart := by decide
  have size : (p.symbols.note Symbol.codeStart .nowhere).size =
      (rules.mentions statements ++ [Symbol.codeStart]).dedup.length :=
    SymbolTable.size_noteAll represents.names (represents.valid.size_eq represents.names)
      [(Symbol.codeStart, .nowhere)]
  -- The second bound is entered behind the first, which is another name.
  refine ((fixBound_outcome represents.valid Symbol.codeStart 0).bind
    ((rules.mentions statements ++ ProgramRules.bounds).dedup.length ≤ addressSpace ∧
      Symbol.codeEnd ∉ (rules.definitions statements).map Prod.fst) ?_).of_iff ?_
  · intro q _ started
    have names (name : Text) : name ∈ q.symbols.names ↔
        name ∈ rules.mentions statements ++ [Symbol.codeStart] := by
      rw [started.names, List.mem_append, ← represents.names]
    have size' : (q.symbols.note Symbol.codeEnd .nowhere).size =
        ((rules.mentions statements ++ [Symbol.codeStart]) ++ [Symbol.codeEnd]).dedup.length :=
      SymbolTable.size_noteAll names (started.valid.size_eq names) [(Symbol.codeEnd, .nowhere)]
    have here : q.address = (rules.behind statements).here := by
      rw [address, started.code, Site.here, represents.words]
    refine ((fixBound_outcome started.valid Symbol.codeEnd q.address).imp ?_).of_iff ?_
    · intro r _ ended
      rw [← here]
      exact started.trans ended
    · rw [size', started.undefined_iff, represents.undefined_iff, List.append_assoc]
      simp [distinct, ProgramRules.bounds]
  · rw [size, represents.undefined_iff]
    constructor
    · rintro ⟨⟨_, startFree⟩, room, endFree⟩
      refine ⟨fun name member => ?_, room⟩
      rcases List.mem_pair.1 member with rfl | rfl
      · exact startFree
      · exact endFree
    · rintro ⟨free, room⟩
      refine ⟨⟨Nat.le_trans (ProgramRules.length_dedup_le ?_) room, free _ (.head _)⟩, room,
        free _ (.tail _ (.head _))⟩
      simp [ProgramRules.bounds]

theorem Entered.defined_iff {definitions : List (Text × Definition)}
    (represents : Represents rules statements p)
    (entered : Entered p ProgramRules.bounds definitions q)
    (named : definitions.map Prod.fst = ProgramRules.bounds) :
    (∀ name ∈ q.symbols.names, q.symbols.definition? name ≠ none) ↔
      ∀ name ∈ rules.mentions statements,
        name ∈ (rules.definitions statements).map Prod.fst ∨ name ∈ ProgramRules.bounds := by
  simp only [ne_eq, entered.names, represents.names, entered.undefined_iff,
    represents.undefined_iff, named, not_and_or, not_not]
  exact ⟨fun all name member => all name (.inl member),
    fun all name member => member.elim (all name) .inr⟩

theorem valueOf_symbols {symbols : SymbolTable} (valid : symbols.Valid) (image : Array Word) :
    (Assembly.mk image symbols.symbols).valueOf = fun name => (symbols.value? name).getD 0 := by
  funext name
  rw [Assembly.valueOf, SymbolTable.find?_symbols valid]

theorem mem_symbols_iff {symbols : SymbolTable} (valid : symbols.Valid) (name : Text) :
    (∃ symbol ∈ symbols.symbols, symbol.name = name) ↔ name ∈ symbols.names := by
  simp only [SymbolTable.mem_symbols_iff, SymbolTable.mem_names_iff, valid.names]
  constructor
  · rintro ⟨_, ⟨index, label, there, rfl⟩, named⟩
    exact ⟨index, label, there, (SymbolTable.symbolAt_name label index).symm.trans named⟩
  · rintro ⟨index, label, there, named⟩
    exact ⟨_, ⟨index, label, there, rfl⟩, (SymbolTable.symbolAt_name label index).trans named⟩

theorem Entered.describes {words : List Word} (represents : Represents rules statements p)
    (entered : Entered p ProgramRules.bounds
      [(Symbol.codeStart, .value 0), (Symbol.codeEnd, .value (rules.behind statements).here)] q)
    (valued : words = rules.words
      (fun name => ((q.symbols.classify q.code).value? name).getD 0) statements) :
    rules.Describes statements ⟨words.toArray, (q.symbols.classify q.code).symbols⟩ := by
  have valid : (q.symbols.classify q.code).Valid := SymbolTable.classify_valid entered.valid
  have valueOf := valueOf_symbols valid words.toArray
  refine ⟨?_, fun symbol member => ?_, fun name => ?_, fun name definition defined => ?_⟩
  · rw [valueOf]
    exact valued
  · obtain ⟨index, label, there, rfl⟩ := SymbolTable.mem_symbols_iff.1 member
    rw [valueOf, SymbolTable.symbolAt_name]
    simp only [SymbolTable.value?_of_symbolAt valid there, Option.getD_some]
  · rw [mem_symbols_iff valid, List.mem_append, ← represents.names]
    exact entered.names name
  · rw [ProgramRules.allDefinitions, List.mem_append, ← represents.definitions,
      ← entered.definitions] at defined
    rw [valueOf]
    simp only [SymbolTable.value?_classify entered.valid]
    cases definition with
    | value word => simp [SymbolTable.value?_of_value entered.valid defined, Definition.valueIn]
    | sameAs target => simp [SymbolTable.value?_of_sameAs entered.valid defined, Definition.valueIn]

theorem Entered.completes {mentions : List Text} {definitions : List (Text × Definition)}
    (represents : Represents rules statements p) (sound : rules.Sound statements)
    (entered : Entered p mentions definitions q) :
    Completes (q.symbols.classify q.code) q.differences p where
  valid := SymbolTable.classify_valid entered.valid
  names := entered.indices
  kept := entered.differences ▸ List.prefix_refl _
  size_le := by
    rw [entered.differences, represents.differences]
    exact sound.differences_le

theorem finish_outcome (represents : Represents rules statements p)
    (sound : rules.Sound statements) :
    Outcome (rules.Complete statements) (rules.Describes statements) p.finish := by
  rw [finish_eq]
  refine ((bounded_outcome represents).bind (∀ name ∈ rules.mentions statements,
    name ∈ (rules.definitions statements).map Prod.fst ∨ name ∈ ProgramRules.bounds) ?_).of_iff ?_
  · intro q _ entered
    dsimp only
    obtain ⟨isOk, defined⟩ | ⟨diagnostic, isError, undefined⟩ :=
      SymbolTable.validate_cases entered.valid
    · rw [isOk]
      dsimp only
      -- The table is final now, so every word that was written has its value in it.
      have settles := represents.settles _ _ (entered.completes represents sound)
      rw [← entered.code] at settles
      rw [evaluateAll_eq_ok settles]
      exact .ok ((entered.defined_iff represents rfl).1 defined) (entered.describes represents rfl)
    · rw [isError]
      refine .error fun all => undefined ?_
      exact (entered.defined_iff represents rfl).2 all
  · constructor
    · rintro ⟨⟨free, names_le⟩, defined⟩
      exact ⟨free, defined, names_le⟩
    · rintro ⟨free, defined, names_le⟩
      exact ⟨⟨free, names_le⟩, defined⟩

end Program

end Dcpu
