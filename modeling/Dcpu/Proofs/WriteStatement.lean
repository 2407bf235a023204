import Dcpu.Proofs.EncodeBody
import Dcpu.Proofs.ProgramSound
import Dcpu.Proofs.SymbolDefinition

set_option autoImplicit false

namespace Dcpu

theorem Expression.definition?_eq_some {rules : EncodingRules} {e : Expression}
    (formed : e.WellFormed rules) (plain : e.isDifference = false) (whole : Text → Text) :
    ∃ definition, e.definition? whole = some definition := by
  obtain ⟨head, _ | tail, position⟩ := e <;> cases head <;>
    simp_all [isDifference, definition?, WellFormed, Atom.WellFormed]

namespace Program

open EncodingRules (body_outcome expression_outcome)

variable {p q r : Program} {name : Text} {position : Position}

structure Entered (p : Program) (mentions : List Text) (definitions : List (Text × Definition))
    (q : Program) : Prop where
  valid : q.symbols.Valid
  indices : ∀ (name : Text) (index : Nat),
    p.symbols.names[name]? = some index → q.symbols.names[name]? = some index
  names : ∀ name, name ∈ q.symbols.names ↔ name ∈ p.symbols.names ∨ name ∈ mentions
  definitions : ∀ name definition, q.symbols.definition? name = some definition ↔
    p.symbols.definition? name = some definition ∨ (name, definition) ∈ definitions
  code : q.code = p.code
  differences : q.differences = p.differences
  localLabels : q.localLabels = p.localLabels
  scope : q.scope = p.scope

namespace Entered

variable {mentions mentions' : List Text} {definitions definitions' : List (Text × Definition)}

theorem refl (valid : p.symbols.Valid) : Entered p [] [] p where
  valid := valid
  indices _ _ found := found
  names := by simp
  definitions := by simp
  code := rfl
  differences := rfl
  localLabels := rfl
  scope := rfl

theorem trans (first : Entered p mentions definitions q)
    (second : Entered q mentions' definitions' r) :
    Entered p (mentions ++ mentions') (definitions ++ definitions') r where
  valid := second.valid
  indices name index found := second.indices name index (first.indices name index found)
  names name := by rw [second.names, first.names, List.mem_append, or_assoc]
  definitions name definition := by
    rw [second.definitions, first.definitions, List.mem_append, or_assoc]
  code := second.code.trans first.code
  differences := second.differences.trans first.differences
  localLabels := second.localLabels.trans first.localLabels
  scope := second.scope.trans first.scope

theorem definition?_eq (entered : Entered p mentions [] q) (name : Text) :
    q.symbols.definition? name = p.symbols.definition? name := by
  refine Option.ext fun definition => ?_
  simp [entered.definitions]

end Entered

theorem index_outcome (valid : p.symbols.Valid) (name : Text) (position : Position) :
    Outcome ((p.symbols.note name position).size ≤ addressSpace)
      (fun result : Nat × Program => Entered p [name] [] result.2 ∧
        result.2.symbols.names[name]? = some result.1)
      (p.index name position) := by
  obtain ⟨index, isOk, found, fits⟩ | ⟨isError, full⟩ :=
    SymbolTable.lookup_cases valid name position
  · rw [Program.index, isOk]
    refine .ok fits ⟨?_, found⟩
    exact {
      valid := SymbolTable.note_valid valid fits
      indices := fun _ _ => SymbolTable.names_note
      names := fun other => by rw [SymbolTable.mem_note, List.mem_singleton, or_comm]
      definitions := fun other definition => by
        simp [SymbolTable.definition?_note valid]
      code := rfl, differences := rfl, localLabels := rfl, scope := rfl }
  · rw [Program.index, isError]
    exact .error full

theorem entered_define {index : Nat} {binding : Binding} {definition : Definition}
    (valid : p.symbols.Valid) (found : p.symbols.names[name]? = some index)
    (after : (p.symbols.define index binding position).Valid)
    (undefined : p.symbols.definition? name = none)
    (means : SymbolTable.meaning p.symbols.labels binding = some definition) :
    Entered p [] [(name, definition)]
      { p with symbols := p.symbols.define index binding position } where
  valid := after
  indices _ _ found := found
  names := by simp [SymbolTable.define]
  definitions other definition' := by
    rw [SymbolTable.definition?_define valid found, List.mem_singleton]
    by_cases same : other = name
    · subst same
      simp [means, undefined, eq_comm]
    · simp [same]
  code := rfl
  differences := rfl
  localLabels := rfl
  scope := rfl

theorem fixValue_outcome {index : Nat} (valid : p.symbols.Valid)
    (found : p.symbols.names[name]? = some index) (value : Word) (position : Position) :
    Outcome (p.symbols.definition? name = none) (Entered p [] [(name, .value value)])
      (p.fixValue index value position) := by
  obtain ⟨isOk, after, undefined⟩ | ⟨diagnostic, isError, defined⟩ :=
    SymbolTable.fixValue_cases valid found value position
  · rw [fixValue, isOk]
    exact .ok undefined (entered_define valid found after undefined rfl)
  · rw [fixValue, isError]
    exact .error defined

theorem Entered.fixValue_outcome {mentions : List Text} {index : Nat}
    (entered : Entered p mentions [] q) (found : q.symbols.names[name]? = some index)
    (value : Word) (position : Position) :
    Outcome (p.symbols.definition? name = none) (Entered p mentions [(name, .value value)])
      (q.fixValue index value position) := by
  rw [← entered.definition?_eq name]
  refine (Program.fixValue_outcome entered.valid found value position).imp fun r _ fixed => ?_
  simpa using entered.trans fixed

theorem fixAlias_outcome {index index' : Nat} {target : Text} (valid : p.symbols.Valid)
    (found : p.symbols.names[name]? = some index) (found' : p.symbols.names[target]? = some index')
    (position : Position) :
    Outcome (p.symbols.definition? name = none ∧
        ¬ Relation.ReflTransGen p.symbols.Links target name)
      (Entered p [] [(name, .sameAs target)]) (p.fixAlias index index' position) := by
  obtain ⟨isOk, after, undefined, apart⟩ | ⟨diagnostic, isError, fails⟩ :=
    SymbolTable.fixAlias_cases valid found found' position
  · rw [fixAlias, isOk]
    obtain ⟨other, there, named⟩ := (valid.names _ _).1 found'
    refine .ok ⟨undefined, apart⟩ (entered_define valid found after undefined ?_)
    simp [SymbolTable.meaning, there, named]
  · rw [fixAlias, isError]
    exact .error fails

theorem Wrote.entered {names : List (Text × Position)} (wrote : Wrote p names 0 [] q)
    (valid : p.symbols.Valid) (fits : p.Fits names) :
    Entered p (names.map fun mention => p.qualify mention.1) [] q where
  valid := wrote.valid valid fits
  indices name index found := wrote.symbols ▸ SymbolTable.names_noteAll found
  names name := by
    rw [wrote.symbols, SymbolTable.mem_noteAll, or_comm, whole, List.map_map]
    rfl
  definitions name definition := by
    rw [wrote.symbols, SymbolTable.definition?_noteAll valid fits]
    simp
  code := Array.toList_inj.1 (by simpa using wrote.code)
  differences := by
    obtain ⟨kept, none_kept, grown⟩ := wrote.differences
    rw [List.length_eq_zero_iff.1 none_kept, List.append_nil] at grown
    exact Array.toList_inj.1 grown
  localLabels := wrote.localLabels
  scope := wrote.scope

theorem fits_iff_length {seen : List Text} (valid : p.symbols.Valid)
    (names : ∀ name, name ∈ p.symbols.names ↔ name ∈ seen) (mentions : List (Text × Position)) :
    p.Fits mentions ↔
      (seen ++ mentions.map fun mention => p.qualify mention.1).dedup.length ≤ addressSpace := by
  rw [Fits, SymbolTable.size_noteAll names (valid.size_eq names), whole, List.map_map]
  rfl

theorem Entered.links_eq {mentions : List Text} (entered : Entered p mentions [] q) :
    q.symbols.Links = p.symbols.Links := by
  funext name target
  rw [SymbolTable.Links, entered.definition?_eq]
  rfl

theorem fixAddress_outcome {index : Nat} (rules : EncodingRules) (valid : p.symbols.Valid)
    (found : p.symbols.names[name]? = some index) (e : Expression) (place : Position) :
    Outcome ((e.WellFormed rules ∧ e.isDifference = false) ∧ p.Fits e.names ∧
        p.symbols.definition? name = none ∧ ∀ target,
          e.definition? p.qualify = some (.sameAs target) →
            ¬ Relation.ReflTransGen p.symbols.Links target name)
      (Entered p (e.names.map fun mention => p.qualify mention.1)
        ((e.definition? p.qualify).toList.map fun definition => (name, definition)))
      (p.fixAddress rules index (some e) place position) := by
  refine ((expression_outcome rules e valid).bind (e.isDifference = false ∧
    p.symbols.definition? name = none ∧ ∀ target, e.definition? p.qualify = some (.sameAs target) →
      ¬ Relation.ReflTransGen p.symbols.Links target name) ?_).of_iff ?_
  · rintro ⟨word, q⟩ ⟨formed, fits⟩ ⟨wrote, same, _⟩
    obtain rfl : word = e.code q.indexOf p.differences.size := same
    dsimp only at wrote ⊢
    obtain ⟨head, _ | tail, place'⟩ := e
    · cases head with
      | absent => exact absurd formed.1 id
      | difference _ _ => exact .error fun all => by simp [Expression.isDifference] at all
      | number n _ =>
          have entered := wrote.entered valid fits
          refine (entered.fixValue_outcome (entered.indices _ _ found) _ position).of_iff ?_
          simp [Expression.isDifference, Expression.definition?]
      | character n _ =>
          have entered := wrote.entered valid fits
          refine (entered.fixValue_outcome (entered.indices _ _ found) _ position).of_iff ?_
          simp [Expression.isDifference, Expression.definition?]
      | identifier target _ =>
          have entered := wrote.entered valid fits
          have found' := wrote.indexed (by simp [Expression.names, Atom.names] : target ∈ _)
          have within := Nat.lt_of_lt_of_le (entered.valid.named_lt found') entered.valid.size_le
          -- The target is known by the index in the code word, which is a whole index.
          have whole : (q.indexOf target).toUInt16.toNat = q.indexOf target := by
            simpa [addressSpace] using within
          change Outcome _ _ (q.fixAlias index (q.indexOf target).toUInt16.toNat position)
          rw [whole]
          rw [wrote.qualify_eq] at found'
          refine ((fixAlias_outcome entered.valid (entered.indices _ _ found) found' position).imp
            fun _ _ => entered.trans).of_iff ?_
          rw [entered.definition?_eq, entered.links_eq]
          simp [Expression.isDifference, Expression.definition?]
    · exact .error fun all => by cases head <;> simp [Expression.isDifference] at all
  · exact and_and_and_comm

/-- The program that was written from these statements. -/
structure Represents (rules : ProgramRules) (done : List Statement) (p : Program) : Prop where
  localLabels : p.localLabels = rules.localLabels
  scope : p.scope = (rules.behind done).scope
  words : p.code.size = (rules.behind done).address
  differences : p.differences.size = (done.map Statement.differenceCount).sum
  valid : p.symbols.Valid
  names : ∀ name, name ∈ p.symbols.names ↔ name ∈ rules.mentions done
  definitions : ∀ name definition,
    p.symbols.definition? name = some definition ↔ (name, definition) ∈ rules.definitions done
  settles : ∀ symbols differences, Completes symbols differences p →
    List.Forall₂ (fun code word => code.evaluate symbols differences differences.size = .ok word)
      p.code.toList (rules.words (fun name => (symbols.value? name).getD 0) done)

variable {rules : ProgramRules} {done : List Statement} {s : Statement}

theorem represents_empty (rules : ProgramRules) : Represents rules [] (empty rules.localLabels) where
  localLabels := rfl
  scope := rfl
  words := rfl
  differences := rfl
  valid := SymbolTable.valid_empty
  names := by simp [empty, SymbolTable.empty, ProgramRules.mentions, ProgramRules.placed,
    ProgramRules.placedFrom]
  definitions := by simp [empty, SymbolTable.empty, SymbolTable.definition?,
    ProgramRules.definitions, ProgramRules.placed, ProgramRules.placedFrom]
  settles _ _ _ := .nil

namespace Represents

def inside (rules : ProgramRules) (done : List Statement) (s : Statement) (p : Program) : Program :=
  { p with scope := (rules.siteOf done s).scope }

theorem links_eq (represents : Represents rules done p) : p.symbols.Links = rules.Alias done := by
  funext name target
  exact propext (represents.definitions name (.sameAs target))

theorem qualify_eq (represents : Represents rules done p) {mentions : List Text}
    {definitions : List (Text × Definition)}
    (entered : Entered (inside rules done s p) mentions definitions q) :
    q.qualify = rules.qualify (rules.siteOf done s) := by
  funext name
  rw [qualify, isLocal, entered.localLabels, entered.scope]
  exact represents.localLabels ▸ rfl

theorem address_eq (represents : Represents rules done p) {mentions : List Text}
    {definitions : List (Text × Definition)}
    (entered : Entered (inside rules done s p) mentions definitions q) :
    q.address = (rules.siteOf done s).here := by
  rw [address, entered.code, Site.here, rules.address_siteOf, ← represents.words]
  rfl

theorem step {mentions : List Text} {names : List (Text × Position)} {count : Nat}
    (represents : Represents rules done p)
    (entered : Entered (inside rules done s p) mentions
      (rules.statementDefinition? (rules.siteOf done s) s).toList q)
    (written : Written q.differences.size q.address q names count (s.parts rules.layout) r)
    (fits : q.Fits names) (counted : s.differenceCount = count)
    (mentioned : rules.statementMentions (rules.siteOf done s) s =
      mentions ++ names.map fun mention => rules.qualify (rules.siteOf done s) mention.1) :
    Represents rules (done ++ [s]) r where
  localLabels := written.wrote.localLabels.trans (entered.localLabels.trans represents.localLabels)
  scope := by
    rw [written.wrote.scope, entered.scope, rules.behind_concat]
    rfl
  words := by
    rw [written.wrote.code_size, entered.code, rules.behind_concat, List.length_map, s.length_parts]
    exact congrArg (· + _) represents.words
  differences := by
    rw [written.wrote.differences_size, entered.differences, List.map_append, List.sum_append,
      List.map_singleton, List.sum_singleton, counted]
    exact congrArg (· + _) represents.differences
  valid := written.wrote.valid entered.valid fits
  names name := by
    rw [written.wrote.symbols, SymbolTable.mem_noteAll, whole, List.map_map, entered.names,
      rules.mentions_concat, mentioned, ← represents.qualify_eq entered, List.mem_append,
      List.mem_append, ← represents.names]
    exact or_comm.trans or_assoc
  definitions name definition := by
    rw [written.wrote.symbols, SymbolTable.definition?_noteAll entered.valid fits,
      entered.definitions, rules.definitions_concat, List.mem_append, ← represents.definitions]
    rfl
  settles symbols differences completes := by
    -- The old words have their values in what completes the new program, which completes the old.
    have completes' := completes.before written.wrote
    have earlier : Completes symbols differences p := {
      valid := completes'.valid
      names := fun name index found => completes'.names _ _ (entered.indices name index found)
      kept := entered.differences ▸ completes'.kept
      size_le := completes'.size_le }
    rw [written.wrote.code, entered.code, rules.words_concat]
    refine List.rel_append (represents.settles symbols differences earlier) ?_
    have env : q.environment symbols = fun name =>
        (symbols.value? (rules.qualify (rules.siteOf done s) name)).getD 0 := by
      funext name
      rw [environment, represents.qualify_eq entered]
    rw [ProgramRules.statementWords, List.forall₂_map_left_iff, List.forall₂_map_right_iff,
      List.forall₂_same]
    intro part member
    have value := (written.stands part member).settles symbols differences completes
    dsimp only at value
    rw [represents.address_eq entered, env] at value
    exact value

end Represents

theorem writeBody?_outcome (valid : q.symbols.Valid) (words_le : q.code.size ≤ addressSpace)
    (differences_le : q.differences.size ≤ addressSpace) (unfixed : s.isFix = false) :
    Outcome ((∀ body ∈ s.body, body.WellFormed rules.toEncodingRules) ∧ q.Fits s.bodyNames ∧
        q.code.size + s.size rules.layout ≤ addressSpace ∧
        q.differences.size + s.differenceCount ≤ addressSpace)
      (Written q.differences.size q.address q s.bodyNames s.differenceCount (s.parts rules.layout))
      (q.writeBody? rules.toEncodingRules s.body s.position) := by
  obtain ⟨label, _ | body, position⟩ := s
  · exact .ok ⟨by simp, valid.size_le, words_le, differences_le⟩ (.refl q)
  · have written (value : Option Expression) (place : Position) :
        body ≠ .addressFix value place := by
      rintro rfl
      simp [Statement.isFix] at unfixed
    refine ((body_outcome rules.toEncodingRules body valid written).bind
      (q.code.size + body.size rules.layout ≤ addressSpace ∧
        q.differences.size + body.differenceCount ≤ addressSpace) ?_).of_iff ?_
    · rintro ⟨⟨⟩, r⟩ _ encoded
      have size := encoded.wrote.code_size
      have kept := encoded.wrote.differences_size
      rw [List.length_map, body.length_parts] at size
      dsimp only at size kept ⊢
      -- The sizes are looked at when everything has been written.
      split
      · rename_i large
        exact .error fun small => by omega
      · exact .ok ⟨by omega, by omega⟩ encoded
    · simp [Statement.bodyNames, Statement.size, Statement.differenceCount, and_assoc]

namespace Represents

theorem undefined_iff (represents : Represents rules done p) (name : Text) :
    p.symbols.definition? name = none ↔ name ∉ (rules.definitions done).map Prod.fst := by
  rw [Option.eq_none_iff_forall_ne_some, List.mem_map]
  simp only [ne_eq, represents.definitions]
  grind

def labelName (rules : ProgramRules) (done : List Statement) (s : Statement) : List Text :=
  (s.label.map fun label => rules.qualify (rules.siteOf done s) label.name).toList

theorem statementMentions_eq : rules.statementMentions (rules.siteOf done s) s =
    labelName rules done s ++
      s.bodyNames.map fun mention => rules.qualify (rules.siteOf done s) mention.1 := by
  rw [ProgramRules.statementMentions, Statement.names, List.map_append, labelName]
  cases s.label <;> rfl

theorem label_fits (writable : rules.Writable done s) (nameOf : labelName rules done s = [name]) :
    (rules.mentions done ++ [name]).dedup.length ≤ addressSpace := by
  refine Nat.le_trans (ProgramRules.length_dedup_le ?_) writable.names_le
  rw [statementMentions_eq, nameOf]
  simp

theorem writeBody?_outcome (represents : Represents rules done p) (sound : rules.Sound done)
    (unfixed : s.isFix = false)
    (entered : Entered (inside rules done s p) (labelName rules done s)
      (rules.statementDefinition? (rules.siteOf done s) s).toList q) :
    Outcome (rules.Writable done s) (Represents rules (done ++ [s]))
      (q.writeBody? rules.toEncodingRules s.body s.position) := by
  have words : q.code.size = (rules.behind done).address :=
    (congrArg Array.size entered.code).trans represents.words
  have differences : q.differences.size = (done.map Statement.differenceCount).sum :=
    (congrArg Array.size entered.differences).trans represents.differences
  have names (name : Text) :
      name ∈ q.symbols.names ↔ name ∈ rules.mentions done ++ labelName rules done s := by
    rw [entered.names, List.mem_append, ← represents.names]
    rfl
  have fits_iff : q.Fits s.bodyNames ↔ (rules.mentions done ++
      rules.statementMentions (rules.siteOf done s) s).dedup.length ≤ addressSpace := by
    rw [fits_iff_length entered.valid names, represents.qualify_eq entered, statementMentions_eq,
      List.append_assoc]
  refine ((Program.writeBody?_outcome entered.valid (words ▸ sound.words_le)
    (differences ▸ sound.differences_le) unfixed).imp ?_).of_iff ?_
  · rintro r ⟨_, fits, _⟩ written
    exact represents.step entered written fits rfl statementMentions_eq
  · rw [fits_iff, words, differences]
    constructor
    · rintro ⟨formed, names_le, words_le, differences_le⟩
      exact ⟨formed, words_le, differences_le, names_le⟩
    · rintro ⟨formed, words_le, differences_le, names_le⟩
      exact ⟨formed, names_le, words_le, differences_le⟩

theorem unlabelled_outcome (represents : Represents rules done p) (sound : rules.Sound done)
    (unfixed : s.isFix = false) (unlabelled : s.label = none) :
    Outcome (rules.MayFollow done s) (Represents rules (done ++ [s]))
      (p.writeBody? rules.toEncodingRules s.body s.position) := by
  have same : inside rules done s p = p := by
    rw [inside, ProgramRules.siteOf, ProgramRules.enter, unlabelled]
    exact represents.scope ▸ rfl
  have nothing : rules.statementDefinition? (rules.siteOf done s) s = none := by
    simp [ProgramRules.statementDefinition?, unlabelled]
  have entered : Entered (inside rules done s p) (labelName rules done s)
      (rules.statementDefinition? (rules.siteOf done s) s).toList p := by
    rw [same, nothing, labelName, unlabelled]
    exact .refl represents.valid
  refine (represents.writeBody?_outcome sound unfixed entered).of_iff ?_
  constructor
  · intro writable
    exact {
      toWritable := writable
      labelled := by simp [unfixed]
      fresh := by simp [nothing]
      apart := by simp [nothing] }
  · exact ProgramRules.MayFollow.toWritable

theorem define_eq (represents : Represents rules done p) {label : LabelDefinition}
    (labelled : s.label = some label) :
    p.define label = (inside rules done s p).index
      (rules.qualify (rules.siteOf done s) label.name) label.position := by
  have isLocal : p.isLocal label.name = rules.isLocal label.name := by
    rw [Program.isLocal, represents.localLabels]
    rfl
  rw [define, qualify, isLocal, inside, ProgramRules.siteOf, ProgramRules.enter, labelled,
    ProgramRules.qualify]
  split
  · rename_i isLocal
    simp only [isLocal, if_true, represents.scope]
    exact represents.scope ▸ rfl
  · rename_i isGlobal
    simp only [isGlobal]
    rfl

theorem size_note (represents : Represents rules done p) (name : Text) (position : Position) :
    ((inside rules done s p).symbols.note name position).size =
      (rules.mentions done ++ [name]).dedup.length :=
  SymbolTable.size_noteAll represents.names (represents.valid.size_eq represents.names)
    [(name, position)]

theorem labelled_outcome (represents : Represents rules done p) (sound : rules.Sound done)
    (unfixed : s.isFix = false) {label : LabelDefinition} (labelled : s.label = some label) :
    Outcome (rules.MayFollow done s) (Represents rules (done ++ [s]))
      (do
        let (index, program) ← p.define label
        let here := program.address
        let program ← program.fixValue index here label.position
        program.writeBody? rules.toEncodingRules s.body s.position) := by
  have nameOf : labelName rules done s = [rules.qualify (rules.siteOf done s) label.name] := by
    simp [labelName, labelled]
  have definition : rules.statementDefinition? (rules.siteOf done s) s =
      some (rules.qualify (rules.siteOf done s) label.name,
        .value (rules.siteOf done s).here) := by
    have means : rules.meaning? (rules.siteOf done s) s =
        some (.value (rules.siteOf done s).here) := by
      rw [ProgramRules.meaning?]
      split
      · rename_i fix
        simp [Statement.isFix, fix] at unfixed
      · rfl
    simp [ProgramRules.statementDefinition?, labelled, means]
  rw [represents.define_eq labelled]
  generalize rules.qualify (rules.siteOf done s) label.name = name at nameOf definition
  -- The label is entered first, so that its address is that of the body behind it.
  refine ((index_outcome (p := inside rules done s p) represents.valid name label.position).bind
    (p.symbols.definition? name = none ∧ rules.Writable done s) ?_).of_iff ?_
  · rintro ⟨index, q⟩ _ ⟨noted, found⟩
    dsimp only at noted found ⊢
    refine (noted.fixValue_outcome found q.address label.position).bind
      (rules.Writable done s) fun r _ fixed => ?_
    refine represents.writeBody?_outcome sound unfixed ?_
    rw [nameOf, definition, ← represents.address_eq noted]
    exact fixed
  · rw [represents.size_note, represents.undefined_iff]
    constructor
    · rintro ⟨_, fresh, writable⟩
      exact {
        toWritable := writable
        labelled := by simp [labelled]
        fresh := by simpa [definition] using fresh
        apart := by simp [definition] }
    · intro follows
      exact ⟨label_fits follows.toWritable nameOf, follows.fresh _ _ definition,
        follows.toWritable⟩

theorem writable_fix_iff (sound : rules.Sound done) {e : Expression} {place : Position}
    (fix : s.body = some (.addressFix (some e) place)) :
    rules.Writable done s ↔ (e.WellFormed rules.toEncodingRules ∧ e.isDifference = false) ∧
      (rules.mentions done ++
        rules.statementMentions (rules.siteOf done s) s).dedup.length ≤ addressSpace := by
  have size : s.size rules.layout = 0 := by simp [Statement.size, fix, Body.size]
  constructor
  · intro writable
    have formed := writable.formed _ fix
    simp only [Body.WellFormed, Option.mem_some_iff, exists_eq_left'] at formed
    exact ⟨formed, writable.names_le⟩
  · rintro ⟨formed, names_le⟩
    exact {
      formed := by simpa [fix, Body.WellFormed] using formed
      words_le := by simpa [size] using sound.words_le
      differences_le := by
        have none_kept : s.differenceCount = 0 := by
          rw [Statement.differenceCount, fix]
          exact e.differenceCount_eq_zero formed.2
        simpa [none_kept] using sound.differences_le
      names_le }

theorem fix_outcome (represents : Represents rules done p) (sound : rules.Sound done)
    {label : LabelDefinition} (labelled : s.label = some label) {value : Option Expression}
    {place : Position} (fix : s.body = some (.addressFix value place)) :
    Outcome (rules.MayFollow done s) (Represents rules (done ++ [s]))
      (do
        let (index, program) ← p.define label
        program.fixAddress rules.toEncodingRules index value place label.position) := by
  have nameOf : labelName rules done s = [rules.qualify (rules.siteOf done s) label.name] := by
    simp [labelName, labelled]
  have definition : rules.statementDefinition? (rules.siteOf done s) s =
      (value.bind (Expression.definition? (rules.qualify (rules.siteOf done s)))).map
        fun definition => (rules.qualify (rules.siteOf done s) label.name, definition) := by
    simp [ProgramRules.statementDefinition?, labelled, ProgramRules.meaning?, fix]
  rw [represents.define_eq labelled]
  generalize rules.qualify (rules.siteOf done s) label.name = name at nameOf definition
  refine ((index_outcome (p := inside rules done s p) represents.valid name label.position).bind
    (rules.Writable done s ∧ p.symbols.definition? name = none ∧ ∀ target,
      rules.statementDefinition? (rules.siteOf done s) s = some (name, .sameAs target) →
        ¬ Relation.ReflTransGen (rules.Alias done) target name) ?_).of_iff ?_
  · rintro ⟨index, q⟩ _ ⟨noted, found⟩
    dsimp only at noted found ⊢
    cases value with
    | none =>
        refine .error fun all => ?_
        have formed := all.1.formed _ fix
        simp [Body.WellFormed] at formed
    | some e =>
        have qualify := represents.qualify_eq noted
        have mentions : rules.statementMentions (rules.siteOf done s) s =
            [name] ++ e.names.map fun mention => q.qualify mention.1 := by
          rw [statementMentions_eq, nameOf, Statement.bodyNames, fix, qualify]
          rfl
        refine ((fixAddress_outcome rules.toEncodingRules noted.valid found e place).imp ?_).of_iff ?_
        · rintro r ⟨⟨_, plain⟩, _⟩ fixed
          have entered : Entered (inside rules done s p)
              (rules.statementMentions (rules.siteOf done s) s)
              (rules.statementDefinition? (rules.siteOf done s) s).toList r := by
            rw [mentions, definition, ← qualify, Option.bind_some, Option.toList_map]
            exact noted.trans fixed
          have written : Written r.differences.size r.address r [] 0 (s.parts rules.layout) r := by
            rw [Statement.parts, fix]
            exact .refl r
          refine represents.step entered written entered.valid.size_le ?_ (by simp)
          rw [Statement.differenceCount, fix]
          exact e.differenceCount_eq_zero plain
        · have names (other : Text) :
              other ∈ q.symbols.names ↔ other ∈ rules.mentions done ++ [name] := by
            rw [noted.names, List.mem_append, ← represents.names]
            rfl
          rw [writable_fix_iff sound fix, fits_iff_length noted.valid names, mentions,
            noted.definition?_eq, noted.links_eq, ← represents.links_eq, definition, qualify,
            List.append_assoc]
          simp [inside, and_assoc]
  · rw [represents.size_note, represents.undefined_iff]
    -- Whatever the statement defines, it is its label.
    have named (other : Text) (meaning : Definition)
        (found : rules.statementDefinition? (rules.siteOf done s) s = some (other, meaning)) :
        other = name := by
      rw [definition, Option.map_eq_some_iff] at found
      obtain ⟨_, _, same⟩ := found
      exact (Prod.mk.inj same).1.symm
    constructor
    · rintro ⟨_, writable, fresh, apart⟩
      exact {
        toWritable := writable
        labelled := by simp [labelled]
        fresh := fun other meaning found => named other meaning found ▸ fresh
        apart := fun other target found => by
          obtain rfl := named other _ found
          exact apart target found }
    · intro follows
      have formed := follows.formed _ fix
      obtain ⟨e, rfl, formed, plain⟩ := formed
      obtain ⟨meaning, means⟩ :=
        Expression.definition?_eq_some formed plain (rules.qualify (rules.siteOf done s))
      refine ⟨label_fits follows.toWritable nameOf, follows.toWritable,
        follows.fresh name meaning ?_, follows.apart name⟩
      rw [definition, Option.bind_some, means, Option.map_some]

end Represents

theorem writeStatement_outcome (represents : Represents rules done p) (sound : rules.Sound done) :
    Outcome (rules.MayFollow done s) (Represents rules (done ++ [s]))
      (p.writeStatement rules.toEncodingRules s) := by
  obtain ⟨label, body, position⟩ := s
  cases label with
  | none =>
      -- A fix without a label is the only body that must not stand alone.
      rcases body with _ | ⟨value, place⟩ | _ | _ | _
      · exact represents.unlabelled_outcome sound rfl rfl
      · refine .error fun follows => ?_
        simpa using follows.labelled rfl
      all_goals exact represents.unlabelled_outcome sound rfl rfl
  | some label =>
      -- A label is fixed to a value, or else to the address of the body.
      rcases body with _ | ⟨value, place⟩ | _ | _ | _
      · exact represents.labelled_outcome sound rfl rfl
      · exact represents.fix_outcome sound rfl rfl
      all_goals exact represents.labelled_outcome sound rfl rfl

theorem writeStatements_outcome (represents : Represents rules done p) (sound : rules.Sound done)
    (rest : List Statement) :
    Outcome (rules.Sound (done ++ rest)) (Represents rules (done ++ rest))
      (p.writeStatements rules.toEncodingRules rest) := by
  induction rest generalizing done p with
  | nil =>
      rw [List.append_nil]
      exact .ok sound represents
  | cons s rest ih =>
      have split : done ++ s :: rest = (done ++ [s]) ++ rest := by simp
      have bound : p.writeStatements rules.toEncodingRules (s :: rest) =
          p.writeStatement rules.toEncodingRules s >>= fun program =>
            program.writeStatements rules.toEncodingRules rest := by
        rw [writeStatements]
        cases p.writeStatement rules.toEncodingRules s <;> rfl
      rw [split, bound]
      refine ((writeStatement_outcome represents sound).bind
        (rules.Sound ((done ++ [s]) ++ rest)) ?_).of_iff ?_
      · intro q follows after
        exact ih after (ProgramRules.sound_concat_iff.2 ⟨sound, follows⟩)
      -- If the whole is sound, so is its part up to this statement.
      · exact and_iff_right_of_imp fun whole => (ProgramRules.sound_concat_iff.1 whole.left).2

end Program

end Dcpu
