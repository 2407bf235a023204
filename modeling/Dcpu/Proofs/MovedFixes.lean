import Dcpu.Proofs.SymbolTypes
import Mathlib.Order.WellFoundedSet

set_option autoImplicit false

namespace Dcpu

namespace Statement

structure FixesMoved (statements moved : List Statement) : Prop where
  others : statements.filter (!·.isFix) = moved.filter (!·.isFix)
  fixes : (statements.filter (·.isFix)).Perm (moved.filter (·.isFix))

namespace FixesMoved

variable {statements moved : List Statement}

theorem symm (same : FixesMoved statements moved) : FixesMoved moved statements :=
  ⟨same.others.symm, same.fixes.symm⟩

theorem perm (same : FixesMoved statements moved) : statements.Perm moved := by
  refine (List.filter_append_perm (·.isFix) statements).symm.trans ?_
  rw [same.others]
  exact (same.fixes.append_right _).trans (List.filter_append_perm (·.isFix) moved)

end FixesMoved

theorem parts_of_isFix {s : Statement} (fix : s.isFix = true) (layout : Layout) :
    s.parts layout = [] := by
  obtain ⟨label, _ | body, position⟩ := s
  · rfl
  · cases body with
    | addressFix _ _ => rfl
    | basic _ _ _ _ | extended _ _ _ | data _ _ => cases fix

theorem size_of_isFix {s : Statement} (fix : s.isFix = true) (layout : Layout) :
    s.size layout = 0 := by
  rw [← s.length_parts, parts_of_isFix fix, List.length_nil]

theorem wordTypes_filter (layout : Layout) (statements : List Statement) :
    wordTypes layout (statements.filter (!·.isFix)) = wordTypes layout statements := by
  induction statements with
  | nil => rfl
  | cons s rest ih =>
      simp only [wordTypes, List.flatMap_cons] at ih ⊢
      cases fix : s.isFix with
      | true => simp [fix, ih, parts_of_isFix fix]
      | false => simp [fix, ih]

end Statement

namespace ProgramRules

variable {rules : ProgramRules} {statements moved done : List Statement} {s : Statement}

theorem qualify_of_global (global : rules.localLabels = false) (site : Site) (name : Text) :
    rules.qualify site name = name := by
  simp [qualify, isLocal, global]

theorem statementDefinition?_congr (global : rules.localLabels = false) {site site' : Site}
    (same : s.isFix = true ∨ site.address = site'.address) :
    rules.statementDefinition? site s = rules.statementDefinition? site' s := by
  have names : rules.qualify site = rules.qualify site' := by
    funext name
    rw [qualify_of_global global, qualify_of_global global]
  have means : rules.meaning? site s = rules.meaning? site' s := by
    rw [meaning?, meaning?, names]
    split
    · rfl
    · rename_i unfixed
      rcases same with fix | here
      · unfold Statement.isFix at fix
        split at fix
        · rename_i value place body
          exact absurd body (unfixed value place)
        · simp at fix
      · rw [Site.here, Site.here, here]
  rw [statementDefinition?, statementDefinition?, names, means]

theorem statementWords_congr (global : rules.localLabels = false) {site site' : Site}
    (same : site.address = site'.address) (env : Text → Word) :
    rules.statementWords site s env = rules.statementWords site' s env := by
  simp only [statementWords, qualify_of_global global, Site.here, same]

theorem address_filter (statements : List Statement) :
    (rules.behind (statements.filter (!·.isFix))).address = (rules.behind statements).address := by
  induction statements using List.reverseRecOn with
  | nil => rfl
  | append_singleton done s ih =>
      rw [List.filter_append]
      cases fix : s.isFix with
      | true => simp [fix, ih, behind_concat, next, Statement.size_of_isFix fix]
      | false => simp [fix, ih, behind_concat, next]

theorem words_filter (global : rules.localLabels = false) (env : Text → Word)
    (statements : List Statement) :
    rules.words env (statements.filter (!·.isFix)) = rules.words env statements := by
  induction statements using List.reverseRecOn with
  | nil => rfl
  | append_singleton done s ih =>
      rw [List.filter_append, words_concat]
      cases fix : s.isFix with
      | true => simp [fix, ih, statementWords, Statement.parts_of_isFix fix]
      | false =>
          have here : (rules.siteOf (done.filter (!·.isFix)) s).address =
              (rules.siteOf done s).address := by
            rw [address_siteOf, address_siteOf, address_filter]
          simp [fix, words_concat, ih, statementWords_congr global here]

theorem definitions_perm (global : rules.localLabels = false) (statements : List Statement) :
    (rules.definitions statements).Perm (rules.definitions (statements.filter (·.isFix)) ++
      rules.definitions (statements.filter (!·.isFix))) := by
  induction statements using List.reverseRecOn with
  | nil => exact .refl _
  | append_singleton done s ih =>
      rw [definitions_concat]
      refine (ih.append_right _).trans ?_
      -- A fix moves past what is no fix, and all else keeps its address.
      cases fix : s.isFix with
      | true =>
          have fixes : (done ++ [s]).filter (·.isFix) = done.filter (·.isFix) ++ [s] := by simp [fix]
          have others : (done ++ [s]).filter (!·.isFix) = done.filter (!·.isFix) := by simp [fix]
          rw [fixes, others, definitions_concat, List.append_assoc, List.append_assoc,
            statementDefinition?_congr global (.inl fix)]
          exact List.perm_append_comm.append_left _
      | false =>
          have fixes : (done ++ [s]).filter (·.isFix) = done.filter (·.isFix) := by simp [fix]
          have others : (done ++ [s]).filter (!·.isFix) = done.filter (!·.isFix) ++ [s] := by
            simp [fix]
          have here : (rules.siteOf done s).address =
              (rules.siteOf (done.filter (!·.isFix)) s).address := by
            rw [address_siteOf, address_siteOf, address_filter]
          rw [fixes, others, definitions_concat, List.append_assoc,
            statementDefinition?_congr global (.inr here)]

theorem definitions_fixes (global : rules.localLabels = false)
    (fixes : ∀ s ∈ statements, s.isFix = true) :
    rules.definitions statements = statements.filterMap (rules.statementDefinition? .start) := by
  induction statements using List.reverseRecOn with
  | nil => rfl
  | append_singleton done s ih =>
      have anywhere : rules.statementDefinition? (rules.siteOf done s) s =
          rules.statementDefinition? .start s :=
        statementDefinition?_congr global (.inl (fixes s (by simp)))
      rw [definitions_concat, ih fun t member => fixes t (List.mem_append_left _ member), anywhere,
        List.filterMap_append]
      cases found : rules.statementDefinition? .start s <;> simp [found]

theorem mentions_eq (global : rules.localLabels = false) (statements : List Statement) :
    rules.mentions statements = statements.flatMap fun s => s.names.map Prod.fst := by
  induction statements using List.reverseRecOn with
  | nil => rfl
  | append_singleton done s ih =>
      rw [mentions_concat, ih, List.flatMap_append, List.flatMap_singleton]
      simp only [statementMentions, qualify_of_global global]

section Moved

variable (global : rules.localLabels = false) (same : Statement.FixesMoved statements moved)

include global same

theorem definitions_moved : (rules.definitions statements).Perm (rules.definitions moved) := by
  have fixes (statements : List Statement) : rules.definitions (statements.filter (·.isFix)) =
      (statements.filter (·.isFix)).filterMap (rules.statementDefinition? .start) :=
    definitions_fixes global fun s member => (List.mem_filter.1 member).2
  refine (definitions_perm global statements).trans (.trans ?_ (definitions_perm global moved).symm)
  rw [same.others, fixes, fixes]
  exact (same.fixes.filterMap _).append_right _

theorem mentions_moved : (rules.mentions statements).Perm (rules.mentions moved) := by
  rw [mentions_eq global, mentions_eq global]
  exact same.perm.flatMap_right _

omit global in
theorem address_moved : (rules.behind statements).address = (rules.behind moved).address := by
  rw [← address_filter statements, same.others, address_filter]

theorem words_moved (env : Text → Word) : rules.words env statements = rules.words env moved := by
  rw [← words_filter global env statements, same.others, words_filter global]

theorem alias_moved : rules.Alias statements = rules.Alias moved := by
  funext name target
  exact propext (definitions_moved global same).mem_iff

theorem acceptable_moved (acceptable : rules.Acceptable statements) : rules.Acceptable moved := by
  have definitions := (definitions_moved global same).map Prod.fst
  have mentions := mentions_moved global same
  exact {
    formed := fun s member => acceptable.formed s (same.perm.mem_iff.2 member)
    labelled := fun s member => acceptable.labelled s (same.perm.mem_iff.2 member)
    once := definitions.nodup_iff.1 acceptable.once
    free := fun name bound defined => acceptable.free name bound (definitions.mem_iff.2 defined)
    defined := fun name mentioned =>
      (acceptable.defined name (mentions.mem_iff.2 mentioned)).imp_left definitions.mem_iff.1
    acyclic := alias_moved global same ▸ acceptable.acyclic
    words_le := (same.perm.map _).sum_nat ▸ acceptable.words_le
    differences_le := (same.perm.map _).sum_nat ▸ acceptable.differences_le
    names_le := (mentions.append_right bounds).dedup.length_eq ▸ acceptable.names_le }

end Moved

theorem alias_wellFounded
    (acyclic : ∀ name, ¬ Relation.TransGen (rules.Alias statements) name name) :
    WellFounded (Function.swap (rules.Alias statements)) := by
  -- A chain of aliases without a cycle passes only names that the program defines, so it ends.
  let defined : Set Text := {name | name ∈ (rules.definitions statements).map Prod.fst}
  let Behind := Relation.TransGen (Function.swap (rules.Alias statements))
  have strict : IsStrictOrder Text Behind := {
    irrefl := fun name cycle => acyclic name (Relation.transGen_swap.1 cycle)
    trans := fun _ _ _ => Relation.TransGen.trans }
  have finite : defined.Finite := List.finite_toSet _
  have ends := Set.wellFoundedOn_iff.1 (finite.wellFoundedOn (r := Behind))
  have starts {name target : Text} (link : rules.Alias statements name target) : name ∈ defined :=
    List.mem_map.2 ⟨_, link, rfl⟩
  refine ⟨fun name => ends.induction name fun name ih => ⟨name, fun target link => ?_⟩⟩
  by_cases goesOn : target ∈ defined
  · exact ih target ⟨.single link, goesOn, starts link⟩
  · exact ⟨target, fun _ next => absurd (starts next) goesOn⟩

theorem target_mem_mentions {name target : Text} (link : rules.Alias statements name target) :
    target ∈ rules.mentions statements := by
  obtain ⟨⟨site, s⟩, placed, found⟩ := List.mem_filterMap.1 link
  refine List.mem_flatMap.2 ⟨(site, s), placed, ?_⟩
  obtain ⟨label, labelled, found⟩ := Option.bind_eq_some_iff.1 found
  obtain ⟨definition, means, same⟩ := Option.map_eq_some_iff.1 found
  obtain ⟨_, rfl⟩ := Prod.mk.inj same
  unfold meaning? at means
  split at means
  · rename_i value place fix
    obtain ⟨⟨head, tail, position⟩, rfl, means⟩ := Option.bind_eq_some_iff.1 means
    cases tail with
    | some _ => cases head <;> cases means
    | none =>
        cases head with
        | identifier target' place' =>
            obtain rfl := Definition.sameAs.inj (Option.some.inj means)
            refine List.mem_map.2 ⟨(target', place'), ?_, rfl⟩
            simp [Statement.names, Statement.bodyNames, fix, Body.names, Expression.names, Atom.names]
        | number _ _ | character _ _ | difference _ _ | absent => cases means
  · cases means

theorem value_unique (acceptable : rules.Acceptable statements) {env env' : Text → Word}
    (first : ∀ name definition, (name, definition) ∈ rules.allDefinitions statements →
      env name = definition.valueIn env)
    (second : ∀ name definition, (name, definition) ∈ rules.allDefinitions statements →
      env' name = definition.valueIn env')
    {name : Text} (known : name ∈ rules.mentions statements ++ bounds) : env name = env' name := by
  induction name using (alias_wellFounded acceptable.acyclic).induction with
  | _ name ih =>
    have defined : name ∈ (rules.allDefinitions statements).map Prod.fst := by
      rw [allDefinitions, List.map_append, List.mem_append]
      exact (List.mem_append.1 known).elim (acceptable.defined name) .inr
    obtain ⟨⟨name', definition⟩, there, named⟩ := List.mem_map.1 defined
    obtain rfl : name' = name := named
    rw [first _ _ there, second _ _ there]
    cases definition with
    | value _ => rfl
    | sameAs target =>
        have link : rules.Alias statements name' target := by
          simpa [allDefinitions, Alias] using there
        exact ih target link (List.mem_append_left _ (target_mem_mentions link))

end ProgramRules

namespace Assembly

variable {rules : ProgramRules} {statements moved : List Statement} {assembly assembly' : Assembly}

theorem valueOf_eq_zero {name : Text} (absent : ∀ symbol ∈ assembly.symbols, symbol.name ≠ name) :
    assembly.valueOf name = 0 := by
  have missing : assembly.symbols.find? (·.name == name) = none := by
    rw [List.find?_eq_none]
    intro symbol member
    simpa using absent symbol member
  rw [valueOf, missing]
  rfl

section Moved

variable (global : rules.localLabels = false) (same : Statement.FixesMoved statements moved)
  (acceptable : rules.Acceptable statements) (describes : rules.Describes statements assembly)
  (describes' : rules.Describes moved assembly')

include global same acceptable describes describes'

theorem valueOf_moved : assembly.valueOf = assembly'.valueOf := by
  have mentions := (ProgramRules.mentions_moved global same).append_right ProgramRules.bounds
  funext name
  by_cases known : name ∈ rules.mentions statements ++ ProgramRules.bounds
  · refine ProgramRules.value_unique acceptable describes.definitions ?_ known
    intro name definition there
    refine describes'.definitions name definition ?_
    -- The label behind the last word stands where it did.
    rw [ProgramRules.allDefinitions, Site.here, ← ProgramRules.address_moved same]
    exact ((ProgramRules.definitions_moved global same).append_right _).mem_iff.1 there
  · have absent := mt (describes.names name).1 known
    have absent' := mt (describes'.names name).1 (mt mentions.mem_iff.2 known)
    rw [valueOf_eq_zero fun symbol member named => absent ⟨symbol, member, named⟩,
      valueOf_eq_zero fun symbol member named => absent' ⟨symbol, member, named⟩]

theorem mem_symbols_moved
    (types : ∀ symbol ∈ assembly.symbols,
      symbol.type = Statement.typeAt rules.layout statements symbol.value)
    (types' : ∀ symbol ∈ assembly'.symbols,
      symbol.type = Statement.typeAt rules.layout moved symbol.value)
    {symbol : Symbol} (member : symbol ∈ assembly.symbols) : symbol ∈ assembly'.symbols := by
  have mentions := (ProgramRules.mentions_moved global same).append_right ProgramRules.bounds
  have known := mentions.mem_iff.1 ((describes.names _).1 ⟨symbol, member, rfl⟩)
  obtain ⟨symbol', member', named⟩ := (describes'.names _).2 known
  have values : symbol'.value = symbol.value := by
    rw [← describes.values symbol member, ← describes'.values symbol' member', named,
      valueOf_moved global same acceptable describes describes']
  have shown : symbol'.type = symbol.type := by
    rw [types symbol member, types' symbol' member', values, Statement.typeAt, Statement.typeAt,
      ← Statement.wordTypes_filter rules.layout statements, same.others, Statement.wordTypes_filter]
  obtain rfl : symbol' = symbol := by
    cases symbol
    cases symbol'
    simp_all
  exact member'

end Moved

/-- Address fixes may stand anywhere. If they are moved, and all other statements keep their order,
the statements make a program exactly if they did before, with the same image and the same labels. -/
theorem ofStatements_fixesMoved {rules : AssemblyRules} (global : rules.localLabels = false)
    (same : Statement.FixesMoved statements moved) :
    ((∃ assembly, ofStatements rules statements = .ok assembly) ↔
        ∃ assembly, ofStatements rules moved = .ok assembly) ∧
      ∀ assembly assembly', ofStatements rules statements = .ok assembly →
        ofStatements rules moved = .ok assembly' →
          assembly.image = assembly'.image ∧ assembly.symbols.Perm assembly'.symbols := by
  cases chosen : rules.chosenLayout with
  | error failure =>
      have fails (statements : List Statement) : ofStatements rules statements = .error failure := by
        rw [ofStatements, chosen]
        rfl
      simp [fails]
  | ok layout =>
      have global : (rules.programRules layout).localLabels = false := global
      refine ⟨?_, fun assembly assembly' assembled assembled' => ?_⟩
      · rw [(ofStatements_outcome chosen statements).isOk_iff,
          (ofStatements_outcome chosen moved).isOk_iff]
        exact ⟨ProgramRules.acceptable_moved global same,
          ProgramRules.acceptable_moved global same.symm⟩
      · obtain ⟨acceptable, describes⟩ :=
          (ofStatements_outcome chosen statements).of_eq_ok assembled
        obtain ⟨acceptable', describes'⟩ := (ofStatements_outcome chosen moved).of_eq_ok assembled'
        obtain ⟨names, types⟩ := symbols_of_ofStatements chosen assembled
        obtain ⟨names', types'⟩ := symbols_of_ofStatements chosen assembled'
        refine ⟨Array.toList_inj.1 ?_, ?_⟩
        · rw [describes.image, describes'.image,
            valueOf_moved global same acceptable describes describes',
            ProgramRules.words_moved global same]
        · -- Both lists have each label once, so it is enough that they have the same labels.
          rw [List.perm_ext_iff_of_nodup names.of_map names'.of_map]
          intro symbol
          exact ⟨mem_symbols_moved global same acceptable describes describes' types types',
            mem_symbols_moved global same.symm acceptable' describes' describes types' types⟩

def movedSample : List Statement := sample.filter (·.isFix) ++ sample.filter (!·.isFix)

theorem ofStatements_fixesMoved_sample :
    sampleRules.localLabels = false ∧ Statement.FixesMoved sample movedSample ∧
      movedSample ≠ sample ∧ ∃ assembly assembly',
        ofStatements sampleRules sample = .ok assembly ∧
        ofStatements sampleRules movedSample = .ok assembly' ∧
        assembly.image = assembly'.image ∧ assembly.symbols.Perm assembly'.symbols := by
  have same : Statement.FixesMoved sample movedSample := ⟨by decide, .of_eq (by decide)⟩
  have chosen : sampleRules.chosenLayout = .ok .v2 := rfl
  have accepted := (ofStatements_outcome chosen sample).isOk_iff.2 sample_acceptable
  have global : sampleRules.localLabels = false := rfl
  obtain ⟨accepted_iff, agree⟩ := ofStatements_fixesMoved global same
  obtain ⟨assembly', assembled'⟩ := accepted_iff.1 accepted
  obtain ⟨assembly, assembled⟩ := accepted
  exact ⟨global, same, by decide, assembly, assembly', assembled, assembled',
    agree assembly assembly' assembled assembled'⟩

end Assembly

end Dcpu
