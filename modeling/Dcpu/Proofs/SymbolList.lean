import Dcpu.Proofs.MovedFixes

set_option autoImplicit false

namespace Dcpu

section Stable

variable {α : Type} {le : α → α → Bool} {R : α → α → Prop} {xs : List α}

theorem pairwise_mergeSort_stable (trans : ∀ a b c, le a b = true → le b c = true → le a c = true)
    (total : ∀ a b, (le a b || le b a) = true) (ordered : xs.Pairwise R) :
    (xs.mergeSort le).Pairwise fun a b => le a b = true ∧ (le b a = true → R a b) := by
  -- Together with their indices no two elements tie, and they are sorted in the same way.
  have sorted := List.pairwise_mergeSort (List.zipIdxLE_trans trans) (List.zipIdxLE_total total)
    xs.zipIdx
  have perm := List.mergeSort_perm xs.zipIdx (List.zipIdxLE le)
  have apart : (xs.zipIdx.mergeSort (List.zipIdxLE le)).Pairwise fun a b => a.2 ≠ b.2 := by
    rw [← List.pairwise_map, ← List.Nodup, (perm.map Prod.snd).nodup_iff, List.zipIdx_map_snd]
    exact List.nodup_range'
  rw [← List.mergeSort_zipIdx, List.pairwise_map]
  refine (sorted.and apart).imp_of_mem fun {a b} memberA memberB both => ?_
  obtain ⟨less, distinct⟩ := both
  have atA := List.mem_zipIdx_iff_getElem?.1 (perm.mem_iff.1 memberA)
  have atB := List.mem_zipIdx_iff_getElem?.1 (perm.mem_iff.1 memberB)
  unfold List.zipIdxLE at less
  split at less
  · rename_i below
    refine ⟨below, fun above => ?_⟩
    rw [if_pos above, decide_eq_true_eq] at less
    obtain ⟨withinA, sameA⟩ := List.getElem?_eq_some_iff.1 atA
    obtain ⟨withinB, sameB⟩ := List.getElem?_eq_some_iff.1 atB
    rw [← sameA, ← sameB]
    exact List.pairwise_iff_getElem.1 ordered _ _ withinA withinB (Nat.lt_of_le_of_ne less distinct)
  · cases less

end Stable

/-- The order of the list: by value, and for one value by whose name was seen first. -/
def Symbol.Precedes (seen : List Text) (first second : Symbol) : Prop :=
  first.value < second.value ∨
    (first.value = second.value ∧ seen.idxOf first.name < seen.idxOf second.name)

namespace SymbolTable

variable {table : SymbolTable} {seen : List Text}

theorem idxOf_eraseDups (names : List Text) :
    names.eraseDups.Pairwise fun a b => names.idxOf a < names.idxOf b := by
  induction names using List.reverseRecOn with
  | nil => exact .nil
  | append_singleton names name ih =>
      have earlier : names.eraseDups.Pairwise fun a b =>
          (names ++ [name]).idxOf a < (names ++ [name]).idxOf b := by
        refine ih.imp_of_mem fun {a b} memberA memberB less => ?_
        rwa [List.idxOf_append_of_mem (List.mem_eraseDups.1 memberA),
          List.idxOf_append_of_mem (List.mem_eraseDups.1 memberB)]
      rw [eraseDups_concat]
      by_cases seen : name ∈ names
      · rwa [if_pos seen]
      · rw [if_neg seen, List.pairwise_append]
        -- The new name comes last in both lists.
        refine ⟨earlier, List.pairwise_singleton _ _, fun a member b last => ?_⟩
        obtain rfl := List.mem_singleton.1 last
        have known := List.mem_eraseDups.1 member
        rw [List.idxOf_append_of_mem known, List.idxOf_append_of_notMem seen]
        have := List.idxOf_lt_length_iff.2 known
        omega

theorem symbols_ordered (ordered : table.labelNames = seen.eraseDups) :
    table.symbols.Pairwise (Symbol.Precedes seen) := by
  have mentioned : table.unsorted.Pairwise fun first second =>
      seen.idxOf first.name < seen.idxOf second.name := by
    rw [← List.pairwise_map (R := fun a b => seen.idxOf a < seen.idxOf b), names_unsorted, ordered]
    exact idxOf_eraseDups seen
  have trans (a b c : Symbol) (first : decide (a.value ≤ b.value) = true)
      (second : decide (b.value ≤ c.value) = true) : decide (a.value ≤ c.value) = true := by
    rw [decide_eq_true_eq] at first second ⊢
    exact UInt16.le_trans first second
  have total (a b : Symbol) :
      (decide (a.value ≤ b.value) || decide (b.value ≤ a.value)) = true := by
    simpa using UInt16.le_total a.value b.value
  refine (pairwise_mergeSort_stable trans total mentioned).imp fun {a b} both => ?_
  obtain ⟨below, tie⟩ := both
  rw [decide_eq_true_eq] at below
  by_cases same : a.value = b.value
  · exact .inr ⟨same, tie (by simp [same])⟩
  · exact .inl (UInt16.lt_of_le_of_ne below same)

end SymbolTable

namespace ProgramRules

section Pieces

variable (rules : ProgramRules)

def pieces (statements : List Statement) : List (Site × Part) :=
  (rules.placed statements).flatMap fun (site, s) =>
    (s.parts rules.layout).map fun part => (site, part)

def pieceWord (env : Text → Word) (piece : Site × Part) : Word :=
  piece.2.word (fun name => env (rules.qualify piece.1 name)) piece.1.here

theorem pieces_concat (done : List Statement) (s : Statement) :
    rules.pieces (done ++ [s]) =
      rules.pieces done ++ (s.parts rules.layout).map (Prod.mk (rules.siteOf done s)) := by
  simp [pieces, placed_concat]

theorem words_eq (env : Text → Word) (statements : List Statement) :
    rules.words env statements = (rules.pieces statements).map (rules.pieceWord env) := by
  induction statements using List.reverseRecOn with
  | nil => rfl
  | append_singleton done s ih =>
      rw [words_concat, pieces_concat, List.map_append, ← ih, List.map_map]
      rfl

theorem wordTypes_eq (statements : List Statement) :
    Statement.wordTypes rules.layout statements =
      (rules.pieces statements).map fun piece => piece.2.type := by
  induction statements using List.reverseRecOn with
  | nil => rfl
  | append_singleton done s ih =>
      rw [pieces_concat, List.map_append, ← ih, List.map_map, Statement.wordTypes,
        List.flatMap_append, List.flatMap_singleton]
      rfl

end Pieces

variable {rules : ProgramRules} {statements : List Statement}

theorem label_mem_mentions {name : Text} {definition : Definition}
    (defined : (name, definition) ∈ rules.definitions statements) :
    name ∈ rules.mentions statements := by
  obtain ⟨⟨site, s⟩, placed, found⟩ := List.mem_filterMap.1 defined
  refine List.mem_flatMap.2 ⟨(site, s), placed, ?_⟩
  obtain ⟨label, labelled, found⟩ := Option.bind_eq_some_iff.1 found
  obtain ⟨_, _, same⟩ := Option.map_eq_some_iff.1 found
  obtain ⟨rfl, _⟩ := Prod.mk.inj same
  exact List.mem_map.2 ⟨(label.name, label.position), by simp [Statement.names, labelled], rfl⟩

structure Lists (rules : ProgramRules) (statements : List Statement) (assembly : Assembly) :
    Prop where
  names : ∀ name, name ∈ assembly.symbols.map Symbol.name ↔
    name ∈ rules.mentions statements ++ bounds
  once : (assembly.symbols.map Symbol.name).Nodup
  start : ∃ type, ⟨Symbol.codeStart, 0, type⟩ ∈ assembly.symbols
  stop : ∃ type, ⟨Symbol.codeEnd, assembly.image.size.toUInt16, type⟩ ∈ assembly.symbols
  order : assembly.symbols.Pairwise (Symbol.Precedes (rules.mentions statements ++ bounds))
  past : ∀ symbol ∈ assembly.symbols, assembly.image.size ≤ symbol.value.toNat →
    symbol.type = .unknown
  type : ∀ symbol ∈ assembly.symbols, symbol.value.toNat < assembly.image.size →
    ∃ site part, (rules.pieces statements)[symbol.value.toNat]? = some (site, part) ∧
      assembly.image[symbol.value.toNat]? = some (rules.pieceWord assembly.valueOf (site, part)) ∧
      symbol.type = part.type
  aliases : ∀ name target, rules.Alias statements name target →
    ∃ value type, ⟨name, value, type⟩ ∈ assembly.symbols ∧ ⟨target, value, type⟩ ∈ assembly.symbols

namespace Describes

variable {assembly : Assembly} (describes : rules.Describes statements assembly)

include describes

theorem mem_symbols {name : Text} (known : name ∈ rules.mentions statements ++ bounds) :
    ∃ type, ⟨name, assembly.valueOf name, type⟩ ∈ assembly.symbols := by
  obtain ⟨⟨_, value, type⟩, member, rfl⟩ := (describes.names name).2 known
  have same : assembly.valueOf _ = value := describes.values _ member
  exact ⟨type, same ▸ member⟩

theorem symbols_of_alias {name target : Text} (link : rules.Alias statements name target)
    (types : ∀ symbol ∈ assembly.symbols,
      symbol.type = Statement.typeAt rules.layout statements symbol.value) :
    ∃ value type, ⟨name, value, type⟩ ∈ assembly.symbols ∧
      ⟨target, value, type⟩ ∈ assembly.symbols := by
  have same : assembly.valueOf name = assembly.valueOf target :=
    describes.definitions name (.sameAs target) (List.mem_append_left _ link)
  obtain ⟨type, member⟩ :=
    describes.mem_symbols (List.mem_append_left _ (label_mem_mentions link))
  obtain ⟨type', member'⟩ :=
    describes.mem_symbols (List.mem_append_left _ (target_mem_mentions link))
  rw [same] at member
  obtain rfl : type = type' := (types _ member).trans (types _ member').symm
  exact ⟨assembly.valueOf target, type, member, member'⟩

theorem lists (names : (assembly.symbols.map Symbol.name).Nodup)
    (order : assembly.symbols.Pairwise (Symbol.Precedes (rules.mentions statements ++ bounds)))
    (types : ∀ symbol ∈ assembly.symbols,
      symbol.type = Statement.typeAt rules.layout statements symbol.value) :
    rules.Lists statements assembly := by
  have image := describes.image
  rw [words_eq] at image
  have size : assembly.image.size = (rules.pieces statements).length := by
    rw [← Array.length_toList, image, List.length_map]
  refine ⟨fun name => ?_, names, ?_, ?_, order, fun symbol member outside => ?_,
    fun symbol member within => ?_, fun name target link => describes.symbols_of_alias link types⟩
  · rw [List.mem_map]
    exact describes.names name
  · exact describes.valueOf_codeStart ▸ describes.mem_symbols (by simp [bounds])
  · exact describes.valueOf_codeEnd ▸ describes.mem_symbols (by simp [bounds])
  · rw [types symbol member, Statement.typeAt, wordTypes_eq,
      List.getElem?_eq_none (by rwa [List.length_map, ← size])]
    rfl
  · rw [size] at within
    obtain ⟨⟨site, part⟩, there⟩ :
        ∃ piece, (rules.pieces statements)[symbol.value.toNat]? = some piece :=
      ⟨_, List.getElem?_eq_getElem within⟩
    refine ⟨site, part, there, ?_, ?_⟩
    · rw [← Array.getElem?_toList, image, List.getElem?_map, there, Option.map_some]
    · rw [types symbol member, Statement.typeAt, wordTypes_eq, List.getElem?_map, there]
      rfl

end Describes

end ProgramRules

namespace Assembly

variable {rules : AssemblyRules} {layout : Layout} {statements : List Statement}
  {assembly : Assembly}

theorem order_of_ofStatements (chosen : rules.chosenLayout = .ok layout)
    (assembled : ofStatements rules statements = .ok assembly) :
    assembly.symbols.Pairwise (Symbol.Precedes
      ((rules.programRules layout).mentions statements ++ ProgramRules.bounds)) := by
  obtain ⟨p, represents, typed, finished⟩ := written_of_ofStatements chosen assembled
  obtain ⟨q, _, untouched, symbols⟩ := Program.finish_symbols represents finished
  rw [symbols]
  refine SymbolTable.symbols_ordered ?_
  rw [SymbolTable.labelNames_classify, untouched.names _ typed.names]

/-- The symbols of an assembled program are all names in it and its two bounds, each once. They are
listed by value, and those of one value as the program first mentions them. Each has the type of the
word at its value, and an alias has the value and type of its target. -/
theorem ofStatements_lists (assembled : ofStatements rules statements = .ok assembly) :
    ∃ layout, rules.chosenLayout = .ok layout ∧
      (rules.programRules layout).Lists statements assembly := by
  cases chosen : rules.chosenLayout with
  | error failure =>
      rw [ofStatements, chosen] at assembled
      cases assembled
  | ok layout =>
      obtain ⟨_, describes⟩ := (ofStatements_outcome chosen statements).of_eq_ok assembled
      obtain ⟨names, types⟩ := symbols_of_ofStatements chosen assembled
      exact ⟨layout, rfl, describes.lists names (order_of_ofStatements chosen assembled) types⟩

theorem ofStatements_lists_sample :
    ∃ assembly, ofStatements sampleRules sample = .ok assembly ∧
      (sampleRules.programRules .v2).Lists sample assembly ∧
      ∃ value type, ⟨"twice", value, type⟩ ∈ assembly.symbols ∧
        ⟨"data", value, type⟩ ∈ assembly.symbols := by
  have chosen : sampleRules.chosenLayout = .ok .v2 := rfl
  obtain ⟨assembly, assembled⟩ := (ofStatements_outcome chosen sample).isOk_iff.2 sample_acceptable
  obtain ⟨layout, chosen', lists⟩ := ofStatements_lists assembled
  obtain rfl : Layout.v2 = layout := Except.ok.inj (chosen.symm.trans chosen')
  have link : (sampleRules.programRules .v2).Alias sample "twice" "data" := by
    unfold ProgramRules.Alias
    decide
  exact ⟨assembly, assembled, lists, lists.aliases _ _ link⟩

end Assembly

end Dcpu
