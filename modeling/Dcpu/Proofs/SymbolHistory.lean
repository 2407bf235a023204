import Dcpu.Proofs.SymbolValue

set_option autoImplicit false

namespace Dcpu

inductive SymbolCall
  | lookup (name : Text) (position : Position)
  | fixValue (index : Nat) (value : Word) (position : Position)
  | fixAlias (index target : Nat) (position : Position)
  | validate
  | classify (code : Array Code)

namespace SymbolCall

def name? : SymbolCall → Option Text
  | .lookup name _ => some name
  | .fixValue .. | .fixAlias .. | .validate | .classify _ => none

end SymbolCall

namespace SymbolTable

variable {table : SymbolTable} {index target : Nat} {position : Position}

def call (table : SymbolTable) : SymbolCall → Except Failure Unit × SymbolTable
  | .lookup name position =>
      match table.lookup name position with
      | (.ok _, table) => (.ok (), table)
      | (.error diagnostic, table) => (.error (.located diagnostic), table)
  | .fixValue index value position => table.fixValue index value position
  | .fixAlias index target position => table.fixAlias index target position
  | .validate =>
      match table.validate with
      | .ok () => (.ok (), table)
      | .error diagnostic => (.error (.located diagnostic), table)
  | .classify code => (.ok (), table.classify code)

def after (table : SymbolTable) (c : SymbolCall) : SymbolTable := (table.call c).2

def history (calls : List SymbolCall) : SymbolTable := calls.foldl after empty

theorem history_concat (calls : List SymbolCall) (c : SymbolCall) :
    history (calls ++ [c]) = (history calls).after c :=
  List.foldl_concat after empty c calls

section Step

theorem lookup_of_error {name : Text} {diagnostic : Diagnostic}
    (failed : (table.lookup name position).1 = .error diagnostic) :
    (table.lookup name position).2 = table := by
  cases found : table.names[name]? with
  | some index => simp only [lookup, found]
  | none =>
      by_cases full : addressSpace ≤ table.size
      · simp only [lookup, found, if_pos full]
      · simp [lookup, found, full] at failed

theorem fixValue_of_error {value : Word} {failure : Failure}
    (failed : (table.fixValue index value position).1 = .error failure) :
    (table.fixValue index value position).2 = table := by
  unfold fixValue at failed ⊢
  cases opened : table.openLabel index position with
  | error failure => rfl
  | ok label =>
      rw [opened] at failed
      cases failed

theorem fixAlias_of_error {failure : Failure}
    (failed : (table.fixAlias index target position).1 = .error failure) :
    (table.fixAlias index target position).2 = table := by
  unfold fixAlias at failed ⊢
  cases opened : table.openLabel index position with
  | error failure => rfl
  | ok label =>
      rw [opened] at failed
      dsimp only at failed ⊢
      cases refused : table.aliasFailure? index target label position with
      | some failure => rfl
      | none =>
          rw [refused] at failed
          cases failed

theorem after_validate (table : SymbolTable) : table.after .validate = table := by
  unfold after call
  cases table.validate <;> rfl

theorem after_of_error {c : SymbolCall} {failure : Failure}
    (failed : (table.call c).1 = .error failure) : table.after c = table := by
  cases c with
  | lookup name position =>
      have kept := @lookup_of_error table position name
      simp only [after, call] at failed ⊢
      cases outcome : table.lookup name position with
      | mk answer table' =>
          rw [outcome] at failed kept
          cases answer with
          | ok index => cases failed
          | error diagnostic => exact kept rfl
  | fixValue index value position => exact fixValue_of_error failed
  | fixAlias index target position => exact fixAlias_of_error failed
  | validate => exact after_validate table
  | classify code => cases failed

theorem after_lookup (valid : table.Valid) (name : Text) (position : Position) :
    (table.after (.lookup name position) = table.note name position ∧
      (table.note name position).size ≤ addressSpace) ∨
    (table.after (.lookup name position) = table ∧
      ¬ (table.note name position).size ≤ addressSpace) := by
  rcases lookup_cases valid name position with ⟨index, made, _, fits⟩ | ⟨failed, full⟩
  · exact .inl ⟨by simp only [after, call, made], fits⟩
  · exact .inr ⟨by simp only [after, call, failed], full⟩

theorem openLabel_of_none (missing : table.labels[index]? = none) (position : Position) :
    table.openLabel index position = .error (.breach .index) := by
  simp only [openLabel, missing]

theorem after_fixValue (valid : table.Valid) (index : Nat) (value : Word) (position : Position) :
    table.after (.fixValue index value position) = table ∨
    (table.after (.fixValue index value position) = table.define index (.value value) position ∧
      (table.define index (.value value) position).Valid) := by
  cases there : table.labels[index]? with
  | none =>
      apply Or.inl
      simp only [after, call, fixValue, openLabel_of_none there position]
  | some label =>
      rcases fixValue_cases valid (valid.name_at there) value position with
        ⟨made, valid', _⟩ | ⟨diagnostic, failed, _⟩
      · exact .inr ⟨by simp only [after, call, made], valid'⟩
      · exact .inl (by simp only [after, call, failed])

theorem after_fixAlias (valid : table.Valid) (index target : Nat) (position : Position) :
    table.after (.fixAlias index target position) = table ∨
    (table.after (.fixAlias index target position) = table.define index (.alias target) position ∧
      (table.define index (.alias target) position).Valid) := by
  cases there : table.labels[index]? with
  | none =>
      apply Or.inl
      simp only [after, call, fixAlias, openLabel_of_none there position]
  | some label =>
      cases there' : table.labels[target]? with
      | none =>
          -- A target that does not exist is refused, unless the label is refused before it.
          apply Or.inl
          cases opened : table.openLabel index position with
          | error failure => simp only [after, call, fixAlias, opened]
          | ok label' =>
              cases resolved : table.resolve? target <;>
                simp only [after, call, fixAlias, opened, aliasFailure?, resolved, there']
      | some other =>
          rcases fixAlias_cases valid (valid.name_at there) (valid.name_at there') position with
            ⟨made, valid', _⟩ | ⟨diagnostic, failed, _⟩
          · exact .inr ⟨by simp only [after, call, made], valid'⟩
          · exact .inl (by simp only [after, call, failed])

theorem after_cases (valid : table.Valid) {c : SymbolCall} (other : c.name? = none) :
    table.after c = table ∨
    (∃ index binding position, table.after c = table.define index binding position ∧
      (table.define index binding position).Valid) ∨
    (∃ code, table.after c = table.classify code) := by
  cases c with
  | lookup name position => contradiction
  | fixValue index value position =>
      exact (after_fixValue valid index value position).imp id fun made => .inl ⟨_, _, _, made⟩
  | fixAlias index target position =>
      exact (after_fixAlias valid index target position).imp id fun made => .inl ⟨_, _, _, made⟩
  | validate => exact .inl table.after_validate
  | classify code => exact .inr (.inr ⟨code, rfl⟩)

theorem valid_after (valid : table.Valid) (c : SymbolCall) : (table.after c).Valid := by
  cases asked : c.name? with
  | some name =>
      cases c with
      | lookup name position =>
          rcases after_lookup valid name position with ⟨made, fits⟩ | ⟨same, _⟩
          · rw [made]
            exact note_valid valid fits
          · rwa [same]
      | _ => contradiction
  | none =>
      rcases after_cases valid asked with same | ⟨_, _, _, made, valid'⟩ | ⟨code, made⟩
      · rwa [same]
      · rwa [made]
      · rw [made]
        exact classify_valid valid

end Step

section Names

def labelNames (table : SymbolTable) : List Text := table.labels.toList.map Label.name

theorem labelNames_define (binding : Binding) :
    (table.define index binding position).labelNames = table.labelNames := by
  apply List.ext_getElem?
  intro i
  simp only [labelNames, List.getElem?_map, Array.getElem?_toList, labels_define]
  split
  · cases table.labels[i]? <;> rfl
  · rfl

theorem labelNames_classify (code : Array Code) :
    (table.classify code).labelNames = table.labelNames := by
  simp [labelNames, classify, Function.comp_def]

theorem names_iff (valid : table.Valid) (name : Text) (index : Nat) :
    table.names[name]? = some index ↔ table.labelNames[index]? = some name := by
  rw [valid.names]
  simp [labelNames]

theorem mem_labelNames (valid : table.Valid) (name : Text) :
    name ∈ table.labelNames ↔ name ∈ table.names := by
  rw [valid.mem_iff, labelNames, List.mem_map]

theorem labelNames_after (valid : table.Valid) {c : SymbolCall} (other : c.name? = none) :
    (table.after c).labelNames = table.labelNames := by
  rcases after_cases valid other with same | ⟨_, binding, _, made, _⟩ | ⟨code, made⟩
  · rw [same]
  · rw [made, labelNames_define]
  · rw [made, labelNames_classify]

theorem eraseDups_concat (names : List Text) (name : Text) :
    (names ++ [name]).eraseDups =
      if name ∈ names then names.eraseDups else names.eraseDups ++ [name] := by
  rw [List.eraseDups_append]
  by_cases seen : name ∈ names <;> simp [List.removeAll, seen, List.eraseDups_cons]

/-- The labels have the names that were asked for, each where it was asked for first, as far as there
is room. -/
def Ordered (table : SymbolTable) (names : List Text) : Prop :=
  table.labelNames = names.eraseDups.take addressSpace

theorem Ordered.lookup {names : List Text} (valid : table.Valid) (ordered : table.Ordered names)
    (name : Text) (position : Position) :
    (table.after (.lookup name position)).Ordered (names ++ [name]) := by
  have counted : table.size = min addressSpace names.eraseDups.length := by
    rw [← List.length_take, ← ordered, labelNames, List.length_map, Array.length_toList, size]
  unfold Ordered at ordered ⊢
  rw [eraseDups_concat]
  by_cases seen : name ∈ table.names
  · -- A name that is found was asked for before.
    have before : name ∈ names := by
      rw [← mem_labelNames valid, ordered] at seen
      exact List.mem_eraseDups.1 (List.mem_of_mem_take seen)
    have same : table.after (.lookup name position) = table := by
      obtain ⟨index, found⟩ := mem_names_iff.1 seen
      simp only [after, call, SymbolTable.lookup, found]
    rw [same, if_pos before, ordered]
  have noted : (table.note name position).labelNames = table.labelNames ++ [name] := by
    simp [labelNames, note, seen, freshLabel]
  have grown : (table.note name position).size = table.size + 1 := by
    simp [note, seen, size]
  rcases after_lookup valid name position with ⟨made, fits⟩ | ⟨same, full⟩
  · -- There was room for one more, so no name has been refused so far.
    have few : names.eraseDups.length < addressSpace := by omega
    rw [List.take_of_length_le (Nat.le_of_lt few)] at ordered
    have new : name ∉ names := by
      intro before
      apply seen
      rw [← mem_labelNames valid, ordered]
      exact List.mem_eraseDups.2 before
    have whole : (names.eraseDups ++ [name]).length ≤ addressSpace := by
      rw [List.length_append, List.length_singleton]
      exact few
    rw [made, noted, if_neg new, List.take_of_length_le whole, ordered]
  · -- There is no room for the name, and there will never be.
    have many : addressSpace ≤ names.eraseDups.length := by omega
    rw [same, ordered]
    split
    · rfl
    · rw [List.take_append_of_le_length many]

end Names

theorem history_valid (calls : List SymbolCall) : (history calls).Valid := by
  induction calls using List.reverseRecOn with
  | nil => exact valid_empty
  | append_singleton calls c ih =>
      rw [history_concat]
      exact valid_after ih c

theorem history_ordered (calls : List SymbolCall) :
    (history calls).Ordered (calls.filterMap SymbolCall.name?) := by
  induction calls using List.reverseRecOn with
  | nil => rfl
  | append_singleton calls c ih =>
      rw [history_concat, List.filterMap_append]
      cases asked : c.name? with
      | none =>
          simp only [List.filterMap_cons, asked, List.filterMap_nil, List.append_nil]
          exact (labelNames_after (history_valid calls) asked).trans ih
      | some name =>
          cases c with
          | lookup name' position =>
              obtain rfl := Option.some.inj asked
              exact ih.lookup (history_valid calls) name' position
          | _ => contradiction

section Forwards

def Forwards (table : SymbolTable) (index target : Nat) : Prop :=
  ∃ label, table.labels[index]? = some label ∧ label.binding = .alias target

theorem Reaches.forwards {steps last : Nat} (reaches : Reaches table.labels index steps last) :
    Relation.ReflTransGen table.Forwards index last := by
  induction reaches with
  | here _ _ => exact .refl
  | next found goes _ ih => exact .head ⟨_, found, goes⟩ ih

theorem reaches_of_forwards {label : Label} (found : table.labels[index]? = some label)
    (ends : label.isAlias = false) (chain : Relation.ReflTransGen table.Forwards target index) :
    ∃ steps, Reaches table.labels target steps index := by
  induction chain using Relation.ReflTransGen.head_induction_on with
  | refl => exact ⟨0, .here found ends⟩
  | head link _ ih =>
      obtain ⟨label', found', goes⟩ := link
      obtain ⟨steps, rest⟩ := ih
      exact ⟨steps + 1, .next found' goes rest⟩

theorem resolve?_eq_iff_forwards {label : Label} (found : table.labels[index]? = some label)
    (ends : label.isAlias = false) :
    table.resolve? target = some index ↔ Relation.ReflTransGen table.Forwards target index := by
  rw [resolve?_eq_some_iff]
  constructor
  · rintro ⟨steps, reaches⟩
    exact reaches.forwards
  · exact reaches_of_forwards found ends

structure RefusesCycle (table : SymbolTable) (index target : Nat) (label other : Label)
    (position : Position) : Prop where
  refused : Relation.ReflTransGen table.Forwards target index →
    table.fixAlias index target position =
      (.error (.located ⟨position, .circularLabel label.name other.name⟩), table)
  accepted : ¬ Relation.ReflTransGen table.Forwards target index →
    table.fixAlias index target position = (.ok (), table.define index (.alias target) position)

theorem refusesCycle_of_open (valid : table.Valid) {label other : Label}
    (found : table.labels[index]? = some label) (isOpen : label.isDefined = false)
    (found' : table.labels[target]? = some other) (position : Position) :
    table.RefusesCycle index target label other position := by
  have ends : label.isAlias = false := by
    simp only [Label.isDefined, Bool.or_eq_false_iff] at isOpen
    exact isOpen.2
  have opened : table.openLabel index position = .ok label := by
    simp [openLabel, found, isOpen]
  obtain ⟨last, resolved⟩ := valid.resolves (Array.getElem?_eq_some_iff.1 found').1
  -- Only the end of the chain is looked at, and an open label is the end of every chain it is on.
  have circular : last = index ↔ Relation.ReflTransGen table.Forwards target index := by
    rw [← resolve?_eq_iff_forwards found ends, resolved, Option.some.injEq]
  constructor
  · intro chain
    simp only [fixAlias, opened, aliasFailure?, resolved, found', circular.2 chain, if_true]
  · intro apart
    have elsewhere : last ≠ index := fun same => apart (circular.1 same)
    simp only [fixAlias, opened, aliasFailure?, resolved, found', elsewhere, if_false]

end Forwards

structure AnsweredBy (table : SymbolTable) (index : Nat) (label : Label) (last : Nat)
    (final : Label) : Prop where
  chain : ∃ steps ≤ table.size, Reaches table.labels index steps last
  found : table.labels[last]? = some final
  ends : final.isAlias = false
  target : table.target? index = some final
  value : table.value index = .ok final.ownValue
  fixed : table.isFixed index = final.isFixed
  symbol : table.symbolAt label index = ⟨label.name, final.ownValue, final.type⟩

theorem answeredBy_of_valid (valid : table.Valid) {label : Label}
    (found : table.labels[index]? = some label) :
    ∃ last final, table.AnsweredBy index label last final := by
  obtain ⟨steps, last, reaches⟩ := valid.ends index (Array.getElem?_eq_some_iff.1 found).1
  obtain ⟨final, there, ends⟩ := reaches.last_found
  have target : table.target? index = some final := by
    simp only [target?, resolve?_eq_some_iff.2 ⟨steps, reaches⟩, there]
  exact ⟨last, final, {
    chain := ⟨steps, Nat.le_of_lt reaches.steps_lt, reaches⟩
    found := there
    ends := ends
    target := target
    value := by simp only [SymbolTable.value, target]
    fixed := by simp only [isFixed, target]
    symbol := by simp only [symbolAt, target] }⟩

structure Consistent (table : SymbolTable) (names : List Text) : Prop where
  order : table.labelNames = names.eraseDups.take addressSpace
  names : ∀ (name : Text) (index : Nat),
    table.names[name]? = some index ↔ table.labelNames[index]? = some name
  lookup : ∀ name position index table', table.lookup name position = (.ok index, table') →
    table'.labelNames[index]? = some name
  targets : ∀ index target, table.Forwards index target → target < table.size
  ends : ∀ index label, table.labels[index]? = some label →
    ∃ last final, table.AnsweredBy index label last final
  circular : ∀ index target label other position, table.labels[index]? = some label →
    label.isDefined = false → table.labels[target]? = some other →
    table.RefusesCycle index target label other position
  unchanged : ∀ c failure, (table.call c).1 = .error failure → table.after c = table

/-- Every chain of aliases ends, whatever has been done to the table. -/
theorem history_consistent (calls : List SymbolCall) :
    (history calls).Consistent (calls.filterMap SymbolCall.name?) := by
  have valid := history_valid calls
  exact {
    order := history_ordered calls
    names := names_iff valid
    lookup := by
      intro name position index table' made
      rcases lookup_cases valid name position with ⟨index', made', found, fits⟩ | ⟨failed, _⟩
      · rw [made'] at made
        obtain ⟨answer, rfl⟩ := Prod.mk.inj made
        obtain rfl := Except.ok.inj answer
        exact (names_iff (note_valid valid fits) name index').1 found
      · rw [failed] at made
        cases (Prod.mk.inj made).1
    targets := by
      rintro index target ⟨label, found, goes⟩
      obtain ⟨other, there⟩ := valid.target_found found goes
      exact (Array.getElem?_eq_some_iff.1 there).1
    ends := fun index label found => answeredBy_of_valid valid found
    circular := fun index target label other position found isOpen found' =>
      refusesCycle_of_open valid found isOpen found' position
    unchanged := fun c failure failed => after_of_error failed }

end SymbolTable

end Dcpu
