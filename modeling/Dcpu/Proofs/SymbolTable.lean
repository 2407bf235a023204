import Dcpu.Proofs.AliasChain

set_option autoImplicit false

namespace Dcpu

/-- What a label was defined to be; an alias by the name of its target. -/
inductive Definition
  | value (value : Word)
  | sameAs (target : Text)
deriving DecidableEq, Repr

namespace SymbolTable

structure Valid (table : SymbolTable) : Prop where
  names : ∀ name index, table.names[name]? = some index ↔
    ∃ label : Label, table.labels[index]? = some label ∧ label.name = name
  size_le : table.size ≤ addressSpace
  ends : ∀ index < table.size, ∃ steps last, Reaches table.labels index steps last

def meaning (labels : Array Label) : Binding → Option Definition
  | .unbound => none
  | .value value => some (.value value)
  | .alias target => (labels[target]?).map fun other => .sameAs other.name

def definition? (table : SymbolTable) (name : Text) : Option Definition :=
  ((table.names[name]?).bind (table.labels[·]?)).bind fun label =>
    meaning table.labels label.binding

def value? (table : SymbolTable) (name : Text) : Option Word :=
  ((table.names[name]?).bind table.target?).map Label.ownValue

theorem mem_names_iff {table : SymbolTable} {name : Text} :
    name ∈ table.names ↔ ∃ index, table.names[name]? = some index := by
  rw [Std.HashMap.mem_iff_isSome_getElem?, Option.isSome_iff_exists]

theorem not_mem_names_iff {table : SymbolTable} {name : Text} :
    name ∉ table.names ↔ table.names[name]? = none := by
  rw [Std.HashMap.mem_iff_isSome_getElem?, Option.not_isSome_iff_eq_none]

theorem valid_empty : empty.Valid where
  names name index := by simp [empty]
  size_le := by simp [empty, size]
  ends index within := by simp [empty, size] at within

namespace Valid

variable {table : SymbolTable} {name : Text} {index : Nat}

theorem named_lt (valid : table.Valid) (found : table.names[name]? = some index) :
    index < table.size := by
  obtain ⟨label, there, _⟩ := (valid.names name index).1 found
  exact (Array.getElem?_eq_some_iff.1 there).1

theorem name_at (valid : table.Valid) {label : Label} (there : table.labels[index]? = some label) :
    table.names[label.name]? = some index :=
  (valid.names _ _).2 ⟨label, there, rfl⟩

theorem mem_iff (valid : table.Valid) :
    name ∈ table.names ↔ ∃ label ∈ table.labels.toList, label.name = name := by
  rw [mem_names_iff]
  constructor
  · rintro ⟨index, found⟩
    obtain ⟨label, there, named⟩ := (valid.names name index).1 found
    exact ⟨label, by simpa using Array.mem_of_getElem? there, named⟩
  · rintro ⟨label, member, named⟩
    obtain ⟨index, there⟩ := List.getElem?_of_mem member
    exact ⟨index, (valid.names name index).2 ⟨label, by simpa using there, named⟩⟩

theorem names_nodup (valid : table.Valid) : (table.labels.toList.map Label.name).Nodup := by
  rw [List.nodup_iff_getElem?_ne_getElem?]
  intro i j less within same
  simp only [List.length_map, Array.length_toList] at within
  have first : table.labels[i]? = some table.labels[i] := Array.getElem?_eq_getElem (by omega)
  have second : table.labels[j]? = some table.labels[j] := Array.getElem?_eq_getElem within
  have named : table.labels[i].name = table.labels[j].name := by
    simpa [first, second] using same
  have here := valid.name_at first
  rw [named, valid.name_at second] at here
  have := Option.some.inj here
  omega

theorem size_eq (valid : table.Valid) {mentions : List Text}
    (members : ∀ n, n ∈ table.names ↔ n ∈ mentions) : table.size = mentions.dedup.length := by
  have permuted : (table.labels.toList.map Label.name).Perm mentions.dedup := by
    rw [List.perm_ext_iff_of_nodup valid.names_nodup mentions.nodup_dedup]
    intro n
    rw [List.mem_dedup, ← members, valid.mem_iff, List.mem_map]
  simpa [size] using permuted.length_eq

theorem target_found (valid : table.Valid) {label : Label} {target : Nat}
    (there : table.labels[index]? = some label) (goes : label.binding = .alias target) :
    ∃ other, table.labels[target]? = some other := by
  obtain ⟨steps, last, reaches⟩ := valid.ends index (Array.getElem?_eq_some_iff.1 there).1
  cases reaches with
  | here found ends => exact absurd goes (binding_ne_alias found ends there target)
  | next found goes' rest =>
      obtain rfl := Option.some.inj (there.symm.trans found)
      obtain rfl := Binding.alias.inj (goes.symm.trans goes')
      exact rest.first_found

theorem definition?_eq (valid : table.Valid) {label : Label}
    (there : table.labels[index]? = some label) :
    table.definition? label.name = meaning table.labels label.binding := by
  simp only [definition?, valid.name_at there, there, Option.bind_some]

theorem resolves (valid : table.Valid) (within : index < table.size) :
    ∃ last, table.resolve? index = some last := by
  obtain ⟨steps, last, reaches⟩ := valid.ends index within
  exact ⟨last, resolve?_eq_some_iff.2 ⟨steps, reaches⟩⟩

end Valid

def freshLabel (name : Text) (position : Position) : Label :=
  { name, used := position, defined := .nowhere, binding := .unbound, type := .unknown }

def note (table : SymbolTable) (name : Text) (position : Position) : SymbolTable :=
  if name ∈ table.names then table
  else
    { labels := table.labels.push (freshLabel name position)
      names := table.names.insert name table.size }

section Note

variable {table : SymbolTable} {name : Text} {position : Position}

theorem mem_note {other : Text} :
    other ∈ (table.note name position).names ↔ other = name ∨ other ∈ table.names := by
  unfold note
  split
  · rename_i present
    constructor
    · exact .inr
    · rintro (rfl | member)
      · exact present
      · exact member
  · rw [Std.HashMap.mem_insert, beq_iff_eq, eq_comm]

theorem names_note {other : Text} {index : Nat} (found : table.names[other]? = some index) :
    (table.note name position).names[other]? = some index := by
  unfold note
  split
  · exact found
  · rename_i absent
    have distinct : name ≠ other := by
      rintro rfl
      exact absent (mem_names_iff.2 ⟨index, found⟩)
    rw [Std.HashMap.getElem?_insert, if_neg (by simpa using distinct), found]

theorem labels_note {index : Nat} {label : Label} (found : table.labels[index]? = some label) :
    (table.note name position).labels[index]? = some label := by
  unfold note
  split
  · exact found
  · have within := (Array.getElem?_eq_some_iff.1 found).1
    simp [Array.getElem?_push, Nat.ne_of_lt within, found]

theorem size_le_note : table.size ≤ (table.note name position).size := by
  unfold note
  split <;> simp [size]

theorem Reaches.note {index steps last : Nat} (reaches : Reaches table.labels index steps last) :
    Reaches (table.note name position).labels index steps last := by
  induction reaches with
  | here found ends => exact .here (labels_note found) ends
  | next found goes _ ih => exact .next (labels_note found) goes ih

theorem note_valid (valid : table.Valid) (fits : (table.note name position).size ≤ addressSpace) :
    (table.note name position).Valid := by
  by_cases present : name ∈ table.names
  · simpa only [note, present, if_true] using valid
  have unseen := not_mem_names_iff.1 present
  refine ⟨fun other index => ?_, fits, fun index within => ?_⟩
  -- The new name is found at the end of the labels, and every other name where it was.
  · simp only [note, present, if_false, Std.HashMap.getElem?_insert, beq_iff_eq,
      Array.getElem?_push]
    by_cases same : name = other
    · subst same
      simp only [if_true, Option.some.injEq]
      constructor
      · rintro rfl
        simp [size, freshLabel]
      · rintro ⟨label, there, named⟩
        by_cases last : index = table.labels.size
        · exact last.symm
        · simp only [last, if_false] at there
          have := valid.name_at there
          rw [named, unseen] at this
          simp at this
    · simp only [same, if_false, valid.names]
      by_cases last : index = table.labels.size
      · subst last
        simp [freshLabel, same]
      · simp [last]
  -- No chain that was there is touched, and the new label ends its own.
  · by_cases old : index < table.size
    · obtain ⟨steps, last, reaches⟩ := valid.ends index old
      exact ⟨steps, last, reaches.note⟩
    · have here : index = table.labels.size := by
        simp only [note, present, if_false, size, Array.size_push] at within old
        omega
      subst here
      have there : (table.note name position).labels[table.labels.size]? =
          some (freshLabel name position) := by simp [note, present]
      exact ⟨0, table.labels.size, .here there rfl⟩

theorem definition?_note (valid : table.Valid) (other : Text) :
    (table.note name position).definition? other = table.definition? other := by
  by_cases present : name ∈ table.names
  · simp only [note, present, if_true]
  by_cases same : other = name
  · subst same
    have unseen := not_mem_names_iff.1 present
    simp only [definition?, unseen]
    simp [note, present, size, freshLabel, meaning]
  · cases found : table.names[other]? with
    | none =>
        have absent : (table.note name position).names[other]? = none := by
          rw [note, if_neg present, Std.HashMap.getElem?_insert,
            if_neg (by simpa using Ne.symm same), found]
        simp only [definition?, found, absent, Option.bind_none]
    | some index =>
        obtain ⟨label, there, _⟩ := (valid.names other index).1 found
        have kept : meaning (table.note name position).labels label.binding =
            meaning table.labels label.binding := by
          cases goes : label.binding with
          | unbound => rfl
          | value _ => rfl
          | «alias» target =>
              -- An alias keeps the index of its target, and no label has moved.
              obtain ⟨next, nextFound⟩ := valid.target_found there goes
              simp only [meaning, labels_note nextFound, nextFound]
        simp only [definition?, names_note found, labels_note there, found, there,
          Option.bind_some, kept]

theorem lookup_cases (valid : table.Valid) (name : Text) (position : Position) :
    (∃ index, table.lookup name position = (.ok index, table.note name position) ∧
      (table.note name position).names[name]? = some index ∧
      (table.note name position).size ≤ addressSpace) ∨
    (table.lookup name position = (.error ⟨position, .oversizedImage⟩, table) ∧
      ¬ (table.note name position).size ≤ addressSpace) := by
  cases found : table.names[name]? with
  | some index =>
      have kept : table.note name position = table := if_pos (mem_names_iff.2 ⟨index, found⟩)
      rw [kept]
      exact .inl ⟨index, by simp only [lookup, found], found, valid.size_le⟩
  | none =>
      have absent := not_mem_names_iff.2 found
      by_cases room : addressSpace ≤ table.size
      · exact .inr ⟨by simp [lookup, found, room], by
          simp only [note, absent, if_false, size, Array.size_push] at room ⊢
          omega⟩
      · refine .inl ⟨table.size, by simp [lookup, room, note, absent, freshLabel], ?_, ?_⟩
        · simp [note, absent]
        · simp only [note, absent, if_false, size, Array.size_push] at room ⊢
          omega

end Note

def noteAll (table : SymbolTable) : List (Text × Position) → SymbolTable
  | [] => table
  | (name, position) :: rest => (table.note name position).noteAll rest

section NoteAll

variable {table : SymbolTable}

theorem noteAll_append (table : SymbolTable) (first second : List (Text × Position)) :
    table.noteAll (first ++ second) = (table.noteAll first).noteAll second := by
  induction first generalizing table with
  | nil => rfl
  | cons mention rest ih => exact ih _

theorem size_le_noteAll (table : SymbolTable) (mentions : List (Text × Position)) :
    table.size ≤ (table.noteAll mentions).size := by
  induction mentions generalizing table with
  | nil => exact Nat.le_refl _
  | cons mention rest ih => exact Nat.le_trans size_le_note (ih _)

theorem names_noteAll {mentions : List (Text × Position)} {name : Text} {index : Nat}
    (found : table.names[name]? = some index) :
    (table.noteAll mentions).names[name]? = some index := by
  induction mentions generalizing table with
  | nil => exact found
  | cons mention rest ih => exact ih (names_note found)

theorem mem_noteAll {mentions : List (Text × Position)} {name : Text} :
    name ∈ (table.noteAll mentions).names ↔ name ∈ mentions.map Prod.fst ∨ name ∈ table.names := by
  induction mentions generalizing table with
  | nil => simp [noteAll]
  | cons mention rest ih =>
      rw [noteAll, ih, mem_note, List.map_cons, List.mem_cons]
      exact or_left_comm.trans (or_assoc.symm)

theorem noteAll_valid {mentions : List (Text × Position)} (valid : table.Valid)
    (fits : (table.noteAll mentions).size ≤ addressSpace) : (table.noteAll mentions).Valid := by
  induction mentions generalizing table with
  | nil => exact valid
  | cons mention rest ih =>
      exact ih (note_valid valid (Nat.le_trans (size_le_noteAll _ rest) fits)) fits

theorem definition?_noteAll {mentions : List (Text × Position)} (valid : table.Valid)
    (fits : (table.noteAll mentions).size ≤ addressSpace) (name : Text) :
    (table.noteAll mentions).definition? name = table.definition? name := by
  induction mentions generalizing table with
  | nil => rfl
  | cons mention rest ih =>
      have room := Nat.le_trans (size_le_noteAll _ rest) fits
      rw [noteAll, ih (note_valid valid room) fits, definition?_note valid]

theorem size_noteAll {seen : List Text} (members : ∀ n, n ∈ table.names ↔ n ∈ seen)
    (counted : table.size = seen.dedup.length) (mentions : List (Text × Position)) :
    (table.noteAll mentions).size = (seen ++ mentions.map Prod.fst).dedup.length := by
  induction mentions generalizing table seen with
  | nil => simpa [noteAll] using counted
  | cons mention rest ih =>
      obtain ⟨name, position⟩ := mention
      have counted' : (table.note name position).size = (name :: seen).dedup.length := by
        by_cases present : name ∈ table.names
        · rw [note, if_pos present, List.dedup_cons_of_mem ((members name).1 present), counted]
        · rw [note, if_neg present,
            List.dedup_cons_of_notMem fun seen => present ((members name).2 seen), size,
            Array.size_push, List.length_cons, ← counted, size]
      have members' (n : Text) : n ∈ (table.note name position).names ↔ n ∈ name :: seen := by
        rw [mem_note, members, List.mem_cons]
      rw [noteAll, ih members' counted']
      -- The name stands in front of those seen before, and only the number of names matters.
      refine List.Perm.length_eq (List.Perm.dedup ?_)
      simpa using List.perm_middle.symm

end NoteAll

def Links (table : SymbolTable) (name target : Text) : Prop :=
  table.definition? name = some (.sameAs target)

section Links

variable {table : SymbolTable} {index steps last : Nat} {label : Label}

theorem meaning_eq_none_iff (valid : table.Valid) (there : table.labels[index]? = some label) :
    meaning table.labels label.binding = none ↔ label.isDefined = false := by
  cases goes : label.binding with
  | unbound => simp [meaning, Label.isDefined, Label.isFixed, Label.isAlias, goes]
  | value _ => simp [meaning, Label.isDefined, Label.isFixed, Label.isAlias, goes]
  | «alias» target =>
      obtain ⟨other, found⟩ := valid.target_found there goes
      simp [meaning, found, Label.isDefined, Label.isFixed, Label.isAlias, goes]

theorem Reaches.links (valid : table.Valid) (reaches : Reaches table.labels index steps last)
    {other : Label} (there : table.labels[index]? = some label)
    (found : table.labels[last]? = some other) :
    Relation.ReflTransGen table.Links label.name other.name := by
  induction reaches generalizing label with
  | here _ _ =>
      obtain rfl := Option.some.inj (there.symm.trans found)
      exact .refl
  | @next index target _ _ label' there' goes rest ih =>
      obtain rfl := Option.some.inj (there.symm.trans there')
      obtain ⟨next, nextFound⟩ := rest.first_found
      have link : table.Links label.name next.name := by
        rw [Links, valid.definition?_eq there, goes]
        simp [meaning, nextFound]
      exact .head link (ih nextFound found)

theorem reaches_of_links (valid : table.Valid) {name target : Text}
    (links : Relation.ReflTransGen table.Links name target) {index' : Nat}
    (found : table.names[name]? = some index) (found' : table.names[target]? = some index')
    (reaches : Reaches table.labels index' steps last) :
    ∃ steps', Reaches table.labels index steps' last := by
  induction links using Relation.ReflTransGen.head_induction_on generalizing index with
  | refl =>
      obtain rfl := Option.some.inj (found.symm.trans found')
      exact ⟨steps, reaches⟩
  | @head name next link _ ih =>
      obtain ⟨label, there, named⟩ := (valid.names _ _).1 found
      rw [Links, ← named, valid.definition?_eq there] at link
      cases goes : label.binding with
      | unbound => simp [meaning, goes] at link
      | value _ => simp [meaning, goes] at link
      | «alias» target =>
          obtain ⟨other, nextFound⟩ := valid.target_found there goes
          have same : other.name = next := by simpa [meaning, goes, nextFound] using link
          obtain ⟨steps', rest⟩ := ih ((valid.names _ _).2 ⟨other, nextFound, same⟩)
          exact ⟨steps' + 1, .next there goes rest⟩

theorem resolve?_eq_iff_links (valid : table.Valid) {name target : Text} {index' : Nat}
    (found : table.names[name]? = some index) (found' : table.names[target]? = some index')
    (undefined : table.definition? name = none) :
    table.resolve? index' = some index ↔ Relation.ReflTransGen table.Links target name := by
  obtain ⟨label, there, named⟩ := (valid.names _ _).1 found
  obtain ⟨label', there', named'⟩ := (valid.names _ _).1 found'
  rw [resolve?_eq_some_iff]
  constructor
  · rintro ⟨steps, reaches⟩
    simpa only [named, named'] using reaches.links valid there' there
  · intro links
    have isOpen : label.isDefined = false := by
      rw [← meaning_eq_none_iff valid there, ← valid.definition?_eq there, named, undefined]
    have ends : label.isAlias = false := by
      simp only [Label.isDefined, Bool.or_eq_false_iff] at isOpen
      exact isOpen.2
    exact reaches_of_links valid links found' found (.here there ends)

end Links

end SymbolTable

end Dcpu
