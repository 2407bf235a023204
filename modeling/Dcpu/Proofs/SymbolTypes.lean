import Dcpu.Proofs.AssembleStatements
import Dcpu.Proofs.LastingLabels

set_option autoImplicit false

namespace Dcpu

def Atom.type (inData : Bool) : Atom → SymbolType
  | .number .. | .character .. | .absent => .data
  -- A name is known to be data only in a `dat`.
  | .identifier .. => if inData then .data else .unknown
  | .difference .. => .unknown

def Expression.type (inData : Bool) (e : Expression) : SymbolType :=
  match e.tail with
  | none => e.head.type inData
  | some _ => .unknown

namespace Part

def type : Part → SymbolType
  | .instruction _ => .code
  | .literal _ => .data
  | .tail value _ _ => value.type false
  | .datum value _ _ => value.type true

theorem typeOfCode_code (index : Text → Nat) (kept : Nat) (part : Part) :
    SymbolTable.typeOfCode (part.code index kept) = part.type := by
  cases part with
  | instruction _ => rfl
  | literal _ => rfl
  | tail value negated _ =>
      obtain ⟨head, _ | tail, _⟩ := value
      · cases head <;> cases negated <;> rfl
      · cases negated <;> rfl
  | datum value _ _ =>
      obtain ⟨head, _ | tail, _⟩ := value
      · cases head <;> rfl
      · rfl

end Part

namespace Statement

def wordTypes (layout : Layout) (statements : List Statement) : List SymbolType :=
  statements.flatMap fun s => (s.parts layout).map Part.type

def typeAt (layout : Layout) (statements : List Statement) (address : Word) : SymbolType :=
  -- Behind the last word there is nothing to see.
  ((wordTypes layout statements)[address.toNat]?).getD .unknown

theorem length_wordTypes (layout : Layout) (statements : List Statement) :
    (wordTypes layout statements).length = (statements.map (size layout)).sum := by
  induction statements with
  | nil => rfl
  | cons s rest ih =>
      rw [List.map_cons, List.sum_cons, ← ih, wordTypes, List.flatMap_cons, List.length_append,
        List.length_map, length_parts]
      rfl

theorem lt_of_typeAt {layout : Layout} {statements : List Statement} {address : Word}
    (known : typeAt layout statements address ≠ .unknown) :
    address.toNat < (statements.map (size layout)).sum := by
  rw [← length_wordTypes]
  by_contra outside
  rw [typeAt, List.getElem?_eq_none (Nat.le_of_not_lt outside)] at known
  exact known rfl

end Statement

namespace SymbolTable

variable {table table' : SymbolTable} {name : Text} {index : Nat} {position : Position}

def Untyped (table : SymbolTable) : Prop :=
  ∀ (index : Nat) (label : Label), table.labels[index]? = some label → label.type = .unknown

theorem untyped_note (untyped : table.Untyped) : (table.note name position).Untyped := by
  unfold note
  split
  · exact untyped
  · intro index label there
    rw [Array.getElem?_push] at there
    split at there
    · obtain rfl := Option.some.inj there
      rfl
    · exact untyped index label there

theorem untyped_noteAll (untyped : table.Untyped) (mentions : List (Text × Position)) :
    (table.noteAll mentions).Untyped := by
  induction mentions generalizing table with
  | nil => exact untyped
  | cons mention rest ih => exact ih (untyped_note untyped)

theorem untyped_define (untyped : table.Untyped) (binding : Binding) :
    (table.define index binding position).Untyped := by
  intro other label there
  rw [labels_define] at there
  split at there
  · obtain ⟨old, found, rfl⟩ := Option.map_eq_some_iff.1 there
    exact untyped other old found
  · exact untyped other label there

theorem labelNames_note (valid : table.Valid) {seen : List Text}
    (ordered : table.labelNames = seen.eraseDups) :
    (table.note name position).labelNames = (seen ++ [name]).eraseDups := by
  have known : name ∈ table.names ↔ name ∈ seen := by
    rw [← mem_labelNames valid, ordered, List.mem_eraseDups]
  rw [eraseDups_concat, note]
  by_cases present : name ∈ table.names
  · rw [if_pos present, if_pos (known.1 present), ordered]
  · rw [if_neg present, if_neg (mt known.2 present), ← ordered]
    simp [labelNames, freshLabel]

theorem labelNames_noteAll (valid : table.Valid) {mentions : List (Text × Position)}
    (fits : (table.noteAll mentions).size ≤ addressSpace) {seen : List Text}
    (ordered : table.labelNames = seen.eraseDups) :
    (table.noteAll mentions).labelNames = (seen ++ mentions.map Prod.fst).eraseDups := by
  induction mentions generalizing table seen with
  | nil => simpa [noteAll] using ordered
  | cons mention rest ih =>
      have room := Nat.le_trans (size_le_noteAll _ rest) fits
      rw [noteAll, ih (note_valid valid room) fits (labelNames_note valid ordered), List.map_cons,
        List.append_assoc]
      rfl

theorem type_symbolAt (valid : table.Valid) (untyped : table.Untyped) {code : Array Code}
    {label : Label} (there : (table.classify code).labels[index]? = some label) :
    ((table.classify code).symbolAt label index).type =
      ((code[((table.classify code).symbolAt label index).value.toNat]?).map typeOfCode).getD
        .unknown := by
  have within : index < table.size := by
    simpa [classify, size] using (Array.getElem?_eq_some_iff.1 there).1
  obtain ⟨steps, last, reaches⟩ := valid.ends index within
  obtain ⟨final, found, ends⟩ := reaches.last_found
  have resolved : (table.classify code).resolve? index = some last :=
    resolve?_eq_some_iff.2 ⟨steps, reaches.classify⟩
  have classified : (table.classify code).labels[last]? = some (classifyLabel code final) := by
    rw [labels_classify, found, Option.map_some]
  have value : (classifyLabel code final).ownValue = final.ownValue := by simp [Label.ownValue]
  simp only [symbolAt, target?, resolved, classified, value]
  simp only [classifyLabel, ends, Bool.false_eq_true, if_false]
  cases code[final.ownValue.toNat]? with
  | some word => rfl
  | none => exact untyped last final found

def unsorted (table : SymbolTable) : List Symbol :=
  table.labels.toList.zipIdx.map fun entry => table.symbolAt entry.1 entry.2

theorem names_unsorted (table : SymbolTable) :
    table.unsorted.map Symbol.name = table.labelNames := by
  rw [labelNames]
  conv_rhs => rw [← List.zipIdx_map_fst 0 table.labels.toList]
  simp only [unsorted, List.map_map, Function.comp_def, symbolAt_name]

theorem names_symbols_nodup (valid : table.Valid) : (table.symbols.map Symbol.name).Nodup := by
  have sorted : (table.symbols.map Symbol.name).Perm table.labelNames :=
    ((List.mergeSort_perm _ _).map Symbol.name).trans (.of_eq table.names_unsorted)
  exact sorted.nodup_iff.2 valid.names_nodup

end SymbolTable

namespace Program

variable {p q r : Program} {rules : ProgramRules} {done statements : List Statement} {s : Statement}

/-- Names were asked for in this order, labels were defined, none of them got a type, and nothing
was written. -/
structure Untouched (p : Program) (mentions : List Text) (q : Program) : Prop where
  code : q.code = p.code
  untyped : p.symbols.Untyped → q.symbols.Untyped
  names : ∀ seen, p.symbols.labelNames = seen.eraseDups →
    q.symbols.labelNames = (seen ++ mentions).eraseDups

namespace Untouched

theorem refl (p : Program) : Untouched p [] p where
  code := rfl
  untyped before := before
  names seen ordered := by rw [ordered, List.append_nil]

theorem trans {mentions mentions' : List Text} (first : Untouched p mentions q)
    (second : Untouched q mentions' r) : Untouched p (mentions ++ mentions') r where
  code := second.code.trans first.code
  untyped before := second.untyped (first.untyped before)
  names seen ordered := by rw [second.names _ (first.names seen ordered), List.append_assoc]

theorem of_index (valid : p.symbols.Valid) {name : Text} {position : Position} {index : Nat}
    (isOk : p.index name position = .ok (index, q)) : Untouched p [name] q := by
  obtain ⟨index', found, _⟩ | ⟨refused, _⟩ := SymbolTable.lookup_cases valid name position
  · rw [Program.index, found] at isOk
    obtain ⟨_, rfl⟩ := Prod.mk.inj (Except.ok.inj isOk)
    exact ⟨rfl, SymbolTable.untyped_note, fun _ => SymbolTable.labelNames_note valid⟩
  · rw [Program.index, refused] at isOk
    simp at isOk

theorem of_call {c : SymbolCall} {index : Nat} {position : Position} {symbols : SymbolTable}
    (defines : c.defines? = some (index, position)) (fixed : p.symbols.call c = (.ok (), symbols)) :
    Untouched p [] { p with symbols } := by
  obtain ⟨_, binding, _, _, _, after⟩ := SymbolTable.define_of_call defines (congrArg Prod.fst fixed)
  rw [SymbolTable.after, fixed] at after
  subst after
  refine ⟨rfl, fun untyped => SymbolTable.untyped_define untyped binding, fun seen ordered => ?_⟩
  rw [List.append_nil, ← ordered]
  exact SymbolTable.labelNames_define binding

theorem of_fixValue {index : Nat} {value : Word} {position : Position}
    (isOk : p.fixValue index value position = .ok q) : Untouched p [] q := by
  rw [Program.fixValue] at isOk
  split at isOk
  · rename_i fixed
    obtain rfl := Except.ok.inj isOk
    exact of_call (c := .fixValue index value position) rfl fixed
  · simp at isOk

theorem of_fixAlias {index target : Nat} {position : Position}
    (isOk : p.fixAlias index target position = .ok q) : Untouched p [] q := by
  rw [Program.fixAlias] at isOk
  split at isOk
  · rename_i fixed
    obtain rfl := Except.ok.inj isOk
    exact of_call (c := .fixAlias index target position) rfl fixed
  · simp at isOk

theorem of_wrote {names : List (Text × Position)} {count : Nat} (valid : p.symbols.Valid)
    (fits : p.Fits names) (wrote : Wrote p names count [] q) :
    Untouched p ((p.whole names).map Prod.fst) q where
  code := Array.toList_inj.1 (by simpa using wrote.code)
  untyped before := by
    rw [wrote.symbols]
    exact SymbolTable.untyped_noteAll before _
  names seen ordered := by
    rw [wrote.symbols]
    exact SymbolTable.labelNames_noteAll valid fits ordered

theorem of_fixBound (valid : p.symbols.Valid) {name : Text} {value : Word}
    (isOk : p.fixBound name value = .ok q) : Untouched p [name] q := by
  obtain ⟨⟨index, noted⟩, found, _, _, fixed⟩ := (index_outcome valid name .nowhere).between isOk
  exact (of_index valid found).trans (of_fixValue fixed)

theorem of_fixAddress (valid : p.symbols.Valid) {encoding : EncodingRules} {index : Nat}
    {value : Option Expression} {place position : Position}
    (isOk : p.fixAddress encoding index value place position = .ok q) :
    Untouched p ((p.whole ((value.map Expression.names).getD [])).map Prod.fst) q := by
  cases value with
  | none => exact absurd isOk (by simp [fixAddress, EncodingRules.expression, EncodingRules.reject,
      Emitter.fail, StateT.run, bind, Except.bind])
  | some e =>
      obtain ⟨⟨word, written⟩, _, ⟨_, fits⟩, ⟨wrote, _⟩, fixed⟩ :=
        (EncodingRules.expression_outcome encoding e valid).between isOk
      have noted := of_wrote valid fits wrote
      dsimp only at fixed noted
      -- Only a number or one other label can be fixed; both leave the words alone.
      split at fixed
      · simpa using noted.trans (of_fixValue fixed)
      · simpa using noted.trans (of_fixAlias fixed)
      · simp at fixed
      · simp at fixed

end Untouched

/-- What a program has more of once a statement was written behind others: the words of the
statement and the names in it. -/
structure Adds (rules : ProgramRules) (done : List Statement) (s : Statement) (p q : Program) :
    Prop where
  words : ∃ index kept,
    q.code.toList = p.code.toList ++ (s.parts rules.layout).map (Part.code index kept)
  untyped : p.symbols.Untyped → q.symbols.Untyped
  names : ∀ seen, p.symbols.labelNames = seen.eraseDups → q.symbols.labelNames =
    (seen ++ rules.statementMentions (rules.siteOf done s) s).eraseDups

namespace Adds

theorem of_writeBody? (represents : Represents rules done p) (sound : rules.Sound done)
    (unfixed : s.isFix = false) {definitions : List (Text × Definition)}
    (entered : Entered (Represents.inside rules done s p) (Represents.labelName rules done s)
      definitions r)
    (untouched : Untouched (Represents.inside rules done s p) (Represents.labelName rules done s) r)
    (isOk : r.writeBody? rules.toEncodingRules s.body s.position = .ok q) :
    Adds rules done s p q := by
  have words_le : r.code.size ≤ addressSpace := by
    rw [entered.code]
    exact represents.words ▸ sound.words_le
  have differences_le : r.differences.size ≤ addressSpace := by
    rw [entered.differences]
    exact represents.differences ▸ sound.differences_le
  obtain ⟨⟨_, fits, _⟩, written⟩ :=
    (writeBody?_outcome entered.valid words_le differences_le unfixed).of_eq_ok isOk
  refine ⟨⟨q.indexOf, r.differences.size, ?_⟩, fun untyped => ?_, fun seen ordered => ?_⟩
  · rw [written.wrote.code, untouched.code]
    rfl
  · rw [written.wrote.symbols]
    exact SymbolTable.untyped_noteAll (untouched.untyped untyped) _
  · rw [written.wrote.symbols,
      SymbolTable.labelNames_noteAll entered.valid fits (untouched.names seen ordered),
      List.append_assoc, whole, represents.qualify_eq entered, List.map_map,
      Represents.statementMentions_eq]
    rfl

theorem of_unlabelled (represents : Represents rules done p) (sound : rules.Sound done)
    (unfixed : s.isFix = false) (unlabelled : s.label = none)
    (isOk : p.writeBody? rules.toEncodingRules s.body s.position = .ok q) :
    Adds rules done s p q := by
  have same : Represents.inside rules done s p = p := by
    rw [Represents.inside, ProgramRules.siteOf, ProgramRules.enter, unlabelled]
    exact represents.scope ▸ rfl
  have nothing : Represents.labelName rules done s = [] := by
    rw [Represents.labelName, unlabelled]
    rfl
  have entered : Entered (Represents.inside rules done s p) (Represents.labelName rules done s) []
      p := by
    rw [same, nothing]
    exact .refl represents.valid
  refine of_writeBody? represents sound unfixed entered ?_ isOk
  rw [same, nothing]
  exact .refl p

theorem of_labelled (represents : Represents rules done p) (sound : rules.Sound done)
    (unfixed : s.isFix = false) {label : LabelDefinition} (labelled : s.label = some label)
    (isOk : (do
      let (index, program) ← p.define label
      let here := program.address
      let program ← program.fixValue index here label.position
      program.writeBody? rules.toEncodingRules s.body s.position) = .ok q) :
    Adds rules done s p q := by
  rw [represents.define_eq labelled] at isOk
  obtain ⟨⟨index, noted⟩, found, _, ⟨entered, named⟩, isOk⟩ :=
    (index_outcome (p := Represents.inside rules done s p) represents.valid _ _).between isOk
  obtain ⟨defined, fixed, _, entered', isOk⟩ := (entered.fixValue_outcome named _ _).between isOk
  have nameOf : Represents.labelName rules done s =
      [rules.qualify (rules.siteOf done s) label.name] := by simp [Represents.labelName, labelled]
  rw [← nameOf] at entered'
  refine of_writeBody? represents sound unfixed entered' ?_ isOk
  rw [nameOf]
  exact (Untouched.of_index (p := Represents.inside rules done s p) represents.valid found).trans
    (.of_fixValue fixed)

theorem of_fix (represents : Represents rules done p) {label : LabelDefinition}
    (labelled : s.label = some label) {value : Option Expression} {place : Position}
    (fix : s.body = some (.addressFix value place))
    (isOk : (do
      let (index, program) ← p.define label
      program.fixAddress rules.toEncodingRules index value place label.position) = .ok q) :
    Adds rules done s p q := by
  -- A fix has no words, so it adds nothing but names.
  rw [represents.define_eq labelled] at isOk
  obtain ⟨⟨index, noted⟩, found, _, ⟨entered, _⟩, isOk⟩ :=
    (index_outcome (p := Represents.inside rules done s p) represents.valid _ _).between isOk
  dsimp only at entered isOk
  have untouched := (Untouched.of_index (p := Represents.inside rules done s p) represents.valid
    found).trans (.of_fixAddress entered.valid isOk)
  have mentioned : rules.statementMentions (rules.siteOf done s) s =
      [rules.qualify (rules.siteOf done s) label.name] ++
        (noted.whole ((value.map Expression.names).getD [])).map Prod.fst := by
    rw [Represents.statementMentions_eq, whole, represents.qualify_eq entered, List.map_map,
      Statement.bodyNames, fix, Represents.labelName, labelled]
    rfl
  refine ⟨⟨fun _ => 0, 0, ?_⟩, untouched.untyped, ?_⟩
  · rw [untouched.code, Statement.parts, fix]
    exact (List.append_nil _).symm
  · rw [mentioned]
    exact untouched.names

theorem of_writeStatement (represents : Represents rules done p) (sound : rules.Sound done)
    (isOk : p.writeStatement rules.toEncodingRules s = .ok q) : Adds rules done s p q := by
  obtain ⟨label, body, position⟩ := s
  cases label with
  | none =>
      rcases body with _ | ⟨value, place⟩ | _ | _ | _
      · exact of_unlabelled represents sound rfl rfl isOk
      · simp [Program.writeStatement] at isOk
      all_goals exact of_unlabelled represents sound rfl rfl isOk
  | some label =>
      rcases body with _ | ⟨value, place⟩ | _ | _ | _
      · exact of_labelled represents sound rfl rfl isOk
      · exact of_fix represents rfl rfl isOk
      all_goals exact of_labelled represents sound rfl rfl isOk

end Adds

/-- The words that were written show what the statements say, no label has a type yet, and labels
have their indices in the order in which the statements mention them. -/
structure Typed (rules : ProgramRules) (done : List Statement) (p : Program) : Prop where
  words : p.code.toList.map SymbolTable.typeOfCode = Statement.wordTypes rules.layout done
  labels : p.symbols.Untyped
  names : p.symbols.labelNames = (rules.mentions done).eraseDups

namespace Typed

theorem add (typed : Typed rules done p) (adds : Adds rules done s p q) :
    Typed rules (done ++ [s]) q where
  words := by
    obtain ⟨index, kept, grown⟩ := adds.words
    rw [grown, List.map_append, typed.words, List.map_map, Statement.wordTypes,
      Statement.wordTypes, List.flatMap_append, List.flatMap_singleton]
    simp only [Function.comp_def, Part.typeOfCode_code]
  labels := adds.untyped typed.labels
  names := by rw [adds.names _ typed.names, rules.mentions_concat]

theorem writeStatements (typed : Typed rules done p) (represents : Represents rules done p)
    (sound : rules.Sound done) {rest : List Statement}
    (isOk : p.writeStatements rules.toEncodingRules rest = .ok q) :
    Typed rules (done ++ rest) q := by
  -- Each statement needs the bounds on what stands before it, so soundness is carried along.
  induction rest generalizing done p with
  | nil =>
      obtain rfl := Except.ok.inj isOk
      rwa [List.append_nil]
  | cons s rest ih =>
      rw [Program.writeStatements] at isOk
      split at isOk
      · rename_i program written
        obtain ⟨follows, after⟩ := (writeStatement_outcome represents sound).of_eq_ok written
        rw [List.append_cons]
        exact ih (typed.add (.of_writeStatement represents sound written)) after
          (ProgramRules.sound_concat_iff.2 ⟨sound, follows⟩) isOk
      · simp at isOk

end Typed

theorem finish_symbols {assembly : Assembly} (represents : Represents rules statements p)
    (isOk : p.finish = .ok assembly) :
    ∃ q : Program, q.symbols.Valid ∧ Untouched p ProgramRules.bounds q ∧
      assembly.symbols = (q.symbols.classify q.code).symbols := by
  rw [finish_eq] at isOk
  obtain ⟨q, bounded, _, entered, isOk⟩ := (bounded_outcome represents).between isOk
  obtain ⟨started, first, _, entered', second⟩ :=
    (fixBound_outcome represents.valid Symbol.codeStart 0).between bounded
  have untouched := (Untouched.of_fixBound represents.valid first).trans
    (.of_fixBound entered'.valid second)
  refine ⟨q, entered.valid, untouched, ?_⟩
  dsimp only at isOk
  split at isOk
  · simp at isOk
  · split at isOk
    · simp at isOk
    · exact (congrArg Assembly.symbols (Except.ok.inj isOk)).symm

theorem Typed.type_eq {assembly : Assembly} (typed : Typed rules statements p)
    (represents : Represents rules statements p) (isOk : p.finish = .ok assembly) {symbol : Symbol}
    (member : symbol ∈ assembly.symbols) :
    symbol.type = Statement.typeAt rules.layout statements symbol.value := by
  obtain ⟨q, valid, untouched, symbols⟩ := finish_symbols represents isOk
  rw [symbols] at member
  obtain ⟨index, label, there, rfl⟩ := SymbolTable.mem_symbols_iff.1 member
  rw [SymbolTable.type_symbolAt valid (untouched.untyped typed.labels) there, Statement.typeAt,
    ← typed.words, untouched.code, List.getElem?_map, Array.getElem?_toList]

end Program

namespace Assembly

variable {rules : AssemblyRules} {layout : Layout} {statements : List Statement}
  {assembly : Assembly}

theorem written_of_ofStatements (chosen : rules.chosenLayout = .ok layout)
    (assembled : ofStatements rules statements = .ok assembly) :
    ∃ p, Program.Represents (rules.programRules layout) statements p ∧
      Program.Typed (rules.programRules layout) statements p ∧ p.finish = .ok assembly := by
  have split : ofStatements rules statements =
      (Program.empty rules.localLabels).writeStatements (rules.encodingRules layout) statements >>=
        Program.finish := by
    rw [ofStatements, chosen]
    rfl
  rw [split] at assembled
  have started := Program.represents_empty (rules.programRules layout)
  obtain ⟨p, written, _, represents, finished⟩ :=
    (Program.writeStatements_outcome started ProgramRules.sound_nil statements).between assembled
  have empty : Program.Typed (rules.programRules layout) [] (.empty rules.localLabels) :=
    ⟨rfl, fun index label there => by simp [Program.empty, SymbolTable.empty] at there, rfl⟩
  exact ⟨p, represents, empty.writeStatements started ProgramRules.sound_nil written, finished⟩

theorem symbols_of_ofStatements (chosen : rules.chosenLayout = .ok layout)
    (assembled : ofStatements rules statements = .ok assembly) :
    (assembly.symbols.map Symbol.name).Nodup ∧ ∀ symbol ∈ assembly.symbols,
      symbol.type = Statement.typeAt layout statements symbol.value := by
  obtain ⟨p, represents, typed, finished⟩ := written_of_ofStatements chosen assembled
  obtain ⟨q, valid, _, symbols⟩ := Program.finish_symbols represents finished
  refine ⟨?_, fun symbol member => typed.type_eq represents finished member⟩
  rw [symbols]
  exact SymbolTable.names_symbols_nodup (SymbolTable.classify_valid valid)

end Assembly

end Dcpu
