import Dcpu.Proofs.ExtendedDialect
import Dcpu.Proofs.ListingLines
import Dcpu.Proofs.ReadBack
import Dcpu.Proofs.SymbolTypes

set_option autoImplicit false

namespace Dcpu

namespace Note

theorem labels_foldr (symbols : List Symbol) :
    (symbols.foldr before empty).labels = symbols.map Symbol.name := by
  induction symbols with
  | nil => rfl
  | cons s rest ih => exact congrArg (s.name :: ·) ih

theorem names_foldr (symbols : List Symbol) :
    (symbols.foldr before empty).code? = (symbols.find? (·.type = .code)).map Symbol.name ∧
      (symbols.foldr before empty).data? = (symbols.find? (·.type = .data)).map Symbol.name := by
  induction symbols with
  | nil => exact ⟨rfl, rfl⟩
  | cons s rest ih =>
      rw [List.foldr_cons, before, ih.1, ih.2, List.find?_cons, List.find?_cons]
      constructor
      · by_cases code : s.type = .code <;> simp [code]
      · by_cases data : s.type = .data <;> simp [data]

end Note

namespace Notes

variable {symbols : List Symbol} {address : Word} {name : Text}

theorem mem_labels_iff :
    name ∈ ((ofSymbols symbols).get address).labels ↔
      ∃ s ∈ symbols, s.isBound = false ∧ s.value = address ∧ s.name = name := by
  rw [get_ofSymbols, Note.labels_foldr]
  simp only [List.mem_map, List.mem_filter, Bool.and_eq_true, Bool.not_eq_eq_eq_not, Bool.not_true,
    beq_iff_eq, and_assoc]

theorem name_mem_labels_iff (distinct : (symbols.map Symbol.name).Nodup) {s : Symbol}
    (member : s ∈ symbols) (free : s.isBound = false) :
    s.name ∈ ((ofSymbols symbols).get address).labels ↔ address = s.value := by
  rw [mem_labels_iff]
  constructor
  · rintro ⟨other, member', _, rfl, same⟩
    rw [List.inj_on_of_nodup_map distinct member' member same]
  · rintro rfl
    exact ⟨s, member, free, rfl, rfl⟩

end Notes

namespace Listing

inductive Consecutive : Nat → List Line → Prop
  | nil (start : Nat) : Consecutive start []
  | cons {start : Nat} {l : Line} {rest : List Line} (address : l.address = start.toUInt16)
      (words : 0 < l.words.length) (behind : Consecutive (start + l.words.length) rest) :
      Consecutive start (l :: rest)

/-- The line reaches over an address at which it does not start. -/
def Line.Hides (l : Line) (address : Word) : Prop :=
  l.address.toNat < address.toNat ∧ address.toNat < l.address.toNat + l.words.length

variable {layout : Layout} {notes : Notes} {lines : List Line} {start : Nat} {value : Word}

theorem line_address (layout : Layout) (notes : Notes) (inData : Bool) (address word : Word)
    (following : List Word) :
    (line layout notes inData address word following).address = address ∧
      (line layout notes inData address word following).labels = (notes.get address).labels := by
  rw [line]
  split <;> exact ⟨rfl, rfl⟩

theorem consecutive_linesAfter (inData : Bool) (taken start : Nat) (words : List Word) :
    Consecutive (start + taken) (linesAfter layout notes [] inData taken start.toUInt16 words) := by
  induction words generalizing inData taken start with
  | nil => exact .nil _
  | cons word following ih =>
      have next : start.toUInt16 + 1 = (start + 1).toUInt16 := by simp [UInt16.ofNat_add]
      cases taken with
      | succ taken =>
          rw [linesAfter, next, ← Nat.add_assoc, Nat.add_right_comm]
          exact ih inData taken (start + 1)
      | zero =>
          rw [linesAfter, linesAfter_eq, next]
          obtain ⟨tail, rest, words, _⟩ := line_words layout notes
            (dataFrom notes start.toUInt16 inData) start.toUInt16 word following
          refine .cons (line_address ..).1 (by simp [words]) ?_
          -- The tail of the line is passed over, so the next line starts behind it.
          have behind := ih (dataFrom notes start.toUInt16 inData) tail.length (start + 1)
          rw [words, List.length_cons, Nat.add_sub_cancel]
          rwa [Nat.add_assoc, Nat.add_comm 1] at behind

theorem Consecutive.address_toNat (consecutive : Consecutive start lines)
    (within : start + (lines.flatMap Line.words).length ≤ addressSpace) {l : Line}
    {rest : List Line} (first : lines = l :: rest) : l.address.toNat = start := by
  subst first
  cases consecutive with
  | cons address words behind =>
      rw [List.flatMap_cons, List.length_append, addressSpace] at within
      rw [address, Nat.toUInt16_eq, UInt16.toNat_ofNat', Nat.mod_eq_of_lt (by omega)]

theorem Consecutive.le_address (consecutive : Consecutive start lines)
    (within : start + (lines.flatMap Line.words).length ≤ addressSpace) {l : Line}
    (member : l ∈ lines) : start ≤ l.address.toNat := by
  induction consecutive with
  | nil => cases member
  | @cons start first rest address words behind ih =>
      have here := (Consecutive.cons address words behind).address_toNat within rfl
      rw [List.flatMap_cons, List.length_append] at within
      rcases List.mem_cons.1 member with rfl | later
      · exact here.ge
      · have := ih (by omega) later
        omega

theorem Consecutive.starts_or_hides (consecutive : Consecutive start lines)
    (within : start + (lines.flatMap Line.words).length ≤ addressSpace)
    (least : start ≤ value.toNat)
    (below : value.toNat < start + (lines.flatMap Line.words).length) :
    ((∃ l, lines.filter (·.address = value) = [l]) ∧ ∀ l ∈ lines, ¬ l.Hides value) ∨
      ((∀ l ∈ lines, l.address ≠ value) ∧ ∃ l ∈ lines, l.Hides value) := by
  induction consecutive with
  | nil start =>
      rw [List.flatMap_nil, List.length_nil] at below
      omega
  | @cons start first rest address words behind ih =>
      have here := (Consecutive.cons address words behind).address_toNat within rfl
      rw [List.flatMap_cons, List.length_append] at within below
      have later {l : Line} (member : l ∈ rest) : start + first.words.length ≤ l.address.toNat :=
        behind.le_address (by omega) member
      by_cases reached : start + first.words.length ≤ value.toNat
      · -- The first line ends before the address.
        have other : first.address ≠ value := by
          rintro rfl
          omega
        have short : ¬ first.Hides value := by
          rw [Line.Hides]
          omega
        rw [List.filter_cons_of_neg (by simpa using other), List.forall_mem_cons,
          List.forall_mem_cons]
        rcases ih (by omega) reached (by omega) with ⟨starts, none⟩ | ⟨none, l, member, hides⟩
        · exact .inl ⟨starts, short, none⟩
        · exact .inr ⟨⟨other, none⟩, l, .tail _ member, hides⟩
      · have none : ∀ l ∈ rest, l.address ≠ value := by
          rintro l member rfl
          have := later member
          omega
        by_cases same : first.address = value
        · -- The first line starts at the address, and all others behind it.
          refine .inl ⟨⟨first, ?_⟩, List.forall_mem_cons.2 ⟨?_, ?_⟩⟩
          · rw [List.filter_cons_of_pos (by simpa using same), List.filter_eq_nil_iff.2]
            simpa using none
          · simp [Line.Hides, same]
          · intro l member
            have := later member
            rw [Line.Hides]
            omega
        · have apart : first.address.toNat ≠ value.toNat := by
            rwa [ne_eq, UInt16.toNat_inj]
          refine .inr ⟨List.forall_mem_cons.2 ⟨same, none⟩, first, .head _, ?_⟩
          rw [Line.Hides]
          omega

/-- The label stands in one line, the line that starts at its value. -/
def Defines (lines : List Line) (s : Symbol) : Prop :=
  ∃ l, lines.filter (s.name ∈ ·.labels) = [l] ∧ l.address = s.value

variable {image : Array Word} {symbols : List Symbol} {l : Line}

theorem exists_line (size : image.size ≤ addressSpace) (member : l ∈ ofImage layout image symbols) :
    ∃ inData word following,
      l = line layout (.ofSymbols symbols) inData l.address word following ∧
        image.toList.drop l.address.toNat = word :: following := by
  obtain ⟨inData, n, word, following, same, there, _⟩ := mem_linesAfter member
  have address : l.address = n.toUInt16 := by
    rw [same, (line_address ..).1, UInt16.zero_add]
  have within : n < image.size := by
    by_contra outside
    rw [List.drop_eq_nil_of_le (by simpa using outside)] at there
    cases there
  have offset : l.address.toNat = n := by
    rw [address, Nat.toUInt16_eq, UInt16.toNat_ofNat', Nat.mod_eq_of_lt]
    rw [addressSpace] at size
    omega
  refine ⟨inData, word, following, ?_, offset ▸ there⟩
  rw [address, ← UInt16.zero_add n.toUInt16]
  exact same

theorem name_mem_labels_iff (distinct : (symbols.map Symbol.name).Nodup) {s : Symbol}
    (known : s ∈ symbols) (free : s.isBound = false) (size : image.size ≤ addressSpace)
    (member : l ∈ ofImage layout image symbols) : s.name ∈ l.labels ↔ l.address = s.value := by
  obtain ⟨inData, word, following, same, _⟩ := exists_line size member
  rw [same, (line_address ..).1, (line_address ..).2]
  exact Notes.name_mem_labels_iff distinct known free

theorem defined_or_hidden (distinct : (symbols.map Symbol.name).Nodup) {s : Symbol}
    (known : s ∈ symbols) (free : s.isBound = false) (size : image.size ≤ addressSpace)
    (below : s.value.toNat < image.size) :
    (Defines (ofImage layout image symbols) s ∧
        ∀ l ∈ ofImage layout image symbols, ¬ l.Hides s.value) ∨
      ((∀ l ∈ ofImage layout image symbols, s.name ∉ l.labels) ∧
        ∃ l ∈ ofImage layout image symbols, l.Hides s.value) := by
  have labels {l : Line} (member : l ∈ ofImage layout image symbols) :=
    name_mem_labels_iff distinct known free size member
  have consecutive : Consecutive 0 (ofImage layout image symbols) :=
    consecutive_linesAfter false 0 0 image.toList
  have total : ((ofImage layout image symbols).flatMap Line.words).length = image.size := by
    rw [ofImage_words, Array.length_toList]
  rcases consecutive.starts_or_hides (by omega) (Nat.zero_le s.value.toNat) (by omega) with
    ⟨⟨l, starts⟩, none⟩ | ⟨none, hidden⟩
  · have shown : (ofImage layout image symbols).filter (s.name ∈ ·.labels) = [l] := by
      rw [← starts]
      exact List.filter_congr fun l member => by simp [labels member]
    have there : l ∈ (ofImage layout image symbols).filter (·.address = s.value) := by
      rw [starts]
      exact .head _
    exact .inl ⟨⟨l, shown, by simpa using (List.mem_filter.1 there).2⟩, none⟩
  · exact .inr ⟨fun l member => (labels member).not.2 (none l member), hidden⟩

def operandName? (notes : Notes) (tail : Word) : Operand → Option Text
  | .indexed _ | .direct => (notes.get tail).data?
  | .literal => (notes.get tail).code?.or (notes.get tail).data?
  | _ => none

theorem operandText_eq_name {operand : Operand} (has : operand.hasTail = true) (layout : Layout)
    (tail : Word) :
    ∃ front back : Text, ∀ notes, operandText layout notes tail operand =
      front ++ (operandName? notes tail operand).getD (literal tail) ++ back := by
  -- A name stands only where else the number of the tail would.
  cases operand with
  | indexed r =>
      exact ⟨"[", "+" ++ r.name ++ "]", fun notes => by simp [operandText, dataName, operandName?]⟩
  | direct => exact ⟨"[", "]", fun notes => by simp [operandText, dataName, operandName?]⟩
  | pick => exact ⟨"pick ", [], fun notes => by simp [operandText, operandName?]⟩
  | literal =>
      refine ⟨[], [], fun notes => ?_⟩
      cases code : (notes.get tail).code? <;> simp [operandText, name, dataName, operandName?, code]
  | _ => cases has

theorem operandText_eq_of_none {tail : Word} {operand : Operand}
    (unnamed : operandName? notes tail operand = none) (layout : Layout) :
    operandText layout notes tail operand = operandText layout .empty tail operand := by
  by_cases has : operand.hasTail = true
  · have empty : operandName? .empty tail operand = none := by
      cases operand <;> simp [operandName?, Notes.get, Notes.empty, Note.empty]
    obtain ⟨front, back, text⟩ := operandText_eq_name has layout tail
    rw [text, text, unnamed, empty]
  · -- Nothing that an operand without a tail shows comes from the notes.
    cases operand with
    | indexed _ => cases has rfl
    | pick => cases has rfl
    | direct => cases has rfl
    | literal => cases has rfl
    | _ => rfl

theorem exists_symbol_of_operandName? {tail : Word} {operand : Operand} {name : Text}
    (named : operandName? (.ofSymbols symbols) tail operand = some name) :
    operand.hasTail = true ∧ ∃ s ∈ symbols, s.isBound = false ∧ s.name = name ∧ s.value = tail ∧
      s.type ≠ .unknown := by
  obtain ⟨code, data⟩ := Note.names_foldr (symbols.filter fun s => !s.isBound && s.value == tail)
  rw [← Notes.get_ofSymbols] at code data
  -- Bounds are left out of the notes, and the name is that of the first symbol of its type.
  have found {type : SymbolType} (known : type ≠ .unknown) (named : ((symbols.filter
      fun s => !s.isBound && s.value == tail).find? (·.type = type)).map Symbol.name = some name) :
      ∃ s ∈ symbols, s.isBound = false ∧ s.name = name ∧ s.value = tail ∧ s.type ≠ .unknown := by
    obtain ⟨s, first, same⟩ := Option.map_eq_some_iff.1 named
    have typed : s.type = type := by simpa using List.find?_some first
    have member := List.mem_filter.1 (List.mem_of_find?_eq_some first)
    have there : s.isBound = false ∧ s.value = tail := by simpa using member.2
    exact ⟨s, member.1, there.1, same, there.2, typed ▸ known⟩
  have ofData (named : ((Notes.ofSymbols symbols).get tail).data? = some name) :=
    found (by decide) (data ▸ named)
  cases operand with
  | indexed r => exact ⟨rfl, ofData named⟩
  | direct => exact ⟨rfl, ofData named⟩
  | literal =>
      refine ⟨rfl, ?_⟩
      rcases Option.or_eq_some_iff.1 named with ofCode | ⟨_, ofData'⟩
      · exact found (by decide) (code ▸ ofCode)
      · exact ofData ofData'
  | _ => cases named

inductive Prints (layout : Layout) (notes : Notes) : Line → Text → Prop
  | first {word valueA valueB : Word} {op : BasicOp} {a b : Operand} {name : Text}
      (decodes : layout.DecodesBasic word op a b)
      (named : operandName? notes valueA a = some name) (address : Word) (labels : List Text) :
      Prints layout notes ⟨address, labels, word :: layout.tails a b valueA valueB,
        op.mnemonic ++ " " ++ operandText layout notes valueA a ++ ", " ++
          operandText layout notes valueB b⟩ name
  | second {word valueA valueB : Word} {op : BasicOp} {a b : Operand} {name : Text}
      (decodes : layout.DecodesBasic word op a b)
      (named : operandName? notes valueB b = some name) (address : Word) (labels : List Text) :
      Prints layout notes ⟨address, labels, word :: layout.tails a b valueA valueB,
        op.mnemonic ++ " " ++ operandText layout notes valueA a ++ ", " ++
          operandText layout notes valueB b⟩ name
  | only {word value : Word} {op : ExtendedOp} {operand : Operand} {name : Text}
      (decodes : layout.DecodesExtended word op operand)
      (named : operandName? notes value operand = some name) (address : Word)
      (labels : List Text) :
      Prints layout notes ⟨address, labels, word :: operand.tail value,
        op.mnemonic ++ " " ++ operandText layout notes value operand⟩ name

/-- The line is a word of data, or reads as it would without symbols. -/
def Bare (layout : Layout) (l : Line) : Prop :=
  ∃ word tail, l.words = word :: tail ∧
    (l.text = dataText word ∨ instruction? layout .empty word tail = some (l.text, tail))

theorem prints_or_bare (layout : Layout) (notes : Notes) (inData : Bool) (address word : Word)
    (following : List Word) :
    (∃ name, Prints layout notes (line layout notes inData address word following) name) ∨
      Bare layout (line layout notes inData address word following) := by
  rw [line]
  split
  · rename_i text tail found
    cases inData with
    | true => cases found
    | false =>
        obtain ⟨shown, _⟩ := instruction?_eq_some found
        cases shown with
        | @basic op a b decodes valueA valueB =>
            cases first : operandName? notes valueA a with
            | some name => exact .inl ⟨name, .first decodes first _ _⟩
            | none =>
                cases second : operandName? notes valueB b with
                | some name => exact .inl ⟨name, .second decodes second _ _⟩
                | none =>
                    -- Where neither operand has a name, the line reads as it would without symbols.
                    have bare := @Layout.DecodesBasic.instruction?_eq _ _ a b valueA valueB _ decodes
                      .empty []
                    rw [List.append_nil, ← operandText_eq_of_none first,
                      ← operandText_eq_of_none second] at bare
                    exact .inr ⟨word, _, rfl, .inr bare⟩
        | @extended op operand decodes value =>
            cases only : operandName? notes value operand with
            | some name => exact .inl ⟨name, .only decodes only _ _⟩
            | none =>
                have bare := @Layout.DecodesExtended.instruction?_eq _ _ operand value _ decodes
                  .empty []
                rw [List.append_nil, ← operandText_eq_of_none only] at bare
                exact .inr ⟨word, _, rfl, .inr bare⟩
  · exact .inr ⟨word, [], rfl, .inl rfl⟩

theorem exists_symbol_of_prints {name : Text} (prints : Prints layout (.ofSymbols symbols) l name) :
    ∃ s ∈ symbols, s.isBound = false ∧ s.name = name ∧ s.value ∈ l.words ∧ s.type ≠ .unknown := by
  have tail_mem {operand : Operand} {value : Word} (has : operand.hasTail = true) :
      value ∈ operand.tail value := by
    rw [Operand.tail, if_pos has]
    exact .head _
  have tails_eq (a b : Operand) (valueA valueB value : Word) :
      value ∈ layout.tails a b valueA valueB ↔ value ∈ a.tail valueA ∨ value ∈ b.tail valueB := by
    rw [Layout.tails]
    split
    · rw [List.mem_append, or_comm]
    · rw [List.mem_append]
  cases prints with
  | first decodes named address labels =>
      obtain ⟨has, s, member, free, same, rfl, typed⟩ := exists_symbol_of_operandName? named
      exact ⟨s, member, free, same, .tail _ ((tails_eq ..).2 (.inl (tail_mem has))), typed⟩
  | second decodes named address labels =>
      obtain ⟨has, s, member, free, same, rfl, typed⟩ := exists_symbol_of_operandName? named
      exact ⟨s, member, free, same, .tail _ ((tails_eq ..).2 (.inr (tail_mem has))), typed⟩
  | only decodes named address labels =>
      obtain ⟨has, s, member, free, same, rfl, typed⟩ := exists_symbol_of_operandName? named
      exact ⟨s, member, free, same, .tail _ (tail_mem has), typed⟩

theorem length_line_le {rules : EncodingRules} {body : Body} (formed : body.WellFormed rules)
    (instruction : body.needsLayout = true) {env : Text → Word} {here word : Word}
    {following rest : List Word} (inData : Bool)
    (there : word :: following = (body.parts rules.layout).map (Part.word env here) ++ rest)
    (notes : Notes) (address : Word) :
    (line rules.layout notes inData address word following).words.length ≤
      body.size rules.layout := by
  rw [← body.length_parts, ← List.length_map (Part.word env here)]
  cases body with
  | addressFix _ _ => simp [Body.needsLayout] at instruction
  | data _ _ => simp [Body.needsLayout] at instruction
  | basic opcode a b position =>
      obtain ⟨named, ⟨a, rfl, formedA⟩, ⟨b, rfl, formedB⟩⟩ := formed
      obtain ⟨number, known⟩ := Option.isSome_iff_exists.1 named
      obtain ⟨word, op, valueA, valueB, decodes, words⟩ :=
        Body.words_basic position known formedA formedB env here
      rw [words] at there ⊢
      rw [List.cons_append] at there
      obtain ⟨rfl, rfl⟩ := List.cons.inj there
      cases inData with
      | true => simp [line] -- in data, each word has a line of its own
      | false => rw [decodes.line_eq]
  | extended opcode argument position =>
      obtain ⟨named, argument, rfl, formed⟩ := formed
      obtain ⟨number, known⟩ := Option.isSome_iff_exists.1 named
      obtain ⟨word, op, value, decodes, words⟩ := Body.words_extended position known formed env here
      rw [words] at there ⊢
      rw [List.cons_append] at there
      obtain ⟨rfl, rfl⟩ := List.cons.inj there
      cases inData with
      | true => simp [line]
      | false => rw [decodes.line_eq]

end Listing

def Statement.Starts (layout : Layout) (statements : List Statement) (s : Statement) (n : Nat) :
    Prop :=
  ∃ before after, statements = before ++ s :: after ∧
    (before.map (Statement.size layout)).sum = n

theorem Statement.Starts.apart {layout : Layout} {statements : List Statement} {s t : Statement}
    {n k : Nat} (first : Starts layout statements s n) (second : Starts layout statements t k)
    (before : n < k) : n + s.size layout ≤ k := by
  obtain ⟨front, back, there, rfl⟩ := first
  obtain ⟨front', back', there', rfl⟩ := second
  rcases List.append_eq_append_iff.1 (there.symm.trans there') with
    ⟨between, rfl, same⟩ | ⟨_, rfl, _⟩
  · cases between with
    | nil => simp at before
    | cons s' between =>
        obtain ⟨rfl, _⟩ := List.cons.inj same
        simp only [List.map_append, List.map_cons, List.sum_append, List.sum_cons]
        omega
  · simp only [List.map_append, List.sum_append] at before
    omega

namespace Assembly

variable {dialect : Dialect} {layout : Layout} {text : Text} {assembly : Assembly}

theorem not_instruction_of_hides {rules : ProgramRules} {statements : List Statement}
    (acceptable : rules.Acceptable statements) (describes : rules.Describes statements assembly)
    {l : Listing.Line} (member : l ∈ Listing.ofImage rules.layout assembly.image assembly.symbols)
    {address : Word} (hides : l.Hides address) {s t : Statement}
    (starts : Statement.Starts rules.layout statements s address.toNat)
    (starts' : Statement.Starts rules.layout statements t l.address.toNat) {body : Body}
    (has : t.body = some body) : body.needsLayout = false := by
  -- A line that starts with an instruction ends with it, and no statement starts inside another.
  by_contra instruction
  have within : assembly.image.size ≤ addressSpace := describes.size_image ▸ acceptable.words_le
  -- The line is no longer than the instruction, which ends before the address that is hidden.
  have apart := starts'.apart starts hides.1
  obtain ⟨before, after, there, here⟩ := starts'
  obtain ⟨inData, word, following, shown, words⟩ := Listing.exists_line within member
  obtain ⟨env, base, parts⟩ := wordsOf_eq (describes.renders acceptable.formed there) has
  have split : word :: following = (body.parts rules.layout).map (Part.word env base) ++
      (word :: following).drop (t.size rules.layout) := by
    rw [← parts, ← words, wordsOf, here]
    exact (List.take_append_drop _ _).symm
  have short := Listing.length_line_le (acceptable.formed t (by simp [there]) body has)
    (Bool.eq_true_of_not_eq_false instruction) inData split (.ofSymbols assembly.symbols) l.address
  have size : t.size rules.layout = body.size rules.layout := by rw [Statement.size, has]; rfl
  rw [← shown] at short
  have reached := hides.2
  omega

/-- A label of an accepted source stands in one line of the listing, the line at its value, unless a
longer line reaches over that address; then it stands in none. All names in operands are those of
labels inside the image, though perhaps of hidden ones. A line that hides the start of a statement
does not start with an instruction that was assembled. -/
theorem listing_defines_unless_hidden (chosen : dialect.layout = .ok layout)
    (accepted : ofSource dialect text = .ok assembly) :
    (∀ shown : Layout,
      let lines := Listing.ofImage shown assembly.image assembly.symbols
      (∀ s ∈ assembly.symbols, s.isBound = false → s.value.toNat < assembly.image.size →
        (Listing.Defines lines s ∧ ∀ l ∈ lines, ¬ l.Hides s.value) ∨
          ((∀ l ∈ lines, s.name ∉ l.labels) ∧ ∃ l ∈ lines, l.Hides s.value)) ∧
      (∀ l ∈ lines, ∀ name, Listing.Prints shown (.ofSymbols assembly.symbols) l name →
        ∃ s ∈ assembly.symbols, s.isBound = false ∧ s.name = name ∧
          s.value.toNat < assembly.image.size) ∧
      ∀ l ∈ lines, (∃ name, Listing.Prints shown (.ofSymbols assembly.symbols) l name) ∨
        Listing.Bare shown l) ∧
    ∀ l ∈ Listing.ofImage layout assembly.image assembly.symbols, ∀ address, l.Hides address →
      ∀ s t, Statement.Starts layout (Source.read dialect text).statements s address.toNat →
        Statement.Starts layout (Source.read dialect text).statements t l.address.toNat →
        ∀ body ∈ t.body, body.needsLayout = false := by
  obtain ⟨same, assembled⟩ := ofStatements_of_ofSource chosen accepted
  obtain ⟨acceptable, describes⟩ := (ofStatements_outcome same _).of_eq_ok assembled
  obtain ⟨distinct, typed⟩ := symbols_of_ofStatements same assembled
  have size := describes.size_image
  have within : assembly.image.size ≤ addressSpace := size ▸ acceptable.words_le
  refine ⟨fun shown => ⟨?_, ?_, ?_⟩, ?_⟩
  · intro s member free below
    exact Listing.defined_or_hidden distinct member free within below
  · intro l member name prints
    obtain ⟨s, known, free, same, _, marked⟩ := Listing.exists_symbol_of_prints prints
    -- A name is printed for its type, and only labels inside the image have one.
    rw [typed s known] at marked
    exact ⟨s, known, free, same, size ▸ Statement.lt_of_typeAt marked⟩
  · intro l member
    obtain ⟨inData, word, following, same, _⟩ := Listing.exists_line within member
    rw [same]
    exact Listing.prints_or_bare ..
  · intro l member address hides s t starts starts' body has
    exact not_instruction_of_hides acceptable describes member hides starts starts' has

/-- A program whose first word is data but could be an instruction with the second in its tail. -/
def overrun : Text := "dat 0x7c01\n:val dat 5\n:go set a, val"

def overrunStatements : List Statement :=
  [⟨none, some (.data [some (.word ⟨.number 0x7c01 ⟨1, 5, 4, 6, 0⟩, none, ⟨1, 5, 4, 6, 0⟩⟩)]
      ⟨1, 1, 0, 10, 0⟩), ⟨1, 1, 0, 3, 0⟩⟩,
    ⟨some ⟨"val", ⟨2, 1, 11, 4, 11⟩⟩,
      some (.data [some (.word ⟨.number 5 ⟨2, 10, 20, 1, 11⟩, none, ⟨2, 10, 20, 1, 11⟩⟩)]
        ⟨2, 6, 16, 5, 11⟩), ⟨2, 1, 11, 1, 11⟩⟩,
    ⟨some ⟨"go", ⟨3, 1, 22, 3, 22⟩⟩,
      some (.basic "set" (some (.register "a" ⟨3, 9, 30, 1, 22⟩))
        (some (.literal (some ⟨.identifier "val" ⟨3, 12, 33, 3, 22⟩, none, ⟨3, 12, 33, 3, 22⟩⟩)
          ⟨3, 12, 33, 3, 22⟩)) ⟨3, 5, 26, 3, 22⟩), ⟨3, 1, 22, 1, 22⟩⟩]

def overrunAssembly : Assembly where
  image := #[0x7c01, 5, 0x7c01, 1]
  symbols := [⟨Symbol.codeStart, 0, .data⟩, ⟨"val", 1, .data⟩, ⟨"go", 2, .code⟩,
    ⟨Symbol.codeEnd, 4, .unknown⟩]

def overrunLines : List Listing.Line :=
  [⟨0, [], [0x7c01, 5], "set a, 5"⟩, ⟨2, ["go"], [0x7c01, 1], "set a, val"⟩]

theorem ofSource_overrun : ofSource Dialect.extended overrun = .ok overrunAssembly := by
  have read : Source.read Dialect.extended overrun = ⟨overrunStatements, []⟩ := by decide +kernel
  rw [ofSource_eq_ok_iff Dialect.layout_extended, ← Source.read_eq_readFrom Dialect.layout_extended,
    read]
  exact ⟨rfl, by cbv⟩

theorem note_overrun (address : Word) :
    (Notes.ofSymbols overrunAssembly.symbols).get address =
      if address = 1 then ⟨["val"], .data, none, some "val"⟩
      else if address = 2 then ⟨["go"], .code, some "go", none⟩ else .empty := by
  have free : overrunAssembly.symbols.filter (!·.isBound) =
      [⟨"val", 1, .data⟩, ⟨"go", 2, .code⟩] := by decide
  have kept : overrunAssembly.symbols.filter (fun s => !s.isBound && s.value == address) =
      [⟨"val", 1, .data⟩, ⟨"go", 2, .code⟩].filter fun s => s.value == address := by
    rw [← free, List.filter_filter]
    simp only [Bool.and_comm]
  rw [Notes.get_ofSymbols, kept]
  by_cases first : address = 1
  · subst first
    decide
  · by_cases second : address = 2
    · subst second
      decide
    · simp [Ne.symm first, Ne.symm second, first, second]

theorem decodes_overrun : Layout.v2.DecodesBasic 0x7c01 .set (.register .a) .literal :=
  ⟨by decide, by decide, by decide, by decide⟩

theorem name_overrun : Listing.name (.ofSymbols overrunAssembly.symbols) 5 = "5" ∧
    Listing.name (.ofSymbols overrunAssembly.symbols) 1 = "val" := by
  simp only [Listing.name, Listing.dataName, note_overrun]
  decide

theorem lines_overrun :
    Listing.ofImage .v2 overrunAssembly.image overrunAssembly.symbols = overrunLines := by
  have shown (value : Word) (rest : List Word) :
      Listing.instruction? .v2 (.ofSymbols overrunAssembly.symbols) 0x7c01 (value :: rest) = some
        ("set a, " ++ Listing.name (.ofSymbols overrunAssembly.symbols) value, [value]) :=
    @Layout.DecodesBasic.instruction?_eq _ _ _ _ 0 value _ decodes_overrun _ rest
  have first : Listing.line .v2 (.ofSymbols overrunAssembly.symbols) false 0 0x7c01 [5, 0x7c01, 1] =
      ⟨0, [], [0x7c01, 5], "set a, 5"⟩ := by
    simp only [Listing.line, shown, name_overrun.1, note_overrun]
    rfl
  have second : Listing.line .v2 (.ofSymbols overrunAssembly.symbols) false 2 0x7c01 [1] =
      ⟨2, ["go"], [0x7c01, 1], "set a, val"⟩ := by
    simp only [Listing.line, shown, name_overrun.2, note_overrun]
    rfl
  -- Nothing marks the first word as data, so its line takes the second word too.
  have code (address : Word) (unmarked : address ≠ 1) :
      Listing.dataFrom (.ofSymbols overrunAssembly.symbols) address false = false := by
    by_cases marked : address = 2 <;>
      simp [Listing.dataFrom, note_overrun, unmarked, marked, Note.empty]
  change Listing.linesAfter .v2 _ [] false 0 0 [0x7c01, 5, 0x7c01, 1] = _
  rw [Listing.linesAfter, code 0 (by decide), first]
  change Listing.linesAfter .v2 _ _ false 0 2 [0x7c01, 1] = _
  rw [Listing.linesAfter, code 2 (by decide), second]
  rfl

theorem labels_overrun : overrunLines.filter (("val" : Text) ∈ ·.labels) = [] := by decide

theorem listing_defines_unless_hidden_overrun :
    let lines := Listing.ofImage .v2 overrunAssembly.image overrunAssembly.symbols
    ofSource Dialect.extended overrun = .ok overrunAssembly ∧
      Listing.Defines lines ⟨"go", 2, .code⟩ ∧ ∃ l ∈ lines, l.Hides 1 := by
  obtain ⟨defined, _⟩ :=
    (listing_defines_unless_hidden Dialect.layout_extended ofSource_overrun).1 .v2
  refine ⟨ofSource_overrun, ?_, ?_⟩
  · rcases defined ⟨"go", 2, .code⟩ (by decide) (by decide) (by decide) with ⟨shown, _⟩ | ⟨none, _⟩
    · exact shown
    · rw [lines_overrun] at none
      exact absurd none (by decide)
  · rcases defined ⟨"val", 1, .data⟩ (by decide) (by decide) (by decide) with
      ⟨⟨l, shown, _⟩, _⟩ | ⟨_, hidden⟩
    · rw [lines_overrun] at shown
      cases labels_overrun.symm.trans shown
    · exact hidden

/-- A listing can lose a label, and print its name all the same. -/
theorem overrun_loses_label :
    (¬ ∀ (dialect : Dialect) (layout : Layout) (text : Text) (assembly : Assembly),
      dialect.layout = .ok layout → ofSource dialect text = .ok assembly →
      ∀ s ∈ assembly.symbols, s.isBound = false → s.value.toNat < assembly.image.size →
        Listing.Defines (Listing.ofImage layout assembly.image assembly.symbols) s) ∧
    ¬ ∀ (dialect : Dialect) (layout : Layout) (text : Text) (assembly : Assembly),
      dialect.layout = .ok layout → ofSource dialect text = .ok assembly →
      ∀ l ∈ Listing.ofImage layout assembly.image assembly.symbols, ∀ name,
        Listing.Prints layout (.ofSymbols assembly.symbols) l name →
          ∃ l ∈ Listing.ofImage layout assembly.image assembly.symbols, name ∈ l.labels := by
  constructor
  · intro claim
    obtain ⟨l, shown, _⟩ := claim _ _ _ _ Dialect.layout_extended ofSource_overrun
      ⟨"val", 1, .data⟩ (by decide) (by decide) (by decide)
    rw [lines_overrun] at shown
    cases labels_overrun.symm.trans shown
  · intro claim
    have printed : Listing.Prints .v2 (.ofSymbols overrunAssembly.symbols)
        ⟨2, ["go"], [0x7c01, 1], "set a, " ++ Listing.name (.ofSymbols overrunAssembly.symbols) 1⟩
        "val" := by
      refine @Listing.Prints.second _ _ _ 0 1 _ _ _ _ decodes_overrun ?_ 2 ["go"]
      simp [Listing.operandName?, note_overrun]
    rw [name_overrun.2] at printed
    have found := claim _ _ _ _ Dialect.layout_extended ofSource_overrun
      ⟨2, ["go"], [0x7c01, 1], "set a, val"⟩ (by rw [lines_overrun]; decide) "val"
      printed
    rw [lines_overrun] at found
    exact absurd found (by decide)

end Assembly

end Dcpu
