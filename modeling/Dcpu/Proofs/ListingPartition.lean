import Dcpu.Proofs.ListingLabels

set_option autoImplicit false

namespace Dcpu

/-- What the symbols say about an address: the last of them that knows decides. -/
def Symbol.kindAt (symbols : List Symbol) (address : Word) : SymbolType :=
  (((symbols.filter fun s => !s.isBound && s.value == address).map type).filter
    (· != .unknown)).getLast?.getD .unknown

namespace Note

theorem type_foldr (symbols : List Symbol) :
    (symbols.foldr before empty).type =
      ((symbols.map Symbol.type).filter (· != .unknown)).getLast?.getD .unknown := by
  induction symbols with
  | nil => rfl
  | cons s rest ih =>
      rw [List.foldr_cons, before, ih, List.map_cons]
      cases known : ((rest.map Symbol.type).filter (· != .unknown)).getLast? with
      | none =>
          have nothing := List.getLast?_eq_none_iff.1 known
          by_cases unknown : s.type = .unknown <;> simp [unknown, nothing]
      | some type =>
          -- What is known further on is kept, whatever the first symbol says.
          have decides : type ≠ .unknown :=
            bne_iff_ne.1 (List.mem_filter.1 (List.mem_of_getLast? known)).2
          by_cases unknown : s.type = .unknown <;>
            simp [unknown, decides, known, List.getLast?_cons]

end Note

theorem Notes.type_ofSymbols (symbols : List Symbol) (address : Word) :
    ((ofSymbols symbols).get address).type = Symbol.kindAt symbols address := by
  rw [get_ofSymbols, Note.type_foldr, Symbol.kindAt]

namespace Listing

def decided (kinds : List SymbolType) : Option SymbolType :=
  kinds.reverse.find? fun kind => kind == .code || kind == .data

variable {layout : Layout} {notes : Notes} {lines before after : List Line} {l : Line}
  {inData : Bool} {start : Nat}

def dataBehind (notes : Notes) (inData : Bool) (lines : List Line) : Bool :=
  lines.foldl (fun inData l => dataFrom notes l.address inData) inData

theorem dataBehind_iff (lines : List Line) :
    dataBehind notes false lines = true ↔
      decided (lines.map fun l => (notes.get l.address).type) = some .data := by
  induction lines using List.reverseRecOn with
  | nil => simp [dataBehind, decided]
  | append_singleton lines l ih =>
      rw [dataBehind, List.foldl_append, List.foldl_cons, List.foldl_nil, ← dataBehind, dataFrom,
        decided, List.map_append, List.reverse_append]
      rw [decided] at ih
      -- A start that is neither leaves it at what the lines before have decided.
      cases kind : (notes.get l.address).type with
      | code => simp [kind]
      | data => simp [kind]
      | unknown => simpa [kind] using ih
      | other => simpa [kind] using ih

theorem exists_line_of_linesAfter {taken : Nat} {address : Word} {words : List Word}
    (parts : linesAfter layout notes [] inData taken address words = before ++ l :: after) :
    ∃ word following,
      l = line layout notes (dataBehind notes inData (before ++ [l])) l.address word following := by
  induction words generalizing inData taken address before with
  | nil => simp [linesAfter] at parts
  | cons word following ih =>
      cases taken with
      -- The word is in the tail of a line that has been shown.
      | succ taken => exact ih parts
      | zero =>
          simp only [linesAfter] at parts
          rw [linesAfter_eq, List.reverse_singleton, List.singleton_append] at parts
          have here := (line_address layout notes (dataFrom notes address inData) address word
            following).1
          cases before with
          | nil =>
              obtain ⟨same, _⟩ := List.cons.inj parts
              refine ⟨word, following, ?_⟩
              rw [← same, here]
              simp only [List.nil_append, dataBehind, List.foldl_cons, List.foldl_nil, here]
          | cons first before =>
              obtain ⟨same, rest⟩ := List.cons.inj parts
              obtain ⟨word, following, shown⟩ := ih rest
              refine ⟨word, following, ?_⟩
              rwa [List.cons_append, dataBehind, List.foldl_cons, ← same, here, ← dataBehind]

theorem length_line_words_le (layout : Layout) (notes : Notes) (inData : Bool) (address word : Word)
    (following : List Word) :
    (line layout notes inData address word following).words.length ≤ 3 := by
  rw [line]
  split
  · rename_i text tail found
    cases inData with
    | true => cases found
    | false =>
        obtain ⟨shown, _⟩ := instruction?_eq_some found
        -- An operand takes one word more at most.
        cases shown with
        | basic decodes valueA valueB =>
            rw [List.length_cons, Layout.length_tails]
            split <;> split <;> decide
        | extended decodes value =>
            rw [List.length_cons, Operand.length_tail]
            split <;> decide
  · exact Nat.le_of_ble_eq_true rfl

theorem line_data (layout : Layout) (notes : Notes) (address word : Word) (following : List Word) :
    (line layout notes true address word following).words = [word] ∧
      (line layout notes true address word following).text = dataText word :=
  ⟨rfl, rfl⟩

theorem Consecutive.address_eq (consecutive : Consecutive start (before ++ l :: after)) :
    l.address = (start + (before.flatMap Line.words).length).toUInt16 := by
  induction before generalizing start with
  | nil =>
      cases consecutive with
      | cons address words behind => exact address
  | cons first before ih =>
      cases consecutive with
      | cons address words behind =>
          rw [ih behind, List.flatMap_cons, List.length_append, Nat.add_assoc]

/-- The listing of an image exists. Its lines follow each other without a gap, have one to three
words each, and hold the whole image. Where data was the last thing that a line started with, each
word has a line of its own. -/
theorem ofNumberedLayout_partitions (layout : Layout) {image : Array Word}
    (size : image.size ≤ addressSpace) (symbols : List Symbol) :
    ∃ lines, ofNumberedLayout layout.number image symbols = .ok lines ∧
      lines.flatMap Line.words = image.toList ∧
      ∀ before l after, lines = before ++ l :: after →
        l.address.toNat = (before.flatMap Line.words).length ∧
        1 ≤ l.words.length ∧ l.words.length ≤ 3 ∧
        (decided ((before ++ [l]).map fun l => Symbol.kindAt symbols l.address) = some .data →
          ∃ word, l.words = [word] ∧ l.text = "dat 0x" ++ Text.hexWord word) := by
  have listed : ofNumberedLayout layout.number image symbols = .ok (ofImage layout image symbols) := by
    simp [ofNumberedLayout, LayoutNumber.require]
  refine ⟨_, listed, ofImage_words layout image symbols, ?_⟩
  intro before l after parts
  obtain ⟨word, following, shown⟩ := exists_line_of_linesAfter parts
  have consecutive : Consecutive 0 (before ++ l :: after) :=
    parts ▸ consecutive_linesAfter false 0 0 image.toList
  have some : 1 ≤ l.words.length := by
    obtain ⟨tail, _, words, _⟩ := line_words layout (.ofSymbols symbols)
      (dataBehind (.ofSymbols symbols) false (before ++ [l])) l.address word following
    rw [shown, words]
    exact Nat.le_add_left _ _
  refine ⟨?_, some, ?_, fun data => ?_⟩
  · -- The words before the line are part of the image, so their number is an address.
    have whole : ((before ++ l :: after).flatMap Line.words).length = image.size := by
      rw [← parts, ofImage_words, Array.length_toList]
    rw [List.flatMap_append, List.length_append, List.flatMap_cons, List.length_append] at whole
    rw [addressSpace] at size
    rw [consecutive.address_eq, Nat.zero_add, Nat.toUInt16_eq, UInt16.toNat_ofNat',
      Nat.mod_eq_of_lt (by omega)]
  · rw [shown]
    exact length_line_words_le ..
  · simp only [← Notes.type_ofSymbols] at data
    rw [(dataBehind_iff _).2 data] at shown
    exact ⟨word, shown ▸ line_data ..⟩

theorem ofNumberedLayout_partitions_data :
    (#[0x7c01, 5] : Array Word).size ≤ addressSpace ∧
      ∃ l rest, ofNumberedLayout Layout.v2.number #[0x7c01, 5]
          [⟨"here", 0, .data⟩, ⟨"there", 0, .unknown⟩, ⟨Symbol.codeStart, 0, .code⟩] =
            .ok (l :: rest) ∧
        l.words = [0x7c01] ∧ l.text = "dat 0x7c01" := by
  have size : (#[0x7c01, 5] : Array Word).size ≤ addressSpace := by decide
  obtain ⟨lines, listed, words, parts⟩ := ofNumberedLayout_partitions .v2 size
    [⟨"here", 0, .data⟩, ⟨"there", 0, .unknown⟩, ⟨Symbol.codeStart, 0, .code⟩]
  cases lines with
  | nil => cases words
  | cons l rest =>
      obtain ⟨address, _, _, data⟩ := parts [] l rest rfl
      have first : l.address = 0 := UInt16.toNat_inj.1 address
      obtain ⟨word, alone, text⟩ := data (by rw [List.nil_append, List.map_singleton, first]; decide)
      rw [List.flatMap_cons, alone] at words
      obtain ⟨rfl, _⟩ := List.cons.inj words
      exact ⟨size, l, rest, listed, alone, text⟩

end Listing

end Dcpu
