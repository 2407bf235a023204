import Dcpu.Proofs.ExtendedTokens
import Dcpu.Proofs.SourceLines
import Dcpu.Proofs.WrittenLiteral

set_option autoImplicit false

namespace Dcpu

structure NameRules.Legal (rules : NameRules) (name : Text) : Prop where
  starts : ∃ b ∈ name.head?, rules.startsName b = true
  goes : ∀ b ∈ name, rules.inName b = true

namespace Text

def SameLetters (t word : Text) : Prop := t.map lowerByte = word.map lowerByte

instance (t word : Text) : Decidable (t.SameLetters word) := inferInstanceAs (Decidable (_ = _))

structure IsKeyword (word : Text) : Prop where
  some : word ≠ []
  letters : ∀ b ∈ word, NameRules.isLetter b = true
  lowered : word.map lowerByte = word

instance (word : Text) : Decidable word.IsKeyword :=
  have := List.decidableBAll (NameRules.isLetter · = true) word
  decidable_of_iff (word ≠ [] ∧ (∀ b ∈ word, NameRules.isLetter b = true) ∧
      word.map lowerByte = word)
    ⟨fun holds => ⟨holds.1, holds.2.1, holds.2.2⟩,
      fun holds => ⟨holds.some, holds.letters, holds.lowered⟩⟩

variable {t word : Text}

theorem isLetter_lowerByte (b : UInt8) :
    NameRules.isLetter (lowerByte b) = NameRules.isLetter b := by
  have all : ∀ n : Fin 0x100, NameRules.isLetter (lowerByte (UInt8.ofNat n)) =
      NameRules.isLetter (UInt8.ofNat n) := by decide +kernel
  have found := all ⟨b.toNat, b.toNat_lt⟩
  rwa [UInt8.ofNat_toNat] at found

theorem SameLetters.letters (same : t.SameLetters word)
    (letters : ∀ b ∈ word, NameRules.isLetter b = true) :
    ∀ b ∈ t, NameRules.isLetter b = true := by
  intro b member
  have lowered : lowerByte b ∈ word.map lowerByte := by
    rw [← same]
    exact List.mem_map_of_mem member
  obtain ⟨c, there, equal⟩ := List.mem_map.1 lowered
  rw [← isLetter_lowerByte, ← equal, isLetter_lowerByte, letters c there]

theorem SameLetters.lower (same : t.SameLetters word) (keyword : word.IsKeyword) :
    t.lower = word := by
  have all : ∀ n : Fin 0x100, NameRules.isLetter (UInt8.ofNat n) = true →
      UInt8.ofNat n < 0x80 := by decide +kernel
  have ascii : t.Ascii := fun b member =>
    Piece.of_all_bytes (P := (· < 0x80)) all (same.letters keyword.letters b member)
  rw [lower_of_ascii ascii, same, keyword.lowered]

end Text

/-- What a line is written with. The letters of a keyword may be in either case, those of a name may
not; a number is written in decimal, characters and the bytes of strings as escapes. -/
inductive Element
  | blank
  | mark (byte : UInt8)
  | name (word : Text)
  | keyword (word : Text)
  | numeral (value : Nat)
  | character (value : Nat)
  | string (text : Text)
deriving DecidableEq, Repr

namespace Element

open Text

def marks : List UInt8 := [0x3a, 0x2c, 0x40, 0x2b, 0x2d, 0x5b, 0x5d, 0x7e]

def text : Element → Text
  | .blank => [0x20]
  | .mark byte => [byte]
  | .name word | .keyword word => word
  | .numeral value => decimal value
  | .character value => singleQuote :: (escapeChar value ++ [singleQuote])
  | .string text => doubleQuote :: (text.flatMap escapeByte ++ [doubleQuote])

def shape? : Element → Option (TokenKind × Text)
  | .blank => none
  | .mark byte => some (Piece.markKind byte, [byte])
  | .name word | .keyword word => some (.identifier, word)
  | .numeral value => some (.literal, decimal value)
  | .character value => some (.character, ofChar (Char.ofNat value))
  | .string text => some (.string, text)

def isWord : Element → Bool
  | .name _ | .keyword _ | .numeral _ => true
  | .blank | .mark _ | .character _ | .string _ => false

def Formed (rules : NameRules) : Element → Prop
  | .name word => rules.Legal word
  | .keyword word => word ≠ [] ∧ ∀ b ∈ word, NameRules.isLetter b = true
  | .character value => value.isValidChar
  | .mark byte => byte ∈ marks
  | .blank | .numeral _ | .string _ => True

def Parted (rules : NameRules) : List Element → Prop
  | [] => True
  | e :: rest =>
      e.Formed rules ∧ (e.isWord = true → ∀ next ∈ rest.head?, next.isWord = false) ∧
        Parted rules rest

def Ends (b : UInt8) : Prop := NameRules.inName ⟨true, true⟩ b = false

variable {rules : NameRules} {b : UInt8} {rest : Text} {elements : List Element}

theorem Ends.not_inName (ends : Ends b) : rules.inName b = false := by
  have widest : rules.Within ⟨true, true⟩ := ⟨fun _ => rfl, fun _ => rfl⟩
  cases inside : rules.inName b with
  | false => rfl
  | true => exact (widest.inName inside).symm.trans ends

theorem Ends.not_inNumeral (ends : Ends b) : NameRules.inNumeral b = false := by
  have plain : NameRules.inName ⟨false, false⟩ b = false := ends.not_inName
  simp only [NameRules.inName, NameRules.startsName, NameRules.inNumeral, Bool.or_eq_false_iff]
    at plain ⊢
  exact ⟨⟨plain.1, plain.2.1.1.1⟩, plain.2.1.1.2⟩

theorem next_mark (mark : b ∈ marks) :
    Lexeme.next rules b rest = .token (Piece.markKind b) [b] 0 := by
  have all : ∀ b ∈ marks, Piece.Inner b ∧ Ends b ∧
      Lexeme.ofChar (asciiChar b) b 0 = .token (Piece.markKind b) [b] 0 := by
    unfold Ends
    decide +kernel
  obtain ⟨inner, ends, found⟩ := all b mark
  have outside : rules.inName b = false := ends.not_inName
  simp only [NameRules.inName, Bool.or_eq_false_iff] at outside
  rw [Piece.next_of_inner inner, if_neg (by simp [outside.1]), if_neg (by simp [outside.2]), found]

theorem next_name {word : Text} (legal : rules.Legal word) (ends : ∀ b ∈ rest.head?, Ends b) :
    ∃ b further, word = b :: further ∧
      Lexeme.next rules b (further ++ rest) = .token .identifier word further.length := by
  obtain ⟨⟨b, first, starts⟩, goes⟩ := legal
  obtain ⟨further, rfl⟩ := List.head?_eq_some_iff.1 first
  refine ⟨b, further, rfl, ?_⟩
  rw [Lexeme.next_name starts]
  exact Piece.run_append (fun c member => goes c (.tail _ member))
    fun c first => (ends c first).not_inName

theorem legal_of_letters {word : Text} (some : word ≠ [])
    (letters : ∀ b ∈ word, NameRules.isLetter b = true) : rules.Legal word := by
  obtain ⟨b, further, rfl⟩ := List.exists_cons_of_ne_nil some
  constructor
  · exact ⟨b, rfl, by simp [NameRules.startsName, letters b (.head _)]⟩
  · intro c member
    simp [NameRules.inName, NameRules.startsName, letters c member]

theorem next_numeral (rules : NameRules) (value : Nat) (ends : ∀ b ∈ rest.head?, Ends b) :
    ∃ b further, decimal value = b :: further ∧
      Lexeme.next rules b (further ++ rest) = .token .literal (b :: further) further.length := by
  have all : ∀ d : Fin 10, isDigit (digitByte d) = true := by decide
  have written (b : UInt8) (member : b ∈ decimal value) : ∃ d, d < 10 ∧ b = digitByte d :=
    mem_digits (by decide) member
  obtain ⟨b, further, digits⟩ := List.exists_cons_of_ne_nil (digits_ne_nil (n := value)
    (show 1 < 10 by decide))
  have digits : decimal value = b :: further := digits
  rw [digits] at written
  refine ⟨b, further, digits, ?_⟩
  obtain ⟨d, below, same⟩ := written b (.head _)
  rw [Piece.next_digit (same ▸ all ⟨d, below⟩)]
  refine Piece.run_append (fun c member => ?_) fun c first => (ends c first).not_inNumeral
  obtain ⟨d, below, rfl⟩ := written c (.tail _ member)
  exact (digitByte_hex (by omega)).2.1

theorem next_character {value : Nat} (valid : value.isValidChar) :
    Lexeme.next rules singleQuote (escapeChar value ++ singleQuote :: rest) =
      .token .character (ofChar (Char.ofNat value)) ((escapeChar value).length + 1) := by
  have decoded := decodeFirst_ascii (b := singleQuote) (by decide)
    (escapeChar value ++ singleQuote :: rest)
  have quote : asciiChar singleQuote = '\'' := by decide
  have blank : isBlank '\'' = false := by decide
  simp only [Lexeme.next, decoded, quote, blank, Bool.false_eq_true, if_false, Lexeme.quoted,
    Lexeme.beforeQuote?_escapeChar, unquoteCharacter_escapeChar valid]
  rfl

theorem next_string (t : Text) :
    Lexeme.next rules doubleQuote (t.flatMap escapeByte ++ doubleQuote :: rest) =
      .token .string t ((t.flatMap escapeByte).length + 1) := by
  have decoded := decodeFirst_ascii (b := doubleQuote) (by decide)
    (t.flatMap escapeByte ++ doubleQuote :: rest)
  have quote : asciiChar doubleQuote = '"' := by decide
  have blank : isBlank '"' = false := by decide
  simp only [Lexeme.next, decoded, quote, blank, Bool.false_eq_true, if_false, Lexeme.quoted,
    Lexeme.beforeQuote?_escapeByte, List.reverse_nil, List.nil_append, unquoteString_escapeByte]
  rfl

theorem next_element {e : Element} {kind : TokenKind} {value : Text} (formed : e.Formed rules)
    (ends : e.isWord = true → ∀ b ∈ rest.head?, Ends b) (shape : e.shape? = some (kind, value)) :
    ∃ b further, e.text = b :: further ∧
      Lexeme.next rules b (further ++ rest) = .token kind value further.length := by
  cases e with
  | blank => cases shape
  | mark byte =>
      cases shape
      exact ⟨byte, [], rfl, next_mark formed⟩
  | name word =>
      cases shape
      exact next_name formed (ends rfl)
  | keyword word =>
      cases shape
      exact next_name (legal_of_letters formed.1 formed.2) (ends rfl)
  | numeral n =>
      cases shape
      obtain ⟨b, further, digits, next⟩ := next_numeral rules n (ends rfl)
      exact ⟨b, further, digits, digits ▸ next⟩
  | character n =>
      cases shape
      refine ⟨_, _, rfl, ?_⟩
      rw [List.append_assoc, List.length_append]
      exact next_character formed
  | string t =>
      cases shape
      refine ⟨_, _, rfl, ?_⟩
      rw [List.append_assoc, List.length_append]
      exact next_string _

theorem ends_of_not_isWord (parted : Parted rules elements)
    (apart : ∀ next ∈ elements.head?, next.isWord = false) :
    ∀ b ∈ (elements.flatMap text).head?, Ends b := by
  intro b first
  cases elements with
  | nil => simp at first
  | cons e rest =>
      cases e with
      | blank =>
          obtain rfl : 0x20 = b := by simpa [text] using first
          rfl
      | mark byte =>
          obtain rfl : byte = b := by simpa [text] using first
          have all : ∀ b ∈ marks, Ends b := by
            unfold Ends
            decide +kernel
          exact all byte parted.1
      | character n =>
          obtain rfl : singleQuote = b := by simpa [text] using first
          rfl
      | string t =>
          obtain rfl : doubleQuote = b := by simpa [text] using first
          rfl
      | name _ => exact absurd (apart _ rfl) (by simp [isWord])
      | keyword _ => exact absurd (apart _ rfl) (by simp [isWord])
      | numeral _ => exact absurd (apart _ rfl) (by simp [isWord])

theorem readFrom_elements (parted : Parted rules elements) (start : LineStart)
    (tokens : List Token) (errors : List Diagnostic) (offset : Nat) :
    ∃ found : List Token, found.map Token.shape = elements.filterMap shape? ∧
      LineTokens.readFrom rules start tokens errors offset (elements.flatMap text) =
        ⟨tokens.reverse ++ found, errors.reverse⟩ := by
  induction elements generalizing tokens offset with
  | nil =>
      refine ⟨[], rfl, ?_⟩
      rw [List.flatMap_nil, LineTokens.readFrom_nil, List.append_nil]
  | cons e rest ih =>
      obtain ⟨formed, apart, parted⟩ := parted
      cases shape : e.shape? with
      | none =>
          cases e with
          | blank =>
              obtain ⟨found, shapes, read⟩ := ih parted tokens (offset + 0 + 1)
              refine ⟨found, shapes, ?_⟩
              rw [List.flatMap_cons, text, List.cons_append, LineTokens.readFrom_cons,
                Piece.next_blank]
              exact read
          | _ => cases shape
      | some s =>
          have ends := fun word => ends_of_not_isWord parted (apart word)
          obtain ⟨b, further, written, next⟩ := next_element formed ends shape
          -- Tokens are kept in reverse while a line is read, so the rest of it starts from this one.
          obtain ⟨found, shapes, read⟩ := ih parted
            (⟨s.1, start.position offset (further.length + 1), s.2⟩ :: tokens)
            (offset + further.length + 1)
          refine ⟨⟨s.1, start.position offset (further.length + 1), s.2⟩ :: found, ?_, ?_⟩
          · rw [List.map_cons, shapes, List.filterMap_cons_some shape]
            rfl
          · rw [List.flatMap_cons, written, List.cons_append, Piece.readFrom_token next,
              List.drop_left, read]
            simp

theorem ofLine_elements (parted : Parted rules elements) (start : LineStart) :
    ∃ tokens : List Token, tokens.map Token.shape = elements.filterMap shape? ∧
      LineTokens.ofLine rules start (elements.flatMap text) = ⟨tokens, []⟩ :=
  readFrom_elements parted start [] [] 0

theorem Parted.append {before after : List Element} (left : Parted rules before)
    (right : Parted rules after) (apart : ∀ next ∈ after.head?, next.isWord = false) :
    Parted rules (before ++ after) := by
  induction before with
  | nil => exact right
  | cons e rest ih =>
      obtain ⟨formed, alone, left⟩ := left
      refine ⟨formed, fun word next first => ?_, ih left⟩
      cases rest with
      | nil => exact apart next first
      | cons other rest => exact alone word next first

theorem Parted.blank (parted : Parted rules elements) : Parted rules (.blank :: elements) :=
  ⟨trivial, fun word => by simp [isWord] at word, parted⟩

theorem Parted.mark {byte : UInt8} (known : byte ∈ marks) (parted : Parted rules elements) :
    Parted rules (.mark byte :: elements) :=
  ⟨known, fun word => by simp [isWord] at word, parted⟩

theorem Parted.last {e : Element} (formed : e.Formed rules) : Parted rules [e] :=
  ⟨formed, fun _ => by simp, trivial⟩

theorem Parted.word {e next : Element} (formed : e.Formed rules) (apart : next.isWord = false)
    (parted : Parted rules (next :: elements)) : Parted rules (e :: next :: elements) :=
  ⟨formed, fun _ _ first => Option.some.inj first ▸ apart, parted⟩

theorem Parted.append_mark {before : List Element} {byte : UInt8} (left : Parted rules before)
    (known : byte ∈ marks) (right : Parted rules elements) :
    Parted rules (before ++ .mark byte :: elements) :=
  left.append (right.mark known) fun _ first => Option.some.inj first ▸ rfl

theorem printable_inName (inside : rules.inName b = true) : 0x20 ≤ b := by
  have all : ∀ n : Fin 0x100, NameRules.inName ⟨true, true⟩ (UInt8.ofNat n) = true →
      0x20 ≤ UInt8.ofNat n := by decide +kernel
  have widest : rules.Within ⟨true, true⟩ := ⟨fun _ => rfl, fun _ => rfl⟩
  exact Piece.of_all_bytes (P := (0x20 ≤ ·)) all (widest.inName inside)

theorem printable_digitByte {d : Nat} (below : d < 16) : 0x20 ≤ digitByte d := by
  have all : ∀ d : Fin 16, 0x20 ≤ digitByte d := by decide
  exact all ⟨d, below⟩

theorem printable_escape {letter : UInt8} {width n : Nat} (letter_le : 0x20 ≤ letter) :
    ∀ b ∈ backslash :: letter :: hexDigits width n, 0x20 ≤ b := by
  intro b member
  rcases List.mem_cons.1 member with rfl | member
  · decide
  rcases List.mem_cons.1 member with rfl | member
  · exact letter_le
  · obtain ⟨d, below, rfl⟩ := mem_hexDigits member
    exact printable_digitByte below

theorem Formed.printable {e : Element} (formed : e.Formed rules) : ∀ b ∈ e.text, 0x20 ≤ b := by
  intro b member
  cases e with
  | blank =>
      obtain rfl := List.mem_singleton.1 member
      decide
  | mark byte =>
      obtain rfl := List.mem_singleton.1 member
      have all : ∀ b ∈ marks, 0x20 ≤ b := by decide +kernel
      exact all b formed
  | name word => exact printable_inName (formed.goes b member)
  | keyword word =>
      have legal : rules.Legal word := legal_of_letters formed.1 formed.2
      exact printable_inName (legal.goes b member)
  | numeral n =>
      obtain ⟨d, below, rfl⟩ := mem_digits (by decide) member
      exact printable_digitByte (by omega)
  -- Quotes are printable, and what is between them is escaped.
  | character n =>
      rcases List.mem_cons.1 member with rfl | member
      · decide
      rcases List.mem_append.1 member with escape | last
      · exact printable_escape (by decide) b escape
      · obtain rfl := List.mem_singleton.1 last
        decide
  | string t =>
      rcases List.mem_cons.1 member with rfl | member
      · decide
      rcases List.mem_append.1 member with escapes | last
      · obtain ⟨c, _, escape⟩ := List.mem_flatMap.1 escapes
        exact printable_escape (by decide) b escape
      · obtain rfl := List.mem_singleton.1 last
        decide

theorem Formed.text_ne_nil {e : Element} (formed : e.Formed rules) : e.text ≠ [] := by
  cases e with
  | name word =>
      rintro rfl
      obtain ⟨b, first, _⟩ := formed.starts
      cases first
  | keyword word => exact formed.1
  | numeral n => exact digits_ne_nil (by decide)
  | blank | mark | character | string => simp [text]

theorem Parted.formed (parted : Parted rules elements) : ∀ e ∈ elements, e.Formed rules := by
  induction elements with
  | nil => simp
  | cons e rest ih => exact List.forall_mem_cons.2 ⟨parted.1, ih parted.2.2⟩

theorem Parted.printable (parted : Parted rules elements) (some : elements ≠ []) :
    Text.Printable (elements.flatMap text) := by
  constructor
  · obtain ⟨e, rest, rfl⟩ := List.exists_cons_of_ne_nil some
    rw [List.flatMap_cons]
    exact List.append_ne_nil_of_left_ne_nil parted.1.text_ne_nil _
  · intro b member
    obtain ⟨e, among, inside⟩ := List.mem_flatMap.1 member
    exact (parted.formed e among).printable b inside

inductive Respelled : Element → Element → Prop
  | same (e : Element) : Respelled e e
  | letters {word word' : Text} (same : word'.SameLetters word) :
      Respelled (.keyword word) (.keyword word')

namespace Respelled

variable {e e' : Element} {elements' : List Element}

theorem isWord_eq (respelled : Respelled e e') : e'.isWord = e.isWord := by
  cases respelled <;> rfl

theorem formed (respelled : Respelled e e') (formed : e.Formed rules) : e'.Formed rules := by
  cases respelled with
  | same => exact formed
  | @letters word word' same =>
      refine ⟨?_, same.letters formed.2⟩
      rintro rfl
      exact formed.1 (List.map_eq_nil_iff.1 same.symm)

theorem parted (respelled : List.Forall₂ Respelled elements elements')
    (parted : Parted rules elements) : Parted rules elements' := by
  induction respelled with
  | nil => trivial
  | @cons e e' rest rest' first others ih =>
      obtain ⟨formed, apart, after⟩ := parted
      refine ⟨first.formed formed, fun word next there => ?_, ih after⟩
      cases others with
      | nil => cases there
      | cons second _ =>
          cases there
          rw [second.isWord_eq]
          exact apart (first.isWord_eq ▸ word) _ rfl

end Respelled

end Element

end Dcpu
