import Dcpu.Proofs.AsciiText
import Dcpu.Token.Lexer

set_option autoImplicit false

namespace Dcpu

def Token.shape (t : Token) : TokenKind × Text := (t.kind, t.value)

inductive Piece
  | blank
  | name (word : Text)
  | numeral (word : Text)
  | mark (byte : UInt8)
deriving DecidableEq, Repr

namespace Piece

def marks : List UInt8 := [0x2c, 0x2b, 0x5b, 0x5d]

def markKind (byte : UInt8) : TokenKind := (TokenKind.ofChar? (Text.asciiChar byte)).getD .invalid

def text : Piece → Text
  | .blank => [0x20]
  | .name word | .numeral word => word
  | .mark byte => [byte]

def shape? : Piece → Option (TokenKind × Text)
  | .blank => none
  | .name word => some (.identifier, word)
  | .numeral word => some (.literal, word)
  | .mark byte => some (markKind byte, [byte])

def isWord : Piece → Bool
  | .name _ | .numeral _ => true
  | .blank | .mark _ => false

/-- Words are short, so that no line of a few of them is too long. -/
def longest : Nat := 6

def Formed : Piece → Prop
  | .blank => True
  | .name word => (word ≠ [] ∧ ∀ b ∈ word, NameRules.isLetter b = true) ∧ word.length ≤ longest
  | .numeral word =>
      ((∃ b ∈ word.head?, Text.isDigit b = true) ∧ ∀ b ∈ word, NameRules.inNumeral b = true) ∧
        word.length ≤ longest
  | .mark byte => byte ∈ marks

instance decidableFormed : (piece : Piece) → Decidable piece.Formed
  | .blank => isTrue trivial
  | .name word =>
      have := List.decidableBAll (NameRules.isLetter · = true) word
      inferInstanceAs (Decidable (_ ∧ _))
  | .numeral word =>
      have := List.decidableBAll (NameRules.inNumeral · = true) word
      inferInstanceAs (Decidable (_ ∧ _))
  | .mark byte => inferInstanceAs (Decidable (byte ∈ marks))

def Parted : List Piece → Prop
  | [] => True
  | piece :: rest =>
      piece.Formed ∧ (piece.isWord = true → ∀ next ∈ rest.head?, next.isWord = false) ∧ Parted rest

def Ends (b : UInt8) : Prop := b ∈ (0x20 : UInt8) :: marks

variable {rules : NameRules} {b : UInt8} {rest : Text}

/-- No character of its own, so that what stands there is a name, a numeral or a mark. -/
def Inner (b : UInt8) : Prop :=
  let c := Text.asciiChar b
  b < 0x80 ∧ Text.isBlank c = false ∧ c ≠ ';' ∧ c ≠ '"' ∧ c ≠ '\''

instance (b : UInt8) : Decidable (Inner b) := inferInstanceAs (Decidable (_ ∧ _))

theorem next_of_inner (inner : Inner b) :
    Lexeme.next rules b rest =
      if Text.isDigit b then Lexeme.run .literal NameRules.inNumeral b rest
      else if rules.startsName b then Lexeme.run .identifier rules.inName b rest
      else Lexeme.ofChar (Text.asciiChar b) b 0 := by
  obtain ⟨ascii, blank, semicolon, double, single⟩ := inner
  simp [Lexeme.next, Text.decodeFirst_ascii ascii, blank, semicolon, double, single]

theorem of_all_bytes {p : UInt8 → Bool} {P : UInt8 → Prop}
    (all : ∀ n : Fin 0x100, p (UInt8.ofNat n) = true → P (UInt8.ofNat n)) (holds : p b = true) :
    P b := by
  have found := all ⟨b.toNat, b.toNat_lt⟩
  rw [UInt8.ofNat_toNat] at found
  exact found holds

theorem next_letter (letter : NameRules.isLetter b = true) :
    Lexeme.next rules b rest = Lexeme.run .identifier rules.inName b rest := by
  have all : ∀ n : Fin 0x100, NameRules.isLetter (UInt8.ofNat n) = true →
      Inner (UInt8.ofNat n) ∧ Text.isDigit (UInt8.ofNat n) = false := by decide +kernel
  obtain ⟨inner, digit⟩ := of_all_bytes (P := fun b => Inner b ∧ Text.isDigit b = false) all letter
  have starts : rules.startsName b = true := by simp [NameRules.startsName, letter]
  rw [next_of_inner inner, if_neg (by simp [digit]), if_pos starts]

theorem next_digit (digit : Text.isDigit b = true) :
    Lexeme.next rules b rest = Lexeme.run .literal NameRules.inNumeral b rest := by
  have all : ∀ n : Fin 0x100, Text.isDigit (UInt8.ofNat n) = true → Inner (UInt8.ofNat n) := by
    decide +kernel
  rw [next_of_inner (of_all_bytes all digit), if_pos digit]

theorem next_blank : Lexeme.next rules 0x20 rest = .blank 0 := by
  have blank : Text.isBlank (Text.asciiChar 0x20) = true := by decide
  simp [Lexeme.next, Text.decodeFirst_ascii, blank]

theorem next_mark (mark : b ∈ marks) :
    Lexeme.next rules b rest = .token (markKind b) [b] 0 := by
  have all : ∀ b ∈ marks, Inner b ∧ Text.isDigit b = false ∧ NameRules.isLetter b = false ∧
      NameRules.isUnderscore b = false ∧ b ≠ 0x2e ∧ b ≠ 0x24 ∧
      Lexeme.ofChar (Text.asciiChar b) b 0 = .token (markKind b) [b] 0 := by decide +kernel
  obtain ⟨inner, digit, letter, underscore, dot, dollar, found⟩ := all b mark
  have starts : rules.startsName b = false := by
    simp [NameRules.startsName, letter, underscore, dot, dollar]
  rw [next_of_inner inner, if_neg (by simp [digit]), if_neg (by simp [starts]), found]

theorem run_append {kind : TokenKind} {accept : UInt8 → Bool} {further : Text}
    (accepted : ∀ c ∈ further, accept c = true) (stops : ∀ c ∈ rest.head?, accept c = false) :
    Lexeme.run kind accept b (further ++ rest) = .token kind (b :: further) further.length := by
  have nothing : rest.takeWhile accept = [] := by
    cases rest with
    | nil => rfl
    | cons c rest => simp [stops c rfl]
  simp only [Lexeme.run, List.takeWhile_append_of_pos accepted, nothing, List.append_nil]

theorem Ends.not_inName (ends : Ends b) : rules.inName b = false := by
  have all : ∀ b ∈ (0x20 : UInt8) :: marks, Text.isDigit b = false ∧
      NameRules.isLetter b = false ∧ NameRules.isUnderscore b = false ∧ b ≠ 0x2e ∧ b ≠ 0x24 := by
    decide +kernel
  obtain ⟨digit, letter, underscore, dot, dollar⟩ := all b ends
  simp [NameRules.inName, NameRules.startsName, digit, letter, underscore, dot, dollar]

theorem Ends.not_inNumeral (ends : Ends b) : NameRules.inNumeral b = false := by
  have all : ∀ b ∈ (0x20 : UInt8) :: marks, NameRules.inNumeral b = false := by decide +kernel
  exact all b ends

theorem readFrom_token {kind : TokenKind} {value : Text} {more : Nat}
    (next : Lexeme.next rules b rest = .token kind value more) (start : LineStart)
    (tokens : List Token) (errors : List Diagnostic) (offset : Nat) :
    LineTokens.readFrom rules start tokens errors offset (b :: rest) =
      LineTokens.readFrom rules start
        (⟨kind, start.position offset (more + 1), value⟩ :: tokens) errors
        (offset + more + 1) (rest.drop more) := by
  rw [LineTokens.readFrom.eq_def]
  dsimp only
  rw [next]

theorem next_word {piece : Piece} (formed : piece.Formed) (word : piece.isWord = true)
    (ends : ∀ b ∈ rest.head?, Ends b) :
    ∃ (b : UInt8) (further : Text) (kind : TokenKind), piece.text = b :: further ∧
      piece.shape? = some (kind, b :: further) ∧
      Lexeme.next rules b (further ++ rest) = .token kind (b :: further) further.length := by
  cases piece with
  | blank => simp [isWord] at word
  | mark _ => simp [isWord] at word
  | name word =>
      obtain ⟨⟨some, letters⟩, _⟩ := formed
      obtain ⟨b, further, rfl⟩ := List.exists_cons_of_ne_nil some
      refine ⟨b, further, .identifier, rfl, rfl, ?_⟩
      rw [next_letter (letters b (.head _))]
      refine run_append (fun c member => ?_) fun c first => (ends c first).not_inName
      simp [NameRules.inName, NameRules.startsName, letters c (.tail _ member)]
  | numeral word =>
      obtain ⟨⟨⟨b, first, digit⟩, numerals⟩, _⟩ := formed
      obtain ⟨further, rfl⟩ := List.head?_eq_some_iff.1 first
      refine ⟨b, further, .literal, rfl, rfl, ?_⟩
      rw [next_digit digit]
      exact run_append (fun c member => numerals c (.tail _ member))
        fun c first => (ends c first).not_inNumeral

theorem readFrom_piece {piece : Piece} (formed : piece.Formed)
    (ends : piece.isWord = true → ∀ b ∈ rest.head?, Ends b) (start : LineStart)
    (tokens : List Token) (errors : List Diagnostic) (offset : Nat) :
    ∃ (found : List Token) (offset' : Nat), found.map Token.shape = piece.shape?.toList ∧
      LineTokens.readFrom rules start tokens errors offset (piece.text ++ rest) =
        LineTokens.readFrom rules start (found ++ tokens) errors offset' rest := by
  -- Only a word needs to know what comes next, since it is read for as long as it can be.
  by_cases word : piece.isWord = true
  · obtain ⟨b, further, kind, written, shape, next⟩ := next_word formed word (ends word)
    have read := readFrom_token next start tokens errors offset
    rw [List.drop_left] at read
    refine ⟨[_], _, ?_, (congrArg _ (congrArg (· ++ rest) written)).trans read⟩
    rw [shape]
    rfl
  · cases piece with
    | name _ => exact absurd rfl word
    | numeral _ => exact absurd rfl word
    | blank =>
        refine ⟨[], offset + 0 + 1, rfl, ?_⟩
        rw [text, List.cons_append, LineTokens.readFrom.eq_def]
        dsimp only
        rw [next_blank]
        rfl
    | mark byte =>
        have next : Lexeme.next rules byte rest = .token (markKind byte) [byte] 0 :=
          next_mark formed
        exact ⟨[_], _, rfl, readFrom_token next start tokens errors offset⟩

theorem head?_flatMap_text {pieces : List Piece} (parted : Parted pieces)
    (apart : ∀ next ∈ pieces.head?, next.isWord = false) :
    ∀ b ∈ (pieces.flatMap text).head?, Ends b := by
  intro b first
  cases pieces with
  | nil => simp at first
  | cons piece rest =>
      cases piece with
      | blank =>
          obtain rfl : 0x20 = b := by simpa [text] using first
          exact .head _
      | mark byte =>
          obtain rfl : byte = b := by simpa [text] using first
          exact .tail _ parted.1
      | name _ => exact absurd (apart _ rfl) (by simp [isWord])
      | numeral _ => exact absurd (apart _ rfl) (by simp [isWord])

theorem readFrom_pieces {pieces : List Piece} (parted : Parted pieces) (start : LineStart)
    (tokens : List Token) (errors : List Diagnostic) (offset : Nat) :
    ∃ found : List Token, found.map Token.shape = pieces.filterMap shape? ∧
      LineTokens.readFrom rules start tokens errors offset (pieces.flatMap text) =
        ⟨tokens.reverse ++ found, errors.reverse⟩ := by
  induction pieces generalizing tokens offset with
  | nil =>
      refine ⟨[], rfl, ?_⟩
      rw [List.flatMap_nil, LineTokens.readFrom.eq_def]
      simp
  | cons piece rest ih =>
      obtain ⟨formed, apart, parted⟩ := parted
      obtain ⟨found, offset', shape, read⟩ := readFrom_piece formed
        (fun word => head?_flatMap_text parted (apart word)) start tokens errors offset
      -- Tokens are kept in reverse while a line is read, so the rest of it starts from these.
      obtain ⟨further, shapes, after⟩ := ih parted (found ++ tokens) offset'
      refine ⟨found.reverse ++ further, ?_, ?_⟩
      · rw [List.map_append, List.map_reverse, shape, shapes]
        cases shaped : piece.shape? with
        | none => simp [shaped]
        | some s => simp [shaped]
      · rw [List.flatMap_cons, read, after]
        simp

theorem ofLine_pieces {pieces : List Piece} (parted : Parted pieces) (rules : NameRules)
    (start : LineStart) :
    ∃ tokens : List Token, tokens.map Token.shape = pieces.filterMap shape? ∧
      LineTokens.ofLine rules start (pieces.flatMap text) = ⟨tokens, []⟩ :=
  readFrom_pieces parted start [] [] 0

end Piece

end Dcpu
