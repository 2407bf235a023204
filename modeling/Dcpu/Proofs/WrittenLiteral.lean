import Dcpu.Proofs.DecodedText
import Dcpu.Proofs.WrittenNumber

set_option autoImplicit false

namespace Dcpu

namespace Text

def escapeByte (b : UInt8) : Text := backslash :: 0x78 :: hexDigits 2 b.toNat

def escapeChar (n : Nat) : Text := backslash :: 0x55 :: hexDigits 8 n

variable {base value width n : Nat} {b quote : UInt8}

theorem mem_hexDigits (member : b ∈ hexDigits width n) : ∃ d, d < 16 ∧ b = digitByte d := by
  rcases List.mem_append.1 member with zeros | written
  · exact ⟨0, by decide, List.eq_of_mem_replicate zeros⟩
  · exact mem_digits (by decide) written

theorem length_hexDigits (some : 0 < width) (fits : n < 16 ^ width) :
    (hexDigits width n).length = width := by
  have most : (digits 16 n).length ≤ width := by
    rw [digits, List.length_map]
    exact Nat.toDigits_length 16 n width some fits
  rw [hexDigits, padLeft, List.length_append, List.length_replicate]
  omega

theorem readDigits_of_readValue {t : Text} (read : Numeral.readValue base value t = .ok n)
    (rest : Text) : readDigits base t.length value (t ++ rest) = some (n, rest) := by
  induction t generalizing value with
  | nil =>
      obtain rfl := Except.ok.inj read
      rfl
  | cons b t ih =>
      rw [Numeral.readValue] at read
      rw [List.cons_append, List.length_cons, readDigits]
      cases digit : digitValue? b with
      | none => simp [digit] at read
      | some d =>
          rw [digit] at read
          dsimp only at read ⊢
          by_cases high : base ≤ d
          · rw [if_pos high] at read
            cases read
          · rw [if_neg high] at read
            rw [if_pos (Nat.not_le.1 high)]
            split at read
            · cases read
            · exact ih read

theorem readDigits_hexDigits (some : 0 < width) (fits : n < 16 ^ width) (small : n < 2 ^ 64)
    (rest : Text) : readDigits 16 width 0 (hexDigits width n ++ rest) = .some (n, rest) := by
  have read : Numeral.readValue 16 0 (hexDigits width n) = .ok n := by
    rw [hexDigits, Numeral.readValue_padLeft (by decide) (by decide),
      Numeral.readValue_digits (by decide) (by decide) small]
  have found := readDigits_of_readValue read rest
  rwa [length_hexDigits some fits] at found

theorem readEscape_escapeByte (quote b : UInt8) (rest : Text) :
    readEscape quote (0x78 :: hexDigits 2 b.toNat ++ rest) = some ([b], rest) := by
  have least := b.toNat_lt
  have read := readDigits_hexDigits (by decide) (show b.toNat < 16 ^ 2 from least)
    (by omega) rest
  change byteEscape 16 2 255 (hexDigits 2 b.toNat ++ rest) = _
  rw [byteEscape, read]
  dsimp only
  rw [if_pos (by omega)]
  simp

theorem readEscape_escapeChar (quote : UInt8) (valid : n.isValidChar) (rest : Text) :
    readEscape quote (0x55 :: hexDigits 8 n ++ rest) = some (ofChar (Char.ofNat n), rest) := by
  have least : n < 0x110000 := by
    rcases valid with low | high
    · exact Nat.lt_trans low (by decide)
    · exact high.2
  have read := readDigits_hexDigits (by decide) (show n < 16 ^ 8 by omega) (by omega) rest
  change charEscape 8 (hexDigits 8 n ++ rest) = _
  rw [charEscape, read]
  dsimp only
  rw [dif_pos valid, Char.ofNat, dif_pos valid]

theorem unquoteCharacter_escapeChar (valid : n.isValidChar) :
    unquoteCharacter (escapeChar n) = some (ofChar (Char.ofNat n)) := by
  have read := readEscape_escapeChar singleQuote valid []
  rw [List.append_nil] at read
  rw [escapeChar, unquoteCharacter, readItem, if_pos rfl, read]

theorem readItems_cons {found rest bytes after : Text}
    (read : readItem quote b rest = some (bytes, after)) :
    readItems quote found (b :: rest) = readItems quote (bytes.reverse ++ found) after := by
  rw [readItems.eq_def]
  dsimp only
  split
  · rename_i nothing
    rw [read] at nothing
    cases nothing
  · rename_i bytes' after' same
    rw [read] at same
    obtain ⟨rfl, rfl⟩ := Prod.mk.inj (Option.some.inj same)
    rfl

theorem readItems_escapeByte (found t : Text) :
    readItems doubleQuote found (t.flatMap escapeByte) = some (found.reverse ++ t) := by
  induction t generalizing found with
  | nil =>
      rw [List.flatMap_nil, readItems.eq_def, List.append_nil]
  | cons b t ih =>
      have read : readItem doubleQuote backslash
          (0x78 :: hexDigits 2 b.toNat ++ t.flatMap escapeByte) =
            some ([b], t.flatMap escapeByte) := by
        rw [readItem, if_pos rfl, readEscape_escapeByte]
      rw [List.flatMap_cons, escapeByte, List.cons_append, readItems_cons read, ih]
      simp

theorem unquoteString_escapeByte (t : Text) :
    unquoteString (t.flatMap escapeByte) = some t :=
  readItems_escapeByte [] t

end Text

namespace Lexeme

open Text

variable {quote : UInt8} {found : Text}

theorem beforeQuote?_plain {plain : Text} (free : ∀ b ∈ plain, b ≠ backslash ∧ b ≠ quote)
    (rest : Text) :
    beforeQuote? quote found (plain ++ rest) =
      beforeQuote? quote (plain.reverse ++ found) rest := by
  induction plain generalizing found with
  | nil => rfl
  | cons b plain ih =>
      obtain ⟨escaped, quoted⟩ := free b (.head _)
      rw [List.cons_append, beforeQuote?.eq_def]
      dsimp only
      rw [if_neg escaped, if_neg quoted, ih fun c member => free c (.tail _ member)]
      simp

theorem beforeQuote?_escape {letter : UInt8} {digits : Text}
    (hex : ∀ b ∈ digits, ∃ d, d < 16 ∧ b = digitByte d)
    (either : quote = singleQuote ∨ quote = doubleQuote) (rest : Text) :
    beforeQuote? quote found (backslash :: letter :: (digits ++ rest)) =
      beforeQuote? quote ((backslash :: letter :: digits).reverse ++ found) rest := by
  have free : ∀ b ∈ digits, b ≠ backslash ∧ b ≠ quote := by
    intro b member
    obtain ⟨d, below, rfl⟩ := hex b member
    have all : ∀ d : Fin 16, digitByte d ≠ backslash ∧ digitByte d ≠ singleQuote ∧
        digitByte d ≠ doubleQuote := by decide
    obtain ⟨escaped, single, double⟩ := all ⟨d, below⟩
    rcases either with rfl | rfl
    · exact ⟨escaped, single⟩
    · exact ⟨escaped, double⟩
  rw [beforeQuote?.eq_def]
  dsimp only
  rw [if_pos rfl, beforeQuote?_plain free]
  simp

theorem beforeQuote?_quote (found rest : Text)
    (either : quote = singleQuote ∨ quote = doubleQuote) :
    beforeQuote? quote found (quote :: rest) = some found.reverse := by
  have plain : quote ≠ backslash := by rcases either with rfl | rfl <;> decide
  rw [beforeQuote?.eq_def]
  dsimp only
  rw [if_neg plain, if_pos rfl]

theorem beforeQuote?_escapeChar (n : Nat) (rest : Text) :
    beforeQuote? singleQuote [] (escapeChar n ++ singleQuote :: rest) = some (escapeChar n) := by
  rw [escapeChar, List.cons_append, List.cons_append,
    beforeQuote?_escape (fun b member => mem_hexDigits member) (.inl rfl),
    beforeQuote?_quote _ _ (.inl rfl)]
  simp

theorem beforeQuote?_escapeByte (found t rest : Text) :
    beforeQuote? doubleQuote found (t.flatMap escapeByte ++ doubleQuote :: rest) =
      some (found.reverse ++ t.flatMap escapeByte) := by
  induction t generalizing found with
  | nil =>
      rw [List.flatMap_nil, List.nil_append, beforeQuote?_quote _ _ (.inr rfl), List.append_nil]
  | cons b t ih =>
      rw [List.flatMap_cons, escapeByte, List.cons_append, List.cons_append, List.cons_append,
        List.cons_append, List.append_assoc,
        beforeQuote?_escape (fun b member => mem_hexDigits member) (.inr rfl), ih]
      simp

end Lexeme

namespace Numeral

open Text

theorem splitBase_of_decimal {rules : NumeralRules} {t : Text}
    (written : ∀ b ∈ t, ∃ d, d < 10 ∧ b = digitByte d) : splitBase rules t = .ok (10, t) := by
  -- What would mark another base is no decimal digit.
  have unmarked {mark : UInt8} (member : mark ∈ t) :
      mark ≠ 0x78 ∧ mark ≠ 0x58 ∧ mark ≠ 0x62 ∧ mark ≠ 0x42 := by
    obtain ⟨d, below, rfl⟩ := written mark member
    have all : ∀ d : Fin 10, digitByte d ≠ 0x78 ∧ digitByte d ≠ 0x58 ∧ digitByte d ≠ 0x62 ∧
        digitByte d ≠ 0x42 := by decide
    exact all ⟨d, below⟩
  unfold splitBase
  split
  · rename_i mark d rest
    obtain ⟨hex, upperHex, binary, upperBinary⟩ := unmarked (.tail _ (.head _))
    rw [if_neg (by simp [hex, upperHex]), if_neg (by simp [binary, upperBinary])]
  · rfl

theorem decode_decimal_le {rules : NumeralRules} {n : Nat} (fits : n ≤ largest) :
    decode rules (decimal n) = .ok n := by
  have written (b : UInt8) (member : b ∈ decimal n) : ∃ d, d < 10 ∧ b = digitByte d :=
    mem_digits (by decide) member
  refine decode_eq (splitBase_of_decimal written) ?_ (digits_ne_nil (by decide))
    (readValue_digits (by decide) (by decide) ?_) fits
  · intro b member
    obtain ⟨d, below, same⟩ := written b member
    exact ⟨d, by omega, same⟩
  · exact Nat.lt_of_le_of_lt fits (by decide)

end Numeral

end Dcpu
