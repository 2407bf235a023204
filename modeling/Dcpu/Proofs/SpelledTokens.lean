import Dcpu.Proofs.LaidTokens
import Dcpu.Proofs.LineElements

set_option autoImplicit false

namespace Dcpu

namespace Text

variable {b quote : UInt8} {rest found inner : Text} {c : Char} {width n bits value : Nat}

/-- Nothing in the text closes the quote before it. A backslash takes the byte behind it along. -/
inductive Unclosed (quote : UInt8) : Text → Prop
  | nil : Unclosed quote []
  | plain {b : UInt8} {rest : Text} (unescaping : b ≠ backslash) (other : b ≠ quote)
      (unclosed : Unclosed quote rest) : Unclosed quote (b :: rest)
  | escaped {b : UInt8} {rest : Text} (unclosed : Unclosed quote rest) :
      Unclosed quote (backslash :: b :: rest)

structure Run (accept : UInt8 → Bool) (written after : Text) : Prop where
  inside : ∀ b ∈ written, accept b = true
  stops : ∀ b ∈ after.head?, accept b = false

theorem run_takeWhile {accept : UInt8 → Bool} (first : accept b = true) (rest : Text) :
    Run accept (b :: rest.takeWhile accept) (rest.dropWhile accept) where
  inside := List.forall_mem_cons.2 ⟨first, List.all_eq_true.1 List.all_takeWhile⟩
  stops := by
    intro c next
    have stop := List.head?_dropWhile_not accept rest
    rw [Option.mem_def.1 next] at stop
    simpa using stop

def StartsWith (t : Text) (c : Char) (width : Nat) : Prop :=
  ∃ b rest, t = b :: rest ∧ decodeFirst b rest = (c, width)

theorem high_of_continueBits (read : continueBits n bits rest = some value) :
    ∀ b ∈ rest.take n, 0x80 ≤ b := by
  induction n generalizing bits rest with
  | zero => simp
  | succ n ih =>
      cases rest with
      | nil => cases read
      | cons b rest =>
          rw [continueBits] at read
          split at read
          · rename_i inside
            rw [List.take_succ_cons]
            exact List.forall_mem_cons.2 ⟨inside.1, ih read⟩
          · cases read

theorem least_of_leadByte? {more least : Nat} (high : 0x80 ≤ b)
    (lead : leadByte? b = some (more, bits, least)) : 0x80 ≤ least := by
  -- Only a byte of ASCII, which is its own character, allows for less.
  have low : ¬ b < 0x80 := UInt8.not_lt.2 high
  unfold leadByte? at lead
  grind

theorem sequence?_of_high (high : 0x80 ≤ b) (found : sequence? b rest = some (c, width)) :
    0x80 ≤ c.toNat ∧ ∀ x ∈ rest.take (width - 1), 0x80 ≤ x := by
  obtain ⟨⟨more, bits, least⟩, lead, found⟩ := Option.bind_eq_some_iff.1 found
  obtain ⟨value, read, result⟩ := Option.bind_eq_some_iff.1 found
  have enough := least_of_leadByte? high lead
  by_cases valid : value.isValidChar
  · rw [dif_pos valid] at result
    by_cases whole : least ≤ value
    · rw [if_pos whole] at result
      obtain ⟨rfl, rfl⟩ := Prod.mk.inj (Option.some.inj result)
      exact ⟨Nat.le_trans enough whole, high_of_continueBits read⟩
    · rw [if_neg whole] at result
      cases result
  · rw [dif_neg valid] at result
    cases result

theorem decodeFirst_of_high (high : 0x80 ≤ b) (decoded : decodeFirst b rest = (c, width)) :
    0x80 ≤ c.toNat ∧ ∀ x ∈ rest.take (width - 1), 0x80 ≤ x := by
  unfold decodeFirst at decoded
  cases found : sequence? b rest with
  | none =>
      rw [found] at decoded
      obtain ⟨rfl, rfl⟩ := Prod.mk.inj decoded
      exact ⟨by decide, by simp⟩
  | some first =>
      rw [found] at decoded
      obtain rfl : first = (c, width) := decoded
      exact sequence?_of_high high found

theorem byte_of_decodeFirst (decoded : decodeFirst b rest = (c, width)) (ascii : c.toNat < 0x80) :
    b = UInt8.ofNat c.toNat ∧ width = 1 := by
  by_cases low : b < 0x80
  · rw [decodeFirst_ascii low] at decoded
    obtain ⟨rfl, rfl⟩ := Prod.mk.inj decoded
    have all : ∀ n : Fin 0x80, UInt8.ofNat (asciiChar (UInt8.ofNat n)).toNat = UInt8.ofNat n := by
      decide +kernel
    have same := all ⟨b.toNat, low⟩
    rw [UInt8.ofNat_toNat] at same
    exact ⟨same.symm, rfl⟩
  · have := (decodeFirst_of_high (UInt8.not_lt.1 low) decoded).1
    omega

theorem ends_of_high (high : 0x80 ≤ b) : Element.Ends b := by
  have all : ∀ n : Fin 0x100, 0x80 ≤ UInt8.ofNat n → Element.Ends (UInt8.ofNat n) := by
    unfold Element.Ends
    decide +kernel
  have ends := all ⟨b.toNat, b.toNat_lt⟩
  rw [UInt8.ofNat_toNat] at ends
  exact ends high

theorem blank_ends (decoded : decodeFirst b rest = (c, width)) (blank : isBlank c = true) :
    ∀ x ∈ b :: rest.take (width - 1), Element.Ends x := by
  by_cases low : b < 0x80
  · rw [decodeFirst_ascii low] at decoded
    obtain ⟨rfl, rfl⟩ := Prod.mk.inj decoded
    have all : ∀ n : Fin 0x80, isBlank (asciiChar (UInt8.ofNat n)) = true →
        Element.Ends (UInt8.ofNat n) := by
      unfold Element.Ends
      decide +kernel
    have ends := all ⟨b.toNat, low⟩
    rw [UInt8.ofNat_toNat] at ends
    simpa using ends blank
  · have high : 0x80 ≤ b := UInt8.not_lt.1 low
    exact List.forall_mem_cons.2 ⟨ends_of_high high,
      fun x member => ends_of_high ((decodeFirst_of_high high decoded).2 x member)⟩

end Text

namespace Lexeme

open Text

variable {rules : NameRules} {kind : TokenKind} {value rest found inner after : Text} {b quote : UInt8}
  {more : Nat}

def semicolon : UInt8 := 0x3b

inductive Spelled (rules : NameRules) : TokenKind → Text → Text → Text → Prop
  | name {written after : Text} (starts : ∃ b ∈ written.head?, rules.startsName b = true)
      (run : Run rules.inName written after) : Spelled rules .identifier written written after
  | numeral {written after : Text} (starts : ∃ b ∈ written.head?, isDigit b = true)
      (run : Run NameRules.inNumeral written after) : Spelled rules .literal written written after
  | string {inner value after : Text} (unclosed : Unclosed doubleQuote inner)
      (unquotes : unquoteString inner = some value) :
      Spelled rules .string value (doubleQuote :: (inner ++ [doubleQuote])) after
  | character {inner value after : Text} (unclosed : Unclosed singleQuote inner)
      (unquotes : unquoteCharacter inner = some value) :
      Spelled rules .character value (singleQuote :: (inner ++ [singleQuote])) after
  | mark {c : Char} {kind : TokenKind} {after : Text} (made : TokenKind.ofChar? c = some kind) :
      Spelled rules kind (Text.ofChar c) (Text.ofChar c) after

theorem unclosed_of_beforeQuote? (closed : beforeQuote? quote found rest = some inner) :
    ∃ text after, inner = found.reverse ++ text ∧ rest = text ++ quote :: after ∧
      Unclosed quote text := by
  fun_induction beforeQuote? quote found rest with
  | case1 => cases closed
  | case2 => cases closed
  | case3 found escaped after ih =>
      obtain ⟨text, after, rfl, rfl, unclosed⟩ := ih closed
      exact ⟨backslash :: escaped :: text, after, by simp, rfl, .escaped unclosed⟩
  | case4 found rest other =>
      obtain rfl := Option.some.inj closed
      exact ⟨[], rest, by simp, rfl, .nil⟩
  | case5 found b rest other plain ih =>
      obtain ⟨text, after, rfl, rfl, unclosed⟩ := ih closed
      exact ⟨b :: text, after, by simp, rfl, .plain other plain unclosed⟩

theorem ascii_of_ofChar? {c : Char} (made : TokenKind.ofChar? c = some kind) :
    c.toNat < 0x80 ∧ Text.ofChar c = [UInt8.ofNat c.toNat] ∧
      Element.Ends (UInt8.ofNat c.toNat) := by
  -- A mark is one of few characters, all of them ASCII.
  unfold TokenKind.ofChar? at made
  unfold Element.Ends
  split at made
  case h_9 => cases made
  all_goals decide +kernel

theorem kind_of_ofChar? {c : Char} (made : TokenKind.ofChar? c = some kind) :
    kind ≠ .identifier ∧ kind ≠ .literal := by
  unfold TokenKind.ofChar? at made
  split at made
  all_goals
    cases made
    try decide

theorem Spelled.starts_name {written : Text} (spelled : Spelled rules .identifier value written after) :
    ∃ b ∈ written.head?, rules.startsName b = true := by
  cases spelled with
  | name starts run => exact starts
  | mark made => exact absurd rfl (kind_of_ofChar? made).1

theorem Spelled.starts_numeral {written : Text}
    (spelled : Spelled rules .literal value written after) :
    ∃ b ∈ written.head?, isDigit b = true := by
  cases spelled with
  | numeral starts run => exact starts
  | mark made => exact absurd rfl (kind_of_ofChar? made).2

def Accounts (rules : NameRules) (b : UInt8) (rest : Text) : Lexeme → Prop
  | .blank more => ∃ c, decodeFirst b rest = (c, more + 1) ∧ isBlank c = true
  | .token kind value more => Spelled rules kind value (b :: rest.take more) (rest.drop more)
  | .comment => b = semicolon
  | .error .. | .unclosed _ => True

theorem run_accounts {accept : UInt8 → Bool} (first : accept b = true)
    (spelled : ∀ {written after : Text}, written.head? = some b → Run accept written after →
      Spelled rules kind written written after) (rest : Text) :
    (run kind accept b rest).Accounts rules b rest := by
  have whole := List.takeWhile_append_dropWhile (p := accept) (l := rest)
  have taken := @List.take_left _ (rest.takeWhile accept) (rest.dropWhile accept)
  have dropped := @List.drop_left _ (rest.takeWhile accept) (rest.dropWhile accept)
  rw [whole] at taken dropped
  change Spelled rules kind _ _ _
  rw [taken, dropped]
  exact spelled rfl (run_takeWhile first rest)

theorem quoted_accounts {cause : Cause} {unquote : Text → Option Text}
    (spelled : ∀ {inner value after : Text}, Unclosed quote inner → unquote inner = some value →
      Spelled rules kind value (quote :: (inner ++ [quote])) after) (rest : Text) :
    (quoted kind cause quote unquote rest).Accounts rules quote rest := by
  unfold quoted
  split
  · trivial
  rename_i inner closed
  obtain ⟨text, after, same, rfl, unclosed⟩ := unclosed_of_beforeQuote? closed
  obtain rfl : inner = text := same
  split
  · rename_i value unquotes
    -- The closing quote is the byte behind what it closes.
    have taken : (inner ++ quote :: after).take (inner.length + 1) = inner ++ [quote] := by
      rw [List.append_cons]
      exact List.take_left' List.length_append
    change Spelled rules kind value _ _
    rw [taken]
    exact spelled unclosed unquotes
  · trivial

theorem next_accounts (rules : NameRules) (b : UInt8) (rest : Text) :
    (next rules b rest).Accounts rules b rest := by
  cases decoded : decodeFirst b rest with
  | mk c width =>
      have positive := (decodeFirst_width b rest).1
      rw [decoded] at positive
      simp only [next, decoded]
      -- The cases are in the order of the reader's tests. Those on the character settle the byte too.
      split
      · rename_i blank
        exact ⟨c, by rw [decoded, Nat.sub_add_cancel positive], blank⟩
      split
      · rename_i same
        subst same
        exact (byte_of_decodeFirst decoded (by decide)).1
      split
      · rename_i same
        subst same
        obtain ⟨rfl, _⟩ := byte_of_decodeFirst decoded (by decide)
        exact quoted_accounts (fun unclosed unquotes => .string unclosed unquotes) rest
      split
      · rename_i same
        subst same
        obtain ⟨rfl, _⟩ := byte_of_decodeFirst decoded (by decide)
        exact quoted_accounts (fun unclosed unquotes => .character unclosed unquotes) rest
      split
      · rename_i digit
        exact run_accounts (by simp [NameRules.inNumeral, digit])
          (fun first run => .numeral ⟨b, first, digit⟩ run) rest
      split
      · rename_i starts
        exact run_accounts (by simp [NameRules.inName, starts])
          (fun first run => .name ⟨b, first, starts⟩ run) rest
      · rw [ofChar]
        split
        · rename_i kind made
          obtain ⟨ascii, written, _⟩ := ascii_of_ofChar? made
          obtain ⟨rfl, rfl⟩ := byte_of_decodeFirst decoded ascii
          change Spelled rules kind [_] [_] _
          rw [← written]
          exact .mark made
        · trivial

end Lexeme

end Dcpu
