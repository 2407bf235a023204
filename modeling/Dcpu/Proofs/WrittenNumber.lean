import Dcpu.Listing
import Dcpu.Numeral
import Dcpu.Token.Lexer
import Mathlib.Data.Nat.Digits.Defs

set_option autoImplicit false

namespace Dcpu

namespace Text

def digitByte (d : Nat) : UInt8 := d.digitChar.toUInt8

variable {base n d : Nat} {b : UInt8}

theorem digits_eq (more : 1 < base) (n : Nat) :
    digits base n =
      if n < base then [digitByte n] else digits base (n / base) ++ [digitByte (n % base)] := by
  rw [digits, Nat.toDigits_eq_if more]
  split
  · rfl
  · rw [List.map_append]
    rfl

theorem mem_digits (more : 1 < base) (member : b ∈ digits base n) :
    ∃ d, d < base ∧ b = digitByte d := by
  induction n using Nat.strongRecOn with
  | ind n ih =>
      rw [digits_eq more] at member
      split at member
      · rename_i below
        exact ⟨n, below, List.mem_singleton.1 member⟩
      · rename_i above
        rcases List.mem_append.1 member with earlier | last
        · exact ih (n / base) (Nat.div_lt_self (by omega) more) earlier
        · exact ⟨n % base, Nat.mod_lt n (by omega), List.mem_singleton.1 last⟩

theorem digits_ne_nil (more : 1 < base) : digits base n ≠ [] := by
  rw [digits_eq more]
  split <;> simp

theorem digitByte_hex (below : d < 16) :
    digitValue? (digitByte d) = some d ∧ NameRules.inNumeral (digitByte d) = true ∧
      digitByte d ≠ Numeral.underscore ∧ digitByte d ≠ 0x2b ∧ digitByte d ≠ 0x2d := by
  have all : ∀ d : Fin 16, digitValue? (digitByte d) = some d.val ∧
      NameRules.inNumeral (digitByte d) = true ∧ digitByte d ≠ Numeral.underscore ∧
      digitByte d ≠ 0x2b ∧ digitByte d ≠ 0x2d := by decide
  exact all ⟨d, below⟩

theorem mem_hexWord {word : Word} (member : b ∈ hexWord word) : ∃ d, d < 16 ∧ b = digitByte d := by
  -- Zeros in front are digits too.
  rcases List.mem_append.1 member with zeros | written
  · exact ⟨0, by decide, List.eq_of_mem_replicate zeros⟩
  · exact mem_digits (by decide) written

theorem length_hexWord (word : Word) : (hexWord word).length = 4 := by
  have most : (digits 16 word.toNat).length ≤ 4 := by
    rw [digits, List.length_map]
    exact Nat.toDigits_length 16 word.toNat 4 (by decide) word.toNat_lt
  rw [hexWord, hex4, hexDigits, padLeft, List.length_append, List.length_replicate]
  omega

end Text

namespace Numeral

open Text

variable {base value : Nat} {rules : NumeralRules}

theorem readValue_append (before after : Text) :
    readValue base value (before ++ after) =
      (readValue base value before).bind fun value => readValue base value after := by
  induction before generalizing value with
  | nil => rfl
  | cons b rest ih =>
      simp only [List.cons_append, readValue]
      cases digitValue? b with
      | none => rfl
      | some d =>
          dsimp only
          by_cases high : base ≤ d
          · rw [if_pos high, if_pos high]
            rfl
          · rw [if_neg high, if_neg high]
            by_cases large : 0x10000000000000000 ≤ value * base + d
            · rw [if_pos large, if_pos large]
              rfl
            · rw [if_neg large, if_neg large, ih]

theorem readValue_digit {d : Nat} (least : base ≤ 16) (below : d < base)
    (fits : value * base + d < 2 ^ 64) (rest : Text) :
    readValue base value (digitByte d :: rest) = readValue base (value * base + d) rest := by
  rw [readValue, (digitByte_hex (by omega)).1]
  dsimp only
  rw [if_neg (by omega), if_neg (by omega)]

theorem readValue_digits (more : 1 < base) (least : base ≤ 16) {n : Nat} (fits : n < 2 ^ 64) :
    readValue base 0 (digits base n) = .ok n := by
  -- The induction follows the digits from the last one on, as they come off the number.
  induction n using Nat.strongRecOn with
  | ind n ih =>
      rw [digits_eq more]
      split
      · rename_i below
        rw [readValue_digit least below (by omega), Nat.zero_mul, Nat.zero_add]
        rfl
      · rename_i above
        have smaller : n / base < n := Nat.div_lt_self (by omega) more
        have whole : n / base * base + n % base = n := by rw [Nat.mul_comm, Nat.div_add_mod]
        rw [readValue_append, ih _ smaller (by omega)]
        change readValue base (n / base) [digitByte (n % base)] = .ok n
        rw [readValue_digit least (Nat.mod_lt n (by omega)) (by omega), whole]
        rfl

theorem readValue_padLeft (more : 1 < base) (least : base ≤ 16) (width : Nat) (t : Text) :
    readValue base 0 (padLeft width t) = readValue base 0 t := by
  rw [padLeft]
  induction width - t.length with
  | zero => rfl
  | succ k ih =>
      have zero_eq : zero = digitByte 0 := by decide
      rw [List.replicate_succ, List.cons_append, zero_eq,
        readValue_digit least (by omega) (by omega), Nat.zero_mul, ← zero_eq]
      exact ih

theorem decode_eq_readValue {t marked digits : Text} (split : splitBase rules t = .ok (base, marked))
    (dropped : dropSeparators rules marked = .ok digits)
    (unsigned : ∃ b ∈ digits.head?, b ≠ 0x2b ∧ b ≠ 0x2d) :
    decode rules t = (readValue base 0 digits).bind fun value =>
      if value ≤ largest then .ok value else .error .outOfRange := by
  obtain ⟨b, first, plus, minus⟩ := unsigned
  obtain ⟨rest, rfl⟩ := List.head?_eq_some_iff.1 first
  simp only [decode, split, dropped, bind, Except.bind, List.head?_cons]
  split
  · contradiction
  · rename_i same
    exact absurd (Option.some.inj same) plus
  · rename_i same
    exact absurd (Option.some.inj same) minus
  · rfl

theorem decode_eq {t marked : Text} (split : splitBase rules t = .ok (base, marked))
    (written : ∀ b ∈ marked, ∃ d, d < 16 ∧ b = digitByte d) (some : marked ≠ [])
    (read : readValue base 0 marked = .ok value) (fits : value ≤ largest) :
    decode rules t = .ok value := by
  have unparted : underscore ∉ marked := by
    intro member
    obtain ⟨d, below, same⟩ := written _ member
    exact (digitByte_hex below).2.2.1 same.symm
  have unsigned : ∃ b ∈ marked.head?, b ≠ 0x2b ∧ b ≠ 0x2d := by
    obtain ⟨b, rest, rfl⟩ := List.exists_cons_of_ne_nil some
    obtain ⟨d, below, rfl⟩ := written b (.head _)
    exact ⟨_, rfl, (digitByte_hex below).2.2.2⟩
  rw [decode_eq_readValue split (if_pos unparted) unsigned, read]
  exact if_pos fits

theorem decode_hexWord (word : Word) :
    decode rules ("0x" ++ hexWord word) = .ok word.toNat := by
  have read : readValue 16 0 (hexWord word) = .ok word.toNat := by
    rw [hexWord, hex4, hexDigits, readValue_padLeft (by decide) (by decide),
      readValue_digits (by decide) (by decide) (Nat.lt_trans word.toNat_lt (by decide))]
  have split : splitBase rules ("0x" ++ hexWord word) = .ok (16, hexWord word) := by
    cases written : hexWord word with
    | nil => simpa [written] using length_hexWord word
    | cons d rest => rfl
  refine decode_eq split (fun b member => mem_hexWord member) ?_ read ?_
  · intro nothing
    simpa [nothing] using length_hexWord word
  · exact Nat.le_trans (Nat.le_of_lt word.toNat_lt) (by decide)

theorem splitBase_of_length_le {t : Text} (short : t.length ≤ 2) :
    splitBase rules t = .ok (10, t) := by
  -- Two digits are too few for a mark of the base.
  unfold splitBase
  split
  · simp only [List.length_cons] at short
    omega
  · rfl

theorem decode_decimal {n : Nat} (small : n < 0x20) : decode rules (decimal n) = .ok n := by
  have short : (decimal n).length ≤ 2 := by
    rw [decimal, digits, List.length_map]
    exact Nat.toDigits_length 10 n 2 (by decide) (Nat.lt_trans small (by decide))
  have written (b : UInt8) (member : b ∈ decimal n) : ∃ d, d < 16 ∧ b = digitByte d := by
    obtain ⟨d, below, same⟩ := mem_digits (by decide) member
    exact ⟨d, by omega, same⟩
  exact decode_eq (splitBase_of_length_le short) written (digits_ne_nil (by decide))
    (readValue_digits (by decide) (by decide) (by omega))
    (Nat.le_of_lt (Nat.lt_trans small (by decide)))

end Numeral

namespace Listing

open Text

theorem decode_literal (rules : NumeralRules) (value : Word) :
    Numeral.decode rules (literal value) = .ok value.toNat := by
  rw [literal]
  split
  · rename_i small
    exact Numeral.decode_decimal small
  · exact Numeral.decode_hexWord value

end Listing

end Dcpu
