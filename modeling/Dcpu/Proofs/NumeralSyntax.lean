import Dcpu.Proofs.WrittenNumber
import Dcpu.Statement.Parser

/-!
The syntax of numerals. A mark says what the base is, digits of that base follow, and underscores may
part them where the dialect allows it:

    numeral = digits | ('0x' | '0X') digits | ('0b' | '0B') digits
    digits  = digit | digit {digit | '_'} digit

Reading accepts exactly these, as long as the value is in range.
-/

set_option autoImplicit false

namespace Dcpu

namespace Numeral

open StatementReader (bind_eq_ok)

structure Digit (base : Nat) (b : UInt8) (d : Nat) : Prop where
  below : d < base
  written : (d < 10 ∧ b.toNat = 0x30 + d) ∨
    (10 ≤ d ∧ (b.toNat = 0x61 + (d - 10) ∨ b.toNat = 0x41 + (d - 10)))

instance (base : Nat) (b : UInt8) (d : Nat) : Decidable (Digit base b d) :=
  decidable_of_iff (_ ∧ _) ⟨fun digit => ⟨digit.1, digit.2⟩, fun digit => ⟨digit.1, digit.2⟩⟩

inductive Marks (rules : NumeralRules) : Text → Nat → Prop
  | decimal : Marks rules [] 10
  | hex : Marks rules "0x" 16
  | upperHex : Marks rules "0X" 16
  | binary (enabled : rules.binary = true) : Marks rules "0b" 2
  | upperBinary (enabled : rules.binary = true) : Marks rules "0B" 2

/-- Digits of a base, with underscores only between the first and the last of them. -/
structure Grouped (rules : NumeralRules) (base : Nat) (t : Text) (ds : List Nat) : Prop where
  some : t ≠ []
  digits : List.Forall₂ (Digit base) (t.filter (· != underscore)) ds
  enabled : underscore ∈ t → rules.underscore = true
  first : t.head? ≠ .some underscore
  last : t.getLast? ≠ .some underscore

def Spells (rules : NumeralRules) (t : Text) (value : Nat) : Prop :=
  ∃ (mark digits : Text) (base : Nat) (ds : List Nat), t = mark ++ digits ∧ Marks rules mark base ∧
    Grouped rules base digits ds ∧ value = Nat.ofDigits base ds.reverse

variable {rules : NumeralRules} {base value n d : Nat} {b : UInt8} {t mark digits : Text}
  {ds : List Nat}

theorem digitValue?_eq_some_iff : Text.digitValue? b = some d ↔ Digit 36 b d := by
  have bytes := b.toNat_lt
  constructor
  · intro found
    unfold Text.digitValue? at found
    simp only [UInt8.le_iff_toNat_le, UInt8.reduceToNat] at found
    split at found
    · obtain rfl := Option.some.inj found
      exact ⟨by omega, by omega⟩
    split at found
    · obtain rfl := Option.some.inj found
      exact ⟨by omega, by omega⟩
    split at found
    · obtain rfl := Option.some.inj found
      exact ⟨by omega, by omega⟩
    · cases found
  · rintro ⟨below, written⟩
    unfold Text.digitValue?
    simp only [UInt8.le_iff_toNat_le, UInt8.reduceToNat]
    rcases written with ⟨small, same⟩ | ⟨large, same | same⟩
    · rw [if_pos (by omega)]
      exact congrArg some (by omega)
    · rw [if_neg (by omega), if_pos (by omega)]
      exact congrArg some (by omega)
    · rw [if_neg (by omega), if_neg (by omega), if_pos (by omega)]
      exact congrArg some (by omega)

theorem Digit.digitValue? (digit : Digit base b d) (least : base ≤ 36) :
    Text.digitValue? b = some d :=
  digitValue?_eq_some_iff.2 ⟨Nat.lt_of_lt_of_le digit.below least, digit.written⟩

theorem Digit.not_sign (digit : Digit base b d) : b ≠ 0x2b ∧ b ≠ 0x2d := by
  have written := digit.written
  constructor
  · rintro rfl
    simp only [UInt8.reduceToNat] at written
    omega
  · rintro rfl
    simp only [UInt8.reduceToNat] at written
    omega

def positional (base value : Nat) (ds : List Nat) : Nat :=
  ds.foldl (fun value d => value * base + d) value

theorem positional_zero (base : Nat) (ds : List Nat) :
    positional base 0 ds = Nat.ofDigits base ds.reverse := by
  rw [Nat.ofDigits_eq_foldr, List.foldr_reverse, positional]
  congr
  funext value d
  rw [Nat.cast_id, Nat.mul_comm, Nat.add_comm]

theorem le_positional (positive : 0 < base) (value : Nat) (ds : List Nat) :
    value ≤ positional base value ds := by
  induction ds generalizing value with
  | nil => exact Nat.le_refl _
  | cons d ds ih =>
      calc value ≤ value * base := Nat.le_mul_of_pos_right value positive
        _ ≤ value * base + d := Nat.le_add_right _ _
        _ ≤ positional base value (d :: ds) := ih _

theorem readValue_of_digits (positive : 0 < base) (least : base ≤ 36)
    (written : List.Forall₂ (Digit base) t ds) (fits : value < 2 ^ 64) :
    readValue base value t =
      if positional base value ds < 2 ^ 64 then .ok (positional base value ds)
      else .error .outOfRange := by
  induction written generalizing value with
  | nil => exact (if_pos fits).symm
  | @cons b d t ds digit _ ih =>
      rw [readValue, digit.digitValue? least]
      dsimp only
      rw [if_neg (Nat.not_le.2 digit.below)]
      by_cases large : 0x10000000000000000 ≤ value * base + d
      · have final : value * base + d ≤ positional base value (d :: ds) := le_positional positive _ ds
        rw [if_pos large, if_neg (by omega)]
      · rw [if_neg large, ih (by omega)]
        rfl

theorem digits_of_readValue (read : readValue base value t = .ok n) :
    ∃ ds, List.Forall₂ (Digit base) t ds ∧ n = positional base value ds := by
  induction t generalizing value with
  | nil => exact ⟨[], .nil, (Except.ok.inj read).symm⟩
  | cons b t ih =>
      rw [readValue] at read
      cases found : Text.digitValue? b with
      | none => simp [found] at read
      | some d =>
          rw [found] at read
          dsimp only at read
          by_cases high : base ≤ d
          · rw [if_pos high] at read
            cases read
          rw [if_neg high] at read
          split at read
          · cases read
          · obtain ⟨ds, written, same⟩ := ih read
            have digit : Digit base b d :=
              ⟨Nat.not_le.1 high, (digitValue?_eq_some_iff.1 found).written⟩
            exact ⟨d :: ds, .cons digit written, same⟩

theorem Marks.base_le (marks : Marks rules mark base) : 0 < base ∧ base ≤ 36 := by
  cases marks <;> decide

theorem filter_eq_self_of_not_mem (unparted : underscore ∉ t) :
    t.filter (· != underscore) = t := by
  refine List.filter_eq_self.2 fun b member => bne_iff_ne.2 ?_
  rintro rfl
  exact unparted member

theorem Grouped.dropSeparators (grouped : Grouped rules base t ds) :
    dropSeparators rules t = .ok (t.filter (· != underscore)) := by
  unfold Numeral.dropSeparators
  by_cases parted : underscore ∈ t
  · rw [if_neg (not_not_intro parted), if_neg (by simp [grouped.enabled parted]),
      if_neg (not_or.2 ⟨grouped.first, grouped.last⟩)]
  · rw [if_pos parted, filter_eq_self_of_not_mem parted]

theorem filter_of_dropSeparators (dropped : dropSeparators rules t = .ok digits) :
    digits = t.filter (· != underscore) ∧
      (underscore ∈ t → rules.underscore = true ∧ t.head? ≠ some underscore ∧
        t.getLast? ≠ some underscore) := by
  unfold dropSeparators at dropped
  by_cases parted : underscore ∈ t
  · rw [if_neg (not_not_intro parted)] at dropped
    split at dropped
    · cases dropped
    rename_i enabled
    split at dropped
    · cases dropped
    rename_i inside
    exact ⟨(Except.ok.inj dropped).symm, fun _ => ⟨by simpa using enabled, not_or.1 inside⟩⟩
  · rw [if_pos parted] at dropped
    refine ⟨?_, fun member => absurd member parted⟩
    rw [← Except.ok.inj dropped, filter_eq_self_of_not_mem parted]

theorem exists_digit_of_mem (written : List.Forall₂ (Digit base) t ds) (member : b ∈ t) :
    ∃ d, Digit base b d := by
  induction written with
  | nil => cases member
  | cons digit _ ih =>
      rcases List.mem_cons.1 member with rfl | later
      · exact ⟨_, digit⟩
      · exact ih later

theorem Grouped.cases (grouped : Grouped rules base t ds) (member : b ∈ t) :
    b = underscore ∨ ∃ d, Digit base b d := by
  by_cases parted : b = underscore
  · exact .inl parted
  · have kept : b ∈ t.filter (· != underscore) :=
      List.mem_filter.2 ⟨member, bne_iff_ne.2 parted⟩
    exact .inr (exists_digit_of_mem grouped.digits kept)

theorem splitBase_of_marks (marks : Marks rules mark base) (grouped : Grouped rules base t ds) :
    splitBase rules (mark ++ t) = .ok (base, t) := by
  obtain ⟨b, rest, rfl⟩ := List.exists_cons_of_ne_nil grouped.some
  cases marks with
  | hex => rfl
  | upperHex => rfl
  | binary enabled => exact if_pos enabled
  | upperBinary enabled => exact if_pos enabled
  | decimal =>
      -- What would mark another base is no decimal digit.
      have unmarked {mark : UInt8} (member : mark ∈ b :: rest) :
          ¬ (mark = 0x78 ∨ mark = 0x58) ∧ ¬ (mark = 0x62 ∨ mark = 0x42) := by
        rcases grouped.cases member with rfl | ⟨d, below, written⟩
        · decide
        · constructor
          all_goals
            rintro (rfl | rfl)
            all_goals
              simp only [UInt8.reduceToNat] at written
              omega
      rw [List.nil_append]
      generalize b :: rest = t at unmarked
      unfold splitBase
      split
      · obtain ⟨hex, binary⟩ := unmarked (.tail _ (.head _))
        rw [if_neg hex, if_neg binary]
      · rfl

theorem marks_of_splitBase (split : splitBase rules t = .ok (base, digits)) :
    ∃ mark, t = mark ++ digits ∧ Marks rules mark base := by
  unfold splitBase at split
  split at split
  · rename_i mark d rest
    by_cases hex : mark = 0x78 ∨ mark = 0x58
    · rw [if_pos hex] at split
      obtain ⟨rfl, rfl⟩ := Prod.mk.inj (Except.ok.inj split)
      rcases hex with rfl | rfl
      · exact ⟨_, rfl, .hex⟩
      · exact ⟨_, rfl, .upperHex⟩
    rw [if_neg hex] at split
    by_cases binary : mark = 0x62 ∨ mark = 0x42
    · rw [if_pos binary] at split
      by_cases enabled : rules.binary = true
      · rw [if_pos enabled] at split
        obtain ⟨rfl, rfl⟩ := Prod.mk.inj (Except.ok.inj split)
        rcases binary with rfl | rfl
        · exact ⟨_, rfl, .binary enabled⟩
        · exact ⟨_, rfl, .upperBinary enabled⟩
      · rw [if_neg enabled] at split
        cases split
    · rw [if_neg binary] at split
      obtain ⟨rfl, rfl⟩ := Prod.mk.inj (Except.ok.inj split)
      -- Without a mark, the zero is the first digit.
      exact ⟨[], rfl, .decimal⟩
  · obtain ⟨rfl, rfl⟩ := Prod.mk.inj (Except.ok.inj split)
    exact ⟨[], rfl, .decimal⟩

theorem Grouped.unsigned (grouped : Grouped rules base t ds) :
    ∃ b ∈ (t.filter (· != underscore)).head?, b ≠ 0x2b ∧ b ≠ 0x2d := by
  obtain ⟨b, rest, rfl⟩ := List.exists_cons_of_ne_nil grouped.some
  have kept : (b :: rest).filter (· != underscore) = b :: rest.filter (· != underscore) :=
    List.filter_cons_of_pos (bne_iff_ne.2 fun same => grouped.first (same ▸ rfl))
  have digits := grouped.digits
  rw [kept] at digits ⊢
  obtain ⟨d, digit⟩ := exists_digit_of_mem digits (.head _)
  exact ⟨b, rfl, digit.not_sign⟩

theorem Spells.decode_eq (spells : Spells rules t value) :
    decode rules t = if value ≤ largest then .ok value else .error .outOfRange := by
  obtain ⟨mark, digits, base, ds, rfl, marks, grouped, rfl⟩ := spells
  obtain ⟨positive, least⟩ := marks.base_le
  rw [decode_eq_readValue (splitBase_of_marks marks grouped) grouped.dropSeparators grouped.unsigned,
    readValue_of_digits positive least grouped.digits (by decide), positional_zero]
  -- What is past 64 bits is past the largest value all the more.
  by_cases fits : Nat.ofDigits base ds.reverse < 2 ^ 64
  · rw [if_pos fits]
    rfl
  · rw [if_neg fits, if_neg (by rw [largest]; omega)]
    rfl

theorem spells_of_decode (read : decode rules t = .ok value) :
    Spells rules t value ∧ value ≤ largest := by
  obtain ⟨⟨base, marked⟩, split, opened⟩ := bind_eq_ok.1 read
  obtain ⟨digits, dropped, opened⟩ := bind_eq_ok.1 opened
  -- There is a first digit, and a sign is none.
  have unsigned : ∃ b ∈ digits.head?, b ≠ 0x2b ∧ b ≠ 0x2d := by
    cases digits with
    | nil => cases opened
    | cons b rest =>
        refine ⟨b, rfl, ?_, ?_⟩
        · rintro rfl
          cases opened
        · rintro rfl
          cases opened
  rw [decode_eq_readValue split dropped unsigned] at read
  obtain ⟨value', digitwise, ranged⟩ := bind_eq_ok.1 read
  obtain ⟨ds, written, rfl⟩ := digits_of_readValue digitwise
  obtain ⟨mark, rfl, marks⟩ := marks_of_splitBase split
  obtain ⟨rfl, parted⟩ := filter_of_dropSeparators dropped
  split at ranged
  · rename_i fits
    obtain rfl := Except.ok.inj ranged
    refine ⟨⟨mark, marked, base, ds, rfl, marks, ?_, positional_zero base ds⟩, fits⟩
    have some : marked ≠ [] := by
      rintro rfl
      obtain ⟨b, first, _⟩ := unsigned
      cases first
    exact ⟨some, written, fun member => (parted member).1,
      fun first => (parted (List.mem_of_head? first)).2.1 first,
      fun last => (parted (List.mem_of_getLast? last)).2.2 last⟩
  · cases ranged

/-- Reading accepts exactly the numerals with a value that 63 bits hold, and gives that value. One
with a larger value is out of range, and then the largest value stands in for it. -/
theorem decode_exact (rules : NumeralRules) (t : Text) :
    (∀ value, decode rules t = .ok value ↔ Spells rules t value ∧ value ≤ 2 ^ 63 - 1) ∧
      ∀ value, Spells rules t value → 2 ^ 63 - 1 < value →
        ∃ error, decode rules t = .error error ∧ error.message = "value out of range" ∧
          error.value = 2 ^ 63 - 1 := by
  refine ⟨fun value => ⟨spells_of_decode, ?_⟩, ?_⟩
  · rintro ⟨spells, fits⟩
    exact spells.decode_eq.trans (if_pos fits)
  · intro value spells large
    exact ⟨.outOfRange, spells.decode_eq.trans (if_neg (Nat.not_le.2 large)), rfl, rfl⟩

theorem decode_exact_least_beyond :
    Spells ⟨true, true⟩ "0X8000_0000_0000_0000" (2 ^ 63) ∧
      ∃ error, decode ⟨true, true⟩ "0X8000_0000_0000_0000" = .error error ∧
        error.message = "value out of range" ∧ error.value = 2 ^ 63 - 1 := by
  have grouped : Grouped ⟨true, true⟩ 16 "8000_0000_0000_0000" (8 :: List.replicate 15 0) :=
    ⟨by decide, by decide, fun _ => rfl, by decide, by decide⟩
  have spells : Spells ⟨true, true⟩ "0X8000_0000_0000_0000" (2 ^ 63) :=
    ⟨"0X", "8000_0000_0000_0000", 16, 8 :: List.replicate 15 0, rfl, .upperHex, grouped, rfl⟩
  exact ⟨spells, (decode_exact ⟨true, true⟩ _).2 _ spells (by decide)⟩

end Numeral

end Dcpu
