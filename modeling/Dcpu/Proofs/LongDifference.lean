import Dcpu.Proofs.RippleSteps
import Mathlib.Data.Int.ModEq

/-!
Differences of long numbers, taken by `sub` on the first words and `sbx` on the others. `sbx` adds
`ex`, and what it leaves there for a borrow, 0xffff, it adds as 65535 the next time: the word is
right, but the borrow counts as handed back to the word behind it.
-/

set_option autoImplicit false

namespace Dcpu

namespace BasicOp

variable {x y ex value carry : Word}

theorem carries_sub : sub.Carries := fun _ _ _ => ⟨_, _, rfl⟩

theorem carries_sbx : sbx.Carries := fun _ _ _ => ⟨_, _, rfl⟩

theorem sbx_cases (computed : sbx.compute? x y ex = some ⟨value, some carry⟩) :
    carry = 0 ∧ (x.toNat - y.toNat + ex.toNat : Int) = value.toNat ∨
      carry = 1 ∧ (x.toNat - y.toNat + ex.toNat : Int) = value.toNat + 0x10000 ∨
      carry = 0xffff ∧ (x.toNat - y.toNat + ex.toNat : Int) = value.toNat - 0x10000 := by
  obtain ⟨rfl, rfl⟩ : Word.ofInt ((x.toNat : Int) - y.toNat + ex.toNat) = value ∧
      (if (x.toNat : Int) - y.toNat + ex.toNat < 0 then 0xffff
        else if 0xffff < (x.toNat : Int) - y.toNat + ex.toNat then 1 else 0) = carry := by
    simpa [compute?] using computed
  have smallX := x.toNat_lt
  have smallY := y.toNat_lt
  have smallEx := ex.toNat_lt
  rw [Word.toNat_ofInt]
  split
  · exact .inr (.inr ⟨rfl, by omega⟩)
  · split
    · exact .inr (.inl ⟨rfl, by omega⟩)
    · exact .inl ⟨rfl, by omega⟩

theorem sub_eq_sbx (x y ex : Word) : sub.compute? x y ex = sbx.compute? x y 0 := by
  have smallX := x.toNat_lt
  have smallY := y.toNat_lt
  have value : x - y = Word.ofInt ((x.toNat : Int) - y.toNat + (0 : Word).toNat) := by
    have whole := Word.toNat_ofInt ((x.toNat : Int) - y.toNat + (0 : Word).toNat)
    apply UInt16.toNat_inj.1
    rw [UInt16.toNat_sub]
    simp only [UInt16.toNat_zero] at whole ⊢
    omega
  have borrow : x < y ↔ (x.toNat : Int) - y.toNat + (0 : Word).toNat < 0 := by
    rw [UInt16.lt_iff_toNat_lt]
    simp only [UInt16.toNat_zero]
    omega
  have small : ¬ 0xffff < (x.toNat : Int) - y.toNat + (0 : Word).toNat := by
    simp only [UInt16.toNat_zero]
    omega
  simp only [compute?, value, borrow, if_neg small]

end BasicOp

namespace Word

/-- The values are the words of the difference of two numbers, modulo what so many words hold. -/
def IsDifference (words : List (Word × Word)) (values : List Word) : Prop :=
  (number values : Int) =
    (number (words.map Prod.fst) - number (words.map Prod.snd)) % 2 ^ (16 * words.length)

/-- `ex` says whether the first number is less than the second. -/
def IsBorrow (words : List (Word × Word)) (ex : Word) : Prop :=
  ex = if number (words.map Prod.fst) < number (words.map Prod.snd) then 0xffff else 0

def AllFit (words : List (Word × Word)) : Prop := ∀ pair ∈ words, pair.2 ≤ pair.1

variable {x y value : Word} {words : List (Word × Word)} {values : List Word}

theorem isDifference_iff (length : values.length = words.length) :
    IsDifference words values ↔
      (0x10000 ^ words.length : Int) ∣ number (words.map Prod.fst) -
        number (words.map Prod.snd) - number values := by
  have below : (number values : Int) < 0x10000 ^ words.length := by
    exact_mod_cast length ▸ number_lt values
  have power : (2 : Int) ^ (16 * words.length) = 0x10000 ^ words.length := pow_mul 2 16 _
  rw [← Int.modEq_iff_dvd, Int.ModEq, Int.emod_eq_of_lt (Int.natCast_nonneg _) below, IsDifference,
    power]

theorem isDifference_cons (length : values.length = words.length)
    (whole : (x.toNat : Int) - y.toNat = value.toNat) :
    IsDifference ((x, y) :: words) (value :: values) ↔ IsDifference words values := by
  have above : (number (((x, y) :: words).map Prod.fst) -
      number (((x, y) :: words).map Prod.snd) - number (value :: values) : Int) =
        0x10000 * (number (words.map Prod.fst) - number (words.map Prod.snd) -
          number values) := by
    simp only [List.map_cons, number_cons]
    omega
  rw [isDifference_iff (by simp [length]), isDifference_iff length, above, List.length_cons,
    pow_succ', Int.mul_dvd_mul_iff_left (by decide)]

theorem isBorrow_cons {ex : Word} (fits : y ≤ x) :
    IsBorrow ((x, y) :: words) ex ↔ IsBorrow words ex := by
  have least : y.toNat ≤ x.toNat := fits
  have small := x.toNat_lt
  have less : number (((x, y) :: words).map Prod.fst) <
        number (((x, y) :: words).map Prod.snd) ↔
      number (words.map Prod.fst) < number (words.map Prod.snd) := by
    simp only [List.map_cons, number_cons]
    omega
  simp only [IsBorrow, less]

theorem allFit_cons (fits : y ≤ x) (words : List (Word × Word)) :
    (AllFit ((x, y) :: words).dropLast ↔ AllFit words.dropLast) ∧
      (AllFit ((x, y) :: words).dropLast.dropLast ↔ AllFit words.dropLast.dropLast) := by
  cases words with
  | nil => simp [AllFit]
  | cons pair words => cases words <;> simp [AllFit, fits]

end Word

namespace BasicOp.Ripples

open Word

variable {x y ex last : Word} {words : List (Word × Word)} {values : List Word}

theorem of_le (ripples : sbx.Ripples 0 ((x, y) :: words) values last) (fits : y ≤ x) :
    ∃ value rest, values = value :: rest ∧ (x.toNat : Int) - y.toNat = value.toNat ∧
      sbx.Ripples 0 words rest last := by
  cases ripples with
  | @cons _ carry _ _ _ value _ rest computed ripples =>
      have least : y.toNat ≤ x.toNat := fits
      have smallX := x.toNat_lt
      have small := value.toNat_lt
      have outcome := sbx_cases computed
      simp only [UInt16.toNat_zero] at outcome
      rcases outcome with ⟨rfl, whole⟩ | ⟨_, whole⟩ | ⟨_, whole⟩
      · exact ⟨value, rest, rfl, by omega, ripples⟩
      · omega
      · omega

theorem of_lt (ripples : sbx.Ripples 0 ((x, y) :: words) values last) (borrows : x < y) :
    ∃ value rest, values = value :: rest ∧ (x.toNat : Int) - y.toNat = value.toNat - 0x10000 ∧
      sbx.Ripples 0xffff words rest last := by
  cases ripples with
  | @cons _ carry _ _ _ value _ rest computed ripples =>
      have less : x.toNat < y.toNat := borrows
      have small := value.toNat_lt
      have outcome := sbx_cases computed
      simp only [UInt16.toNat_zero] at outcome
      rcases outcome with ⟨_, whole⟩ | ⟨_, whole⟩ | ⟨rfl, whole⟩
      · omega
      · omega
      · exact ⟨value, rest, rfl, by omega, ripples⟩

theorem of_borrow (ripples : sbx.Ripples 0xffff ((x, y) :: words) values last) :
    ∃ value rest carry, values = value :: rest ∧ (carry = 0 ∨ carry = 1) ∧
      (x.toNat : Int) - y.toNat + 0xffff = value.toNat + 0x10000 * carry.toNat ∧
      sbx.Ripples carry words rest last := by
  cases ripples with
  | @cons _ carry _ _ _ value _ rest computed ripples =>
      have smallY := y.toNat_lt
      have small := value.toNat_lt
      rcases sbx_cases computed with ⟨rfl, whole⟩ | ⟨rfl, whole⟩ | ⟨rfl, whole⟩
      · exact ⟨value, rest, 0, rfl, .inl rfl, whole, ripples⟩
      · exact ⟨value, rest, 1, rfl, .inr rfl, whole, ripples⟩
      · simp only [UInt16.reduceToNat] at whole
        omega

theorem of_lt_last (ripples : sbx.Ripples 0 [(x, y)] values last) (borrows : x < y) :
    IsDifference [(x, y)] values ∧ IsBorrow [(x, y)] last := by
  obtain ⟨value, rest, rfl, whole, rest⟩ := ripples.of_lt borrows
  cases rest
  constructor
  · rw [isDifference_iff rfl]
    refine ⟨-1, ?_⟩
    simp only [List.map_cons, List.map_nil, number_cons, number_nil, List.length_singleton]
    omega
  · have less : x.toNat < y.toNat := borrows
    simp [IsBorrow, less]

theorem of_lt_beforeLast {x₁ y₁ : Word} (ripples : sbx.Ripples 0 [(x, y), (x₁, y₁)] values last)
    (borrows : x < y) :
    IsDifference [(x, y), (x₁, y₁)] values ∧ ¬ IsBorrow [(x, y), (x₁, y₁)] last := by
  obtain ⟨value, rest, rfl, whole, rest⟩ := ripples.of_lt borrows
  obtain ⟨value₁, rest₁, carry, rfl, small, whole₁, rest₁⟩ := rest.of_borrow
  cases rest₁
  constructor
  · rw [isDifference_iff rfl]
    refine ⟨last.toNat - 1, ?_⟩
    simp only [List.map_cons, List.map_nil, number_cons, number_nil, List.length_cons,
      List.length_nil]
    omega
  · have less : x.toNat < y.toNat := borrows
    have within := value₁.toNat_lt
    -- With nothing left over the second word was no more than its partner, and a borrow is due.
    rcases small with rfl | rfl
    · have due : x.toNat + 0x10000 * x₁.toNat < y.toNat + 0x10000 * y₁.toNat := by
        simp only [UInt16.toNat_zero] at whole₁
        omega
      simp [IsBorrow, due]
    · simp only [IsBorrow]
      split <;> decide

theorem of_lt_earlier {x₁ y₁ : Word} {pair : Word × Word}
    (ripples : sbx.Ripples 0 ((x, y) :: (x₁, y₁) :: pair :: words) values last)
    (borrows : x < y) : ¬ IsDifference ((x, y) :: (x₁, y₁) :: pair :: words) values := by
  intro difference
  rw [isDifference_iff ripples.length_eq] at difference
  obtain ⟨value, rest, rfl, whole, rest⟩ := ripples.of_lt borrows
  obtain ⟨value₁, rest₁, carry, rfl, small, whole₁, rest₁⟩ := rest.of_borrow
  cases rest₁ with
  | @cons _ carry₂ _ x₂ y₂ value₂ _ values computed rest₂ =>
      -- Three words tell: the third is one more than it should be.
      have three : (0x10000 ^ 3 : Int) ∣ 0x10000 ^ (words.length + 3) :=
        pow_dvd_pow _ (Nat.le_add_left _ _)
      obtain ⟨k, equal⟩ := three.trans difference
      simp only [List.map_cons, Word.number_cons] at equal
      rcases sbx_cases computed with ⟨_, whole₂⟩ | ⟨_, whole₂⟩ | ⟨_, whole₂⟩ <;> omega

/-- Where a word does not fit, the words up to the next one are right, `ex` behind the next one is
wrong, and so is the word that adds it. -/
theorem outcome (ripples : sbx.Ripples 0 words values last) (nonempty : words ≠ []) :
    AllFit words.dropLast ∧ IsDifference words values ∧ IsBorrow words last ∨
      ¬ AllFit words.dropLast ∧ AllFit words.dropLast.dropLast ∧ IsDifference words values ∧
        ¬ IsBorrow words last ∨
      ¬ AllFit words.dropLast.dropLast ∧ ¬ IsDifference words values := by
  induction words generalizing values with
  | nil => exact absurd rfl nonempty
  | cons pair words ih =>
      obtain ⟨x, y⟩ := pair
      -- Up to the first word that borrows the run is exact; what follows it decides the rest.
      by_cases fits : y ≤ x
      · obtain ⟨value, rest, rfl, whole, rest⟩ := ripples.of_le fits
        rw [(allFit_cons fits words).1, (allFit_cons fits words).2,
          isDifference_cons rest.length_eq whole, isBorrow_cons fits]
        cases words with
        | nil =>
            cases rest
            exact .inl ⟨by simp [AllFit], rfl, rfl⟩
        | cons _ _ => exact ih rest (by simp)
      · have borrows : x < y := UInt16.not_le.1 fits
        cases words with
        | nil => exact .inl ⟨by simp [AllFit], ripples.of_lt_last borrows⟩
        | cons pair words =>
            obtain ⟨x₁, y₁⟩ := pair
            cases words with
            | nil =>
                refine .inr (.inl ⟨?_, by simp [AllFit], ripples.of_lt_beforeLast borrows⟩)
                simpa [AllFit] using borrows
            | cons pair words =>
                refine .inr (.inr ⟨?_, ripples.of_lt_earlier borrows⟩)
                simp [AllFit, fits]

theorem isDifference_iff_allFit (ripples : sbx.Ripples 0 words values last)
    (nonempty : words ≠ []) :
    (IsDifference words values ∧ IsBorrow words last ↔ AllFit words.dropLast) ∧
      (IsDifference words values ↔ AllFit words.dropLast.dropLast) := by
  have fewer : AllFit words.dropLast → AllFit words.dropLast.dropLast :=
    fun fits pair member => fits pair (List.dropLast_subset _ member)
  rcases ripples.outcome nonempty with
    ⟨fits, difference, borrow⟩ | ⟨misfit, fits, difference, other⟩ | ⟨misfit, wrong⟩
  · exact ⟨iff_of_true ⟨difference, borrow⟩ fits, iff_of_true difference (fewer fits)⟩
  · exact ⟨iff_of_false (fun both => other both.2) misfit, iff_of_true difference fits⟩
  · exact ⟨iff_of_false (fun both => wrong both.1) (fun fits => misfit (fewer fits)),
      iff_of_false wrong misfit⟩

end BasicOp.Ripples

namespace Machine

open Word

variable {m m' : Machine} {pairs : List WordPair} {words : List Word}

/-- The cells have come to hold the difference of their number and another, and `ex` says whether it
is below zero. -/
structure Subtracted (pairs : List WordPair) (subtrahend : Nat) (m m' : Machine) : Prop where
  cells : (m'.stored pairs : Int) = (m.stored pairs - subtrahend) % 2 ^ (16 * pairs.length)
  ex : m'.ex = if m.stored pairs < subtrahend then 0xffff else 0

theorem isDifference_against (length : words.length = pairs.length) :
    IsDifference (m.against pairs words) (pairs.map fun pair => m'.memory.read pair.cell) ↔
      (m'.stored pairs : Int) = (m.stored pairs - number words) % 2 ^ (16 * pairs.length) := by
  rw [IsDifference, against_fst length, against_snd length, length_against length]
  rfl

theorem isBorrow_against (length : words.length = pairs.length) (ex : Word) :
    IsBorrow (m.against pairs words) ex ↔
      ex = if m.stored pairs < number words then 0xffff else 0 := by
  rw [IsBorrow, against_fst length, against_snd length]
  rfl

theorem Executes.subtracted_iff
    (executes : Executes .v2 .sbx (pairs.map WordPair.cell) .sub pairs words m m')
    (nonempty : pairs ≠ []) (distinct : (pairs.map WordPair.cell).Nodup) :
    (Subtracted pairs (number words) m m' ↔ AllFit (m.against pairs words).dropLast) ∧
      ((m'.stored pairs : Int) = (m.stored pairs - number words) % 2 ^ (16 * pairs.length) ↔
        AllFit (m.against pairs words).dropLast.dropLast) := by
  obtain ⟨length, rippled⟩ := executes.ripples_from_zero BasicOp.carries_sbx
    (fun x y => BasicOp.sub_eq_sbx x y m.ex) nonempty distinct
  have some : m.against pairs words ≠ [] := by
    intro none
    have empty := length_against (m := m) length
    rw [none] at empty
    exact nonempty (List.length_eq_zero_iff.1 empty.symm)
  obtain ⟨both, cells⟩ := rippled.isDifference_iff_allFit some
  rw [isDifference_against length] at both cells
  rw [isBorrow_against length] at both
  refine ⟨⟨fun done => both.1 ⟨done.cells, done.ex⟩, fun fits => ?_⟩, cells⟩
  obtain ⟨difference, borrow⟩ := both.2 fits
  exact ⟨difference, borrow⟩

/-- Subtracting word by word, with `sub` first and then `sbx`, ends, touches nothing but the cells
and `ex`, and takes the words of the second number as they were unless the first one's cells or `ex`
are among their places. However a program comes to do it, it gives the difference and its borrow
exactly if no word but the last is less than the one that is subtracted from it; the cells alone are
right exactly if no word but the last two is. -/
theorem subtract_words {m : Machine} {pairs : List WordPair} (nonempty : pairs ≠ [])
    (distinct : (pairs.map WordPair.cell).Nodup) :
    (∃ m' words, m.onWords .v2 .sub .sbx pairs = some m' ∧
      Executes .v2 .sbx (pairs.map WordPair.cell) .sub pairs words m m' ∧
      (pairs.Pairwise WordPair.Spares → words = pairs.map fun pair => m.get pair.source) ∧
      (∀ address, (∀ pair ∈ pairs, pair.cell ≠ address) →
        m'.memory.read address = m.memory.read address) ∧
      m' = { m with memory := m'.memory, ex := m'.ex }) ∧
    ∀ m' words, Executes .v2 .sbx (pairs.map WordPair.cell) .sub pairs words m m' →
      (Subtracted pairs (number words) m m' ↔ AllFit (m.against pairs words).dropLast) ∧
      ((m'.stored pairs : Int) = (m.stored pairs - number words) % 2 ^ (16 * pairs.length) ↔
        AllFit (m.against pairs words).dropLast.dropLast) := by
  constructor
  · obtain ⟨m', words, ran, executes, read⟩ := onWords_executes .v2 BasicOp.carries_sub
      BasicOp.carries_sbx (pairs.map WordPair.cell) pairs m
    obtain ⟨others, rest⟩ := onWords_frame BasicOp.carries_sub BasicOp.carries_sbx ran
    exact ⟨m', words, ran, executes, read, others, rest⟩
  · intro m' words executes
    exact executes.subtracted_iff nonempty distinct

def threeWords : List (Word × Word) := [(0x1000, 0x1003), (0x1001, 0x1004), (0x1002, 0x1005)]

/-- `sub [0x1000], [0x1003]`, `sbx [0x1001], [0x1004]`, `sbx [0x1002], [0x1005]` -/
def subtractingImage : Array Word :=
  #[0x7bc3, 0x1003, 0x1000, 0x7bdb, 0x1004, 0x1001, 0x7bdb, 0x1005, 0x1002]

def subtracting (address : Word) : Machine :=
  { zero with memory := (Memory.zero.overwrite subtractingImage).write address 1 }

theorem read_subtracting (address other : Word) :
    (subtracting address).memory.read other =
      if address = other then 1 else subtractingImage[other.toNat]?.getD 0 := by
  simp only [subtracting, Memory.read_write, Memory.read_overwrite, Memory.read_zero]

theorem run_subtracting {address : Word} (behind : ∀ i < 9, address ≠ 0 + i.toUInt16) :
    ∃ last, (subtracting address).steps ⟨2⟩ 3 = some last ∧
      Executes .v2 .sbx ((directPairs threeWords).map WordPair.cell) .sub (directPairs threeWords)
        (threeWords.map fun place => (subtracting address).memory.read place.2)
        (subtracting address) last := by
  have sub : Layout.v2.DecodesBasic 0x7bc3 .sub .direct .direct := by constructor <;> decide
  have sbx : Layout.v2.DecodesBasic 0x7bdb .sbx .direct .direct := by constructor <;> decide
  have settled : (subtracting address).Settled := fun waiting => absurd rfl waiting
  have holds : (subtracting address).memory.Holds (subtracting address).pc
      (directWords 0x7bc3 0x7bdb threeWords) :=
    (Memory.zero.holds_overwrite (by decide)).write behind
  have apart : ∀ place ∈ threeWords, ∀ i < 9, place.1 ≠ (0 : Word) + i.toUInt16 :=
    List.forall_mem_cons.2 ⟨by decide, List.forall_mem_cons.2
      ⟨by decide, List.forall_mem_singleton.2 (by decide)⟩⟩
  obtain ⟨last, words, ran, executes, read⟩ := run_direct settled BasicOp.carries_sub
    BasicOp.carries_sbx sub sbx holds apart ((directPairs threeWords).map WordPair.cell)
  rw [read (by simp [directPairs, threeWords, WordPair.Spares])] at executes
  exact ⟨last, ran, executes⟩

theorem subtract_words_highest :
    ∃ last, (subtracting 0x1005).steps ⟨2⟩ 3 = some last ∧
      (last.stored (directPairs threeWords) : Int) = -0x100000000 % 2 ^ 48 ∧ last.ex = 0xffff := by
  obtain ⟨last, ran, executes⟩ := @run_subtracting 0x1005 (by decide)
  obtain ⟨_, differences⟩ := @subtract_words (subtracting 0x1005) (directPairs threeWords)
    (by simp [directPairs, threeWords]) (by simp [directPairs, threeWords])
  obtain ⟨subtracted, _⟩ := differences last _ executes
  have done := subtracted.2 (by
    simp [AllFit, against, directPairs, threeWords, read_subtracting, subtractingImage])
  have numbers : (subtracting 0x1005).stored (directPairs threeWords) = 0 ∧
      number (threeWords.map fun place => (subtracting 0x1005).memory.read place.2) =
        0x100000000 := by
    simp [stored, directPairs, threeWords, read_subtracting, subtractingImage]
  refine ⟨last, ran, ?_, ?_⟩
  · rw [done.cells, numbers.1, numbers.2]
    rfl
  · rw [done.ex, numbers.1, numbers.2]
    rfl

/-- Zero less one, in three words: the second word borrows from the third in vain. -/
theorem lowest_word_borrows :
    ¬ ∀ (m : Machine) (pairs : List WordPair), pairs ≠ [] → (pairs.map WordPair.cell).Nodup →
      ∀ m' words, Executes .v2 .sbx (pairs.map WordPair.cell) .sub pairs words m m' →
        Subtracted pairs (number words) m m' := by
  intro claim
  obtain ⟨last, _, executes⟩ := @run_subtracting 0x1003 (by decide)
  have some : directPairs threeWords ≠ [] := by simp [directPairs, threeWords]
  have distinct : ((directPairs threeWords).map WordPair.cell).Nodup := by
    simp [directPairs, threeWords]
  have subtracted := claim (subtracting 0x1003) (directPairs threeWords) some distinct last _ executes
  have fits := (executes.subtracted_iff some distinct).1.1 subtracted
  simp [AllFit, against, directPairs, threeWords, read_subtracting, subtractingImage] at fits

end Machine

end Dcpu
