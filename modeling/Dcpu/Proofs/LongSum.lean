import Dcpu.Proofs.RippleSteps

/-!
Sums of long numbers, taken by `add` on the first words and `adx` on the others. `add` leaves the
high word of its sum in `ex` and `adx` a flag, and both are the carry: a carry is at most one, so
the sum of two words and a carry never has more than one to hand on. What a program does between
two of these instructions does not matter, as long as it leaves `ex` and the cells alone.
-/

set_option autoImplicit false

namespace Dcpu

namespace BasicOp

open Word

variable {x y ex value carry last : Word} {words : List (Word × Word)} {values : List Word}

theorem carries_add : add.Carries := fun _ _ _ => ⟨_, _, rfl⟩

theorem carries_adx : adx.Carries := fun _ _ _ => ⟨_, _, rfl⟩

theorem adx_sum (computed : adx.compute? x y ex = some ⟨value, some carry⟩)
    (small : ex.toNat ≤ 1) :
    carry.toNat ≤ 1 ∧ value.toNat + 0x10000 * carry.toNat = x.toNat + y.toNat + ex.toNat := by
  obtain ⟨rfl, rfl⟩ : (x.toNat + y.toNat + ex.toNat).toUInt16 = value ∧
      (if 0xffff < x.toNat + y.toNat + ex.toNat then 1 else 0) = carry := by
    simpa [compute?] using computed
  have smallX := x.toNat_lt
  have smallY := y.toNat_lt
  simp only [Nat.toUInt16_eq, UInt16.toNat_ofNat']
  split
  · simp only [UInt16.toNat_one]
    omega
  · simp only [UInt16.toNat_zero]
    omega

theorem add_eq_adx (x y ex : Word) : add.compute? x y ex = adx.compute? x y 0 := by
  -- The high word of a sum of two words says whether it has more than one word.
  have smallX := x.toNat_lt
  have smallY := y.toNat_lt
  have high : ((x.toNat + y.toNat) / 0x10000).toUInt16 =
      if 0xffff < x.toNat + y.toNat then 1 else 0 := by
    split
    · rw [show (x.toNat + y.toNat) / 0x10000 = 1 by omega]
      rfl
    · rw [show (x.toNat + y.toNat) / 0x10000 = 0 by omega]
      rfl
  simp only [compute?, OperationResult.wide, high, UInt16.toNat_zero, Nat.add_zero]

theorem Ripples.sum (ripples : adx.Ripples ex words values last) (small : ex.toNat ≤ 1) :
    last.toNat ≤ 1 ∧ number values + 0x10000 ^ words.length * last.toNat =
      number (words.map Prod.fst) + number (words.map Prod.snd) + ex.toNat := by
  induction ripples with
  | nil ex => exact ⟨small, by simp⟩
  | @cons ex carry last x y value words values computed _ ih =>
      -- The invariant is that the carry is at most one; without it a word could hand on two.
      obtain ⟨smallCarry, whole⟩ := adx_sum computed small
      obtain ⟨smallLast, rest⟩ := ih smallCarry
      refine ⟨smallLast, ?_⟩
      calc number (value :: values) + 0x10000 ^ ((x, y) :: words).length * last.toNat
          = value.toNat + 0x10000 * (number values + 0x10000 ^ words.length * last.toNat) := by
            rw [number_cons, List.length_cons, Nat.pow_succ]
            ring
        _ = value.toNat + 0x10000 * carry.toNat +
              0x10000 * (number (words.map Prod.fst) + number (words.map Prod.snd)) := by
            rw [rest]
            ring
        _ = _ := by
            rw [whole]
            simp only [List.map_cons, number_cons]
            ring

end BasicOp

namespace Machine

open Word

variable {m m' : Machine} {pairs : List WordPair} {words : List Word}

/-- The cells have come to hold the sum of their number and another, and `ex` the carry. -/
structure Added (pairs : List WordPair) (addend : Nat) (m m' : Machine) : Prop where
  cells : m'.stored pairs = (m.stored pairs + addend) % 2 ^ (16 * pairs.length)
  ex : m'.ex = if 2 ^ (16 * pairs.length) ≤ m.stored pairs + addend then 1 else 0

theorem Executes.added
    (executes : Executes .v2 .adx (pairs.map WordPair.cell) .add pairs words m m')
    (nonempty : pairs ≠ []) (distinct : (pairs.map WordPair.cell).Nodup) :
    Added pairs (number words) m m' := by
  obtain ⟨length, rippled⟩ := executes.ripples_from_zero BasicOp.carries_adx
    (fun x y => BasicOp.add_eq_adx x y m.ex) nonempty distinct
  obtain ⟨small, sum⟩ := rippled.sum (by decide)
  rw [against_fst length, against_snd length, length_against length, UInt16.toNat_zero,
    Nat.add_zero] at sum
  have below := number_lt (pairs.map fun pair => m'.memory.read pair.cell)
  rw [List.length_map] at below
  have power : 2 ^ (16 * pairs.length) = 0x10000 ^ pairs.length := pow_mul 2 16 _
  -- The words are the remainder and the carry is the quotient.
  constructor
  · rw [power, stored, stored, ← sum, Nat.add_mul_mod_self_left, Nat.mod_eq_of_lt below]
  · have carry : m'.ex = 0 ∨ m'.ex = 1 := by
      rcases Nat.le_one_iff_eq_zero_or_eq_one.1 small with zero | one
      · exact .inl (UInt16.toNat_inj.1 zero)
      · exact .inr (UInt16.toNat_inj.1 one)
    rw [power, stored, ← sum]
    rcases carry with zero | one
    · rw [zero, UInt16.toNat_zero, Nat.mul_zero, Nat.add_zero, if_neg (Nat.not_le.2 below)]
    · rw [one, UInt16.toNat_one, Nat.mul_one, if_pos (Nat.le_add_left _ _)]

/-- Adding word by word, with `add` first and then `adx`, ends, and it takes the words of the second
number as they were unless the first one's cells or `ex` are among their places. However a program
comes to do it, the cells then hold the sum and `ex` the carry out of the last word. -/
theorem add_words {m : Machine} {pairs : List WordPair} (nonempty : pairs ≠ [])
    (distinct : (pairs.map WordPair.cell).Nodup) :
    (∃ m' words, m.onWords .v2 .add .adx pairs = some m' ∧
      Executes .v2 .adx (pairs.map WordPair.cell) .add pairs words m m' ∧
      (pairs.Pairwise WordPair.Spares → words = pairs.map fun pair => m.get pair.source)) ∧
    ∀ m' words, Executes .v2 .adx (pairs.map WordPair.cell) .add pairs words m m' →
      Added pairs (number words) m m' := by
  constructor
  · exact onWords_executes .v2 BasicOp.carries_add BasicOp.carries_adx _ pairs m
  · intro m' words executes
    exact executes.added nonempty distinct

/-- `add [0x1000], [0x1002]`, `adx [0x1001], [0x1003]` -/
def addingImage : Array Word := #[0x7bc2, 0x1002, 0x1000, 0x7bda, 0x1003, 0x1001]

def adding : Machine :=
  { zero with
    memory := (((Memory.zero.overwrite addingImage).write 0x1000 0xffff).write 0x1001 0xffff).write
      0x1002 1 }

theorem read_adding (address : Word) : adding.memory.read address =
    if 0x1002 = address then 1 else if 0x1001 = address then 0xffff else
      if 0x1000 = address then 0xffff else addingImage[address.toNat]?.getD 0 := by
  simp only [adding, Memory.read_write, Memory.read_overwrite, Memory.read_zero]

theorem add_words_adding :
    ∃ last, adding.steps ⟨2⟩ 2 = some last ∧ last.memory.read 0x1000 = 0 ∧
      last.memory.read 0x1001 = 0 ∧ last.ex = 1 := by
  have add : Layout.v2.DecodesBasic 0x7bc2 .add .direct .direct := by constructor <;> decide
  have adx : Layout.v2.DecodesBasic 0x7bda .adx .direct .direct := by constructor <;> decide
  have settled : adding.Settled := fun waiting => absurd rfl waiting
  have holds : adding.memory.Holds adding.pc
      (directWords 0x7bc2 0x7bda [(0x1000, 0x1002), (0x1001, 0x1003)]) :=
    (((Memory.zero.holds_overwrite (by decide)).write (by decide)).write (by decide)).write
      (by decide)
  obtain ⟨last, words, ran, executes, read⟩ := run_direct settled BasicOp.carries_add
    BasicOp.carries_adx add adx holds
    (List.forall_mem_cons.2 ⟨by decide, List.forall_mem_singleton.2 (by decide)⟩) [0x1000, 0x1001]
  obtain ⟨_, sums⟩ := @add_words adding
    [⟨0x1000, .memory 0x1002⟩, ⟨0x1001, .memory 0x1003⟩] (by simp) (by simp)
  obtain ⟨cells, ex⟩ := sums last words executes
  have numbers : adding.stored [⟨0x1000, .memory 0x1002⟩, ⟨0x1001, .memory 0x1003⟩] = 0xffffffff ∧
      number words = 1 := by
    rw [read (by simp [directPairs, WordPair.Spares])]
    simp [stored, read_adding, addingImage]
  rw [numbers.1, numbers.2] at cells ex
  -- A number is zero only if all of its words are.
  have zero : last.memory.read 0x1000 = 0 ∧ last.memory.read 0x1001 = 0 := by
    simpa [stored, ← UInt16.toNat_inj] using cells
  exact ⟨last, ran, zero.1, zero.2, ex⟩

end Machine

end Dcpu
