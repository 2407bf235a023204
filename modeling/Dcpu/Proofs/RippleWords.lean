import Dcpu.Proofs.WideResult
import Mathlib.Data.Nat.Digits.Defs

set_option autoImplicit false

namespace Dcpu

/-- The number whose words these are, the least significant first. -/
def Word.number (words : List Word) : Nat := Nat.ofDigits 0x10000 (words.map UInt16.toNat)

namespace Word

@[simp] theorem number_nil : number [] = 0 := rfl

@[simp] theorem number_cons (word : Word) (words : List Word) :
    number (word :: words) = word.toNat + 0x10000 * number words :=
  Nat.ofDigits_cons

theorem number_lt (words : List Word) : number words < 0x10000 ^ words.length := by
  have small : ∀ digit ∈ words.map UInt16.toNat, digit < 0x10000 := by
    intro digit member
    obtain ⟨word, _, rfl⟩ := List.mem_map.1 member
    exact word.toNat_lt
  simpa [number] using Nat.ofDigits_lt_base_pow_length (by decide) small

end Word

namespace BasicOp

def Carries (op : BasicOp) : Prop :=
  ∀ x y ex : Word, ∃ value carry, op.compute? x y ex = some ⟨value, some carry⟩

inductive Ripples (op : BasicOp) : Word → List (Word × Word) → List Word → Word → Prop
  | nil (ex : Word) : Ripples op ex [] [] ex
  | cons {ex carry last x y value : Word} {pairs : List (Word × Word)} {values : List Word}
      (computed : op.compute? x y ex = some ⟨value, some carry⟩)
      (rest : Ripples op carry pairs values last) :
      Ripples op ex ((x, y) :: pairs) (value :: values) last

theorem Ripples.length_eq {op : BasicOp} {ex last : Word} {pairs : List (Word × Word)}
    {values : List Word} (ripples : op.Ripples ex pairs values last) :
    values.length = pairs.length := by
  induction ripples with
  | nil => rfl
  | cons _ _ ih => rw [List.length_cons, List.length_cons, ih]

end BasicOp

structure WordPair where
  cell : Word
  source : Place

namespace WordPair

def Spares (pair other : WordPair) : Prop :=
  other.cell ≠ pair.cell ∧ other.source ≠ .memory pair.cell ∧ other.source ≠ .ex

def words (m : Machine) (pair : WordPair) : Word × Word :=
  (m.memory.read pair.cell, m.get pair.source)

end WordPair

namespace Machine

variable {op : BasicOp} {m : Machine}

def stored (m : Machine) (pairs : List WordPair) : Nat :=
  Word.number (pairs.map fun pair => m.memory.read pair.cell)

def onEach (layout : Layout) (op : BasicOp) : List WordPair → Machine → Option Machine
  | [], m => some m
  | pair :: rest, m =>
      match m.basic layout op (.memory pair.cell) pair.source with
      | some m => onEach layout op rest m
      | none => none

def onWords (layout : Layout) (first next : BasicOp) :
    List WordPair → Machine → Option Machine
  | [], m => some m
  | pair :: rest, m =>
      match m.basic layout first (.memory pair.cell) pair.source with
      | some m => onEach layout next rest m
      | none => none

theorem words_after {pair other : WordPair} (spares : pair.Spares other) (m : Machine)
    (value carry : Word) :
    other.words { m with memory := m.memory.write pair.cell value, ex := carry } =
      other.words m := by
  obtain ⟨cell, source⟩ := other
  obtain ⟨apart, unwritten, unspilled⟩ := spares
  have kept : (m.memory.write pair.cell value).read cell = m.memory.read cell := by
    rw [Memory.read_write, if_neg (Ne.symm apart)]
  simp only [WordPair.words, kept]
  cases source with
  | memory address =>
      have other : pair.cell ≠ address := fun same => unwritten (same ▸ rfl)
      simp only [get, Memory.read_write, if_neg other]
  | ex => exact absurd rfl unspilled
  | _ => rfl

theorem basic_memory (layout : Layout) {pair : WordPair} {value carry : Word}
    (computed : op.compute? (pair.words m).1 (pair.words m).2 m.ex = some ⟨value, some carry⟩) :
    m.basic layout op (.memory pair.cell) pair.source =
      some { m with memory := m.memory.write pair.cell value, ex := carry } :=
  basic_of_compute? (a := .memory pair.cell) (b := pair.source) layout computed rfl

end Machine

end Dcpu
