import Dcpu.SymbolTable
import Mathlib.Data.Fintype.Card

set_option autoImplicit false

namespace Dcpu

namespace SymbolTable

/-- The chain from an index ends, after so many steps, at a label that is no alias. -/
inductive Reaches (labels : Array Label) : Nat → Nat → Nat → Prop
  | here {index : Nat} {label : Label} (found : labels[index]? = some label)
      (ends : label.isAlias = false) : Reaches labels index 0 index
  | next {index target steps last : Nat} {label : Label} (found : labels[index]? = some label)
      (goes : label.binding = .alias target) (rest : Reaches labels target steps last) :
      Reaches labels index (steps + 1) last

theorem isAlias_eq_true_iff {label : Label} :
    label.isAlias = true ↔ ∃ target, label.binding = .alias target := by
  unfold Label.isAlias
  split
  · rename_i target goes
    simp [goes]
  · rename_i other
    simp only [Bool.false_eq_true, false_iff, not_exists]
    exact other

theorem binding_ne_alias {labels : Array Label} {index : Nat} {label label' : Label}
    (found : labels[index]? = some label) (ends : label.isAlias = false)
    (found' : labels[index]? = some label') (target : Nat) : label'.binding ≠ .alias target := by
  intro goes
  obtain rfl := Option.some.inj (found.symm.trans found')
  simp [Label.isAlias, goes] at ends

namespace Reaches

variable {labels : Array Label} {index steps last : Nat}

theorem first_found (reaches : Reaches labels index steps last) :
    ∃ label, labels[index]? = some label := by
  cases reaches with
  | here found _ => exact ⟨_, found⟩
  | next found _ _ => exact ⟨_, found⟩

theorem first_lt (reaches : Reaches labels index steps last) : index < labels.size := by
  obtain ⟨label, found⟩ := reaches.first_found
  exact (Array.getElem?_eq_some_iff.1 found).1

theorem last_found (reaches : Reaches labels index steps last) :
    ∃ label, labels[last]? = some label ∧ label.isAlias = false := by
  induction reaches with
  | here found ends => exact ⟨_, found, ends⟩
  | next _ _ _ ih => exact ih

theorem unique (reaches : Reaches labels index steps last) {steps' last' : Nat}
    (other : Reaches labels index steps' last') : steps = steps' ∧ last = last' := by
  induction reaches generalizing steps' with
  | here found ends =>
      cases other with
      | here _ _ => exact ⟨rfl, rfl⟩
      | next found' goes _ => exact absurd goes (binding_ne_alias found ends found' _)
  | next found goes _ ih =>
      cases other with
      | here found' ends => exact absurd goes (binding_ne_alias found' ends found _)
      | next found' goes' rest' =>
          obtain rfl := Option.some.inj (found.symm.trans found')
          obtain rfl := Binding.alias.inj (goes.symm.trans goes')
          have same := ih rest'
          exact ⟨by rw [same.1], same.2⟩

theorem tails (reaches : Reaches labels index steps last) (fewer : Nat) (within : fewer ≤ steps) :
    ∃ index', Reaches labels index' fewer last := by
  induction reaches with
  | here found ends =>
      obtain rfl : fewer = 0 := Nat.le_zero.1 within
      exact ⟨_, .here found ends⟩
  | @next index target steps last label found goes rest ih =>
      by_cases all : fewer = steps + 1
      · subst all
        exact ⟨index, .next found goes rest⟩
      · exact ih (by omega)

theorem steps_lt (reaches : Reaches labels index steps last) : steps < labels.size := by
  -- The labels on a chain are told apart by how far they are from its end.
  choose place chain using fun fewer : Fin (steps + 1) =>
    reaches.tails fewer.val (Nat.le_of_lt_succ fewer.isLt)
  let place' (fewer : Fin (steps + 1)) : Fin labels.size := ⟨place fewer, (chain fewer).first_lt⟩
  have injective : Function.Injective place' := by
    intro x y same
    have places : place x = place y := congrArg Fin.val same
    have chained := chain x
    rw [places] at chained
    exact Fin.ext (chained.unique (chain y)).1
  have count := Fintype.card_le_of_injective place' injective
  simp only [Fintype.card_fin] at count
  omega

end Reaches

theorem resolveWithin_eq_some_iff {labels : Array Label} {fuel index last : Nat} :
    resolveWithin labels fuel index = some last ↔
      ∃ steps < fuel, Reaches labels index steps last := by
  constructor
  · intro resolved
    induction fuel generalizing index with
    | zero => simp [resolveWithin] at resolved
    | succ fuel ih =>
        simp only [resolveWithin] at resolved
        split at resolved
        · simp at resolved
        · rename_i label found
          split at resolved
          · rename_i target goes
            obtain ⟨steps, within, rest⟩ := ih resolved
            exact ⟨steps + 1, by omega, .next found goes rest⟩
          · rename_i other
            obtain rfl := Option.some.inj resolved
            have ends : label.isAlias = false := by
              rw [← Bool.not_eq_true, isAlias_eq_true_iff, not_exists]
              exact other
            exact ⟨0, by omega, .here found ends⟩
  · rintro ⟨steps, within, reaches⟩
    -- Each step along the chain takes one unit of the fuel.
    induction reaches generalizing fuel with
    | here found ends =>
        cases fuel with
        | zero => omega
        | succ fuel =>
            simp only [resolveWithin, found]
            split
            · rename_i goes
              exact absurd goes (binding_ne_alias found ends found _)
            · rfl
    | next found goes _ ih =>
        cases fuel with
        | zero => omega
        | succ fuel =>
            simp only [resolveWithin, found, goes]
            exact ih (by omega)

theorem resolve?_eq_some_iff {table : SymbolTable} {index last : Nat} :
    table.resolve? index = some last ↔ ∃ steps, Reaches table.labels index steps last := by
  rw [resolve?, resolveWithin_eq_some_iff]
  constructor
  · rintro ⟨steps, _, reaches⟩
    exact ⟨steps, reaches⟩
  · rintro ⟨steps, reaches⟩
    exact ⟨steps, reaches.steps_lt, reaches⟩

end SymbolTable

end Dcpu
