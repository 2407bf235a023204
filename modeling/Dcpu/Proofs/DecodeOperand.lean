import Dcpu.Proofs.OperandCode
import Dcpu.Proofs.WellFormed

set_option autoImplicit false

namespace Dcpu

def SpecialRegister.operand : SpecialRegister → Operand
  | .sp => .sp
  | .pc => .pc
  | .ex => .ex

/-- Push and pop share a code in `v2`, where the place of the operand tells them apart. -/
def Layout.stackOperand (written : Operand) : Layout → Slot → Operand
  | .v1, _ => written
  | .v2, .a => .push
  | .v2, .b => .pop

namespace Argument

def operand (layout : Layout) (slot : Slot) : Argument → Operand
  | .register name _ => .register (registerOf name)
  | .special name _ => ((layout.special? name).map SpecialRegister.operand).getD .sp
  | .lookup named _ => .indirect (registerOf ((named.map RegisterName.name).getD []))
  | .offsetLookup named _ _ _ => .indexed (registerOf ((named.map RegisterName.name).getD []))
  | .stack .push _ _ => layout.stackOperand .push slot
  | .stack .pop _ _ => layout.stackOperand .pop slot
  | .stack .pick _ _ => .pick
  | .stack _ _ _ => .peek
  | .literal value _ =>
      match value.bind Expression.plain?, value.bind (Expression.foldedCode? layout slot) with
      | some n, some _ => .short (Word.ofInt n)
      | _, _ => .literal
  | .literalLookup _ _ => .direct

end Argument

namespace Layout

theorem shortValue_shortCode {l : Layout} {value code : Word}
    (short : l.shortCode? value = some code) : l.shortValue code = value := by
  cases l with
  | v1 =>
      obtain ⟨_, rfl⟩ : value ≤ 0x1f ∧ shortBase + value = code := by
        simpa [shortCode?] using short
      rw [shortValue, UInt16.add_comm, UInt16.add_sub_cancel]
  | v2 =>
      simp only [shortCode?] at short
      split at short
      · rename_i least
        obtain rfl := Option.some.inj short
        rw [least]
        decide
      · obtain ⟨_, rfl⟩ : value ≤ 30 ∧ shortBase + 1 + value = code := by simpa using short
        simp only [shortValue]
        grind

theorem decode?_of_short {l : Layout} {slot : Slot} {code : Word} (above : 0x20 ≤ code.toNat)
    (below : code.toNat < 0x40) : l.decode? slot code = some (.short (l.shortValue code)) := by
  have not_lt {n : Word} (small : n.toNat ≤ 0x20) : ¬ code < n := by
    rw [UInt16.lt_iff_toNat_lt]
    omega
  have ne {n : Word} (small : n.toNat < 0x20) : code ≠ n := by
    rintro rfl
    omega
  have lt : code < 0x40 := below
  rw [decode?, if_neg (not_lt (by decide)), if_neg (not_lt (by decide)),
    if_neg (not_lt (by decide)), if_neg (not_lt (by decide)), if_neg (ne (by decide)),
    if_neg (ne (by decide)), if_neg (ne (by decide)), if_neg (ne (by decide)),
    if_neg (ne (by decide)), if_pos lt]

theorem decode?_shortCode {l : Layout} {slot : Slot} {value code : Word}
    (short : l.shortCode? value = some code) : l.decode? slot code = some (.short value) := by
  obtain ⟨above, below⟩ := shortCode?_bounds short
  rw [decode?_of_short above below, shortValue_shortCode short]

theorem decode?_special (l : Layout) (slot : Slot) (r : SpecialRegister) :
    l.decode? slot r.code = some r.operand := by
  cases r <;> rfl

theorem decode?_register (l : Layout) (slot : Slot) (r : Register) :
    l.decode? slot (registerCode r) = some (.register r) ∧
      l.decode? slot (indirectCode r) = some (.indirect r) ∧
      l.decode? slot (indexedCode r) = some (.indexed r) := by
  cases r <;> exact ⟨rfl, rfl, rfl⟩

end Layout

namespace Argument

theorem decode?_fields {rules : EncodingRules} {argument : Argument}
    (formed : argument.WellFormed rules) (slot : Slot) (earlier : Nat) :
    rules.layout.decode? slot (argument.fields rules.layout slot earlier).1 =
      some (argument.operand rules.layout slot) := by
  cases argument with
  | register name _ => exact (Layout.decode?_register _ slot _).1
  | lookup named _ => exact (Layout.decode?_register _ slot _).2.1
  | offsetLookup named _ _ _ => exact (Layout.decode?_register _ slot _).2.2
  | special name _ =>
      obtain ⟨r, known⟩ := Option.isSome_iff_exists.1 formed
      simp only [fields, operand, known, Option.map_some, Option.getD_some]
      exact Layout.decode?_special _ slot r
  | stack access offset _ =>
      cases access with
      | unknown => exact absurd formed id
      | push => cases rules.layout <;> cases slot <;> rfl
      | pop => cases rules.layout <;> cases slot <;> rfl
      | peek => cases rules.layout <;> cases slot <;> rfl
      | pick =>
          have has : rules.layout.hasPick = true := formed.1
          cases layout : rules.layout with
          | v1 => simp [layout, Layout.hasPick, Layout.pickCode?] at has
          | v2 => cases slot <;> rfl
  | literalLookup _ _ => rfl
  | literal value _ =>
      obtain ⟨e, rfl, _⟩ := formed
      simp only [fields, operand, Option.bind_some]
      cases folded : e.foldedCode? rules.layout slot with
      | none => cases e.plain? <;> rfl
      | some code =>
          cases plain : e.plain? with
          | none => simp [Expression.foldedCode?, plain] at folded
          | some n =>
              -- A folded literal is read back from the code alone.
              have short : rules.layout.shortCode? (Word.ofInt n) = some code := by
                simp only [Expression.foldedCode?, plain] at folded
                split at folded
                · exact folded
                · simp at folded
              exact Layout.decode?_shortCode short

end Argument

end Dcpu
