import Dcpu.Layout.Operation
import Dcpu.Proofs.StatementParts
import Dcpu.Proofs.WellFormed
import Mathlib.Algebra.GroupWithZero.Nat

set_option autoImplicit false

namespace Dcpu

namespace Layout

def slotBits (l : Layout) : Slot → Nat
  | .a => l.aBits
  | .b => bBits

theorem basicOpcode?_lt {l : Layout} {mnemonic : Text} {opcode : Word}
    (known : l.basicOpcode? mnemonic = some opcode) : opcode.toNat < 2 ^ l.opcodeBits := by
  obtain ⟨entry, found, rfl⟩ := Option.map_eq_some_iff.1 known
  have member := List.mem_of_find?_eq_some found
  have all : ∀ entry ∈ l.basicTable, entry.2.toNat < 2 ^ l.opcodeBits := by
    cases l <;> decide
  exact all entry member

theorem extendedOpcode?_lt {l : Layout} {mnemonic : Text} {number : Word}
    (known : l.extendedOpcode? mnemonic = some number) : number.toNat < 2 ^ l.aBits := by
  obtain ⟨entry, found, rfl⟩ := Option.map_eq_some_iff.1 known
  have member := List.mem_of_find?_eq_some found
  have all : ∀ entry ∈ l.extendedTable, entry.2.toNat < 2 ^ l.aBits := by
    cases l <;> decide
  exact all entry member

theorem shortCode?_bounds {l : Layout} {value code : Word} (short : l.shortCode? value = some code) :
    0x20 ≤ code.toNat ∧ code.toNat < 0x40 := by
  cases l with
  | v1 =>
      obtain ⟨small, rfl⟩ : value ≤ 0x1f ∧ shortBase + value = code := by
        simpa [shortCode?] using short
      have : value.toNat ≤ 0x1f := small
      simp only [shortBase, UInt16.toNat_add, UInt16.reduceToNat]
      omega
  | v2 =>
      simp only [shortCode?] at short
      split at short
      · obtain rfl := Option.some.inj short
        decide
      · obtain ⟨small, rfl⟩ : value ≤ 30 ∧ shortBase + 1 + value = code := by simpa using short
        have : value.toNat ≤ 30 := small
        simp only [shortBase, UInt16.toNat_add, UInt16.reduceToNat]
        omega

theorem lt_slotBits {l : Layout} {code : Word} (small : code.toNat < 0x20) (slot : Slot) :
    code.toNat < 2 ^ l.slotBits slot := by
  cases l <;> cases slot <;> simp only [slotBits, aBits, bBits] <;> omega

theorem lt_slotBits_of_canFold {l : Layout} {slot : Slot} {code : Word}
    (room : l.canFold slot = true) (small : code.toNat < 0x40) :
    code.toNat < 2 ^ l.slotBits slot := by
  cases l <;> cases slot <;>
    simp only [canFold, slotBits, aBits, bBits, Bool.false_eq_true] at room ⊢ <;> omega

theorem pack?_eq_some {l : Layout} {opcode a b : Word} (fits : opcode.toNat < 2 ^ l.opcodeBits)
    (fitsA : a.toNat < 2 ^ l.slotBits .a) (fitsB : b.toNat < 2 ^ l.slotBits .b) :
    ∃ word, l.pack? ⟨opcode, a, b⟩ = some word := by
  rw [← Nat.one_shiftLeft] at fits fitsA fitsB
  exact ⟨_, if_pos ⟨fits, fitsA, fitsB⟩⟩

end Layout

namespace Argument

theorem foldedCode?_bounds {layout : Layout} {slot : Slot} {value : Expression} {code : Word}
    (folded : value.foldedCode? layout slot = some code) :
    layout.canFold slot = true ∧ 0x20 ≤ code.toNat ∧ code.toNat < 0x40 := by
  unfold Expression.foldedCode? at folded
  split at folded
  · split at folded
    · exact ⟨‹_›, Layout.shortCode?_bounds folded⟩
    · simp at folded
  · simp at folded

theorem fields_lt (layout : Layout) (slot : Slot) (earlier : Nat) (argument : Argument) :
    (argument.fields layout slot earlier).1.toNat < 2 ^ layout.slotBits slot := by
  have registers (r : Register) : (Layout.registerCode r).toNat < 0x20 ∧
      (Layout.indirectCode r).toNat < 0x20 ∧ (Layout.indexedCode r).toNat < 0x20 := by
    cases r <;> decide
  cases argument with
  | register name _ => exact Layout.lt_slotBits (registers _).1 slot
  | special name _ =>
      apply Layout.lt_slotBits
      simp only [fields]
      cases layout.special? name with
      | none => decide
      | some r => cases r <;> decide
  | lookup named _ => exact Layout.lt_slotBits (registers _).2.1 slot
  | offsetLookup named _ _ _ => exact Layout.lt_slotBits (registers _).2.2 slot
  | stack access offset _ =>
      apply Layout.lt_slotBits
      cases access <;> cases layout <;> simp only [fields] <;> decide
  | literalLookup value _ =>
      exact Layout.lt_slotBits (show Layout.directCode.toNat < 0x20 by decide) slot
  -- Only values in the code itself can go beyond the shorter field.
  | literal value _ =>
      rw [fields]
      cases folded : value.bind (Expression.foldedCode? layout slot) with
      | none => exact Layout.lt_slotBits (show Layout.literalCode.toNat < 0x20 by decide) slot
      | some code =>
          obtain ⟨value, _, short⟩ := Option.bind_eq_some_iff.1 folded
          obtain ⟨room, _, below⟩ := foldedCode?_bounds short
          exact Layout.lt_slotBits_of_canFold room below

end Argument

end Dcpu
