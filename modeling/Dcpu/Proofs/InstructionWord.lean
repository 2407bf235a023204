import Dcpu.Layout.Operation
import Dcpu.Proofs.AsciiText
import Mathlib.Algebra.GroupWithZero.Nat

set_option autoImplicit false

namespace Dcpu

namespace Layout

theorem or_shiftLeft_eq_add {x k : Nat} (y : Nat) (small : x < 2 ^ k) :
    x ||| y <<< k = x + y * 2 ^ k := by
  rw [Nat.or_comm, ← Nat.shiftLeft_add_eq_or_of_lt small, Nat.shiftLeft_eq, Nat.add_comm]

theorem toNat_shiftLeft_of_lt {x : Word} {k : Nat} (within : k < 16)
    (fits : x.toNat * 2 ^ k < 2 ^ 16) : (x <<< k.toUInt16).toNat = x.toNat <<< k := by
  have shift : k.toUInt16.toNat % 16 = k := by
    rw [Nat.toUInt16_eq, UInt16.toNat_ofNat', Nat.mod_eq_of_lt (Nat.lt_trans within (by decide)),
      Nat.mod_eq_of_lt within]
  rw [UInt16.toNat_shiftLeft, shift, Nat.mod_eq_of_lt (by rwa [Nat.shiftLeft_eq])]

theorem toNat_pack {opcode a b : Word} (l : Layout) (fits : opcode.toNat < 2 ^ l.opcodeBits)
    (fitsA : a.toNat < 2 ^ l.aBits) (fitsB : b.toNat < 2 ^ bBits) :
    (opcode ||| a <<< l.opcodeBits.toUInt16 ||| b <<< 10).toNat =
      opcode.toNat + a.toNat * 2 ^ l.opcodeBits + b.toNat * 2 ^ 10 := by
  -- The fields do not overlap, so joining them adds them up.
  have middle : (a <<< l.opcodeBits.toUInt16).toNat = a.toNat <<< l.opcodeBits := by
    refine toNat_shiftLeft_of_lt ?_ ?_ <;> cases l <;>
      simp only [opcodeBits, aBits] at fitsA ⊢ <;> omega
  have high : (b <<< 10).toNat = b.toNat <<< 10 := by
    refine toNat_shiftLeft_of_lt (k := 10) (by decide) ?_
    simp only [bBits] at fitsB
    omega
  have small : opcode.toNat + a.toNat * 2 ^ l.opcodeBits < 2 ^ 10 := by
    cases l <;> simp only [opcodeBits, aBits] at fits fitsA ⊢ <;> omega
  rw [UInt16.toNat_or, UInt16.toNat_or, middle, high, or_shiftLeft_eq_add _ fits,
    or_shiftLeft_eq_add _ small]

theorem toNat_unpack (l : Layout) (w : Word) :
    (l.unpack w).opcode.toNat = w.toNat % 2 ^ l.opcodeBits ∧
      (l.unpack w).a.toNat = w.toNat / 2 ^ l.opcodeBits % 2 ^ l.aBits ∧
      (l.unpack w).b.toNat = w.toNat / 2 ^ 10 := by
  have mask : ((1 : Word) <<< l.opcodeBits.toUInt16 - 1).toNat = 2 ^ l.opcodeBits - 1 := by
    cases l <;> rfl
  have maskA : ((1 : Word) <<< l.aBits.toUInt16 - 1).toNat = 2 ^ l.aBits - 1 := by
    cases l <;> rfl
  have shift : l.opcodeBits.toUInt16.toNat % 16 = l.opcodeBits := by
    cases l <;> rfl
  refine ⟨?_, ?_, ?_⟩
  · rw [unpack, UInt16.toNat_and, mask, Nat.and_two_pow_sub_one_eq_mod]
  · rw [unpack, UInt16.toNat_and, maskA, Nat.and_two_pow_sub_one_eq_mod, UInt16.toNat_shiftRight,
      shift, Nat.shiftRight_eq_div_pow]
  · rw [unpack, UInt16.toNat_shiftRight, Nat.shiftRight_eq_div_pow]
    rfl

theorem pack?_eq (l : Layout) (i : Instruction) :
    l.pack? i =
      if i.opcode.toNat < 2 ^ l.opcodeBits ∧ i.a.toNat < 2 ^ l.aBits ∧ i.b.toNat < 2 ^ bBits then
        some (i.opcode ||| i.a <<< l.opcodeBits.toUInt16 ||| i.b <<< 10)
      else none := by
  simp only [pack?, Nat.one_shiftLeft]

theorem unpack_of_pack? {l : Layout} {i : Instruction} {w : Word} (packed : l.pack? i = some w) :
    l.unpack w = i := by
  obtain ⟨opcode, a, b⟩ := i
  by_cases fits : opcode.toNat < 2 ^ l.opcodeBits ∧ a.toNat < 2 ^ l.aBits ∧ b.toNat < 2 ^ bBits
  · rw [pack?_eq, if_pos fits, Option.some.injEq] at packed
    obtain ⟨fits, fitsA, fitsB⟩ := fits
    have whole := l.toNat_pack fits fitsA fitsB
    rw [packed] at whole
    obtain ⟨opcodeField, aField, bField⟩ := l.toNat_unpack w
    have same : (l.unpack w).opcode = opcode ∧ (l.unpack w).a = a ∧ (l.unpack w).b = b := by
      refine ⟨UInt16.toNat_inj.1 ?_, UInt16.toNat_inj.1 ?_, UInt16.toNat_inj.1 ?_⟩ <;>
        cases l <;> simp only [opcodeBits, aBits, bBits] at * <;> omega
    rw [← same.1, ← same.2.1, ← same.2.2]
  · rw [pack?_eq, if_neg fits] at packed
    exact absurd packed (by simp)

theorem pack?_unpack (l : Layout) (w : Word) : l.pack? (l.unpack w) = some w := by
  obtain ⟨opcodeField, aField, bField⟩ := l.toNat_unpack w
  have within := w.toNat_lt
  have fits : (l.unpack w).opcode.toNat < 2 ^ l.opcodeBits ∧ (l.unpack w).a.toNat < 2 ^ l.aBits ∧
      (l.unpack w).b.toNat < 2 ^ bBits := by
    cases l <;> simp only [opcodeBits, aBits, bBits] at * <;> omega
  rw [pack?_eq, if_pos fits, Option.some.injEq]
  apply UInt16.toNat_inj.1
  rw [l.toNat_pack fits.1 fits.2.1 fits.2.2, opcodeField, aField, bField]
  cases l <;> simp only [opcodeBits, aBits] <;> omega

theorem basicOp?_of_basicOpcode? {l : Layout} {mnemonic : Text} {opcode : Word}
    (known : l.basicOpcode? mnemonic = some opcode) :
    opcode ≠ extendedOpcode ∧ ∃ op, l.basicOp? opcode = some op ∧ op.mnemonic = mnemonic.lower := by
  obtain ⟨⟨op, number⟩, found, rfl⟩ := Option.map_eq_some_iff.1 known
  have named := List.find?_some found
  have listed := List.mem_of_find?_eq_some found
  -- No two entries share a number, so a number leads back to its entry.
  have inverse : ∀ entry ∈ l.basicTable,
      entry.2 ≠ extendedOpcode ∧ l.basicOp? entry.2 = some entry.1 := by
    cases l <;> decide
  exact ⟨(inverse _ listed).1, op, (inverse _ listed).2, by simpa using named⟩

theorem extendedOp?_of_extendedOpcode? {l : Layout} {mnemonic : Text} {number : Word}
    (known : l.extendedOpcode? mnemonic = some number) :
    ∃ op, l.extendedOp? number = some op ∧ op.mnemonic = mnemonic.lower := by
  obtain ⟨⟨op, number⟩, found, rfl⟩ := Option.map_eq_some_iff.1 known
  have named := List.find?_some found
  have listed := List.mem_of_find?_eq_some found
  have inverse : ∀ entry ∈ l.extendedTable, l.extendedOp? entry.2 = some entry.1 := by
    cases l <;> decide
  exact ⟨op, inverse _ listed, by simpa using named⟩

theorem lower_mnemonic (op : BasicOp) : op.mnemonic.lower = op.mnemonic := by
  cases op <;> exact Text.lower_eq_self (by decide) (by decide)

theorem lower_extendedMnemonic (op : ExtendedOp) : op.mnemonic.lower = op.mnemonic := by
  cases op <;> exact Text.lower_eq_self (by decide) (by decide)

theorem basicOpcode?_of_basicOp? {l : Layout} {op : BasicOp} {opcode : Word}
    (known : l.basicOp? opcode = some op) : l.basicOpcode? op.mnemonic = some opcode := by
  obtain ⟨⟨op, number⟩, found, rfl⟩ := Option.map_eq_some_iff.1 known
  obtain rfl : number = opcode := by simpa using List.find?_some found
  have inverse : ∀ entry ∈ l.basicTable,
      (l.basicTable.find? fun other => other.1.mnemonic == entry.1.mnemonic) = some entry := by
    cases l <;> decide
  rw [basicOpcode?, basicEntry?, lower_mnemonic, inverse _ (List.mem_of_find?_eq_some found)]
  rfl

theorem extendedOpcode?_of_extendedOp? {l : Layout} {op : ExtendedOp} {number : Word}
    (known : l.extendedOp? number = some op) : l.extendedOpcode? op.mnemonic = some number := by
  obtain ⟨⟨op, listed⟩, found, rfl⟩ := Option.map_eq_some_iff.1 known
  obtain rfl : listed = number := by simpa using List.find?_some found
  have inverse : ∀ entry ∈ l.extendedTable,
      (l.extendedTable.find? fun other => other.1.mnemonic == entry.1.mnemonic) = some entry := by
    cases l <;> decide
  rw [extendedOpcode?, extendedEntry?, lower_extendedMnemonic,
    inverse _ (List.mem_of_find?_eq_some found)]
  rfl

theorem basicOpcode?_extendedMnemonic (l : Layout) (op : ExtendedOp) :
    l.basicOpcode? op.mnemonic = none := by
  rw [basicOpcode?, basicEntry?, lower_extendedMnemonic]
  cases l <;> cases op <;> decide

end Layout

end Dcpu
