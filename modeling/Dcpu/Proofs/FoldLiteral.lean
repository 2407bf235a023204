import Dcpu.Proofs.EncodeBody
import Dcpu.Proofs.InstructionWord
import Dcpu.Proofs.ParseOperand
import Dcpu.Proofs.ReadInstruction

set_option autoImplicit false

namespace Dcpu

namespace Layout

variable {layout : Layout} {slot : Slot} {code value word : Word} {operand : Operand}
  {tail : List Word}

def shortForm? (layout : Layout) (slot : Slot) (code : Word) (tail : List Word) : Option Word :=
  match tail with
  | [value] =>
      if code = literalCode ∧ layout.canFold slot = true then layout.shortCode? value else none
  | _ => none

def fold (layout : Layout) (slot : Slot) (code : Word) (tail : List Word) : Word × List Word :=
  match layout.shortForm? slot code tail with
  | some short => (short, [])
  | none => (code, tail)

def operandTails (layout : Layout) (i : Instruction) (tail : List Word) : List Word × List Word :=
  if i.opcode = extendedOpcode then ([], tail)
  else if layout.tailBFirst then
    let count := if layout.codeHasTail .b i.b then 1 else 0
    (tail.drop count, tail.take count)
  else
    let count := if layout.codeHasTail .a i.a then 1 else 0
    (tail.take count, tail.drop count)

def foldInstruction (layout : Layout) (word : Word) (tail : List Word) : List Word :=
  let i := layout.unpack word
  let (tailA, tailB) := layout.operandTails i tail
  let (a, tailA) := layout.fold .a i.a tailA
  let (b, tailB) := layout.fold .b i.b tailB
  (layout.pack? { i with a, b }).getD word ::
    if layout.tailBFirst then tailB ++ tailA else tailA ++ tailB

def hasLongLiteral (layout : Layout) (word : Word) (tail : List Word) : Bool :=
  let i := layout.unpack word
  let (tailA, tailB) := layout.operandTails i tail
  (layout.shortForm? .a i.a tailA).isSome || (layout.shortForm? .b i.b tailB).isSome

def operandCode (layout : Layout) : Operand → Word
  | .register r => registerCode r
  | .indirect r => indirectCode r
  | .indexed r => indexedCode r
  | .push => layout.pushCode
  | .pop => layout.popCode
  | .peek => layout.peekCode
  | .pick => layout.pickCode?.getD 0
  | .sp => SpecialRegister.sp.code
  | .pc => SpecialRegister.pc.code
  | .ex => SpecialRegister.ex.code
  | .direct => directCode
  | .literal => literalCode
  | .short value => (layout.shortCode? value).getD 0

theorem operandCode_of_decode? (fits : code.toNat < 2 ^ layout.slotBits slot)
    (decoded : layout.decode? slot code = some operand) : layout.operandCode operand = code := by
  -- There are only 64 codes in a field, so each is looked at.
  have all : ∀ n : Fin 0x40, (layout.decode? slot (UInt16.ofNat n)).map layout.operandCode =
      some (UInt16.ofNat n) := by
    cases layout <;> cases slot <;> decide +kernel
  have below : code.toNat < 0x40 := by
    cases layout <;> cases slot <;> simp only [slotBits, aBits, bBits] at fits <;> omega
  have found := all ⟨code.toNat, below⟩
  rw [UInt16.ofNat_toNat, decoded] at found
  exact Option.some.inj found

theorem shortCode?_of_decode? (fits : code.toNat < 2 ^ layout.slotBits slot)
    (decoded : layout.decode? slot code = some (.short value)) :
    layout.canFold slot = true ∧ layout.shortCode? value = some code := by
  have same := operandCode_of_decode? fits decoded
  rw [operandCode] at same
  cases short : layout.shortCode? value with
  | none =>
      obtain rfl : 0 = code := by simpa [short] using same
      cases layout <;> cases slot <;> simp [decode?] at decoded
  | some found =>
      obtain rfl : found = code := by simpa [short] using same
      have above := (shortCode?_bounds short).1
      cases layout <;> cases slot <;>
        simp only [canFold, slotBits, aBits, and_true, Bool.false_eq_true] at fits ⊢
      omega

theorem decode?_literalCode : layout.decode? slot literalCode = some .literal := by
  cases layout <;> cases slot <;> rfl

theorem shortForm?_eq_none (decoded : layout.decode? slot code = some operand)
    (other : operand ≠ .literal) : layout.shortForm? slot code tail = none := by
  have long : code ≠ literalCode := by
    rintro rfl
    exact other (Option.some.inj (decoded.symm.trans decode?_literalCode))
  unfold shortForm?
  split
  · exact if_neg fun both => long both.1
  · rfl

end Layout

namespace Argument.Shows

variable {layout : Layout} {slot : Slot} {code value : Word} {operand : Operand}
  {argument : Argument} {rules : EncodingRules}

theorem registerOf_name (r : Register) : registerOf r.name = r := by
  rw [registerOf, r.ofName?_name]
  rfl

theorem foldedCode?_eq {e : Expression} (number : e.IsNumber value) (layout : Layout)
    (slot : Slot) :
    e.foldedCode? layout slot = if layout.canFold slot then layout.shortCode? value else none := by
  obtain ⟨position, place, rfl⟩ := number
  have same : Word.ofInt (value.toNat : Int) = value := by
    rw [Word.ofInt_natCast]
    exact UInt16.ofNat_toNat
  simp only [Expression.foldedCode?, Expression.plain?, Atom.plain?, same]

theorem value_eq {e : Expression} (number : e.IsNumber value) (env : Text → Word) (here : Word) :
    e.value env here = value := by
  obtain ⟨position, place, rfl⟩ := number
  simp only [Expression.value, Atom.value, Word.ofInt_natCast]
  exact UInt16.ofNat_toNat

theorem fields_eq (shown : argument.Shows layout value operand)
    (fits : code.toNat < 2 ^ layout.slotBits slot)
    (decoded : layout.decode? slot code = some operand) (earlier : Nat) (env : Text → Word)
    (here : Word) :
    ((argument.fields layout slot earlier).1,
      (argument.fields layout slot earlier).2.map (Part.word env here)) =
        layout.fold slot code (operand.tail value) := by
  have same := Layout.operandCode_of_decode? fits decoded
  -- Only a literal behind the instruction may change; every other operand has one code.
  by_cases other : operand = .literal
  · subst other
    cases shown with
    | literal _ number =>
        have folded := foldedCode?_eq number layout slot
        have tail : Operand.literal.tail value = [value] := rfl
        rw [tail, Layout.fold, Layout.shortForm?, fields, Option.bind_some, folded, ← same]
        cases layout.canFold slot with
        | false => simp [Layout.operandCode, Part.word, value_eq number]
        | true =>
            cases layout.shortCode? value with
            | none => simp [Layout.operandCode, Part.word, value_eq number]
            | some short => simp [Layout.operandCode]
  · rw [Layout.fold, Layout.shortForm?_eq_none decoded other, ← same]
    cases shown with
    | register r _ =>
        rw [fields, registerOf_name]
        rfl
    | indirect r _ _ =>
        rw [fields, Option.map_some, Option.getD_some, registerOf_name]
        rfl
    | indexed r _ _ number =>
        have tail : (Operand.indexed r).tail value = [value] := rfl
        simp [fields, tail, registerOf_name, Part.word, value_eq number, Layout.operandCode]
    | push _ => rfl
    | pop _ => rfl
    | peek _ => rfl
    | pick _ number =>
        have tail : Operand.pick.tail value = [value] := rfl
        simp [fields, tail, Part.word, value_eq number, Layout.operandCode]
    | sp _ =>
        rw [fields, layout.special?_specialName]
        rfl
    | pc _ =>
        rw [fields, layout.special?_specialName]
        rfl
    | ex _ =>
        rw [fields, layout.special?_specialName]
        rfl
    | direct _ number =>
        have tail : Operand.direct.tail value = [value] := rfl
        simp [fields, tail, Part.word, value_eq number, Layout.operandCode]
    | literal _ number => exact absurd rfl other
    | short n _ number =>
        obtain ⟨room, short⟩ := Layout.shortCode?_of_decode? fits decoded
        have folded := foldedCode?_eq number layout slot
        rw [if_pos room, short] at folded
        rw [fields, Option.bind_some, folded, same]
        rfl

theorem hasPick_of_decode? (fits : code.toNat < 2 ^ layout.slotBits slot)
    (decoded : layout.decode? slot code = some .pick) : layout.hasPick = true := by
  cases layout with
  | v2 => rfl
  | v1 =>
      have same := Layout.operandCode_of_decode? fits decoded
      obtain rfl : 0 = code := same
      simp [Layout.decode?] at decoded

theorem IsNumber.wellFormed {e : Expression} (number : e.IsNumber value) : e.WellFormed rules := by
  obtain ⟨position, place, rfl⟩ := number
  have largest := value.toNat_lt
  refine ⟨⟨?_, ?_⟩, by simp⟩
  · split <;> omega
  · omega

theorem wellFormed (shown : argument.Shows rules.layout value operand)
    (fits : code.toNat < 2 ^ rules.layout.slotBits slot)
    (decoded : rules.layout.decode? slot code = some operand) : argument.WellFormed rules := by
  cases shown with
  | register r _ => simp [WellFormed, r.ofName?_name]
  | indirect r _ _ => simp [WellFormed, Known, r.ofName?_name]
  | indexed r _ _ number =>
      exact ⟨⟨_, rfl, by simp [Known, r.ofName?_name]⟩, _, rfl, IsNumber.wellFormed number⟩
  | push _ => trivial
  | pop _ => trivial
  | peek _ => trivial
  | pick _ number => exact ⟨hasPick_of_decode? fits decoded, _, rfl, IsNumber.wellFormed number⟩
  | sp _ => simp [WellFormed, rules.layout.special?_specialName]
  | pc _ => simp [WellFormed, rules.layout.special?_specialName]
  | ex _ => simp [WellFormed, rules.layout.special?_specialName]
  | direct _ number => exact ⟨_, rfl, IsNumber.wellFormed number⟩
  | literal _ number => exact ⟨_, rfl, IsNumber.wellFormed number⟩
  | short n _ number => exact ⟨_, rfl, IsNumber.wellFormed number⟩

theorem names_eq (shown : argument.Shows layout value operand) :
    argument.names = [] ∧ argument.differenceCount = 0 := by
  cases shown with
  | indexed _ _ _ number | pick _ number | direct _ number | literal _ number
  | short _ _ number =>
      obtain ⟨position, place, rfl⟩ := number
      exact ⟨rfl, rfl⟩
  | register _ _ | indirect _ _ _ | push _ | pop _ | peek _ | sp _ | pc _ | ex _ =>
      exact ⟨rfl, rfl⟩

end Argument.Shows

end Dcpu
