import Dcpu.Proofs.FoldLiteral

set_option autoImplicit false

namespace Dcpu

namespace Layout

variable {layout : Layout} {word valueA valueB value : Word} {a b operand : Operand}
  {tail : List Word} {slot : Slot} {code : Word}

theorem unpack_lt (layout : Layout) (word : Word) :
    (layout.unpack word).opcode.toNat < 2 ^ layout.opcodeBits ∧
      (layout.unpack word).a.toNat < 2 ^ layout.slotBits .a ∧
      (layout.unpack word).b.toNat < 2 ^ layout.slotBits .b := by
  obtain ⟨opcode, a, b⟩ := layout.toNat_unpack word
  have within := word.toNat_lt
  refine ⟨?_, ?_, ?_⟩
  · rw [opcode]
    exact Nat.mod_lt _ (Nat.two_pow_pos _)
  · rw [a]
    exact Nat.mod_lt _ (Nat.two_pow_pos _)
  · rw [b]
    simp only [slotBits, bBits]
    omega

theorem DecodesBasic.operandTails_eq {op : BasicOp} (decodes : layout.DecodesBasic word op a b)
    (valueA valueB : Word) :
    layout.operandTails (layout.unpack word) (layout.tails a b valueA valueB) =
      (a.tail valueA, b.tail valueB) := by
  rw [operandTails, if_neg decodes.basic, tails, codeHasTail_eq decodes.first,
    codeHasTail_eq decodes.second, ← a.length_tail valueA, ← b.length_tail valueB]
  cases layout.tailBFirst with
  | true => simp
  | false => simp

theorem DecodesExtended.operandTails_eq {op : ExtendedOp}
    (decodes : layout.DecodesExtended word op operand) (tail : List Word) :
    layout.operandTails (layout.unpack word) tail = ([], tail) :=
  if_pos decodes.extended

end Layout

structure Body.Fixed (layout : Layout) (words : List Word) (body : Body) : Prop where
  formed : ∀ rules : EncodingRules, rules.layout = layout → body.WellFormed rules
  names : body.names = []
  differences : body.differenceCount = 0
  unfixed : ∀ value position, body ≠ .addressFix value position
  words : ∀ env here, (body.parts layout).map (Part.word env here) = words

namespace Body

variable {layout : Layout} {word valueA valueB value : Word} {a b operand : Operand}
  {x y argument : Argument} {p : Position}

theorem fixed_basic {op : BasicOp} (decodes : layout.DecodesBasic word op a b)
    (first : x.Shows layout valueA a) (second : y.Shows layout valueB b) :
    Fixed layout (layout.foldInstruction word (layout.tails a b valueA valueB))
      (.basic op.mnemonic (some x) (some y) p) := by
  obtain ⟨fits, fitsA, fitsB⟩ := layout.unpack_lt word
  have known := Layout.basicOpcode?_of_basicOp? decodes.operation
  refine ⟨fun rules same => ?_, ?_, ?_, by simp, fun env here => ?_⟩
  · subst same
    exact ⟨by simp [known], ⟨x, rfl, first.wellFormed fitsA decodes.first⟩,
      ⟨y, rfl, second.wellFormed fitsB decodes.second⟩⟩
  · simp [names, first.names_eq.1, second.names_eq.1]
  · simp [differenceCount, first.names_eq.2, second.names_eq.2]
  · have fieldsA := first.fields_eq fitsA decodes.first 0 env here
    have fieldsB := second.fields_eq fitsB decodes.second x.differenceCount env here
    obtain ⟨packed, packs⟩ := Layout.pack?_eq_some fits (x.fields_lt layout .a 0)
      (y.fields_lt layout .b x.differenceCount)
    simp only [Layout.foldInstruction, decodes.operandTails_eq, ← fieldsA, ← fieldsB, packs, parts,
      argumentFields, known, Option.map_some, Option.getD_some]
    cases layout.tailBFirst with
    | true => simp [Part.word]
    | false => simp [Part.word]

theorem fixed_extended {op : ExtendedOp} (decodes : layout.DecodesExtended word op operand)
    (shown : argument.Shows layout value operand) :
    Fixed layout (layout.foldInstruction word (operand.tail value))
      (.extended op.mnemonic (some argument) p) := by
  obtain ⟨fits, fitsA, fitsB⟩ := layout.unpack_lt word
  have known := Layout.extendedOpcode?_of_extendedOp? decodes.operation
  refine ⟨fun rules same => ?_, ?_, ?_, by simp, fun env here => ?_⟩
  · subst same
    exact ⟨by simp [known], argument, rfl, shown.wellFormed fitsB decodes.operand⟩
  · simp [names, shown.names_eq.1]
  · simp [differenceCount, shown.names_eq.2]
  · have fields := shown.fields_eq fitsB decodes.operand 0 env here
    obtain ⟨packed, packs⟩ := Layout.pack?_eq_some fits fitsA (argument.fields_lt layout .b 0)
    -- The field of the first operand holds the number of the operation, which has no tail.
    have number : layout.fold .a (layout.unpack word).a [] = ((layout.unpack word).a, []) := rfl
    rw [decodes.extended] at packs
    simp only [Layout.foldInstruction, decodes.operandTails_eq, number, ← fields, parts,
      argumentFields, known, Option.map_some, Option.getD_some, decodes.extended, packs]
    cases layout.tailBFirst with
    | true => simp [Part.word]
    | false => simp [Part.word]

theorem dataParts_numbers {words : List Word} {values : List (Option DataValue)}
    (numbers : List.Forall₂ DataValue.IsNumber words values) (env : Text → Word) (here : Word)
    (offset earlier : Nat) :
    (dataParts offset earlier values).map (Part.word env here) = words := by
  induction numbers generalizing offset earlier with
  | nil => rfl
  | cons number _ ih =>
      obtain ⟨e, number, rfl⟩ := number
      simp [dataParts, Part.word, Argument.Shows.value_eq number, ih]

theorem fixed_data {words : List Word} {values : List (Option DataValue)}
    (numbers : List.Forall₂ DataValue.IsNumber words values) :
    Fixed layout words (.data values p) where
  formed rules _ := by
    induction numbers with
    | nil => trivial
    | cons number _ ih =>
        obtain ⟨e, number, rfl⟩ := number
        exact ⟨Argument.Shows.IsNumber.wellFormed number, ih⟩
  names := by
    induction numbers with
    | nil => rfl
    | cons number _ ih =>
        obtain ⟨_, ⟨position, place, rfl⟩, rfl⟩ := number
        exact ih
  differences := by
    induction numbers with
    | nil => rfl
    | cons number _ ih =>
        obtain ⟨_, ⟨position, place, rfl⟩, rfl⟩ := number
        exact (Nat.zero_add _).trans ih
  unfixed _ _ := by simp
  words env here := dataParts_numbers numbers env here 0 0

end Body

namespace Layout

variable {layout : Layout} {slot : Slot} {code word : Word} {tail : List Word}

theorem fold_of_none (long : layout.shortForm? slot code tail = none) :
    layout.fold slot code tail = (code, tail) := by
  rw [fold, long]

theorem length_fold_le (layout : Layout) (slot : Slot) (code : Word) (tail : List Word) :
    (layout.fold slot code tail).2.length ≤ tail.length := by
  rw [fold]
  split <;> simp

theorem length_fold_lt (short : (layout.shortForm? slot code tail).isSome = true) :
    (layout.fold slot code tail).2.length < tail.length := by
  obtain ⟨found, short⟩ := Option.isSome_iff_exists.1 short
  rw [fold, short]
  unfold shortForm? at short
  split at short
  · simp
  · simp at short

theorem operandTails_append {i : Instruction} {tailA tailB : List Word}
    (split : layout.operandTails i tail = (tailA, tailB)) :
    (if layout.tailBFirst then tailB ++ tailA else tailA ++ tailB) = tail := by
  rw [operandTails] at split
  by_cases extended : i.opcode = extendedOpcode
  · rw [if_pos extended] at split
    obtain ⟨rfl, rfl⟩ := Prod.mk.inj split
    cases layout.tailBFirst <;> simp
  · rw [if_neg extended] at split
    by_cases swapped : layout.tailBFirst = true
    · rw [if_pos swapped] at split ⊢
      obtain ⟨rfl, rfl⟩ := Prod.mk.inj split
      exact List.take_append_drop _ _
    · rw [if_neg swapped] at split ⊢
      obtain ⟨rfl, rfl⟩ := Prod.mk.inj split
      exact List.take_append_drop _ _

theorem foldInstruction_eq_self (short : layout.hasLongLiteral word tail = false) :
    layout.foldInstruction word tail = word :: tail := by
  rcases split : layout.operandTails (layout.unpack word) tail with ⟨tailA, tailB⟩
  simp only [hasLongLiteral, split, Bool.or_eq_false_iff, Option.isSome_eq_false_iff,
    Option.isNone_iff_eq_none] at short
  simp only [foldInstruction, split, fold_of_none short.1, fold_of_none short.2,
    layout.pack?_unpack word, Option.getD_some, operandTails_append split]

theorem length_foldInstruction_lt (long : layout.hasLongLiteral word tail = true) :
    (layout.foldInstruction word tail).length < (word :: tail).length := by
  rcases split : layout.operandTails (layout.unpack word) tail with ⟨tailA, tailB⟩
  simp only [hasLongLiteral, split, Bool.or_eq_true] at long
  have total : tailA.length + tailB.length = tail.length := by
    rw [← operandTails_append split]
    cases layout.tailBFirst <;> simp [Nat.add_comm]
  have folded : (layout.foldInstruction word tail).length =
      1 + (layout.fold .a (layout.unpack word).a tailA).2.length +
        (layout.fold .b (layout.unpack word).b tailB).2.length := by
    rw [foldInstruction, split]
    cases layout.tailBFirst <;> simp <;> omega
  have leA := layout.length_fold_le .a (layout.unpack word).a tailA
  have leB := layout.length_fold_le .b (layout.unpack word).b tailB
  rw [folded, List.length_cons, ← total]
  rcases long with short | short
  · have lt := length_fold_lt short
    omega
  · have lt := length_fold_lt short
    omega

end Layout

end Dcpu
