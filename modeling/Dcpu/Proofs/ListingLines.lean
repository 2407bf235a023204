import Dcpu.Proofs.ReadInstruction

set_option autoImplicit false

namespace Dcpu

namespace Listing

variable {layout : Layout} {notes : Notes} {slot : Slot} {code word : Word}
  {following tail : List Word} {text : Text}

theorem operand?_eq_some (shown : operand? layout notes slot code following = some (text, tail)) :
    ∃ (operand : Operand) (value : Word) (rest : List Word),
      layout.decode? slot code = some operand ∧ following = operand.tail value ++ rest ∧
        text = operandText layout notes value operand ∧ tail = operand.tail value := by
  rw [operand?] at shown
  cases decoded : layout.decode? slot code with
  | none => simp [decoded] at shown
  | some operand =>
      rw [decoded] at shown
      cases has : operand.hasTail with
      | false =>
          simp only [has, Bool.false_eq_true, if_false, Option.some.injEq, Prod.mk.injEq] at shown
          exact ⟨operand, 0, following, rfl, by simp [Operand.tail, has], shown.1.symm,
            by simp [Operand.tail, has, shown.2]⟩
      | true =>
          cases following with
          | nil => simp [has] at shown
          | cons value rest =>
              simp only [has, if_true, Option.some.injEq, Prod.mk.injEq] at shown
              exact ⟨operand, value, rest, rfl, by simp [Operand.tail, has], shown.1.symm,
                by simp [Operand.tail, has, shown.2]⟩

inductive Shown (layout : Layout) (notes : Notes) (word : Word) : List Word → Text → Prop
  | basic {op : BasicOp} {a b : Operand} (decodes : layout.DecodesBasic word op a b)
      (valueA valueB : Word) :
      Shown layout notes word (layout.tails a b valueA valueB)
        (op.mnemonic ++ " " ++ operandText layout notes valueA a ++ ", " ++
          operandText layout notes valueB b)
  | extended {op : ExtendedOp} {operand : Operand}
      (decodes : layout.DecodesExtended word op operand) (value : Word) :
      Shown layout notes word (operand.tail value)
        (op.mnemonic ++ " " ++ operandText layout notes value operand)

theorem instruction?_eq_some (shown : instruction? layout notes word following = some (text, tail)) :
    Shown layout notes word tail text ∧ ∃ rest, following = tail ++ rest := by
  rw [instruction?] at shown
  dsimp only at shown
  by_cases extended : (layout.unpack word).opcode = Layout.extendedOpcode
  · rw [if_pos extended] at shown
    obtain ⟨op, operation, shown⟩ := Option.bind_eq_some_iff.1 shown
    obtain ⟨⟨_, _⟩, found, result⟩ := Option.bind_eq_some_iff.1 shown
    obtain ⟨operand, value, rest, decoded, rfl, rfl, rfl⟩ := operand?_eq_some found
    obtain ⟨rfl, rfl⟩ := Prod.mk.inj (Option.some.inj result)
    exact ⟨.extended ⟨extended, operation, decoded⟩ value, rest, rfl⟩
  · rw [if_neg extended] at shown
    obtain ⟨op, operation, shown⟩ := Option.bind_eq_some_iff.1 shown
    -- Tails are taken in the order in which they stand, so there is a case for each order.
    by_cases swapped : layout.tailBFirst = true
    · rw [if_pos swapped] at shown
      obtain ⟨⟨_, _⟩, foundB, shown⟩ := Option.bind_eq_some_iff.1 shown
      obtain ⟨b, valueB, behind, second, rfl, rfl, rfl⟩ := operand?_eq_some foundB
      obtain ⟨⟨_, _⟩, foundA, result⟩ := Option.bind_eq_some_iff.1 shown
      dsimp only at foundA
      rw [List.drop_left] at foundA
      obtain ⟨a, valueA, rest, first, rfl, rfl, rfl⟩ := operand?_eq_some foundA
      obtain ⟨rfl, rfl⟩ := Prod.mk.inj (Option.some.inj result)
      have tails : layout.tails a b valueA valueB = b.tail valueB ++ a.tail valueA :=
        if_pos swapped
      rw [← List.append_assoc, ← tails]
      exact ⟨.basic ⟨extended, operation, first, second⟩ valueA valueB, rest, rfl⟩
    · rw [if_neg swapped] at shown
      obtain ⟨⟨_, _⟩, foundA, shown⟩ := Option.bind_eq_some_iff.1 shown
      obtain ⟨a, valueA, behind, first, rfl, rfl, rfl⟩ := operand?_eq_some foundA
      obtain ⟨⟨_, _⟩, foundB, result⟩ := Option.bind_eq_some_iff.1 shown
      dsimp only at foundB
      rw [List.drop_left] at foundB
      obtain ⟨b, valueB, rest, second, rfl, rfl, rfl⟩ := operand?_eq_some foundB
      obtain ⟨rfl, rfl⟩ := Prod.mk.inj (Option.some.inj result)
      have tails : layout.tails a b valueA valueB = a.tail valueA ++ b.tail valueB :=
        if_neg swapped
      rw [← List.append_assoc, ← tails]
      exact ⟨.basic ⟨extended, operation, first, second⟩ valueA valueB, rest, rfl⟩

theorem Shown.instruction?_eq (shown : Shown layout notes word tail text) (rest : List Word) :
    instruction? layout notes word (tail ++ rest) = some (text, tail) := by
  cases shown with
  | basic decodes valueA valueB => exact decodes.instruction?_eq notes rest
  | extended decodes value => exact decodes.instruction?_eq notes rest

theorem line_words (layout : Layout) (notes : Notes) (inData : Bool) (address word : Word)
    (following : List Word) :
    ∃ tail rest, (line layout notes inData address word following).words = word :: tail ∧
      following = tail ++ rest := by
  rw [line]
  split
  · rename_i text tail found
    cases inData with
    | true => simp at found
    | false =>
        obtain ⟨_, rest, same⟩ := instruction?_eq_some found
        exact ⟨tail, rest, rfl, same⟩
  · exact ⟨[], following, rfl, rfl⟩

theorem linesAfter_eq (found : List Line) (inData : Bool) (taken : Nat) (address : Word)
    (words : List Word) :
    linesAfter layout notes found inData taken address words =
      found.reverse ++ linesAfter layout notes [] inData taken address words := by
  induction words generalizing found inData taken address with
  | nil => simp [linesAfter]
  | cons word following ih =>
      cases taken with
      | succ taken => exact ih found inData taken (address + 1)
      | zero =>
          simp only [linesAfter]
          rw [ih (_ :: found), ih [_]]
          simp

theorem linesAfter_words (inData : Bool) (taken : Nat) (address : Word) (words : List Word) :
    (linesAfter layout notes [] inData taken address words).flatMap Line.words =
      words.drop taken := by
  induction words generalizing inData taken address with
  | nil => simp [linesAfter]
  | cons word following ih =>
      cases taken with
      | succ taken => exact ih inData taken (address + 1)
      | zero =>
          simp only [linesAfter]
          -- The words in the tail of the line are passed over, so none is shown twice.
          obtain ⟨tail, rest, words, rfl⟩ := line_words layout notes
            (dataFrom notes address inData) address word following
          rw [linesAfter_eq, List.flatMap_append, ih, words]
          simp [words]

theorem mem_linesAfter {l : Line} {inData : Bool} {taken : Nat} {address : Word} {words : List Word}
    (member : l ∈ linesAfter layout notes [] inData taken address words) :
    ∃ (data : Bool) (n : Nat) (word : Word) (following : List Word),
      l = line layout notes data (address + n.toUInt16) word following ∧
        words.drop n = word :: following ∧
        (data = true → inData = true ∨ ∃ address, (notes.get address).type = .data) := by
  induction words generalizing inData taken address with
  | nil => simp [linesAfter] at member
  | cons word following ih =>
      have behind (n : Nat) : address + 1 + n.toUInt16 = address + (n + 1).toUInt16 := by
        simp [UInt16.ofNat_add, UInt16.add_assoc, UInt16.add_comm]
      cases taken with
      | succ taken =>
          -- The word is in the tail of a line that has been shown.
          obtain ⟨data, n, first, rest, same, there, marked⟩ := ih member
          exact ⟨data, n + 1, first, rest, behind n ▸ same, there, marked⟩
      | zero =>
          have marked : dataFrom notes address inData = true →
              inData = true ∨ ∃ address, (notes.get address).type = .data := by
            intro data
            rw [dataFrom] at data
            split at data
            · cases data
            · exact .inr ⟨address, ‹_›⟩
            · exact .inl data
            · exact .inl data
          simp only [linesAfter] at member
          rw [linesAfter_eq] at member
          rcases List.mem_append.1 member with here | later
          · exact ⟨_, 0, word, following, by simpa using here, rfl, marked⟩
          · obtain ⟨data, n, first, rest, same, there, after⟩ := ih later
            refine ⟨data, n + 1, first, rest, behind n ▸ same, there, fun shown => ?_⟩
            rcases after shown with inside | known
            · exact marked inside
            · exact .inr known

theorem ofImage_words (layout : Layout) (image : Array Word) (symbols : List Symbol) :
    (ofImage layout image symbols).flatMap Line.words = image.toList :=
  linesAfter_words false 0 0 image.toList

end Listing

end Dcpu
