import Dcpu.Listing
import Dcpu.Machine.Step

set_option autoImplicit false

namespace Dcpu

namespace Operand

def tail (value : Word) (operand : Operand) : List Word := if operand.hasTail then [value] else []

theorem length_tail (operand : Operand) (value : Word) :
    (operand.tail value).length = if operand.hasTail then 1 else 0 := by
  rw [tail]
  split <;> rfl

def stackAfter (sp : Word) : Operand → Word
  | .push => sp - 1
  | .pop => sp + 1
  | _ => sp

def placeWith (m : Machine) (value : Word) : Operand → Place
  | .register r => .register r
  | .indirect r => .memory (m.register r)
  | .indexed r => .memory (m.register r + value)
  | .push => .memory (m.sp - 1)
  | .pop | .peek => .memory m.sp
  | .pick => .memory (m.sp + value)
  | .sp => .sp
  | .pc => .pc
  | .ex => .ex
  | .direct => .memory value
  | .literal => .literal value
  | .short n => .literal n

end Operand

/-- The words stand one after the other from an address on. -/
def Memory.Holds (memory : Memory) (address : Word) (words : List Word) : Prop :=
  ∀ (i : Nat) (word : Word), words[i]? = some word → memory.read (address + i.toUInt16) = word

namespace Memory

variable {memory : Memory} {address word : Word} {words : List Word}

theorem Holds.head (holds : memory.Holds address (word :: words)) : memory.read address = word := by
  simpa using holds 0 word rfl

theorem holds_nil (memory : Memory) (address : Word) : memory.Holds address [] := by
  simp [Holds]

theorem holds_cons (first : memory.read address = word)
    (rest : memory.Holds (address + 1) words) : memory.Holds address (word :: words) := by
  intro i other found
  cases i with
  | zero =>
      obtain rfl := Option.some.inj found
      simpa using first
  | succ i =>
      have there := rest i other found
      rwa [UInt16.add_assoc, UInt16.add_comm 1, ← UInt16.ofNat_one, Nat.toUInt16_eq,
        ← UInt16.ofNat_add] at there

theorem Holds.right (before : List Word) (holds : memory.Holds address (before ++ words)) :
    memory.Holds (address + before.length.toUInt16) words := by
  intro i word found
  have there := holds (before.length + i) word (by
    rw [List.getElem?_append_right (Nat.le_add_right _ _), Nat.add_sub_cancel_left, found])
  simpa [UInt16.ofNat_add, UInt16.add_assoc] using there

theorem Holds.left {after : List Word} (holds : memory.Holds address (words ++ after)) :
    memory.Holds address words := by
  intro i word found
  have within := (List.getElem?_eq_some_iff.1 found).1
  exact holds i word (by rw [List.getElem?_append_left within, found])

theorem Holds.write {cell value : Word} (holds : memory.Holds address words)
    (apart : ∀ i < words.length, cell ≠ address + i.toUInt16) :
    (memory.write cell value).Holds address words := by
  intro i word found
  have within := (List.getElem?_eq_some_iff.1 found).1
  rw [read_write, if_neg (apart i within)]
  exact holds i word found

theorem holds_overwrite (memory : Memory) {image : Array Word} (fits : image.size ≤ addressSpace) :
    (memory.overwrite image).Holds 0 image.toList := by
  intro i word found
  have within : i < image.size := (List.getElem?_eq_some_iff.1 found).1
  have small : i.toUInt16.toNat = i := by
    rw [addressSpace] at fits
    rw [Nat.toUInt16_eq, UInt16.toNat_ofNat', Nat.mod_eq_of_lt (by omega)]
  rw [UInt16.zero_add, read_overwrite, small, ← Array.getElem?_toList, found, Option.getD_some]

end Memory

namespace Machine

theorem place_eq {m : Machine} {operand : Operand} {value : Word}
    (holds : m.memory.Holds m.pc (operand.tail value)) :
    m.place operand = (operand.placeWith m value,
      { m with
        pc := m.pc + (operand.tail value).length.toUInt16
        sp := operand.stackAfter m.sp }) := by
  -- A tail is the word at the program counter, which then moves on.
  by_cases has : operand.hasTail = true
  · rw [Operand.tail, if_pos has] at holds ⊢
    have there := holds.head
    cases operand with
    | indexed r => exact congrArg (fun offset => (Place.memory (m.register r + offset), _)) there
    | pick => exact congrArg (fun offset => (Place.memory (m.sp + offset), _)) there
    | direct => exact congrArg (fun address => (Place.memory address, _)) there
    | literal => exact congrArg (fun value => (Place.literal value, _)) there
    | _ => simp [Operand.hasTail] at has
  · rw [Operand.tail, if_neg has]
    have stays : m.pc + ([] : List Word).length.toUInt16 = m.pc := by simp
    rw [stays]
    cases operand with
    | indexed _ => simp [Operand.hasTail] at has
    | pick => simp [Operand.hasTail] at has
    | direct => simp [Operand.hasTail] at has
    | literal => simp [Operand.hasTail] at has
    | _ => rfl

def resolved (layout : Layout) (a b : Operand) (valueA valueB pc : Word) (m : Machine) :
    Place × Place × Machine :=
  if layout.tailBFirst then
    (a.placeWith { m with sp := b.stackAfter m.sp } valueA, b.placeWith m valueB,
      { m with pc, sp := a.stackAfter (b.stackAfter m.sp) })
  else
    (a.placeWith m valueA, b.placeWith { m with sp := a.stackAfter m.sp } valueB,
      { m with pc, sp := b.stackAfter (a.stackAfter m.sp) })

end Machine

namespace Layout

def tails (layout : Layout) (a b : Operand) (valueA valueB : Word) : List Word :=
  if layout.tailBFirst then b.tail valueB ++ a.tail valueA else a.tail valueA ++ b.tail valueB

structure DecodesBasic (layout : Layout) (word : Word) (op : BasicOp) (a b : Operand) : Prop where
  basic : (layout.unpack word).opcode ≠ extendedOpcode
  operation : layout.basicOp? (layout.unpack word).opcode = some op
  first : layout.decode? .a (layout.unpack word).a = some a
  second : layout.decode? .b (layout.unpack word).b = some b

structure DecodesExtended (layout : Layout) (word : Word) (op : ExtendedOp) (operand : Operand) :
    Prop where
  extended : (layout.unpack word).opcode = extendedOpcode
  operation : layout.extendedOp? (layout.unpack word).a = some op
  operand : layout.decode? .b (layout.unpack word).b = some operand

end Layout

namespace Machine

variable {m : Machine} {layout : Layout} {a b : Operand} {valueA valueB : Word}

theorem placeWith_congr {m' : Machine} (registers : m.registers = m'.registers)
    (sp : m.sp = m'.sp) (value : Word) (operand : Operand) :
    operand.placeWith m value = operand.placeWith m' value := by
  cases operand <;> simp only [Operand.placeWith, register, registers, sp]

theorem place_place {first second : Operand} {value value' : Word}
    (holds : m.memory.Holds m.pc (first.tail value ++ second.tail value')) :
    (m.place first).1 = first.placeWith m value ∧
      (m.place first).2.place second =
        (second.placeWith { m with sp := first.stackAfter m.sp } value',
          { m with
            pc := m.pc + (first.tail value ++ second.tail value').length.toUInt16
            sp := second.stackAfter (first.stackAfter m.sp) }) := by
  have moved : m.pc + (first.tail value ++ second.tail value').length.toUInt16 =
      m.pc + (first.tail value).length.toUInt16 + (second.tail value').length.toUInt16 := by
    simp [UInt16.ofNat_add, UInt16.add_assoc]
  rw [place_eq holds.left, moved]
  exact ⟨rfl, (place_eq (holds.right _)).trans (congrArg (·, _) (placeWith_congr rfl rfl _ _))⟩

theorem places_eq (holds : m.memory.Holds m.pc (layout.tails a b valueA valueB)) :
    m.places layout a b = m.resolved layout a b valueA valueB
      (m.pc + (layout.tails a b valueA valueB).length.toUInt16) := by
  unfold places resolved
  by_cases swapped : layout.tailBFirst = true
  · simp only [Layout.tails, swapped, if_true] at holds ⊢
    obtain ⟨first, second⟩ := place_place holds
    rw [← first, second]
  · simp only [Layout.tails, swapped] at holds ⊢
    obtain ⟨first, second⟩ := place_place holds
    simp only [Bool.false_eq_true, if_false]
    rw [← first, second]

end Machine

namespace Layout

variable {layout : Layout} {word : Word} {a b operand : Operand} {valueA valueB value : Word}

theorem codeHasTail_eq {slot : Slot} {code : Word}
    (decoded : layout.decode? slot code = some operand) :
    layout.codeHasTail slot code = operand.hasTail := by
  rw [codeHasTail, decoded]

theorem length_tails (layout : Layout) (a b : Operand) (valueA valueB : Word) :
    (layout.tails a b valueA valueB).length =
      (if a.hasTail then 1 else 0) + if b.hasTail then 1 else 0 := by
  rw [tails]
  split
  · rw [List.length_append, Operand.length_tail, Operand.length_tail, Nat.add_comm]
  · rw [List.length_append, Operand.length_tail, Operand.length_tail]

theorem operandText_eq (notes : Notes) (value : Word) (plain : operand.hasTail = false) :
    Listing.operandText layout notes 0 operand = Listing.operandText layout notes value operand := by
  cases operand with
  | indexed _ => simp [Operand.hasTail] at plain
  | pick => simp [Operand.hasTail] at plain
  | direct => simp [Operand.hasTail] at plain
  | literal => simp [Operand.hasTail] at plain
  | _ => rfl

theorem operand?_eq {slot : Slot} {code : Word} (decoded : layout.decode? slot code = some operand)
    (notes : Notes) (value : Word) (rest : List Word) :
    Listing.operand? layout notes slot code (operand.tail value ++ rest) =
      some (Listing.operandText layout notes value operand, operand.tail value) := by
  rw [Listing.operand?, decoded]
  cases has : operand.hasTail with
  | true => simp [Operand.tail, has]
  | false => simp [Operand.tail, has, operandText_eq notes value has]

end Layout

namespace Machine

theorem resolved_pc (m : Machine) (layout : Layout) (a b : Operand) (valueA valueB pc pc' : Word) :
    { m with pc := pc' }.resolved layout a b valueA valueB pc =
      m.resolved layout a b valueA valueB pc := by
  unfold resolved
  split
  · exact Prod.ext (placeWith_congr rfl rfl _ _) (Prod.ext (placeWith_congr rfl rfl _ _) rfl)
  · exact Prod.ext (placeWith_congr rfl rfl _ _) (Prod.ext (placeWith_congr rfl rfl _ _) rfl)

end Machine

namespace Layout.DecodesBasic

variable {layout : Layout} {word : Word} {a b : Operand} {valueA valueB : Word} {op : BasicOp}

theorem step_eq (decodes : layout.DecodesBasic word op a b) {m : Machine}
    (holds : m.memory.Holds m.pc (word :: layout.tails a b valueA valueB)) :
    m.step layout =
      let (placeA, placeB, after) := m.resolved layout a b valueA valueB
        (m.pc + (word :: layout.tails a b valueA valueB).length.toUInt16)
      (after.basic layout op placeA placeB).map fun after => ((after.noteHalt m.pc).deliver, none) := by
  have rest : m.memory.Holds (m.pc + 1) (layout.tails a b valueA valueB) :=
    Memory.Holds.right [word] holds
  have moved : m.pc + (word :: layout.tails a b valueA valueB).length.toUInt16 =
      m.pc + 1 + (layout.tails a b valueA valueB).length.toUInt16 := by
    simp [UInt16.ofNat_add, UInt16.add_assoc, UInt16.add_comm]
  -- The tails start behind the word that was fetched; no place depends on the program counter.
  have places := Machine.places_eq (m := { m with pc := m.pc + 1 }) rest
  rw [Machine.resolved_pc, ← moved] at places
  simp only [Machine.step, Machine.fetch, holds.head, Machine.execute, if_neg decodes.basic,
    decodes.operation, decodes.first, decodes.second, places]
  cases Machine.basic layout op _ _ _ <;> rfl

theorem passOver_eq (decodes : layout.DecodesBasic word op a b) {memory : Memory} {pc : Word}
    (holds : memory.Holds pc (word :: layout.tails a b valueA valueB)) :
    Machine.passOver layout memory pc =
      (pc + (word :: layout.tails a b valueA valueB).length.toUInt16,
        decide (layout = .v2 ∧ op.isConditional)) := by
  have count : (word :: layout.tails a b valueA valueB).length.toUInt16 =
      1 + (if a.hasTail then 1 else 0) + if b.hasTail then 1 else 0 := by
    rw [List.length_cons, length_tails]
    cases a.hasTail <;> cases b.hasTail <;> rfl
  rw [Machine.passOver, holds.head]
  simp only [if_neg decodes.basic, codeHasTail_eq decodes.first, codeHasTail_eq decodes.second,
    decodes.operation, count, Option.any_some, UInt16.add_assoc]

theorem instruction?_eq (decodes : layout.DecodesBasic word op a b) (notes : Notes)
    (rest : List Word) :
    Listing.instruction? layout notes word (layout.tails a b valueA valueB ++ rest) =
      some (op.mnemonic ++ " " ++ Listing.operandText layout notes valueA a ++ ", " ++
        Listing.operandText layout notes valueB b, layout.tails a b valueA valueB) := by
  have first := operand?_eq decodes.first notes valueA
  have second := operand?_eq decodes.second notes valueB
  rw [Listing.instruction?, tails]
  dsimp only
  rw [if_neg decodes.basic, decodes.operation]
  cases layout.tailBFirst with
  | true => simp [List.append_assoc, first, second]
  | false => simp [List.append_assoc, first, second]

theorem line_eq (decodes : layout.DecodesBasic word op a b) (notes : Notes) (address : Word)
    (rest : List Word) :
    (Listing.line layout notes false address word (layout.tails a b valueA valueB ++ rest)).words =
      word :: layout.tails a b valueA valueB := by
  simp [Listing.line, decodes.instruction?_eq]

end Layout.DecodesBasic

namespace Layout.DecodesExtended

variable {layout : Layout} {word : Word} {operand : Operand} {value : Word} {op : ExtendedOp}

theorem step_eq (decodes : layout.DecodesExtended word op operand) {m : Machine}
    (holds : m.memory.Holds m.pc (word :: operand.tail value)) :
    m.step layout =
      let after : Machine :=
        { m with
          pc := m.pc + (word :: operand.tail value).length.toUInt16
          sp := operand.stackAfter m.sp }
      match after.extended op (operand.placeWith m value) m.pc with
      | (after, some e) => some (after, some e)
      | (after, none) => some ((after.noteHalt m.pc).deliver, none) := by
  have rest : m.memory.Holds (m.pc + 1) (operand.tail value) := Memory.Holds.right [word] holds
  have moved : m.pc + (word :: operand.tail value).length.toUInt16 =
      m.pc + 1 + (operand.tail value).length.toUInt16 := by
    simp [UInt16.ofNat_add, UInt16.add_assoc, UInt16.add_comm]
  have place := Machine.place_eq (m := { m with pc := m.pc + 1 }) rest
  have same : operand.placeWith { m with pc := m.pc + 1 } value = operand.placeWith m value :=
    Machine.placeWith_congr rfl rfl _ _
  rw [← moved, same] at place
  simp only [Machine.step, Machine.fetch, holds.head, Machine.execute, if_pos decodes.extended,
    decodes.operation, decodes.operand, place]
  rcases Machine.extended op _ _ _ with ⟨after, _ | e⟩ <;> rfl

theorem passOver_eq (decodes : layout.DecodesExtended word op operand) {memory : Memory} {pc : Word}
    (holds : memory.Holds pc (word :: operand.tail value)) :
    Machine.passOver layout memory pc =
      (pc + (word :: operand.tail value).length.toUInt16, false) := by
  have count : (word :: operand.tail value).length.toUInt16 =
      1 + if operand.hasTail then 1 else 0 := by
    rw [List.length_cons, Operand.length_tail]
    cases operand.hasTail <;> rfl
  rw [Machine.passOver, holds.head]
  simp only [if_pos decodes.extended, codeHasTail_eq decodes.operand, count, UInt16.add_assoc]

theorem instruction?_eq (decodes : layout.DecodesExtended word op operand) (notes : Notes)
    (rest : List Word) :
    Listing.instruction? layout notes word (operand.tail value ++ rest) =
      some (op.mnemonic ++ " " ++ Listing.operandText layout notes value operand,
        operand.tail value) := by
  have shown := operand?_eq decodes.operand notes value
  rw [Listing.instruction?]
  dsimp only
  rw [if_pos decodes.extended, decodes.operation]
  simp [shown]

theorem line_eq (decodes : layout.DecodesExtended word op operand) (notes : Notes)
    (address : Word) (rest : List Word) :
    (Listing.line layout notes false address word (operand.tail value ++ rest)).words =
      word :: operand.tail value := by
  simp [Listing.line, decodes.instruction?_eq]

end Layout.DecodesExtended

end Dcpu
