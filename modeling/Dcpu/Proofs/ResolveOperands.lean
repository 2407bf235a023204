import Dcpu.Proofs.InstructionWord
import Dcpu.Proofs.ReadInstruction

set_option autoImplicit false

namespace Dcpu

inductive PlacedOperation
  | basic (op : BasicOp) (a b : Place)
  | extended (op : ExtendedOp) (place : Place)
deriving DecidableEq, Repr

namespace Machine

def resolve? (layout : Layout) (m : Machine) : Option (PlacedOperation × Machine) :=
  let (word, m) := m.fetch
  let instruction := layout.unpack word
  if instruction.opcode = Layout.extendedOpcode then
    match layout.extendedOp? instruction.a, layout.decode? .b instruction.b with
    | some op, some operand =>
        let (place, m) := m.place operand
        some (.extended op place, m)
    | _, _ => none
  else
    match layout.basicOp? instruction.opcode, layout.decode? .a instruction.a,
      layout.decode? .b instruction.b with
    | some op, some first, some second =>
        let (a, b, m) := m.places layout first second
        some (.basic op a b, m)
    | _, _, _ => none

def perform (layout : Layout) (address : Word) (m : Machine) :
    PlacedOperation → Option (Machine × Option StepError)
  | .basic op a b => (m.basic layout op a b).map (·, none)
  | .extended op place => some (m.extended op place address)

def settle (address : Word) : Machine × Option StepError → Machine × Option StepError
  | (m, none) => ((m.noteHalt address).deliver, none)
  | (m, some e) => (m, some e)

theorem step_eq_resolve (layout : Layout) (m : Machine) :
    m.step layout =
      match m.resolve? layout with
      | some (operation, after) => (after.perform layout m.pc operation).map (settle m.pc)
      | none => some (m.fetch.2, some (.illegalInstruction m.pc m.fetch.1)) := by
  simp only [step, execute, resolve?]
  -- Both sides look at the same parts of the word, in the same order.
  by_cases extended : (layout.unpack m.fetch.1).opcode = Layout.extendedOpcode
  · simp only [extended, if_true]
    cases layout.extendedOp? (layout.unpack m.fetch.1).a with
    | none => rfl
    | some op =>
        cases layout.decode? .b (layout.unpack m.fetch.1).b with
        | none => rfl
        | some operand =>
            simp only [perform]
            rcases Machine.extended op _ _ _ with ⟨after, _ | e⟩ <;> rfl
  · simp only [extended, if_false]
    cases layout.basicOp? (layout.unpack m.fetch.1).opcode with
    | none => rfl
    | some op =>
        cases layout.decode? .a (layout.unpack m.fetch.1).a with
        | none => rfl
        | some first =>
            cases layout.decode? .b (layout.unpack m.fetch.1).b with
            | none => rfl
            | some second =>
                simp only [perform]
                cases Machine.basic layout op _ _ _ <;> rfl

end Machine

namespace Layout

variable {layout : Layout} {word : Word} {a b operand : Operand}

theorem exists_decode? {code : Word} (small : code.toNat < 0x40) (layout : Layout) (slot : Slot) :
    ∃ operand, layout.decode? slot code = some operand := by
  have lt : code < 0x40 := small
  rw [← Option.isSome_iff_exists, decode?, if_pos lt]
  simp only [apply_ite Option.isSome, Option.isSome_some, ite_self]

theorem exists_operands (layout : Layout) (word : Word) :
    ∃ a b, layout.decode? .a (layout.unpack word).a = some a ∧
      layout.decode? .b (layout.unpack word).b = some b := by
  obtain ⟨_, fieldA, fieldB⟩ := layout.toNat_unpack word
  have within := word.toNat_lt
  have smallA : (layout.unpack word).a.toNat < 0x40 := by
    cases layout <;> simp only [opcodeBits, aBits] at fieldA <;> omega
  have smallB : (layout.unpack word).b.toNat < 0x40 := by omega
  obtain ⟨a, first⟩ := exists_decode? smallA layout .a
  obtain ⟨b, second⟩ := exists_decode? smallB layout .b
  exact ⟨a, b, first, second⟩

def IsIllegal (layout : Layout) (word : Word) : Prop :=
  (layout.unpack word).opcode ≠ extendedOpcode ∧
      layout.basicOp? (layout.unpack word).opcode = none ∨
    (layout.unpack word).opcode = extendedOpcode ∧ layout.extendedOp? (layout.unpack word).a = none

theorem DecodesBasic.not_illegal {op : BasicOp} (decodes : layout.DecodesBasic word op a b) :
    ¬ layout.IsIllegal word := by
  rintro (⟨_, unknown⟩ | ⟨extended, _⟩)
  · simp [decodes.operation] at unknown
  · exact decodes.basic extended

theorem DecodesExtended.not_illegal {op : ExtendedOp}
    (decodes : layout.DecodesExtended word op operand) : ¬ layout.IsIllegal word := by
  rintro (⟨basic, _⟩ | ⟨_, unknown⟩)
  · exact basic decodes.extended
  · simp [decodes.operation] at unknown

theorem reads_cases (layout : Layout) (word : Word) :
    layout.IsIllegal word ∨ (∃ op a b, layout.DecodesBasic word op a b) ∨
      ∃ op operand, layout.DecodesExtended word op operand := by
  obtain ⟨a, b, first, second⟩ := layout.exists_operands word
  by_cases extended : (layout.unpack word).opcode = extendedOpcode
  · cases operation : layout.extendedOp? (layout.unpack word).a with
    | none => exact .inl (.inr ⟨extended, operation⟩)
    | some op => exact .inr (.inr ⟨op, b, extended, operation, second⟩)
  · cases operation : layout.basicOp? (layout.unpack word).opcode with
    | none => exact .inl (.inl ⟨extended, operation⟩)
    | some op => exact .inr (.inl ⟨op, a, b, extended, operation, first, second⟩)

def operands (layout : Layout) (word : Word) : List Operand :=
  let instruction := layout.unpack word
  let first :=
    if instruction.opcode = extendedOpcode then none else layout.decode? .a instruction.a
  first.toList ++ (layout.decode? .b instruction.b).toList

def size (layout : Layout) (word : Word) : Nat :=
  1 + (layout.operands word).countP Operand.hasTail

theorem DecodesBasic.size_eq {op : BasicOp} (decodes : layout.DecodesBasic word op a b) :
    layout.size word = 1 + [a, b].countP Operand.hasTail := by
  simp [size, operands, decodes.basic, decodes.first, decodes.second]

theorem DecodesExtended.size_eq {op : ExtendedOp}
    (decodes : layout.DecodesExtended word op operand) :
    layout.size word = 1 + [operand].countP Operand.hasTail := by
  simp [size, operands, decodes.extended, decodes.operand]

end Layout

def Memory.behind (layout : Layout) (memory : Memory) (address : Word) : Word :=
  address + (layout.size (memory.read address)).toUInt16

namespace Machine

variable {layout : Layout} {m : Machine} {a b operand : Operand}

theorem place_after (m : Machine) (operand : Operand) :
    (m.place operand).2 =
      { m with
        pc := m.pc + ([operand].countP Operand.hasTail).toUInt16
        sp := operand.stackAfter m.sp } := by
  cases operand <;> simp [place, fetch, Operand.hasTail, Operand.stackAfter]

theorem place_place_after (m : Machine) (first second : Operand) :
    ((m.place first).2.place second).2 =
      { m with
        pc := m.pc + ([first, second].countP Operand.hasTail).toUInt16
        sp := second.stackAfter (first.stackAfter m.sp) } := by
  have both : ([first, second].countP Operand.hasTail).toUInt16 =
      ([first].countP Operand.hasTail).toUInt16 + ([second].countP Operand.hasTail).toUInt16 := by
    rw [← List.singleton_append, List.countP_append, Nat.toUInt16_eq, UInt16.ofNat_add]
  rw [place_after, place_after, both, UInt16.add_assoc]

theorem places_after (layout : Layout) (a b : Operand) (m : Machine) :
    ∃ sp, (m.places layout a b).2.2 =
      { m with pc := m.pc + ([a, b].countP Operand.hasTail).toUInt16, sp } := by
  unfold places
  split
  · have swapped : [b, a].countP Operand.hasTail = [a, b].countP Operand.hasTail :=
      (List.Perm.swap a b []).countP_eq _
    exact ⟨_, (m.place_place_after b a).trans (by rw [swapped])⟩
  · exact ⟨_, m.place_place_after a b⟩

theorem behind_eq (m : Machine) (operands : List Operand)
    (size : layout.size (m.memory.read m.pc) = 1 + operands.countP Operand.hasTail) :
    m.fetch.2.pc + (operands.countP Operand.hasTail).toUInt16 = m.memory.behind layout m.pc := by
  rw [Memory.behind, size, Nat.toUInt16_eq, Nat.toUInt16_eq, UInt16.ofNat_add, ← UInt16.add_assoc]
  rfl

theorem resolve?_eq_places {op : BasicOp}
    (decodes : layout.DecodesBasic (m.memory.read m.pc) op a b) :
    m.resolve? layout =
      some (.basic op (m.fetch.2.places layout a b).1 (m.fetch.2.places layout a b).2.1,
        (m.fetch.2.places layout a b).2.2) := by
  simp only [resolve?, fetch, if_neg decodes.basic, decodes.operation, decodes.first,
    decodes.second]

theorem resolve?_basic {op : BasicOp} (decodes : layout.DecodesBasic (m.memory.read m.pc) op a b) :
    ∃ placeA placeB sp, m.resolve? layout =
      some (.basic op placeA placeB, { m with pc := m.memory.behind layout m.pc, sp }) := by
  obtain ⟨sp, after⟩ := m.fetch.2.places_after layout a b
  rw [m.behind_eq [a, b] decodes.size_eq] at after
  exact ⟨_, _, sp, (resolve?_eq_places decodes).trans (by rw [after]; rfl)⟩

theorem resolve?_of_holds {op : BasicOp} {word valueA valueB : Word}
    (decodes : layout.DecodesBasic word op a b)
    (holds : m.memory.Holds m.pc (word :: layout.tails a b valueA valueB)) :
    let (placeA, placeB, after) := m.resolved layout a b valueA valueB
      (m.pc + 1 + (layout.tails a b valueA valueB).length.toUInt16)
    m.resolve? layout = some (.basic op placeA placeB, after) := by
  have rest : m.memory.Holds (m.pc + 1) (layout.tails a b valueA valueB) := holds.right [word]
  have read : layout.DecodesBasic (m.memory.read m.pc) op a b := holds.head.symm ▸ decodes
  have places : m.fetch.2.places layout a b = m.resolved layout a b valueA valueB
      (m.pc + 1 + (layout.tails a b valueA valueB).length.toUInt16) := by
    rw [places_eq rest]
    exact m.resolved_pc layout a b valueA valueB _ (m.pc + 1)
  rw [← places]
  exact resolve?_eq_places read

theorem resolve?_extended {op : ExtendedOp}
    (decodes : layout.DecodesExtended (m.memory.read m.pc) op operand) :
    ∃ place, m.resolve? layout =
      some (.extended op place,
        { m with pc := m.memory.behind layout m.pc, sp := operand.stackAfter m.sp }) := by
  have after := m.fetch.2.place_after operand
  rw [m.behind_eq [operand] decodes.size_eq] at after
  have resolved : m.resolve? layout =
      some (.extended op (m.fetch.2.place operand).1, (m.fetch.2.place operand).2) := by
    simp only [resolve?, fetch, if_pos decodes.extended, decodes.operation, decodes.operand]
  exact ⟨_, resolved.trans (by rw [after]; rfl)⟩

theorem resolve?_illegal (illegal : layout.IsIllegal (m.memory.read m.pc)) :
    m.resolve? layout = none := by
  rcases illegal with ⟨basic, unknown⟩ | ⟨extended, unknown⟩
  · simp only [resolve?, fetch, if_neg basic, unknown]
  · simp only [resolve?, fetch, if_pos extended, unknown]

theorem resolve?_moves {operation : PlacedOperation} {after : Machine}
    (found : m.resolve? layout = some (operation, after)) : ∃ pc sp, after = { m with pc, sp } := by
  rcases layout.reads_cases (m.memory.read m.pc) with
    illegal | ⟨op, a, b, decodes⟩ | ⟨op, operand, decodes⟩
  · cases (resolve?_illegal illegal).symm.trans found
  · obtain ⟨placeA, placeB, sp, resolved⟩ := resolve?_basic decodes
    cases resolved.symm.trans found
    exact ⟨_, _, rfl⟩
  · obtain ⟨place, resolved⟩ := resolve?_extended decodes
    cases resolved.symm.trans found
    exact ⟨_, _, rfl⟩

end Machine

end Dcpu
