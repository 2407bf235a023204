import Dcpu.Proofs.AsciiText
import Dcpu.Proofs.DecodeOperand
import Dcpu.Proofs.EncodeBody
import Dcpu.Proofs.InstructionWord
import Dcpu.Proofs.ReadInstruction

set_option autoImplicit false

namespace Dcpu

/-- Values for the labels and differences that code words refer to. -/
structure Assignment where
  label : Word → Word
  difference : Word → Word

def Code.resolve (σ : Assignment) (code : Code) : Word :=
  let value :=
    match code.kind with
    | .label => σ.label code.value
    | .difference => σ.difference code.value
    | _ => code.value
  if code.negated then -value else value

namespace Argument

def negates : Argument → Bool
  | .offsetLookup _ .minus _ _ => true
  | _ => false

def resolve (σ : Assignment) (index : Text → Nat) (kept : Nat) (argument : Argument) : Word :=
  match argument.value? with
  | none => 0
  | some e =>
      if argument.negates then -(e.code index kept).resolve σ else (e.code index kept).resolve σ

end Argument

namespace Part

theorem resolve_tail (σ : Assignment) (index : Text → Nat) (kept earlier : Nat) (e : Expression)
    (negated : Bool) :
    (Part.code index kept (.tail e negated earlier)).resolve σ =
      if negated then -(e.code index (kept + earlier)).resolve σ
      else (e.code index (kept + earlier)).resolve σ := by
  have plain := Expression.code_negated index (kept + earlier) e
  cases negated with
  | false => rfl
  | true => simp [code, Code.negate, Code.resolve, plain]

end Part

namespace Argument

variable {rules : EncodingRules} {argument : Argument}

theorem resolve_fields (formed : argument.WellFormed rules) (σ : Assignment)
    (index : Text → Nat) (slot : Slot) (kept earlier : Nat) :
    ((argument.fields rules.layout slot earlier).2.map (Part.code index kept)).map (Code.resolve σ) =
      (argument.operand rules.layout slot).tail (argument.resolve σ index (kept + earlier)) := by
  cases argument with
  | register _ _ => rfl
  | special name _ =>
      obtain ⟨r, known⟩ := Option.isSome_iff_exists.1 formed
      simp only [operand, known]
      cases r <;> rfl
  | lookup _ _ => rfl
  | offsetLookup named sign offset _ =>
      obtain ⟨_, e, rfl, _⟩ := formed
      have negated : decide (sign = .minus) =
          negates (.offsetLookup named sign (some e) ‹Position›) := by
        cases sign <;> rfl
      simp only [fields, Option.toList_some, List.map_singleton, Part.resolve_tail, negated]
      rfl
  | stack access offset _ =>
      cases access with
      | unknown => exact absurd formed id
      | push => cases rules.layout <;> cases slot <;> rfl
      | pop => cases rules.layout <;> cases slot <;> rfl
      | peek => rfl
      | pick =>
          obtain ⟨_, e, rfl, _⟩ := formed
          rfl
  | literalLookup value _ =>
      obtain ⟨e, rfl, _⟩ := formed
      rfl
  | literal value _ =>
      obtain ⟨e, rfl, _⟩ := formed
      simp only [fields, operand, Option.bind_some]
      -- A value in the operand code leaves no word behind the instruction.
      cases folded : e.foldedCode? rules.layout slot with
      | none => cases e.plain? <;> rfl
      | some code =>
          cases plain : e.plain? with
          | none => simp [Expression.foldedCode?, plain] at folded
          | some n => rfl

theorem tail_fields (formed : argument.WellFormed rules) (slot : Slot) (earlier : Nat)
    (word : Part → Word) :
    ∃ value, (argument.fields rules.layout slot earlier).2.map word =
      (argument.operand rules.layout slot).tail value := by
  have count : (argument.fields rules.layout slot earlier).2.length =
      ((argument.operand rules.layout slot).tail 0).length := by
    have same := congrArg List.length
      (resolve_fields formed ⟨fun _ => 0, fun _ => 0⟩ (fun _ => 0) slot 0 earlier)
    rw [List.length_map, List.length_map] at same
    rw [same, Operand.length_tail, Operand.length_tail]
  rw [Operand.length_tail] at count
  by_cases has : (argument.operand rules.layout slot).hasTail = true
  · rw [if_pos has] at count
    obtain ⟨part, parts⟩ := List.length_eq_one_iff.1 count
    exact ⟨word part, by rw [parts, Operand.tail, if_pos has, List.map_singleton]⟩
  · rw [if_neg has] at count
    exact ⟨0, by rw [List.length_eq_zero_iff.1 count, Operand.tail, if_neg has, List.map_nil]⟩

def LiteralKept (layout : Layout) (slot : Slot) (value : Word) (argument : Argument) : Prop :=
  ∀ (e : Option Expression) (position : Position) (m : Machine), argument = .literal e position →
    (argument.operand layout slot).placeWith m value = .literal value

theorem literalKept (σ : Assignment) (index : Text → Nat) (layout : Layout) (slot : Slot)
    (kept : Nat) (argument : Argument) :
    argument.LiteralKept layout slot (argument.resolve σ index kept) := by
  intro e position m written
  subst written
  cases e with
  | none => rfl
  | some e =>
      simp only [operand, Option.bind_some]
      cases plain : e.plain? with
      | none => rfl
      | some n =>
          cases e.foldedCode? layout slot with
          | none => rfl
          | some _ =>
              -- A folded literal is in the code as the value it has under every assignment.
              have same : resolve σ index kept (.literal (some e) position) = Word.ofInt n := by
                simp only [resolve, value?, EncodingRules.code_of_plain plain]
                rfl
              rw [same]
              rfl

end Argument

namespace Layout

variable {layout : Layout} {word : Word} {a b operand : Operand} {valueA valueB value : Word}

/-- Words that every reader takes for a basic operation on two operands with these values. -/
structure ReadsBasic (layout : Layout) (words : List Word) (op : BasicOp) (a b : Operand)
    (valueA valueB : Word) : Prop where
  decodes : ∃ word, words = word :: layout.tails a b valueA valueB ∧ layout.DecodesBasic word op a b
  flagged : ∀ word ∈ words.head?, words.length =
    1 + (if layout.codeHasTail .a (layout.unpack word).a then 1 else 0) +
      if layout.codeHasTail .b (layout.unpack word).b then 1 else 0
  step : ∀ m : Machine, m.memory.Holds m.pc words →
    m.step layout =
      let (placeA, placeB, after) := m.resolved layout a b valueA valueB
        (m.pc + words.length.toUInt16)
      (after.basic layout op placeA placeB).map fun after => ((after.noteHalt m.pc).deliver, none)
  skip : ∀ (memory : Memory) (pc : Word), memory.Holds pc words →
    Machine.passOver layout memory pc =
      (pc + words.length.toUInt16, decide (layout = .v2 ∧ op.isConditional))
  listed : ∀ (notes : Notes) (address word : Word) (tails rest : List Word), words = word :: tails →
    (Listing.line layout notes false address word (tails ++ rest)).words = words

structure ReadsExtended (layout : Layout) (words : List Word) (op : ExtendedOp)
    (operand : Operand) (value : Word) : Prop where
  decodes : ∃ word, words = word :: operand.tail value ∧ layout.DecodesExtended word op operand
  flagged : ∀ word ∈ words.head?, words.length =
    1 + if layout.codeHasTail .b (layout.unpack word).b then 1 else 0
  step : ∀ m : Machine, m.memory.Holds m.pc words →
    m.step layout =
      let after : Machine :=
        { m with pc := m.pc + words.length.toUInt16, sp := operand.stackAfter m.sp }
      match after.extended op (operand.placeWith m value) m.pc with
      | (after, some e) => some (after, some e)
      | (after, none) => some ((after.noteHalt m.pc).deliver, none)
  skip : ∀ (memory : Memory) (pc : Word), memory.Holds pc words →
    Machine.passOver layout memory pc = (pc + words.length.toUInt16, false)
  listed : ∀ (notes : Notes) (address word : Word) (tails rest : List Word), words = word :: tails →
    (Listing.line layout notes false address word (tails ++ rest)).words = words

theorem DecodesBasic.reads {op : BasicOp} (decodes : layout.DecodesBasic word op a b)
    (valueA valueB : Word) :
    layout.ReadsBasic (word :: layout.tails a b valueA valueB) op a b valueA valueB where
  decodes := ⟨word, rfl, decodes⟩
  flagged first there := by
    obtain rfl : word = first := Option.some.inj there
    rw [codeHasTail_eq decodes.first, codeHasTail_eq decodes.second, List.length_cons, length_tails]
    omega
  step _ holds := decodes.step_eq holds
  skip _ _ holds := decodes.passOver_eq holds
  listed notes address word' tails rest same := by
    obtain ⟨rfl, rfl⟩ := List.cons.inj same
    exact decodes.line_eq notes address rest

theorem DecodesExtended.reads {op : ExtendedOp} (decodes : layout.DecodesExtended word op operand)
    (value : Word) : layout.ReadsExtended (word :: operand.tail value) op operand value where
  decodes := ⟨word, rfl, decodes⟩
  flagged first there := by
    obtain rfl : word = first := Option.some.inj there
    rw [codeHasTail_eq decodes.operand, List.length_cons, Operand.length_tail, Nat.add_comm]
  step _ holds := decodes.step_eq holds
  skip _ _ holds := decodes.passOver_eq holds
  listed notes address word' tails rest same := by
    obtain ⟨rfl, rfl⟩ := List.cons.inj same
    exact decodes.line_eq notes address rest

end Layout

namespace Body

def ReadsBack (layout : Layout) (σ : Assignment) (index : Text → Nat) (kept : Nat)
    (words : List Word) : Body → Prop
  | .basic opcode (some a) (some b) _ =>
      let valueA := a.resolve σ index kept
      let valueB := b.resolve σ index (kept + a.differenceCount)
      (∃ op, op.mnemonic = opcode.lower ∧
        layout.ReadsBasic words op (a.operand layout .a) (b.operand layout .b) valueA valueB) ∧
        a.LiteralKept layout .a valueA ∧ b.LiteralKept layout .b valueB
  | .extended opcode (some argument) _ =>
      let value := argument.resolve σ index kept
      (∃ op, op.mnemonic = opcode.lower ∧
        layout.ReadsExtended words op (argument.operand layout .b) value) ∧
        argument.LiteralKept layout .b value
  | _ => False

variable {rules : EncodingRules} {body : Body} {opcode : Text} {position : Position}

theorem parts_basic (position : Position) {a b : Argument} {number : Word}
    (known : rules.layout.basicOpcode? opcode = some number) (formedA : a.WellFormed rules)
    (formedB : b.WellFormed rules) :
    ∃ word op, op.mnemonic = opcode.lower ∧
      rules.layout.DecodesBasic word op (a.operand rules.layout .a) (b.operand rules.layout .b) ∧
      (basic opcode (some a) (some b) position).parts rules.layout = .instruction word ::
        if rules.layout.tailBFirst then
          (b.fields rules.layout .b a.differenceCount).2 ++ (a.fields rules.layout .a 0).2
        else (a.fields rules.layout .a 0).2 ++ (b.fields rules.layout .b a.differenceCount).2 := by
  obtain ⟨word, packed⟩ := Layout.pack?_eq_some (Layout.basicOpcode?_lt known)
    (a.fields_lt rules.layout .a 0) (b.fields_lt rules.layout .b a.differenceCount)
  obtain ⟨basic, op, operation, mnemonic⟩ := Layout.basicOp?_of_basicOpcode? known
  have unpacked := Layout.unpack_of_pack? packed
  have decodes : rules.layout.DecodesBasic word op (a.operand rules.layout .a)
      (b.operand rules.layout .b) :=
    { basic := by rwa [unpacked]
      operation := by rwa [unpacked]
      first := by rw [unpacked]; exact Argument.decode?_fields formedA .a 0
      second := by rw [unpacked]; exact Argument.decode?_fields formedB .b a.differenceCount }
  refine ⟨word, op, mnemonic, decodes, ?_⟩
  simp only [parts, argumentFields, known, packed, Option.map_some, Option.getD_some]

theorem readsBack_basic {a b : Argument} {number : Word}
    (known : rules.layout.basicOpcode? opcode = some number) (formedA : a.WellFormed rules)
    (formedB : b.WellFormed rules) (σ : Assignment) (index : Text → Nat) (kept : Nat) :
    (basic opcode (some a) (some b) position).ReadsBack rules.layout σ index kept
      ((((basic opcode (some a) (some b) position).parts rules.layout).map
        (Part.code index kept)).map (Code.resolve σ)) := by
  obtain ⟨word, op, mnemonic, decodes, parts⟩ := parts_basic position known formedA formedB
  -- The encoder and the readers go by the same order, so a tail stands where it is looked for.
  have words : ((((Body.basic opcode (some a) (some b) position).parts rules.layout).map
      (Part.code index kept)).map (Code.resolve σ)) =
        word :: rules.layout.tails (a.operand rules.layout .a) (b.operand rules.layout .b)
          (a.resolve σ index kept) (b.resolve σ index (kept + a.differenceCount)) := by
    have tailA := Argument.resolve_fields formedA σ index .a kept 0
    have tailB := Argument.resolve_fields formedB σ index .b kept a.differenceCount
    rw [kept.add_zero] at tailA
    rw [Layout.tails, ← tailA, ← tailB, parts]
    cases rules.layout.tailBFirst with
    | true => simp only [if_true, List.map_cons, List.map_append]; rfl
    | false => simp only [Bool.false_eq_true, if_false, List.map_cons, List.map_append]; rfl
  rw [words]
  exact ⟨⟨op, mnemonic, decodes.reads _ _⟩, a.literalKept σ index _ _ _, b.literalKept σ index _ _ _⟩

theorem parts_extended (position : Position) {argument : Argument} {number : Word}
    (known : rules.layout.extendedOpcode? opcode = some number)
    (formed : argument.WellFormed rules) :
    ∃ word op, op.mnemonic = opcode.lower ∧
      rules.layout.DecodesExtended word op (argument.operand rules.layout .b) ∧
      (extended opcode (some argument) position).parts rules.layout =
        .instruction word :: (argument.fields rules.layout .b 0).2 := by
  have zero : Layout.extendedOpcode.toNat < 2 ^ rules.layout.opcodeBits := Nat.two_pow_pos _
  obtain ⟨word, packed⟩ := Layout.pack?_eq_some zero (Layout.extendedOpcode?_lt known)
    (argument.fields_lt rules.layout .b 0)
  obtain ⟨op, operation, mnemonic⟩ := Layout.extendedOp?_of_extendedOpcode? known
  have unpacked := Layout.unpack_of_pack? packed
  have decodes : rules.layout.DecodesExtended word op (argument.operand rules.layout .b) :=
    { extended := by rw [unpacked]
      operation := by rwa [unpacked]
      operand := by rw [unpacked]; exact Argument.decode?_fields formed .b 0 }
  refine ⟨word, op, mnemonic, decodes, ?_⟩
  simp only [parts, argumentFields, known, packed, Option.map_some, Option.getD_some]

theorem words_basic (position : Position) {a b : Argument} {number : Word}
    (known : rules.layout.basicOpcode? opcode = some number) (formedA : a.WellFormed rules)
    (formedB : b.WellFormed rules) (env : Text → Word) (here : Word) :
    ∃ word op valueA valueB,
      rules.layout.DecodesBasic word op (a.operand rules.layout .a) (b.operand rules.layout .b) ∧
      ((basic opcode (some a) (some b) position).parts rules.layout).map (Part.word env here) =
        word :: rules.layout.tails (a.operand rules.layout .a) (b.operand rules.layout .b)
          valueA valueB := by
  obtain ⟨word, op, _, decodes, parts⟩ := parts_basic position known formedA formedB
  obtain ⟨valueA, tailA⟩ := Argument.tail_fields formedA .a 0 (Part.word env here)
  obtain ⟨valueB, tailB⟩ := Argument.tail_fields formedB .b a.differenceCount (Part.word env here)
  refine ⟨word, op, valueA, valueB, decodes, ?_⟩
  rw [parts, Layout.tails, ← tailA, ← tailB, List.map_cons, apply_ite (List.map _),
    List.map_append, List.map_append]
  rfl

theorem words_extended (position : Position) {argument : Argument} {number : Word}
    (known : rules.layout.extendedOpcode? opcode = some number)
    (formed : argument.WellFormed rules) (env : Text → Word) (here : Word) :
    ∃ word op value, rules.layout.DecodesExtended word op (argument.operand rules.layout .b) ∧
      ((extended opcode (some argument) position).parts rules.layout).map (Part.word env here) =
        word :: (argument.operand rules.layout .b).tail value := by
  obtain ⟨word, op, _, decodes, parts⟩ := parts_extended position known formed
  obtain ⟨value, tail⟩ := Argument.tail_fields formed .b 0 (Part.word env here)
  refine ⟨word, op, value, decodes, ?_⟩
  rw [parts, ← tail, List.map_cons]
  rfl

theorem readsBack_extended {argument : Argument} {number : Word}
    (known : rules.layout.extendedOpcode? opcode = some number) (formed : argument.WellFormed rules)
    (σ : Assignment) (index : Text → Nat) (kept : Nat) :
    (extended opcode (some argument) position).ReadsBack rules.layout σ index kept
      ((((extended opcode (some argument) position).parts rules.layout).map
        (Part.code index kept)).map (Code.resolve σ)) := by
  obtain ⟨word, op, mnemonic, decodes, parts⟩ := parts_extended position known formed
  have words : ((((extended opcode (some argument) position).parts rules.layout).map
      (Part.code index kept)).map (Code.resolve σ)) =
        word :: (argument.operand rules.layout .b).tail (argument.resolve σ index kept) := by
    have tail := Argument.resolve_fields formed σ index .b kept 0
    rw [kept.add_zero] at tail
    rw [← tail, parts]
    rfl
  rw [words]
  exact ⟨⟨op, mnemonic, decodes.reads _⟩, argument.literalKept σ index _ _ _⟩

theorem readsBack_parts (formed : body.WellFormed rules) (instruction : body.needsLayout = true)
    (σ : Assignment) (index : Text → Nat) (kept : Nat) :
    body.ReadsBack rules.layout σ index kept
      (((body.parts rules.layout).map (Part.code index kept)).map (Code.resolve σ)) := by
  cases body with
  | addressFix _ _ => simp [needsLayout] at instruction
  | data _ _ => simp [needsLayout] at instruction
  | basic _ a b _ =>
      obtain ⟨named, ⟨a, rfl, formedA⟩, ⟨b, rfl, formedB⟩⟩ := formed
      obtain ⟨number, known⟩ := Option.isSome_iff_exists.1 named
      exact readsBack_basic known formedA formedB σ index kept
  | extended _ argument _ =>
      obtain ⟨named, argument, rfl, formed⟩ := formed
      obtain ⟨number, known⟩ := Option.isSome_iff_exists.1 named
      exact readsBack_extended known formed σ index kept

end Body

namespace Program

variable {rules : EncodingRules} {body : Body} {p q : Program}

theorem encoded_reads_back (valid : p.symbols.Valid) (instruction : body.needsLayout = true)
    (encoded : (rules.body (some body) : Writer Unit) p = .ok ((), q)) (σ : Assignment) :
    ∃ codes, q.code.toList = p.code.toList ++ codes ∧
      body.ReadsBack rules.layout σ q.indexOf p.differences.size (codes.map (Code.resolve σ)) := by
  have unfixed (value : Option Expression) (position : Position) :
      body ≠ .addressFix value position := by
    rintro rfl
    simp [Body.needsLayout] at instruction
  have outcome := EncodingRules.body_outcome rules body valid unfixed
  rw [encoded] at outcome
  obtain ⟨⟨formed, _⟩, written⟩ := outcome.of_ok
  exact ⟨_, written.wrote.code, Body.readsBack_parts formed instruction σ q.indexOf _⟩

/-- `SET POP, start`, which `v2` reads as a push. -/
def sampleInstruction : Body :=
  .basic "SET" (some (.stack .pop none .nowhere))
    (some (.literal (some ⟨.identifier "start" .nowhere, none, .nowhere⟩) .nowhere)) .nowhere

theorem encoded_reads_back_sample :
    ∃ (q : Program) (word : Word),
      (EncodingRules.body ⟨.v2, true, true, true⟩ (some sampleInstruction) : Writer Unit)
        (empty false) = .ok ((), q) ∧
      q.code.toList.map (Code.resolve ⟨fun _ => 7, fun _ => 0⟩) = [word, 7] ∧
      Layout.v2.DecodesBasic word .set .push .literal := by
  have lowered : Text.lower "SET" = "set" := Text.lower_of_ascii (by decide)
  have formed : sampleInstruction.WellFormed ⟨.v2, true, true, true⟩ := by
    have known : (Layout.v2.basicOpcode? "SET").isSome = true := by
      rw [Layout.basicOpcode?, Layout.basicEntry?, lowered]
      decide
    simp [sampleInstruction, Body.WellFormed, Argument.WellFormed, Expression.WellFormed,
      Atom.WellFormed, known]
  have fits : (empty false).Fits sampleInstruction.names := by
    have nothing (name : Text) : name ∈ SymbolTable.empty.names ↔ name ∈ ([] : List Text) := by
      simp [SymbolTable.empty]
    rw [Fits, empty, SymbolTable.size_noteAll nothing rfl]
    decide
  have outcome := EncodingRules.body_outcome ⟨.v2, true, true, true⟩ sampleInstruction
    (p := empty false) SymbolTable.valid_empty (by simp [sampleInstruction])
  obtain ⟨⟨_, q⟩, encoded⟩ := outcome.isOk_iff.2 ⟨formed, fits⟩
  obtain ⟨codes, written, ⟨op, mnemonic, reads⟩, _⟩ :=
    encoded_reads_back SymbolTable.valid_empty rfl encoded ⟨fun _ => 7, fun _ => 0⟩
  obtain ⟨word, words, decodes⟩ := reads.decodes
  obtain rfl : op = .set := by
    rw [lowered] at mnemonic
    revert mnemonic
    cases op <;> decide
  exact ⟨q, word, encoded, written ▸ words, decodes⟩

end Program

end Dcpu
