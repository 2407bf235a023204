import Dcpu.Encoder

set_option autoImplicit false

namespace Dcpu

namespace Atom

def value (env : Text → Word) (here : Word) : Atom → Word
  | .number n _ | .character n _ => Word.ofInt n
  | .identifier name _ => env name
  | .difference target _ => target.value env here - here
  | .absent => 0

def names : Atom → List (Text × Position)
  | .identifier name position => [(name, position)]
  | .difference target _ => target.names
  | .number .. | .character .. | .absent => []

def differenceCount : Atom → Nat
  | .difference target _ => target.differenceCount + 1
  | .number .. | .character .. | .identifier .. | .absent => 0

def plain? : Atom → Option Int
  | .number n _ | .character n _ => some n
  | .identifier .. | .difference .. | .absent => none

def code (index : Text → Nat) (kept : Nat) : Atom → Code
  | .number n _ | .character n _ => .literal (Word.ofInt n)
  | .identifier name _ => .label (index name)
  | .difference target _ => .difference (kept + target.differenceCount)
  | .absent => .literal 0

end Atom

namespace Expression

def value (env : Text → Word) (here : Word) (e : Expression) : Word :=
  match e.tail with
  | none => e.head.value env here
  | some tail => tail.value env here - e.head.value env here

def names (e : Expression) : List (Text × Position) :=
  e.head.names ++ (e.tail.map Atom.names).getD []

def differenceCount (e : Expression) : Nat :=
  match e.tail with
  | none => e.head.differenceCount
  | some tail => e.head.differenceCount + tail.differenceCount + 1

def plain? (e : Expression) : Option Int :=
  match e.tail with
  | none => e.head.plain?
  | some _ => none

def code (index : Text → Nat) (kept : Nat) (e : Expression) : Code :=
  match e.tail with
  | none => e.head.code index kept
  | some tail => .difference (kept + e.head.differenceCount + tail.differenceCount)

theorem code_congr {index index' : Text → Nat} {e : Expression}
    (same : ∀ name ∈ e.names.map Prod.fst, index name = index' name) (kept : Nat) :
    e.code index kept = e.code index' kept := by
  obtain ⟨head, _ | tail, position⟩ := e
  · cases head with
    | identifier name position => exact congrArg Code.label (same name (by simp [names, Atom.names]))
    | number _ _ => rfl
    | character _ _ => rfl
    | difference _ _ => rfl
    | absent => rfl
  · rfl

theorem code_negated (index : Text → Nat) (kept : Nat) (e : Expression) :
    (e.code index kept).negated = false := by
  obtain ⟨head, _ | tail, position⟩ := e
  · cases head <;> rfl
  · rfl

def foldedCode? (layout : Layout) (slot : Slot) (e : Expression) : Option Word :=
  match e.plain? with
  | some n => if layout.canFold slot then layout.shortCode? (Word.ofInt n) else none
  | none => none

end Expression

/-- What a word of a statement is made from. Of a value it is known how many differences its
statement keeps before it. -/
inductive Part
  | instruction (word : Word)
  | literal (word : Word)
  -- the word behind an instruction
  | tail (value : Expression) (negated : Bool) (earlier : Nat)
  -- a value of a `dat`, so many words into it
  | datum (value : Expression) (offset earlier : Nat)
deriving DecidableEq, Repr

namespace Part

def word (env : Text → Word) (here : Word) : Part → Word
  | .instruction word | .literal word => word
  | .tail value negated _ => if negated then -value.value env here else value.value env here
  | .datum value offset _ => value.value env (here + offset.toUInt16)

def code (index : Text → Nat) (kept : Nat) : Part → Code
  | .instruction word => .instruction word
  | .literal word => .literal word
  | .tail value negated earlier =>
      let word := value.code index (kept + earlier)
      if negated then word.negate else word
  | .datum value _ earlier => EncodingRules.markData (value.code index (kept + earlier))

def names : Part → List Text
  | .instruction _ | .literal _ => []
  | .tail value _ _ | .datum value _ _ => value.names.map Prod.fst

theorem code_congr {index index' : Text → Nat} {part : Part}
    (same : ∀ name ∈ part.names, index name = index' name) (kept : Nat) :
    part.code index kept = part.code index' kept := by
  cases part with
  | instruction _ => rfl
  | literal _ => rfl
  | tail value _ _ => simp only [code, Expression.code_congr same]
  | datum value _ _ => simp only [code, Expression.code_congr same]

end Part

namespace Argument

def value? : Argument → Option Expression
  | .offsetLookup _ _ offset _ => offset
  | .stack .pick offset _ => offset
  | .literal value _ | .literalLookup value _ => value
  | .register .. | .special .. | .lookup .. | .stack .. => none

def names (argument : Argument) : List (Text × Position) :=
  (argument.value?.map Expression.names).getD []

def differenceCount (argument : Argument) : Nat :=
  (argument.value?.map Expression.differenceCount).getD 0

def registerOf (name : Text) : Register := (Register.ofName? name).getD .a

def fields (layout : Layout) (slot : Slot) (earlier : Nat) : Argument → Word × List Part
  | .register name _ => (Layout.registerCode (registerOf name), [])
  | .special name _ => (((layout.special? name).map SpecialRegister.code).getD 0, [])
  | .lookup named _ => (Layout.indirectCode (registerOf ((named.map RegisterName.name).getD [])), [])
  | .offsetLookup named sign offset _ =>
      (Layout.indexedCode (registerOf ((named.map RegisterName.name).getD [])),
        offset.toList.map fun value => .tail value (sign = .minus) earlier)
  | .stack .push _ _ => (layout.pushCode, [])
  | .stack .pop _ _ => (layout.popCode, [])
  | .stack .peek _ _ => (layout.peekCode, [])
  | .stack .pick offset _ =>
      (layout.pickCode?.getD 0, offset.toList.map fun value => .tail value false earlier)
  | .stack .unknown _ _ => (0, [])
  | .literal value _ =>
      match value.bind (Expression.foldedCode? layout slot) with
      | some code => (code, [])
      | none => (Layout.literalCode, value.toList.map fun value => .tail value false earlier)
  | .literalLookup value _ =>
      (Layout.directCode, value.toList.map fun value => .tail value false earlier)

def tailSize (layout : Layout) (slot : Slot) : Argument → Nat
  | .offsetLookup _ _ (some _) _ | .stack .pick (some _) _ | .literalLookup (some _) _ => 1
  | .literal (some value) _ => if (value.foldedCode? layout slot).isSome then 0 else 1
  | _ => 0

theorem length_fields (layout : Layout) (slot : Slot) (earlier : Nat) (argument : Argument) :
    (argument.fields layout slot earlier).2.length = argument.tailSize layout slot := by
  cases argument with
  | register _ _ => rfl
  | special _ _ => rfl
  | lookup _ _ => rfl
  | offsetLookup _ _ offset _ => cases offset <;> rfl
  | stack access offset _ => cases access <;> cases offset <;> rfl
  | literalLookup value _ => cases value <;> rfl
  | literal value _ =>
      cases value with
      | none => rfl
      | some value =>
          cases folded : value.foldedCode? layout slot <;> simp [fields, tailSize, folded]

end Argument

namespace Body

def dataNames : List (Option DataValue) → List (Text × Position)
  | [] => []
  | some (.word value) :: rest => value.names ++ dataNames rest
  | _ :: rest => dataNames rest

def dataDifferences : List (Option DataValue) → Nat
  | [] => 0
  | some (.word value) :: rest => value.differenceCount + dataDifferences rest
  | _ :: rest => dataDifferences rest

def names : Body → List (Text × Position)
  | .addressFix value _ => (value.map Expression.names).getD []
  | .basic _ a b _ => (a.map Argument.names).getD [] ++ (b.map Argument.names).getD []
  | .extended _ argument _ => (argument.map Argument.names).getD []
  | .data values _ => dataNames values

def differenceCount : Body → Nat
  | .addressFix value _ => (value.map Expression.differenceCount).getD 0
  | .basic _ a b _ =>
      (a.map Argument.differenceCount).getD 0 + (b.map Argument.differenceCount).getD 0
  | .extended _ argument _ => (argument.map Argument.differenceCount).getD 0
  | .data values _ => dataDifferences values

def dataParts (offset earlier : Nat) : List (Option DataValue) → List Part
  | [] => []
  | some (.string text _) :: rest =>
      text.units.map .literal ++ dataParts (offset + text.units.length) earlier rest
  | some (.lengthMarker _) :: rest =>
      .literal (EncodingRules.dataSizes rest).toUInt16 :: dataParts (offset + 1) earlier rest
  | some (.word value) :: rest =>
      .datum value offset earlier :: dataParts (offset + 1) (earlier + value.differenceCount) rest
  | none :: rest => .literal 0 :: dataParts (offset + 1) earlier rest

def argumentFields (layout : Layout) (slot : Slot) (earlier : Nat) (argument : Option Argument) :
    Word × List Part :=
  (argument.map (Argument.fields layout slot earlier)).getD (0, [])

def parts (layout : Layout) : Body → List Part
  | .addressFix .. => []
  | .basic opcode a b _ =>
      let (codeA, tailA) := argumentFields layout .a 0 a
      let (codeB, tailB) := argumentFields layout .b ((a.map Argument.differenceCount).getD 0) b
      let opcode := (layout.basicOpcode? opcode).getD 0
      .instruction ((layout.pack? ⟨opcode, codeA, codeB⟩).getD 0) ::
        if layout.tailBFirst then tailB ++ tailA else tailA ++ tailB
  | .extended opcode argument _ =>
      let (code, tail) := argumentFields layout .b 0 argument
      let number := (layout.extendedOpcode? opcode).getD 0
      .instruction ((layout.pack? ⟨Layout.extendedOpcode, number, code⟩).getD 0) :: tail
  | .data values _ => dataParts 0 0 values

def size (layout : Layout) : Body → Nat
  | .addressFix .. => 0
  | .basic _ a b _ =>
      1 + (a.map (Argument.tailSize layout .a)).getD 0 + (b.map (Argument.tailSize layout .b)).getD 0
  | .extended _ argument _ => 1 + (argument.map (Argument.tailSize layout .b)).getD 0
  | .data values _ => EncodingRules.dataSizes values

theorem length_argumentFields (layout : Layout) (slot : Slot) (earlier : Nat)
    (argument : Option Argument) :
    (argumentFields layout slot earlier argument).2.length =
      (argument.map (Argument.tailSize layout slot)).getD 0 := by
  cases argument with
  | none => rfl
  | some argument => exact argument.length_fields layout slot earlier

theorem length_dataParts (offset earlier : Nat) (values : List (Option DataValue)) :
    (dataParts offset earlier values).length = EncodingRules.dataSizes values := by
  induction values generalizing offset earlier with
  | nil => rfl
  | cons value rest ih =>
      obtain _ | _ | _ | _ := value <;>
        simp [dataParts, ih, EncodingRules.dataSizes, EncodingRules.dataSize, Nat.add_comm]

theorem length_parts (layout : Layout) (body : Body) :
    (body.parts layout).length = body.size layout := by
  cases body with
  | addressFix _ _ => rfl
  | basic _ a b _ =>
      simp only [parts, size, List.length_cons, apply_ite List.length, List.length_append,
        length_argumentFields]
      split <;> omega
  | extended _ argument _ =>
      simp only [parts, size, List.length_cons, length_argumentFields]
      omega
  | data values _ => exact length_dataParts 0 0 values

end Body

end Dcpu
