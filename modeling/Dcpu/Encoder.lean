import Dcpu.Code
import Dcpu.Diagnostic
import Dcpu.Layout.Operand
import Dcpu.Layout.Operation
import Dcpu.Statement
import Dcpu.Text.Units

/-!
Encoding of statements as code words. The encoder decides what is written; where it goes, which
index a label has and what becomes of an error is left to the emitter that it writes to.
-/

set_option autoImplicit false

namespace Dcpu

class Emitter (m : Type → Type) where
  -- the index of a label
  lookup : Text → Position → m Nat
  write : Code → m Unit
  -- the address that the next word gets
  address : m Word
  -- keeps a difference and gives the word that stands for it
  difference : Difference → m Code
  fail : {α : Type} → Diagnostic → m α

structure EncodingRules where
  layout : Layout
  differenceLiterals : Bool
  datLengthCounting : Bool
  signedNumbers : Bool
deriving DecidableEq, Repr

namespace EncodingRules

variable {m : Type → Type} [Monad m] [Emitter m] (rules : EncodingRules)

def reject {α : Type} (position : Position) (construct : Construct) : m α :=
  Emitter.fail (.unexpected position construct)

def leastNumber : Int := if rules.signedNumbers then -0x8000 else 0

def literal (least value : Int) (position : Position) : m Code :=
  if value < least ∨ 0xffff < value then Emitter.fail ⟨position, .numericOverflow value⟩
  else pure (.literal (Word.ofInt value))

def atom : Atom → m Code
  | .number value position => literal rules.leastNumber value position
  | .character value position => literal 0 value position
  | .identifier name position => do
      let index ← Emitter.lookup name position
      return .label index
  | .difference target position =>
      if rules.differenceLiterals then do
        -- The address is that of the instruction, not that of the word the value ends up in.
        let here ← Emitter.address
        let target ← atom target
        Emitter.difference ⟨.literal here, target⟩
      else reject position .differenceLiteral
  | .absent => reject .nowhere .emptyLiteral

def expression (value : Option Expression) : m Code :=
  match value with
  | none | some ⟨.absent, _, _⟩ => reject .nowhere .missingLiteral
  | some ⟨head, none, _⟩ => rules.atom head
  | some ⟨head, some tail, position⟩ => do
      let base ← rules.atom head
      if rules.differenceLiterals then
        let target ← rules.atom tail
        Emitter.difference ⟨base, target⟩
      else reject position .differenceLiteral

def register (name : Text) (position : Position) : m Register :=
  match Register.ofName? name with
  | some r => pure r
  | none => reject position (.register name)

def literalArgument (value : Option Expression) (slot : Slot) : m (Word × Option Code) := do
  -- Plain numbers that fit go into the operand code; anything with a label takes a tail.
  let word ← rules.expression value
  if word.kind = .literal ∧ word.negated = false ∧ rules.layout.canFold slot then
    match rules.layout.shortCode? word.value with
    | some code => return (code, none)
    | none => return (Layout.literalCode, some word)
  else return (Layout.literalCode, some word)

def stackArgument (access : StackAccess) (offset : Option Expression) (position : Position) :
    m (Word × Option Code) :=
  match access with
  | .push => pure (rules.layout.pushCode, none)
  | .pop => pure (rules.layout.popCode, none)
  | .peek => pure (rules.layout.peekCode, none)
  | .pick =>
      match rules.layout.pickCode? with
      | none => reject position (.pickOnLayout rules.layout)
      | some code =>
          match offset with
          | none => reject position .pickWithoutOffset
          | some offset => do
              let word ← rules.expression (some offset)
              return (code, some word)
  | .unknown => reject position .stackOperation

def argument (slot : Slot) : Option Argument → m (Word × Option Code)
  | none => reject .nowhere .missingArgument
  | some (.register name position) => do
      let r ← register name position
      return (Layout.registerCode r, none)
  | some (.special name position) =>
      match rules.layout.special? name with
      | some r => pure (r.code, none)
      | none => reject position (.register name)
  | some (.lookup none position) => reject position .registerLookup
  | some (.lookup (some named) position) => do
      let r ← register named.name position
      return (Layout.indirectCode r, none)
  | some (.offsetLookup (some named) sign (some offset) position) => do
      let r ← register named.name position
      let word ← rules.expression (some offset)
      return (Layout.indexedCode r, some (if sign = .minus then word.negate else word))
  | some (.offsetLookup _ _ _ position) => reject position .registerOffsetLookup
  | some (.stack access offset position) => rules.stackArgument access offset position
  | some (.literal value _) => rules.literalArgument value slot
  | some (.literalLookup value _) => do
      let word ← rules.expression value
      return (Layout.directCode, some word)

def writeTail : Option Code → m Unit
  | none => pure ()
  | some word => Emitter.write word

def basic (opcode : Text) (a b : Option Argument) (position : Position) : m Unit :=
  match rules.layout.basicOpcode? opcode with
  | none => reject position (.opcode opcode)
  | some number => do
      let (codeA, tailA) ← rules.argument .a a
      let (codeB, tailB) ← rules.argument .b b
      match rules.layout.pack? ⟨number, codeA, codeB⟩ with
      | none => reject ((a.map Argument.position).getD .nowhere) (.argumentFor opcode)
      | some word =>
          Emitter.write (.instruction word)
          if rules.layout.tailBFirst then
            writeTail tailB
            writeTail tailA
          else
            writeTail tailA
            writeTail tailB

def extended (opcode : Text) (operand : Option Argument) (position : Position) : m Unit :=
  match rules.layout.extendedOpcode? opcode with
  | none => reject position (.opcode opcode)
  | some number => do
      let (code, tail) ← rules.argument .b operand
      match rules.layout.pack? ⟨Layout.extendedOpcode, number, code⟩ with
      | none => reject position (.opcode opcode)
      | some word =>
          Emitter.write (.instruction word)
          writeTail tail

def dataSize : Option DataValue → Nat
  | some (.string text _) => text.units.length
  | _ => 1

def dataSizes (values : List (Option DataValue)) : Nat :=
  values.foldr (fun value size => dataSize value + size) 0

@[specialize] def writeUnits : List Word → m Unit
  | [] => pure ()
  | unit :: rest => do
      Emitter.write (.literal unit)
      writeUnits rest

def markData (word : Code) : Code :=
  if word.kind = .label ∨ word.kind = .difference then { word with inData := true } else word

@[specialize] def data (position : Position) : List (Option DataValue) → m Unit
  | [] => pure ()
  | some (.lengthMarker place) :: rest => do
      if rules.datLengthCounting then
        let word ← literal 0 (dataSizes rest) place
        Emitter.write word
      else reject place .lengthMarker
      data position rest
  | some (.string text _) :: rest => do
      writeUnits text.units
      data position rest
  | some (.word value) :: rest => do
      let word ← rules.expression (some value)
      Emitter.write (markData word)
      data position rest
  | none :: _ => reject position .emptyDataValue

def body : Option Body → m Unit
  | some (.basic opcode a b position) => rules.basic opcode a b position
  | some (.extended opcode operand position) => rules.extended opcode operand position
  | some (.data values position) => rules.data position values
  | some (.addressFix _ position) => reject position .addressFixWithoutLabel
  | none => reject .nowhere .emptyStatement

end EncodingRules

def Body.needsLayout : Body → Bool
  | .basic .. | .extended .. => true
  | .data .. | .addressFix .. => false

end Dcpu
