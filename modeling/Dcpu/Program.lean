import Dcpu.Code.Evaluate
import Dcpu.Dialect
import Dcpu.Encoder

set_option autoImplicit false

namespace Dcpu

structure Program where
  symbols : SymbolTable
  code : Array Code
  differences : Array Difference
  localLabels : Bool
  -- the last label that is not local; local names belong to it
  scope : Text

structure Assembly where
  image : Array Word
  symbols : List Symbol
deriving DecidableEq, Repr

namespace Program

abbrev Writer := StateT Program (Except Failure)

/-- What local names before the first label belong to. -/
def outerScope : Text := "__GLOBAL__"

def empty (localLabels : Bool) : Program :=
  { symbols := .empty, code := #[], differences := #[], localLabels, scope := outerScope }

def isLocal (program : Program) (name : Text) : Bool :=
  program.localLabels && name.head? == some 0x2e

def qualify (program : Program) (name : Text) : Text :=
  if program.isLocal name then program.scope ++ name else name

def address (program : Program) : Word := program.code.size.toUInt16

def index (program : Program) (name : Text) (position : Position) :
    Except Failure (Nat × Program) :=
  match program.symbols.lookup name position with
  | (.ok index, symbols) => .ok (index, { program with symbols })
  | (.error diagnostic, _) => .error (.located diagnostic)

def laterOperand? (program : Program) (operand : Code) : Option Breach :=
  -- A difference may refer only to those kept before it.
  if operand.kind = .difference ∧ program.differences.size ≤ operand.value.toNat then
    some (.laterDifference program.differences.size operand.value.toNat)
  else none

def keepDifference (program : Program) (difference : Difference) :
    Except Failure (Code × Program) :=
  match program.laterOperand? difference.base, program.laterOperand? difference.target with
  | some breach, _ | none, some breach => .error (.breach breach)
  | none, none =>
      .ok (.difference program.differences.size,
        { program with differences := program.differences.push difference })

instance : Emitter Writer where
  lookup name position := fun program => program.index (program.qualify name) position
  write word := fun program => .ok ((), { program with code := program.code.push word })
  address := fun program => .ok (program.address, program)
  difference difference := fun program => program.keepDifference difference
  fail diagnostic := fun _ => .error (.located diagnostic)

def define (program : Program) (label : LabelDefinition) : Except Failure (Nat × Program) :=
  let name := program.qualify label.name
  if program.isLocal label.name then program.index name label.position
  -- A label that is not local opens a scope.
  else { program with scope := label.name }.index name label.position

def fixValue (program : Program) (index : Nat) (value : Word) (position : Position) :
    Except Failure Program :=
  match program.symbols.fixValue index value position with
  | (.ok (), symbols) => .ok { program with symbols }
  | (.error failure, _) => .error failure

def fixAlias (program : Program) (index target : Nat) (position : Position) :
    Except Failure Program :=
  match program.symbols.fixAlias index target position with
  | (.ok (), symbols) => .ok { program with symbols }
  | (.error failure, _) => .error failure

def fixAddress (program : Program) (rules : EncodingRules) (index : Nat)
    (value : Option Expression) (place position : Position) : Except Failure Program := do
  let write : Writer Code := rules.expression value
  let (word, program) ← write.run program
  match word.kind with
  | .literal => program.fixValue index word.value position
  | .label => program.fixAlias index word.value.toNat position
  | .difference => .error (.located ⟨place, .differenceFix⟩)
  | _ => .error (.located (.unexpected place .addressFix))

def writeBody (program : Program) (rules : EncodingRules) (body : Body) (position : Position) :
    Except Failure Program := do
  let write : Writer Unit := rules.body (some body)
  let ((), program) ← write.run program
  if addressSpace < program.code.size ∨ addressSpace < program.differences.size then
    .error (.located ⟨position, .oversizedImage⟩)
  else return program

def writeBody? (program : Program) (rules : EncodingRules) (body : Option Body)
    (position : Position) : Except Failure Program :=
  match body with
  | none => .ok program
  | some body => program.writeBody rules body position

def writeStatement (program : Program) (rules : EncodingRules) (statement : Statement) :
    Except Failure Program :=
  match statement.label, statement.body with
  | none, some (.addressFix _ place) =>
      .error (.located (.unexpected place .addressFixWithoutLabel))
  | none, body => program.writeBody? rules body statement.position
  | some label, some (.addressFix value place) => do
      let (index, program) ← program.define label
      program.fixAddress rules index value place label.position
  | some label, body => do
      let (index, program) ← program.define label
      let here := program.address
      let program ← program.fixValue index here label.position
      program.writeBody? rules body statement.position

def writeStatements (program : Program) (rules : EncodingRules) :
    List Statement → Except Failure Program
  | [] => .ok program
  | statement :: rest =>
      match program.writeStatement rules statement with
      | .ok program => program.writeStatements rules rest
      | .error failure => .error failure

def fixBound (program : Program) (name : Text) (value : Word) : Except Failure Program := do
  let (index, program) ← program.index name .nowhere
  program.fixValue index value .nowhere

def finish (program : Program) : Except Failure Assembly := do
  let program ← program.fixBound Symbol.codeStart 0
  let program ← program.fixBound Symbol.codeEnd program.address
  match program.symbols.validate with
  | .error diagnostic => .error (.located diagnostic)
  | .ok () =>
      let symbols := program.symbols.classify program.code
      match Code.evaluateAll program.code symbols program.differences with
      | .error breach => .error (.breach breach)
      | .ok image => return ⟨image, symbols.symbols⟩

end Program

namespace AssemblyRules

def chosenLayout (rules : AssemblyRules) : Except Failure Layout :=
  -- The number 0 stands for the default.
  if rules.layout.value = 0 then .ok Layout.default
  else
    match rules.layout.layout? with
    | some layout => .ok layout
    | none => .error (.rejected (.invalidLayout rules.layout.value))

def encodingRules (rules : AssemblyRules) (layout : Layout) : EncodingRules where
  layout := layout
  differenceLiterals := rules.differenceLiterals
  datLengthCounting := rules.datLengthCounting
  signedNumbers := rules.signedNumbers

end AssemblyRules

namespace Assembly

def ofStatements (rules : AssemblyRules) (statements : List Statement) :
    Except Failure Assembly := do
  let layout ← rules.chosenLayout
  let program ←
    (Program.empty rules.localLabels).writeStatements (rules.encodingRules layout) statements
  program.finish

end Assembly

end Dcpu
