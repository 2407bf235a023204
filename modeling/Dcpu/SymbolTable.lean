import Dcpu.Code
import Dcpu.Diagnostic
import Dcpu.Symbol
import Std.Data.HashMap

/-!
Symbol tables. A label gets an index when its name is first seen, and a definition, which never
changes, when it is defined: a value, or another label that it is an alias of. An alias that would
refer back to itself is refused, so every chain of aliases ends.
-/

set_option autoImplicit false

namespace Dcpu

inductive Binding
  | unbound
  | value (value : Word)
  | alias (target : Nat)
deriving DecidableEq, Repr

structure Label where
  name : Text
  -- where the name was first seen
  used : Position
  -- where the label was defined
  defined : Position
  binding : Binding
  type : SymbolType
deriving DecidableEq, Repr

namespace Label

def isAlias (l : Label) : Bool :=
  match l.binding with
  | .alias _ => true
  | _ => false

def isFixed (l : Label) : Bool :=
  match l.binding with
  | .value _ => true
  | _ => false

def isDefined (l : Label) : Bool := l.isFixed || l.isAlias

def ownValue (l : Label) : Word :=
  -- A label that has no value counts as zero.
  match l.binding with
  | .value value => value
  | _ => 0

end Label

structure SymbolTable where
  labels : Array Label
  names : Std.HashMap Text Nat

namespace SymbolTable

def empty : SymbolTable := ⟨#[], ∅⟩

def size (table : SymbolTable) : Nat := table.labels.size

def lookup (table : SymbolTable) (name : Text) (position : Position) :
    Except Diagnostic Nat × SymbolTable :=
  match table.names[name]? with
  | some index => (.ok index, table)
  | none =>
      let index := table.size
      if addressSpace ≤ index then (.error ⟨position, .oversizedImage⟩, table)
      else
        (.ok index,
          { labels := table.labels.push
              { name, used := position, defined := .nowhere, binding := .unbound
                type := .unknown }
            names := table.names.insert name index })

def resolveWithin (labels : Array Label) : Nat → Nat → Option Nat
  | 0, _ => none
  | steps + 1, index =>
      match labels[index]? with
      | none => none
      | some label =>
          match label.binding with
          | .alias target => resolveWithin labels steps target
          | _ => some index

def resolve? (table : SymbolTable) (index : Nat) : Option Nat :=
  -- A chain without a cycle passes each label once.
  resolveWithin table.labels table.size index

def target? (table : SymbolTable) (index : Nat) : Option Label :=
  match table.resolve? index with
  | some last => table.labels[last]?
  | none => none

def value (table : SymbolTable) (index : Nat) : Except Breach Word :=
  match table.target? index with
  | some label => .ok label.ownValue
  | none => .error .index

def openLabel (table : SymbolTable) (index : Nat) (position : Position) :
    Except Failure Label :=
  match table.labels[index]? with
  | none => .error (.breach .index)
  | some label =>
      if label.isDefined then
        .error (.located ⟨position, .duplicateLabel label.name label.defined⟩)
      else .ok label

def define (table : SymbolTable) (index : Nat) (binding : Binding) (position : Position) :
    SymbolTable :=
  { table with labels := table.labels.modify index fun l =>
      { l with binding, defined := position } }

def fixValue (table : SymbolTable) (index : Nat) (value : Word) (position : Position) :
    Except Failure Unit × SymbolTable :=
  match table.openLabel index position with
  | .error failure => (.error failure, table)
  | .ok _ => (.ok (), table.define index (.value value) position)

def aliasFailure? (table : SymbolTable) (index target : Nat) (label : Label)
    (position : Position) : Option Failure :=
  match table.resolve? target, table.labels[target]? with
  | some last, some other =>
      if last = index then some (.located ⟨position, .circularLabel label.name other.name⟩)
      else none
  | _, _ => some (.breach .index)

def fixAlias (table : SymbolTable) (index target : Nat) (position : Position) :
    Except Failure Unit × SymbolTable :=
  match table.openLabel index position with
  | .error failure => (.error failure, table)
  | .ok label =>
      match table.aliasFailure? index target label position with
      | some failure => (.error failure, table)
      | none => (.ok (), table.define index (.alias target) position)

def isFixed (table : SymbolTable) (index : Nat) : Bool :=
  match table.target? index with
  | some label => label.isFixed
  | none => false

def undefined? (table : SymbolTable) : Option Label :=
  (table.labels.toList.zipIdx.find? fun entry => !table.isFixed entry.2).map (·.1)

def validate (table : SymbolTable) : Except Diagnostic Unit :=
  match table.undefined? with
  | some label => .error ⟨label.used, .undefinedLabel label.name⟩
  | none => .ok ()

def typeOfCode (word : Code) : SymbolType :=
  match word.kind with
  | .instruction => .code
  | .literal => .data
  | .label => if word.inData then .data else .unknown
  | _ => .unknown

def classifyLabel (code : Array Code) (label : Label) : Label :=
  -- An alias has the type of its target, and a label past the end of the code keeps the type it
  -- has.
  if label.isAlias then label
  else
    match code[label.ownValue.toNat]? with
    | some word => { label with type := typeOfCode word }
    | none => label

def classify (table : SymbolTable) (code : Array Code) : SymbolTable :=
  { table with labels := table.labels.map (classifyLabel code) }

def symbolAt (table : SymbolTable) (label : Label) (index : Nat) : Symbol :=
  match table.target? index with
  | some last => ⟨label.name, last.ownValue, last.type⟩
  | none => ⟨label.name, 0, .unknown⟩

def symbols (table : SymbolTable) : List Symbol :=
  (table.labels.toList.zipIdx.map fun entry => table.symbolAt entry.1 entry.2).mergeSort
    fun first second => first.value ≤ second.value

end SymbolTable

end Dcpu
