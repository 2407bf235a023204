import Dcpu.Text.Digits

/-!
Documents in the part of YAML that option files are written in: mappings and sequences, in block and
in flow style, of plain and quoted scalars. Anchors, tags, directives, block scalars and complex keys
are refused.
-/

set_option autoImplicit false

namespace Dcpu

namespace Yaml

inductive Node
  | scalar (line : Nat) (quoted : Bool) (text : Text)
  | sequence (line : Nat) (items : List Node)
  | mapping (line : Nat) (entries : List (Node × Node))

inductive Stage
  | characters
  | tokens
  | nodes
deriving DecidableEq, Repr

/-- A text that is no document: the line of what was being read, that of the fault, and the fault. -/
structure SyntaxError where
  stage : Stage
  context : Nat
  line : Nat
  problem : Text
deriving DecidableEq, Repr

namespace SyntaxError

def shownLine? (e : SyntaxError) : Option Nat :=
  let line := if e.context ≠ 1 then e.context else e.line
  match e.stage with
  | .characters => none
  | .tokens => if line = 1 then none else some line
  -- Faults between nodes are counted from zero.
  | .nodes => if line = 1 then none else some (line - 1)

def message (e : SyntaxError) : Text :=
  match e.shownLine? with
  | some line => "yaml: line " ++ Text.decimal line ++ ": " ++ e.problem
  | none => "yaml: " ++ e.problem

end SyntaxError

end Yaml

end Dcpu
