import Dcpu.Dialect
import Dcpu.Text.Escaped
import Dcpu.Yaml.Parser
import Dcpu.Yaml.Scalar

set_option autoImplicit false

namespace Dcpu

inductive OptionProblem
  | unknownOption (line : Nat) (name : Text)
  | repeatedKey (line : Nat) (key : Text) (first : Nat)
  -- a value of the kind in the tag, with its text if it is a scalar, in place of another kind
  | wrongKind (line : Nat) (tag : Text) (text? : Option Text) (wanted : Text)
deriving DecidableEq, Repr

namespace OptionProblem

def shownLength : Nat := 10

def shown (t : Text) : Text :=
  if t.length ≤ shownLength then " \x60" ++ t ++ "\x60"
  else " \x60" ++ t.take (shownLength - 3) ++ "...\x60"

def message : OptionProblem → Text
  | .unknownOption line name =>
      "line " ++ Text.decimal line ++ ": field " ++ name ++ " not found in type config.Options"
  | .repeatedKey line key first =>
      "line " ++ Text.decimal line ++ ": mapping key " ++ Text.escaped key ++
        " already defined at line " ++ Text.decimal first
  | .wrongKind line tag text? wanted =>
      "line " ++ Text.decimal line ++ ": cannot unmarshal " ++ tag ++
        ((text?.map shown).getD []) ++ " into " ++ wanted

end OptionProblem

inductive DialectError
  | syntaxError (error : Yaml.SyntaxError)
  | problems (problems : List OptionProblem)
  | layout (error : AssemblyError)
deriving DecidableEq, Repr

namespace DialectError

def message : DialectError → Text
  | .syntaxError e => e.message
  | .problems ps =>
      "yaml: unmarshal errors:" ++ (ps.flatMap fun p => "\n  " ++ p.message : Text)
  | .layout e => e.message

end DialectError

namespace Dialect

open Yaml (Node)

/-- Two keys are the same if they are of one kind and have the same text. -/
def keyIdentity : Node → Nat × Text
  | .scalar _ _ text => (0, text)
  | .sequence _ _ => (1, [])
  | .mapping _ _ => (2, [])

def nodeLine : Node → Nat
  | .scalar line _ _ | .sequence line _ | .mapping line _ => line

def repeatedKeys : List (Node × Node) → List OptionProblem
  | [] => []
  | (key, _) :: rest =>
      (rest.filterMap fun (other, _) =>
        if keyIdentity key = keyIdentity other then
          some (.repeatedKey (nodeLine other) (keyIdentity other).2 (nodeLine key))
        else none) ++ repeatedKeys rest

def mismatch (wanted : Text) : Node → List OptionProblem
  | .scalar line quoted text =>
      [.wrongKind line (Yaml.scalarValue quoted text).tag (some text) wanted]
  | .sequence line _ => [.wrongKind line "!!seq" none wanted]
  | .mapping line entries =>
      -- Repeated keys come before all else.
      match repeatedKeys entries with
      | [] => [.wrongKind line "!!map" none wanted]
      | repeated => repeated

def textValue (n : Node) : Except (List OptionProblem) (Option Text) :=
  -- Any scalar is a text, null apart, which is none.
  match n with
  | .scalar _ quoted text =>
      if Yaml.scalarValue quoted text = .null then .ok none else .ok (some text)
  | _ => .error (mismatch "string" n)

def onNames : List Text := ["y", "Y", "yes", "Yes", "YES", "on", "On", "ON"]

def offNames : List Text := ["n", "N", "no", "No", "NO", "off", "Off", "OFF"]

def boolValue (n : Node) : Except (List OptionProblem) (Option Bool) :=
  -- A truth value may also be spelled as an answer or a switch, even between quotes.
  match n with
  | .scalar _ quoted text =>
      match Yaml.scalarValue quoted text with
      | .null => .ok none
      | .bool value => .ok (some value)
      | .string =>
          if onNames.contains text then .ok (some true)
          else if offNames.contains text then .ok (some false)
          else .error (mismatch "bool" n)
      | _ => .error (mismatch "bool" n)
  | _ => .error (mismatch "bool" n)

def extensionSetters : List (Text × (Dialect → Bool → Dialect)) :=
  [("signed_numbers", fun d value => { d with signedNumbers := value }),
    ("underscore_in_numbers", fun d value => { d with underscoreInNumbers := value }),
    ("binary_literals", fun d value => { d with binaryLiterals := value }),
    ("local_labels", fun d value => { d with localLabels := value }),
    ("extended_label_names", fun d value => { d with extendedLabelNames := value }),
    ("dat_length_counting", fun d value => { d with datLengthCounting := value }),
    ("difference_literals", fun d value => { d with differenceLiterals := value })]

def setOption (d : Dialect) (line : Nat) (name : Text) (value : Node) :
    Except (List OptionProblem) Dialect := do
  if name = "layout" then
    return ((← textValue value).map fun layoutName => { d with layoutName }).getD d
  else
    match extensionSetters.lookup name with
    | some set => return ((← boolValue value).map (set d)).getD d
    | none => .error [.unknownOption line name]

def setEntry (d : Dialect) (entry : Node × Node) : Except (List OptionProblem) Dialect := do
  -- A null names no option.
  match ← textValue entry.1 with
  | some name => d.setOption (nodeLine entry.1) name entry.2
  | none => return d

def setEntries (d : Dialect) (entries : List (Node × Node)) : Dialect × List OptionProblem :=
  entries.foldl (fun (d, problems) entry =>
    match d.setEntry entry with
    | .ok d => (d, problems)
    | .error more => (d, problems ++ more)) (d, [])

def setAll (d : Dialect) (root : Node) : Except (List OptionProblem) Dialect :=
  match root with
  | .mapping _ entries =>
      match repeatedKeys entries with
      | [] =>
          match d.setEntries entries with
          | (d, []) => .ok d
          | (_, problems) => .error problems
      | repeated => .error repeated
  | .scalar _ quoted text =>
      if Yaml.scalarValue quoted text = .null then .ok d
      else .error (mismatch "config.Options" root)
  | .sequence _ _ => .error (mismatch "config.Options" root)

def ofDocument (base : Dialect) (text : Text) : Except DialectError Dialect := do
  let root? ← (Yaml.document text).mapError .syntaxError
  let dialect ←
    match root? with
    | some root => (base.setAll root).mapError .problems
    | none => pure base
  -- The layout must be one that exists, even if the document does not name it.
  let _ ← dialect.layout.mapError .layout
  return dialect

end Dialect

end Dcpu
