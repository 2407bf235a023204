import Dcpu.Yaml.Characters
import Dcpu.Yaml.Scanner

set_option autoImplicit false

namespace Dcpu

namespace Yaml

def unexpected {α : Type} (context : Nat) (t : Token) (problem : Text) : Except SyntaxError α :=
  match t.kind with
  | .fault e => .error e
  | _ => .error ⟨.nodes, context, t.line, problem⟩

def noToken {α : Type} : Except SyntaxError α := .error ⟨.nodes, 1, 1, "unknown problem"⟩

def absent (t : Token) : Node := .scalar t.line false []

def endsBlockItem : TokenKind → Bool
  | .dash | .blockEnd => true
  | _ => false

def endsBlockEntry : TokenKind → Bool
  | .key | .value | .blockEnd => true
  | _ => false

def endsIndentlessItem (k : TokenKind) : Bool := k == .dash || endsBlockEntry k

def endsFlowItem : TokenKind → Bool
  | .comma | .flowSequenceEnd => true
  | _ => false

def endsFlowEntry : TokenKind → Bool
  | .comma | .flowMappingEnd => true
  | _ => false

mutual

def node (fuel : Nat) (block indentless : Bool) (ts : List Token) :
    Except SyntaxError (Node × List Token) :=
  -- Block collections stand only in blocks, and a block sequence without an indentation of its own
  -- only as a value of a mapping.
  match fuel, ts with
  | 0, _ => noToken
  | _, [] => noToken
  | fuel + 1, t :: rest =>
      match t.kind with
      | .scalar quoted text => .ok (.scalar t.line quoted text, rest)
      | .flowSequenceStart => flowItems fuel t.line [] true rest
      | .flowMappingStart => flowEntries fuel t.line [] true rest
      | .blockSequenceStart =>
          if block then blockItems fuel t.line [] rest
          else unexpected t.line t "did not find expected node content"
      | .blockMappingStart =>
          if block then blockEntries fuel t.line [] rest
          else unexpected t.line t "did not find expected node content"
      | .dash =>
          if indentless then indentlessItems fuel t.line [] ts
          else unexpected t.line t "did not find expected node content"
      | _ => unexpected t.line t "did not find expected node content"

def nodeUnless (fuel : Nat) (ends : TokenKind → Bool) (block indentless : Bool) (ts : List Token) :
    Except SyntaxError (Node × List Token) :=
  match fuel, ts with
  | 0, _ => noToken
  | _, [] => noToken
  | fuel + 1, t :: rest =>
      if ends t.kind then .ok (absent t, t :: rest) else node fuel block indentless (t :: rest)

def blockItems (fuel : Nat) (line : Nat) (found : List Node) (ts : List Token) :
    Except SyntaxError (Node × List Token) :=
  match fuel, ts with
  | 0, _ => noToken
  | _, [] => noToken
  | fuel + 1, t :: rest =>
      match t.kind with
      | .dash => do
          let (item, rest) ← nodeUnless fuel endsBlockItem true false rest
          blockItems fuel line (item :: found) rest
      | .blockEnd => .ok (.sequence line found.reverse, rest)
      | _ => unexpected line t "did not find expected '-' indicator"

def indentlessItems (fuel : Nat) (line : Nat) (found : List Node) (ts : List Token) :
    Except SyntaxError (Node × List Token) :=
  match fuel, ts with
  | 0, _ => noToken
  | _, [] => noToken
  | fuel + 1, t :: rest =>
      match t.kind with
      | .dash => do
          let (item, rest) ← nodeUnless fuel endsIndentlessItem true false rest
          indentlessItems fuel line (item :: found) rest
      | .fault e => .error e
      | _ => .ok (.sequence line found.reverse, t :: rest)

def blockEntries (fuel : Nat) (line : Nat) (found : List (Node × Node)) (ts : List Token) :
    Except SyntaxError (Node × List Token) :=
  match fuel, ts with
  | 0, _ => noToken
  | _, [] => noToken
  | fuel + 1, t :: rest =>
      match t.kind with
      | .key => do
          let (key, rest) ← nodeUnless fuel endsBlockEntry true true rest
          let (value, rest) ← entryValue fuel endsBlockEntry true rest
          blockEntries fuel line ((key, value) :: found) rest
      | .blockEnd => .ok (.mapping line found.reverse, rest)
      | _ => unexpected line t "did not find expected key"

def entryValue (fuel : Nat) (ends : TokenKind → Bool) (block : Bool) (ts : List Token) :
    Except SyntaxError (Node × List Token) :=
  -- Without a colon the value is empty.
  match fuel, ts with
  | 0, _ => noToken
  | _, [] => noToken
  | fuel + 1, t :: rest =>
      match t.kind with
      | .value => nodeUnless fuel ends block block rest
      | .fault e => .error e
      | _ => .ok (absent t, t :: rest)

def flowItems (fuel : Nat) (line : Nat) (found : List Node) (first : Bool) (ts : List Token) :
    Except SyntaxError (Node × List Token) :=
  -- A key makes a mapping of one entry.
  match fuel, ts with
  | 0, _ => noToken
  | _, [] => noToken
  | fuel + 1, t :: rest =>
      if t.kind = .flowSequenceEnd then .ok (.sequence line found.reverse, rest)
      else if !first ∧ t.kind ≠ .comma then unexpected line t "did not find expected ',' or ']'"
      else
        match if first then t :: rest else rest with
        | [] => noToken
        | t :: rest =>
            match t.kind with
            | .flowSequenceEnd => .ok (.sequence line found.reverse, rest)
            | .key => do
                let (key, rest) ← nodeUnless fuel
                  (fun k => k == .value || endsFlowItem k) false false rest
                let (value, rest) ← entryValue fuel endsFlowItem false rest
                flowItems fuel line (.mapping t.line [(key, value)] :: found) false rest
            | _ => do
                let (item, rest) ← node fuel false false (t :: rest)
                flowItems fuel line (item :: found) false rest

def flowEntries (fuel : Nat) (line : Nat) (found : List (Node × Node)) (first : Bool)
    (ts : List Token) : Except SyntaxError (Node × List Token) :=
  match fuel, ts with
  | 0, _ => noToken
  | _, [] => noToken
  | fuel + 1, t :: rest =>
      if t.kind = .flowMappingEnd then .ok (.mapping line found.reverse, rest)
      else if !first ∧ t.kind ≠ .comma then
        unexpected line t "did not find expected ',' or '\x7d'"
      else
        match if first then t :: rest else rest with
        | [] => noToken
        | t :: rest =>
            match t.kind with
            | .flowMappingEnd => .ok (.mapping line found.reverse, rest)
            | .key => do
                let (key, rest) ← nodeUnless fuel
                  (fun k => k == .value || endsFlowEntry k) false false rest
                let (value, rest) ← entryValue fuel endsFlowEntry false rest
                flowEntries fuel line ((key, value) :: found) false rest
            | _ => do
                let (key, rest) ← node fuel false false (t :: rest)
                flowEntries fuel line ((key, absent t) :: found) false rest

end

def contents (ts : List Token) : Except SyntaxError (Node × List Token) :=
  let fuel := 4 * ts.length + 4
  match ts with
  | ⟨.documentStart, _⟩ :: t :: rest =>
      match t.kind with
      -- A document that starts with dashes may be empty.
      | .documentStart | .documentEnd | .streamEnd => .ok (absent t, t :: rest)
      | _ => node fuel true false (t :: rest)
  | _ => node fuel true false ts

def document (text : Text) : Except SyntaxError (Option Node) := do
  match tokens (← characters text) with
  | ⟨.streamEnd, _⟩ :: _ => return none
  | ts =>
      let (root, rest) ← contents ts
      match rest with
      | ⟨.fault e, _⟩ :: _ => .error e
      | _ => return some root

end Yaml

end Dcpu
