import Dcpu.SymbolTable

set_option autoImplicit false

namespace Dcpu

namespace Code

def evaluate (symbols : SymbolTable) (differences : Array Difference) (depth : Nat)
    (code : Code) : Except Breach Word := do
  let value ←
    match code.kind with
    | .instruction | .literal => .ok code.value
    | .label => symbols.value code.value.toNat
    | .difference =>
        match depth with
        | 0 => .error .index
        | depth + 1 =>
            match differences[code.value.toNat]? with
            | none => .error .index
            | some difference => do
                -- The target comes first, so that what is wrong with it is reported.
                let target ← evaluate symbols differences depth difference.target
                let base ← evaluate symbols differences depth difference.base
                .ok (target - base)
    | .other number => .error (.codeKind number)
  return if code.negated then -value else value

def evaluateAll (code : Array Code) (symbols : SymbolTable) (differences : Array Difference) :
    Except Breach (Array Word) :=
  -- Differences that refer only to others cannot be nested deeper than there are differences.
  code.mapM (evaluate symbols differences differences.size)

end Code

end Dcpu
