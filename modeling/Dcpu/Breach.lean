import Dcpu.Text.Digits

/-!
Promises between the parts of the library. A breach is what a part answers when it is handed
something that no other part would hand it: a layout that does not exist, a label that was never
given out. It is no fault of the program that is being assembled.
-/

set_option autoImplicit false

namespace Dcpu

inductive Breach
  | layout (number : UInt8)
  | codeKind (number : UInt8)
  | index
  | laterDifference (number operand : Nat)
deriving DecidableEq, Repr

namespace Breach

def message? : Breach → Option Text
  | .layout n => some ("invalid instruction layout " ++ Text.decimal n.toNat)
  | .codeKind n => some ("invalid code kind " ++ Text.decimal n.toNat)
  -- An index that is out of range says nothing more about itself.
  | .index => none
  | .laterDifference number operand =>
      some ("difference " ++ Text.decimal number ++ " refers to difference " ++
        Text.decimal operand)

end Breach

end Dcpu
