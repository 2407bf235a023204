import Dcpu.Text.Utf8
import Dcpu.Word

set_option autoImplicit false

namespace Dcpu

namespace Text

def unitsOfChar (c : Char) : List Word :=
  let n := c.toNat
  if n < 0x10000 then [n.toUInt16]
  else
    let rest := n - 0x10000
    [(0xd800 + rest / 0x400).toUInt16, (0xdc00 + rest % 0x400).toUInt16]

def units (t : Text) : List Word := t.chars.flatMap unitsOfChar

end Text

end Dcpu
