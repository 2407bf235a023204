import Dcpu.Symbol
import Dcpu.Table
import Dcpu.Text.Digits

set_option autoImplicit false

namespace Dcpu

namespace Symbol

def fileLine (s : Symbol) : Text :=
  -- The address in capital digits, the letter of the type, the name.
  (Text.hexWord s.value).upper ++ " " ++ s.type.letter ++ " " ++ s.name ++ "\n"

def file (symbols : List Symbol) : Text := symbols.flatMap fileLine

def table (title : Text) (symbols : List Symbol) : Table where
  title := title
  heading := ["Address", "Type", "Label"]
  sections := [symbols.map fun s => [Text.hexWord s.value, s.type.name, s.name]]
  footing := ["", "", Text.decimal symbols.length ++ " labels"]

end Symbol

end Dcpu
