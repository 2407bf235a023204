import Dcpu.Text
import Dcpu.Word

set_option autoImplicit false

namespace Dcpu

inductive SymbolType
  | unknown
  | code
  | data
  -- a type that symbols read from elsewhere may carry
  | other
deriving DecidableEq, Repr

namespace SymbolType

def name : SymbolType → Text
  | .code => "code"
  | .data => "data"
  | .unknown | .other => "unknown"

def letter : SymbolType → Text
  | .code => "c"
  | .data => "d"
  | .unknown | .other => "?"

end SymbolType

structure Symbol where
  name : Text
  value : Word
  type : SymbolType
deriving DecidableEq, Repr

namespace Symbol

def codeStart : Text := "__CODE_START"

def codeEnd : Text := "__CODE_END"

end Symbol

end Dcpu
