import Dcpu.Text.Digits

set_option autoImplicit false

namespace Dcpu

structure Position where
  line : Int
  column : Int
  byte : Int
  size : Int
  lineByte : Int
deriving DecidableEq, Repr

namespace Position

def nowhere : Position := ⟨0, 0, 0, 0, 0⟩

def span (first last : Position) : Position :=
  { first with size := last.byte + last.size - first.byte }

def lineColumn (p : Position) : Text := Text.twoDigits p.line ++ ":" ++ Text.twoDigits p.column

end Position

end Dcpu
