import Dcpu.Text
import Dcpu.Word

set_option autoImplicit false

namespace Dcpu

namespace Text

def zero : UInt8 := 0x30

def isDigit (b : UInt8) : Bool := 0x30 ≤ b && b ≤ 0x39

def digits (base n : Nat) : Text := (Nat.toDigits base n).map fun c => c.toUInt8

def decimal (n : Nat) : Text := digits 10 n

def integer : Int → Text
  | .ofNat n => decimal n
  | .negSucc n => "-" ++ decimal (n + 1)

def padLeft (width : Nat) (t : Text) : Text := List.replicate (width - t.length) zero ++ t

def twoDigits : Int → Text
  | .ofNat n => padLeft 2 (decimal n)
  -- The sign counts as one of the two characters.
  | .negSucc n => integer (.negSucc n)

def hexDigits (width n : Nat) : Text := padLeft width (digits 16 n)

def hex4 (n : Nat) : Text := hexDigits 4 n

def hexWord (w : Word) : Text := hex4 w.toNat

end Text

end Dcpu
