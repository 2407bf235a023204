import Dcpu.Image
import Dcpu.Machine

set_option autoImplicit false

namespace Dcpu

namespace Machine

def loadBytes (order : ByteOrder) (bytes : Text) (m : Machine) :
    Machine × Option Image.BytesError :=
  -- A machine that cannot be loaded stays as it was.
  match Image.ofBytes order bytes with
  | .ok image => (m.load image, none)
  | .error e => (m, some e)

end Machine

end Dcpu
