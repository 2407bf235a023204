set_option autoImplicit false

namespace Dcpu

abbrev Word := UInt16

/-- Words that an address can tell apart: the size of memory, and the most an image may hold. -/
def addressSpace : Nat := 0x10000

namespace Word

def signed (w : Word) : Int := w.toInt16.toInt

def ofInt (n : Int) : Word := (n % 0x10000).toNat.toUInt16

theorem toNat_ofInt (n : Int) : ((ofInt n).toNat : Int) = n % 0x10000 := by
  rw [ofInt, Nat.toUInt16_eq, UInt16.toNat_ofNat']
  omega

theorem ofInt_natCast (n : Nat) : ofInt n = n.toUInt16 := by
  have whole := toNat_ofInt n
  apply UInt16.toNat_inj.1
  rw [Nat.toUInt16_eq, UInt16.toNat_ofNat']
  omega

end Word

end Dcpu
