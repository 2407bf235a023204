import Dcpu.Breach
import Dcpu.Text.Lower

/-!
Instruction layouts: how an operation and two operand codes share one word.

    v1   bbbbbbaaaaaaoooo
    v2   bbbbbbaaaaaooooo

`a` is the operand written first. An extended operation has the opcode 0, its own number in the
field of `a`, and its operand in the field of `b`.
-/

set_option autoImplicit false

namespace Dcpu

inductive Layout
  | v1
  | v2
deriving DecidableEq, Repr

/-- The place of an operand: the one written first, or the one written second. -/
inductive Slot
  | a
  | b
deriving DecidableEq, Repr

structure Instruction where
  opcode : Word
  a : Word
  b : Word
deriving DecidableEq, Repr

namespace Layout

def default : Layout := .v2

def name : Layout → Text
  | .v1 => "v1"
  | .v2 => "v2"

def ofName? (name : Text) : Option Layout := [v1, v2].find? fun l => l.name == name.lower

def opcodeBits : Layout → Nat
  | .v1 => 4
  | .v2 => 5

def aBits : Layout → Nat
  | .v1 => 6
  | .v2 => 5

def bBits : Nat := 6

def pack? (l : Layout) (i : Instruction) : Option Word :=
  if i.opcode.toNat < 1 <<< l.opcodeBits ∧ i.a.toNat < 1 <<< l.aBits ∧ i.b.toNat < 1 <<< bBits then
    some (i.opcode ||| i.a <<< l.opcodeBits.toUInt16 ||| i.b <<< 10)
  else none

def unpack (l : Layout) (w : Word) : Instruction where
  opcode := w &&& (1 <<< l.opcodeBits.toUInt16 - 1)
  a := w >>> l.opcodeBits.toUInt16 &&& (1 <<< l.aBits.toUInt16 - 1)
  b := w >>> 10

/-- Whether the word that the second operand adds comes before the one that the first adds. -/
def tailBFirst : Layout → Bool
  | .v1 => false
  | .v2 => true

def canFold : Layout → Slot → Bool
  | .v1, _ => true
  | .v2, .a => false
  | .v2, .b => true

end Layout

/-- The number under which a layout is kept. Only 1 and 2 are numbers of one. -/
structure LayoutNumber where
  value : UInt8
deriving DecidableEq, Repr

namespace LayoutNumber

def layout? (n : LayoutNumber) : Option Layout :=
  if n.value = 1 then some .v1 else if n.value = 2 then some .v2 else none

def require (n : LayoutNumber) : Except Breach Layout :=
  match n.layout? with
  | some l => .ok l
  | none => .error (.layout n.value)

def name (n : LayoutNumber) : Text :=
  match n.layout? with
  | some l => l.name
  | none => "<invalid>"

end LayoutNumber

def Layout.number : Layout → LayoutNumber
  | .v1 => ⟨1⟩
  | .v2 => ⟨2⟩

@[simp] theorem LayoutNumber.layout?_number (l : Layout) : l.number.layout? = some l := by
  cases l <;> rfl

end Dcpu
