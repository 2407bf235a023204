import Dcpu.Layout
import Dcpu.Register

/-!
Operand codes. Codes below 0x18 and from 0x1b to 0x1f mean the same in both layouts; the stack codes
between them and the short literals above them depend on the layout.
-/

set_option autoImplicit false

namespace Dcpu

/-- What an operand code denotes; the next word of the instruction is its tail. -/
inductive Operand
  | register (r : Register)
  -- memory at the register
  | indirect (r : Register)
  -- memory at the tail plus the register
  | indexed (r : Register)
  | push
  | pop
  | peek
  -- memory at the stack pointer plus the tail
  | pick
  | sp
  | pc
  | ex
  -- memory at the tail
  | direct
  -- the tail
  | literal
  | short (value : Word)
deriving DecidableEq, Repr

inductive SpecialRegister
  | sp
  | pc
  | ex
deriving DecidableEq, Repr

namespace SpecialRegister

def all : List SpecialRegister := [.sp, .pc, .ex]

def code : SpecialRegister → Word
  | .sp => 0x1b
  | .pc => 0x1c
  | .ex => 0x1d

end SpecialRegister

def Operand.hasTail : Operand → Bool
  | .indexed _ | .pick | .direct | .literal => true
  | _ => false

namespace Layout

def specialName : Layout → SpecialRegister → Text
  | _, .sp => "sp"
  | _, .pc => "pc"
  | .v1, .ex => "o"
  | .v2, .ex => "ex"

def special? (l : Layout) (name : Text) : Option SpecialRegister :=
  let lowered := name.lower
  SpecialRegister.all.find? fun r => l.specialName r == lowered

def specialNameOfCode? (l : Layout) (code : Word) : Option Text :=
  (SpecialRegister.all.find? (·.code == code)).map l.specialName

def registerCode (r : Register) : Word := r.toWord

def indirectCode (r : Register) : Word := 0x08 + r.toWord

def indexedCode (r : Register) : Word := 0x10 + r.toWord

def directCode : Word := 0x1e

def literalCode : Word := 0x1f

def shortBase : Word := 0x20

def pushCode : Layout → Word
  | .v1 => 0x1a
  | .v2 => 0x18

def popCode : Layout → Word
  | _ => 0x18

def peekCode : Layout → Word
  | _ => 0x19

def pickCode? : Layout → Option Word
  | .v1 => none
  | .v2 => some 0x1a

def hasPick (l : Layout) : Bool := l.pickCode?.isSome

def shortCode? : Layout → Word → Option Word
  -- The values 0 to 31 in `v1`, and -1 to 30 in `v2`.
  | .v1, value => if value ≤ 0x1f then some (shortBase + value) else none
  | .v2, value =>
      if value = 0xffff then some shortBase
      else if value ≤ 30 then some (shortBase + 1 + value)
      else none

def shortValue : Layout → Word → Word
  | .v1, code => code - shortBase
  | .v2, code => code - shortBase - 1

def decodeStack : Layout → Slot → Word → Operand
  | .v1, _, code => if code = 0x18 then .pop else if code = 0x19 then .peek else .push
  -- Push and pop share a code, and the place of the operand tells them apart.
  | .v2, slot, code =>
      if code = 0x18 then
        match slot with
        | .a => .push
        | .b => .pop
      else if code = 0x19 then .peek
      else .pick

def decode? (l : Layout) (slot : Slot) (code : Word) : Option Operand :=
  if code < 0x08 then some (.register (Register.ofWord code))
  else if code < 0x10 then some (.indirect (Register.ofWord code))
  else if code < 0x18 then some (.indexed (Register.ofWord code))
  else if code < 0x1b then some (l.decodeStack slot code)
  else if code = 0x1b then some .sp
  else if code = 0x1c then some .pc
  else if code = 0x1d then some .ex
  else if code = directCode then some .direct
  else if code = literalCode then some .literal
  else if code < 0x40 then some (.short (l.shortValue code))
  else none

def codeHasTail (l : Layout) (slot : Slot) (code : Word) : Bool :=
  match l.decode? slot code with
  | some operand => operand.hasTail
  | none => false

end Layout

end Dcpu
