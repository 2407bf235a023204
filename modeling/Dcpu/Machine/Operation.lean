import Dcpu.Layout.Operation
import Dcpu.Machine
import Dcpu.Text.Digits

set_option autoImplicit false

namespace Dcpu

inductive StepError
  | illegalInstruction (address word : Word)
  | interruptOverflow (address : Word)
deriving DecidableEq, Repr

namespace Machine

def queueLimit : Nat := 256

end Machine

namespace StepError

def message : StepError → Text
  | .illegalInstruction address word =>
      "0x" ++ Text.hexWord address ++ ": Illegal instruction 0x" ++ Text.hexWord word
  | .interruptOverflow address =>
      "0x" ++ Text.hexWord address ++ ": Interrupt queue exceeds " ++
        Text.decimal Machine.queueLimit ++ " entries"

end StepError

/-- The destination's new value and, if it changes, what goes to `ex`. -/
structure OperationResult where
  value : Word
  ex : Option Word := none
deriving DecidableEq, Repr

namespace OperationResult

def wide (n : Nat) : OperationResult := ⟨n.toUInt16, some (n / 0x10000).toUInt16⟩

def signedWide (n : Int) : OperationResult := ⟨Word.ofInt n, some (Word.ofInt (n / 0x10000))⟩

def zero : OperationResult := ⟨0, some 0⟩

end OperationResult

namespace BasicOp

def compute? (op : BasicOp) (x y ex : Word) : Option OperationResult :=
  match op with
  | .set | .sti | .std => some ⟨y, none⟩
  | .add => some (.wide (x.toNat + y.toNat))
  | .sub => some ⟨x - y, some (if x < y then 0xffff else 0)⟩
  | .mul => some (.wide (x.toNat * y.toNat))
  | .mli => some (.signedWide (Word.signed x * Word.signed y))
  | .div =>
      if y = 0 then some .zero
      else some ⟨x / y, some (x.toNat * 0x10000 / y.toNat).toUInt16⟩
  | .dvi =>
      if y = 0 then some .zero
      else
        some ⟨Word.ofInt ((Word.signed x).tdiv (Word.signed y)),
          some (Word.ofInt ((Word.signed x * 0x10000).tdiv (Word.signed y)))⟩
  | .mod => some ⟨if y = 0 then 0 else x % y, none⟩
  | .mdi =>
      some ⟨if y = 0 then 0 else Word.ofInt ((Word.signed x).tmod (Word.signed y)), none⟩
  | .and => some ⟨x &&& y, none⟩
  | .bor => some ⟨x ||| y, none⟩
  | .xor => some ⟨x ^^^ y, none⟩
  | .shr =>
      some ⟨(x.toNat >>> y.toNat).toUInt16, some ((x.toNat * 0x10000) >>> y.toNat).toUInt16⟩
  | .asr =>
      some ⟨Word.ofInt (Word.signed x >>> y.toNat),
        some (Word.ofInt ((Word.signed x * 0x10000) >>> y.toNat))⟩
  | .shl => some (.wide (if y < 32 then x.toNat <<< y.toNat else 0))
  | .adx =>
      let sum := x.toNat + y.toNat + ex.toNat
      some ⟨sum.toUInt16, some (if 0xffff < sum then 1 else 0)⟩
  | .sbx =>
      let rest := (x.toNat : Int) - y.toNat + ex.toNat
      some ⟨Word.ofInt rest,
        some (if rest < 0 then 0xffff else if 0xffff < rest then 1 else 0)⟩
  | .ifb | .ifc | .ife | .ifn | .ifg | .ifa | .ifl | .ifu => none

def test (op : BasicOp) (x y : Word) : Bool :=
  match op with
  | .ifb => x &&& y != 0
  | .ifc => x &&& y == 0
  | .ife => x == y
  | .ifn => x != y
  | .ifg => x > y
  | .ifa => Word.signed x > Word.signed y
  | .ifl => x < y
  | .ifu => Word.signed x < Word.signed y
  | _ => true

end BasicOp

namespace Machine

/-- Where the instruction at an address ends, and whether it is a conditional that is passed over
together with what it guards. -/
def passOver (layout : Layout) (memory : Memory) (pc : Word) : Word × Bool :=
  let instruction := layout.unpack (memory.read pc)
  let tail (slot : Slot) (code : Word) : Word := if layout.codeHasTail slot code then 1 else 0
  if instruction.opcode = Layout.extendedOpcode then
    (pc + 1 + tail .b instruction.b, false)
  else
    (pc + 1 + tail .a instruction.a + tail .b instruction.b,
      layout = .v2 ∧ (layout.basicOp? instruction.opcode).any BasicOp.isConditional)

def skipWithin (layout : Layout) (memory : Memory) : Nat → Word → Option Word
  | 0, _ => none
  | n + 1, pc =>
      let (after, again) := passOver layout memory pc
      if again then skipWithin layout memory n after else some after

/-- Passes over the next instruction. After as many conditionals as there are addresses nothing else
can come, so then there is no end. -/
def skip (layout : Layout) (m : Machine) : Option Machine :=
  match skipWithin layout m.memory addressSpace m.pc with
  | some pc => some { m with pc }
  | none => none

def countIndices (op : BasicOp) (m : Machine) : Machine :=
  match op with
  | .sti => (m.setRegister .i (m.register .i + 1)).setRegister .j (m.register .j + 1)
  | .std => (m.setRegister .i (m.register .i - 1)).setRegister .j (m.register .j - 1)
  | _ => m

def setEx (m : Machine) (ex : Option Word) : Machine :=
  match ex with
  | some ex => { m with ex }
  | none => m

def basic (layout : Layout) (op : BasicOp) (a b : Place) (m : Machine) : Option Machine :=
  let x := m.get a
  let y := m.get b
  match op.compute? x y m.ex with
  | some result => some (countIndices op ((m.set a result.value).setEx result.ex))
  -- There is no machine if the instruction that is passed over has no end.
  | none => if op.test x y then some m else m.skip layout

def trigger (m : Machine) (message : Word) : Machine :=
  let called := (m.push m.pc).push (m.register .a)
  { called with queueing := true, pc := m.ia }.setRegister .a message

def interrupt (m : Machine) (message address : Word) : Machine × Option StepError :=
  -- Without a handler an interrupt is dropped.
  if m.ia = 0 then (m, none)
  else if m.queueing then
    if queueLimit ≤ m.queue.length then (m, some (.interruptOverflow address))
    else ({ m with queue := m.queue ++ [message] }, none)
  else (m.trigger message, none)

def returnFromInterrupt (m : Machine) : Machine :=
  let (a, m) := { m with queueing := false }.pop
  let (pc, m) := (m.setRegister .a a).pop
  { m with pc }

def extended (op : ExtendedOp) (a : Place) (address : Word) (m : Machine) :
    Machine × Option StepError :=
  match op with
  | .jsr =>
      let target := m.get a
      ({ m.push m.pc with pc := target }, none)
  | .int => m.interrupt (m.get a) address
  | .iag => (m.set a m.ia, none)
  | .ias => ({ m with ia := m.get a }, none)
  | .rfi => (m.returnFromInterrupt, none)
  | .iaq => ({ m with queueing := m.get a != 0 }, none)
  | .hwn => (m.set a 0, none)
  | .hwq =>
      (((((m.setRegister .a 0).setRegister .b 0).setRegister .c 0).setRegister .x 0).setRegister
        .y 0, none)
  | .hwi => (m, none)

end Machine

end Dcpu
