import Dcpu.Memory
import Dcpu.Layout.Operand

set_option autoImplicit false

namespace Dcpu

structure Machine where
  registers : Vector Word 8
  pc : Word
  sp : Word
  -- what a result had no room for
  ex : Word
  -- the address of the interrupt handler, or zero for none
  ia : Word
  memory : Memory
  -- whether an instruction has jumped to itself
  halted : Bool
  -- messages of interrupts that wait, oldest first
  queue : List Word
  -- whether interrupts wait instead of calling the handler
  queueing : Bool
deriving DecidableEq

inductive Place
  | register (r : Register)
  | memory (address : Word)
  | sp
  | pc
  | ex
  -- not a place at all: what is written to it is lost
  | literal (value : Word)
deriving DecidableEq, Repr

namespace Machine

def zero : Machine :=
  { registers := Vector.replicate 8 0, pc := 0, sp := 0, ex := 0, ia := 0
    memory := .zero, halted := false, queue := [], queueing := false }

def clear (m : Machine) : Machine :=
  -- Waiting interrupts and the halt stay.
  { m with
    registers := Vector.replicate 8 0, pc := 0, sp := 0, ex := 0, ia := 0
    memory := .zero }

def load (image : Array Word) (m : Machine) : Machine :=
  { m.clear with
    memory := m.clear.memory.overwrite image, halted := false, queue := [], queueing := false }

theorem read_load (m : Machine) (image : Array Word) (address : Word) :
    (m.load image).memory.read address = image[address.toNat]?.getD 0 := by
  change (Memory.zero.overwrite image).read address = _
  rw [Memory.read_overwrite, Memory.read_zero]

def register (m : Machine) (r : Register) : Word := m.registers.get r.index

def setRegister (m : Machine) (r : Register) (value : Word) : Machine :=
  { m with registers := m.registers.set r.index.val value r.index.isLt }

theorem register_setRegister (m : Machine) (r other : Register) (value : Word) :
    (m.setRegister r value).register other = if r = other then value else m.register other := by
  change (m.registers.set r.index.val value r.index.isLt)[other.index.val] = _
  rw [Vector.getElem_set]
  simp only [← Register.index_inj, Fin.ext_iff]
  rfl

def fetch (m : Machine) : Word × Machine := (m.memory.read m.pc, { m with pc := m.pc + 1 })

def push (m : Machine) (value : Word) : Machine :=
  { m with sp := m.sp - 1, memory := m.memory.write (m.sp - 1) value }

def pop (m : Machine) : Word × Machine := (m.memory.read m.sp, { m with sp := m.sp + 1 })

def place (m : Machine) : Operand → Place × Machine
  | .register r => (.register r, m)
  | .indirect r => (.memory (m.register r), m)
  | .indexed r =>
      let (offset, m) := m.fetch
      (.memory (m.register r + offset), m)
  | .push => (.memory (m.sp - 1), { m with sp := m.sp - 1 })
  | .pop => (.memory m.sp, { m with sp := m.sp + 1 })
  | .peek => (.memory m.sp, m)
  | .pick =>
      let (offset, m) := m.fetch
      (.memory (m.sp + offset), m)
  | .sp => (.sp, m)
  | .pc => (.pc, m)
  | .ex => (.ex, m)
  | .direct =>
      let (address, m) := m.fetch
      (.memory address, m)
  | .literal =>
      let (value, m) := m.fetch
      (.literal value, m)
  | .short value => (.literal value, m)

def get (m : Machine) : Place → Word
  | .register r => m.register r
  | .memory address => m.memory.read address
  | .sp => m.sp
  | .pc => m.pc
  | .ex => m.ex
  | .literal value => value

def set (m : Machine) (place : Place) (value : Word) : Machine :=
  match place with
  | .register r => m.setRegister r value
  | .memory address => { m with memory := m.memory.write address value }
  | .sp => { m with sp := value }
  | .pc => { m with pc := value }
  | .ex => { m with ex := value }
  | .literal _ => m

end Machine

end Dcpu
