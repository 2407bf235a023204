import Dcpu.Proofs.BasicFrame
import Mathlib.Logic.Relation

/-!
Interrupts that call the handler at once. The call leaves the program counter and `a` on the stack,
one below the other, and `rfi` takes them back in the opposite order. Whatever the handler does in
between, an `rfi` that finds the two words and the stack pointer where the call left them returns
to where the interrupt was sent.
-/

set_option autoImplicit false

namespace Dcpu

namespace Machine

variable {layout : Layout} {m resolved : Machine} {place : Place} {operand : Operand}

def Advances (layout : Layout) (m m' : Machine) : Prop := m.step layout = some (m', none)

theorem deliver_of_queueing (queueing : m.queueing = true) : m.deliver = m := if_pos queueing

theorem deliver_of_empty (empty : m.queue = []) : m.deliver = m := by
  unfold deliver
  split
  · rfl
  · rw [empty]

structure Calls (m : Machine) (message : Word) (called : Machine) : Prop where
  pc : called.pc = m.ia
  a : called.register .a = message
  sp : called.sp = m.sp - 2
  savedPc : called.memory.read (m.sp - 1) = m.pc
  savedA : called.memory.read (m.sp - 2) = m.register .a
  memory : ∀ address, address ≠ m.sp - 1 → address ≠ m.sp - 2 →
    called.memory.read address = m.memory.read address
  queue : called.queue = m.queue
  queueing : called.queueing = true

theorem sub_one_sub_one (sp : Word) : sp - 1 - 1 = sp - 2 := by
  rw [UInt16.sub_eq_add_neg, UInt16.sub_eq_add_neg, UInt16.sub_eq_add_neg, UInt16.add_assoc]
  rfl

theorem calls_trigger (m : Machine) (message : Word) : m.Calls message (m.trigger message) := by
  have apart : m.sp - 2 ≠ m.sp - 1 := by
    intro same
    exact absurd ((UInt16.sub_right_inj m.sp).1 same) (by decide)
  have memory : (m.trigger message).memory =
      (m.memory.write (m.sp - 1) m.pc).write (m.sp - 2) (m.register .a) := by
    rw [← sub_one_sub_one]
    rfl
  constructor
  · rfl
  · exact (register_setRegister _ .a .a message).trans (if_pos rfl)
  · exact sub_one_sub_one m.sp
  · -- `a` lies below the program counter, so it does not overwrite it, wherever the stack is.
    rw [memory, Memory.read_write, if_neg apart, Memory.read_write_self]
  · rw [memory, Memory.read_write_self]
  · intro address above below
    rw [memory, Memory.read_write, if_neg below.symm, Memory.read_write, if_neg above.symm]
  · rfl
  · rfl

theorem Calls.noteHalt {message : Word} {called : Machine} (calls : m.Calls message called)
    (address : Word) : m.Calls message (called.noteHalt address) := by
  obtain ⟨halted, noted⟩ := called.noteHalt_eq address
  obtain ⟨pc, a, sp, savedPc, savedA, memory, queue, queueing⟩ := calls
  rw [noted]
  exact ⟨pc, a, sp, savedPc, savedA, memory, queue, queueing⟩

theorem step_int (handler : m.ia ≠ 0) (ready : m.queueing = false)
    (sends : m.resolve? layout = some (.extended .int place, resolved)) :
    ∃ called, m.Advances layout called ∧ resolved.Calls (resolved.get place) called := by
  obtain ⟨pc, sp, moved⟩ := resolve?_moves sends
  have sent : resolved.interrupt (resolved.get place) m.pc =
      (resolved.trigger (resolved.get place), none) := by
    have handled : resolved.ia ≠ 0 := moved ▸ handler
    have idle : ¬ resolved.queueing = true := by simp [moved, ready]
    rw [interrupt, if_neg handled, if_neg idle]
  have calls := (resolved.calls_trigger (resolved.get place)).noteHalt m.pc
  refine ⟨_, ?_, calls⟩
  -- The call turns queueing on, so nothing else is delivered in the same step.
  rw [Advances, step_eq_resolve, sends]
  simp only [perform, extended, sent, Option.map_some, settle, deliver_of_queueing calls.queueing]

theorem stackAfter_of_plain (push : operand ≠ .push) (pop : operand ≠ .pop) (sp : Word) :
    operand.stackAfter sp = sp := by
  cases operand with
  | push => exact absurd rfl push
  | pop => exact absurd rfl pop
  | _ => rfl

structure Returns (m back : Machine) : Prop where
  pc : back.pc = m.memory.read (m.sp + 1)
  a : back.register .a = m.memory.read m.sp
  sp : back.sp = m.sp + 2
  queueing : back.queueing = false
  memory : back.memory = m.memory
  queue : back.queue = m.queue

theorem returns_returnFromInterrupt (m : Machine) : m.Returns m.returnFromInterrupt where
  pc := rfl
  a := (register_setRegister _ .a .a _).trans (if_pos rfl)
  sp := UInt16.add_assoc m.sp 1 1
  queueing := rfl
  memory := rfl
  queue := rfl

theorem Returns.noteHalt {back : Machine} (returns : m.Returns back) (address : Word) :
    m.Returns (back.noteHalt address) := by
  obtain ⟨halted, noted⟩ := back.noteHalt_eq address
  obtain ⟨pc, a, sp, queueing, memory, queue⟩ := returns
  rw [noted]
  exact ⟨pc, a, sp, queueing, memory, queue⟩

theorem step_rfi (decodes : layout.DecodesExtended (m.memory.read m.pc) .rfi operand)
    (push : operand ≠ .push) (pop : operand ≠ .pop) (empty : m.queue = []) :
    ∃ back, m.Advances layout back ∧ m.Returns back := by
  obtain ⟨place, found⟩ := resolve?_extended decodes
  rw [stackAfter_of_plain push pop] at found
  have returns := (returns_returnFromInterrupt
    { m with pc := m.memory.behind layout m.pc }).noteHalt m.pc
  have stays := deliver_of_empty (returns.queue.trans empty)
  obtain ⟨pc, a, sp, queueing, memory, queue⟩ := returns
  refine ⟨_, ?_, pc, a, sp, queueing, memory, queue⟩
  rw [Advances, step_eq_resolve, found]
  simp only [perform, extended, Option.map_some, settle, stays]

/-- An interrupt that calls the handler at once is returned from exactly. The machine sends it with
its operand resolved; any steps later, an `rfi` that finds the stack as the call left it and nothing
waiting goes back to behind the `int`, with `a`, the stack pointer and the queueing as they were. -/
theorem interrupt_returns {m resolved : Machine} {place : Place} (handler : m.ia ≠ 0)
    (ready : m.queueing = false)
    (sends : m.resolve? .v2 = some (.extended .int place, resolved)) :
    ∃ called, m.Advances .v2 called ∧ resolved.Calls (resolved.get place) called ∧
      ∀ (last : Machine) (operand : Operand),
        Relation.ReflTransGen (Advances .v2) called last →
        Layout.v2.DecodesExtended (last.memory.read last.pc) .rfi operand →
        operand ≠ .push → operand ≠ .pop →
        last.sp = resolved.sp - 2 →
        last.memory.read (resolved.sp - 1) = called.memory.read (resolved.sp - 1) →
        last.memory.read (resolved.sp - 2) = called.memory.read (resolved.sp - 2) →
        last.queue = [] →
        ∃ back, last.Advances .v2 back ∧ back.pc = resolved.pc ∧
          back.register .a = resolved.register .a ∧ back.sp = resolved.sp ∧
          back.queueing = false ∧ back.memory = last.memory := by
  obtain ⟨called, stepped, calls⟩ := step_int handler ready sends
  refine ⟨called, stepped, calls, ?_⟩
  intro last operand _ returns push pop sp keptPc keptA empty
  obtain ⟨back, stepped, back'⟩ := step_rfi returns push pop empty
  -- One word above `a` lies the program counter, and above that is where the stack was.
  have up : resolved.sp - 2 + 1 = resolved.sp - 1 := by
    rw [← sub_one_sub_one, UInt16.sub_add_cancel]
  refine ⟨back, stepped, ?_, ?_, ?_, back'.queueing, back'.memory⟩
  · rw [back'.pc, sp, up, keptPc, calls.savedPc]
  · rw [back'.a, sp, keptA, calls.savedA]
  · rw [back'.sp, sp, UInt16.sub_add_cancel]

/-- `int pop`, and from address 2 on the handler: `set a, 9`, `rfi 0`. -/
def poppingImage : Array Word := #[0x6100, 0, 0xa801, 0x8560]

def popping : Machine :=
  { (zero.load poppingImage).setRegister .a 5 with ia := 2, sp := 0xffff }

theorem resolve?_intPop {m : Machine} (word : m.memory.read m.pc = 0x6100) : m.resolve? .v2 =
    some (.extended .int (.memory m.sp), { m with pc := m.pc + 1, sp := m.sp + 1 }) := by
  have decodes : Layout.v2.DecodesExtended 0x6100 .int .pop := by constructor <;> decide
  simp only [resolve?, fetch, word, if_pos decodes.extended, decodes.operation, decodes.operand,
    place]

theorem step_setA {m : Machine} (word : m.memory.read m.pc = 0xa801)
    (queueing : m.queueing = true) :
    ∃ m', m.Advances .v2 m' ∧ m'.pc = m.pc + 1 ∧ m'.register .a = 9 ∧ m'.sp = m.sp ∧
      m'.memory = m.memory ∧ m'.queue = m.queue := by
  have decodes : Layout.v2.DecodesBasic 0xa801 .set (.register .a) (.short 9) := by
    constructor <;> decide
  have holds : m.memory.Holds m.pc (0xa801 :: Layout.v2.tails (.register .a) (.short 9) 0 0) :=
    Memory.holds_cons word (Memory.holds_nil _ _)
  obtain ⟨halted, noted⟩ := ({ m with pc := m.pc + 1 }.setRegister .a 9).noteHalt_eq m.pc
  have stepped : m.step .v2 = some
      ((({ m with pc := m.pc + 1 }.setRegister .a 9).noteHalt m.pc).deliver, none) :=
    decodes.step_eq holds
  have still : (({ m with pc := m.pc + 1 }.setRegister .a 9).noteHalt m.pc).queueing = true := by
    rw [noted]
    exact queueing
  rw [deliver_of_queueing still, noted] at stepped
  exact ⟨_, stepped, rfl, (register_setRegister _ .a .a 9).trans (if_pos rfl), rfl, rfl, rfl⟩

theorem interrupt_returns_popping :
    ∃ called last back, popping.Advances .v2 called ∧ called.Advances .v2 last ∧
      last.register .a = 9 ∧ last.Advances .v2 back ∧ back.pc = 1 ∧ back.register .a = 5 ∧
      back.sp = 0 ∧ back.queueing = false ∧ back.memory = last.memory := by
  have word : popping.memory.read popping.pc = 0x6100 := read_load zero poppingImage 0
  obtain ⟨called, sent, calls, returns⟩ :=
    interrupt_returns (by decide : popping.ia ≠ 0) rfl (resolve?_intPop word)
  have words : called.memory.read 2 = 0xa801 ∧ called.memory.read 3 = 0x8560 :=
    ⟨(calls.memory 2 (by decide) (by decide)).trans (read_load zero poppingImage 2),
      (calls.memory 3 (by decide) (by decide)).trans (read_load zero poppingImage 3)⟩
  have there : called.pc = 2 := calls.pc
  obtain ⟨last, handled, pc, a, sp, memory, queue⟩ :=
    step_setA (there ▸ words.1) calls.queueing
  have rfi : Layout.v2.DecodesExtended (last.memory.read last.pc) .rfi (.short 0) := by
    rw [memory, pc, there, show (2 + 1 : Word) = 3 from rfl, words.2]
    constructor <;> decide
  obtain ⟨back, returned, pc', a', sp', queueing', memory'⟩ :=
    returns last (.short 0) (.single handled) rfi (by decide) (by decide) (sp.trans calls.sp)
      (by rw [memory]) (by rw [memory]) (queue.trans calls.queue)
  have saved : popping.register .a = 5 := (register_setRegister _ .a .a 5).trans (if_pos rfl)
  exact ⟨called, last, back, sent, handled, a, returned, pc', a'.trans saved, sp', queueing',
    memory'⟩

end Machine

end Dcpu
