import Dcpu.Proofs.SkipLoop
import Dcpu.Proofs.StepFailure

set_option autoImplicit false

namespace Dcpu

def BasicOp.Counts (op : BasicOp) (r : Register) : Prop :=
  (op = .sti ∨ op = .std) ∧ (r = .i ∨ r = .j)

namespace Machine

variable {layout : Layout} {op : BasicOp} {a b : Place} {m m' : Machine}

/-- What an operation whose first operand denotes the place `a` may have changed, apart from `pc`,
`sp` and the halt. -/
structure TouchesOnly (op : BasicOp) (a : Place) (m m' : Machine) : Prop where
  memory : m'.memory = m.memory ∨
    ∃ address value, a = .memory address ∧ m'.memory = m.memory.write address value
  registers : ∀ r, m'.register r ≠ m.register r → a = .register r ∨ op.Counts r
  conditional : op.isConditional = true →
    m'.memory = m.memory ∧ m'.registers = m.registers ∧ m'.ex = m.ex
  ia : m'.ia = m.ia
  queueing : m'.queueing = m.queueing

theorem register_countIndices {r : Register} (other : ¬ op.Counts r) (m : Machine) :
    (countIndices op m).register r = m.register r := by
  -- Only `sti` and `std` count, and neither touches a register but `i` and `j`.
  cases op with
  | sti =>
      have apart : .i ≠ r ∧ .j ≠ r := by
        constructor <;> rintro rfl <;> exact other ⟨by simp, by simp⟩
      rw [countIndices, register_setRegister, if_neg apart.2, register_setRegister,
        if_neg apart.1]
  | std =>
      have apart : .i ≠ r ∧ .j ≠ r := by
        constructor <;> rintro rfl <;> exact other ⟨by simp, by simp⟩
      rw [countIndices, register_setRegister, if_neg apart.2, register_setRegister,
        if_neg apart.1]
  | _ => rfl

theorem register_set {r : Register} (other : a ≠ .register r) (m : Machine) (value : Word) :
    (m.set a value).register r = m.register r := by
  cases a with
  | register named =>
      have apart : named ≠ r := fun same => other (same ▸ rfl)
      exact (m.register_setRegister named r value).trans (if_neg apart)
  | _ => rfl

theorem memory_set (m : Machine) (a : Place) (value : Word) :
    (m.set a value).memory = m.memory ∨
      ∃ address value', a = .memory address ∧
        (m.set a value).memory = m.memory.write address value' := by
  cases a with
  | memory address => exact .inr ⟨address, value, rfl, rfl⟩
  | _ => exact .inl rfl

theorem touchesOnly_written (computes : op.isConditional = false) (m : Machine) (value : Word)
    (ex : Option Word) :
    TouchesOnly op a m (countIndices op ((m.set a value).setEx ex)) := by
  have kept : (countIndices op ((m.set a value).setEx ex)).memory = (m.set a value).memory ∧
      (countIndices op ((m.set a value).setEx ex)).ia = m.ia ∧
      (countIndices op ((m.set a value).setEx ex)).queueing = m.queueing := by
    cases op <;> cases ex <;> cases a <;> exact ⟨rfl, rfl, rfl⟩
  have spilled (r : Register) :
      ((m.set a value).setEx ex).register r = (m.set a value).register r := by
    cases ex <;> rfl
  constructor
  · rw [kept.1]
    exact m.memory_set a value
  · intro r changed
    by_contra untouched
    obtain ⟨other, uncounted⟩ := not_or.1 untouched
    rw [register_countIndices uncounted, spilled, register_set other] at changed
    exact changed rfl
  · intro conditional
    rw [computes] at conditional
    cases conditional
  · exact kept.2.1
  · exact kept.2.2

theorem touchesOnly_moved (op : BasicOp) (a : Place) (m : Machine) (pc : Word) :
    TouchesOnly op a m { m with pc } where
  memory := .inl rfl
  registers _ changed := absurd rfl changed
  conditional _ := ⟨rfl, rfl, rfl⟩
  ia := rfl
  queueing := rfl

theorem basic_touches (done : m.basic layout op a b = some m') : TouchesOnly op a m m' := by
  have computes := op.compute?_eq_none_iff (m.get a) (m.get b) m.ex
  simp only [basic] at done
  split at done
  · -- A result was computed, so the operation is no conditional.
    rename_i result computed
    obtain rfl := Option.some.inj done
    refine touchesOnly_written ?_ m result.value result.ex
    rw [← Bool.not_eq_true, ← computes, computed]
    exact Option.some_ne_none result
  · split at done
    · obtain rfl := Option.some.inj done
      exact touchesOnly_moved op a m m.pc
    · -- The test failed, and what is passed over is not executed.
      obtain ⟨n, skips⟩ := skip_eq_some_iff.1 done
      obtain ⟨k, _, _, rfl⟩ := skips_iff.1 skips
      exact touchesOnly_moved op a m _

/-- No message waits for a handler that would take it. -/
def Settled (m : Machine) : Prop := m.queue ≠ [] → m.queueing = false → m.ia = 0

theorem settled_of_steps {number : LayoutNumber} {image : Array Word} {n : Nat} {machine : Machine}
    (ran : (machine.load image).steps number n = some m) : m.Settled := by
  have watched := Watched.steps_machine number n (Watched.start (machine.load image))
  rw [show (Watched.start (machine.load image)).machine = machine.load image from rfl, ran]
    at watched
  obtain ⟨w, run, rfl⟩ := Option.map_eq_some_iff.1 watched
  exact ((Watched.inOrder_start machine image).steps run).settled

theorem Settled.deliver_eq (settled : m.Settled) :
    m.deliver = { m with queue := if m.queueing then m.queue else m.queue.tail } := by
  -- Without a handler the message that has waited longest is dropped.
  obtain ⟨registers, pc, sp, ex, ia, memory, halted, queue, queueing⟩ := m
  cases queueing with
  | true => rfl
  | false =>
      cases queue with
      | nil => rfl
      | cons message rest => exact if_pos (settled (List.cons_ne_nil _ _) rfl)

theorem Settled.deliver (settled : m.Settled) : m.deliver.Settled := by
  rw [settled.deliver_eq]
  intro waiting off
  refine settled (fun empty => waiting ?_) off
  rw [empty, List.tail_nil, ite_self]

theorem noteHalt_eq (m : Machine) (address : Word) :
    ∃ halted, m.noteHalt address = { m with halted } := by
  unfold noteHalt
  split
  · exact ⟨true, rfl⟩
  · exact ⟨m.halted, rfl⟩

variable {first second : Operand} {address word : Word} {e : Option StepError}

theorem execute_touches (decodes : layout.DecodesBasic word op first second)
    (executed : m.execute layout address word = some (m', e)) :
    e = none ∧ TouchesOnly op (m.places layout first second).1 m m' ∧ m'.queue = m.queue := by
  -- Resolving the operands moves `pc` and `sp` only, so the frame is that of the operation.
  obtain ⟨pc, sp, moved⟩ := m.places_moves layout first second
  simp only [execute, if_neg decodes.basic, decodes.operation, decodes.first, decodes.second]
    at executed
  split at executed
  · rename_i after done
    obtain ⟨rfl, rfl⟩ := Prod.mk.inj (Option.some.inj executed)
    rw [moved] at done
    have same := queue_basic done
    obtain ⟨memory, registers, conditional, ia, queueing⟩ := basic_touches done
    exact ⟨rfl, ⟨memory, registers, conditional, ia, queueing⟩, same⟩
  · contradiction

theorem TouchesOnly.settle (touches : TouchesOnly op a m m') (settled : m.Settled)
    (same : m'.queue = m.queue) (address : Word) :
    (m'.noteHalt address).Settled ∧ TouchesOnly op a m (m'.noteHalt address).deliver := by
  obtain ⟨halted, noted⟩ := m'.noteHalt_eq address
  have still : ({ m' with halted } : Machine).Settled := by
    intro waiting off
    exact touches.ia.trans (settled (same ▸ waiting) (touches.queueing ▸ off))
  rw [noted, still.deliver_eq]
  obtain ⟨memory, registers, conditional, ia, queueing⟩ := touches
  exact ⟨still, memory, registers, conditional, ia, queueing⟩

theorem step_of_basic {resolved done : Machine} (settled : m.Settled)
    (found : m.resolve? layout = some (.basic op a b, resolved))
    (worked : resolved.basic layout op a b = some done) :
    ∃ halted queue, m.step layout = some ({ done with halted, queue }, none) ∧
      ({ done with halted, queue } : Machine).Settled := by
  obtain ⟨pc, sp, moved⟩ := resolve?_moves found
  have still : (done.noteHalt m.pc).Settled :=
    ((basic_touches worked).settle (moved ▸ settled) (queue_basic worked) m.pc).1
  have after := still.deliver
  have stepped : m.step layout = some ((done.noteHalt m.pc).deliver, none) := by
    rw [step_eq_resolve, found]
    simp only [perform, worked, Option.map_some, settle]
  obtain ⟨halted, noted⟩ := done.noteHalt_eq m.pc
  rw [still.deliver_eq, noted] at stepped after
  exact ⟨_, _, stepped, after⟩

end Machine

namespace Watched

variable {layout : Layout} {op : BasicOp} {first second : Operand} {w w' : Watched}
  {e : Option StepError}

theorem deliver_of_settled (settled : w.machine.Settled) :
    w.deliver = { w with machine := w.machine.deliver } := by
  obtain ⟨⟨registers, pc, sp, ex, ia, memory, halted, queue, queueing⟩, sent, delivered⟩ := w
  cases queueing with
  | true => rfl
  | false =>
      cases queue with
      | nil => rfl
      | cons message rest =>
          have unhandled : ia = 0 := settled (List.cons_ne_nil _ _) rfl
          simp [deliver, Machine.deliver, unhandled]

theorem execute_of_basic {word : Word}
    (basic : (layout.unpack word).opcode ≠ Layout.extendedOpcode) (address : Word) (w : Watched) :
    w.execute layout address word =
      (w.machine.execute layout address word).map fun result =>
        ({ w with machine := result.1 }, result.2) := by
  simp only [execute, if_neg basic]
  cases w.machine.execute layout address word <;> rfl

theorem step_basic_quiet (settled : w.machine.Settled)
    (decodes : layout.DecodesBasic (w.machine.memory.read w.machine.pc) op first second)
    (stepped : w.step layout = some (w', e)) :
    e = none ∧ w'.sent = w.sent ∧ w'.delivered = w.delivered ∧
      Machine.TouchesOnly op (w.machine.fetch.2.places layout first second).1 w.machine
        w'.machine := by
  have ready : w.machine.fetch.2.Settled := settled
  have plain : (layout.unpack w.machine.fetch.1).opcode ≠ Layout.extendedOpcode := decodes.basic
  simp only [Watched.step, execute_of_basic plain] at stepped
  cases executed : w.machine.fetch.2.execute layout w.machine.pc w.machine.fetch.1 with
  | none =>
      rw [executed] at stepped
      cases stepped
  | some result =>
      obtain ⟨after, e'⟩ := result
      obtain ⟨rfl, touches, same⟩ := Machine.execute_touches decodes executed
      obtain ⟨still, memory, registers, conditional, ia, queueing⟩ :=
        touches.settle ready same w.machine.pc
      rw [executed, Option.map_some] at stepped
      dsimp only at stepped
      rw [deliver_of_settled still] at stepped
      obtain ⟨rfl, rfl⟩ := Prod.mk.inj (Option.some.inj stepped)
      exact ⟨rfl, rfl, rfl, memory, registers, conditional, ia, queueing⟩

end Watched

namespace Machine

theorem TouchesOnly.literal {op : BasicOp} {m m' : Machine} {value : Word}
    (touches : TouchesOnly op (.literal value) m m') :
    m'.memory = m.memory ∧ ∀ r, ¬ op.Counts r → m'.register r = m.register r := by
  constructor
  · rcases touches.memory with same | ⟨address, _, elsewhere, _⟩
    · exact same
    · cases elsewhere
  · intro r uncounted
    by_contra changed
    rcases touches.registers r changed with elsewhere | counted
    · cases elsewhere
    · exact uncounted counted

/-- A basic instruction changes at most the one word or register that its first operand denotes, and
`i` and `j` if it counts them; a conditional changes none, and not `ex` either. No handler is set or
called, and no queueing begins or ends. -/
theorem basic_step_frame {number : LayoutNumber} {layout : Layout} {image : Array Word} {n : Nat}
    {machine m m' : Machine} {op : BasicOp} {e : Option StepError}
    (ran : (machine.load image).steps number n = some m)
    (basic : (layout.unpack (m.memory.read m.pc)).opcode ≠ Layout.extendedOpcode)
    (known : layout.basicOp? (layout.unpack (m.memory.read m.pc)).opcode = some op)
    (stepped : m.step layout = some (m', e)) :
    e = none ∧ ∃ a b resolved, m.resolve? layout = some (.basic op a b, resolved) ∧
      TouchesOnly op a m m' ∧
      (∀ value, a = .literal value →
        m'.memory = m.memory ∧ ∀ r, ¬ op.Counts r → m'.register r = m.register r) ∧
      ∀ sent delivered, Watched.step layout ⟨m, sent, delivered⟩ =
        some (⟨m', sent, delivered⟩, none) := by
  obtain ⟨first, second, decodedA, decodedB⟩ := layout.exists_operands (m.memory.read m.pc)
  have decodes : layout.DecodesBasic (m.memory.read m.pc) op first second :=
    ⟨basic, known, decodedA, decodedB⟩
  -- The same step, watched: the machine is the same, and nothing is added to what was seen.
  have watched (sent delivered : List Word) : ∃ w', Watched.step layout ⟨m, sent, delivered⟩ =
      some (w', e) ∧ w'.machine = m' := by
    have same := Watched.step_machine layout ⟨m, sent, delivered⟩
    rw [stepped] at same
    obtain ⟨⟨w', e'⟩, step, unwatched⟩ := Option.map_eq_some_iff.1 same
    obtain ⟨rfl, rfl⟩ := Prod.mk.inj unwatched
    exact ⟨w', step, rfl⟩
  obtain ⟨w', step, rfl⟩ := watched [] []
  obtain ⟨rfl, _, _, touches⟩ := Watched.step_basic_quiet (settled_of_steps ran) decodes step
  refine ⟨rfl, _, _, _, resolve?_eq_places decodes, touches, ?_, ?_⟩
  · intro value literal
    rw [literal] at touches
    exact touches.literal
  · intro sent delivered
    obtain ⟨seen, step, same⟩ := watched sent delivered
    obtain ⟨_, sent', delivered', _⟩ :=
      Watched.step_basic_quiet (settled_of_steps ran) decodes step
    obtain ⟨machine, _, _⟩ := seen
    subst same sent' delivered'
    exact step

/-- `ias 1`, `iaq 1`, `int 7`, `int 9`, `ias 0`, `iaq 0`, `sti [0x1000], 7` -/
def droppingImage : Array Word :=
  #[0x8940, 0x8980, 0xa100, 0xa900, 0x8540, 0x8580, 0xa3de, 0x1000]

theorem dropping_run {m : Machine} (fresh : m.pc = 0 ∧ m.queue = [] ∧ m.queueing = false)
    (reads : ∀ address : Word, m.memory.read address = droppingImage[address.toNat]?.getD 0) :
    ∃ w, (Watched.start m).steps ⟨2⟩ 6 = some w ∧ w.machine.pc = 6 ∧ w.machine.queue = [9] ∧
      w.machine.queueing = false ∧ w.machine.memory = m.memory := by
  have known : LayoutNumber.require ⟨2⟩ = .ok .v2 := rfl
  have sets : Layout.v2.DecodesExtended 0x8940 .ias (.short 1) := by constructor <;> decide
  have begins : Layout.v2.DecodesExtended 0x8980 .iaq (.short 1) := by constructor <;> decide
  have sends7 : Layout.v2.DecodesExtended 0xa100 .int (.short 7) := by constructor <;> decide
  have sends9 : Layout.v2.DecodesExtended 0xa900 .int (.short 9) := by constructor <;> decide
  have unsets : Layout.v2.DecodesExtended 0x8540 .ias (.short 0) := by constructor <;> decide
  have ends : Layout.v2.DecodesExtended 0x8580 .iaq (.short 0) := by constructor <;> decide
  have words : m.memory.read 0 = 0x8940 ∧ m.memory.read 1 = 0x8980 ∧ m.memory.read 2 = 0xa100 ∧
      m.memory.read 3 = 0xa900 ∧ m.memory.read 4 = 0x8540 ∧ m.memory.read 5 = 0x8580 :=
    ⟨reads 0, reads 1, reads 2, reads 3, reads 4, reads 5⟩
  simp [Watched.start, Watched.steps, Watched.stepOn, known, Watched.step, fetch,
    Watched.execute_of_decodes sets, Watched.execute_of_decodes begins,
    Watched.execute_of_decodes sends7, Watched.execute_of_decodes sends9,
    Watched.execute_of_decodes unsets, Watched.execute_of_decodes ends, fresh, words, place,
    Watched.extended, extended, get, Watched.deliver, noteHalt, Watched.interrupt, queueLimit]

theorem basic_step_frame_dropping :
    ∃ m m', (zero.load droppingImage).steps ⟨2⟩ 6 = some m ∧ m.queue = [9] ∧ m.queueing = false ∧
      m.step .v2 = some (m', none) ∧
      (m'.memory = m.memory ∨ ∃ value, m'.memory = m.memory.write 0x1000 value) ∧
      (∀ r, r ≠ .i → r ≠ .j → m'.register r = m.register r) ∧ m'.queueing = false ∧
      ∀ sent delivered, Watched.step .v2 ⟨m, sent, delivered⟩ =
        some (⟨m', sent, delivered⟩, none) := by
  obtain ⟨w, watched, pc, queue, queueing, memory⟩ := dropping_run (m := zero.load droppingImage)
    ⟨rfl, rfl, rfl⟩ (read_load zero droppingImage)
  have ran : (zero.load droppingImage).steps ⟨2⟩ 6 = some w.machine := by
    rw [← show (Watched.start (zero.load droppingImage)).machine = zero.load droppingImage from rfl,
      ← Watched.steps_machine, watched, Option.map_some]
  have decodes : Layout.v2.DecodesBasic 0xa3de .sti .direct (.short 7) := by
    constructor <;> decide
  have words : w.machine.memory.Holds w.machine.pc
      (0xa3de :: Layout.v2.tails .direct (.short 7) 0x1000 0) := by
    rw [memory, pc]
    exact Memory.holds_cons (read_load zero droppingImage 6)
      (Memory.holds_cons (read_load zero droppingImage 7) (Memory.holds_nil _ _))
  have stepped : ∃ m', w.machine.step .v2 = some (m', none) := ⟨_, decodes.step_eq words⟩
  obtain ⟨m', stepped⟩ := stepped
  have read := words.head
  obtain ⟨_, a, b, resolved, found, touches, _, quiet⟩ := basic_step_frame ran
    (by rw [read]; exact decodes.basic) (by rw [read]; exact decodes.operation) stepped
  have known : w.machine.resolve? .v2 = some (.basic .sti (.memory 0x1000) (.literal 7), _) :=
    resolve?_of_holds decodes words
  obtain ⟨same, _⟩ := Prod.mk.inj (Option.some.inj (found.symm.trans known))
  obtain ⟨_, rfl, _⟩ := PlacedOperation.basic.inj same
  refine ⟨w.machine, m', ran, queue, queueing, stepped, ?_, ?_, ?_, quiet⟩
  · rcases touches.memory with same | ⟨address, value, there, written⟩
    · exact .inl same
    · cases there
      exact .inr ⟨value, written⟩
  · intro r notI notJ
    by_contra changed
    rcases touches.registers r changed with elsewhere | ⟨_, counted⟩
    · cases elsewhere
    · exact counted.elim notI notJ
  · exact touches.queueing.trans queueing

end Machine

end Dcpu
