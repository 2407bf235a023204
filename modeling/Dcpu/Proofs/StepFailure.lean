import Dcpu.Proofs.InterruptOrder
import Dcpu.Proofs.ResolveOperands

set_option autoImplicit false

namespace Dcpu

namespace Machine

variable {layout : Layout} {m m' : Machine} {e : StepError}

structure Overflows (layout : Layout) (m : Machine) : Prop where
  extended : (layout.unpack (m.memory.read m.pc)).opcode = Layout.extendedOpcode
  sends : layout.extendedOp? (layout.unpack (m.memory.read m.pc)).a = some .int
  handler : m.ia ≠ 0
  queueing : m.queueing = true
  full : 256 ≤ m.queue.length

theorem interrupt_fails_iff {message address : Word} :
    m.interrupt message address = (m', some e) ↔
      (m.ia ≠ 0 ∧ m.queueing = true ∧ 256 ≤ m.queue.length) ∧
        e = .interruptOverflow address ∧ m' = m := by
  unfold interrupt
  split
  · rename_i unhandled
    simp [unhandled]
  · rename_i handler
    split
    · rename_i queueing
      split
      · rename_i full
        have long : 256 ≤ m.queue.length := full
        simp [handler, queueing, long, eq_comm, and_comm]
      · rename_i room
        have short : ¬ 256 ≤ m.queue.length := room
        simp [short]
    · rename_i ready
      simp [ready]

theorem extended_fails_iff {op : ExtendedOp} {a : Place} {address : Word} :
    m.extended op a address = (m', some e) ↔
      (op = .int ∧ m.ia ≠ 0 ∧ m.queueing = true ∧ 256 ≤ m.queue.length) ∧
        e = .interruptOverflow address ∧ m' = m := by
  by_cases sends : op = .int
  · subst sends
    exact interrupt_fails_iff.trans (by simp)
  · have fine := (extended_of_ne_int sends a address m).2
    refine iff_of_false (fun fails => ?_) (fun both => sends both.1.1)
    rw [fails] at fine
    cases fine

theorem step_illegal (illegal : layout.IsIllegal (m.memory.read m.pc)) :
    m.step layout = some ({ m with pc := m.pc + 1 },
      some (.illegalInstruction m.pc (m.memory.read m.pc))) := by
  rw [step_eq_resolve, resolve?_illegal illegal]
  rfl

theorem step_basic {op : BasicOp} {a b : Operand} {e : Option StepError}
    (decodes : layout.DecodesBasic (m.memory.read m.pc) op a b)
    (stepped : m.step layout = some (m', e)) : e = none := by
  obtain ⟨placeA, placeB, sp, resolved⟩ := resolve?_basic decodes
  rw [step_eq_resolve, resolved] at stepped
  obtain ⟨result, performed, settled⟩ := Option.map_eq_some_iff.1 stepped
  obtain ⟨after, _, rfl⟩ := Option.map_eq_some_iff.1 performed
  cases settled
  rfl

theorem settle_fails_iff {result : Machine × Option StepError} {address : Word} :
    settle address result = (m', some e) ↔ result = (m', some e) := by
  obtain ⟨m, _ | e⟩ := result <;> simp [settle]

theorem step_extended_fails_iff {op : ExtendedOp} {operand : Operand}
    (decodes : layout.DecodesExtended (m.memory.read m.pc) op operand) :
    m.step layout = some (m', some e) ↔
      (op = .int ∧ m.ia ≠ 0 ∧ m.queueing = true ∧ 256 ≤ m.queue.length) ∧
        e = .interruptOverflow m.pc ∧
        m' = { m with pc := m.memory.behind layout m.pc, sp := operand.stackAfter m.sp } := by
  obtain ⟨place, resolved⟩ := resolve?_extended decodes
  rw [step_eq_resolve, resolved]
  simp only [perform, Option.map_some, Option.some.injEq, settle_fails_iff, extended_fails_iff]

theorem overflows_iff :
    m.Overflows layout ↔
      ∃ operand, layout.DecodesExtended (m.memory.read m.pc) .int operand ∧
        m.ia ≠ 0 ∧ m.queueing = true ∧ 256 ≤ m.queue.length := by
  constructor
  · intro overflows
    obtain ⟨_, operand, _, decoded⟩ := layout.exists_operands (m.memory.read m.pc)
    exact ⟨operand, ⟨overflows.extended, overflows.sends, decoded⟩, overflows.handler,
      overflows.queueing, overflows.full⟩
  · rintro ⟨operand, decodes, handler, queueing, full⟩
    exact ⟨decodes.extended, decodes.operation, handler, queueing, full⟩

theorem step_fails_iff :
    m.step layout = some (m', some e) ↔
      (layout.IsIllegal (m.memory.read m.pc) ∧
        e = .illegalInstruction m.pc (m.memory.read m.pc) ∧ m' = { m with pc := m.pc + 1 }) ∨
      (m.Overflows layout ∧ e = .interruptOverflow m.pc ∧
        ∃ operand, layout.decode? .b (layout.unpack (m.memory.read m.pc)).b = some operand ∧
          m' = { m with pc := m.memory.behind layout m.pc, sp := operand.stackAfter m.sp }) := by
  -- What the word is leaves one way to fail at most: a basic operation has none.
  rcases layout.reads_cases (m.memory.read m.pc) with
    illegal | ⟨op, a, b, decodes⟩ | ⟨op, operand, decodes⟩
  · rw [step_illegal illegal]
    constructor
    · intro stepped
      cases stepped
      exact .inl ⟨illegal, rfl, rfl⟩
    · rintro (⟨_, rfl, rfl⟩ | ⟨overflows, _⟩)
      · rfl
      · obtain ⟨operand, decodes, _⟩ := overflows_iff.1 overflows
        exact absurd illegal decodes.not_illegal
  · refine iff_of_false (fun stepped => ?_) ?_
    · cases step_basic decodes stepped
    · rintro (⟨illegal, _⟩ | ⟨overflows, _⟩)
      · exact decodes.not_illegal illegal
      · exact decodes.basic overflows.extended
  · rw [step_extended_fails_iff decodes]
    constructor
    · rintro ⟨⟨rfl, room⟩, failed, after⟩
      exact .inr ⟨overflows_iff.2 ⟨operand, decodes, room⟩, failed, operand, decodes.operand, after⟩
    · rintro (⟨illegal, _⟩ | ⟨overflows, failed, other, decoded, after⟩)
      · exact absurd illegal decodes.not_illegal
      · obtain rfl := Option.some.inj (decodes.operation.symm.trans overflows.sends)
        obtain rfl := Option.some.inj (decodes.operand.symm.trans decoded)
        exact ⟨⟨rfl, overflows.handler, overflows.queueing, overflows.full⟩, failed, after⟩

/-- A step fails exactly at a word that is no instruction and at an interrupt that finds no room.
The first moves the program counter by one word, the second resolves the operand, and nothing else
changes. -/
theorem step_fails_exactly (layout : Layout) (m : Machine) :
    ((∃ m' address word, m.step layout = some (m', some (.illegalInstruction address word))) ↔
        layout.IsIllegal (m.memory.read m.pc)) ∧
      (∀ m' address word, m.step layout = some (m', some (.illegalInstruction address word)) →
        address = m.pc ∧ word = m.memory.read m.pc ∧ m' = { m with pc := m.pc + 1 }) ∧
      ((∃ m' address, m.step layout = some (m', some (.interruptOverflow address))) ↔
        m.Overflows layout) ∧
      (∀ m' address, m.step layout = some (m', some (.interruptOverflow address)) →
        address = m.pc ∧
          ∃ operand, layout.decode? .b (layout.unpack (m.memory.read m.pc)).b = some operand ∧
            m' = { m with pc := m.memory.behind layout m.pc, sp := operand.stackAfter m.sp }) ∧
      (¬ layout.IsIllegal (m.memory.read m.pc) → ¬ m.Overflows layout →
        ∀ m' e, m.step layout = some (m', e) → e = none) := by
  simp only [step_fails_iff]
  refine ⟨⟨?_, ?_⟩, ?_, ⟨?_, ?_⟩, ?_, ?_⟩
  · rintro ⟨m', address, word, ⟨illegal, _⟩ | ⟨_, failed, _⟩⟩
    · exact illegal
    · cases failed
  · exact fun illegal => ⟨_, _, _, .inl ⟨illegal, rfl, rfl⟩⟩
  · rintro m' address word (⟨_, failed, after⟩ | ⟨_, failed, _⟩)
    · cases failed
      exact ⟨rfl, rfl, after⟩
    · cases failed
  · rintro ⟨m', address, ⟨_, failed, _⟩ | ⟨overflows, _⟩⟩
    · cases failed
    · exact overflows
  · intro overflows
    obtain ⟨operand, decodes, _⟩ := overflows_iff.1 overflows
    exact ⟨_, _, .inr ⟨overflows, rfl, operand, decodes.operand, rfl⟩⟩
  · rintro m' address (⟨_, failed, _⟩ | ⟨_, failed, after⟩)
    · cases failed
    · cases failed
      exact ⟨rfl, after⟩
  · intro legal room m' e stepped
    cases e with
    | none => rfl
    | some e =>
        rcases step_fails_iff.1 stepped with ⟨illegal, _⟩ | ⟨overflows, _⟩
        · exact absurd illegal legal
        · exact absurd overflows room

def crowded : Machine :=
  { zero.load #[0xa100] with ia := 2, queueing := true, queue := List.replicate 256 0 }

theorem read_crowded : crowded.memory.read crowded.pc = 0xa100 :=
  read_load zero #[0xa100] 0

theorem step_fails_exactly_crowded :
    crowded.step .v2 = some ({ crowded with pc := 1 }, some (.interruptOverflow 0)) ∧
      (zero.load #[0x0018]).step .v2 =
        some ({ zero.load #[0x0018] with pc := 1 }, some (.illegalInstruction 0 0x0018)) := by
  constructor
  · obtain ⟨_, _, overflow, after, _⟩ := step_fails_exactly .v2 crowded
    have overflows : crowded.Overflows .v2 := by
      constructor
      · rw [read_crowded]
        decide
      · rw [read_crowded]
        decide
      · decide
      · rfl
      · exact Nat.le_of_eq List.length_replicate.symm
    obtain ⟨m', address, stepped⟩ := overflow.2 overflows
    obtain ⟨rfl, operand, decoded, rfl⟩ := after m' address stepped
    have short : Layout.v2.decode? .b (Layout.v2.unpack 0xa100).b = some (.short 7) := by decide
    rw [read_crowded, short] at decoded
    obtain rfl := Option.some.inj decoded
    have next : crowded.memory.behind .v2 crowded.pc = 1 := by
      rw [Memory.behind, read_crowded]
      decide
    rw [stepped, next]
    rfl
  · have word : (zero.load #[0x0018]).memory.read (zero.load #[0x0018]).pc = 0x0018 :=
      read_load _ _ _
    obtain ⟨illegal, after, _⟩ := step_fails_exactly .v2 (zero.load #[0x0018])
    have unknown :
        Layout.v2.IsIllegal ((zero.load #[0x0018]).memory.read (zero.load #[0x0018]).pc) := by
      rw [word]
      exact .inl (by decide)
    obtain ⟨m', address, read, stepped⟩ := illegal.2 unknown
    obtain ⟨rfl, shown, rfl⟩ := after m' address read stepped
    rw [shown.trans word] at stepped
    exact stepped

end Machine

end Dcpu
