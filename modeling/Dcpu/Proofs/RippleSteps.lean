import Dcpu.Proofs.BasicFrame
import Dcpu.Proofs.RippleWords

set_option autoImplicit false

namespace Dcpu

namespace Machine

variable {layout : Layout} {op next : BasicOp} {cells words : List Word} {pairs : List WordPair}
  {m m' resolved after : Machine} {e : Option StepError}

structure CarriesOver (cells : List Word) (m m' : Machine) : Prop where
  ex : m'.ex = m.ex
  cells : ∀ cell ∈ cells, m'.memory.read cell = m.memory.read cell

theorem CarriesOver.trans {m'' : Machine} (first : CarriesOver cells m m')
    (second : CarriesOver cells m' m'') : CarriesOver cells m m'' where
  ex := second.ex.trans first.ex
  cells cell member := (second.cells cell member).trans (first.cells cell member)

/-- A machine comes to do one operation on the first pair and another on each that follows, with the
cells and `ex` carried over from each to the next. The words are what the sources held when it came
to them. -/
inductive Executes (layout : Layout) (next : BasicOp) (cells : List Word) :
    BasicOp → List WordPair → List Word → Machine → Machine → Prop
  | done {op : BasicOp} {m m' : Machine} (carried : CarriesOver cells m m') :
      Executes layout next cells op [] [] m m'
  | turn {op : BasicOp} {pair : WordPair} {pairs : List WordPair} {words : List Word}
      {m before after m' : Machine} (carried : CarriesOver cells m before)
      (worked : before.basic layout op (.memory pair.cell) pair.source = some after)
      (rest : Executes layout next cells next pairs words after m') :
      Executes layout next cells op (pair :: pairs) (before.get pair.source :: words) m m'

def against (m : Machine) (pairs : List WordPair) (words : List Word) : List (Word × Word) :=
  (pairs.map fun pair => m.memory.read pair.cell).zip words

theorem against_fst (length : words.length = pairs.length) :
    (m.against pairs words).map Prod.fst = pairs.map fun pair => m.memory.read pair.cell :=
  List.map_fst_zip (by rw [List.length_map, length])

theorem against_snd (length : words.length = pairs.length) :
    (m.against pairs words).map Prod.snd = words :=
  List.map_snd_zip (by rw [List.length_map, length])

theorem length_against (length : words.length = pairs.length) :
    (m.against pairs words).length = pairs.length := by
  rw [against, List.length_zip, List.length_map, length, Nat.min_self]

namespace Executes

theorem carried (kept : CarriesOver cells m m') {last : Machine}
    (executes : Executes layout next cells op pairs words m' last) :
    Executes layout next cells op pairs words m last := by
  cases executes with
  | done further => exact .done (kept.trans further)
  | turn further worked rest => exact .turn (kept.trans further) worked rest

theorem ripples {ex : Word} (executes : Executes layout next cells op pairs words m m')
    (carries : next.Carries) (starts : ∀ x y, op.compute? x y m.ex = next.compute? x y ex)
    (ready : pairs = [] → m.ex = ex) (distinct : (pairs.map WordPair.cell).Nodup)
    (within : ∀ pair ∈ pairs, pair.cell ∈ cells) :
    words.length = pairs.length ∧
      next.Ripples ex (m.against pairs words)
        (pairs.map fun pair => m'.memory.read pair.cell) m'.ex ∧
      ∀ cell ∈ cells, cell ∉ pairs.map WordPair.cell →
        m'.memory.read cell = m.memory.read cell := by
  induction executes generalizing ex with
  | done carried =>
      rw [← ready rfl, ← carried.ex]
      exact ⟨rfl, .nil _, fun cell member _ => carried.cells cell member⟩
  | @turn op pair pairs words m before after m' carried worked _ ih =>
      obtain ⟨apart, distinct⟩ := List.nodup_cons.1 distinct
      have own : pair.cell ∈ cells := within pair List.mem_cons_self
      obtain ⟨value, carry, computed⟩ := carries (pair.words before).1 (pair.words before).2 ex
      have same : op.compute? (pair.words before).1 (pair.words before).2 before.ex =
          some ⟨value, some carry⟩ := by
        rw [carried.ex, starts, computed]
      obtain rfl := Option.some.inj (worked.symm.trans (basic_memory layout same))
      -- From here on `ex` is the carry, and the next operation is the one that adds it.
      obtain ⟨length, rippled, others⟩ := @ih carry (fun _ _ => rfl) (fun _ => rfl) distinct
        fun other member => within other (List.mem_cons_of_mem _ member)
      have kept (cell : Word) (member : cell ∈ cells) (other : cell ≠ pair.cell) :
          (before.memory.write pair.cell value).read cell = m.memory.read cell := by
        rw [Memory.read_write, if_neg other.symm, carried.cells cell member]
      refine ⟨congrArg (· + 1) length, ?_, ?_⟩
      · have written : m'.memory.read pair.cell = value := by
          rw [others pair.cell own apart]
          exact before.memory.read_write_self pair.cell value
        have later : (pairs.map fun other =>
            (before.memory.write pair.cell value).read other.cell) =
              pairs.map fun other => m.memory.read other.cell := by
          refine List.map_congr_left fun other member => kept other.cell ?_ ?_
          · exact within other (List.mem_cons_of_mem _ member)
          · exact fun equal => apart (equal ▸ List.mem_map_of_mem member)
        rw [against, List.map_cons, List.map_cons, List.zip_cons_cons, written, ← later,
          ← carried.cells pair.cell own]
        exact .cons computed rippled
      · intro cell member outside
        rw [List.map_cons, List.mem_cons, not_or] at outside
        exact (others cell member outside.2).trans (kept cell member outside.1)

theorem ripples_from_zero
    (executes : Executes layout next (pairs.map WordPair.cell) op pairs words m m')
    (carries : next.Carries) (starts : ∀ x y, op.compute? x y m.ex = next.compute? x y 0)
    (nonempty : pairs ≠ []) (distinct : (pairs.map WordPair.cell).Nodup) :
    words.length = pairs.length ∧
      next.Ripples 0 (m.against pairs words)
        (pairs.map fun pair => m'.memory.read pair.cell) m'.ex := by
  obtain ⟨length, rippled, _⟩ := executes.ripples carries starts
    (fun none => absurd none nonempty) distinct fun _ member => List.mem_map_of_mem member
  exact ⟨length, rippled⟩

end Executes

theorem onWords_self (layout : Layout) (op : BasicOp) (pairs : List WordPair) (m : Machine) :
    m.onWords layout op op pairs = m.onEach layout op pairs := by
  cases pairs <;> rfl

theorem onWords_executes (layout : Layout) (carries : op.Carries) (further : next.Carries)
    (cells : List Word) (pairs : List WordPair) (m : Machine) :
    ∃ m' words, m.onWords layout op next pairs = some m' ∧
      Executes layout next cells op pairs words m m' ∧
      (pairs.Pairwise WordPair.Spares → words = pairs.map fun pair => m.get pair.source) := by
  induction pairs generalizing op m with
  | nil => exact ⟨m, [], rfl, .done ⟨rfl, fun _ _ => rfl⟩, fun _ => rfl⟩
  | cons pair pairs ih =>
      obtain ⟨value, carry, computed⟩ := carries (pair.words m).1 (pair.words m).2 m.ex
      have worked := basic_memory layout computed
      obtain ⟨m', words, ran, executes, taken⟩ :=
        ih further { m with memory := m.memory.write pair.cell value, ex := carry }
      refine ⟨m', _, ?_, .turn ⟨rfl, fun _ _ => rfl⟩ worked executes, ?_⟩
      · rw [onWords_self] at ran
        simp only [onWords, worked, ran]
      · intro spares
        obtain ⟨sparesFirst, sparesRest⟩ := List.pairwise_cons.1 spares
        rw [taken sparesRest, List.map_cons]
        refine congrArg _ (List.map_congr_left fun other member => ?_)
        exact congrArg Prod.snd (words_after (sparesFirst other member) m value carry)

theorem Executes.of_step {cell : Word} {source : Place} (settled : m.Settled)
    (found : m.resolve? layout = some (.basic op (.memory cell) source, resolved))
    (stepped : m.step layout = some (after, e))
    (rest : Executes layout next cells next pairs words after m') :
    Executes layout next cells op (⟨cell, source⟩ :: pairs) (resolved.get source :: words) m
      m' := by
  obtain ⟨pc, sp, moved⟩ := resolve?_moves found
  cases worked : resolved.basic layout op (.memory cell) source with
  | none =>
      rw [step_eq_resolve, found] at stepped
      simp only [perform, worked, Option.map_none] at stepped
      cases stepped
  | some done =>
      obtain ⟨halted, queue, same, _⟩ := step_of_basic settled found worked
      obtain ⟨rfl, _⟩ := Prod.mk.inj (Option.some.inj (stepped.symm.trans same))
      refine .turn ⟨by rw [moved], fun _ _ => by rw [moved]⟩ worked (rest.carried ?_)
      exact ⟨rfl, fun _ _ => rfl⟩

theorem onWords_frame (carries : op.Carries) (further : next.Carries)
    (ran : m.onWords layout op next pairs = some m') :
    (∀ address, (∀ pair ∈ pairs, pair.cell ≠ address) →
      m'.memory.read address = m.memory.read address) ∧
    m' = { m with memory := m'.memory, ex := m'.ex } := by
  induction pairs generalizing op m with
  | nil =>
      obtain rfl := Option.some.inj ran
      exact ⟨fun _ _ => rfl, rfl⟩
  | cons pair pairs ih =>
      obtain ⟨value, carry, computed⟩ := carries (pair.words m).1 (pair.words m).2 m.ex
      simp only [onWords, basic_memory layout computed] at ran
      rw [← onWords_self] at ran
      obtain ⟨others, rest⟩ := ih further ran
      refine ⟨fun address outside => ?_, rest⟩
      obtain ⟨here, there⟩ := List.forall_mem_cons.1 outside
      rw [others address there, Memory.read_write, if_neg here]

section Program

def directPairs (places : List (Word × Word)) : List WordPair :=
  places.map fun place => ⟨place.1, .memory place.2⟩

def directWords (first further : Word) : List (Word × Word) → List Word
  -- The first instruction may be another than those that follow.
  | [] => []
  | (x, y) :: rest => first :: y :: x :: directWords further further rest

theorem length_directWords (first further : Word) (places : List (Word × Word)) :
    (directWords first further places).length = 3 * places.length := by
  induction places generalizing first with
  | nil => rfl
  | cons place rest ih =>
      simp only [directWords, List.length_cons, ih]
      omega

theorem step_direct {word x y : Word} (settled : m.Settled) (carries : op.Carries)
    (decodes : Layout.v2.DecodesBasic word op .direct .direct)
    (holds : m.memory.Holds m.pc [word, y, x]) :
    ∃ after value, m.step .v2 = some (after, none) ∧ after.Settled ∧ after.pc = m.pc + 3 ∧
      after.memory = m.memory.write x value ∧
      ∀ {next cells pairs words m'}, Executes .v2 next cells next pairs words after m' →
        Executes .v2 next cells op (⟨x, .memory y⟩ :: pairs) (m.memory.read y :: words) m m' := by
  have found : m.resolve? .v2 =
      some (.basic op (.memory x) (.memory y), { m with pc := m.pc + 1 + 2 }) :=
    resolve?_of_holds decodes holds
  obtain ⟨value, carry, computed⟩ := carries (m.memory.read x) (m.memory.read y) m.ex
  have worked : basic .v2 op (.memory x) (.memory y) { m with pc := m.pc + 1 + 2 } =
      some { m with pc := m.pc + 1 + 2, memory := m.memory.write x value, ex := carry } :=
    basic_of_compute? (m := { m with pc := m.pc + 1 + 2 }) (a := .memory x) (b := .memory y) .v2
      computed rfl
  obtain ⟨halted, queue, stepped, still⟩ := step_of_basic settled found worked
  exact ⟨_, value, stepped, still, UInt16.add_assoc _ _ _, rfl, fun rest =>
    (Executes.of_step settled found stepped rest :)⟩

theorem run_direct {first further : Word} {places : List (Word × Word)} (settled : m.Settled)
    (carries : op.Carries) (carriesOn : next.Carries)
    (decodes : Layout.v2.DecodesBasic first op .direct .direct)
    (decodesNext : Layout.v2.DecodesBasic further next .direct .direct)
    (holds : m.memory.Holds m.pc (directWords first further places))
    (apart : ∀ place ∈ places, ∀ i < 3 * places.length, place.1 ≠ m.pc + i.toUInt16)
    (cells : List Word) :
    ∃ m' words, m.steps ⟨2⟩ places.length = some m' ∧
      Executes .v2 next cells op (directPairs places) words m m' ∧
      ((directPairs places).Pairwise WordPair.Spares →
        words = places.map fun place => m.memory.read place.2) := by
  induction places generalizing op first m with
  | nil => exact ⟨m, [], rfl, .done ⟨rfl, fun _ _ => rfl⟩, fun _ => rfl⟩
  | cons place rest ih =>
      obtain ⟨x, y⟩ := place
      obtain ⟨after, value, stepped, still, pc, memory, turn⟩ :=
        step_direct settled carries decodes (@Memory.Holds.left _ _ [first, y, x] _ holds)
      -- Behind the instruction the program goes on as it was.
      have later (i : Nat) : after.pc + i.toUInt16 = m.pc + (3 + i).toUInt16 := by
        rw [pc, Nat.toUInt16_eq, Nat.toUInt16_eq, UInt16.ofNat_add, UInt16.add_assoc]
        rfl
      have holds' : after.memory.Holds after.pc (directWords further further rest) := by
        have behind : m.memory.Holds (m.pc + 3) (directWords further further rest) :=
          holds.right [first, y, x]
        rw [memory, pc]
        refine behind.write fun i within => ?_
        rw [← pc, later]
        rw [length_directWords] at within
        exact apart _ (.head _) _ (by rw [List.length_cons]; omega)
      have apart' (place : Word × Word) (member : place ∈ rest) (i : Nat)
          (within : i < 3 * rest.length) : place.1 ≠ after.pc + i.toUInt16 := by
        rw [later]
        exact apart place (.tail _ member) _ (by rw [List.length_cons]; omega)
      obtain ⟨m', words, ran, executes, read⟩ := ih still carriesOn decodesNext holds' apart'
      refine ⟨m', _, ?_, turn executes, fun spares => ?_⟩
      · have known : LayoutNumber.require ⟨2⟩ = .ok .v2 := rfl
        simp only [List.length_cons, steps, stepOn, known, stepped]
        exact ran
      · obtain ⟨sparesFirst, sparesRest⟩ := List.pairwise_cons.1 spares
        rw [read sparesRest, List.map_cons, memory]
        refine congrArg _ (List.map_congr_left fun other member => ?_)
        obtain ⟨_, unwritten, _⟩ := sparesFirst ⟨other.1, .memory other.2⟩
          (List.mem_map_of_mem member)
        rw [Memory.read_write, if_neg fun same => unwritten (congrArg Place.memory same.symm)]

end Program

end Machine

end Dcpu
