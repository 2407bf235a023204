import Dcpu.Proofs.ResolveOperands
import Mathlib.Data.Fintype.Card
import Mathlib.Logic.Function.Iterate

/-!
Passing over instructions. The loop has no counter, and on `v2` it goes on behind every conditional,
so it may run for ever. It ends exactly if the walk from instruction to instruction meets something
else, and then it has met it within as many instructions as there are addresses.
-/

set_option autoImplicit false

namespace Dcpu

def Layout.Chains (layout : Layout) (word : Word) : Prop :=
  layout = .v2 ∧
    ∃ op, layout.basicOp? (layout.unpack word).opcode = some op ∧ op.isConditional = true

namespace Memory

variable {layout : Layout} {memory : Memory} {start : Word} {k : Nat}

/-- The address of an instruction on the walk from instruction to instruction, counted from zero. -/
def visited (layout : Layout) (memory : Memory) (start : Word) (n : Nat) : Word :=
  (memory.behind layout)^[n] start

theorem visited_add (layout : Layout) (memory : Memory) (start : Word) (i j : Nat) :
    memory.visited layout start (i + j) = memory.visited layout (memory.visited layout start j) i :=
  Function.iterate_add_apply _ i j start

/-- The walk meets something that is no conditional for the first time as its instruction `k`. -/
structure EndsAt (layout : Layout) (memory : Memory) (start : Word) (k : Nat) : Prop where
  chains : ∀ i < k, layout.Chains (memory.read (memory.visited layout start i))
  ends : ¬ layout.Chains (memory.read (memory.visited layout start k))

theorem EndsAt.next (goes : layout.Chains (memory.read start))
    (rest : memory.EndsAt layout (memory.behind layout start) k) :
    memory.EndsAt layout start (k + 1) := by
  constructor
  · intro i within
    cases i with
    | zero => exact goes
    | succ i => exact rest.chains i (by omega)
  · exact rest.ends

theorem EndsAt.tail (endsAt : memory.EndsAt layout start (k + 1)) :
    layout.Chains (memory.read start) ∧ memory.EndsAt layout (memory.behind layout start) k := by
  refine ⟨endsAt.chains 0 (by omega), ?_, endsAt.ends⟩
  intro i within
  exact endsAt.chains (i + 1) (by omega)

theorem EndsAt.lt_addressSpace (endsAt : memory.EndsAt layout start k) : k < 65536 := by
  -- No address comes twice before the end: from there on the walk would repeat itself.
  have apart (i j : Nat) (earlier : i < j) (within : j ≤ k)
      (same : memory.visited layout start i = memory.visited layout start j) : False := by
    have again : memory.visited layout start (k - j + i) = memory.visited layout start k := by
      rw [memory.visited_add, same, ← memory.visited_add, Nat.sub_add_cancel within]
    exact endsAt.ends (again ▸ endsAt.chains (k - j + i) (by omega))
  let place (i : Fin (k + 1)) : Fin UInt16.size := (memory.visited layout start i.val).toFin
  have injective : Function.Injective place := by
    intro i j same
    have addresses := UInt16.toFin_inj.1 same
    rcases Nat.lt_trichotomy i.val j.val with less | equal | greater
    · exact (apart _ _ less (by omega) addresses).elim
    · exact Fin.ext equal
    · exact (apart _ _ greater (by omega) addresses.symm).elim
  have count := Fintype.card_le_of_injective place injective
  simp only [Fintype.card_fin, UInt16.size] at count
  omega

end Memory

namespace Machine

variable {layout : Layout} {m m' : Machine} {n : Nat}

/-- The loop, without a bound on its rounds, ends in a machine after so many. -/
inductive Skips (layout : Layout) : Machine → Nat → Machine → Prop
  | last {m : Machine} (ends : (passOver layout m.memory m.pc).2 = false) :
      Skips layout m 1 { m with pc := (passOver layout m.memory m.pc).1 }
  | next {m m' : Machine} {n : Nat} (goes : (passOver layout m.memory m.pc).2 = true)
      (rest : Skips layout { m with pc := (passOver layout m.memory m.pc).1 } n m') :
      Skips layout m (n + 1) m'

theorem passOver_behind (layout : Layout) (memory : Memory) (pc : Word) :
    (passOver layout memory pc).1 = memory.behind layout pc := by
  obtain ⟨a, b, first, second⟩ := layout.exists_operands (memory.read pc)
  simp only [passOver, Layout.codeHasTail, first, second, Memory.behind, Layout.size,
    Layout.operands]
  by_cases extended : (layout.unpack (memory.read pc)).opcode = Layout.extendedOpcode
  · simp only [if_pos extended]
    cases tail : b.hasTail <;> simp [tail, UInt16.add_assoc]
  · simp only [if_neg extended]
    cases tailA : a.hasTail <;> cases tailB : b.hasTail <;> simp [tailA, tailB, UInt16.add_assoc]

theorem passOver_chains (layout : Layout) (memory : Memory) (pc : Word) :
    (passOver layout memory pc).2 = true ↔ layout.Chains (memory.read pc) := by
  unfold passOver
  dsimp only
  split
  · -- The opcode that the extended operations share is no conditional's.
    rename_i extended
    have unknown : Layout.v2.basicOp? Layout.extendedOpcode = none := by decide
    refine iff_of_false Bool.false_ne_true ?_
    rintro ⟨rfl, op, known, _⟩
    rw [extended, unknown] at known
    cases known
  · simp [Layout.Chains, Option.any_eq_true]

theorem skips_iff :
    m.Skips layout n m' ↔
      ∃ k, n = k + 1 ∧ m.memory.EndsAt layout m.pc k ∧
        m' = { m with pc := m.memory.behind layout (m.memory.visited layout m.pc k) } := by
  constructor
  · intro skips
    -- Each round of the loop is a step of the walk.
    induction skips with
    | @last m ends =>
        refine ⟨0, rfl, ⟨by simp, ?_⟩, ?_⟩
        · intro chains
          exact Bool.false_ne_true (ends.symm.trans ((passOver_chains _ _ _).2 chains))
        · rw [passOver_behind]
          rfl
    | @next m m' n goes rest ih =>
        obtain ⟨k, rfl, endsAt, rfl⟩ := ih
        dsimp only at endsAt
        rw [passOver_behind] at endsAt
        refine ⟨k + 1, rfl, endsAt.next ((passOver_chains _ _ _).1 goes), ?_⟩
        rw [passOver_behind]
        rfl
  · rintro ⟨k, rfl, endsAt, rfl⟩
    induction k generalizing m with
    | zero =>
        have ends : (passOver layout m.memory m.pc).2 = false := by
          rw [← Bool.not_eq_true, passOver_chains]
          exact endsAt.ends
        have last := Skips.last ends
        rw [passOver_behind] at last
        exact last
    | succ k ih =>
        obtain ⟨chains, tail⟩ := endsAt.tail
        refine .next ((passOver_chains _ _ _).2 chains) ?_
        rw [passOver_behind]
        exact ih tail

theorem exists_skips_iff :
    (∃ n m', m.Skips layout n m') ↔
      ∃ n, ¬ layout.Chains (m.memory.read (m.memory.visited layout m.pc n)) := by
  classical
  constructor
  · rintro ⟨n, m', skips⟩
    obtain ⟨k, _, endsAt, _⟩ := skips_iff.1 skips
    exact ⟨k, endsAt.ends⟩
  · intro ends
    -- The loop ends at the first such instruction on the walk.
    refine ⟨_, _, skips_iff.2 ⟨Nat.find ends, rfl, ⟨?_, Nat.find_spec ends⟩, rfl⟩⟩
    exact fun i within => not_not.1 (Nat.find_min ends within)

theorem skipWithin_eq_some_iff {memory : Memory} {fuel : Nat} {start stop : Word} :
    skipWithin layout memory fuel start = some stop ↔
      ∃ k < fuel, memory.EndsAt layout start k ∧
        stop = memory.behind layout (memory.visited layout start k) := by
  -- Each instruction of the walk takes one unit of the fuel.
  induction fuel generalizing start with
  | zero => simp [skipWithin]
  | succ fuel ih =>
      cases again : (passOver layout memory start).2 with
      | true =>
          have goes := (passOver_chains _ _ _).1 again
          simp only [skipWithin, again, if_true, ih, passOver_behind]
          constructor
          · rintro ⟨k, within, rest, rfl⟩
            exact ⟨k + 1, by omega, rest.next goes, rfl⟩
          · rintro ⟨k, within, endsAt, rfl⟩
            cases k with
            | zero => exact absurd goes endsAt.ends
            | succ k => exact ⟨k, by omega, endsAt.tail.2, rfl⟩
      | false =>
          have ends : ¬ layout.Chains (memory.read start) := by
            rw [← passOver_chains, again]
            exact Bool.false_ne_true
          simp only [skipWithin, again, Bool.false_eq_true, if_false, passOver_behind,
            Option.some.injEq]
          constructor
          · rintro rfl
            exact ⟨0, by omega, ⟨by simp, ends⟩, rfl⟩
          · rintro ⟨k, within, endsAt, rfl⟩
            cases k with
            | zero => rfl
            | succ k => exact absurd endsAt.tail.1 ends

theorem skip_eq_some_iff : m.skip layout = some m' ↔ ∃ n, m.Skips layout n m' := by
  simp only [skips_iff]
  unfold skip
  constructor
  · intro skipped
    split at skipped
    · rename_i stop found
      obtain ⟨k, _, endsAt, rfl⟩ := skipWithin_eq_some_iff.1 found
      exact ⟨k + 1, k, rfl, endsAt, (Option.some.inj skipped).symm⟩
    · contradiction
  · rintro ⟨_, k, _, endsAt, rfl⟩
    have found : skipWithin layout m.memory addressSpace m.pc = some _ :=
      skipWithin_eq_some_iff.2 ⟨k, endsAt.lt_addressSpace, endsAt, rfl⟩
    rw [found]

theorem skip_eq_none_iff :
    m.skip layout = none ↔
      ∀ n, layout.Chains (m.memory.read (m.memory.visited layout m.pc n)) := by
  rw [Option.eq_none_iff_forall_not_mem]
  constructor
  · intro none n
    by_contra ends
    obtain ⟨n, m', skips⟩ := exists_skips_iff.2 ⟨n, ends⟩
    exact none m' (skip_eq_some_iff.2 ⟨n, skips⟩)
  · intro chains m' skipped
    obtain ⟨n, skips⟩ := skip_eq_some_iff.1 skipped
    obtain ⟨n, ends⟩ := exists_skips_iff.1 ⟨n, m', skips⟩
    exact ends (chains n)

end Machine

theorem BasicOp.compute?_eq_none_iff (op : BasicOp) (x y ex : Word) :
    op.compute? x y ex = none ↔ op.isConditional = true := by
  cases op with
  | div => by_cases zero : y = 0 <;> simp [compute?, isConditional, zero]
  | dvi => by_cases zero : y = 0 <;> simp [compute?, isConditional, zero]
  | _ => simp [compute?, isConditional]

namespace Machine

variable {layout : Layout} {m : Machine}

def FailsTest (layout : Layout) (m : Machine) : Prop :=
  ∃ op a b after, m.resolve? layout = some (.basic op a b, after) ∧ op.isConditional = true ∧
    op.test (after.get a) (after.get b) = false

theorem basic_eq_none_iff {op : BasicOp} {a b : Place} :
    m.basic layout op a b = none ↔
      (op.isConditional = true ∧ op.test (m.get a) (m.get b) = false) ∧ m.skip layout = none := by
  rw [← op.compute?_eq_none_iff (m.get a) (m.get b) m.ex]
  simp only [basic]
  cases op.compute? (m.get a) (m.get b) m.ex with
  | some result => simp
  | none => cases op.test (m.get a) (m.get b) <;> simp

theorem step_eq_none_iff :
    m.step layout = none ↔
      m.FailsTest layout ∧ ∀ n, layout.Chains
        (m.memory.read (m.memory.visited layout (m.memory.behind layout m.pc) n)) := by
  rcases layout.reads_cases (m.memory.read m.pc) with
    illegal | ⟨op, a, b, decodes⟩ | ⟨op, operand, decodes⟩
  · have resolved := resolve?_illegal illegal
    rw [step_eq_resolve, FailsTest, resolved]
    simp
  · obtain ⟨placeA, placeB, sp, resolved⟩ := resolve?_basic decodes
    rw [step_eq_resolve, FailsTest, resolved]
    simp [perform, basic_eq_none_iff, skip_eq_none_iff]
  · obtain ⟨place, resolved⟩ := resolve?_extended decodes
    rw [step_eq_resolve, FailsTest, resolved]
    simp [perform]

/-- The loop ends exactly if one of the first 65536 instructions on its way is no conditional of
`v2`. It then stands behind the first such instruction and has changed nothing but the program
counter. A step has no end exactly if it is that of a failed test and the way behind it has
none. -/
theorem skip_exactly (layout : Layout) (m : Machine) :
    ((∃ n m', m.Skips layout n m') ↔
        ∃ n < 65536, ¬ layout.Chains (m.memory.read (m.memory.visited layout m.pc n))) ∧
      (∀ n m', m.Skips layout n m' →
        n ≤ 65536 ∧ ∃ k, n = k + 1 ∧
          (∀ i < k, layout.Chains (m.memory.read (m.memory.visited layout m.pc i))) ∧
          ¬ layout.Chains (m.memory.read (m.memory.visited layout m.pc k)) ∧
          m' = { m with pc := m.memory.behind layout (m.memory.visited layout m.pc k) }) ∧
      (layout = .v1 → ∃ m', m.Skips layout 1 m') ∧
      (∀ m', m.skip layout = some m' ↔ ∃ n, m.Skips layout n m') ∧
      (m.step layout = none ↔
        m.FailsTest layout ∧ ∀ n, layout.Chains
          (m.memory.read (m.memory.visited layout (m.memory.behind layout m.pc) n))) := by
  refine ⟨⟨?_, ?_⟩, ?_, ?_, fun m' => skip_eq_some_iff, step_eq_none_iff⟩
  · rintro ⟨n, m', skips⟩
    obtain ⟨k, _, endsAt, _⟩ := skips_iff.1 skips
    exact ⟨k, endsAt.lt_addressSpace, endsAt.ends⟩
  · rintro ⟨n, _, ends⟩
    exact exists_skips_iff.2 ⟨n, ends⟩
  · intro n m' skips
    obtain ⟨k, rfl, endsAt, after⟩ := skips_iff.1 skips
    exact ⟨endsAt.lt_addressSpace, k, rfl, endsAt.chains, endsAt.ends, after⟩
  · rintro rfl
    -- On `v1` nothing chains, so the loop makes one round.
    have single : m.memory.EndsAt .v1 m.pc 0 := ⟨by simp, fun chains => by cases chains.1⟩
    exact ⟨_, skips_iff.2 ⟨0, rfl, single, rfl⟩⟩

/-- Every word of memory is `ifn a, a`. -/
def endless : Machine := { zero with memory := ⟨Vector.replicate UInt16.size 0x0013⟩ }

theorem read_endless (address : Word) : endless.memory.read address = 0x0013 := by
  simp [Memory.read_eq _ _ address.toNat_lt_size, endless]

theorem skip_exactly_endless :
    endless.step .v2 = none ∧ (¬ ∃ n m', endless.Skips .v2 n m') ∧
      ∃ m', endless.Skips .v1 1 m' := by
  obtain ⟨ends, _, _, _, stuck⟩ := skip_exactly .v2 endless
  obtain ⟨_, _, single, _, _⟩ := skip_exactly .v1 endless
  have chains (address : Word) : Layout.v2.Chains (endless.memory.read address) := by
    rw [read_endless]
    exact ⟨rfl, .ifn, by decide, rfl⟩
  have fails : endless.FailsTest .v2 := by
    have decodes : Layout.v2.DecodesBasic 0x0013 .ifn (.register .a) (.register .a) := by
      constructor <;> decide
    have resolved : endless.resolve? .v2 =
        some (.basic .ifn (.register .a) (.register .a), endless.fetch.2) := by
      simp only [resolve?, fetch, read_endless, if_neg decodes.basic, decodes.operation,
        decodes.first, decodes.second]
      rfl
    exact ⟨_, _, _, _, resolved, rfl, bne_self_eq_false _⟩
  refine ⟨stuck.2 ⟨fails, fun n => chains _⟩, fun skips => ?_, single rfl⟩
  obtain ⟨n, _, other⟩ := ends.1 skips
  exact other (chains _)

end Machine

end Dcpu
