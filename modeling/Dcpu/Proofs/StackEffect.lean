import Dcpu.Proofs.AssembleStatements
import Dcpu.Proofs.ReadBack
import Dcpu.Proofs.ResolveOperands
import Dcpu.Proofs.StackOperand

/-!
What the operands of an assembled instruction do to the stack pointer. On `v1` they do what is
written. On `v2` a push and a pop have one code, and the place of the operand decides between them:
a pop that is written first pushes, and a push that is written second or alone pops.
-/

set_option autoImplicit false

namespace Dcpu

namespace Operand

def shift : Operand → Word
  | .push => -1
  | .pop => 1
  | _ => 0

theorem stackAfter_eq (sp : Word) (operand : Operand) :
    operand.stackAfter sp = sp + operand.shift := by
  cases operand <;> simp [stackAfter, shift, UInt16.sub_eq_add_neg]

end Operand

namespace Layout

variable {layout : Layout} {word : Word} {m : Machine}

theorem DecodesBasic.resolve?_eq {op : BasicOp} {a b : Operand} {valueA valueB : Word}
    (decodes : layout.DecodesBasic word op a b)
    (holds : m.memory.Holds m.pc (word :: layout.tails a b valueA valueB)) :
    ∃ operation after, m.resolve? layout = some (operation, after) ∧
      after.sp = m.sp + a.shift + b.shift := by
  let placed := m.resolved layout a b valueA valueB
    (m.pc + 1 + (layout.tails a b valueA valueB).length.toUInt16)
  refine ⟨.basic op placed.1 placed.2.1, placed.2.2, Machine.resolve?_of_holds decodes holds, ?_⟩
  -- The second operand is resolved first where its tail stands first; the sum is the same.
  simp only [placed, Machine.resolved]
  split
  · simp only [Operand.stackAfter_eq]
    rw [UInt16.add_assoc, UInt16.add_comm b.shift, UInt16.add_assoc]
  · simp only [Operand.stackAfter_eq]

theorem DecodesExtended.resolve?_eq {op : ExtendedOp} {operand : Operand} {value : Word}
    (decodes : layout.DecodesExtended word op operand)
    (holds : m.memory.Holds m.pc (word :: operand.tail value)) :
    ∃ operation after, m.resolve? layout = some (operation, after) ∧
      after.sp = m.sp + operand.shift := by
  rw [← holds.head] at decodes
  obtain ⟨place, found⟩ := Machine.resolve?_extended decodes
  exact ⟨_, _, found, operand.stackAfter_eq m.sp⟩

end Layout

namespace Argument

variable {argument : Argument}

def written (argument : Argument) : Word :=
  if argument.access? = some .pop then 1 else if argument.access? = some .push then -1 else 0

/-- What an operand adds beyond that, as it stands in the place of its opposite. -/
def excess (argument : Argument) : Layout → Slot → Word
  | .v1, _ => 0
  | .v2, .a => if argument.access? = some .pop then -2 else 0
  | .v2, .b => if argument.access? = some .push then 2 else 0

theorem shift_eq_zero (plain : argument.access? = none) (layout : Layout) (slot : Slot) :
    (argument.operand layout slot).shift = 0 := by
  cases argument with
  | stack access offset position => cases plain
  | special name position =>
      rw [operand]
      cases layout.special? name with
      | none => rfl
      | some r => cases r <;> rfl
  | literal value position =>
      rw [operand]
      split <;> rfl
  | _ => rfl

theorem shift_operand (layout : Layout) (slot : Slot) (argument : Argument) :
    (argument.operand layout slot).shift = argument.written + argument.excess layout slot := by
  cases is : argument.access? with
  | none =>
      rw [shift_eq_zero is]
      cases layout <;> cases slot <;> simp [written, excess, is]
  | some access =>
      cases argument with
      | stack access offset position =>
          -- Two is the way from a push to a pop.
          have pushed : (-1 : Word) + 2 = 1 := by decide
          have popped : (1 : Word) + -2 = -1 := by decide
          cases access <;> cases layout <;> cases slot <;>
            simp [operand, Layout.stackOperand, Operand.shift, written, excess, access?, pushed,
              popped]
      | _ => cases is

end Argument

namespace Body

variable {rules : EncodingRules} {body : Body} {m : Machine}

def pops (body : Body) : Nat := body.operands.countP (·.access? = some .pop)

def pushes (body : Body) : Nat := body.operands.countP (·.access? = some .push)

theorem sum_written (operands : List Argument) :
    (operands.map Argument.written).sum =
      (operands.countP (·.access? = some .pop)).toUInt16 -
        (operands.countP (·.access? = some .push)).toUInt16 := by
  induction operands with
  | nil => rfl
  | cons x xs ih =>
      rw [List.map_cons, List.sum_cons, ih, Argument.written]
      by_cases pop : x.access? = some .pop
      · rw [if_pos pop, List.countP_cons_of_pos (by simp [pop]),
          List.countP_cons_of_neg (by simp [pop]), Nat.toUInt16_eq, Nat.toUInt16_eq,
          Nat.toUInt16_eq, UInt16.ofNat_add, UInt16.ofNat_one]
        grind
      · by_cases push : x.access? = some .push
        · rw [if_neg pop, if_pos push, List.countP_cons_of_neg (by simp [push]),
            List.countP_cons_of_pos (by simp [push]), Nat.toUInt16_eq, Nat.toUInt16_eq,
            Nat.toUInt16_eq, UInt16.ofNat_add, UInt16.ofNat_one]
          grind
        · rw [if_neg pop, if_neg push, List.countP_cons_of_neg (by simp [pop]),
            List.countP_cons_of_neg (by simp [push]), UInt16.zero_add]

def excess (layout : Layout) : Body → Word
  | .basic _ (some a) (some b) _ => a.excess layout .a + b.excess layout .b
  | .extended _ (some argument) _ => argument.excess layout .b
  | _ => 0

/-- No operand is resolved as its opposite, or both are and make up for each other. -/
def StackInPlace (layout : Layout) : Body → Prop
  | .basic _ (some a) (some b) _ =>
      layout = .v2 → (a.access? = some .pop ↔ b.access? = some .push)
  | .extended _ (some argument) _ => layout = .v2 → argument.access? ≠ some .push
  | _ => True

theorem excess_eq_zero_iff (layout : Layout) (body : Body) :
    body.excess layout = 0 ↔ body.StackInPlace layout := by
  unfold excess StackInPlace
  split
  · rename_i a b _
    cases layout with
    | v1 => simp [Argument.excess]
    | v2 =>
        -- A pop that pushes and a push that pops make up for each other.
        have cancels : (-2 : Word) + 2 = 0 := by decide
        rw [Argument.excess, Argument.excess]
        by_cases pop : a.access? = some .pop
        · by_cases push : b.access? = some .push
          · rw [if_pos pop, if_pos push]
            exact iff_of_true cancels fun _ => iff_of_true pop push
          · rw [if_pos pop, if_neg push]
            exact iff_of_false (by decide) fun same => push ((same rfl).1 pop)
        · by_cases push : b.access? = some .push
          · rw [if_neg pop, if_pos push]
            exact iff_of_false (by decide) fun same => pop ((same rfl).2 push)
          · rw [if_neg pop, if_neg push]
            exact iff_of_true rfl fun _ => iff_of_false pop push
  · rename_i argument _
    cases layout with
    | v1 => simp [Argument.excess]
    | v2 => by_cases push : argument.access? = some .push <;> simp [Argument.excess, push]
  · simp

theorem resolve?_parts (formed : body.WellFormed rules) (instruction : body.needsLayout = true)
    (env : Text → Word) (here : Word)
    (holds : m.memory.Holds m.pc ((body.parts rules.layout).map (Part.word env here))) :
    ∃ operation after, m.resolve? rules.layout = some (operation, after) ∧
      after.sp = m.sp + body.pops.toUInt16 - body.pushes.toUInt16 + body.excess rules.layout := by
  cases body with
  | addressFix _ _ => simp [needsLayout] at instruction
  | data _ _ => simp [needsLayout] at instruction
  | basic opcode a b position =>
      obtain ⟨named, ⟨a, rfl, formedA⟩, ⟨b, rfl, formedB⟩⟩ := formed
      obtain ⟨number, known⟩ := Option.isSome_iff_exists.1 named
      obtain ⟨word, op, valueA, valueB, decodes, words⟩ :=
        words_basic position known formedA formedB env here
      rw [words] at holds
      obtain ⟨operation, after, resolved, moved⟩ := decodes.resolve?_eq holds
      refine ⟨operation, after, resolved, ?_⟩
      -- The excess of each operand depends on its place only, so the written parts can be summed.
      have sum := sum_written [a, b]
      rw [moved, Argument.shift_operand, Argument.shift_operand]
      simp only [List.map_cons, List.map_nil, List.sum_cons, List.sum_nil] at sum
      simp only [pops, pushes, operands, excess, Option.toList_some, List.singleton_append]
      grind
  | extended opcode argument position =>
      obtain ⟨named, argument, rfl, formed⟩ := formed
      obtain ⟨number, known⟩ := Option.isSome_iff_exists.1 named
      obtain ⟨word, op, value, decodes, words⟩ := words_extended position known formed env here
      rw [words] at holds
      obtain ⟨operation, after, resolved, moved⟩ := decodes.resolve?_eq holds
      refine ⟨operation, after, resolved, ?_⟩
      have sum := sum_written [argument]
      rw [moved, Argument.shift_operand]
      simp only [List.map_cons, List.map_nil, List.sum_cons, List.sum_nil] at sum
      simp only [pops, pushes, operands, excess, Option.toList_some]
      grind

end Body

namespace Assembly

/-- Each instruction of an accepted source moves the stack pointer, wherever its words are executed,
by its pops minus its pushes and by what `v2` adds to operands that stand in the place of their
opposite. So it does what is written exactly if there are none, or two that make up for each other. -/
theorem stack_operands_resolved {dialect : Dialect} {layout : Layout} {text : Text}
    {assembly : Assembly} {before after : List Statement} {s : Statement} {body : Body}
    (chosen : dialect.layout = .ok layout) (accepted : ofSource dialect text = .ok assembly)
    (there : (Source.read dialect text).statements = before ++ s :: after)
    (has : s.body = some body) (instruction : body.needsLayout = true) (m : Machine)
    (holds : m.memory.Holds m.pc (assembly.wordsOf layout before s)) :
    Source.Spelled dialect layout s body ∧
      ∃ operation resolved, m.resolve? layout = some (operation, resolved) ∧
        m.step layout = (resolved.perform layout m.pc operation).map (Machine.settle m.pc) ∧
        resolved.sp =
          m.sp + body.pops.toUInt16 - body.pushes.toUInt16 + body.excess layout ∧
        (resolved.sp = m.sp + body.pops.toUInt16 - body.pushes.toUInt16 ↔
          body.StackInPlace layout) := by
  obtain ⟨same, assembled⟩ := ofStatements_of_ofSource chosen accepted
  obtain ⟨acceptable, describes⟩ := (ofStatements_outcome same _).of_eq_ok assembled
  have member : s ∈ (Source.read dialect text).statements := by simp [there]
  obtain ⟨env, here, words⟩ := wordsOf_eq (describes.renders acceptable.formed there) has
  have held : m.memory.Holds m.pc ((body.parts layout).map (Part.word env here)) := words ▸ holds
  obtain ⟨operation, resolved, resolves, moved⟩ :=
    Body.resolve?_parts (acceptable.formed s member body has) instruction env here held
  have step := m.step_eq_resolve layout
  rw [show m.resolve? layout = _ from resolves] at step
  refine ⟨Source.spelled_of_mem chosen member has, operation, resolved, resolves, step, moved, ?_⟩
  rw [← body.excess_eq_zero_iff, moved]
  exact UInt16.add_eq_left

def popFirst : Text := "set pop, a"

def popFirstBody : Body :=
  .basic "set" (some (.stack .pop none ⟨1, 5, 4, 3, 0⟩)) (some (.register "a" ⟨1, 10, 9, 1, 0⟩))
    ⟨1, 1, 0, 3, 0⟩

def popFirstStatement : Statement := ⟨none, some popFirstBody, ⟨1, 1, 0, 3, 0⟩⟩

def popFirstAssembly : Assembly :=
  ⟨#[0x0301], [⟨Symbol.codeStart, 0, .code⟩, ⟨Symbol.codeEnd, 1, .unknown⟩]⟩

theorem read_popFirst : Source.read Dialect.extended popFirst = ⟨[popFirstStatement], []⟩ := by
  decide +kernel

theorem statements_popFirst :
    (Source.read Dialect.extended popFirst).statements = [] ++ popFirstStatement :: [] :=
  congrArg Source.statements read_popFirst

theorem ofSource_popFirst : ofSource Dialect.extended popFirst = .ok popFirstAssembly := by
  rw [ofSource_eq_ok_iff Dialect.layout_extended, ← Source.read_eq_readFrom Dialect.layout_extended,
    read_popFirst]
  exact ⟨rfl, by cbv⟩

theorem holds_popFirst :
    (Machine.zero.load popFirstAssembly.image).memory.Holds 0
      (popFirstAssembly.wordsOf .v2 [] popFirstStatement) := by
  have words : popFirstAssembly.wordsOf .v2 [] popFirstStatement = [0x0301] := by decide
  rw [words]
  intro i word found
  obtain ⟨rfl, rfl⟩ : i = 0 ∧ 0x0301 = word := by
    cases i <;> simp_all
  exact Machine.read_load _ _ _

theorem stack_operands_resolved_popFirst :
    ofSource Dialect.extended popFirst = .ok popFirstAssembly ∧
      ∃ operation resolved,
        (Machine.zero.load popFirstAssembly.image).resolve? .v2 = some (operation, resolved) ∧
          resolved.sp = -1 := by
  obtain ⟨_, operation, resolved, resolves, _, moved, _⟩ :=
    stack_operands_resolved Dialect.layout_extended ofSource_popFirst statements_popFirst rfl rfl _
      holds_popFirst
  refine ⟨ofSource_popFirst, operation, resolved, resolves, moved.trans ?_⟩
  decide

/-- Operands do not always do what is written: this pop takes the stack pointer down. -/
theorem popFirst_pushes :
    ¬ ∀ (dialect : Dialect) (layout : Layout) (text : Text) (assembly : Assembly)
      (before after : List Statement) (s : Statement) (body : Body) (m : Machine),
      dialect.layout = .ok layout → ofSource dialect text = .ok assembly →
      (Source.read dialect text).statements = before ++ s :: after → s.body = some body →
      body.needsLayout = true → m.memory.Holds m.pc (assembly.wordsOf layout before s) →
      ∃ operation resolved, m.resolve? layout = some (operation, resolved) ∧
        resolved.sp = m.sp + body.pops.toUInt16 - body.pushes.toUInt16 := by
  intro claim
  obtain ⟨operation, resolved, resolves, moved⟩ :=
    claim Dialect.extended .v2 popFirst popFirstAssembly [] [] popFirstStatement popFirstBody
      (Machine.zero.load popFirstAssembly.image) Dialect.layout_extended ofSource_popFirst
      statements_popFirst rfl rfl holds_popFirst
  have decodes : Layout.v2.DecodesBasic 0x0301 .set .push (.register .a) :=
    ⟨by decide, by decide, by decide, by decide⟩
  obtain ⟨operation', resolved', resolves', moved'⟩ :=
    @Layout.DecodesBasic.resolve?_eq _ _ _ _ _ _ 0 0 decodes holds_popFirst
  -- The one run ends at 1 and at -1.
  cases resolves.symm.trans resolves'
  exact absurd (moved.symm.trans moved') (by decide)

end Assembly

end Dcpu
