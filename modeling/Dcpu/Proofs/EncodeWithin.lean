import Dcpu.Program
import Dcpu.Proofs.OperandCode

set_option autoImplicit false

namespace Dcpu

namespace Program

variable {α β : Type} {p q : Program}

/-- A computation loses no difference and ends with a result of which something holds, or it rejects
what it was given. -/
inductive Keeps (p : Program) (post : α → Program → Prop) : Except Failure (α × Program) → Prop
  | ok {result : α} {q : Program} (grown : p.differences.size ≤ q.differences.size)
      (holds : post result q) : Keeps p post (.ok (result, q))
  | rejected {error : AssemblyError} : Keeps p post (.error (.rejected error))

namespace Keeps

variable {post : α → Program → Prop} {post' : β → Program → Prop}

theorem pure {result : α} (holds : post result p) : Keeps p post ((pure result : Writer α) p) :=
  .ok (Nat.le_refl _) holds

theorem bind {first : Writer α} {next : α → Writer β} (keeps : Keeps p post (first p))
    (after : ∀ result q, p.differences.size ≤ q.differences.size → post result q →
      Keeps q post' (next result q)) :
    Keeps p post' ((first >>= next) p) := by
  change Keeps p post' (first p >>= fun done => next done.1 done.2)
  generalize first p = done at keeps
  cases keeps with
  | rejected => exact .rejected
  | @ok result q grown holds =>
      have keeps := after result q grown holds
      change Keeps p post' (next result q)
      generalize next result q = done at keeps
      cases keeps with
      | rejected => exact .rejected
      | ok grown' holds' => exact .ok (Nat.le_trans grown grown') holds'

theorem of_ok {result : α} (keeps : Keeps p post (.ok (result, q))) : post result q := by
  cases keeps with
  | ok _ holds => exact holds

theorem rejects {x : Except Failure (α × Program)} {failure : Failure} (keeps : Keeps p post x)
    (fails : x = .error failure) : ∃ error, failure = .rejected error := by
  cases keeps with
  | ok _ _ => cases fails
  | rejected => exact ⟨_, (Except.error.inj fails).symm⟩

end Keeps

def Earlier (word : Code) (p : Program) : Prop :=
  word.kind = .difference → word.value.toNat < p.differences.size

theorem Earlier.after {word : Code} (earlier : Earlier word p)
    (grown : p.differences.size ≤ q.differences.size) : Earlier word q :=
  fun kind => Nat.lt_of_lt_of_le (earlier kind) grown

theorem laterOperand?_eq_none {word : Code} (earlier : Earlier word p) :
    p.laterOperand? word = none :=
  if_neg fun later => Nat.not_le.2 (earlier later.1) later.2

theorem lookup_keeps (name : Text) (position : Position) :
    Keeps p (fun _ _ => True) ((Emitter.lookup name position : Writer Nat) p) := by
  change Keeps p _ (p.index (p.qualify name) position)
  rw [index]
  split
  · exact .ok (Nat.le_refl _) trivial
  · exact .rejected

theorem difference_keeps {difference : Difference} (base : Earlier difference.base p)
    (target : Earlier difference.target p) :
    Keeps p Earlier ((Emitter.difference difference : Writer Code) p) := by
  change Keeps p _ (p.keepDifference difference)
  rw [keepDifference, laterOperand?_eq_none base, laterOperand?_eq_none target]
  refine .ok (by simp) fun _ => ?_
  -- The index is cut to a word, which makes it no larger.
  have cut : p.differences.size.toUInt16.toNat ≤ p.differences.size := by
    simpa using Nat.mod_le _ _
  simpa [Code.difference] using Nat.lt_succ_of_le cut

end Program

namespace EncodingRules

open Program

variable (rules : EncodingRules)

theorem literal_keeps (p : Program) (least value : Int) (position : Position) :
    Keeps p Earlier ((literal least value position : Writer Code) p) := by
  rw [literal]
  split
  · exact .rejected
  · exact .pure (by rintro ⟨⟩)

theorem atom_keeps (p : Program) (atom : Atom) :
    Keeps p Earlier ((rules.atom atom : Writer Code) p) := by
  induction atom generalizing p with
  | number value position => exact literal_keeps p _ _ _
  | character value position => exact literal_keeps p _ _ _
  | identifier name position =>
      exact (lookup_keeps name position).bind fun _ _ _ _ => .pure (by rintro ⟨⟩)
  | difference target position ih =>
      rw [EncodingRules.atom]
      split
      · have here : Keeps p (fun _ _ => True) ((Emitter.address : Writer Word) p) :=
          .ok (Nat.le_refl _) trivial
        refine here.bind fun here q _ _ => ?_
        exact (ih q).bind fun target q _ earlier => difference_keeps (by rintro ⟨⟩) earlier
      · exact .rejected
  | absent => exact .rejected

theorem expression_keeps (p : Program) (value : Option Expression) :
    Keeps p Earlier ((rules.expression value : Writer Code) p) := by
  rw [expression.eq_def]
  split
  · exact .rejected
  · exact .rejected
  · exact rules.atom_keeps p _
  · refine (rules.atom_keeps p _).bind fun base q _ earlier => ?_
    split
    · exact (rules.atom_keeps q _).bind fun target r grown earlier' =>
        difference_keeps (earlier.after grown) earlier'
    · exact .rejected

def FitsSlot (slot : Slot) (result : Word × Option Code) (_ : Program) : Prop :=
  result.1.toNat < 2 ^ rules.layout.slotBits slot

variable {rules}

theorem fitsSlot_of_lt {slot : Slot} {code : Word} (small : code.toNat < 0x20) (tail : Option Code)
    (p : Program) : rules.FitsSlot slot (code, tail) p :=
  Layout.lt_slotBits small slot

variable (rules)

theorem register_keeps (p : Program) (name : Text) (position : Position) :
    Keeps p (fun _ _ => True) ((register name position : Writer Register) p) := by
  rw [register]
  cases Register.ofName? name with
  | some r => exact .pure trivial
  | none => exact .rejected

theorem literalArgument_keeps (p : Program) (value : Option Expression) (slot : Slot) :
    Keeps p (rules.FitsSlot slot)
      ((rules.literalArgument value slot : Writer (Word × Option Code)) p) := by
  refine (rules.expression_keeps p value).bind fun word q _ _ => ?_
  have long (tail : Option Code) : rules.FitsSlot slot (Layout.literalCode, tail) q :=
    fitsSlot_of_lt (by decide) tail q
  split
  · rename_i folds
    cases short : rules.layout.shortCode? word.value with
    | some code =>
        exact .pure (Layout.lt_slotBits_of_canFold folds.2.2 (Layout.shortCode?_bounds short).2)
    | none => exact .pure (long _)
  · exact .pure (long _)

theorem stackArgument_keeps (p : Program) (access : StackAccess) (offset : Option Expression)
    (position : Position) (slot : Slot) :
    Keeps p (rules.FitsSlot slot)
      ((rules.stackArgument access offset position : Writer (Word × Option Code)) p) := by
  cases access with
  | push => exact .pure (fitsSlot_of_lt (by cases rules.layout <;> decide) _ p)
  | pop => exact .pure (fitsSlot_of_lt (by cases rules.layout <;> decide) _ p)
  | peek => exact .pure (fitsSlot_of_lt (by cases rules.layout <;> decide) _ p)
  | unknown => exact .rejected
  | pick =>
      rw [stackArgument]
      cases picked : rules.layout.pickCode? with
      | none => exact .rejected
      | some code =>
          have small : code.toNat < 0x20 := by
            cases layout : rules.layout <;> rw [layout] at picked <;> cases picked
            decide
          cases offset with
          | none => exact .rejected
          | some offset =>
              exact (rules.expression_keeps p _).bind fun word q _ _ =>
                .pure (fitsSlot_of_lt small _ q)

theorem argument_keeps (p : Program) (slot : Slot) (argument : Option Argument) :
    Keeps p (rules.FitsSlot slot)
      ((rules.argument slot argument : Writer (Word × Option Code)) p) := by
  have registers (r : Register) : (Layout.registerCode r).toNat < 0x20 ∧
      (Layout.indirectCode r).toNat < 0x20 ∧ (Layout.indexedCode r).toNat < 0x20 := by
    cases r <;> decide
  rw [EncodingRules.argument.eq_def]
  split
  · exact .rejected
  · exact (register_keeps p _ _).bind fun r q _ _ => .pure (fitsSlot_of_lt (registers r).1 _ q)
  · rename_i name position
    cases rules.layout.special? name with
    | some r => exact .pure (fitsSlot_of_lt (by cases r <;> decide) _ p)
    | none => exact .rejected
  · exact .rejected
  · exact (register_keeps p _ _).bind fun r q _ _ => .pure (fitsSlot_of_lt (registers r).2.1 _ q)
  · refine (register_keeps p _ _).bind fun r q _ _ => ?_
    exact (rules.expression_keeps q _).bind fun word q _ _ =>
      .pure (fitsSlot_of_lt (registers r).2.2 _ q)
  · exact .rejected
  · exact rules.stackArgument_keeps p _ _ _ slot
  · exact rules.literalArgument_keeps p _ slot
  · exact (rules.expression_keeps p _).bind fun word q _ _ => .pure (fitsSlot_of_lt (by decide) _ q)

theorem write_keeps (p : Program) (word : Code) :
    Keeps p (fun _ _ => True) ((Emitter.write word : Writer Unit) p) :=
  .ok (Nat.le_refl _) trivial

theorem writeTail_keeps (p : Program) (tail : Option Code) :
    Keeps p (fun _ _ => True) ((writeTail tail : Writer Unit) p) := by
  cases tail with
  | none => exact .pure trivial
  | some word => exact write_keeps p word

theorem basic_keeps (p : Program) (opcode : Text) (a b : Option Argument) (position : Position) :
    Keeps p (fun _ _ => True) ((rules.basic opcode a b position : Writer Unit) p) := by
  rw [basic]
  cases rules.layout.basicOpcode? opcode with
  | none => exact .rejected
  | some number =>
      refine (rules.argument_keeps p .a a).bind fun first q _ _ => ?_
      refine (rules.argument_keeps q .b b).bind fun second q _ _ => ?_
      dsimp only
      cases rules.layout.pack? ⟨number, first.1, second.1⟩ with
      | none => exact .rejected
      | some word =>
          refine (write_keeps q _).bind fun _ q _ _ => ?_
          split
          · exact (writeTail_keeps q _).bind fun _ q _ _ => writeTail_keeps q _
          · exact (writeTail_keeps q _).bind fun _ q _ _ => writeTail_keeps q _

theorem extended_keeps (p : Program) (opcode : Text) (operand : Option Argument)
    (position : Position) :
    Keeps p (fun _ _ => True) ((rules.extended opcode operand position : Writer Unit) p) := by
  rw [extended]
  cases rules.layout.extendedOpcode? opcode with
  | none => exact .rejected
  | some number =>
      refine (rules.argument_keeps p .b operand).bind fun result q _ _ => ?_
      dsimp only
      cases rules.layout.pack? ⟨Layout.extendedOpcode, number, result.1⟩ with
      | none => exact .rejected
      | some word => exact (write_keeps q _).bind fun _ q _ _ => writeTail_keeps q _

theorem writeUnits_keeps (p : Program) (units : List Word) :
    Keeps p (fun _ _ => True) ((writeUnits units : Writer Unit) p) := by
  induction units generalizing p with
  | nil => exact .pure trivial
  | cons unit rest ih => exact (write_keeps p _).bind fun _ q _ _ => ih q

theorem data_keeps (p : Program) (position : Position) (values : List (Option DataValue)) :
    Keeps p (fun _ _ => True) ((rules.data position values : Writer Unit) p) := by
  induction values generalizing p with
  | nil => exact .pure trivial
  | cons value rest ih =>
      rcases value with _ | value
      · exact .rejected
      · cases value with
        | string text _ => exact (writeUnits_keeps p _).bind fun _ q _ _ => ih q
        | word value =>
            refine (rules.expression_keeps p _).bind fun word q _ _ => ?_
            exact (write_keeps q _).bind fun _ q _ _ => ih q
        | lengthMarker place =>
            rw [data]
            split
            · refine (literal_keeps p _ _ _).bind fun word q _ _ => ?_
              exact (write_keeps q _).bind fun _ q _ _ => ih q
            · exact .rejected

theorem body_keeps (p : Program) (body : Option Body) :
    Keeps p (fun _ _ => True) ((rules.body body : Writer Unit) p) := by
  rcases body with _ | body
  · exact .rejected
  · cases body with
    | addressFix value position => exact .rejected
    | basic opcode a b position => exact rules.basic_keeps p opcode a b position
    | extended opcode operand position => exact rules.extended_keeps p opcode operand position
    | data values position => exact rules.data_keeps p position values

/-- What encoding keeps to, whatever the program: operand codes fit into the word of their operation,
and a body that cannot be encoded is at fault itself. -/
structure EncodesWithin (p : Program) : Prop where
  basic : ∀ opcode number a b codeA tailA q codeB tailB r,
    rules.layout.basicOpcode? opcode = some number →
    (rules.argument .a a : Writer (Word × Option Code)) p = .ok ((codeA, tailA), q) →
    (rules.argument .b b : Writer (Word × Option Code)) q = .ok ((codeB, tailB), r) →
    ∃ word, rules.layout.pack? ⟨number, codeA, codeB⟩ = some word
  extended : ∀ opcode number operand code tail q,
    rules.layout.extendedOpcode? opcode = some number →
    (rules.argument .b operand : Writer (Word × Option Code)) p = .ok ((code, tail), q) →
    ∃ word, rules.layout.pack? ⟨Layout.extendedOpcode, number, code⟩ = some word
  body : ∀ body failure, (rules.body body : Writer Unit) p = .error failure →
    ∃ error, failure = .rejected error

theorem encodesWithin (p : Program) : rules.EncodesWithin p where
  basic opcode number a b codeA tailA q codeB tailB r known first second := by
    have fitsA := (first ▸ rules.argument_keeps p .a a).of_ok
    have fitsB := (second ▸ rules.argument_keeps q .b b).of_ok
    exact Layout.pack?_eq_some (Layout.basicOpcode?_lt known) fitsA fitsB
  extended opcode number operand code tail q known encoded := by
    have fits := (encoded ▸ rules.argument_keeps p .b operand).of_ok
    exact Layout.pack?_eq_some (Nat.two_pow_pos _) (Layout.extendedOpcode?_lt known) fits
  body body _ fails := (rules.body_keeps p body).rejects fails

end EncodingRules

end Dcpu
