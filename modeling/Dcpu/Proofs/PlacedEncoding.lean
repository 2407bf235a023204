import Dcpu.Program
import Dcpu.Proofs.PlacedStatement
import Dcpu.Report

set_option autoImplicit false

namespace Dcpu

namespace Failure

variable {P : Position → Prop} {α β : Type}

/-- The failure is reported at such a place, if at any. -/
def At (P : Position → Prop) (failure : Failure) : Prop :=
  ∀ p ∈ (Report.Entry.ofFailure failure).position?, P p

theorem at_located {d : Diagnostic} (place : P d.position) : (located d).At P := by
  rintro p ⟨⟩
  exact place

theorem at_breach (b : Breach) : (breach b).At P := by
  rintro p ⟨⟩

inductive Reports (P : Position → Prop) (holds : α → Prop) : Except Failure α → Prop
  | ok {a : α} (is : holds a) : Reports P holds (.ok a)
  | error {failure : Failure} (place : failure.At P) : Reports P holds (.error failure)

namespace Reports

variable {holds : α → Prop} {holds' : β → Prop} {x : Except Failure α}

theorem bind {next : α → Except Failure β} (reports : Reports P holds x)
    (after : ∀ a, holds a → Reports P holds' (next a)) : Reports P holds' (x >>= next) := by
  cases reports with
  | ok is => exact after _ is
  | error place => exact .error place

theorem of_error {failure : Failure} (reports : Reports P holds x) (fails : x = .error failure) :
    failure.At P := by
  cases reports with
  | ok is => cases fails
  | error place => exact Except.error.inj fails ▸ place

end Reports

end Failure

open Failure (Reports)

namespace SymbolTable

variable {P : Position → Prop} {table : SymbolTable}

def UsedAt (P : Position → Prop) (table : SymbolTable) : Prop :=
  ∀ label ∈ table.labels, P label.used

theorem UsedAt.lookup {position : Position} (used : table.UsedAt P) (name : Text)
    (place : P position) : (table.lookup name position).2.UsedAt P := by
  rw [SymbolTable.lookup]
  split
  · exact used
  · dsimp only
    split
    · exact used
    · intro label member
      rcases Array.mem_push.1 member with earlier | rfl
      · exact used label earlier
      · exact place

theorem position_of_lookup {name : Text} {position : Position} {d : Diagnostic} {after : SymbolTable}
    (fails : table.lookup name position = (.error d, after)) : d.position = position := by
  rw [lookup] at fails
  split at fails
  · cases fails
  · dsimp only at fails
    split at fails
    · cases fails
      rfl
    · cases fails

theorem UsedAt.define (used : table.UsedAt P) (index : Nat) (binding : Binding)
    (position : Position) : (table.define index binding position).UsedAt P := by
  intro label member
  obtain ⟨i, small, rfl⟩ := Array.mem_iff_getElem.1 member
  simp only [SymbolTable.define, Array.size_modify] at small
  have earlier := used table.labels[i] (Array.getElem_mem small)
  simp only [SymbolTable.define, Array.getElem_modify]
  split
  · exact earlier
  · exact earlier

theorem openLabel_reports (index : Nat) {position : Position} (place : P position) :
    Reports P (fun _ => True) (table.openLabel index position) := by
  rw [openLabel]
  split
  · exact .error (Failure.at_breach _)
  · split
    · exact .error (Failure.at_located place)
    · exact .ok trivial

inductive Answers (P : Position → Prop) : Except Failure Unit × SymbolTable → Prop
  | ok {after : SymbolTable} (used : after.UsedAt P) : Answers P (.ok (), after)
  | error {failure : Failure} {after : SymbolTable} (place : failure.At P) :
      Answers P (.error failure, after)

theorem fixValue_answers (used : table.UsedAt P) (index : Nat) (value : Word) {position : Position}
    (place : P position) : Answers P (table.fixValue index value position) := by
  rw [fixValue]
  split
  · exact .error ((openLabel_reports index place).of_error ‹_›)
  · exact .ok (used.define _ _ _)

theorem fixAlias_answers (used : table.UsedAt P) (index target : Nat) {position : Position}
    (place : P position) : Answers P (table.fixAlias index target position) := by
  rw [fixAlias]
  split
  · exact .error ((openLabel_reports index place).of_error ‹_›)
  · split
    · rename_i label _ failure refused
      rw [aliasFailure?] at refused
      split at refused
      · split at refused
        · cases refused
          exact .error (Failure.at_located place)
        · cases refused
      · cases refused
        exact .error (Failure.at_breach _)
    · exact .ok (used.define _ _ _)

theorem position_of_validate {d : Diagnostic} (used : table.UsedAt P)
    (fails : table.validate = .error d) : P d.position := by
  rw [validate] at fails
  split at fails
  · rename_i label found
    cases fails
    obtain ⟨entry, first, rfl⟩ := Option.map_eq_some_iff.1 found
    have member := List.mem_of_find?_eq_some first
    exact used _ (Array.mem_toList_iff.1 (List.fst_mem_of_mem_zipIdx member))
  · cases fails

end SymbolTable

namespace Program

variable {P : Position → Prop} {α β : Type}

/-- Whatever program is written on, names are seen and failures reported only at such places. -/
def Places (P : Position → Prop) (write : Writer α) : Prop :=
  ∀ p : Program, p.symbols.UsedAt P → Reports P (fun done => done.2.symbols.UsedAt P) (write p)

namespace Places

theorem pure (result : α) : Places P (pure result : Writer α) := fun _ used => .ok used

theorem bind {first : Writer α} {next : α → Writer β} (places : Places P first)
    (after : ∀ result, Places P (next result)) : Places P (first >>= next) :=
  fun p used => (places p used).bind fun done used' => after done.1 done.2 used'

theorem fail {d : Diagnostic} (place : P d.position) : Places P (Emitter.fail d : Writer α) :=
  fun _ _ => .error (Failure.at_located place)

theorem reject {position : Position} (place : P position) (construct : Construct) :
    Places P (EncodingRules.reject position construct : Writer α) :=
  fail place

theorem write (word : Code) : Places P (Emitter.write word : Writer Unit) := fun _ used => .ok used

theorem address : Places P (Emitter.address : Writer Word) := fun _ used => .ok used

theorem difference (difference : Difference) :
    Places P (Emitter.difference difference : Writer Code) := by
  intro p used
  change Reports P _ (p.keepDifference difference)
  rw [keepDifference]
  split
  · exact .error (Failure.at_breach _)
  · exact .error (Failure.at_breach _)
  · exact .ok used

end Places

theorem index_reports {p : Program} (used : p.symbols.UsedAt P) (name : Text) {position : Position}
    (place : P position) :
    Reports P (fun done => done.2.symbols.UsedAt P) (p.index name position) := by
  have after := used.lookup name place
  rw [index]
  split
  · rename_i found
    rw [found] at after
    exact .ok after
  · rename_i fails
    exact .error (Failure.at_located (SymbolTable.position_of_lookup fails ▸ place))

theorem Places.lookup (name : Text) {position : Position} (place : P position) :
    Places P (Emitter.lookup name position : Writer Nat) :=
  fun _ used => index_reports used _ place

end Program

theorem Argument.Placed.position {P : Position → Prop} {argument : Argument}
    (placed : argument.Placed P) : P argument.position := by
  cases argument with
  | register name p => exact placed
  | special name p => exact placed
  | lookup named p => exact placed
  | offsetLookup named sign value p => exact placed.1
  | stack access value p => exact placed.1
  | literal value p => exact placed.1
  | literalLookup value p => exact placed.1

namespace EncodingRules

open Program

variable {P : Position → Prop} (rules : EncodingRules)

theorem literal_places (least value : Int) {position : Position} (place : P position) :
    Places P (literal least value position : Writer Code) := by
  rw [literal]
  split
  · exact .fail place
  · exact .pure _

section Walk

/- What is left out of a statement is reported nowhere. -/
variable (nowhere : P .nowhere)
include nowhere

theorem atom_places {atom : Atom} (placed : atom.Placed P) :
    Places P (rules.atom atom : Writer Code) := by
  induction atom with
  | number value position => exact literal_places _ _ placed
  | character value position => exact literal_places _ _ placed
  | identifier name position => exact (Places.lookup name placed).bind fun _ => .pure _
  | difference target position ih =>
      rw [EncodingRules.atom]
      split
      · refine Places.address.bind fun here => ?_
        exact (ih placed.2).bind fun target => .difference _
      · exact .reject placed.1 _
  | absent => exact .reject nowhere _

theorem expression_places {value : Option Expression} (placed : ∀ e ∈ value, e.Placed P) :
    Places P (rules.expression value : Writer Code) := by
  rw [expression.eq_def]
  split
  · exact .reject nowhere _
  · exact .reject nowhere _
  · exact rules.atom_places nowhere (placed _ rfl).head
  · refine (rules.atom_places nowhere (placed _ rfl).head).bind fun base => ?_
    split
    · exact (rules.atom_places nowhere ((placed _ rfl).tail _ rfl)).bind fun target => .difference _
    · exact .reject (placed _ rfl).position _

omit nowhere in
theorem register_places (name : Text) {position : Position} (place : P position) :
    Places P (register name position : Writer Register) := by
  rw [register]
  split
  · exact .pure _
  · exact .reject place _

theorem literalArgument_places {value : Option Expression} (placed : ∀ e ∈ value, e.Placed P)
    (slot : Slot) : Places P (rules.literalArgument value slot : Writer (Word × Option Code)) := by
  refine (rules.expression_places nowhere placed).bind fun word => ?_
  split
  · split
    · exact .pure _
    · exact .pure _
  · exact .pure _

theorem stackArgument_places (access : StackAccess) {offset : Option Expression}
    {position : Position} (place : P position) (placed : ∀ e ∈ offset, e.Placed P) :
    Places P (rules.stackArgument access offset position : Writer (Word × Option Code)) := by
  cases access with
  | push => exact .pure _
  | pop => exact .pure _
  | peek => exact .pure _
  | unknown => exact .reject place _
  | pick =>
      rw [stackArgument]
      split
      · exact .reject place _
      · split
        · exact .reject place _
        · exact (rules.expression_places nowhere placed).bind fun word => .pure _

theorem argument_places (slot : Slot) {argument : Option Argument}
    (placed : ∀ x ∈ argument, x.Placed P) :
    Places P (rules.argument slot argument : Writer (Word × Option Code)) := by
  rw [EncodingRules.argument.eq_def]
  split
  · exact .reject nowhere _
  · exact (register_places _ (placed _ rfl)).bind fun r => .pure _
  · split
    · exact .pure _
    · exact .reject (placed _ rfl) _
  · exact .reject (placed _ rfl) _
  · exact (register_places _ (placed _ rfl)).bind fun r => .pure _
  · refine (register_places _ (placed _ rfl).1).bind fun r => ?_
    exact (rules.expression_places nowhere (placed _ rfl).2).bind fun word => .pure _
  · exact .reject (placed _ rfl).1 _
  · exact rules.stackArgument_places nowhere _ (placed _ rfl).1 (placed _ rfl).2
  · exact rules.literalArgument_places nowhere (placed _ rfl).2 slot
  · exact (rules.expression_places nowhere (placed _ rfl).2).bind fun word => .pure _

omit nowhere in
theorem writeTail_places (tail : Option Code) : Places P (writeTail tail : Writer Unit) := by
  cases tail with
  | none => exact .pure _
  | some word => exact .write word

theorem basic_places (opcode : Text) {a b : Option Argument} {position : Position}
    (place : P position) (placedA : ∀ x ∈ a, x.Placed P) (placedB : ∀ x ∈ b, x.Placed P) :
    Places P (rules.basic opcode a b position : Writer Unit) := by
  -- Operands that do not fit into one word are reported at the first of them.
  have first : P ((a.map Argument.position).getD .nowhere) := by
    cases a with
    | none => exact nowhere
    | some x => exact (placedA x rfl).position
  rw [basic]
  split
  · exact .reject place _
  · refine (rules.argument_places nowhere .a placedA).bind fun resultA => ?_
    refine (rules.argument_places nowhere .b placedB).bind fun resultB => ?_
    dsimp only
    split
    · exact .reject first _
    · refine (Places.write _).bind fun _ => ?_
      split
      · exact (writeTail_places _).bind fun _ => writeTail_places _
      · exact (writeTail_places _).bind fun _ => writeTail_places _

theorem extended_places (opcode : Text) {operand : Option Argument} {position : Position}
    (place : P position) (placed : ∀ x ∈ operand, x.Placed P) :
    Places P (rules.extended opcode operand position : Writer Unit) := by
  rw [extended]
  split
  · exact .reject place _
  · refine (rules.argument_places nowhere .b placed).bind fun result => ?_
    dsimp only
    split
    · exact .reject place _
    · exact (Places.write _).bind fun _ => writeTail_places _

omit nowhere in
theorem writeUnits_places (units : List Word) : Places P (writeUnits units : Writer Unit) := by
  induction units with
  | nil => exact .pure _
  | cons unit rest ih => exact (Places.write _).bind fun _ => ih

theorem data_places {position : Position} {values : List (Option DataValue)} (place : P position)
    (placed : ∀ value ∈ values, ∀ x ∈ value, x.Placed P) :
    Places P (rules.data position values : Writer Unit) := by
  induction values with
  | nil => exact .pure _
  | cons value rest ih =>
      obtain ⟨placedValue, placedRest⟩ := List.forall_mem_cons.1 placed
      have behind := ih placedRest
      rcases value with _ | value
      · exact .reject place _
      · cases value with
        | string text _ => exact (writeUnits_places _).bind fun _ => behind
        | word value =>
            refine (rules.expression_places nowhere ?_).bind fun word => ?_
            · rintro _ ⟨⟩
              exact placedValue _ rfl
            · exact (Places.write _).bind fun _ => behind
        | lengthMarker at_ =>
            rw [data]
            split
            · refine (literal_places _ _ (placedValue _ rfl)).bind fun word => ?_
              exact (Places.write _).bind fun _ => behind
            · exact .reject (placedValue _ rfl) _

theorem body_places {body : Option Body} (placed : ∀ b ∈ body, b.Placed P) :
    Places P (rules.body body : Writer Unit) := by
  rcases body with _ | body
  · exact .reject nowhere _
  · have placed := placed body rfl
    cases body with
    | addressFix value position => exact .reject placed.1 _
    | basic opcode a b position =>
        exact rules.basic_places nowhere opcode placed.1 placed.2.1 placed.2.2
    | extended opcode operand position =>
        exact rules.extended_places nowhere opcode placed.1 placed.2
    | data values position => exact rules.data_places nowhere placed.1 placed.2

end Walk

end EncodingRules

end Dcpu
