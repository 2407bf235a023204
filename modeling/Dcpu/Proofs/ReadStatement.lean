import Dcpu.Proofs.ReadTokens
import Mathlib.Data.List.Basic

set_option autoImplicit false

namespace Dcpu

def Body.isOperation : Body → Bool
  | .basic .. | .extended .. => true
  | .addressFix .. | .data .. => false

def Statement.isOperation (s : Statement) : Bool := s.body.any Body.isOperation

namespace Layout

variable (layout : Layout) (name : Text)

theorem isSome_basicOpcode?_iff :
    (layout.basicOpcode? name).isSome = true ↔
      ∃ op ∈ layout.basicTable.map (·.1), name.lower = op.mnemonic := by
  simp only [basicOpcode?, basicEntry?, Option.isSome_map, List.find?_isSome, beq_iff_eq]
  constructor
  · rintro ⟨entry, member, same⟩
    exact ⟨entry.1, List.mem_map_of_mem member, same.symm⟩
  · rintro ⟨op, member, same⟩
    obtain ⟨entry, listed, rfl⟩ := List.mem_map.1 member
    exact ⟨entry, listed, same.symm⟩

theorem isSome_extendedOpcode?_iff :
    (layout.extendedOpcode? name).isSome = true ↔
      ∃ op ∈ layout.extendedTable.map (·.1), name.lower = op.mnemonic := by
  simp only [extendedOpcode?, extendedEntry?, Option.isSome_map, List.find?_isSome, beq_iff_eq]
  constructor
  · rintro ⟨entry, member, same⟩
    exact ⟨entry.1, List.mem_map_of_mem member, same.symm⟩
  · rintro ⟨op, member, same⟩
    obtain ⟨entry, listed, rfl⟩ := List.mem_map.1 member
    exact ⟨entry, listed, same.symm⟩

end Layout

namespace StatementReader

variable {reader : StatementReader} {P : Position → Prop} {α β : Type}

inductive Answers (P : Position → Prop) (holds : α → Prop) : Except Diagnostic α → Prop
  | ok {a : α} (is : holds a) : Answers P holds (.ok a)
  | error {d : Diagnostic} (placed : P d.position) : Answers P holds (.error d)

namespace Answers

variable {holds : α → Prop} {x : Except Diagnostic α}

theorem imp {holds' : α → Prop} (answers : Answers P holds x)
    (weaker : ∀ a, holds a → holds' a) : Answers P holds' x := by
  cases answers with
  | ok is => exact .ok (weaker _ is)
  | error placed => exact .error placed

theorem bind {holds' : β → Prop} {next : α → Except Diagnostic β} (answers : Answers P holds x)
    (after : ∀ a, holds a → Answers P holds' (next a)) : Answers P holds' (x >>= next) := by
  cases answers with
  | ok is => exact after _ is
  | error placed => exact .error placed

end Answers

theorem Takes.answers {tokens : List Token} {spells : List Token → α → Prop}
    {x : Except Diagnostic (α × List Token)} {holds : β → Prop}
    {next : α × List Token → Except Diagnostic β} (takes : Takes P tokens spells x)
    (after : ∀ front a rest, tokens = front ++ rest → spells front a →
      Answers P holds (next (a, rest))) :
    Answers P holds (x >>= next) := by
  cases takes with
  | ok split is => exact after _ _ _ split is
  | error placed => exact .error placed

inductive SpellsArguments (reader : StatementReader) : List Token → List Argument → Prop
  | nil : SpellsArguments reader [] []
  | last {tokens : List Token} {x : Argument} (spells : reader.SpellsArgument tokens x) :
      SpellsArguments reader tokens [x]
  | more {first others : List Token} {separator : Token} {x : Argument} {xs : List Argument}
      (spells : reader.SpellsArgument first x) (comma : separator.kind = .comma)
      (rest : SpellsArguments reader others xs) :
      SpellsArguments reader (first ++ separator :: others) (x :: xs)

inductive SpellsBodyComma (reader : StatementReader) : List Token → Body → Prop
  | plain {tokens : List Token} {body : Body} (spells : reader.SpellsBody tokens body) :
      SpellsBodyComma reader tokens body
  | comma {tokens : List Token} {body : Body} {t : Token} (spells : reader.SpellsBody tokens body)
      (operation : body.isOperation = true) (comma : t.kind = .comma) :
      SpellsBodyComma reader (tokens ++ [t]) body

inductive SpellsStatementComma (reader : StatementReader) : List Token → Statement → Prop
  | plain {tokens : List Token} {s : Statement} (spells : reader.SpellsStatement tokens s) :
      SpellsStatementComma reader tokens s
  | comma {tokens : List Token} {s : Statement} {t : Token}
      (spells : reader.SpellsStatement tokens s) (operation : s.isOperation = true)
      (comma : t.kind = .comma) : SpellsStatementComma reader (tokens ++ [t]) s

theorem SpellsArguments.basic {t : Token} {tokens : List Token} {op : BasicOp} {a b : Argument}
    (spells : reader.SpellsArguments tokens [a, b]) (named : t.Names op.mnemonic)
    (known : op ∈ reader.layout.basicTable.map (·.1)) :
    reader.SpellsBodyComma (t :: tokens) (.basic op.mnemonic (some a) (some b) t.position) := by
  cases spells with
  | more spellsA comma rest =>
      cases rest with
      | last spellsB => exact .plain (.basic named known spellsA comma spellsB)
      | @more second _ separator' _ _ spellsB comma' rest =>
          cases rest with
          | nil =>
              have spells := SpellsBody.basic named known spellsA comma spellsB
              simpa using SpellsBodyComma.comma spells rfl comma'

theorem SpellsArguments.extended {t : Token} {tokens : List Token} {op : ExtendedOp} {x : Argument}
    (spells : reader.SpellsArguments tokens [x]) (named : t.Names op.mnemonic)
    (known : op ∈ reader.layout.extendedTable.map (·.1)) :
    reader.SpellsBodyComma (t :: tokens) (.extended op.mnemonic (some x) t.position) := by
  cases spells with
  | last spells => exact .plain (.extended named known spells)
  | more spells comma rest =>
      cases rest with
      | nil => exact .comma (.extended named known spells) rfl comma

theorem SpellsBody.ne_nil {tokens : List Token} {body : Body}
    (spells : reader.SpellsBody tokens body) : tokens ≠ [] := by
  cases spells <;> simp

theorem SpellsBodyComma.statement {first second : List Token} {label : Option LabelDefinition}
    {body : Body} (spells : reader.SpellsBodyComma second body) (labels : SpellsLabel first label) :
    reader.SpellsStatementComma (first ++ second)
      ⟨label, some body, reader.startPosition (first ++ second)⟩ := by
  cases spells with
  | plain spells => exact .plain (.intro labels (.some spells))
  | @comma tokens _ t spells operation comma =>
      -- The comma is not the first token, so the statement starts where it did.
      have start : reader.startPosition (first ++ (tokens ++ [t])) =
          reader.startPosition (first ++ tokens) := by
        obtain ⟨u, rest, rfl⟩ := List.exists_cons_of_ne_nil spells.ne_nil
        cases first <;> rfl
      rw [start, ← List.append_assoc]
      exact .comma (.intro labels (.some spells)) operation comma

section Walk

variable {tokens : List Token} (atEnd : P reader.lineEnd)
include atEnd

theorem argumentsAfter_answers {found : List Argument} (placed : Placed P tokens) :
    Answers P (fun all => ∃ more, all = found.reverse ++ more ∧ reader.SpellsArguments tokens more)
      (reader.argumentsAfter found tokens) := by
  induction found, tokens using argumentsAfter.induct reader with
  | case1 found =>
      rw [argumentsAfter.eq_def]
      exact .ok ⟨[], (List.append_nil _).symm, .nil⟩
  | case2 found t ts d read =>
      rw [argumentsAfter_cons, read]
      have takes := argument_takes atEnd placed
      rw [read] at takes
      cases takes with
      | error there => exact .error there
  | case3 found t ts next read =>
      have takes := argument_takes atEnd placed
      rw [read] at takes
      obtain ⟨front, split, spells⟩ := takes.of_ok
      rw [List.append_nil] at split
      rw [argumentsAfter_cons, read]
      exact .ok ⟨[next], List.reverse_cons, split ▸ .last spells⟩
  -- One more argument with a comma behind it.
  | case4 found t ts next separator rest read comma ih =>
      have takes := argument_takes atEnd placed
      rw [read] at takes
      obtain ⟨front, split, spells⟩ := takes.of_ok
      rw [split] at placed
      rw [argumentsAfter_cons, read]
      simp only [bind, Except.bind, comma, if_true]
      refine (ih placed.right.tail).imp ?_
      rintro _ ⟨more, rfl, others⟩
      exact ⟨next :: more, by simp, split ▸ .more spells comma others⟩
  -- An argument with something else behind it.
  | case5 found t ts next separator rest read comma =>
      have takes := argument_takes atEnd placed
      rw [read] at takes
      obtain ⟨front, split, _⟩ := takes.of_ok
      rw [split] at placed
      rw [argumentsAfter_cons, read]
      simp only [bind, Except.bind, comma, if_false]
      exact .error placed.right.head

theorem arguments_answers {name : Token} (count : Nat) (placed : Placed P (name :: tokens)) :
    Answers P (fun all => all.length = count ∧ reader.SpellsArguments tokens all)
      (reader.arguments name count tokens) := by
  refine (argumentsAfter_answers atEnd placed.tail).bind ?_
  rintro _ ⟨more, rfl, spells⟩
  split
  · exact .ok ⟨by assumption, spells⟩
  · exact .error placed.head

theorem dataAfter_takes {name : Token} {found : List (Option DataValue)}
    (placed : Placed P tokens) :
    Takes P tokens (fun front body => ∃ values last, reader.SpellsValues front values last ∧
        body = .data (found.reverse ++ values.map some) (name.position.span last.position))
      (reader.dataAfter name found tokens) := by
  induction found, tokens using dataAfter.induct reader with
  | case1 found tokens d read =>
      have takes := dataValue_takes atEnd placed
      rw [read] at takes
      rw [dataAfter_eq, read]
      cases takes with
      | error there => exact .error there
  | case2 found tokens value p v rest read ih =>
      have takes := dataValue_takes atEnd placed
      rw [read] at takes
      obtain ⟨front, rfl, spells⟩ := takes.of_ok
      rw [dataAfter_eq, read]
      change Takes P _ _ (reader.dataAfter name (some value :: found) rest)
      generalize reader.dataAfter name (some value :: found) rest = result at ih
      cases ih placed.right.tail with
      | error there => exact .error there
      | @ok others rest body split is =>
          obtain ⟨values, last, listed, rfl⟩ := is
          have all : reader.SpellsValues (front ++ ⟨.comma, p, v⟩ :: others) (value :: values)
              last :=
            .more spells rfl listed
          exact .ok (by simp [split]) ⟨_, last, all, by simp⟩
  | case3 found tokens value rest last read =>
      have takes := dataValue_takes atEnd placed
      rw [read] at takes
      obtain ⟨front, split, spells⟩ := takes.of_ok
      rw [dataAfter_eq, read]
      simp only [bind, Except.bind]
      exact .ok split ⟨[value], value, .last spells, by simp⟩

theorem data_takes {name : Token} (named : name.Names "dat") (placed : Placed P (name :: tokens)) :
    Takes P (name :: tokens) reader.SpellsBody (reader.data name tokens) := by
  unfold data
  split
  · exact .error placed.head
  · refine .cons ((dataAfter_takes atEnd placed.tail).imp ?_)
    rintro front _ ⟨values, last, spells, rfl⟩
    exact .data named spells

theorem namedBody_takes {t : Token} (name : t.kind = .identifier)
    (placed : Placed P (t :: tokens)) :
    Takes P (t :: tokens) reader.SpellsBodyComma (reader.namedBody t tokens) := by
  have basics := reader.layout.isSome_basicOpcode?_iff t.value.lower
  have extendeds := reader.layout.isSome_extendedOpcode?_iff t.value.lower
  rw [Text.lower_lower] at basics extendeds
  simp only [namedBody]
  -- The names are tried as the reader does: `dat`, then basic operations, then extended ones.
  split
  · exact (data_takes atEnd ⟨name, ‹_›⟩ placed).imp fun _ _ spells => .plain spells
  split
  · rename_i known
    obtain ⟨op, listed, lower⟩ := basics.1 known
    rw [lower]
    have answers := arguments_answers atEnd 2 placed
    generalize reader.arguments t 2 tokens = result at answers
    cases answers with
    | error there => exact .error there
    | @ok all is =>
        obtain ⟨two, spells⟩ := is
        obtain ⟨a, b, rfl⟩ := List.length_eq_two.1 two
        exact .ok (List.append_nil _).symm (spells.basic ⟨name, lower⟩ listed)
  split
  · rename_i known
    obtain ⟨op, listed, lower⟩ := extendeds.1 known
    rw [lower]
    have answers := arguments_answers atEnd 1 placed
    generalize reader.arguments t 1 tokens = result at answers
    cases answers with
    | error there => exact .error there
    | @ok all is =>
        obtain ⟨one, spells⟩ := is
        obtain ⟨x, rfl⟩ := List.length_eq_one_iff.1 one
        exact .ok (List.append_nil _).symm (spells.extended ⟨name, lower⟩ listed)
  · exact .error placed.head

theorem body_takes (placed : Placed P tokens) :
    Takes P tokens reader.SpellsBodyComma (reader.body tokens) := by
  unfold StatementReader.body
  split
  · refine .cons ((expression_takes atEnd placed.tail).bind ?_)
    intro front value rest _ word
    refine .pure ?_
    rw [List.append_nil]
    exact .plain (.addressFix rfl word)
  · exact namedBody_takes atEnd rfl placed
  · exact refuse_takes atEnd placed

theorem label?_takes (placed : Placed P tokens) :
    Takes P tokens SpellsLabel (reader.label? tokens) := by
  unfold label?
  split
  · refine .cons ((expect_takes atEnd placed.tail).bind ?_)
    rintro _ name rest _ ⟨rfl, named⟩
    exact .pure (.some rfl (List.mem_singleton.1 named))
  · exact .pure .none

theorem statement_answers (placed : Placed P tokens) :
    Answers P (reader.SpellsStatementComma tokens) (reader.statement tokens) := by
  refine (label?_takes atEnd placed).answers ?_
  rintro first label rest rfl labels
  dsimp only
  split
  · rename_i nothing
    obtain rfl := List.isEmpty_iff.1 nothing
    exact .ok (.plain (.intro labels .none))
  · refine (body_takes atEnd placed.right).answers ?_
    rintro second body rest rfl spells
    dsimp only
    split
    · rw [List.append_nil]
      exact .ok (spells.statement labels)
    · exact .error placed.right.right.head

end Walk

end StatementReader

end Dcpu
