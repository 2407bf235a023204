import Dcpu.Proofs.LaidTokens
import Dcpu.Proofs.ReadStatement
import Dcpu.Proofs.ReadWithin

set_option autoImplicit false

namespace Dcpu

namespace Position

theorem span_self (p : Position) : p.span p = p := by
  simp only [span]
  congr 1
  omega

theorem span_span (first middle last : Position) :
    first.span (middle.span last) = first.span last :=
  span_eq (stop_span middle last) first

end Position

def Atom.Placed (P : Position → Prop) : Atom → Prop
  | .number _ p | .character _ p | .identifier _ p => P p
  | .difference target p => P p ∧ target.Placed P
  | .absent => True

structure Expression.Placed (P : Position → Prop) (e : Expression) : Prop where
  position : P e.position
  head : e.head.Placed P
  tail : ∀ atom ∈ e.tail, atom.Placed P

def Argument.Placed (P : Position → Prop) : Argument → Prop
  -- A register in brackets has a place of its own, but nothing is reported there.
  | .register _ p | .special _ p | .lookup _ p => P p
  | .offsetLookup _ _ value p | .stack _ value p | .literal value p | .literalLookup value p =>
      P p ∧ ∀ e ∈ value, e.Placed P

def DataValue.Placed (P : Position → Prop) : DataValue → Prop
  | .string _ p | .lengthMarker p => P p
  | .word value => value.Placed P

def Body.Placed (P : Position → Prop) : Body → Prop
  | .addressFix value p => P p ∧ ∀ e ∈ value, e.Placed P
  | .basic _ a b p => P p ∧ (∀ x ∈ a, x.Placed P) ∧ ∀ x ∈ b, x.Placed P
  | .extended _ argument p => P p ∧ ∀ x ∈ argument, x.Placed P
  | .data values p => P p ∧ ∀ value ∈ values, ∀ x ∈ value, x.Placed P

structure Statement.Placed (P : Position → Prop) (s : Statement) : Prop where
  position : P s.position
  label : ∀ label ∈ s.label, P label.position
  body : ∀ body ∈ s.body, body.Placed P

namespace LineTokens.Stretches

variable {P : Position → Prop} {t : Token} {tokens front back : List Token}

theorem suffix (stretches : Stretches P tokens) (behind : back <:+ tokens) : Stretches P back :=
  fun first rest starts last member => stretches first rest (starts.trans behind) last member

theorem tail (stretches : Stretches P (t :: tokens)) : Stretches P tokens :=
  stretches.suffix (List.suffix_cons t tokens)

theorem right (stretches : Stretches P (front ++ back)) : Stretches P back :=
  stretches.suffix (List.suffix_append front back)

theorem left (stretches : Stretches P (front ++ back)) : Stretches P front := by
  intro first rest starts last member
  have starts' : first :: (rest ++ back) <:+ front ++ back := by
    obtain ⟨before, rfl⟩ := starts
    exact ⟨before, by simp⟩
  exact stretches first _ starts' last (List.mem_append_left back member)

theorem head (stretches : Stretches P (t :: tokens)) : P t.position := by
  have place := stretches t tokens List.suffix_rfl t (.head _)
  rwa [Position.span_self] at place

theorem placed (stretches : Stretches P tokens) : StatementReader.Placed P tokens := by
  intro u member
  obtain ⟨before, behind, rfl⟩ := List.append_of_mem member
  exact stretches.right.head

end LineTokens.Stretches

namespace StatementReader

open LineTokens (Stretches)

variable {reader : StatementReader} {P : Position → Prop} {tokens : List Token}

def Spans (tokens : List Token) (p : Position) : Prop :=
  ∃ (first : Token) (rest : List Token), tokens = first :: rest ∧
    ∃ last ∈ tokens, p = first.position.span last.position

namespace Spans

variable {p q : Position} {front back : List Token}

theorem head (t : Token) (rest : List Token) : Spans (t :: rest) t.position :=
  ⟨t, rest, rfl, t, .head _, (Position.span_self _).symm⟩

theorem cons (t : Token) (spans : Spans back p) (behind : back <:+ tokens) :
    Spans (t :: tokens) (t.position.span p) := by
  obtain ⟨first, rest, rfl, last, member, rfl⟩ := spans
  exact ⟨t, tokens, rfl, last, .tail _ (behind.subset member), Position.span_span _ _ _⟩

theorem append (spans : Spans front p) (spans' : Spans back q) (t : Token) :
    Spans (front ++ t :: back) (p.span q) := by
  obtain ⟨first, rest, rfl, last, member, rfl⟩ := spans
  obtain ⟨first', rest', rfl, last', member', rfl⟩ := spans'
  refine ⟨first, _, rfl, last', List.mem_append_right _ (.tail _ member'), ?_⟩
  exact Position.span_span first.position first'.position last'.position

theorem holds (spans : Spans tokens p) (stretches : Stretches P tokens) : P p := by
  obtain ⟨first, rest, rfl, last, member, rfl⟩ := spans
  exact stretches first rest List.suffix_rfl last member

end Spans

theorem SpellsAtom.spans {atom : Atom} (spells : reader.SpellsAtom tokens atom) :
    Spans tokens atom.position := by
  induction spells with
  | difference tilde spells ih => exact ih.cons _ List.suffix_rfl
  | plus signed plus numeral decodes => exact (Spans.head _ _).cons _ List.suffix_rfl
  | minus signed minus numeral decodes => exact (Spans.head _ _).cons _ List.suffix_rfl
  | number numeral decodes => exact .head _ _
  | character character => exact .head _ _
  | identifier name => exact .head _ _

theorem SpellsWord.spans {word : Expression} (spells : reader.SpellsWord tokens word) :
    Spans tokens word.position := by
  cases spells with
  | single spells => exact spells.spans
  | pair base tilde target => exact base.spans.append target.spans _

theorem SpellsAtom.placed {atom : Atom} (spells : reader.SpellsAtom tokens atom)
    (stretches : Stretches P tokens) : atom.Placed P := by
  have place := spells.spans.holds stretches
  induction spells with
  | difference tilde spells ih =>
      exact ⟨place, ih stretches.tail (spells.spans.holds stretches.tail)⟩
  | plus signed plus numeral decodes => exact place
  | minus signed minus numeral decodes => exact place
  | number numeral decodes => exact place
  | character character => exact place
  | identifier name => exact place

theorem SpellsWord.placed {word : Expression} (spells : reader.SpellsWord tokens word)
    (stretches : Stretches P tokens) : word.Placed P := by
  refine ⟨spells.spans.holds stretches, ?_, ?_⟩
  · cases spells with
    | single spells => exact spells.placed stretches
    | pair base tilde target => exact base.placed stretches.left
  · cases spells with
    | single spells => simp
    | pair base tilde target =>
        rintro atom ⟨⟩
        exact target.placed stretches.right.tail

theorem SpellsWord.placed_some {word : Expression} (spells : reader.SpellsWord tokens word)
    (stretches : Stretches P tokens) : ∀ e ∈ some word, e.Placed P := by
  rintro e ⟨⟩
  exact spells.placed stretches

theorem SpellsLookup.placed {make : Position → Argument} {p : Position}
    (spells : reader.SpellsLookup tokens make) (stretches : Stretches P tokens) (place : P p) :
    (make p).Placed P := by
  cases spells with
  | decrement minus minus' named => exact ⟨place, by simp⟩
  | peek named => exact ⟨place, by simp⟩
  | increment named plus plus' => exact ⟨place, by simp⟩
  | pick named plus spells single => exact ⟨place, spells.placed_some stretches.tail.tail⟩
  | register r named => exact place
  | plus r named plus spells => exact ⟨place, spells.placed_some stretches.tail.tail⟩
  | minus r named minus spells => exact ⟨place, spells.placed_some stretches.tail.tail⟩
  | word spells free => exact ⟨place, spells.placed_some stretches⟩
  | wordPlus r spells free plus named => exact ⟨place, spells.placed_some stretches.left⟩

theorem SpellsArgument.placed {argument : Argument} (spells : reader.SpellsArgument tokens argument)
    (stretches : Stretches P tokens) : argument.Placed P := by
  cases spells with
  | register r named => exact stretches.head
  | special r named => exact stretches.head
  | push named => exact ⟨stretches.head, by simp⟩
  | pop named => exact ⟨stretches.head, by simp⟩
  | peek named => exact ⟨stretches.head, by simp⟩
  | pick named spells =>
      exact ⟨(spells.spans.cons _ List.suffix_rfl).holds stretches,
        spells.placed_some stretches.tail⟩
  | lookup opens spells closes =>
      -- The place is that of the brackets, whatever stands between them.
      refine spells.placed stretches.tail.left ?_
      exact ((Spans.head _ []).cons _ (List.suffix_append _ _)).holds stretches
  | word spells free => exact ⟨spells.spans.holds stretches, spells.placed_some stretches⟩

theorem SpellsValue.spans {value : DataValue} (spells : reader.SpellsValue tokens value) :
    Spans tokens value.position := by
  cases spells with
  | string string => exact .head _ _
  | lengthMarker tilde => exact .head _ _
  | word spells => exact spells.spans

theorem SpellsValue.placed {value : DataValue} (spells : reader.SpellsValue tokens value)
    (stretches : Stretches P tokens) : value.Placed P := by
  cases spells with
  | string string => exact stretches.head
  | lengthMarker tilde => exact stretches.head
  | word spells => exact spells.placed stretches

theorem SpellsValues.spans {values : List DataValue} {last : DataValue}
    (spells : reader.SpellsValues tokens values last) :
    ∃ back, back <:+ tokens ∧ Spans back last.position := by
  induction spells with
  | last spells => exact ⟨_, List.suffix_rfl, spells.spans⟩
  | more spells comma rest ih =>
      obtain ⟨back, behind, spans⟩ := ih
      exact ⟨back, (behind.trans (List.suffix_cons _ _)).trans (List.suffix_append _ _), spans⟩

theorem SpellsValues.placed {values : List DataValue} {last : DataValue}
    (spells : reader.SpellsValues tokens values last) (stretches : Stretches P tokens) :
    ∀ value ∈ values, value.Placed P := by
  induction spells with
  | last spells => exact List.forall_mem_singleton.2 (spells.placed stretches)
  | more spells comma rest ih =>
      exact List.forall_mem_cons.2 ⟨spells.placed stretches.left, ih stretches.right.tail⟩

theorem SpellsBody.placed {body : Body} (spells : reader.SpellsBody tokens body)
    (stretches : Stretches P tokens) : body.Placed P := by
  cases spells with
  | addressFix atSign spells =>
      exact ⟨(spells.spans.cons _ List.suffix_rfl).holds stretches,
        spells.placed_some stretches.tail⟩
  | data named spells =>
      -- A `dat` ends where its last value does, which the last of the tokens spell.
      obtain ⟨back, behind, spans⟩ := spells.spans
      refine ⟨(spans.cons _ behind).holds stretches, ?_⟩
      rw [List.forall_mem_map]
      rintro value member _ ⟨⟩
      exact spells.placed stretches.tail value member
  | basic named known spellsA comma spellsB =>
      refine ⟨stretches.head, ?_, ?_⟩
      · rintro _ ⟨⟩
        exact spellsA.placed stretches.tail.left
      · rintro _ ⟨⟩
        exact spellsB.placed stretches.tail.right.tail
  | extended named known spells =>
      refine ⟨stretches.head, ?_⟩
      rintro _ ⟨⟩
      exact spells.placed stretches.tail

theorem SpellsStatement.placed {s : Statement} (spells : reader.SpellsStatement tokens s)
    (atEnd : P reader.lineEnd) (stretches : Stretches P tokens) : s.Placed P := by
  cases spells with
  | @intro first second label body labels spells =>
      refine ⟨?_, ?_, ?_⟩
      · generalize first ++ second = all at stretches
        cases all with
        | nil => exact atEnd
        | cons t rest => exact stretches.head
      · cases labels with
        | none => simp
        | some colon named =>
            rintro _ ⟨⟩
            exact ((Spans.head _ []).cons _ List.suffix_rfl).holds stretches.left
      · cases spells with
        | none => simp
        | some spells =>
            rintro _ ⟨⟩
            exact spells.placed stretches.right

theorem statement_placed (atEnd : P reader.lineEnd) (stretches : Stretches P tokens) :
    Answers P (Statement.Placed P) (reader.statement tokens) := by
  refine (statement_answers atEnd stretches.placed).imp ?_
  intro s spells
  cases spells with
  | plain spells => exact spells.placed atEnd stretches
  | comma spells operation comma =>
      -- A comma behind the operands belongs to no part of the statement.
      exact spells.placed atEnd stretches.left

end StatementReader

end Dcpu
