import Dcpu.Proofs.ExtendedStatement

set_option autoImplicit false

namespace Dcpu

def Position.stop (p : Position) : Int := p.byte + p.size

theorem Position.stop_span (first last : Position) : (first.span last).stop = last.stop := by
  simp only [stop, span]
  omega

theorem Position.span_eq {last last' : Position} (same : last.stop = last'.stop)
    (first : Position) : first.span last = first.span last' := by
  simp only [stop] at same
  simp only [span, same]

def Body.hasOperands : Body → Bool
  | .basic _ a b _ => a.isSome && b.isSome
  | .extended _ argument _ => argument.isSome
  | .addressFix .. | .data .. => true

namespace StatementReader

/-- What was read ends with the token at an index, and reading goes on behind that token. -/
def EndsWithin (tokens rest : List Token) (position : Position) : Prop :=
  ∃ (index : Nat) (last : Token), tokens[index]? = some last ∧ rest = tokens.drop (index + 1) ∧
    position.stop = last.position.stop

namespace EndsWithin

variable {tokens rest rest' : List Token} {position position' : Position}

theorem head (t : Token) (rest : List Token) : EndsWithin (t :: rest) rest t.position :=
  ⟨0, t, rfl, rfl, rfl⟩

theorem at_stop (ends : EndsWithin tokens rest position) (same : position'.stop = position.stop) :
    EndsWithin tokens rest position' := by
  obtain ⟨index, last, there, left, stops⟩ := ends
  exact ⟨index, last, there, left, same.trans stops⟩

theorem trans (first : EndsWithin tokens rest position) (second : EndsWithin rest rest' position') :
    EndsWithin tokens rest' position' := by
  obtain ⟨index, _, _, rfl, _⟩ := first
  obtain ⟨index', last, there, rfl, stops⟩ := second
  refine ⟨index + 1 + index', last, ?_, ?_, stops⟩
  · rwa [List.getElem?_drop] at there
  · rw [List.drop_drop, ← Nat.add_assoc]

theorem cons (t : Token) (ends : EndsWithin tokens rest position) :
    EndsWithin (t :: tokens) rest position :=
  (head t tokens).trans ends

theorem length_lt (ends : EndsWithin tokens rest position) : rest.length < tokens.length := by
  obtain ⟨index, last, there, rfl, _⟩ := ends
  have within := (List.getElem?_eq_some_iff.1 there).1
  rw [List.length_drop]
  omega

end EndsWithin

variable (reader : StatementReader) {tokens rest : List Token}

theorem expect_ends {required : List TokenKind} {t : Token}
    (read : reader.expect required tokens = .ok (t, rest)) :
    EndsWithin tokens rest t.position := by
  cases tokens with
  | nil => exact absurd read (by simp [expect, refuse_ne_ok])
  | cons u us =>
      rw [expect] at read
      split at read
      · obtain ⟨rfl, rfl⟩ := Prod.mk.inj (Except.ok.inj read)
        exact .head _ _
      · exact absurd read (reader.refuse_ne_ok)

theorem signedNumber_ends {sign : Token} {found : Atom}
    (read : reader.signedNumber sign tokens = .ok (found, rest)) :
    EndsWithin tokens rest found.position := by
  rw [signedNumber] at read
  split at read
  · obtain ⟨⟨digits, after⟩, expected, read⟩ := bind_eq_ok.1 read
    obtain ⟨value, _, result⟩ := bind_eq_ok.1 read
    obtain ⟨rfl, rfl⟩ := Prod.mk.inj (Except.ok.inj result)
    exact (reader.expect_ends expected).at_stop (Position.stop_span _ _)
  · simp [reject] at read

theorem atom_ends {found : Atom} (read : reader.atom tokens = .ok (found, rest)) :
    EndsWithin tokens rest found.position := by
  induction tokens generalizing found rest with
  | nil => exact absurd read (reader.refuse_ne_ok)
  | cons t ts ih =>
      rw [atom] at read
      split at read
      · obtain ⟨⟨target, after⟩, inner, result⟩ := bind_eq_ok.1 read
        obtain ⟨rfl, rfl⟩ := Prod.mk.inj (Except.ok.inj result)
        exact ((ih inner).cons t).at_stop (Position.stop_span _ _)
      · exact (reader.signedNumber_ends read).cons t
      · exact (reader.signedNumber_ends read).cons t
      · obtain ⟨value, _, result⟩ := bind_eq_ok.1 read
        obtain ⟨rfl, rfl⟩ := Prod.mk.inj (Except.ok.inj result)
        exact .head t _
      · obtain ⟨rfl, rfl⟩ := Prod.mk.inj (Except.ok.inj read)
        exact .head t _
      · obtain ⟨rfl, rfl⟩ := Prod.mk.inj (Except.ok.inj read)
        exact .head t _
      · exact absurd read (reader.refuse_ne_ok)

theorem expression_ends {found : Expression} (read : reader.expression tokens = .ok (found, rest)) :
    EndsWithin tokens rest found.position := by
  obtain ⟨⟨head, after⟩, first, read⟩ := bind_eq_ok.1 read
  have front := reader.atom_ends first
  dsimp only at front read
  split at read
  · obtain ⟨⟨tail, final⟩, second, result⟩ := bind_eq_ok.1 read
    obtain ⟨rfl, rfl⟩ := Prod.mk.inj (Except.ok.inj result)
    exact (front.trans ((reader.atom_ends second).cons _)).at_stop (Position.stop_span _ _)
  · obtain ⟨rfl, rfl⟩ := Prod.mk.inj (Except.ok.inj read)
    exact front

theorem dataValue_ends {found : DataValue} (read : reader.dataValue tokens = .ok (found, rest)) :
    EndsWithin tokens rest found.position := by
  rw [dataValue.eq_def] at read
  split at read
  · obtain ⟨rfl, rfl⟩ := Prod.mk.inj (Except.ok.inj read)
    exact .head _ _
  · split at read
    · obtain ⟨rfl, rfl⟩ := Prod.mk.inj (Except.ok.inj read)
      exact .head _ _
    · obtain ⟨⟨value, after⟩, inner, result⟩ := bind_eq_ok.1 read
      obtain ⟨rfl, rfl⟩ := Prod.mk.inj (Except.ok.inj result)
      exact reader.expression_ends inner
  · obtain ⟨⟨value, after⟩, inner, result⟩ := bind_eq_ok.1 read
    obtain ⟨rfl, rfl⟩ := Prod.mk.inj (Except.ok.inj result)
    exact reader.expression_ends inner

theorem dataAfter_ends {name : Token} {found : List (Option DataValue)} {body : Body}
    (read : reader.dataAfter name found tokens = .ok (body, rest)) :
    ∃ (values : List (Option DataValue)) (index : Nat) (last : Token),
      body = .data values (name.position.span last.position) ∧ tokens[index]? = some last ∧
        rest = tokens.drop (index + 1) := by
  induction size : tokens.length using Nat.strongRecOn generalizing tokens found with
  | ind size ih =>
    subst size
    rw [dataAfter_eq] at read
    obtain ⟨⟨value, after⟩, first, read⟩ := bind_eq_ok.1 read
    have ends := reader.dataValue_ends first
    have shorter := ends.length_lt
    dsimp only at ends shorter read
    split at read
    · rename_i place text behind
      -- The rest of the values is read behind the comma.
      obtain ⟨values, index, last, rfl, there, rfl⟩ :=
        ih behind.length (by simp only [List.length_cons] at shorter; omega) read rfl
      obtain ⟨index', _, _, left, _⟩ := ends
      have behind_eq : behind = tokens.drop (index' + 1 + 1) := by
        rw [← List.tail_drop, ← left, List.tail_cons]
      refine ⟨values, index' + 1 + 1 + index, last, rfl, ?_, ?_⟩
      · rw [← List.getElem?_drop, ← behind_eq, there]
      · rw [behind_eq, List.drop_drop, ← Nat.add_assoc]
    · obtain ⟨rfl, rfl⟩ := Prod.mk.inj (Except.ok.inj read)
      obtain ⟨index, last, there, left, stops⟩ := ends
      exact ⟨_, index, last, by rw [Position.span_eq stops], there, left⟩

theorem arguments_length {name : Token} {count : Nat} {found : List Argument}
    (read : reader.arguments name count tokens = .ok found) : found.length = count := by
  obtain ⟨all, _, read⟩ := bind_eq_ok.1 read
  split at read
  · obtain rfl := Except.ok.inj read
    assumption
  · simp [reject] at read

theorem data_ends {name : Token} {body : Body}
    (read : reader.data name tokens = .ok (body, rest)) :
    ∃ (values : List (Option DataValue)) (index : Nat) (last : Token),
      body = .data values (name.position.span last.position) ∧ tokens[index]? = some last ∧
        rest = tokens.drop (index + 1) := by
  rw [data] at read
  split at read
  · simp [reject] at read
  · exact reader.dataAfter_ends read

theorem namedBody_whole {t : Token} {body : Body}
    (read : reader.namedBody t tokens = .ok (body, rest)) :
    body.hasOperands = true ∧ rest <:+ tokens := by
  simp only [namedBody] at read
  split at read
  · obtain ⟨values, index, last, rfl, _, rfl⟩ := reader.data_ends read
    exact ⟨rfl, List.drop_suffix _ _⟩
  · split at read
    · obtain ⟨found, listed, result⟩ := bind_eq_ok.1 read
      obtain ⟨rfl, rfl⟩ := Prod.mk.inj (Except.ok.inj result)
      have two := reader.arguments_length listed
      exact ⟨by simp [Body.hasOperands, two], List.nil_suffix⟩
    · split at read
      · obtain ⟨found, listed, result⟩ := bind_eq_ok.1 read
        obtain ⟨rfl, rfl⟩ := Prod.mk.inj (Except.ok.inj result)
        have one := reader.arguments_length listed
        exact ⟨by simp [Body.hasOperands, one], List.nil_suffix⟩
      · simp [reject] at read

theorem body_whole {body : Body} (read : reader.body tokens = .ok (body, rest)) :
    body.hasOperands = true ∧ rest <:+ tokens := by
  rw [StatementReader.body.eq_def] at read
  split at read
  · obtain ⟨⟨value, after⟩, inner, result⟩ := bind_eq_ok.1 read
    obtain ⟨rfl, rfl⟩ := Prod.mk.inj (Except.ok.inj result)
    exact ⟨rfl, (reader.expression_suffix inner).trans (List.suffix_cons _ _)⟩
  · obtain ⟨whole, left⟩ := reader.namedBody_whole read
    exact ⟨whole, left.trans (List.suffix_cons _ _)⟩
  · exact absurd read (reader.refuse_ne_ok)

/-- However reading goes on from these tokens, it does so at a place among them. -/
structure ReadsWithin (tokens : List Token) : Prop where
  argument : ∀ found rest, reader.argument tokens = .ok (found, rest) →
    ∃ index ≤ tokens.length, rest = tokens.drop index
  value : ∀ found rest, reader.dataValue tokens = .ok (found, rest) →
    EndsWithin tokens rest found.position
  data : ∀ name body rest, reader.data name tokens = .ok (body, rest) →
    ∃ (values : List (Option DataValue)) (index : Nat) (last : Token),
      body = .data values (name.position.span last.position) ∧ tokens[index]? = some last ∧
        rest = tokens.drop (index + 1)
  body : ∀ body rest, reader.body tokens = .ok (body, rest) →
    body.hasOperands = true ∧ ∃ index ≤ tokens.length, rest = tokens.drop index

theorem exists_index_of_suffix (left : rest <:+ tokens) :
    ∃ index ≤ tokens.length, rest = tokens.drop index :=
  ⟨_, Nat.sub_le _ _, List.suffix_iff_eq_drop.1 left⟩

theorem readsWithin (tokens : List Token) : reader.ReadsWithin tokens where
  argument _ _ read := exists_index_of_suffix (reader.argument_suffix read)
  value _ _ read := reader.dataValue_ends read
  data _ _ _ read := reader.data_ends read
  body _ _ read := (reader.body_whole read).imp_right exists_index_of_suffix

end StatementReader

end Dcpu
