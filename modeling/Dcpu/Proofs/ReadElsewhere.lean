import Dcpu.Proofs.ExtendedStatement
import Dcpu.Proofs.MapPositions

set_option autoImplicit false

namespace Dcpu

namespace StatementReader

variable {move : Position → Position} (reader : StatementReader)

def Elsewhere {α : Type} (move : Position → Position) (taken : α → α) (r r' : α × List Token) :
    Prop :=
  r' = (taken r.1, r.2.map (Token.mapPosition move))

theorem registerName?_mapPosition (t : Token) :
    registerName? (t.mapPosition move) =
      (registerName? t).map (RegisterName.mapPosition move) := by
  unfold registerName?
  by_cases register : t.kind = .identifier ∧ (Register.ofName? t.value).isSome
  · rw [if_pos register, if_pos (by exact register)]
    rfl
  · rw [if_neg register, if_neg (by exact register)]
    rfl

theorem afterDecrement?_mapPosition (tokens : List Token) :
    afterDecrement? (tokens.map (Token.mapPosition move)) =
      (afterDecrement? tokens).map (List.map (Token.mapPosition move)) := by
  fun_cases afterDecrement? tokens with
  | case1 p v p' v' t rest sp =>
      have same : keyword (t.mapPosition move) "sp" = true := sp
      simp only [List.map_cons, Token.mapPosition, afterDecrement?]
      exact if_pos same
  | case2 p v p' v' t rest other =>
      have same : keyword (t.mapPosition move) "sp" ≠ true := other
      simp only [List.map_cons, Token.mapPosition, afterDecrement?]
      exact if_neg same
  | case3 tokens other =>
      rw [afterDecrement?.eq_2]
      · rfl
      · intro p v p' v' t rest same
        obtain ⟨t₁, tokens, rfl, first, same⟩ := List.map_eq_cons_iff.1 same
        obtain ⟨t₂, tokens, rfl, second, same⟩ := List.map_eq_cons_iff.1 same
        obtain ⟨t₃, tokens, rfl, _, _⟩ := List.map_eq_cons_iff.1 same
        obtain ⟨kind₁, p₁, v₁⟩ := t₁
        obtain ⟨kind₂, p₂, v₂⟩ := t₂
        cases first
        cases second
        exact other _ _ _ _ _ _ rfl

theorem refuse_moved {α β : Type} {related : α → β → Prop} (required : List TokenKind)
    (tokens : List Token) :
    Moved move related (reader.refuse required tokens)
      ((reader.mapPosition move).refuse required (tokens.map (Token.mapPosition move))) := by
  cases tokens with
  | nil => exact .error _
  | cons t rest => exact .error _

theorem expect_moved (required : List TokenKind) (tokens : List Token) :
    Moved move (Elsewhere move (Token.mapPosition move)) (reader.expect required tokens)
      ((reader.mapPosition move).expect required (tokens.map (Token.mapPosition move))) := by
  cases tokens with
  | nil => exact refuse_moved reader required []
  | cons t rest =>
      exact .ite Iff.rfl (.ok rfl) (refuse_moved reader required (t :: rest))

theorem numeral_moved (t : Token) :
    Moved move Eq (reader.numeral t) ((reader.mapPosition move).numeral (t.mapPosition move)) := by
  simp only [numeral, mapPosition, Token.value_mapPosition]
  split
  · exact .ok rfl
  · exact .error _
  · exact .error _

section Walk

variable {reader : StatementReader}
  (spans : ∀ first last, move (first.span last) = (move first).span (move last))
  (tokens : List Token)
include spans

def AtomElsewhere (move : Position → Position) (r r' : Atom × List Token) : Prop :=
  -- An atom that was read has a place of its own, which is moved.
  Elsewhere move (Atom.mapPositions move) r r' ∧
    (r.1.mapPositions move).position = move r.1.position

theorem signedNumber_moved (sign : Token) :
    Moved move (AtomElsewhere move) (reader.signedNumber sign tokens)
      ((reader.mapPosition move).signedNumber (sign.mapPosition move)
        (tokens.map (Token.mapPosition move))) := by
  unfold signedNumber
  refine .ite Iff.rfl ?_ (.error _)
  apply (expect_moved reader [.literal] tokens).bind
  rintro ⟨digits, rest⟩ _ rfl
  apply (numeral_moved reader digits).bind
  rintro value _ rfl
  refine .ok ⟨?_, rfl⟩
  simp only [Elsewhere, Atom.mapPositions, Token.position_mapPosition, spans]
  rfl

theorem atom_moved :
    Moved move (AtomElsewhere move) (reader.atom tokens)
      ((reader.mapPosition move).atom (tokens.map (Token.mapPosition move))) := by
  induction tokens with
  | nil => exact refuse_moved reader _ []
  | cons t rest ih =>
      obtain ⟨kind, position, value⟩ := t
      cases kind with
      | tilde =>
          apply ih.bind
          rintro ⟨target, rest⟩ _ ⟨rfl, placed⟩
          refine .ok ⟨?_, rfl⟩
          dsimp only at placed
          simp only [Elsewhere, Atom.mapPositions, Token.position_mapPosition, spans, placed]
      | plus => exact signedNumber_moved spans rest _
      | minus => exact signedNumber_moved spans rest _
      | literal =>
          apply (numeral_moved reader _).bind
          rintro value _ rfl
          exact .ok ⟨rfl, rfl⟩
      | character => exact .ok ⟨rfl, rfl⟩
      | identifier => exact .ok ⟨rfl, rfl⟩
      | _ => exact refuse_moved reader _ (_ :: rest)

theorem expression_moved :
    Moved move (Elsewhere move (Expression.mapPositions move)) (reader.expression tokens)
      ((reader.mapPosition move).expression (tokens.map (Token.mapPosition move))) := by
  apply (atom_moved spans tokens).bind
  rintro ⟨head, rest⟩ _ ⟨rfl, placed⟩
  dsimp only at placed
  have single : Elsewhere move (Expression.mapPositions move) (⟨head, none, head.position⟩, rest)
      (⟨head.mapPositions move, none, (head.mapPositions move).position⟩,
        rest.map (Token.mapPosition move)) := by
    simp only [Elsewhere, Expression.mapPositions, placed, Option.map_none]
  rcases rest with _ | ⟨⟨kind, position, value⟩, after⟩
  · exact .ok single
  cases kind with
  | tilde =>
      apply (atom_moved spans after).bind
      rintro ⟨tail, rest⟩ _ ⟨rfl, placed'⟩
      dsimp only at placed'
      refine .ok ?_
      simp only [Elsewhere, Expression.mapPositions, placed, placed', spans, Option.map_some]
  | _ => exact .ok single

theorem closeStack_moved (opening : Position) (access : StackAccess) (offset : Option Expression) :
    Moved move (Elsewhere move (Argument.mapPositions move))
      (reader.closeStack opening access offset tokens)
      ((reader.mapPosition move).closeStack (move opening) access
        (offset.map (Expression.mapPositions move)) (tokens.map (Token.mapPosition move))) := by
  apply (expect_moved reader [.rightBracket] tokens).bind
  rintro ⟨closing, rest⟩ _ rfl
  refine .ok ?_
  simp only [Elsewhere, Argument.mapPositions, Token.position_mapPosition, spans]

theorem stackLookup_moved (opening : Position) :
    Moved move (Elsewhere move (Argument.mapPositions move)) (reader.stackLookup opening tokens)
      ((reader.mapPosition move).stackLookup (move opening)
        (tokens.map (Token.mapPosition move))) := by
  -- One `+` starts an offset and two of them are an increment, so two tokens tell the cases apart.
  rcases tokens with _ | ⟨⟨kind, position, value⟩, rest⟩
  · exact refuse_moved reader _ []
  cases kind with
  | rightBracket => exact closeStack_moved spans (_ :: rest) opening .peek none
  | plus =>
      have picks (single : ∀ p v after, rest = ⟨.plus, p, v⟩ :: after → False)
          (single' : ∀ p v after,
            rest.map (Token.mapPosition move) = ⟨.plus, p, v⟩ :: after → False) :
          Moved move (Elsewhere move (Argument.mapPositions move))
            (reader.stackLookup opening (⟨.plus, position, value⟩ :: rest))
            ((reader.mapPosition move).stackLookup (move opening)
              (⟨.plus, move position, value⟩ :: rest.map (Token.mapPosition move))) := by
        rw [stackLookup.eq_3 _ _ _ _ _ single, stackLookup.eq_3 _ _ _ _ _ single']
        apply (expression_moved spans rest).bind
        rintro ⟨offset, rest⟩ _ rfl
        exact closeStack_moved spans rest opening .pick (some offset)
      rcases rest with _ | ⟨⟨kind', position', value'⟩, after⟩
      · exact picks (by simp) (by simp)
      cases kind' with
      | plus => exact closeStack_moved spans after opening .pop none
      | _ => exact picks (by simp) (by simp [Token.mapPosition])
  | _ => exact refuse_moved reader _ (_ :: rest)

theorem offsetLookup_moved (opening : Position) (register : RegisterName) (sign : OffsetSign) :
    Moved move (Elsewhere move (Argument.mapPositions move))
      (reader.offsetLookup opening register sign tokens)
      ((reader.mapPosition move).offsetLookup (move opening) (register.mapPosition move) sign
        (tokens.map (Token.mapPosition move))) := by
  apply (expression_moved spans tokens).bind
  rintro ⟨offset, rest⟩ _ rfl
  apply (expect_moved reader [.rightBracket] rest).bind
  rintro ⟨closing, rest⟩ _ rfl
  refine .ok ?_
  simp only [Elsewhere, Argument.mapPositions, Token.position_mapPosition, spans, Option.map_some]

theorem registerLookup_moved (opening : Position) (register : RegisterName) :
    Moved move (Elsewhere move (Argument.mapPositions move))
      (reader.registerLookup opening register tokens)
      ((reader.mapPosition move).registerLookup (move opening) (register.mapPosition move)
        (tokens.map (Token.mapPosition move))) := by
  rcases tokens with _ | ⟨⟨kind, position, value⟩, rest⟩
  · exact refuse_moved reader _ []
  cases kind with
  | rightBracket =>
      refine .ok ?_
      simp only [Elsewhere, Argument.mapPositions, spans, Option.map_some]
  | plus => exact offsetLookup_moved spans rest opening register .plus
  | minus => exact offsetLookup_moved spans rest opening register .minus
  | _ => exact refuse_moved reader _ (_ :: rest)

theorem literalLookup_moved (opening : Position) :
    Moved move (Elsewhere move (Argument.mapPositions move)) (reader.literalLookup opening tokens)
      ((reader.mapPosition move).literalLookup (move opening)
        (tokens.map (Token.mapPosition move))) := by
  apply (expression_moved spans tokens).bind
  rintro ⟨value, rest⟩ _ rfl
  apply (expect_moved reader [.plus, .rightBracket] rest).bind
  rintro ⟨sign, rest⟩ _ rfl
  refine .ite Iff.rfl (.ok ?_) ?_
  · simp only [Elsewhere, Argument.mapPositions, Token.position_mapPosition, spans,
      Option.map_some]
  · apply (expect_moved reader [.identifier] rest).bind
    rintro ⟨name, rest⟩ _ rfl
    simp only [registerName?_mapPosition]
    cases registerName? name with
    | none => exact .error _
    | some register =>
        apply (expect_moved reader [.rightBracket] rest).bind
        rintro ⟨closing, rest⟩ _ rfl
        refine .ok ?_
        simp only [Elsewhere, Argument.mapPositions, Token.position_mapPosition, spans,
          Option.map_some]

theorem lookup_moved (opening : Position) :
    Moved move (Elsewhere move (Argument.mapPositions move)) (reader.lookup opening tokens)
      ((reader.mapPosition move).lookup (move opening)
        (tokens.map (Token.mapPosition move))) := by
  unfold lookup
  rw [afterDecrement?_mapPosition]
  cases afterDecrement? tokens with
  | some rest => exact closeStack_moved spans rest opening .push none
  | none =>
      cases tokens with
      | nil => exact literalLookup_moved spans [] opening
      | cons t rest =>
          refine .ite Iff.rfl (stackLookup_moved spans rest opening) ?_
          · rw [registerName?_mapPosition]
            cases registerName? t with
            | none => exact literalLookup_moved spans (t :: rest) opening
            | some register => exact registerLookup_moved spans rest opening register

theorem literalArgument_moved :
    Moved move (Elsewhere move (Argument.mapPositions move)) (reader.literalArgument tokens)
      ((reader.mapPosition move).literalArgument (tokens.map (Token.mapPosition move))) := by
  apply (expression_moved spans tokens).bind
  rintro ⟨value, rest⟩ _ rfl
  exact .ok rfl

theorem namedArgument_moved (t : Token) :
    Moved move (Elsewhere move (Argument.mapPositions move)) (reader.namedArgument t tokens)
      ((reader.mapPosition move).namedArgument (t.mapPosition move)
        (tokens.map (Token.mapPosition move))) := by
  unfold namedArgument
  refine .ite Iff.rfl (.ok rfl) (.ite Iff.rfl (.ok rfl) (.ite Iff.rfl (.ok rfl)
    (.ite Iff.rfl (.ok rfl) (.ite Iff.rfl (.ok rfl) (.ite Iff.rfl ?_ ?_)))))
  · apply (expression_moved spans tokens).bind
    rintro ⟨offset, rest⟩ _ rfl
    refine .ok ?_
    simp only [Elsewhere, Argument.mapPositions, Token.position_mapPosition, spans,
      Option.map_some]
    rfl
  · exact literalArgument_moved spans (t :: tokens)

theorem argument_moved :
    Moved move (Elsewhere move (Argument.mapPositions move)) (reader.argument tokens)
      ((reader.mapPosition move).argument (tokens.map (Token.mapPosition move))) := by
  rcases tokens with _ | ⟨⟨kind, position, value⟩, rest⟩
  · exact literalArgument_moved spans []
  cases kind with
  | identifier => exact namedArgument_moved spans rest _
  | leftBracket => exact lookup_moved spans rest position
  | _ => exact literalArgument_moved spans (_ :: rest)

theorem dataValue_moved :
    Moved move (Elsewhere move (DataValue.mapPositions move)) (reader.dataValue tokens)
      ((reader.mapPosition move).dataValue (tokens.map (Token.mapPosition move))) := by
  have word (tokens : List Token) :
      Moved move (Elsewhere move (DataValue.mapPositions move))
        (do
          let read ← reader.expression tokens
          return (DataValue.word read.1, read.2))
        (do
          let read ← (reader.mapPosition move).expression (tokens.map (Token.mapPosition move))
          return (DataValue.word read.1, read.2)) := by
    apply (expression_moved spans tokens).bind
    rintro ⟨value, rest⟩ _ rfl
    exact .ok rfl
  rcases tokens with _ | ⟨⟨kind, position, value⟩, rest⟩
  · exact word []
  cases kind with
  | string => exact .ok rfl
  | tilde =>
      have ends : valueEnds (rest.map (Token.mapPosition move)) = valueEnds rest := by
        cases rest <;> rfl
      exact .ite (by rw [ends]) (.ok rfl) (word (_ :: rest))
  | _ => exact word (_ :: rest)

theorem argumentsAfter_moved (found : List Argument) :
    Moved move (fun r r' => r' = r.map (Argument.mapPositions move))
      (reader.argumentsAfter found tokens)
      ((reader.mapPosition move).argumentsAfter (found.map (Argument.mapPositions move))
        (tokens.map (Token.mapPosition move))) := by
  induction found, tokens using argumentsAfter.induct reader with
  | case1 found =>
      rw [argumentsAfter.eq_def, List.map_nil, argumentsAfter.eq_def]
      exact .ok List.map_reverse.symm
  | case2 found t ts d read =>
      have read' := (argument_moved spans (t :: ts)).of_eq_error read
      rw [List.map_cons] at read' ⊢
      rw [argumentsAfter_cons, argumentsAfter_cons, read, read']
      exact .error d
  | case3 found t ts next read =>
      obtain ⟨_, read', rfl⟩ := (argument_moved spans (t :: ts)).of_eq_ok read
      rw [List.map_cons] at read' ⊢
      rw [argumentsAfter_cons, argumentsAfter_cons, read, read']
      refine .ok ?_
      rw [List.map_reverse, List.map_cons]
  | case4 found t ts next separator rest read comma ih =>
      obtain ⟨_, read', rfl⟩ := (argument_moved spans (t :: ts)).of_eq_ok read
      rw [List.map_cons] at read' ⊢
      rw [argumentsAfter_cons, argumentsAfter_cons, read, read']
      simp only [bind, Except.bind, List.map_cons, Token.kind_mapPosition, comma, if_true]
      exact ih
  | case5 found t ts next separator rest read comma =>
      obtain ⟨_, read', rfl⟩ := (argument_moved spans (t :: ts)).of_eq_ok read
      rw [List.map_cons] at read' ⊢
      rw [argumentsAfter_cons, argumentsAfter_cons, read, read']
      simp only [bind, Except.bind, List.map_cons, Token.kind_mapPosition, comma, if_false]
      exact .error _

theorem arguments_moved (name : Token) (count : Nat) :
    Moved move (fun r r' => r' = r.map (Argument.mapPositions move))
      (reader.arguments name count tokens)
      ((reader.mapPosition move).arguments (name.mapPosition move) count
        (tokens.map (Token.mapPosition move))) := by
  apply (argumentsAfter_moved spans tokens []).bind
  rintro found _ rfl
  rw [List.length_map]
  exact .ite Iff.rfl (.ok rfl) (.error _)

theorem dataAfter_moved (name : Token) (found : List (Option DataValue)) :
    Moved move (Elsewhere move (Body.mapPositions move)) (reader.dataAfter name found tokens)
      ((reader.mapPosition move).dataAfter (name.mapPosition move)
        (found.map (Option.map (DataValue.mapPositions move)))
        (tokens.map (Token.mapPosition move))) := by
  induction found, tokens using dataAfter.induct reader with
  | case1 found tokens d read =>
      have read' := (dataValue_moved spans tokens).of_eq_error read
      rw [dataAfter_eq, dataAfter_eq, read, read']
      exact .error d
  | case2 found tokens value p v rest read ih =>
      obtain ⟨_, read', rfl⟩ := (dataValue_moved spans tokens).of_eq_ok read
      rw [dataAfter_eq, dataAfter_eq, read, read']
      exact ih
  | case3 found tokens value rest other read =>
      obtain ⟨_, read', rfl⟩ := (dataValue_moved spans tokens).of_eq_ok read
      rw [dataAfter_eq, dataAfter_eq, read, read']
      have last : Moved move (Elsewhere move (Body.mapPositions move))
          (.ok (.data (some value :: found).reverse (name.position.span value.position), rest))
          (.ok (.data (some (value.mapPositions move) ::
              found.map (Option.map (DataValue.mapPositions move))).reverse
            ((move name.position).span (value.mapPositions move).position),
            rest.map (Token.mapPosition move))) := by
        refine .ok ?_
        simp only [Elsewhere, Body.mapPositions, spans, DataValue.position_mapPositions,
          List.map_reverse, List.map_cons, Option.map_some]
      rcases rest with _ | ⟨⟨kind, position, text⟩, after⟩
      · exact last
      cases kind with
      | comma => exact (other _ _ _ rfl).elim
      | _ => exact last

theorem namedBody_moved (t : Token) :
    Moved move (Elsewhere move (Body.mapPositions move)) (reader.namedBody t tokens)
      ((reader.mapPosition move).namedBody (t.mapPosition move)
        (tokens.map (Token.mapPosition move))) := by
  unfold namedBody
  refine .ite Iff.rfl ?_ (.ite Iff.rfl ?_ (.ite Iff.rfl ?_ (.error _)))
  · exact .ite (by cases tokens <;> rfl) (.error _) (dataAfter_moved spans tokens t [])
  · apply (arguments_moved spans tokens t 2).bind
    rintro found _ rfl
    refine .ok ?_
    simp only [Elsewhere, Body.mapPositions, List.getElem?_map, List.map_nil]
    rfl
  · apply (arguments_moved spans tokens t 1).bind
    rintro found _ rfl
    refine .ok ?_
    simp only [Elsewhere, Body.mapPositions, List.getElem?_map, List.map_nil]
    rfl

theorem body_moved :
    Moved move (Elsewhere move (Body.mapPositions move)) (reader.body tokens)
      ((reader.mapPosition move).body (tokens.map (Token.mapPosition move))) := by
  rcases tokens with _ | ⟨⟨kind, position, value⟩, rest⟩
  · exact refuse_moved reader _ []
  cases kind with
  | atSign =>
      apply (expression_moved spans rest).bind
      rintro ⟨value, rest⟩ _ rfl
      refine .ok ?_
      simp only [Elsewhere, Body.mapPositions, spans, Option.map_some]
      rfl
  | identifier => exact namedBody_moved spans rest _
  | _ => exact refuse_moved reader _ (_ :: rest)

theorem label?_moved :
    Moved move (Elsewhere move (Option.map (LabelDefinition.mapPosition move)))
      (reader.label? tokens)
      ((reader.mapPosition move).label? (tokens.map (Token.mapPosition move))) := by
  rcases tokens with _ | ⟨⟨kind, position, value⟩, rest⟩
  · exact .ok rfl
  cases kind with
  | colon =>
      apply (expect_moved reader [.identifier] rest).bind
      rintro ⟨name, rest⟩ _ rfl
      refine .ok ?_
      simp only [Elsewhere, LabelDefinition.mapPosition, Token.position_mapPosition,
        Token.value_mapPosition, spans, Option.map_some]
  | _ => exact .ok rfl

theorem statement_moved (reader : StatementReader) :
    Moved move (fun s s' => s' = s.mapPositions move) (reader.statement tokens)
      ((reader.mapPosition move).statement (tokens.map (Token.mapPosition move))) := by
  have start : (reader.mapPosition move).startPosition (tokens.map (Token.mapPosition move)) =
      move (reader.startPosition tokens) := by
    cases tokens <;> rfl
  unfold statement
  rw [start]
  apply (label?_moved spans tokens).bind
  rintro ⟨label, rest⟩ _ rfl
  refine .ite (by cases rest <;> rfl) (.ok rfl) ?_
  apply (body_moved spans rest).bind
  rintro ⟨body, rest⟩ _ rfl
  cases rest with
  | nil => exact .ok rfl
  | cons t rest => exact .error _

end Walk

end StatementReader

end Dcpu
