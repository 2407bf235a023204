import Dcpu.Proofs.ExtendedTokens
import Dcpu.Statement.Parser

set_option autoImplicit false

namespace Dcpu

structure NumeralRules.Within (rules wider : NumeralRules) : Prop where
  binary : rules.binary = true → wider.binary = true
  underscore : rules.underscore = true → wider.underscore = true

namespace Numeral

variable {rules wider : NumeralRules}

theorem splitBase_within (within : rules.Within wider) (t : Text) :
    Follows True Eq (splitBase rules t) (splitBase wider t) := by
  fun_cases splitBase rules t with
  | case1 mark d rest hex =>
    simp only [splitBase, hex, if_true]
    exact .refl _
  | case2 mark d rest hex bin allowed =>
    simp only [splitBase, hex, if_false, if_pos bin, within.binary allowed, if_true]
    exact .refl _
  | case3 mark d rest hex bin allowed => exact .excused trivial _ _
  | case4 mark d rest hex bin =>
    simp only [splitBase, hex, bin, if_false]
    exact .refl _
  | case5 t other =>
    simp only [splitBase]
    exact .refl _

theorem dropSeparators_within (within : rules.Within wider) (digits : Text) :
    Follows True Eq (dropSeparators rules digits) (dropSeparators wider digits) := by
  unfold dropSeparators
  by_cases plain : underscore ∉ digits
  · rw [if_pos plain, if_pos plain]
    exact .refl _
  rw [if_neg plain, if_neg plain]
  cases allowed : rules.underscore with
  | true =>
      rw [within.underscore allowed]
      exact .refl _
  | false => exact .excused trivial _ _

theorem decode_within (within : rules.Within wider) (t : Text) :
    Follows True Eq (decode rules t) (decode wider t) := by
  apply (splitBase_within within t).bind
  rintro ⟨base, marked⟩ _ rfl
  apply (dropSeparators_within within marked).bind
  rintro digits _ rfl
  exact .refl _

end Numeral

namespace StatementReader

structure Within (reader wider : StatementReader) : Prop where
  signedNumbers : reader.signedNumbers = true → wider.signedNumbers = true
  numerals : reader.numerals.Within wider.numerals
  layout : wider.layout = reader.layout
  lineEnd : wider.lineEnd = reader.lineEnd

def Kept (rename : Text → Text) (tokens : List Token) : Prop :=
  ∀ t ∈ tokens, t.kind = .identifier → rename t.value = t.value

/-- The same was taken from the tokens, with names that a renaming keeps. -/
structure Agree {α : Type} (rename : Text → Text) (mapNames : α → α) (r r' : α × List Token) :
    Prop where
  same : r' = r
  taken : mapNames r.1 = r.1
  left : Kept rename r.2

variable {reader wider : StatementReader} {rename : Text → Text} {tokens : List Token}

theorem Kept.head {t : Token} (kept : Kept rename (t :: tokens)) (name : t.kind = .identifier) :
    rename t.value = t.value :=
  kept t List.mem_cons_self name

theorem Kept.tail {t : Token} (kept : Kept rename (t :: tokens)) : Kept rename tokens :=
  fun u member => kept u (List.mem_cons_of_mem t member)

theorem Kept.suffix {rest : List Token} (kept : Kept rename tokens) (suffix : rest <:+ tokens) :
    Kept rename rest :=
  fun u member => kept u (suffix.subset member)

theorem refuse_follows {α β : Type} {related : α → β → Prop} (required : List TokenKind)
    (tokens : List Token) (y : Except Diagnostic β) :
    Follows True related (reader.refuse required tokens) y := by
  cases tokens <;> exact .excused trivial _ _

theorem expect_within (required : List TokenKind) (kept : Kept rename tokens) :
    Follows True (fun r r' => r' = r ∧ r.1.kind ∈ required ∧ Kept rename (r.1 :: r.2))
      (reader.expect required tokens) (wider.expect required tokens) := by
  cases tokens with
  | nil => exact refuse_follows required [] _
  | cons t rest =>
      simp only [expect]
      by_cases member : t.kind ∈ required
      · rw [if_pos member, if_pos member]
        exact .ok ⟨rfl, member, kept⟩
      · rw [if_neg member]
        exact refuse_follows required _ _

theorem closeStack_within {offset : Option Expression} (opening : Position) (access : StackAccess)
    (same : offset.map (Expression.mapNames rename) = offset) (kept : Kept rename tokens) :
    Follows True (Agree rename (Argument.mapNames rename))
      (reader.closeStack opening access offset tokens)
      (wider.closeStack opening access offset tokens) := by
  apply (expect_within [.rightBracket] kept).bind
  rintro ⟨closing, rest⟩ _ ⟨rfl, _, kept⟩
  exact .ok ⟨rfl, congrArg (Argument.stack access · _) same, kept.tail⟩

theorem argumentsAfter_cons (reader : StatementReader) (found : List Argument) (t : Token)
    (ts : List Token) :
    reader.argumentsAfter found (t :: ts) = (do
      let (next, rest) ← reader.argument (t :: ts)
      match rest with
      | [] => return (next :: found).reverse
      | separator :: rest =>
          if separator.kind = .comma then reader.argumentsAfter (next :: found) rest
          else reject separator.position (.unexpectedToken separator.value)) := by
  rw [argumentsAfter.eq_def]
  dsimp only
  split <;> rename_i read <;> rw [read] <;> rfl

theorem dataAfter_eq (reader : StatementReader) (name : Token) (found : List (Option DataValue))
    (tokens : List Token) :
    reader.dataAfter name found tokens = (do
      let (value, rest) ← reader.dataValue tokens
      match rest with
      | ⟨.comma, _, _⟩ :: rest => reader.dataAfter name (some value :: found) rest
      | rest =>
          return (.data (some value :: found).reverse (name.position.span value.position), rest)) := by
  rw [dataAfter.eq_def]
  split
  · rename_i read
    rw [read]
    rfl
  · rename_i read
    rw [read]
    rfl
  · rename_i other read
    rw [read]
    simp only [bind, Except.bind]
    rfl

theorem label?_within (kept : Kept rename tokens) :
    Follows True (Agree rename (Option.map (LabelDefinition.mapName rename)))
      (reader.label? tokens) (wider.label? tokens) := by
  rcases tokens with _ | ⟨⟨kind, position, value⟩, rest⟩
  · exact .ok ⟨rfl, rfl, kept⟩
  cases kind with
  | colon =>
      apply (expect_within [.identifier] kept.tail).bind
      rintro ⟨name, rest⟩ _ ⟨rfl, isName, kept⟩
      have same := kept.head (List.mem_singleton.1 isName)
      exact .ok ⟨rfl, congrArg some (congrArg (LabelDefinition.mk · _) same), kept.tail⟩
  | _ => exact .ok ⟨rfl, rfl, kept⟩

section Walk

variable (within : reader.Within wider)
include within

theorem numeral_within (t : Token) : Follows True Eq (reader.numeral t) (wider.numeral t) := by
  unfold numeral
  cases decoded : Numeral.decode reader.numerals t.value with
  | ok value =>
      obtain ⟨_, decoded', rfl⟩ :=
        (Numeral.decode_within within.numerals t.value).of_eq_ok decoded
      rw [decoded']
      exact .ok rfl
  | error e => cases e <;> exact .excused trivial _ _

theorem signedNumber_within (sign : Token) (kept : Kept rename tokens) :
    Follows True (Agree rename (Atom.mapNames rename)) (reader.signedNumber sign tokens)
      (wider.signedNumber sign tokens) := by
  unfold signedNumber
  by_cases allowed : reader.signedNumbers = true
  · rw [if_pos allowed, if_pos (within.signedNumbers allowed)]
    apply (expect_within [.literal] kept).bind
    rintro ⟨digits, rest⟩ _ ⟨rfl, _, kept⟩
    apply (numeral_within within digits).bind
    rintro value _ rfl
    exact .ok ⟨rfl, rfl, kept.tail⟩
  · rw [if_neg allowed]
    exact .excused trivial _ _

theorem atom_within (kept : Kept rename tokens) :
    Follows True (Agree rename (Atom.mapNames rename)) (reader.atom tokens)
      (wider.atom tokens) := by
  induction tokens with
  | nil => exact refuse_follows _ _ _
  | cons t rest ih =>
      obtain ⟨kind, position, value⟩ := t
      cases kind with
      | tilde =>
          apply (ih kept.tail).bind
          rintro ⟨target, rest⟩ _ ⟨rfl, taken, left⟩
          exact .ok ⟨rfl, congrArg (Atom.difference · _) taken, left⟩
      | plus => exact signedNumber_within within _ kept.tail
      | minus => exact signedNumber_within within _ kept.tail
      | literal =>
          apply (numeral_within within _).bind
          rintro value _ rfl
          exact .ok ⟨rfl, rfl, kept.tail⟩
      | character => exact .ok ⟨rfl, rfl, kept.tail⟩
      | identifier => exact .ok ⟨rfl, congrArg (Atom.identifier · _) (kept.head rfl), kept.tail⟩
      | _ => exact .excused trivial _ _

theorem expression_within (kept : Kept rename tokens) :
    Follows True (Agree rename (Expression.mapNames rename)) (reader.expression tokens)
      (wider.expression tokens) := by
  apply (atom_within within kept).bind
  rintro ⟨head, rest⟩ _ ⟨rfl, taken, left⟩
  have single : Expression.mapNames rename ⟨head, none, head.position⟩ =
      ⟨head, none, head.position⟩ :=
    congrArg (Expression.mk · none head.position) taken
  rcases rest with _ | ⟨⟨kind, position, value⟩, after⟩
  · exact .ok ⟨rfl, single, left⟩
  cases kind with
  | tilde =>
      apply (atom_within within left.tail).bind
      rintro ⟨tail, rest⟩ _ ⟨rfl, taken', left⟩
      dsimp only at taken taken'
      exact .ok ⟨rfl, by simp [Expression.mapNames, taken, taken'], left⟩
  | _ => exact .ok ⟨rfl, single, left⟩

theorem stackLookup_within (opening : Position) (kept : Kept rename tokens) :
    Follows True (Agree rename (Argument.mapNames rename)) (reader.stackLookup opening tokens)
      (wider.stackLookup opening tokens) := by
  fun_cases stackLookup reader opening tokens with
  | case1 p v rest => exact closeStack_within opening .peek rfl kept
  | case2 p v p' v' rest => exact closeStack_within opening .pop rfl kept.tail.tail
  | case3 p v rest single =>
      rw [stackLookup.eq_3 wider opening p v rest single]
      apply (expression_within within kept.tail).bind
      rintro ⟨offset, rest⟩ _ ⟨rfl, taken, left⟩
      exact closeStack_within opening .pick (congrArg some taken) left
  | case4 tokens => exact refuse_follows _ _ _

theorem offsetLookup_within (opening : Position) (register : RegisterName) (sign : OffsetSign)
    (kept : Kept rename tokens) :
    Follows True (Agree rename (Argument.mapNames rename))
      (reader.offsetLookup opening register sign tokens)
      (wider.offsetLookup opening register sign tokens) := by
  apply (expression_within within kept).bind
  rintro ⟨offset, rest⟩ _ ⟨rfl, taken, left⟩
  apply (expect_within [.rightBracket] left).bind
  rintro ⟨closing, rest⟩ _ ⟨rfl, _, kept⟩
  exact .ok ⟨rfl, congrArg (Argument.offsetLookup _ sign · _) (congrArg some taken), kept.tail⟩

theorem registerLookup_within (opening : Position) (register : RegisterName)
    (kept : Kept rename tokens) :
    Follows True (Agree rename (Argument.mapNames rename))
      (reader.registerLookup opening register tokens)
      (wider.registerLookup opening register tokens) := by
  fun_cases registerLookup reader opening register tokens with
  | case1 p v rest => exact .ok ⟨rfl, rfl, kept.tail⟩
  | case2 p v rest => exact offsetLookup_within within opening register .plus kept.tail
  | case3 p v rest => exact offsetLookup_within within opening register .minus kept.tail
  | case4 tokens => exact refuse_follows _ _ _

theorem literalLookup_within (opening : Position) (kept : Kept rename tokens) :
    Follows True (Agree rename (Argument.mapNames rename)) (reader.literalLookup opening tokens)
      (wider.literalLookup opening tokens) := by
  apply (expression_within within kept).bind
  rintro ⟨value, rest⟩ _ ⟨rfl, taken, left⟩
  apply (expect_within [.plus, .rightBracket] left).bind
  rintro ⟨sign, rest⟩ _ ⟨rfl, _, kept⟩
  dsimp only at taken kept ⊢
  split
  · exact .ok ⟨rfl, congrArg (Argument.literalLookup · _) (congrArg some taken), kept.tail⟩
  · apply (expect_within [.identifier] kept.tail).bind
    rintro ⟨name, rest⟩ _ ⟨rfl, _, kept⟩
    dsimp only at kept ⊢
    split
    · exact .excused trivial _ _
    · apply (expect_within [.rightBracket] kept.tail).bind
      rintro ⟨closing, rest⟩ _ ⟨rfl, _, kept⟩
      exact .ok ⟨rfl, congrArg (Argument.offsetLookup _ _ · _) (congrArg some taken), kept.tail⟩

theorem lookup_within (opening : Position) (kept : Kept rename tokens) :
    Follows True (Agree rename (Argument.mapNames rename)) (reader.lookup opening tokens)
      (wider.lookup opening tokens) := by
  unfold lookup
  cases decremented : afterDecrement? tokens with
  | some rest =>
      exact closeStack_within opening .push rfl (kept.suffix (afterDecrement?_suffix decremented))
  | none =>
      cases tokens with
      | nil => exact literalLookup_within within opening kept
      | cons t rest =>
          dsimp only
          split
          · exact stackLookup_within within opening kept.tail
          · split
            · exact registerLookup_within within opening _ kept.tail
            · exact literalLookup_within within opening kept

theorem literalArgument_within (kept : Kept rename tokens) :
    Follows True (Agree rename (Argument.mapNames rename)) (reader.literalArgument tokens)
      (wider.literalArgument tokens) := by
  apply (expression_within within kept).bind
  rintro ⟨value, rest⟩ _ ⟨rfl, taken, left⟩
  exact .ok ⟨rfl, congrArg (Argument.literal · _) (congrArg some taken), left⟩

theorem namedArgument_within {t : Token} (kept : Kept rename (t :: tokens)) :
    Follows True (Agree rename (Argument.mapNames rename)) (reader.namedArgument t tokens)
      (wider.namedArgument t tokens) := by
  have word {x : Argument} (plain : x.mapNames rename = x) :
      Follows True (Agree rename (Argument.mapNames rename))
        (.ok (x, tokens) : Except Diagnostic (Argument × List Token)) (.ok (x, tokens)) :=
    .ok ⟨rfl, plain, kept.tail⟩
  simp only [namedArgument, within.layout]
  split
  · exact word rfl
  split
  · exact word rfl
  split
  · exact word rfl
  split
  · exact word rfl
  split
  · exact word rfl
  split
  · apply (expression_within within kept.tail).bind
    rintro ⟨offset, rest⟩ _ ⟨rfl, taken, left⟩
    exact .ok ⟨rfl, congrArg (Argument.stack .pick · _) (congrArg some taken), left⟩
  · exact literalArgument_within within kept

theorem argument_within (kept : Kept rename tokens) :
    Follows True (Agree rename (Argument.mapNames rename)) (reader.argument tokens)
      (wider.argument tokens) := by
  rcases tokens with _ | ⟨⟨kind, position, value⟩, rest⟩
  · exact literalArgument_within within kept
  cases kind with
  | identifier => exact namedArgument_within within kept
  | leftBracket => exact lookup_within within position kept.tail
  | _ => exact literalArgument_within within kept

theorem dataValue_within (kept : Kept rename tokens) :
    Follows True (Agree rename (DataValue.mapNames rename)) (reader.dataValue tokens)
      (wider.dataValue tokens) := by
  have word : Follows True (Agree rename (DataValue.mapNames rename))
      (do
        let read ← reader.expression tokens
        return (DataValue.word read.1, read.2))
      (do
        let read ← wider.expression tokens
        return (DataValue.word read.1, read.2)) := by
    apply (expression_within within kept).bind
    rintro ⟨value, rest⟩ _ ⟨rfl, taken, left⟩
    exact .ok ⟨rfl, congrArg DataValue.word taken, left⟩
  rcases tokens with _ | ⟨⟨kind, position, value⟩, rest⟩
  · exact word
  cases kind with
  | string => exact .ok ⟨rfl, rfl, kept.tail⟩
  | tilde =>
      simp only [dataValue]
      split
      · exact .ok ⟨rfl, rfl, kept.tail⟩
      · exact word
  | _ => exact word

theorem argumentsAfter_within {found : List Argument}
    (before : found.map (Argument.mapNames rename) = found) (kept : Kept rename tokens) :
    Follows True (fun r r' => r' = r ∧ r.map (Argument.mapNames rename) = r)
      (reader.argumentsAfter found tokens) (wider.argumentsAfter found tokens) := by
  have reversed {found : List Argument} (before : found.map (Argument.mapNames rename) = found) :
      found.reverse.map (Argument.mapNames rename) = found.reverse := by
    rw [List.map_reverse, before]
  induction found, tokens using argumentsAfter.induct reader with
  | case1 found =>
      rw [argumentsAfter.eq_def, argumentsAfter.eq_def]
      exact .ok ⟨rfl, reversed before⟩
  | case2 found t ts e read =>
      rw [argumentsAfter_cons, read]
      exact .excused trivial _ _
  | case3 found t ts next read =>
      obtain ⟨_, read', rfl, taken, _⟩ := (argument_within within kept).of_eq_ok read
      rw [argumentsAfter_cons, argumentsAfter_cons, read, read']
      exact .ok ⟨rfl, reversed (by simp [before, taken])⟩
  | case4 found t ts next separator rest read comma ih =>
      obtain ⟨_, read', rfl, taken, left⟩ := (argument_within within kept).of_eq_ok read
      rw [argumentsAfter_cons, argumentsAfter_cons, read, read']
      simp only [bind, Except.bind, comma, if_true]
      exact ih (by simp [before, taken]) left.tail
  | case5 found t ts next separator rest read comma =>
      rw [argumentsAfter_cons, read]
      simp only [bind, Except.bind, comma, if_false]
      exact .excused trivial _ _

theorem arguments_within (name : Token) (count : Nat) (kept : Kept rename tokens) :
    Follows True (fun r r' => r' = r ∧ r.map (Argument.mapNames rename) = r)
      (reader.arguments name count tokens) (wider.arguments name count tokens) := by
  apply (argumentsAfter_within within rfl kept).bind
  rintro found _ ⟨rfl, taken⟩
  split
  · exact .ok ⟨rfl, taken⟩
  · exact .excused trivial _ _

theorem dataAfter_within {found : List (Option DataValue)} (name : Token)
    (before : found.map (Option.map (DataValue.mapNames rename)) = found)
    (kept : Kept rename tokens) :
    Follows True (Agree rename (Body.mapNames rename)) (reader.dataAfter name found tokens)
      (wider.dataAfter name found tokens) := by
  induction found, tokens using dataAfter.induct reader with
  | case1 found tokens e read =>
      rw [dataAfter_eq, read]
      exact .excused trivial _ _
  | case2 found tokens value p v rest read ih =>
      obtain ⟨_, read', rfl, taken, left⟩ := (dataValue_within within kept).of_eq_ok read
      rw [dataAfter_eq, dataAfter_eq, read, read']
      exact ih (by simp [before, taken]) left.tail
  | case3 found tokens value rest last read =>
      obtain ⟨_, read', rfl, taken, left⟩ := (dataValue_within within kept).of_eq_ok read
      rw [dataAfter_eq, dataAfter_eq, read, read']
      simp only [bind, Except.bind]
      dsimp only at taken
      refine .ok ⟨rfl, ?_, left⟩
      simp [Body.mapNames, List.map_reverse, before, taken]

theorem data_within (name : Token) (kept : Kept rename tokens) :
    Follows True (Agree rename (Body.mapNames rename)) (reader.data name tokens)
      (wider.data name tokens) := by
  unfold data
  split
  · exact .excused trivial _ _
  · exact dataAfter_within within name rfl kept

theorem namedBody_within (t : Token) (kept : Kept rename tokens) :
    Follows True (Agree rename (Body.mapNames rename)) (reader.namedBody t tokens)
      (wider.namedBody t tokens) := by
  have none : Kept rename [] := by simp [Kept]
  simp only [namedBody, within.layout]
  split
  · exact data_within within t kept
  split
  · apply (arguments_within within t 2 kept).bind
    rintro found _ ⟨rfl, taken⟩
    refine .ok ⟨rfl, ?_, none⟩
    simp only [Body.mapNames, ← List.getElem?_map, taken]
  split
  · apply (arguments_within within t 1 kept).bind
    rintro found _ ⟨rfl, taken⟩
    refine .ok ⟨rfl, ?_, none⟩
    simp only [Body.mapNames, ← List.getElem?_map, taken]
  · exact .excused trivial _ _

theorem body_within (kept : Kept rename tokens) :
    Follows True (Agree rename (Body.mapNames rename)) (reader.body tokens)
      (wider.body tokens) := by
  fun_cases StatementReader.body reader tokens with
  | case1 p v rest =>
      apply (expression_within within kept.tail).bind
      rintro ⟨value, rest⟩ _ ⟨rfl, taken, left⟩
      exact .ok ⟨rfl, congrArg (Body.addressFix · _) (congrArg some taken), left⟩
  | case2 p v rest => exact namedBody_within within _ kept.tail
  | case3 tokens => exact refuse_follows _ _ _

theorem statement_within (kept : Kept rename tokens) :
    Follows True (fun s s' => s' = s ∧ s.mapNames rename = s) (reader.statement tokens)
      (wider.statement tokens) := by
  apply (label?_within kept).bind
  rintro ⟨label, rest⟩ _ ⟨rfl, taken, left⟩
  dsimp only at taken left ⊢
  -- Without tokens a statement stands at the end of the line.
  have start : wider.startPosition tokens = reader.startPosition tokens := by
    cases tokens with
    | nil => exact within.lineEnd
    | cons t ts => rfl
  rw [start]
  split
  · refine .ok ⟨rfl, ?_⟩
    simp only [Statement.mapNames, taken, Option.map_none]
  · apply (body_within within left).bind
    rintro ⟨body, rest⟩ _ ⟨rfl, taken', _⟩
    dsimp only at taken' ⊢
    split
    · refine .ok ⟨rfl, ?_⟩
      simp only [Statement.mapNames, taken, Option.map_some, taken']
    · exact .excused trivial _ _

end Walk

end StatementReader

end Dcpu
