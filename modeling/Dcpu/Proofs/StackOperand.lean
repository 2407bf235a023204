import Dcpu.Proofs.ExtendedDialect
import Dcpu.Proofs.ReadWithin

set_option autoImplicit false

namespace Dcpu

def Argument.access? : Argument → Option StackAccess
  | .stack access _ _ => some access
  | _ => none

def Body.operands : Body → List Argument
  | .basic _ a b _ => a.toList ++ b.toList
  | .extended _ argument _ => argument.toList
  | .addressFix .. | .data .. => []

namespace StatementReader

inductive Spells : StackAccess → List Token → Prop
  | push {t : Token} (named : keyword t "push" = true) : Spells .push [t]
  | pop {t : Token} (named : keyword t "pop" = true) : Spells .pop [t]
  -- Spelled `[--sp]`.
  | decrement {opening first second sp closing : Token} (named : keyword sp "sp" = true)
      (kinds : [opening, first, second, closing].map Token.kind =
        [.leftBracket, .minus, .minus, .rightBracket]) :
      Spells .push [opening, first, second, sp, closing]
  -- Spelled `[sp++]`.
  | increment {opening sp first second closing : Token} (named : keyword sp "sp" = true)
      (kinds : [opening, first, second, closing].map Token.kind =
        [.leftBracket, .plus, .plus, .rightBracket]) :
      Spells .pop [opening, sp, first, second, closing]

variable (reader : StatementReader) {tokens rest : List Token} {x : Argument}
  {access : StackAccess} {opening : Position}

theorem eq_of_keyword {t : Token} {word : Text} (named : keyword t word = true) :
    t.kind = .identifier ∧ t.value.lower = word := by
  simpa [keyword] using named

theorem keyword_eq {p : Position} {v word : Text} (same : v.lower = word) :
    keyword ⟨.identifier, p, v⟩ word = true := by
  simp [keyword, same]

theorem expect_one {kind : TokenKind} {t : Token}
    (read : reader.expect [kind] tokens = .ok (t, rest)) : tokens = t :: rest ∧ t.kind = kind := by
  cases tokens with
  | nil => exact absurd read (by simp [expect, refuse_ne_ok])
  | cons u us =>
      by_cases expected : u.kind = kind
      · simp only [expect, List.mem_singleton, expected, if_true] at read
        cases read
        exact ⟨rfl, expected⟩
      · simp only [expect, List.mem_singleton, expected, if_false] at read
        exact absurd read (refuse_ne_ok reader)

theorem closeStack_reads {written : StackAccess} {offset : Option Expression}
    (read : reader.closeStack opening written offset tokens = .ok (x, rest)) :
    x.access? = some written ∧ ∃ closing : Token, closing.kind = .rightBracket ∧
      tokens = closing :: rest := by
  obtain ⟨⟨closing, after⟩, expected, result⟩ := bind_eq_ok.1 read
  cases result
  obtain ⟨same, kind⟩ := reader.expect_one expected
  exact ⟨rfl, closing, kind, same⟩

theorem stackLookup_reads (read : reader.stackLookup opening tokens = .ok (x, rest)) :
    x.access? ≠ some .push ∧ (x.access? = some .pop →
      ∃ first second closing : Token, [first, second, closing].map Token.kind =
        [.plus, .plus, .rightBracket] ∧ tokens = first :: second :: closing :: rest) := by
  unfold stackLookup at read
  split at read
  · simp [(reader.closeStack_reads read).1]
  · obtain ⟨pops, closing, kind, rfl⟩ := reader.closeStack_reads read
    refine ⟨by simp [pops], fun _ => ⟨_, _, closing, ?_, rfl⟩⟩
    simp [kind]
  · obtain ⟨⟨offset, after⟩, _, close⟩ := bind_eq_ok.1 read
    simp [(reader.closeStack_reads close).1]
  · exact absurd read (refuse_ne_ok reader)

theorem offsetLookup_reads {register : RegisterName} {sign : OffsetSign}
    (read : reader.offsetLookup opening register sign tokens = .ok (x, rest)) :
    x.access? = none := by
  obtain ⟨_, _, read⟩ := bind_eq_ok.1 read
  obtain ⟨_, _, result⟩ := bind_eq_ok.1 read
  cases result
  rfl

theorem registerLookup_reads {register : RegisterName}
    (read : reader.registerLookup opening register tokens = .ok (x, rest)) : x.access? = none := by
  unfold registerLookup at read
  split at read
  · cases read
    rfl
  · exact reader.offsetLookup_reads read
  · exact reader.offsetLookup_reads read
  · exact absurd read (refuse_ne_ok reader)

theorem literalLookup_reads (read : reader.literalLookup opening tokens = .ok (x, rest)) :
    x.access? = none := by
  obtain ⟨_, _, read⟩ := bind_eq_ok.1 read
  obtain ⟨_, _, read⟩ := bind_eq_ok.1 read
  dsimp only at read
  split at read
  · cases read
    rfl
  · obtain ⟨_, _, read⟩ := bind_eq_ok.1 read
    split at read
    · exact absurd read (by simp [reject])
    · obtain ⟨_, _, result⟩ := bind_eq_ok.1 read
      cases result
      rfl

theorem literalArgument_reads (read : reader.literalArgument tokens = .ok (x, rest)) :
    x.access? = none := by
  obtain ⟨_, _, result⟩ := bind_eq_ok.1 read
  cases result
  rfl

theorem afterDecrement?_reads (found : afterDecrement? tokens = some rest) :
    ∃ first second sp : Token, [first, second].map Token.kind = [.minus, .minus] ∧
      keyword sp "sp" = true ∧ tokens = first :: second :: sp :: rest := by
  unfold afterDecrement? at found
  split at found
  · split at found
    · rename_i named
      cases found
      exact ⟨_, _, _, rfl, named, rfl⟩
    · cases found
  · cases found

theorem lookup_spells {bracket : Token} (opens : bracket.kind = .leftBracket)
    (moves : access = .push ∨ access = .pop) (read : reader.lookup opening tokens = .ok (x, rest))
    (is : x.access? = some access) :
    ∃ spelled, Spells access spelled ∧ bracket :: tokens = spelled ++ rest := by
  unfold lookup at read
  split at read
  · rename_i after found
    obtain ⟨first, second, sp, signs, named, rfl⟩ := afterDecrement?_reads found
    obtain ⟨pushes, closing, closes, rfl⟩ := reader.closeStack_reads read
    cases is.symm.trans pushes
    refine ⟨[bracket, first, second, sp, closing], .decrement named ?_, rfl⟩
    simpa [opens, closes] using signs
  split at read
  · simp [reader.literalLookup_reads read] at is
  split at read
  · rename_i t behind _ named
    obtain ⟨notPush, pop⟩ := reader.stackLookup_reads read
    rcases moves with rfl | rfl
    · exact absurd is notPush
    · obtain ⟨first, second, closing, kinds, rfl⟩ := pop is
      refine ⟨[bracket, t, first, second, closing], .increment named ?_, rfl⟩
      simpa [opens] using kinds
  split at read
  · simp [reader.registerLookup_reads read] at is
  · simp [reader.literalLookup_reads read] at is

theorem namedArgument_spells {p : Position} {v : Text} (moves : access = .push ∨ access = .pop)
    (read : reader.namedArgument ⟨.identifier, p, v⟩ tokens = .ok (x, rest))
    (is : x.access? = some access) :
    ∃ spelled, Spells access spelled ∧ ⟨.identifier, p, v⟩ :: tokens = spelled ++ rest := by
  unfold namedArgument at read
  dsimp only at read
  -- Registers and special registers are tried before `push` and `pop`.
  split at read
  · cases read
    cases is
  split at read
  · cases read
    cases is
  split at read
  · rename_i named
    cases read
    cases is
    exact ⟨_, .push (keyword_eq named), rfl⟩
  split at read
  · rename_i named
    cases read
    cases is
    exact ⟨_, .pop (keyword_eq named), rfl⟩
  split at read
  · cases read
    cases is
    simp at moves
  split at read
  · obtain ⟨_, _, result⟩ := bind_eq_ok.1 read
    cases result
    cases is
    simp at moves
  · simp [reader.literalArgument_reads read] at is

theorem argument_spells (moves : access = .push ∨ access = .pop)
    (read : reader.argument tokens = .ok (x, rest)) (is : x.access? = some access) :
    ∃ spelled, Spells access spelled ∧ tokens = spelled ++ rest := by
  unfold argument at read
  split at read
  · exact reader.namedArgument_spells moves read is
  · exact reader.lookup_spells rfl moves read is
  · simp [reader.literalArgument_reads read] at is

theorem not_register {name : Text} (word : name = "push" ∨ name = "pop") (layout : Layout) :
    Register.ofName? name = none ∧ layout.special? name = none := by
  have lower : name.lower = name := by
    rcases word with rfl | rfl <;> exact Text.lower_eq_self (by decide) (by decide)
  rw [Register.ofName?, Layout.special?, lower]
  rcases word with rfl | rfl <;> cases layout <;> decide

theorem argument_of_spells {spelled : List Token} (spells : Spells access spelled)
    (rest : List Token) :
    ∃ p, reader.argument (spelled ++ rest) = .ok (.stack access none p, rest) := by
  -- The tokens are opened as far as the reader looks at them.
  cases spells with
  | @push t named =>
      obtain ⟨kind, p, v⟩ := t
      obtain ⟨rfl, same⟩ := eq_of_keyword named
      obtain ⟨plain, special⟩ := not_register (.inl rfl) reader.layout
      dsimp only at same
      exact ⟨p, by simp [argument, namedArgument, same, plain, special]⟩
  | @pop t named =>
      obtain ⟨kind, p, v⟩ := t
      obtain ⟨rfl, same⟩ := eq_of_keyword named
      obtain ⟨plain, special⟩ := not_register (.inr rfl) reader.layout
      have other : ("pop" : Text) ≠ "push" := by decide
      dsimp only at same
      exact ⟨p, by simp [argument, namedArgument, same, plain, special, other]⟩
  | @decrement opening first second sp closing named kinds =>
      obtain ⟨_, p, _⟩ := opening
      obtain ⟨_, _, _⟩ := first
      obtain ⟨_, _, _⟩ := second
      simp only [List.map_cons, List.map_nil, List.cons.injEq, and_true] at kinds
      obtain ⟨rfl, rfl, rfl, closes⟩ := kinds
      refine ⟨p.span closing.position, ?_⟩
      simp [argument, lookup, afterDecrement?, named, closeStack, expect, closes, bind, Except.bind,
        pure, Except.pure]
  | @increment opening sp first second closing named kinds =>
      obtain ⟨_, p, _⟩ := opening
      obtain ⟨_, _, _⟩ := first
      obtain ⟨_, _, _⟩ := second
      simp only [List.map_cons, List.map_nil, List.cons.injEq, and_true] at kinds
      obtain ⟨rfl, rfl, rfl, closes⟩ := kinds
      obtain ⟨kind, q, v⟩ := sp
      obtain ⟨rfl, same⟩ := eq_of_keyword named
      refine ⟨p.span closing.position, ?_⟩
      simp [argument, lookup, afterDecrement?, named, stackLookup, closeStack, expect, closes, bind,
        Except.bind, pure, Except.pure]

theorem access?_iff (moves : access = .push ∨ access = .pop) {spelled : List Token}
    (read : reader.argument (spelled ++ rest) = .ok (x, rest)) :
    x.access? = some access ↔ Spells access spelled := by
  constructor
  · intro is
    obtain ⟨found, spells, same⟩ := reader.argument_spells moves read is
    rwa [List.append_cancel_right same]
  · intro spells
    obtain ⟨p, read'⟩ := reader.argument_of_spells spells rest
    cases read.symm.trans read'
    rfl

def ReadFrom (tokens : List Token) (x : Argument) : Prop :=
  ∃ before spelled rest, tokens = before ++ spelled ++ rest ∧
    reader.argument (spelled ++ rest) = .ok (x, rest)

theorem ReadFrom.of_suffix {longer : List Token} (suffix : tokens <:+ longer)
    (read : reader.ReadFrom tokens x) : reader.ReadFrom longer x := by
  obtain ⟨front, rfl⟩ := suffix
  obtain ⟨before, spelled, rest, rfl, read⟩ := read
  exact ⟨front ++ before, spelled, rest, by simp, read⟩

theorem argumentsAfter_reads {found all : List Argument}
    (read : reader.argumentsAfter found tokens = .ok all) :
    ∀ x ∈ all, x ∈ found ∨ reader.ReadFrom tokens x := by
  -- Reading goes on behind a comma, so the induction is on how many tokens are left.
  induction size : tokens.length using Nat.strongRecOn generalizing tokens found with
  | ind size ih =>
    subst size
    intro x member
    cases tokens with
    | nil =>
        rw [argumentsAfter.eq_def] at read
        cases read
        exact .inl (List.mem_reverse.1 member)
    | cons t ts =>
        rw [argumentsAfter_cons] at read
        obtain ⟨⟨next, rest⟩, first, read⟩ := bind_eq_ok.1 read
        obtain ⟨spelled, same⟩ := reader.argument_suffix first
        have here : reader.ReadFrom (t :: ts) next :=
          ⟨[], spelled, rest, by simp [same], by rw [same]; exact first⟩
        have taken : x ∈ next :: found → x ∈ found ∨ reader.ReadFrom (t :: ts) x := by
          intro member
          rcases List.mem_cons.1 member with rfl | earlier
          · exact .inr here
          · exact .inl earlier
        dsimp only at read
        split at read
        · cases read
          exact taken (List.mem_reverse.1 member)
        · rename_i separator behind
          split at read
          · have shorter : behind.length < (t :: ts).length := by
              rw [← same]
              simp only [List.length_append, List.length_cons]
              omega
            have suffix : behind <:+ t :: ts := ⟨spelled ++ [separator], by simp [same]⟩
            rcases ih behind.length shorter read rfl x member with earlier | later
            · exact taken earlier
            · exact .inr (later.of_suffix reader suffix)
          · simp [reject] at read

theorem arguments_reads {name : Token} {count : Nat} {all : List Argument}
    (read : reader.arguments name count tokens = .ok all) :
    ∀ x ∈ all, reader.ReadFrom tokens x := by
  obtain ⟨found, listed, read⟩ := bind_eq_ok.1 read
  intro x member
  split at read
  · cases read
    simpa using reader.argumentsAfter_reads listed x member
  · simp [reject] at read

theorem namedBody_reads {t : Token} {body : Body}
    (read : reader.namedBody t tokens = .ok (body, rest)) :
    ∀ x ∈ body.operands, reader.ReadFrom tokens x := by
  simp only [namedBody] at read
  intro x member
  split at read
  · obtain ⟨_, _, _, rfl, _⟩ := reader.data_ends read
    cases member
  split at read
  · obtain ⟨found, listed, result⟩ := bind_eq_ok.1 read
    cases result
    apply reader.arguments_reads listed
    rcases List.mem_append.1 member with first | second
    · exact List.mem_of_getElem? (Option.mem_toList.1 first)
    · exact List.mem_of_getElem? (Option.mem_toList.1 second)
  split at read
  · obtain ⟨found, listed, result⟩ := bind_eq_ok.1 read
    cases result
    exact reader.arguments_reads listed x (List.mem_of_getElem? (Option.mem_toList.1 member))
  · simp [reject] at read

theorem body_reads {body : Body} (read : reader.body tokens = .ok (body, rest)) :
    ∀ x ∈ body.operands, reader.ReadFrom tokens x := by
  rw [StatementReader.body.eq_def] at read
  intro x member
  split at read
  · obtain ⟨_, _, result⟩ := bind_eq_ok.1 read
    cases result
    cases member
  · exact (reader.namedBody_reads read x member).of_suffix reader (List.suffix_cons _ _)
  · exact absurd read (refuse_ne_ok reader)

theorem label?_suffix {label : Option LabelDefinition}
    (read : reader.label? tokens = .ok (label, rest)) : rest <:+ tokens := by
  unfold label? at read
  split at read
  · obtain ⟨⟨name, after⟩, named, result⟩ := bind_eq_ok.1 read
    cases result
    exact (reader.expect_suffix named).trans (List.suffix_cons _ _)
  · cases read
    exact List.suffix_refl _

theorem statement_reads {s : Statement} {body : Body} (read : reader.statement tokens = .ok s)
    (has : s.body = some body) : ∀ x ∈ body.operands, reader.ReadFrom tokens x := by
  obtain ⟨⟨label, behind⟩, labelled, read⟩ := bind_eq_ok.1 read
  have suffix := reader.label?_suffix labelled
  dsimp only at read suffix
  split at read
  · cases read
    cases has
  obtain ⟨⟨body', left⟩, inner, read⟩ := bind_eq_ok.1 read
  dsimp only at read
  split at read
  · cases read
    cases has
    intro x member
    exact (reader.body_reads inner x member).of_suffix reader suffix
  · simp [reject] at read

end StatementReader

namespace Source

variable {d : Dialect} {layout : Layout} {start : LineStart} {statements : List Statement}
  {errors : List AssemblyError} {text : Text} {s : Statement}

theorem readLine_of_mem (member : s ∈ (readFrom d layout start statements errors text).statements) :
    s ∈ statements ∨ ∃ start line, readLine d layout start line = .ok (some s) := by
  induction start, statements, errors, text using readFrom.induct d layout with
  | case1 start statements errors =>
      rw [readFrom_nil] at member
      exact .inl (List.mem_reverse.1 member)
  | case2 start statements errors b text line rest parts long =>
      rw [readFrom_cons parts, if_pos long] at member
      exact .inl (List.mem_reverse.1 member)
  | case3 start statements errors b text line rest parts short next found failed ih =>
      simp only [readFrom_cons parts, if_neg short, failed] at member
      exact ih member
  | case4 start statements errors b text line rest parts short next empty ih =>
      simp only [readFrom_cons parts, if_neg short, empty] at member
      exact ih member
  | case5 start statements errors b text line rest parts short next s' read ih =>
      simp only [readFrom_cons parts, if_neg short, read] at member
      rcases ih member with earlier | later
      · rcases List.mem_cons.1 earlier with rfl | earlier
        · exact .inr ⟨start, line, read⟩
        · exact .inl earlier
      · exact .inr later

/-- The operands of a statement as they stand in its line: pushes and pops are those that are
spelled as such. -/
def Spelled (d : Dialect) (layout : Layout) (s : Statement) (body : Body) : Prop :=
  ∃ start line, readLine d layout start line = .ok (some s) ∧
    ∀ x ∈ body.operands, ∃ before spelled after,
      (lineTokens d start line).tokens = before ++ spelled ++ after ∧
        (x.access? = some .push ↔ StatementReader.Spells .push spelled) ∧
        (x.access? = some .pop ↔ StatementReader.Spells .pop spelled)

theorem spelled_of_mem {body : Body} (chosen : d.layout = .ok layout)
    (member : s ∈ (read d text).statements) (has : s.body = some body) :
    Spelled d layout s body := by
  rw [read_eq_readFrom chosen] at member
  obtain none | ⟨start, line, read⟩ := readLine_of_mem member
  · cases none
  refine ⟨start, line, read, fun x operand => ?_⟩
  rw [readLine_eq] at read
  split at read
  · split at read
    · cases read
    · split at read
      · rename_i statement
        cases read
        obtain ⟨before, spelled, after, same, argument⟩ :=
          StatementReader.statement_reads _ statement has x operand
        exact ⟨before, spelled, after, same, StatementReader.access?_iff _ (.inl rfl) argument,
          StatementReader.access?_iff _ (.inr rfl) argument⟩
      · cases read
  · cases read

end Source

end Dcpu
