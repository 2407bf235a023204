import Dcpu.Proofs.LexPieces
import Dcpu.Proofs.LocalNames

set_option autoImplicit false

namespace Dcpu

namespace NameRules

structure Within (rules wider : NameRules) : Prop where
  dots : rules.dots = true → wider.dots = true
  dollars : rules.dollars = true → wider.dollars = true

variable {rules wider : NameRules} {b : UInt8}

theorem Within.startsName (within : rules.Within wider) (starts : rules.startsName b = true) :
    wider.startsName b = true := by
  have dots := within.dots
  have dollars := within.dollars
  simp only [NameRules.startsName, Bool.or_eq_true, Bool.and_eq_true] at starts ⊢
  grind

theorem Within.inName (within : rules.Within wider) (inside : rules.inName b = true) :
    wider.inName b = true := by
  simp only [NameRules.inName, Bool.or_eq_true] at inside ⊢
  exact inside.imp_right within.startsName

theorem startsName_of_inName (inside : wider.inName b = true) (outside : rules.inName b = false) :
    wider.startsName b = true ∧ rules.startsName b = false := by
  simp only [NameRules.inName, Bool.or_eq_true, Bool.or_eq_false_iff] at inside outside
  exact ⟨inside.resolve_left (by simp [outside.1]), outside.2⟩

theorem dot_or_dollar (starts : wider.startsName b = true) (not_start : rules.startsName b = false) :
    b = 0x2e ∨ b = 0x24 := by
  simp only [NameRules.startsName, Bool.or_eq_true, Bool.and_eq_true, beq_iff_eq,
    Bool.or_eq_false_iff] at starts not_start
  grind

theorem not_isDotted (plain : rules.dots = false) (starts : rules.startsName b = true)
    (further : Text) : Text.isDotted (b :: further) = false := by
  have dot : b ≠ 0x2e := by
    rintro rfl
    simp [NameRules.startsName, plain, isLetter, isUnderscore] at starts
  simpa [Text.isDotted] using dot

end NameRules

namespace Lexeme

variable {rules wider : NameRules} {b : UInt8} {rest : Text}

theorem next_name (starts : rules.startsName b = true) :
    next rules b rest = run .identifier rules.inName b rest := by
  have all : ∀ n : Fin 0x100, NameRules.startsName ⟨true, true⟩ (UInt8.ofNat n) = true →
      Piece.Inner (UInt8.ofNat n) ∧ Text.isDigit (UInt8.ofNat n) = false := by decide +kernel
  have widest : rules.Within ⟨true, true⟩ := ⟨fun _ => rfl, fun _ => rfl⟩
  obtain ⟨inner, digit⟩ := Piece.of_all_bytes
    (P := fun b => Piece.Inner b ∧ Text.isDigit b = false) all (widest.startsName starts)
  rw [Piece.next_of_inner inner, if_neg (by simp [digit]), if_pos starts]

theorem next_refused (starts : wider.startsName b = true) (not_start : rules.startsName b = false)
    (rest : Text) :
    ∃ cause more, next rules b rest = .error cause more := by
  rcases NameRules.dot_or_dollar starts not_start with rfl | rfl
  all_goals
    rw [Piece.next_of_inner (by decide), if_neg (by decide), not_start, if_neg (by decide)]
    exact ⟨_, _, rfl⟩

def Blocked (rules : NameRules) (t : Text) : Prop :=
  ∃ b rest cause more, t = b :: rest ∧ next rules b rest = .error cause more

theorem blocked_of_starts (starts : wider.startsName b = true)
    (not_start : rules.startsName b = false) : Blocked rules (b :: rest) := by
  obtain ⟨cause, more, refused⟩ := next_refused starts not_start rest
  exact ⟨b, rest, cause, more, rfl, refused⟩

theorem takeWhile_inName (within : rules.Within wider) (t : Text) :
    t.takeWhile wider.inName = t.takeWhile rules.inName ∨
      Blocked rules (t.drop (t.takeWhile rules.inName).length) := by
  induction t with
  | nil => exact .inl rfl
  | cons b t ih =>
      by_cases inside : rules.inName b = true
      · rw [List.takeWhile_cons_of_pos inside, List.takeWhile_cons_of_pos (within.inName inside)]
        exact ih.imp_left (congrArg _)
      rw [List.takeWhile_cons_of_neg inside]
      -- The name ends here; it goes on under the wider rules only at what is an error under these.
      by_cases inside' : wider.inName b = true
      · obtain ⟨starts, not_start⟩ :=
          NameRules.startsName_of_inName inside' (Bool.eq_false_iff.2 inside)
        exact .inr (blocked_of_starts starts not_start)
      · exact .inl (List.takeWhile_cons_of_neg inside')

theorem next_within (within : rules.Within wider) (b : UInt8) (rest : Text) :
    next wider b rest = next rules b rest ∨ Blocked rules (b :: rest) ∨
      ∃ kind value more, next rules b rest = .token kind value more ∧
        Blocked rules (rest.drop more) := by
  -- Only an error could be taken into the lexeme, in it or right behind it.
  cases starts : rules.startsName b with
  | false =>
      cases starts' : wider.startsName b with
      | false => exact .inl (by simp only [next, starts, starts', Bool.false_eq_true, if_false])
      | true => exact .inr (.inl (blocked_of_starts starts' starts))
  | true =>
      rw [next_name starts, next_name (within.startsName starts)]
      rcases takeWhile_inName within rest with same | blocked
      · exact .inl (by simp only [run, same])
      · exact .inr (.inr ⟨_, _, _, rfl, blocked⟩)

theorem kind_eq_of_quoted {kind kind' : TokenKind} {cause : Cause} {quote : UInt8}
    {unquote : Text → Option Text} {value : Text} {more : Nat}
    (found : quoted kind cause quote unquote rest = .token kind' value more) : kind' = kind := by
  unfold quoted at found
  split at found
  · cases found
  · split at found
    · cases found
      rfl
    · cases found

theorem ofChar_ne_identifier {c : Char} {width more : Nat} {value : Text} :
    ofChar c b width ≠ .token .identifier value more := by
  have marks : TokenKind.ofChar? c ≠ some .identifier := by
    unfold TokenKind.ofChar?
    split <;> simp
  unfold ofChar
  split
  · rename_i kind made
    rintro ⟨⟩
    exact marks made
  · simp

theorem not_isDotted_of_next {value : Text} {more : Nat} (plain : rules.dots = false)
    (found : next rules b rest = .token .identifier value more) : value.isDotted = false := by
  by_cases starts : rules.startsName b = true
  · rw [next_name starts] at found
    cases found
    exact NameRules.not_isDotted plain starts _
  · simp only [next, if_neg starts] at found
    repeat' split at found
    · cases found
    · cases found
    · cases kind_eq_of_quoted found
    · cases kind_eq_of_quoted found
    · cases found
    · exact absurd found ofChar_ne_identifier

end Lexeme

namespace LineTokens

variable {rules wider : NameRules} {start : LineStart} {tokens : List Token}
  {errors : List Diagnostic} {offset : Nat} {t : Text}

theorem readFrom_nil :
    readFrom rules start tokens errors offset [] = ⟨tokens.reverse, errors.reverse⟩ := by
  rw [readFrom.eq_def]

theorem readFrom_cons (b : UInt8) (rest : Text) :
    readFrom rules start tokens errors offset (b :: rest) =
      match Lexeme.next rules b rest with
      | .blank more => readFrom rules start tokens errors (offset + more + 1) (rest.drop more)
      | .token kind value more =>
          readFrom rules start (⟨kind, start.position offset (more + 1), value⟩ :: tokens) errors
            (offset + more + 1) (rest.drop more)
      | .error cause more =>
          readFrom rules start tokens (⟨start.position offset (more + 1), cause⟩ :: errors)
            (offset + more + 1) (rest.drop more)
      | .comment => ⟨tokens.reverse, errors.reverse⟩
      | .unclosed cause =>
          ⟨tokens.reverse,
            (⟨start.position offset (rest.length + 1), cause⟩ :: errors).reverse⟩ :=
  readFrom.eq_def rules start tokens errors offset (b :: rest)

theorem errors_eq_nil_of_readFrom (clean : (readFrom rules start tokens errors offset t).errors = []) :
    errors = [] := by
  induction tokens, errors, offset, t using readFrom.induct rules start with
  | case1 tokens errors offset =>
      rw [readFrom_nil] at clean
      exact List.reverse_eq_nil_iff.1 clean
  | case2 tokens errors offset b rest more found ih =>
      simp only [readFrom_cons, found] at clean
      exact ih clean
  | case3 tokens errors offset b rest kind value more found ih =>
      simp only [readFrom_cons, found] at clean
      exact ih clean
  | case4 tokens errors offset b rest cause more found ih =>
      -- Errors are never taken back, so there would still be this one.
      simp only [readFrom_cons, found] at clean
      exact absurd (ih clean) (by simp)
  | case5 tokens errors offset b rest found =>
      simp only [readFrom_cons, found] at clean
      exact List.reverse_eq_nil_iff.1 clean
  | case6 tokens errors offset b rest cause found =>
      simp [readFrom_cons, found] at clean

theorem not_blocked_of_readFrom
    (clean : (readFrom rules start tokens errors offset t).errors = []) :
    ¬ Lexeme.Blocked rules t := by
  rintro ⟨b, rest, cause, more, rfl, refused⟩
  simp only [readFrom_cons, refused] at clean
  exact absurd (errors_eq_nil_of_readFrom clean) (by simp)

theorem next_eq_of_readFrom {b : UInt8} {rest : Text} (within : rules.Within wider)
    (clean : (readFrom rules start tokens errors offset (b :: rest)).errors = []) :
    Lexeme.next wider b rest = Lexeme.next rules b rest := by
  rcases Lexeme.next_within within b rest with same | blocked | ⟨kind, value, more, found, blocked⟩
  · exact same
  · exact absurd blocked (not_blocked_of_readFrom clean)
  · simp only [readFrom_cons, found] at clean
    exact absurd blocked (not_blocked_of_readFrom clean)

theorem readFrom_within (within : rules.Within wider)
    (clean : (readFrom rules start tokens errors offset t).errors = []) :
    readFrom wider start tokens errors offset t = readFrom rules start tokens errors offset t := by
  induction tokens, errors, offset, t using readFrom.induct rules start with
  | case1 tokens errors offset => rw [readFrom_nil, readFrom_nil]
  | case2 tokens errors offset b rest more found ih =>
      have same := next_eq_of_readFrom within clean
      simp only [readFrom_cons, same, found] at clean ⊢
      exact ih clean
  | case3 tokens errors offset b rest kind value more found ih =>
      have same := next_eq_of_readFrom within clean
      simp only [readFrom_cons, same, found] at clean ⊢
      exact ih clean
  | case4 tokens errors offset b rest cause more found ih =>
      exact absurd ⟨b, rest, cause, more, rfl, found⟩ (not_blocked_of_readFrom clean)
  | case5 tokens errors offset b rest found =>
      simp only [readFrom_cons, next_eq_of_readFrom within clean, found]
  | case6 tokens errors offset b rest cause found =>
      simp only [readFrom_cons, next_eq_of_readFrom within clean, found]

theorem not_isDotted_of_readFrom (plain : rules.dots = false)
    (before : ∀ u ∈ tokens, u.kind = .identifier → u.value.isDotted = false) {u : Token}
    (member : u ∈ (readFrom rules start tokens errors offset t).tokens)
    (name : u.kind = .identifier) : u.value.isDotted = false := by
  induction tokens, errors, offset, t using readFrom.induct rules start with
  | case1 tokens errors offset =>
      rw [readFrom_nil] at member
      exact before u (List.mem_reverse.1 member) name
  | case2 tokens errors offset b rest more found ih =>
      simp only [readFrom_cons, found] at member
      exact ih before member
  | case3 tokens errors offset b rest kind value more found ih =>
      simp only [readFrom_cons, found] at member
      refine ih (List.forall_mem_cons.2 ⟨?_, before⟩) member
      rintro rfl
      exact Lexeme.not_isDotted_of_next plain found
  | case4 tokens errors offset b rest cause more found ih =>
      simp only [readFrom_cons, found] at member
      exact ih before member
  | case5 tokens errors offset b rest found =>
      simp only [readFrom_cons, found] at member
      exact before u (List.mem_reverse.1 member) name
  | case6 tokens errors offset b rest cause found =>
      simp only [readFrom_cons, found] at member
      exact before u (List.mem_reverse.1 member) name

end LineTokens

end Dcpu
