import Dcpu.Proofs.ExtendedTokens

set_option autoImplicit false

namespace Dcpu

namespace Text

theorem le_of_continueBits {n bits value : Nat} {rest : Text}
    (read : continueBits n bits rest = some value) : n ≤ rest.length := by
  induction n generalizing bits rest with
  | zero => exact Nat.zero_le _
  | succ n ih =>
      cases rest with
      | nil => cases read
      | cons b rest =>
          rw [continueBits] at read
          split at read
          · exact Nat.succ_le_succ (ih read)
          · cases read

theorem decodeFirst_le (b : UInt8) (rest : Text) :
    (decodeFirst b rest).2 - 1 ≤ rest.length := by
  rw [decodeFirst]
  cases found : sequence? b rest with
  | none => exact Nat.zero_le _
  | some first =>
      obtain ⟨⟨more, bits, least⟩, _, found⟩ := Option.bind_eq_some_iff.1 found
      obtain ⟨value, read, result⟩ := Option.bind_eq_some_iff.1 found
      have fits := le_of_continueBits read
      -- What was decoded is the first byte and those that continue it.
      by_cases valid : value.isValidChar
      · rw [dif_pos valid] at result
        by_cases whole : least ≤ value
        · rw [if_pos whole] at result
          cases result
          exact fits
        · rw [if_neg whole] at result
          cases result
      · rw [dif_neg valid] at result
        cases result

end Text

namespace Lexeme

def Fits (length : Nat) : Lexeme → Prop
  | .blank more | .token _ _ more | .error _ more => more ≤ length
  | .comment | .unclosed _ => True

theorem length_of_beforeQuote? {quote : UInt8} {found rest inner : Text}
    (closed : beforeQuote? quote found rest = some inner) :
    inner.length + 1 ≤ found.length + rest.length := by
  fun_induction beforeQuote? quote found rest with
  | case1 => cases closed
  | case2 => cases closed
  | case3 found escaped after ih =>
      have further := ih closed
      simp only [List.length_cons] at further ⊢
      omega
  | case4 found rest other =>
      obtain rfl := Option.some.inj closed
      simp only [List.length_reverse, List.length_cons]
      omega
  | case5 found b rest other plain ih =>
      have further := ih closed
      simp only [List.length_cons] at further ⊢
      omega

theorem quoted_fits (kind : TokenKind) (cause : Cause) (quote : UInt8)
    (unquote : Text → Option Text) (rest : Text) :
    (quoted kind cause quote unquote rest).Fits rest.length := by
  rw [quoted]
  split
  · trivial
  · rename_i inner closed
    have fits := length_of_beforeQuote? closed
    simp only [List.length_nil, Nat.zero_add] at fits
    -- The closing quote is one of the bytes that are left.
    split
    · exact fits
    · exact fits

theorem run_fits (kind : TokenKind) (accept : UInt8 → Bool) (b : UInt8) (rest : Text) :
    (run kind accept b rest).Fits rest.length :=
  (List.takeWhile_sublist accept).length_le

theorem next_fits (rules : NameRules) (b : UInt8) (rest : Text) :
    (next rules b rest).Fits rest.length := by
  have width := Text.decodeFirst_le b rest
  unfold next
  dsimp only
  split
  · exact width
  split
  · trivial
  split
  · exact quoted_fits _ _ _ _ _
  split
  · exact quoted_fits _ _ _ _ _
  split
  · exact run_fits _ _ _ _
  split
  · exact run_fits _ _ _ _
  · rw [ofChar]
    split
    · exact width
    · exact width

end Lexeme

namespace LineStart

/-- The place of some bytes of a line of `n` bytes, or of its end. -/
def Along (start : LineStart) (n : Nat) (p : Position) : Prop :=
  ∃ offset size : Nat, p = start.position offset size ∧ 1 ≤ size ∧ offset ≤ n ∧
    offset + size ≤ n + 1

theorem span_position (start : LineStart) {first last : Nat} (order : first ≤ last)
    (size size' : Nat) :
    (start.position first size).span (start.position last size') =
      start.position first (last + size' - first) := by
  simp only [position, Position.span, Position.mk.injEq, true_and, and_true]
  omega

end LineStart

namespace LineTokens

/-- The tokens stand behind each other from an offset on, within a line of `n` bytes. -/
def Laid (start : LineStart) (n : Nat) : Nat → List Token → Prop
  | _, [] => True
  | offset, t :: rest =>
      ∃ first size : Nat, t.position = start.position first size ∧ offset ≤ first ∧ 1 ≤ size ∧
        first + size ≤ n ∧ Laid start n (first + size) rest

variable {start : LineStart} {n offset : Nat} {tokens : List Token}

theorem Laid.before {earlier : Nat} (laid : Laid start n offset tokens) (least : earlier ≤ offset) :
    Laid start n earlier tokens := by
  cases tokens with
  | nil => trivial
  | cons t rest =>
      obtain ⟨first, size, place, from_, some, fits, others⟩ := laid
      exact ⟨first, size, place, Nat.le_trans least from_, some, fits, others⟩

theorem Laid.exists_place {last : Token} (laid : Laid start n offset tokens)
    (member : last ∈ tokens) :
    ∃ first size : Nat, last.position = start.position first size ∧ offset ≤ first ∧ 1 ≤ size ∧
      first + size ≤ n := by
  induction tokens generalizing offset with
  | nil => exact absurd member List.not_mem_nil
  | cons t rest ih =>
      obtain ⟨first, size, place, from_, some, fits, others⟩ := laid
      rcases List.mem_cons.1 member with rfl | behind
      · exact ⟨first, size, place, from_, some, fits⟩
      · exact ih (others.before (by omega)) behind

/-- From each token to itself or to one behind it is such a place. -/
def Stretches (P : Position → Prop) (tokens : List Token) : Prop :=
  ∀ (first : Token) (rest : List Token), first :: rest <:+ tokens → ∀ last ∈ first :: rest,
    P (first.position.span last.position)

theorem Laid.stretches (laid : Laid start n offset tokens) : Stretches (start.Along n) tokens := by
  induction tokens generalizing offset with
  | nil => exact fun first rest suffix => absurd (List.suffix_nil.1 suffix) (List.cons_ne_nil _ _)
  | cons t others ih =>
      obtain ⟨first, size, place, from_, some, fits, laidOthers⟩ := laid
      intro first' rest suffix last member
      rcases List.suffix_cons_iff.1 suffix with same | behind
      · -- The stretch starts at the first of all tokens, and what it ends with is not before that.
        obtain ⟨rfl, rfl⟩ := List.cons.inj same
        have whole : Laid start n first (first' :: rest) :=
          ⟨first, size, place, Nat.le_refl _, some, fits, laidOthers⟩
        obtain ⟨end_, size', place', order, some', fits'⟩ := whole.exists_place member
        rw [place, place', start.span_position order]
        exact ⟨first, end_ + size' - first, rfl, by omega, by omega, by omega⟩
      · exact ih laidOthers first' rest behind last member

theorem length_drop_of_fits {more : Nat} {b : UInt8} {rest : Text} (fits : more ≤ rest.length)
    (ends : offset + (b :: rest).length = n) : offset + more + 1 + (rest.drop more).length = n := by
  simp only [List.length_cons, List.length_drop] at ends ⊢
  omega

theorem readFrom_laid (rules : NameRules) (start : LineStart) (tokens : List Token)
    (errors : List Diagnostic) (offset : Nat) (t : Text) (ends : offset + t.length = n) :
    ∃ (found : List Token) (wrong : List Diagnostic),
      readFrom rules start tokens errors offset t =
        ⟨tokens.reverse ++ found, errors.reverse ++ wrong⟩ ∧
      Laid start n offset found ∧ ∀ d ∈ wrong, start.Along n d.position := by
  -- What is found first is put in front of what the rest of the line adds.
  induction tokens, errors, offset, t using readFrom.induct rules start with
  | case1 tokens errors offset =>
      exact ⟨[], [], by rw [readFrom_nil, List.append_nil, List.append_nil], trivial, by simp⟩
  | case2 tokens errors offset b rest more next ih =>
      have fits := next ▸ Lexeme.next_fits rules b rest
      obtain ⟨found, wrong, read, laid, along⟩ := ih (length_drop_of_fits fits ends)
      refine ⟨found, wrong, ?_, laid.before (by omega), along⟩
      simp only [readFrom_cons, next, read]
  | case3 tokens errors offset b rest kind value more next ih =>
      have fits := next ▸ Lexeme.next_fits rules b rest
      have ends' := length_drop_of_fits fits ends
      obtain ⟨found, wrong, read, laid, along⟩ := ih ends'
      refine ⟨⟨kind, start.position offset (more + 1), value⟩ :: found, wrong, ?_, ?_, along⟩
      · simp only [readFrom_cons, next, read, List.reverse_cons, List.append_assoc,
          List.singleton_append]
      · exact ⟨offset, more + 1, rfl, Nat.le_refl _, by omega, by omega, laid⟩
  | case4 tokens errors offset b rest cause more next ih =>
      have fits := next ▸ Lexeme.next_fits rules b rest
      have ends' := length_drop_of_fits fits ends
      obtain ⟨found, wrong, read, laid, along⟩ := ih ends'
      refine ⟨found, ⟨start.position offset (more + 1), cause⟩ :: wrong, ?_,
        laid.before (by omega), List.forall_mem_cons.2 ⟨?_, along⟩⟩
      · simp only [readFrom_cons, next, read, List.reverse_cons, List.append_assoc,
          List.singleton_append]
      · exact ⟨offset, more + 1, rfl, by omega, by omega, by omega⟩
  | case5 tokens errors offset b rest next =>
      refine ⟨[], [], ?_, trivial, by simp⟩
      rw [readFrom_cons, next, List.append_nil, List.append_nil]
  | case6 tokens errors offset b rest cause next =>
      -- What is not closed takes the rest of the line.
      refine ⟨[], [⟨start.position offset (rest.length + 1), cause⟩], ?_, trivial, ?_⟩
      · simp only [readFrom_cons, next, List.append_nil, List.reverse_cons]
      · rw [List.length_cons] at ends
        exact List.forall_mem_singleton.2
          ⟨offset, rest.length + 1, rfl, by omega, by omega, by omega⟩

end LineTokens

end Dcpu
