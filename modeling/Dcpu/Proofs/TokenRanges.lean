import Dcpu.Proofs.ReadWithin
import Dcpu.Proofs.SpelledTokens

set_option autoImplicit false

namespace Dcpu

open Text Lexeme

theorem NameRules.inName_of_inNumeral {rules : NameRules} {b : UInt8}
    (inside : NameRules.inNumeral b = true) : rules.inName b = true := by
  simp only [NameRules.inNumeral, NameRules.inName, NameRules.startsName, Bool.or_eq_true]
    at inside ⊢
  tauto

def Token.Covers (start : LineStart) (t : Token) (offset : Nat) : Prop :=
  t.position.byte ≤ start.byte + offset ∧ start.byte + offset < t.position.stop

/-- Where a token stands among the tokens of a line. A numeral starts behind a byte that no numeral
has, and so does a name behind one that no name has, unless that byte ends a numeral. -/
structure Token.Stands (rules : NameRules) (start : LineStart) (line : Text) (tokens : List Token)
    (t : Token) (before written after : Text) : Prop where
  whole : line = before ++ written ++ after
  some : written ≠ []
  place : t.position = start.position before.length written.length
  spelled : Spelled rules t.kind t.value written after
  numeral : t.kind = .literal → ∀ b ∈ before.getLast?, NameRules.inNumeral b = false
  name : t.kind = .identifier → ∀ b ∈ before.getLast?, rules.inName b = true →
    ∃ s ∈ tokens, s.kind = .literal ∧ s.position.stop = t.position.byte

namespace LineTokens

def White (start : LineStart) (line : Text) (tokens : List Token) (offset : Nat) : Prop :=
  ∃ (first : Nat) (c : Char) (width : Nat), first ≤ offset ∧ offset < first + width ∧
    Text.StartsWith (line.drop first) c width ∧ isBlank c = true ∧
    ∀ i, first ≤ i → i < first + width → ∀ t ∈ tokens, ¬ t.Covers start i

inductive Scans (rules : NameRules) (start : LineStart) : Text → Text → List Token → Prop
  | done (before : Text) : Scans rules start before [] []
  | comment (before rest : Text) : Scans rules start before (semicolon :: rest) []
  | blank {before bytes rest : Text} {c : Char} {tokens : List Token}
      (starts : Text.StartsWith (bytes ++ rest) c bytes.length) (white : isBlank c = true)
      (scans : Scans rules start (before ++ bytes) rest tokens) :
      Scans rules start before (bytes ++ rest) tokens
  | token {before written rest value : Text} {kind : TokenKind} {tokens : List Token}
      (some : written ≠ []) (spelled : Spelled rules kind value written rest)
      (scans : Scans rules start (before ++ written) rest tokens) :
      Scans rules start before (written ++ rest)
        (⟨kind, start.position before.length written.length, value⟩ :: tokens)

variable {rules : NameRules} {start : LineStart} {before written rest value : Text}
  {kind : TokenKind} {tokens earlier : List Token}

theorem readFrom_scans (tokens : List Token) (errors : List Diagnostic) (offset : Nat) (t : Text)
    (length : before.length = offset)
    (clean : (readFrom rules start tokens errors offset t).errors = []) :
    ∃ found, (readFrom rules start tokens errors offset t).tokens = tokens.reverse ++ found ∧
      Scans rules start before t found := by
  -- Along the reader itself. Errors are only ever added, so that a lexeme with one has no place here.
  induction tokens, errors, offset, t using readFrom.induct rules start generalizing before with
  | case1 tokens errors offset =>
      exact ⟨[], by rw [readFrom_nil, List.append_nil], .done before⟩
  | case2 tokens errors offset b rest more next ih =>
      obtain ⟨c, decoded, white⟩ := next ▸ next_accounts rules b rest
      have fits := next ▸ next_fits rules b rest
      have taken : (b :: rest.take more).length = more + 1 := congrArg _ (List.length_take_of_le fits)
      simp only [readFrom_cons, next] at clean ⊢
      obtain ⟨found, read, scans⟩ := @ih (before ++ b :: rest.take more)
        (by rw [List.length_append, taken, length, Nat.add_assoc]) clean
      refine ⟨found, read, ?_⟩
      rw [← List.take_append_drop more rest, ← List.cons_append]
      refine .blank ?_ white scans
      exact ⟨b, rest, by simp, taken ▸ decoded⟩
  | case3 tokens errors offset b rest kind value more next ih =>
      have spelled := next ▸ next_accounts rules b rest
      have fits := next ▸ next_fits rules b rest
      have taken : (b :: rest.take more).length = more + 1 := congrArg _ (List.length_take_of_le fits)
      simp only [readFrom_cons, next] at clean ⊢
      obtain ⟨found, read, scans⟩ := @ih (before ++ b :: rest.take more)
        (by rw [List.length_append, taken, length, Nat.add_assoc]) clean
      refine ⟨⟨kind, start.position offset (more + 1), value⟩ :: found, ?_, ?_⟩
      · rw [read, List.reverse_cons, List.append_assoc, List.singleton_append]
      · rw [← length, ← taken]
        nth_rewrite 1 [← List.take_append_drop more rest]
        exact .token (List.cons_ne_nil _ _) spelled scans
  | case4 tokens errors offset b rest cause more next ih =>
      exact absurd ⟨b, rest, cause, more, rfl, next⟩ (not_blocked_of_readFrom clean)
  | case5 tokens errors offset b rest next =>
      obtain rfl := next ▸ next_accounts rules b rest
      refine ⟨[], ?_, .comment before rest⟩
      simp only [readFrom_cons, next, List.append_nil]
  | case6 tokens errors offset b rest cause next =>
      simp [readFrom_cons, next] at clean

theorem Scans.le_byte (scans : Scans rules start before rest tokens) :
    ∀ t ∈ tokens, start.byte + (before.length : Int) ≤ t.position.byte := by
  induction scans with
  | done => simp
  | comment => simp
  | blank starts white scans ih =>
      intro t member
      have further := ih t member
      rw [List.length_append] at further
      omega
  | token some spelled scans ih =>
      refine List.forall_mem_cons.2 ⟨Int.le_refl _, fun t member => ?_⟩
      have further := ih t member
      rw [List.length_append] at further
      omega

theorem Scans.apart (scans : Scans rules start before rest tokens) :
    tokens.Pairwise fun s t => s.position.stop ≤ t.position.byte := by
  induction scans with
  | done => exact .nil
  | comment => exact .nil
  | blank starts white scans ih => exact ih
  | token some spelled scans ih =>
      refine .cons (fun t member => ?_) ih
      have further := scans.le_byte t member
      rw [List.length_append] at further
      simp only [Position.stop, LineStart.position]
      omega

theorem stop_position (start : LineStart) (offset size : Nat) :
    (start.position offset size).stop = start.byte + (offset + size : Nat) := by
  simp only [Position.stop, LineStart.position]
  omega

theorem Scans.outside (scans : Scans rules start before rest tokens)
    (behind : ∀ s ∈ earlier, s.position.stop ≤ start.byte + (before.length : Int)) :
    ∃ stop, before.length ≤ stop ∧ stop ≤ (before ++ rest).length ∧
      (stop = (before ++ rest).length ∨ (before ++ rest)[stop]? = some semicolon) ∧
      (∀ t ∈ earlier ++ tokens, t.position.stop ≤ start.byte + stop) ∧
      ∀ offset, before.length ≤ offset → offset < stop →
        (∃ t ∈ earlier ++ tokens, t.Covers start offset) ∨
          White start (before ++ rest) (earlier ++ tokens) offset := by
  induction scans generalizing earlier with
  | done before =>
      rw [List.append_nil, List.append_nil]
      exact ⟨before.length, Nat.le_refl _, Nat.le_refl _, .inl rfl, behind, by omega⟩
  | comment before rest =>
      rw [List.append_nil]
      exact ⟨before.length, Nat.le_refl _, by simp, .inr (by simp), behind, by omega⟩
  | @blank before bytes rest c tokens starts white scans ih =>
      have longer : ((before ++ bytes).length : Int) = before.length + bytes.length := by simp
      obtain ⟨stop, least, most, ends, within, inside⟩ := @ih earlier fun s member => by
        have := behind s member
        omega
      rw [List.append_assoc] at most ends inside
      refine ⟨stop, by omega, most, ends, within, fun offset from_ below => ?_⟩
      by_cases here : offset < before.length + bytes.length
      · -- Tokens end before the white space or start behind it.
        refine .inr ⟨before.length, c, bytes.length, from_, here, ?_, white, ?_⟩
        · rwa [List.drop_left]
        · rintro i first last t member ⟨lower, upper⟩
          rcases List.mem_append.1 member with old | new
          · have := behind t old
            omega
          · have := scans.le_byte t new
            omega
      · exact inside offset (by omega) below
  | @token before written rest value kind tokens some spelled scans ih =>
      have longer : (before ++ written).length = before.length + written.length :=
        List.length_append
      obtain ⟨stop, least, most, ends, within, inside⟩ :=
        @ih (earlier ++ [⟨kind, start.position before.length written.length, value⟩]) (by
          refine List.forall_mem_append.2 ⟨fun s member => ?_, List.forall_mem_singleton.2 ?_⟩
          · have := behind s member
            omega
          · rw [stop_position, longer])
      rw [List.append_assoc] at most ends inside
      simp only [List.append_assoc, List.singleton_append] at within inside
      refine ⟨stop, by omega, most, ends, within, fun offset from_ below => ?_⟩
      by_cases here : offset < before.length + written.length
      · refine .inl ⟨_, List.mem_append_right _ (.head _), ?_, ?_⟩
        · simp only [LineStart.position]
          omega
        · rw [stop_position]
          omega
      · exact inside offset (by omega) below

/-- No word can go on behind the bytes before, unless a numeral ends there. -/
def Parts (rules : NameRules) (start : LineStart) (earlier : List Token) (before rest : Text) :
    Prop :=
  ∀ b ∈ before.getLast?, rules.inName b = true → ∀ c ∈ rest.head?,
    NameRules.inNumeral c = false ∧ (rules.inName c = true →
      ∃ s ∈ earlier, s.kind = .literal ∧ s.position.stop = start.byte + (before.length : Int))

theorem parts_of_ends (some : written ≠ []) (ends : ∀ b ∈ written.getLast?, Element.Ends b) :
    Parts rules start earlier (before ++ written) rest := by
  intro b last inside
  rw [List.getLast?_append_of_ne_nil _ some] at last
  rw [(ends b last).not_inName] at inside
  cases inside

theorem parts_of_spelled (some : written ≠ []) (spelled : Spelled rules kind value written rest) :
    Parts rules start (earlier ++ [⟨kind, start.position before.length written.length, value⟩])
      (before ++ written) rest := by
  cases spelled with
  | name starts run =>
      intro b last inside c next
      -- What ends a name ends a numeral, too.
      have outside := run.stops c next
      refine ⟨?_, fun inside => by rw [outside] at inside; cases inside⟩
      by_contra numeral
      rw [Bool.not_eq_false] at numeral
      rw [NameRules.inName_of_inNumeral numeral] at outside
      cases outside
  | numeral starts run =>
      intro b last inside c next
      -- A name may follow, for the numeral ends here.
      refine ⟨run.stops c next, fun _ => ⟨_, List.mem_append_right _ (.head _), rfl, ?_⟩⟩
      rw [stop_position, List.length_append]
  | @string inner value after unclosed unquotes =>
      refine parts_of_ends some fun b last => ?_
      rw [← List.cons_append, List.getLast?_concat] at last
      obtain rfl := Option.some.inj last
      rfl
  | @character inner value after unclosed unquotes =>
      refine parts_of_ends some fun b last => ?_
      rw [← List.cons_append, List.getLast?_concat] at last
      obtain rfl := Option.some.inj last
      rfl
  | mark made =>
      refine parts_of_ends some fun b last => ?_
      obtain ⟨_, written, ends⟩ := ascii_of_ofChar? made
      rw [written] at last
      exact Option.some.inj last ▸ ends

theorem Scans.stands (scans : Scans rules start before rest tokens)
    (parts : Parts rules start earlier before rest) :
    ∀ t ∈ tokens, ∃ before' written after,
      t.Stands rules start (before ++ rest) (earlier ++ tokens) before' written after := by
  induction scans generalizing earlier with
  | done => simp
  | comment => simp
  | @blank before bytes rest c tokens starts white scans ih =>
      obtain ⟨b, following, same, decoded⟩ := starts
      have some : bytes ≠ [] := by
        rintro rfl
        have := (decodeFirst_width b following).1
        simp [decoded] at this
      obtain ⟨b', taken, rfl⟩ := List.exists_cons_of_ne_nil some
      obtain ⟨rfl, rfl⟩ := List.cons.inj same
      rw [← List.append_assoc]
      refine ih (parts_of_ends some fun x last => blank_ends decoded white x ?_)
      simpa using List.mem_of_getLast? last
  | @token before written rest value kind tokens some spelled scans ih =>
      have head (c : UInt8) (first : c ∈ written.head?) : c ∈ (written ++ rest).head? := by
        rw [List.head?_append_of_ne_nil _ some]
        exact first
      refine List.forall_mem_cons.2 ⟨⟨before, written, rest, ?_⟩, ?_⟩
      · refine ⟨(List.append_assoc ..).symm, some, rfl, spelled, ?_, ?_⟩
        · -- A digit continues any word, so that none ends right before it.
          rintro rfl b last
          obtain ⟨c, first, digit⟩ := spelled.starts_numeral
          by_contra numeral
          rw [Bool.not_eq_false] at numeral
          have apart := (parts b last (NameRules.inName_of_inNumeral numeral) c (head c first)).1
          simp [NameRules.inNumeral, digit] at apart
        · -- A byte that starts a name may end a numeral, but never a name.
          rintro rfl b last inside
          obtain ⟨c, first, starts⟩ := spelled.starts_name
          obtain ⟨s, member, literal, stop⟩ := (parts b last inside c (head c first)).2
            (by simp [NameRules.inName, starts])
          exact ⟨s, List.mem_append_left _ member, literal, stop⟩
      · rw [← List.append_assoc, ← List.singleton_append, ← List.append_assoc]
        exact ih (parts_of_spelled some spelled)

/-- A line without errors is accounted for. Its tokens stand behind each other, each of them written
as it should be. Every byte that is in none of them is white space, up to the end of the line or up to
a semicolon behind the last token. -/
theorem ofLine_accounts (rules : NameRules) (start : LineStart) (text : Text)
    (clean : (ofLine rules start text).errors = []) :
    (∀ t ∈ (ofLine rules start text).tokens, ∃ before written after,
        t.Stands rules start text (ofLine rules start text).tokens before written after) ∧
      ((ofLine rules start text).tokens.Pairwise fun s t => s.position.stop ≤ t.position.byte) ∧
      ∃ stop ≤ text.length, (stop = text.length ∨ text[stop]? = some semicolon) ∧
        (∀ t ∈ (ofLine rules start text).tokens, t.position.stop ≤ start.byte + stop) ∧
        ∀ offset < stop, (∃ t ∈ (ofLine rules start text).tokens, t.Covers start offset) ∨
          White start text (ofLine rules start text).tokens offset := by
  obtain ⟨found, read, scans⟩ := @readFrom_scans rules start [] [] [] 0 text rfl clean
  have tokens : (ofLine rules start text).tokens = found := read
  rw [tokens]
  obtain ⟨stop, _, most, ends, within, inside⟩ := @Scans.outside _ _ _ _ _ [] scans (by simp)
  exact ⟨@Scans.stands _ _ _ _ _ [] scans (by simp [Parts]), scans.apart, stop, most, ends, within,
    fun offset below => inside offset (Nat.zero_le _) below⟩

theorem ofLine_accounts_mixed :
    (ofLine ⟨true, true⟩ ⟨1, 0⟩ "1$a\u00a0\"\\\";\",_.1;'").errors = [] ∧
      (ofLine ⟨true, true⟩ ⟨1, 0⟩ "1$a\u00a0\"\\\";\",_.1;'").tokens.map (fun t => (t.kind, t.value)) =
        ([(.literal, "1"), (.identifier, "$a"), (.string, "\";"), (.comma, ","),
          (.identifier, "_.1")] : List (TokenKind × Text)) ∧
      (ofLine ⟨true, true⟩ ⟨1, 0⟩ "1$a\u00a0\"\\\";\",_.1;'").tokens.Pairwise
        fun s t => s.position.stop ≤ t.position.byte := by
  have clean : (ofLine ⟨true, true⟩ ⟨1, 0⟩ "1$a\u00a0\"\\\";\",_.1;'").errors = [] := by
    decide +kernel
  exact ⟨clean, by decide +kernel, (ofLine_accounts _ _ _ clean).2.1⟩

/-- A name may go on with the bytes of a numeral that ends right before it. -/
theorem name_behind_numeral :
    ¬ ∀ (rules : NameRules) (start : LineStart) (text : Text),
      (ofLine rules start text).errors = [] → ∀ t ∈ (ofLine rules start text).tokens,
        t.kind = .identifier → ∀ before written after, text = before ++ written ++ after →
          t.position = start.position before.length written.length →
            Run rules.inName written after ∧ ∀ b ∈ before.getLast?, rules.inName b = false := by
  intro claim
  have tokens : (ofLine ⟨true, true⟩ ⟨1, 0⟩ "1$a").errors = [] ∧
      (ofLine ⟨true, true⟩ ⟨1, 0⟩ "1$a").tokens =
        [⟨.literal, LineStart.position ⟨1, 0⟩ 0 1, "1"⟩,
          ⟨.identifier, LineStart.position ⟨1, 0⟩ 1 2, "$a"⟩] := by
    decide +kernel
  have maximal := claim ⟨true, true⟩ ⟨1, 0⟩ "1$a" tokens.1
    ⟨.identifier, LineStart.position ⟨1, 0⟩ 1 2, "$a"⟩ (by rw [tokens.2]; exact .tail _ (.head _))
    rfl "1" "$a" [] rfl rfl
  exact absurd (maximal.2 0x31 rfl) (by decide)

end LineTokens

end Dcpu
