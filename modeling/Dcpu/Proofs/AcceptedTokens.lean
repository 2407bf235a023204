import Dcpu.Proofs.ParseLine
import Dcpu.Proofs.ReadStatement

set_option autoImplicit false

namespace Dcpu

namespace StatementReader

variable {reader : StatementReader} {front rest : List Token}

theorem registerName?_of_names {t : Token} {r : Register} (named : t.Names r.name) :
    registerName? t = some ⟨r.name, t.position⟩ := by
  have some := (Register.isSome_ofName?_iff t.value).2 ⟨r, named.lower⟩
  rw [registerName?, if_pos ⟨named.kind, some⟩, named.lower]

theorem registerName?_eq_none {t : Token} (other : ¬ t.NamesRegister) :
    registerName? t = none := by
  rw [registerName?, if_neg]
  rintro ⟨name, some⟩
  obtain ⟨r, lower⟩ := (Register.isSome_ofName?_iff t.value).1 some
  exact other ⟨r, name, lower⟩

theorem keyword_eq_false {t : Token} {word : Text} (other : ¬ t.Names word) :
    keyword t word = false :=
  Bool.eq_false_iff.2 fun named => other (keyword_iff.1 named)

theorem not_names_sp {t : Token} {r : Register} (named : t.Names r.name) : ¬ t.Names "sp" := by
  intro sp
  have same := named.lower.symm.trans sp.lower
  revert same
  cases r <;> decide

theorem expect_of_kind (reader : StatementReader) (rest : List Token) {required : List TokenKind}
    {t : Token} (expected : t.kind ∈ required) :
    reader.expect required (t :: rest) = .ok (t, rest) := by
  rw [expect, if_pos expected]

theorem numeral_of_decode {t : Token} {value : Nat}
    (decodes : Numeral.decode reader.numerals t.value = .ok value) :
    reader.numeral t = .ok (value : Int) := by
  rw [numeral, decodes]

theorem SpellsAtom.read {a : Atom} (spells : reader.SpellsAtom front a) (rest : List Token) :
    reader.atom (front ++ rest) = .ok (a, rest) := by
  induction spells with
  | difference tilde _ ih =>
      simp only [List.cons_append, atom, tilde, ih, bind, Except.bind, pure, Except.pure]
  | plus signed plus numeral decodes =>
      have read := numeral_of_decode decodes
      have digits := reader.expect_of_kind rest (List.mem_singleton.2 numeral)
      simp only [List.cons_append, List.nil_append, atom, plus, signedNumber, signed, if_true,
        digits, read, bind, Except.bind, pure, Except.pure]
      rfl
  | minus signed minus numeral decodes =>
      have read := numeral_of_decode decodes
      have digits := reader.expect_of_kind rest (List.mem_singleton.2 numeral)
      simp only [List.cons_append, List.nil_append, atom, minus, signedNumber, signed, if_true,
        digits, read, bind, Except.bind, pure, Except.pure]
  | number numeral decodes =>
      simp only [List.cons_append, List.nil_append, atom, numeral, numeral_of_decode decodes, bind,
        Except.bind, pure, Except.pure]
  | character character => simp only [List.cons_append, List.nil_append, atom, character]
  | identifier name => simp only [List.cons_append, List.nil_append, atom, name]

theorem SpellsWord.read {e : Expression} (spells : reader.SpellsWord front e)
    (stops : Stops rest) : reader.expression (front ++ rest) = .ok (e, rest) := by
  cases spells with
  | single spells =>
      simp only [expression, spells.read rest, bind, Except.bind]
      split
      · exact absurd rfl (stops _ rfl)
      · rfl
  | @pair first second t head tail base tilde target =>
      obtain ⟨kind, p, v⟩ := t
      obtain rfl : kind = .tilde := tilde
      rw [List.append_assoc, List.cons_append]
      simp only [expression, base.read, target.read, bind, Except.bind, pure, Except.pure]

def starters : List TokenKind := [.tilde, .plus, .minus, .literal, .character, .identifier]

theorem SpellsAtom.head {a : Atom} (spells : reader.SpellsAtom front a) :
    ∃ t further, front = t :: further ∧ t.kind ∈ starters := by
  cases spells with
  | difference tilde _ => exact ⟨_, _, rfl, by simp [tilde, starters]⟩
  | plus _ plus _ _ => exact ⟨_, _, rfl, by simp [plus, starters]⟩
  | minus _ minus _ _ => exact ⟨_, _, rfl, by simp [minus, starters]⟩
  | number numeral _ => exact ⟨_, _, rfl, by simp [numeral, starters]⟩
  | character character => exact ⟨_, _, rfl, by simp [character, starters]⟩
  | identifier name => exact ⟨_, _, rfl, by simp [name, starters]⟩

theorem SpellsWord.head {e : Expression} (spells : reader.SpellsWord front e) :
    ∃ t further, front = t :: further ∧ t.kind ∈ starters := by
  cases spells with
  | single spells => exact spells.head
  | pair base tilde target =>
      obtain ⟨t, further, rfl, starts⟩ := base.head
      exact ⟨t, _, rfl, starts⟩

theorem stops_bracket {closing : Token} (closes : closing.kind = .rightBracket) :
    Stops (closing :: rest) := by
  simp [Stops, closes]

theorem SpellsWord.exists_atom {e : Expression} (spells : reader.SpellsWord front e)
    (rest : List Token) : ∃ a left, reader.atom (front ++ rest) = .ok (a, left) := by
  cases spells with
  | single spells => exact ⟨_, _, spells.read rest⟩
  | pair base _ _ =>
      rw [List.append_assoc]
      exact ⟨_, _, base.read _⟩

theorem SpellsWord.not_decrement {e : Expression} (spells : reader.SpellsWord front e)
    (rest : List Token) : afterDecrement? (front ++ rest) = none := by
  obtain ⟨a, left, read⟩ := spells.exists_atom rest
  generalize front ++ rest = tokens at read
  unfold afterDecrement?
  split
  · simp only [atom, signedNumber, expect, List.mem_singleton, reduceCtorEq, if_false] at read
    split at read
    · simp [refuse, reject, bind, Except.bind] at read
    · simp [reject] at read
  · rfl

theorem lookup_of_word {opening : Position} {e : Expression} (spells : reader.SpellsWord front e)
    (free : ∀ t ∈ front.head?, ¬ t.ReservedInside) (rest : List Token) :
    reader.lookup opening (front ++ rest) = reader.literalLookup opening (front ++ rest) := by
  have decrement := spells.not_decrement rest
  obtain ⟨t, further, rfl, _⟩ := spells.head
  have free := free t rfl
  have register := registerName?_eq_none fun named => free (.inl named)
  have sp := keyword_eq_false fun named => free (.inr named)
  rw [List.cons_append] at decrement ⊢
  simp only [lookup, decrement, sp, register, Bool.false_eq_true, if_false]

theorem lookup_of_sp {opening : Position} {t : Token} (named : t.Names "sp")
    (rest : List Token) :
    reader.lookup opening (t :: rest) = reader.stackLookup opening rest := by
  have sp := keyword_iff.2 named
  obtain ⟨kind, p, v⟩ := t
  obtain rfl : kind = .identifier := named.kind
  simp only [lookup, afterDecrement?, sp, if_true]

theorem lookup_of_register {opening : Position} {t : Token} {r : Register}
    (named : t.Names r.name) (rest : List Token) :
    reader.lookup opening (t :: rest) =
      reader.registerLookup opening ⟨r.name, t.position⟩ rest := by
  have sp := keyword_eq_false (not_names_sp named)
  have register := registerName?_of_names named
  obtain ⟨kind, p, v⟩ := t
  obtain rfl : kind = .identifier := named.kind
  simp only [lookup, afterDecrement?, sp, register, Bool.false_eq_true, if_false]

theorem closeStack_of_bracket {opening : Position} {access : StackAccess}
    {offset : Option Expression} {closing : Token} (closes : closing.kind = .rightBracket)
    (rest : List Token) :
    reader.closeStack opening access offset (closing :: rest) =
      .ok (.stack access offset (opening.span closing.position), rest) := by
  simp only [closeStack, reader.expect_of_kind rest (List.mem_singleton.2 closes), bind,
    Except.bind, pure, Except.pure]

theorem offsetLookup_of_word {opening : Position} {register : RegisterName} {sign : OffsetSign}
    {offset : Expression} {closing : Token} (spells : reader.SpellsWord front offset)
    (closes : closing.kind = .rightBracket) (rest : List Token) :
    reader.offsetLookup opening register sign (front ++ closing :: rest) =
      .ok (.offsetLookup (some register) sign (some offset) (opening.span closing.position),
        rest) := by
  simp only [offsetLookup, spells.read (stops_bracket closes),
    reader.expect_of_kind rest (List.mem_singleton.2 closes), bind, Except.bind, pure,
    Except.pure]

theorem SpellsLookup.read {make : Position → Argument} (spells : reader.SpellsLookup front make)
    {closing : Token} (closes : closing.kind = .rightBracket) (opening : Position)
    (rest : List Token) :
    reader.lookup opening (front ++ closing :: rest) =
      .ok (make (opening.span closing.position), rest) := by
  cases spells with
  | @decrement first second sp minus minus' named =>
      obtain ⟨_, _, _⟩ := first
      obtain ⟨_, _, _⟩ := second
      obtain rfl := minus
      obtain rfl := minus'
      simp only [List.cons_append, List.nil_append, lookup, afterDecrement?, keyword_iff.2 named,
        if_true]
      exact closeStack_of_bracket closes rest
  | peek named =>
      rw [List.cons_append, List.nil_append, lookup_of_sp named]
      obtain ⟨kind, p, v⟩ := closing
      obtain rfl : kind = .rightBracket := closes
      exact closeStack_of_bracket rfl rest
  | @increment sp first second named plus plus' =>
      obtain ⟨_, _, _⟩ := first
      obtain ⟨_, _, _⟩ := second
      obtain rfl := plus
      obtain rfl := plus'
      rw [List.cons_append, lookup_of_sp named]
      exact closeStack_of_bracket closes rest
  | @pick sp sign tokens offset named plus spells single =>
      obtain ⟨_, q, w⟩ := sign
      obtain rfl := plus
      rw [List.cons_append, lookup_of_sp named, List.cons_append]
      -- Only one plus sign stands here, so this is not a pop.
      have other : ∀ p v further, tokens ++ closing :: rest ≠ ⟨.plus, p, v⟩ :: further := by
        intro p v further same
        obtain ⟨t, behind, rfl, _⟩ := spells.head
        obtain ⟨rfl, _⟩ := List.cons.inj same
        exact single _ rfl rfl
      rw [stackLookup.eq_3 reader opening q w _ other, spells.read (stops_bracket closes)]
      exact closeStack_of_bracket closes rest
  | register r named =>
      rw [List.cons_append, List.nil_append, lookup_of_register named]
      obtain ⟨kind, p, v⟩ := closing
      obtain rfl : kind = .rightBracket := closes
      rfl
  | @plus t sign tokens offset r named plus spells =>
      obtain ⟨_, q, w⟩ := sign
      obtain rfl := plus
      rw [List.cons_append, lookup_of_register named]
      exact offsetLookup_of_word spells closes rest
  | @minus t sign tokens offset r named minus spells =>
      obtain ⟨_, q, w⟩ := sign
      obtain rfl := minus
      rw [List.cons_append, lookup_of_register named]
      exact offsetLookup_of_word spells closes rest
  | word spells free =>
      have bracket : reader.expect [.plus, .rightBracket] (closing :: rest) = .ok (closing, rest) :=
        reader.expect_of_kind rest (by simp [closes])
      rw [lookup_of_word spells free]
      simp only [literalLookup, spells.read (stops_bracket closes), bracket, closes, if_true, bind,
        Except.bind, pure, Except.pure]
  | @wordPlus tokens value sign t r spells free plus named =>
      have word : reader.expression (tokens ++ sign :: t :: closing :: rest) =
          .ok (value, sign :: t :: closing :: rest) :=
        spells.read (by simp [Stops, plus])
      have signs : reader.expect [.plus, .rightBracket] (sign :: t :: closing :: rest) =
          .ok (sign, t :: closing :: rest) :=
        reader.expect_of_kind _ (by simp [plus])
      have name := reader.expect_of_kind (closing :: rest) (List.mem_singleton.2 named.kind)
      have bracket := reader.expect_of_kind rest (List.mem_singleton.2 closes)
      rw [List.append_assoc, lookup_of_word spells free, List.cons_append, List.cons_append,
        List.nil_append]
      simp only [literalLookup, word, signs, plus, name, registerName?_of_names named, bracket,
        bind, Except.bind, pure, Except.pure, reduceCtorEq, if_false]

theorem namedArgument_of_free {t : Token} (name : t.kind = .identifier)
    (free : ¬ t.Reserved reader.layout) (rest : List Token) :
    reader.namedArgument t rest = reader.literalArgument (t :: rest) := by
  have register : ¬ (Register.ofName? t.value.lower).isSome = true := by
    rw [Register.isSome_ofName?_iff, Text.lower_lower]
    rintro ⟨r, lower⟩
    exact free (.inl ⟨r, name, lower⟩)
  have special : ¬ (reader.layout.special? t.value.lower).isSome = true := by
    rw [Layout.isSome_special?_iff, Text.lower_lower]
    rintro ⟨r, lower⟩
    exact free (.inr (.inl ⟨r, name, lower⟩))
  have word (word : Text) (listed : word ∈ Token.stackWords) : t.value.lower ≠ word :=
    fun lower => free (.inr (.inr ⟨word, listed, name, lower⟩))
  simp only [namedArgument, if_neg register, if_neg special, word "push" (by decide),
    word "pop" (by decide), word "peek" (by decide), word "pick" (by decide), if_false]

theorem literalArgument_of_spells {e : Expression} (spells : reader.SpellsWord front e)
    (stops : Stops rest) :
    reader.literalArgument (front ++ rest) = .ok (.literal (some e) e.position, rest) := by
  simp only [literalArgument, spells.read stops, bind, Except.bind, pure, Except.pure]

theorem SpellsArgument.read {x : Argument} (spells : reader.SpellsArgument front x)
    (stops : Stops rest) : reader.argument (front ++ rest) = .ok (x, rest) := by
  have stack (word : Text) := stack_words reader.layout word
  cases spells with
  | @register t r named =>
      obtain ⟨kind, p, v⟩ := t
      obtain ⟨rfl, lower⟩ := named
      dsimp only at lower
      simp [argument, namedArgument, lower, r.ofName?_name]
  | @special t r named =>
      obtain ⟨kind, p, v⟩ := t
      obtain ⟨rfl, lower⟩ := named
      dsimp only at lower
      simp [argument, namedArgument, lower, reader.layout.ofName?_specialName,
        reader.layout.special?_specialName]
  | @push t named =>
      obtain ⟨kind, p, v⟩ := t
      obtain ⟨rfl, lower⟩ := named
      obtain ⟨_, register, special⟩ := stack "push" (by decide)
      dsimp only at lower
      simp [argument, namedArgument, lower, register, special]
  | @pop t named =>
      obtain ⟨kind, p, v⟩ := t
      obtain ⟨rfl, lower⟩ := named
      obtain ⟨_, register, special⟩ := stack "pop" (by decide)
      have other : ("pop" : Text) ≠ "push" := by decide
      dsimp only at lower
      simp [argument, namedArgument, lower, register, special, other]
  | @peek t named =>
      obtain ⟨kind, p, v⟩ := t
      obtain ⟨rfl, lower⟩ := named
      obtain ⟨_, register, special⟩ := stack "peek" (by decide)
      have others : ("peek" : Text) ≠ "push" ∧ ("peek" : Text) ≠ "pop" := by decide
      dsimp only at lower
      simp [argument, namedArgument, lower, register, special, others]
  | @pick t tokens offset named spells =>
      obtain ⟨kind, p, v⟩ := t
      obtain ⟨rfl, lower⟩ := named
      obtain ⟨_, register, special⟩ := stack "pick" (by decide)
      have others : ("pick" : Text) ≠ "push" ∧ ("pick" : Text) ≠ "pop" ∧ ("pick" : Text) ≠ "peek" :=
        by decide
      dsimp only at lower
      simp [argument, namedArgument, lower, register, special, others, spells.read stops, bind,
        Except.bind, pure, Except.pure]
  | @lookup opening closing tokens make opens spells closes =>
      obtain ⟨kind, p, v⟩ := opening
      obtain rfl : kind = .leftBracket := opens
      rw [List.cons_append, List.append_assoc]
      exact spells.read closes p rest
  | @word tokens value spells free =>
      -- A word that starts with none of the names above is not taken for one of them.
      have read := literalArgument_of_spells spells stops
      obtain ⟨t, further, rfl, starts⟩ := spells.head
      have free := free t rfl
      obtain ⟨kind, p, v⟩ := t
      rw [List.cons_append] at read ⊢
      cases kind with
      | identifier => exact (namedArgument_of_free rfl free _).trans read
      | leftBracket => exact absurd starts (by decide : TokenKind.leftBracket ∉ starters)
      | _ => exact read

theorem valueEnds_of_comma {separator : Token} (comma : separator.kind = .comma) :
    valueEnds (separator :: rest) = true := by
  rw [valueEnds, comma]
  rfl

theorem valueEnds_of_atom {tokens : List Token} {a : Atom}
    (read : reader.atom tokens = .ok (a, rest)) : valueEnds tokens = false := by
  cases tokens with
  | nil => exact absurd read (refuse_ne_ok reader)
  | cons t further =>
      by_contra comma
      have comma : t.kind = .comma := by simpa [valueEnds] using comma
      simp only [atom, comma] at read
      exact refuse_ne_ok reader read

theorem stops_of_valueEnds (ends : valueEnds rest = true) : Stops rest := by
  cases rest with
  | nil => exact stops_nil
  | cons t further =>
      have comma : t.kind = .comma := by simpa [valueEnds] using ends
      simp [Stops, comma]

theorem SpellsValue.read {value : DataValue} (spells : reader.SpellsValue front value)
    (ends : valueEnds rest = true) : reader.dataValue (front ++ rest) = .ok (value, rest) := by
  cases spells with
  | @string t string =>
      obtain ⟨kind, p, v⟩ := t
      obtain rfl : kind = .string := string
      rfl
  | @lengthMarker t tilde =>
      obtain ⟨kind, p, v⟩ := t
      obtain rfl : kind = .tilde := tilde
      simp only [List.cons_append, List.nil_append, dataValue, ends, if_true]
  | @word tokens e spells =>
      have read := spells.read (stops_of_valueEnds ends)
      have whole : (do
          let read ← reader.expression (front ++ rest)
          return (DataValue.word read.1, read.2)) = Except.ok (DataValue.word e, rest) := by
        simp only [read, bind, Except.bind, pure, Except.pure]
      obtain ⟨t, further, rfl, starts⟩ := spells.head
      obtain ⟨kind, p, v⟩ := t
      rw [List.cons_append] at read whole ⊢
      cases kind with
      | string => exact absurd starts (by decide : TokenKind.string ∉ starters)
      | tilde =>
          -- A lone tilde is no word, so something other than a comma stands behind it.
          have more : valueEnds (further ++ rest) = false := by
            obtain ⟨a, left, read⟩ := spells.exists_atom rest
            obtain ⟨⟨target, left⟩, inner, _⟩ := bind_eq_ok.1 read
            exact valueEnds_of_atom inner
          simp only [dataValue, more, Bool.false_eq_true, if_false]
          exact whole
      | _ => exact whole

end StatementReader

end Dcpu
