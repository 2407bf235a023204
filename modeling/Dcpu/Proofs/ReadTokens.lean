import Dcpu.Proofs.DecodedText
import Dcpu.Proofs.ExtendedStatement
import Dcpu.Proofs.Grammar

set_option autoImplicit false

namespace Dcpu

theorem Register.isSome_ofName?_iff (name : Text) :
    (ofName? name).isSome = true ↔ ∃ r : Register, name.lower = r.name := by
  have all (r : Register) : r ∈ Register.all := by cases r <;> decide
  simp only [ofName?, List.find?_isSome, beq_iff_eq]
  constructor
  · rintro ⟨r, _, same⟩
    exact ⟨r, same.symm⟩
  · rintro ⟨r, same⟩
    exact ⟨r, all r, same.symm⟩

namespace Layout

variable (layout : Layout) (name : Text)

theorem isSome_special?_iff :
    (layout.special? name).isSome = true ↔ ∃ r, name.lower = layout.specialName r := by
  have all (r : SpecialRegister) : r ∈ SpecialRegister.all := by cases r <;> decide
  simp only [special?, List.find?_isSome, beq_iff_eq]
  constructor
  · rintro ⟨r, _, same⟩
    exact ⟨r, same.symm⟩
  · rintro ⟨r, same⟩
    exact ⟨r, all r, same.symm⟩

end Layout

namespace StatementReader

theorem keyword_iff {t : Token} {word : Text} : keyword t word = true ↔ t.Names word := by
  simp only [keyword, Bool.and_eq_true, beq_iff_eq]
  exact ⟨fun h => ⟨h.1, h.2⟩, fun h => ⟨h.kind, h.lower⟩⟩

theorem registerName?_eq_some {t : Token} {register : RegisterName}
    (found : registerName? t = some register) :
    ∃ r : Register, t.Names r.name ∧ register = ⟨r.name, t.position⟩ := by
  unfold registerName? at found
  split at found
  · rename_i named
    obtain ⟨r, lower⟩ := (Register.isSome_ofName?_iff t.value).1 named.2
    cases found
    exact ⟨r, ⟨named.1, lower⟩, by rw [lower]⟩
  · cases found

theorem not_namesRegister {t : Token} (none : registerName? t = none) : ¬ t.NamesRegister := by
  rintro ⟨r, named⟩
  have some := (Register.isSome_ofName?_iff t.value).2 ⟨r, named.lower⟩
  rw [registerName?, if_pos ⟨named.kind, some⟩] at none
  cases none

variable {reader : StatementReader} {P : Position → Prop} {α β : Type}

def Placed (P : Position → Prop) (tokens : List Token) : Prop := ∀ t ∈ tokens, P t.position

namespace Placed

variable {t : Token} {first rest : List Token}

theorem head (placed : Placed P (t :: rest)) : P t.position := placed t (.head _)

theorem tail (placed : Placed P (t :: rest)) : Placed P rest :=
  fun u member => placed u (.tail _ member)

theorem left (placed : Placed P (first ++ rest)) : Placed P first :=
  fun u member => placed u (List.mem_append_left _ member)

theorem right (placed : Placed P (first ++ rest)) : Placed P rest :=
  fun u member => placed u (List.mem_append_right _ member)

end Placed

/-- Tokens at the front that spell the result were taken, or there is an error at such a place. -/
inductive Takes (P : Position → Prop) (tokens : List Token) (spells : List Token → α → Prop) :
    Except Diagnostic (α × List Token) → Prop
  | ok {front rest : List Token} {a : α} (split : tokens = front ++ rest) (is : spells front a) :
      Takes P tokens spells (.ok (a, rest))
  | error {d : Diagnostic} (placed : P d.position) : Takes P tokens spells (.error d)

namespace Takes

variable {tokens : List Token} {spells : List Token → α → Prop} {spells' : List Token → β → Prop}
  {x : Except Diagnostic (α × List Token)}

theorem pure {a : α} (is : spells [] a) : Takes P tokens spells (.ok (a, tokens)) :=
  .ok (List.nil_append _).symm is

theorem cons {t : Token} (takes : Takes P tokens (fun front a => spells (t :: front) a) x) :
    Takes P (t :: tokens) spells x := by
  cases takes with
  | ok split is => exact .ok (congrArg (t :: ·) split) is
  | error placed => exact .error placed

theorem one {t : Token} {a : α} (is : spells [t] a) :
    Takes P (t :: tokens) spells (.ok (a, tokens)) :=
  .cons (.pure is)

theorem bind {next : α × List Token → Except Diagnostic (β × List Token)}
    (takes : Takes P tokens spells x)
    (after : ∀ front a rest, tokens = front ++ rest → spells front a →
      Takes P rest (fun more b => spells' (front ++ more) b) (next (a, rest))) :
    Takes P tokens spells' (x >>= next) := by
  cases takes with
  | error placed => exact .error placed
  | @ok front rest a split is =>
      have takes := after front a rest split is
      change Takes P tokens spells' (next (a, rest))
      generalize next (a, rest) = result at takes
      cases takes with
      | error placed => exact .error placed
      | ok split' is' =>
          refine .ok ?_ is'
          rw [split, split', List.append_assoc]

theorem imp {spells' : List Token → α → Prop} (takes : Takes P tokens spells x)
    (weaker : ∀ front a, spells front a → spells' front a) : Takes P tokens spells' x := by
  cases takes with
  | ok split is => exact .ok split (weaker _ _ is)
  | error placed => exact .error placed

theorem of_ok {a : α} {rest : List Token} (takes : Takes P tokens spells (.ok (a, rest))) :
    ∃ front, tokens = front ++ rest ∧ spells front a := by
  cases takes with
  | ok split is => exact ⟨_, split, is⟩

end Takes

theorem numeral_cases (reader : StatementReader) {t : Token} (placed : P t.position) :
    (∃ value, Numeral.decode reader.numerals t.value = .ok value ∧
      reader.numeral t = .ok (value : Int)) ∨
    ∃ d, reader.numeral t = .error d ∧ P d.position := by
  rw [numeral]
  split
  · exact .inl ⟨_, by assumption, rfl⟩
  · exact .inr ⟨_, rfl, placed⟩
  · exact .inr ⟨_, rfl, placed⟩

section Walk

variable {tokens : List Token} (atEnd : P reader.lineEnd)
include atEnd

theorem refuse_takes {required : List TokenKind} {spells : List Token → α → Prop}
    (placed : Placed P tokens) : Takes P tokens spells (reader.refuse required tokens) := by
  cases tokens with
  | nil => exact .error atEnd
  | cons t rest => exact .error placed.head

theorem expect_takes {required : List TokenKind} (placed : Placed P tokens) :
    Takes P tokens (fun front t => front = [t] ∧ t.kind ∈ required)
      (reader.expect required tokens) := by
  cases tokens with
  | nil => exact refuse_takes atEnd placed
  | cons t rest =>
      rw [expect]
      split
      · exact .one ⟨rfl, by assumption⟩
      · exact refuse_takes atEnd placed

theorem signedNumber_takes {sign : Token} (signs : sign.kind = .plus ∨ sign.kind = .minus)
    (placed : Placed P (sign :: tokens)) :
    Takes P (sign :: tokens) reader.SpellsAtom (reader.signedNumber sign tokens) := by
  unfold signedNumber
  split
  · rename_i signed
    refine .cons ((expect_takes atEnd placed.tail).bind ?_)
    rintro front digits rest rfl ⟨rfl, numeral⟩
    have numeral := List.mem_singleton.1 numeral
    obtain ⟨value, decodes, read⟩ | ⟨d, failed, there⟩ :=
      numeral_cases reader placed.tail.left.head
    · simp only [read, bind, Except.bind]
      refine .pure ?_
      rcases signs with plus | minus
      · rw [if_neg (by simp [plus])]
        exact .plus signed plus numeral decodes
      · rw [if_pos minus]
        exact .minus signed minus numeral decodes
    · simp only [failed, bind, Except.bind]
      exact .error there
  · exact .error placed.head

theorem atom_takes (placed : Placed P tokens) :
    Takes P tokens reader.SpellsAtom (reader.atom tokens) := by
  induction tokens with
  | nil => exact refuse_takes atEnd placed
  | cons t tokens ih =>
      rw [atom]
      split
      · rename_i tilde
        refine .cons ((ih placed.tail).bind ?_)
        intro front target rest _ spells
        refine .pure ?_
        rw [List.append_nil]
        exact .difference tilde spells
      · exact signedNumber_takes atEnd (.inl ‹_›) placed
      · exact signedNumber_takes atEnd (.inr ‹_›) placed
      · obtain ⟨value, decodes, read⟩ | ⟨d, failed, there⟩ := numeral_cases reader placed.head
        · simp only [read, bind, Except.bind]
          exact .one (.number ‹_› decodes)
        · simp only [failed, bind, Except.bind]
          exact .error there
      · exact .one (.character ‹_›)
      · exact .one (.identifier ‹_›)
      · exact refuse_takes atEnd placed

theorem expression_takes (placed : Placed P tokens) :
    Takes P tokens reader.SpellsWord (reader.expression tokens) := by
  refine (atom_takes atEnd placed).bind ?_
  rintro first head rest rfl base
  dsimp only
  split
  · refine .cons ((atom_takes atEnd placed.right.tail).bind ?_)
    intro second tail rest _ target
    refine .pure ?_
    rw [List.append_nil]
    exact .pair base rfl target
  · refine .pure ?_
    rw [List.append_nil]
    exact .single base

def SpellsInside (reader : StatementReader) (opening : Position) (tokens : List Token)
    (x : Argument) : Prop :=
  ∃ inner closing make, tokens = inner ++ [closing] ∧ closing.kind = .rightBracket ∧
    reader.SpellsLookup inner make ∧ x = make (opening.span closing.position)

theorem closeStack_takes {opening : Position} {access : StackAccess} {offset : Option Expression}
    (inner : List Token) (spells : reader.SpellsLookup inner (.stack access offset))
    (placed : Placed P tokens) :
    Takes P tokens (fun more x => reader.SpellsInside opening (inner ++ more) x)
      (reader.closeStack opening access offset tokens) := by
  refine (expect_takes atEnd placed).bind ?_
  rintro front closing rest _ ⟨rfl, closes⟩
  exact .pure ⟨inner, closing, _, rfl, List.mem_singleton.1 closes, spells, rfl⟩

theorem stackLookup_takes {opening : Position} {sp : Token} (named : sp.Names "sp")
    (placed : Placed P tokens) :
    Takes P tokens (fun more x => reader.SpellsInside opening (sp :: more) x)
      (reader.stackLookup opening tokens) := by
  unfold stackLookup
  split
  · exact closeStack_takes atEnd [sp] (.peek named) placed
  · exact .cons (.cons (closeStack_takes atEnd _ (.increment named rfl rfl) placed.tail.tail))
  · rename_i p v rest single
    refine .cons ((expression_takes atEnd placed.tail).bind ?_)
    rintro front offset rest rfl spells
    refine closeStack_takes atEnd _ (.pick named rfl spells ?_) placed.tail.right
    -- A second plus sign would have made it a pop.
    intro t first plus
    obtain ⟨further, rfl⟩ := List.head?_eq_some_iff.1 first
    obtain ⟨kind, q, w⟩ := t
    obtain rfl : kind = .plus := plus
    exact single q w _ rfl
  · exact refuse_takes atEnd placed

theorem offsetLookup_takes {opening : Position} {register : RegisterName} {sign : OffsetSign}
    (front : List Token)
    (spells : ∀ tokens offset, reader.SpellsWord tokens offset →
      reader.SpellsLookup (front ++ tokens) (.offsetLookup (some register) sign (some offset)))
    (placed : Placed P tokens) :
    Takes P tokens (fun more x => reader.SpellsInside opening (front ++ more) x)
      (reader.offsetLookup opening register sign tokens) := by
  refine (expression_takes atEnd placed).bind ?_
  rintro inner offset rest rfl word
  refine (expect_takes atEnd placed.right).bind ?_
  rintro last closing rest _ ⟨rfl, closes⟩
  refine .pure ⟨front ++ inner, closing, _, ?_, List.mem_singleton.1 closes, spells _ _ word, rfl⟩
  simp

theorem registerLookup_takes {opening : Position} {t : Token} (r : Register)
    (named : t.Names r.name) (placed : Placed P tokens) :
    Takes P tokens (fun more x => reader.SpellsInside opening (t :: more) x)
      (reader.registerLookup opening ⟨r.name, t.position⟩ tokens) := by
  unfold registerLookup
  split
  · exact .one ⟨[t], _, _, rfl, rfl, .register r named, rfl⟩
  · exact .cons (offsetLookup_takes atEnd [t, _]
      (fun _ _ word => .plus r named rfl word) placed.tail)
  · exact .cons (offsetLookup_takes atEnd [t, _]
      (fun _ _ word => .minus r named rfl word) placed.tail)
  · exact refuse_takes atEnd placed

theorem literalLookup_takes {opening : Position}
    (free : ∀ t ∈ tokens.head?, ¬ t.ReservedInside) (placed : Placed P tokens) :
    Takes P tokens (reader.SpellsInside opening) (reader.literalLookup opening tokens) := by
  refine (expression_takes atEnd placed).bind ?_
  rintro inner value rest rfl word
  have starts (t : Token) (first : t ∈ inner.head?) : ¬ t.ReservedInside := by
    refine free t ?_
    obtain ⟨further, rfl⟩ := List.head?_eq_some_iff.1 first
    rfl
  refine (expect_takes atEnd placed.right).bind ?_
  rintro _ sign rest rfl ⟨rfl, expected⟩
  dsimp only
  split
  · rename_i closes
    refine .pure ⟨inner, sign, _, by simp, closes, .word word starts, rfl⟩
  · rename_i open'
    have plus : sign.kind = .plus := by simpa [open'] using expected
    refine (expect_takes atEnd placed.right.right).bind ?_
    rintro _ name rest rfl ⟨rfl, _⟩
    dsimp only
    split
    · exact .error placed.right.right.left.head
    · rename_i register found
      obtain ⟨r, named, rfl⟩ := registerName?_eq_some found
      refine (expect_takes atEnd placed.right.right.right).bind ?_
      rintro _ closing rest _ ⟨rfl, closes⟩
      refine .pure ⟨inner ++ [sign, name], closing, _, by simp, List.mem_singleton.1 closes,
        .wordPlus r word starts plus named, rfl⟩

theorem lookup_takes {opening : Position} (placed : Placed P tokens) :
    Takes P tokens (reader.SpellsInside opening) (reader.lookup opening tokens) := by
  unfold lookup
  split
  · rename_i rest found
    unfold afterDecrement? at found
    split at found
    · split at found
      · rename_i named
        cases found
        exact .cons (.cons (.cons (closeStack_takes atEnd _
          (.decrement rfl rfl (keyword_iff.1 named)) placed.tail.tail.tail)))
      · cases found
    · cases found
  split
  · exact literalLookup_takes atEnd (by simp) placed
  rename_i t rest _
  split
  · rename_i named
    exact .cons (stackLookup_takes atEnd (keyword_iff.1 named) placed.tail)
  rename_i other
  split
  · rename_i register found
    obtain ⟨r, named, rfl⟩ := registerName?_eq_some found
    exact .cons (registerLookup_takes atEnd r named placed.tail)
  · rename_i none
    -- Neither `sp` nor a register stands first, so this is a word.
    refine literalLookup_takes atEnd ?_ placed
    rintro u first
    obtain rfl : t = u := by simpa using first
    rintro (register | sp)
    · exact not_namesRegister none register
    · exact other (keyword_iff.2 sp)

theorem literalArgument_takes (free : ∀ t ∈ tokens.head?, ¬ t.Reserved reader.layout)
    (placed : Placed P tokens) :
    Takes P tokens reader.SpellsArgument (reader.literalArgument tokens) := by
  refine (expression_takes atEnd placed).bind ?_
  rintro front value rest rfl word
  refine .pure ?_
  rw [List.append_nil]
  refine .word word fun t first => free t ?_
  obtain ⟨further, rfl⟩ := List.head?_eq_some_iff.1 first
  rfl

theorem namedArgument_takes {t : Token} (name : t.kind = .identifier)
    (placed : Placed P (t :: tokens)) :
    Takes P (t :: tokens) reader.SpellsArgument (reader.namedArgument t tokens) := by
  have registers := Register.isSome_ofName?_iff t.value.lower
  have specials := reader.layout.isSome_special?_iff t.value.lower
  rw [Text.lower_lower] at registers specials
  simp only [namedArgument]
  split
  · rename_i named
    obtain ⟨r, lower⟩ := registers.1 named
    rw [lower]
    exact .one (.register r ⟨name, lower⟩)
  rename_i noRegister
  split
  · rename_i named
    obtain ⟨r, lower⟩ := specials.1 named
    rw [lower]
    exact .one (.special r ⟨name, lower⟩)
  rename_i noSpecial
  split
  · exact .one (.push ⟨name, ‹_›⟩)
  rename_i noPush
  split
  · exact .one (.pop ⟨name, ‹_›⟩)
  rename_i noPop
  split
  · exact .one (.peek ⟨name, ‹_›⟩)
  rename_i noPeek
  split
  · rename_i named
    refine .cons ((expression_takes atEnd placed.tail).bind ?_)
    intro front offset rest _ word
    refine .pure ?_
    rw [List.append_nil]
    exact .pick ⟨name, named⟩ word
  rename_i noPick
  -- What is left is a word, and its first name is none of those that were tried.
  refine literalArgument_takes atEnd ?_ placed
  intro u first
  obtain rfl : t = u := by simpa using first
  rintro (⟨r, named⟩ | ⟨r, named⟩ | ⟨word, listed, named⟩)
  · exact noRegister (registers.2 ⟨r, named.lower⟩)
  · exact noSpecial (specials.2 ⟨r, named.lower⟩)
  · have lower := named.lower
    simp only [Token.stackWords, List.mem_cons, List.not_mem_nil, or_false] at listed
    rcases listed with rfl | rfl | rfl | rfl <;> contradiction

theorem argument_takes (placed : Placed P tokens) :
    Takes P tokens reader.SpellsArgument (reader.argument tokens) := by
  unfold argument
  split
  · exact namedArgument_takes atEnd rfl placed
  · refine .cons ((lookup_takes atEnd placed.tail).imp ?_)
    rintro _ _ ⟨inner, closing, make, rfl, closes, spells, rfl⟩
    exact .lookup rfl spells closes
  · rename_i noName noBracket
    refine literalArgument_takes atEnd ?_ placed
    intro t first
    obtain ⟨rest, rfl⟩ := List.head?_eq_some_iff.1 first
    obtain ⟨kind, p, v⟩ := t
    have other : kind ≠ .identifier := by
      rintro rfl
      exact noName p v rest rfl
    rintro (⟨r, named⟩ | ⟨r, named⟩ | ⟨word, _, named⟩) <;> exact other named.kind

theorem dataValue_takes (placed : Placed P tokens) :
    Takes P tokens reader.SpellsValue (reader.dataValue tokens) := by
  have word : Takes P tokens reader.SpellsValue (do
      let read ← reader.expression tokens
      return (DataValue.word read.1, read.2)) := by
    refine (expression_takes atEnd placed).bind ?_
    intro front value rest _ spells
    refine .pure ?_
    rw [List.append_nil]
    exact .word spells
  unfold dataValue
  split
  · exact .one (.string rfl)
  · split
    · exact .one (.lengthMarker rfl)
    · exact word
  · exact word

end Walk

end StatementReader

end Dcpu
