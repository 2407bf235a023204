import Dcpu.Proofs.EncodeValue
import Dcpu.Proofs.OperandCode

set_option autoImplicit false

namespace Dcpu

namespace Program

/-- A code word gets its value when everything has been written. -/
def Settles (p : Program) (code : Code) (value : SymbolTable → Word) : Prop :=
  ∀ symbols differences, Completes symbols differences p →
    code.evaluate symbols differences differences.size = .ok (value symbols)

structure Stands (p q : Program) (kept : Nat) (here : Word) (part : Part) : Prop where
  indexed : ∀ name ∈ part.names, q.symbols.names[q.qualify name]? = some (q.indexOf name)
  settles : q.Settles (part.code q.indexOf kept) fun symbols =>
    part.word (p.environment symbols) here

section Stands

variable {p q r : Program} {names : List (Text × Position)} {count kept : Nat} {codes : List Code}
  {here : Word} {part : Part}

theorem Yields.settles {code : Code} {depth : Nat} {value : SymbolTable → Word}
    (yields : p.Yields code depth value) (within : depth ≤ p.differences.size) :
    p.Settles code value := by
  intro symbols differences completes
  have size := completes.kept.length_le
  simp only [Array.length_toList] at size
  exact yields symbols differences completes _ (Nat.le_trans within size)

theorem Stands.code_eq (stands : Stands p q kept here part) (wrote : Wrote q names count codes r) :
    part.code r.indexOf kept = part.code q.indexOf kept :=
  part.code_congr (fun name member => wrote.indexOf_eq (stands.indexed name member)) kept

theorem Stands.after (stands : Stands p q kept here part) (wrote : Wrote q names count codes r) :
    Stands p r kept here part where
  indexed name member := by
    have found := stands.indexed name member
    rw [wrote.indexOf_eq found, wrote.qualify_eq, wrote.symbols]
    exact SymbolTable.names_noteAll found
  settles symbols differences completes := by
    rw [stands.code_eq wrote]
    exact stands.settles symbols differences (completes.before wrote)

theorem Stands.of_environment {p' : Program} (stands : Stands p q kept here part)
    (same : p.environment = p'.environment) : Stands p' q kept here part where
  indexed := stands.indexed
  settles := same ▸ stands.settles

end Stands

end Program

namespace EncodingRules

open Program

variable {p q : Program} {kept earlier : Nat}

theorem Encoded.tail {e : Expression} {code : Code} (encoded : Encoded p e (code, q))
    (counted : p.differences.size = kept + earlier) (negated : Bool) :
    (if negated then code.negate else code) = Part.code q.indexOf kept (.tail e negated earlier) ∧
      Stands p q kept p.address (.tail e negated earlier) := by
  obtain ⟨wrote, same, yields⟩ := encoded
  dsimp only at wrote same yields
  have settles := yields.settles (by rw [wrote.differences_size]; omega)
  rw [counted] at same
  subst same
  refine ⟨rfl, fun name member => wrote.indexed member, fun symbols differences completes => ?_⟩
  cases negated with
  | false => exact settles symbols differences completes
  | true =>
      exact Code.evaluate_negate _ _ (Expression.code_negated _ _ _)
        (settles symbols differences completes)

theorem register_outcome (name : Text) (position : Position) :
    Outcome ((Register.ofName? name).isSome = true)
      (fun result : Register × Program => result = (Argument.registerOf name, p))
      ((register name position : Writer Register) p) := by
  rw [register, Argument.registerOf]
  cases Register.ofName? name with
  | some r => exact .ok rfl rfl
  | none => exact .error (by simp)

/-- What encoding an operand comes to, if its statement has kept so many differences before. -/
structure ArgumentEncoded (layout : Layout) (slot : Slot) (kept earlier : Nat) (p : Program)
    (argument : Argument) (result : (Word × Option Code) × Program) : Prop where
  wrote : Wrote p argument.names argument.differenceCount [] result.2
  code : result.1.1 = (argument.fields layout slot earlier).1
  tail : result.1.2.toList =
    (argument.fields layout slot earlier).2.map (Part.code result.2.indexOf kept)
  stands : ∀ part ∈ (argument.fields layout slot earlier).2,
    Stands p result.2 kept p.address part

namespace ArgumentEncoded

variable {layout : Layout} {slot : Slot} {argument : Argument} {code : Word}

theorem alone (plain : argument.value? = none)
    (fields : argument.fields layout slot earlier = (code, [])) :
    ArgumentEncoded layout slot kept earlier p argument ((code, none), p) where
  wrote := by
    rw [Argument.names, Argument.differenceCount, plain]
    exact .refl p
  code := by rw [fields]
  tail := by rw [fields]; rfl
  stands := by rw [fields]; simp

theorem withTail {e : Expression} {word : Code} (valued : argument.value? = some e) (negated : Bool)
    (fields : argument.fields layout slot earlier = (code, [.tail e negated earlier]))
    (encoded : Encoded p e (word, q)) (counted : p.differences.size = kept + earlier) :
    ArgumentEncoded layout slot kept earlier p argument
      ((code, some (if negated then word.negate else word)), q) where
  wrote := by
    rw [Argument.names, Argument.differenceCount, valued]
    exact encoded.1
  code := by rw [fields]
  tail := by
    rw [fields, (encoded.tail counted negated).1]
    rfl
  stands := by
    rw [fields]
    simpa using (encoded.tail counted negated).2

end ArgumentEncoded

theorem code_of_plain {e : Expression} {n : Int} (plain : e.plain? = some n) (index : Text → Nat)
    (kept : Nat) : e.code index kept = .literal (Word.ofInt n) := by
  obtain ⟨head, _ | tail, position⟩ := e
  · cases head <;> simp_all [Expression.plain?, Atom.plain?, Expression.code, Atom.code]
  · simp [Expression.plain?] at plain

theorem kind_of_not_plain {rules : EncodingRules} {e : Expression} (plain : e.plain? = none)
    (formed : e.WellFormed rules) (index : Text → Nat) (kept : Nat) :
    (e.code index kept).kind ≠ .literal := by
  obtain ⟨head, _ | tail, position⟩ := e
  · cases head with
    | number _ _ => simp [Expression.plain?, Atom.plain?] at plain
    | character _ _ => simp [Expression.plain?, Atom.plain?] at plain
    | identifier _ _ => simp [Expression.code, Atom.code, Code.label]
    | difference _ _ => simp [Expression.code, Atom.code, Code.difference]
    | absent => exact absurd formed.1 id
  · simp [Expression.code, Code.difference]

theorem literalArgument_outcome (rules : EncodingRules) (slot : Slot) (e : Expression)
    (position : Position) (valid : p.symbols.Valid) (counted : p.differences.size = kept + earlier) :
    Outcome (e.WellFormed rules ∧ p.Fits e.names)
      (ArgumentEncoded rules.layout slot kept earlier p (.literal (some e) position))
      ((rules.literalArgument (some e) slot : Writer (Word × Option Code)) p) := by
  refine ((expression_outcome rules e valid).bind True ?_).of_iff (and_iff_left trivial)
  rintro ⟨word, q⟩ ⟨formed, _⟩ encoded
  obtain rfl : word = e.code q.indexOf p.differences.size := encoded.2.1
  have long (unfolded : e.foldedCode? rules.layout slot = none) :
      ArgumentEncoded rules.layout slot kept earlier p (.literal (some e) position)
        ((Layout.literalCode, some (e.code q.indexOf p.differences.size)), q) :=
    ArgumentEncoded.withTail rfl false (by simp [Argument.fields, unfolded]) encoded counted
  dsimp only
  -- Only a plain literal can move into the operand code.
  cases plain : e.plain? with
  | none =>
      rw [if_neg fun whole => kind_of_not_plain plain formed _ _ whole.1]
      exact .ok trivial (long (by simp [Expression.foldedCode?, plain]))
  | some n =>
      rw [code_of_plain plain] at long ⊢
      by_cases room : rules.layout.canFold slot = true
      · rw [if_pos ⟨rfl, rfl, room⟩]
        have folded : e.foldedCode? rules.layout slot =
            rules.layout.shortCode? (Code.literal (Word.ofInt n)).value := by
          simp [Expression.foldedCode?, plain, room, Code.literal]
        cases short : rules.layout.shortCode? (Code.literal (Word.ofInt n)).value with
        | none => exact .ok trivial (long (folded.trans short))
        | some code =>
            have fields : Argument.fields rules.layout slot earlier (.literal (some e) position) =
                (code, []) := by
              simp [Argument.fields, folded, short]
            exact .ok trivial ⟨encoded.1, by rw [fields], by rw [fields]; rfl, by rw [fields]; simp⟩
      · rw [if_neg fun whole => room whole.2.2]
        exact .ok trivial (long (by simp [Expression.foldedCode?, plain, room]))

theorem argument_outcome (rules : EncodingRules) (slot : Slot) (argument : Argument)
    (valid : p.symbols.Valid) (counted : p.differences.size = kept + earlier) :
    Outcome (argument.WellFormed rules ∧ p.Fits argument.names)
      (ArgumentEncoded rules.layout slot kept earlier p argument)
      ((rules.argument slot (some argument) : Writer (Word × Option Code)) p) := by
  -- An operand without a value needs room for no names.
  have room : p.Fits [] := valid.size_le
  cases argument with
  | register name position =>
      refine ((register_outcome name position).bind True ?_).of_iff ?_
      · rintro _ _ rfl
        exact .ok trivial (.alone rfl rfl)
      · exact and_congr Iff.rfl (iff_of_true trivial room)
  | special name position =>
      rw [EncodingRules.argument]
      cases known : rules.layout.special? name with
      | none => exact .error fun both => by simp [Argument.WellFormed, known] at both
      | some r =>
          exact .ok ⟨by simp [Argument.WellFormed, known], room⟩
            (.alone rfl (by simp [Argument.fields, known]))
  | lookup named position =>
      cases named with
      | none => exact .error fun both => by simp [Argument.WellFormed] at both
      | some named =>
          refine ((register_outcome named.name position).bind True ?_).of_iff ?_
          · rintro _ _ rfl
            exact .ok trivial (.alone rfl rfl)
          · exact and_congr (by simp [Argument.WellFormed, Argument.Known]) (iff_of_true trivial room)
  | offsetLookup named sign offset position =>
      cases named with
      | none => exact .error fun both => by simp [Argument.WellFormed] at both
      | some named =>
          cases offset with
          | none => exact .error fun both => by simp [Argument.WellFormed] at both
          | some e =>
              refine ((register_outcome named.name position).bind
                (e.WellFormed rules ∧ p.Fits e.names) ?_).of_iff ?_
              · rintro _ _ rfl
                refine ((expression_outcome rules e valid).bind True ?_).of_iff (and_iff_left trivial)
                rintro ⟨word, q⟩ _ encoded
                -- An offset that is subtracted is the negative of its word.
                have result : ArgumentEncoded rules.layout slot kept earlier p
                    (.offsetLookup (some named) sign (some e) position)
                    ((_, some (if decide (sign = .minus) then word.negate else word)), q) :=
                  .withTail rfl _ rfl encoded counted
                exact .ok trivial (by simpa using result)
              · simp [Argument.WellFormed, Argument.Known, Argument.names, Argument.value?, and_assoc]
  | stack access offset position =>
      cases access with
      | push => exact .ok ⟨trivial, room⟩ (.alone rfl rfl)
      | pop => exact .ok ⟨trivial, room⟩ (.alone rfl rfl)
      | peek => exact .ok ⟨trivial, room⟩ (.alone rfl rfl)
      | unknown => exact .error fun both => both.1
      | pick =>
          change Outcome _ _ ((rules.stackArgument .pick offset position :
            Writer (Word × Option Code)) p)
          rw [stackArgument]
          cases picked : rules.layout.pickCode? with
          | none =>
              refine .error fun both => ?_
              simp [Argument.WellFormed, Layout.hasPick, picked] at both
          | some code =>
              cases offset with
              | none => exact .error fun both => by simp [Argument.WellFormed] at both
              | some e =>
                  refine ((expression_outcome rules e valid).bind True ?_).of_iff ?_
                  · rintro ⟨word, q⟩ _ encoded
                    exact .ok trivial (.withTail rfl false
                      (by simp [Argument.fields, picked]) encoded counted)
                  · simp [Argument.WellFormed, Layout.hasPick, picked, Argument.names,
                      Argument.value?]
  | literal value position =>
      cases value with
      | none => exact .error fun both => by simp [Argument.WellFormed] at both
      | some e =>
          exact (literalArgument_outcome rules slot e position valid counted).of_iff
            (by simp [Argument.WellFormed, Argument.names, Argument.value?])
  | literalLookup value position =>
      cases value with
      | none => exact .error fun both => by simp [Argument.WellFormed] at both
      | some e =>
          refine ((expression_outcome rules e valid).bind True ?_).of_iff ?_
          · rintro ⟨word, q⟩ _ encoded
            exact .ok trivial (.withTail rfl false rfl encoded counted)
          · simp [Argument.WellFormed, Argument.names, Argument.value?]

end EncodingRules

end Dcpu
