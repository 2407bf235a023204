import Dcpu.Proofs.EncodeArgument

set_option autoImplicit false

namespace Dcpu

namespace Program

variable {p q : Program} {kept : Nat} {here : Word}

theorem wrote_write (p : Program) (word : Code) :
    Wrote p [] 0 [word] { p with code := p.code.push word } where
  symbols := rfl
  differences := ⟨[], rfl, by simp⟩
  code := by simp
  localLabels := rfl
  scope := rfl

theorem writeTail_ok (p : Program) (tail : Option Code) :
    ∃ q, (EncodingRules.writeTail tail : Writer Unit) p = .ok ((), q) ∧
      Wrote p [] 0 tail.toList q := by
  cases tail with
  | none => exact ⟨p, rfl, .refl p⟩
  | some word => exact ⟨_, rfl, wrote_write p word⟩

theorem writeTails_ok (p : Program) (first second : Option Code) :
    ∃ q, ((do
        EncodingRules.writeTail first
        EncodingRules.writeTail second) : Writer Unit) p = .ok ((), q) ∧
      Wrote p [] 0 (first.toList ++ second.toList) q := by
  obtain ⟨q, ran, wrote⟩ := writeTail_ok p first
  obtain ⟨r, ran', wrote'⟩ := writeTail_ok q second
  refine ⟨r, ?_, wrote.trans wrote'⟩
  rw [← ran']
  change (EncodingRules.writeTail first : Writer Unit) p >>= _ = _
  rw [ran]
  rfl

theorem map_code_eq {parts : List Part} (stands : ∀ part ∈ parts, Stands p q kept here part)
    {r : Program} {names : List (Text × Position)} {count : Nat} {codes : List Code}
    (wrote : Wrote q names count codes r) :
    parts.map (Part.code r.indexOf kept) = parts.map (Part.code q.indexOf kept) :=
  List.map_congr_left fun part member => (stands part member).code_eq wrote

theorem Wrote.address_eq {codes : List Code} {names : List (Text × Position)} {count : Nat}
    (wrote : Wrote p names count codes q) :
    q.address = p.address + codes.length.toUInt16 := by
  simp only [Program.address, wrote.code_size, Nat.toUInt16_eq, UInt16.ofNat_add]

/-- Words were written that get the values of these parts of a statement at an address. -/
structure Written (kept : Nat) (here : Word) (p : Program) (names : List (Text × Position))
    (count : Nat) (parts : List Part) (q : Program) : Prop where
  wrote : Wrote p names count (parts.map (Part.code q.indexOf kept)) q
  stands : ∀ part ∈ parts, Stands p q kept here part

theorem Written.trans {r : Program} {names names' : List (Text × Position)} {count count' : Nat}
    {parts parts' : List Part} (first : Written kept here p names count parts q)
    (second : Written kept here q names' count' parts' r) :
    Written kept here p (names ++ names') (count + count') (parts ++ parts') r where
  wrote := by
    rw [List.map_append, map_code_eq first.stands second.wrote]
    exact first.wrote.trans second.wrote
  stands part member := by
    rcases List.mem_append.1 member with inFirst | inSecond
    · exact (first.stands part inFirst).after second.wrote
    · exact (second.stands part inSecond).of_environment first.wrote.environment_eq

theorem Written.refl (p : Program) : Written kept here p [] 0 [] p := ⟨.refl p, by simp⟩

theorem written_literal (p : Program) (word : Word) :
    Written kept here p [] 0 [.literal word] { p with code := p.code.push (.literal word) } := by
  refine ⟨wrote_write p _, fun part member => ?_⟩
  obtain rfl := List.mem_singleton.1 member
  exact ⟨by simp [Part.names], fun _ _ _ => Code.evaluate_literal _ _ _ _⟩

theorem writeUnits_ok (p : Program) (units : List Word) :
    ∃ q, (EncodingRules.writeUnits units : Writer Unit) p = .ok ((), q) ∧
      Written kept here p [] 0 (units.map .literal) q := by
  induction units generalizing p with
  | nil => exact ⟨p, rfl, .refl p⟩
  | cons unit rest ih =>
      obtain ⟨q, ran, written⟩ := ih { p with code := p.code.push (.literal unit) }
      exact ⟨q, ran, (written_literal p unit).trans written⟩

end Program

namespace EncodingRules

open Program

variable {p : Program}

def BodyEncoded (layout : Layout) (p : Program) (body : Body) (result : Unit × Program) : Prop :=
  Written p.differences.size p.address p body.names body.differenceCount (body.parts layout) result.2

theorem operand_outcome {kept earlier : Nat} (rules : EncodingRules) (slot : Slot)
    (argument : Option Argument) (valid : p.symbols.Valid)
    (counted : p.differences.size = kept + earlier) :
    Outcome ((∃ x ∈ argument, x.WellFormed rules) ∧ p.Fits ((argument.map Argument.names).getD []))
      (fun result => ∃ x, argument = some x ∧
        ArgumentEncoded rules.layout slot kept earlier p x result)
      ((rules.argument slot argument : Writer (Word × Option Code)) p) := by
  cases argument with
  | none => exact .error fun both => by simp at both
  | some x =>
      exact ((argument_outcome rules slot x valid counted).imp fun _ _ encoded =>
        ⟨x, rfl, encoded⟩).of_iff (by simp)

theorem writeInstruction {q r : Program} {kept : Nat} {here : Word}
    {names : List (Text × Position)} {count : Nat} (word : Word) {parts : List Part}
    (wrote : Wrote p names count [] q) (stands : ∀ part ∈ parts, Stands p q kept here part)
    (tails : Wrote { q with code := q.code.push (.instruction word) } [] 0
      (parts.map (Part.code q.indexOf kept)) r) :
    Written kept here p names count (.instruction word :: parts) r := by
  have written := (wrote_write q (.instruction word)).trans tails
  constructor
  · rw [List.map_cons, map_code_eq stands written]
    simpa [Part.code] using wrote.trans written
  · intro part member
    rcases List.mem_cons.1 member with rfl | member
    · exact ⟨by simp [Part.names], fun _ _ _ => Code.evaluate_instruction _ _ _ _⟩
    · exact (stands part member).after written

theorem extended_outcome (rules : EncodingRules) (opcode : Text) (argument : Option Argument)
    (position : Position) (valid : p.symbols.Valid) :
    Outcome ((Body.extended opcode argument position).WellFormed rules ∧
        p.Fits (Body.extended opcode argument position).names)
      (BodyEncoded rules.layout p (.extended opcode argument position))
      ((rules.extended opcode argument position : Writer Unit) p) := by
  rw [EncodingRules.extended]
  cases known : rules.layout.extendedOpcode? opcode with
  | none =>
      refine .error fun both => ?_
      simp [Body.WellFormed, known] at both
  | some number =>
      refine ((operand_outcome rules .b argument valid (Nat.add_zero _).symm).bind True ?_).of_iff ?_
      · rintro ⟨⟨code, tail⟩, q⟩ _ ⟨x, rfl, encoded⟩
        obtain rfl : code = (x.fields rules.layout .b 0).1 := encoded.code
        have zero : Layout.extendedOpcode.toNat < 2 ^ rules.layout.opcodeBits := Nat.two_pow_pos _
        -- All three fields hold what goes into them.
        obtain ⟨word, packed⟩ := Layout.pack?_eq_some zero (Layout.extendedOpcode?_lt known)
          (x.fields_lt rules.layout .b 0)
        have parts : (Body.extended opcode (some x) position).parts rules.layout =
            .instruction word :: (x.fields rules.layout .b 0).2 := by
          simp [Body.parts, Body.argumentFields, known, packed]
        obtain ⟨r, run, tails⟩ :=
          writeTail_ok { q with code := q.code.push (.instruction word) } tail
        rw [encoded.tail] at tails
        have whole := writeInstruction word encoded.wrote encoded.stands tails
        dsimp only
        rw [packed]
        change Outcome _ _ ((writeTail tail : Writer Unit) _)
        rw [run]
        rw [← parts] at whole
        exact .ok trivial whole
      · simp [Body.WellFormed, known, Body.names]

theorem operands_stand {layout : Layout} {q r : Program} {a b : Argument} {codeA codeB : Word}
    {tailA tailB : Option Code}
    (first : ArgumentEncoded layout .a p.differences.size 0 p a ((codeA, tailA), q))
    (second : ArgumentEncoded layout .b p.differences.size a.differenceCount q b
      ((codeB, tailB), r)) :
    Wrote p (a.names ++ b.names) (a.differenceCount + b.differenceCount) [] r ∧
      tailA.toList = (a.fields layout .a 0).2.map (Part.code r.indexOf p.differences.size) ∧
      ∀ part ∈ (a.fields layout .a 0).2 ++ (b.fields layout .b a.differenceCount).2,
        Stands p r p.differences.size p.address part := by
  have wrote := first.wrote
  have wrote' := second.wrote
  dsimp only at wrote wrote'
  refine ⟨wrote.trans wrote', ?_, ?_⟩
  · rw [map_code_eq first.stands wrote']
    exact first.tail
  · intro part member
    rcases List.mem_append.1 member with inFirst | inSecond
    · exact (first.stands part inFirst).after wrote'
    · have stands := second.stands part inSecond
      dsimp only at stands
      rw [wrote.address_eq, List.length_nil] at stands
      simpa using stands.of_environment wrote.environment_eq

theorem writeInstruction_outcome {layout : Layout} {r : Program} {body : Body} {word : Word}
    {first second : Option Code} {parts parts' : List Part}
    (shape : body.parts layout = .instruction word :: (parts ++ parts'))
    (wrote : Wrote p body.names body.differenceCount [] r)
    (first_eq : first.toList = parts.map (Part.code r.indexOf p.differences.size))
    (second_eq : second.toList = parts'.map (Part.code r.indexOf p.differences.size))
    (stands : ∀ part ∈ parts ++ parts', Stands p r p.differences.size p.address part) :
    Outcome True (BodyEncoded layout p body)
      ((do
        Emitter.write (.instruction word)
        writeTail first
        writeTail second : Writer Unit) r) := by
  obtain ⟨s, ran, tails⟩ :=
    writeTails_ok { r with code := r.code.push (.instruction word) } first second
  rw [first_eq, second_eq, ← List.map_append] at tails
  have whole := writeInstruction word wrote stands tails
  change Outcome _ _ ((do
    writeTail first
    writeTail second : Writer Unit) _)
  rw [ran]
  rw [← shape] at whole
  exact .ok trivial whole

theorem basic_outcome (rules : EncodingRules) (opcode : Text) (a b : Option Argument)
    (position : Position) (valid : p.symbols.Valid) :
    Outcome ((Body.basic opcode a b position).WellFormed rules ∧
        p.Fits (Body.basic opcode a b position).names)
      (BodyEncoded rules.layout p (.basic opcode a b position))
      ((rules.basic opcode a b position : Writer Unit) p) := by
  rw [EncodingRules.basic]
  cases known : rules.layout.basicOpcode? opcode with
  | none =>
      refine .error fun both => ?_
      simp [Body.WellFormed, known] at both
  | some number =>
      refine ((operand_outcome rules .a a valid (Nat.add_zero _).symm).bind
        ((∃ y ∈ b, y.WellFormed rules) ∧ p.Fits (Body.basic opcode a b position).names) ?_).of_iff ?_
      · rintro ⟨⟨codeA, tailA⟩, q⟩ ⟨_, fits⟩ ⟨x, rfl, first⟩
        have wrote := first.wrote
        refine ((operand_outcome rules .b b (wrote.valid valid fits)
          wrote.differences_size).bind True ?_).of_iff ?_
        · rintro ⟨⟨codeB, tailB⟩, r⟩ _ ⟨y, rfl, second⟩
          obtain rfl : codeA = (x.fields rules.layout .a 0).1 := first.code
          obtain rfl : codeB = (y.fields rules.layout .b x.differenceCount).1 := second.code
          obtain ⟨both, tailA_eq, stands⟩ := operands_stand first second
          obtain ⟨word, packed⟩ := Layout.pack?_eq_some (Layout.basicOpcode?_lt known)
            (x.fields_lt rules.layout .a 0) (y.fields_lt rules.layout .b x.differenceCount)
          have tailB_eq := second.tail
          dsimp only at tailB_eq ⊢
          rw [packed]
          dsimp only
          -- Whichever tail comes first, the same words are written.
          have shape (parts : List Part) : (Body.basic opcode (some x) (some y) position).parts
              rules.layout = .instruction word :: parts ↔
                (if rules.layout.tailBFirst then
                  (y.fields rules.layout .b x.differenceCount).2 ++ (x.fields rules.layout .a 0).2
                else (x.fields rules.layout .a 0).2 ++
                  (y.fields rules.layout .b x.differenceCount).2) = parts := by
            simp [Body.parts, Body.argumentFields, known, packed]
          by_cases swapped : rules.layout.tailBFirst = true
          · rw [if_pos swapped]
            exact writeInstruction_outcome ((shape _).2 (if_pos swapped)) both tailB_eq tailA_eq
              fun part member => stands part (List.mem_append.2 (List.mem_append.1 member).symm)
          · rw [if_neg swapped]
            exact writeInstruction_outcome ((shape _).2 (if_neg swapped)) both tailA_eq tailB_eq
              stands
        · simp [wrote.fits_iff, Body.names]
      · constructor
        · rintro ⟨⟨formedA, _⟩, formedB, fits⟩
          exact ⟨⟨by simp [known], formedA, formedB⟩, fits⟩
        · rintro ⟨⟨_, formedA, formedB⟩, fits⟩
          exact ⟨⟨formedA, fits.left⟩, formedB, fits⟩

theorem datum_written {kept offset earlier : Nat} {here : Word} {q : Program} {e : Expression}
    {code : Code} (encoded : Encoded p e (code, q)) (at_offset : p.address = here + offset.toUInt16)
    (counted : p.differences.size = kept + earlier) :
    Written kept here p e.names e.differenceCount [.datum e offset earlier]
      { q with code := q.code.push (markData code) } := by
  obtain ⟨wrote, same, yields⟩ := encoded
  dsimp only at wrote same yields
  have settles := yields.settles (by rw [wrote.differences_size]; omega)
  rw [counted] at same
  subst same
  have written := wrote.trans (wrote_write q (markData (e.code q.indexOf (kept + earlier))))
  rw [List.append_nil] at written
  refine ⟨written, fun part member => ?_⟩
  obtain rfl := List.mem_singleton.1 member
  refine Stands.after (q := q) ⟨fun name member => wrote.indexed member, ?_⟩ (wrote_write q _)
  intro symbols differences completes
  simp only [Part.code, Part.word, Code.evaluate_markData]
  rw [settles symbols differences completes, at_offset]

theorem data_outcome {kept : Nat} {here : Word} (rules : EncodingRules) (position : Position)
    (values : List (Option DataValue)) {offset earlier : Nat} (valid : p.symbols.Valid)
    (at_offset : p.address = here + offset.toUInt16)
    (counted : p.differences.size = kept + earlier) :
    Outcome (Body.DataWellFormed rules values ∧ p.Fits (Body.dataNames values))
      (fun result => Written kept here p (Body.dataNames values) (Body.dataDifferences values)
        (Body.dataParts offset earlier values) result.2)
      ((rules.data position values : Writer Unit) p) := by
  induction values generalizing p offset earlier with
  | nil => exact .ok ⟨trivial, valid.size_le⟩ (.refl p)
  | cons value rest ih =>
      -- Whatever the first value is, the rest goes on from where its words end.
      have step {q : Program} {names : List (Text × Position)} {count : Nat} {parts : List Part}
          (written : Written kept here p names count parts q) (fits : p.Fits names) :
          Outcome (Body.DataWellFormed rules rest ∧ p.Fits (names ++ Body.dataNames rest))
            (fun result => Written kept here p (names ++ Body.dataNames rest)
              (count + Body.dataDifferences rest)
              (parts ++ Body.dataParts (offset + parts.length) (earlier + count) rest) result.2)
            ((rules.data position rest : Writer Unit) q) := by
        have at_end : q.address = here + (offset + parts.length).toUInt16 := by
          rw [written.wrote.address_eq, at_offset]
          simp [UInt16.ofNat_add, UInt16.add_assoc]
        have counted' : q.differences.size = kept + (earlier + count) := by
          rw [written.wrote.differences_size, counted, Nat.add_assoc]
        refine ((ih (written.wrote.valid valid fits) at_end counted').imp ?_).of_iff ?_
        · intro result _ after
          exact written.trans after
        · rw [written.wrote.fits_iff]
      rcases value with _ | value
      · exact .error fun both => both.1
      cases value with
      | string text place =>
          obtain ⟨q, ran, written⟩ := writeUnits_ok p text.units
          have outcome := step written valid.size_le
          rw [List.length_map] at outcome
          change Outcome _ _ ((writeUnits text.units : Writer Unit) p >>= _)
          rw [ran]
          change Outcome _ _ ((rules.data position rest : Writer Unit) q)
          simpa [Body.DataWellFormed, Body.dataNames, Body.dataDifferences, Body.dataParts]
            using outcome
      | lengthMarker place =>
          rw [data]
          by_cases counts : rules.datLengthCounting = true
          · rw [if_pos counts]
            refine ((literal_outcome (p := p) 0 (dataSizes rest) place).bind
              (Body.DataWellFormed rules rest ∧ p.Fits (Body.dataNames rest)) ?_).of_iff ?_
            · rintro _ _ rfl
              rw [Word.ofInt_natCast]
              have outcome := step (written_literal p (dataSizes rest).toUInt16) valid.size_le
              rw [Nat.zero_add] at outcome
              exact outcome
            · constructor
              · rintro ⟨⟨_, small⟩, formed, fits⟩
                exact ⟨⟨⟨counts, by omega⟩, formed⟩, fits⟩
              · rintro ⟨⟨⟨_, small⟩, formed⟩, fits⟩
                exact ⟨⟨by omega, by omega⟩, formed, fits⟩
          · rw [if_neg counts]
            exact .error fun both => counts both.1.1.1
      | word value =>
          refine ((expression_outcome rules value valid).bind
            (Body.DataWellFormed rules rest ∧ p.Fits (value.names ++ Body.dataNames rest))
              ?_).of_iff ?_
          · rintro ⟨code, q⟩ ⟨_, fits⟩ encoded
            exact step (datum_written encoded at_offset counted) fits
          · constructor
            · rintro ⟨⟨formed, _⟩, formed', fits⟩
              exact ⟨⟨formed, formed'⟩, fits⟩
            · rintro ⟨⟨formed, formed'⟩, fits⟩
              exact ⟨⟨formed, fits.left⟩, formed', fits⟩

theorem body_outcome (rules : EncodingRules) (body : Body) (valid : p.symbols.Valid)
    (written : ∀ value position, body ≠ .addressFix value position) :
    Outcome (body.WellFormed rules ∧ p.Fits body.names) (BodyEncoded rules.layout p body)
      ((rules.body (some body) : Writer Unit) p) := by
  cases body with
  | addressFix value position => exact absurd rfl (written value position)
  | basic opcode a b position => exact basic_outcome rules opcode a b position valid
  | extended opcode argument position => exact extended_outcome rules opcode argument position valid
  | data values position =>
      exact data_outcome rules position values valid (by simp) (Nat.add_zero _).symm

end EncodingRules

end Dcpu
