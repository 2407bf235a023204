import Dcpu.Proofs.StatementParts
import Dcpu.Proofs.WellFormed
import Dcpu.Proofs.Writer

set_option autoImplicit false

namespace Dcpu

namespace Code

variable (symbols : SymbolTable) (differences : Array Difference)

@[simp] theorem evaluate_instruction (depth : Nat) (word : Word) :
    evaluate symbols differences depth (.instruction word) = .ok word := by
  cases depth <;> rfl

@[simp] theorem evaluate_literal (depth : Nat) (word : Word) :
    evaluate symbols differences depth (.literal word) = .ok word := by
  cases depth <;> rfl

theorem evaluate_label (depth index : Nat) (within : index < addressSpace) :
    evaluate symbols differences depth (.label index) = symbols.value index := by
  have same : (index.toUInt16).toNat = index := by
    simpa [addressSpace] using within
  cases depth <;>
    simp [evaluate, label, same, bind, Except.bind, pure, Except.pure] <;>
    cases symbols.value index <;> rfl

theorem evaluate_difference {depth index : Nat} {difference : Difference} {target base : Word}
    (within : index < addressSpace) (kept : differences[index]? = some difference)
    (targetValue : evaluate symbols differences depth difference.target = .ok target)
    (baseValue : evaluate symbols differences depth difference.base = .ok base) :
    evaluate symbols differences (depth + 1) (.difference index) = .ok (target - base) := by
  have same : (index.toUInt16).toNat = index := by
    simpa [addressSpace] using within
  simp [evaluate, Code.difference, same, kept, targetValue, baseValue, bind, Except.bind, pure,
    Except.pure]

theorem evaluate_negate {depth : Nat} {code : Code} {value : Word} (plain : code.negated = false)
    (known : evaluate symbols differences depth code = .ok value) :
    evaluate symbols differences depth code.negate = .ok (-value) := by
  obtain ⟨kind, word, negated, inData⟩ := code
  obtain rfl : negated = false := plain
  -- The sign is applied last, whatever the kind of the word.
  have apart : evaluate symbols differences depth (negate ⟨kind, word, false, inData⟩) =
      evaluate symbols differences depth ⟨kind, word, false, inData⟩ >>= fun found => .ok (-found) := by
    cases kind with
    | instruction => cases depth <;> rfl
    | literal => cases depth <;> rfl
    | other _ => cases depth <;> rfl
    | label =>
        cases depth <;> simp only [evaluate, negate] <;> cases symbols.value word.toNat <;> rfl
    | difference =>
        cases depth with
        | zero => rfl
        | succ depth =>
            simp only [evaluate, negate]
            cases differences[word.toNat]? with
            | none => rfl
            | some difference =>
                dsimp only
                cases evaluate symbols differences depth difference.target with
                | error _ => rfl
                | ok _ => cases evaluate symbols differences depth difference.base <;> rfl
  rw [apart, known]
  rfl

theorem evaluate_markData (depth : Nat) (code : Code) :
    evaluate symbols differences depth (EncodingRules.markData code) =
      evaluate symbols differences depth code := by
  unfold EncodingRules.markData
  split
  · cases depth <;> simp only [evaluate]
  · rfl

end Code

theorem Expression.differenceCount_eq_zero {e : Expression} (plain : e.isDifference = false) :
    e.differenceCount = 0 := by
  obtain ⟨head, _ | tail, position⟩ := e <;> cases head <;>
    simp_all [isDifference, differenceCount, Atom.differenceCount]

namespace Program

def Yields (p : Program) (code : Code) (depth : Nat) (value : SymbolTable → Word) : Prop :=
  ∀ symbols differences, Completes symbols differences p → ∀ deeper, depth ≤ deeper →
    code.evaluate symbols differences deeper = .ok (value symbols)

section Emit

variable {p q : Program} {names : List (Text × Position)} {count : Nat} {codes : List Code}

theorem Yields.after {code : Code} {depth : Nat} {value : SymbolTable → Word}
    (yields : p.Yields code depth value) (wrote : Wrote p names count codes q) :
    q.Yields code depth value :=
  fun symbols differences completes => yields symbols differences (completes.before wrote)

theorem Yields.deeper {code : Code} {depth depth' : Nat} {value : SymbolTable → Word}
    (yields : p.Yields code depth value) (deep : depth ≤ depth') : p.Yields code depth' value :=
  fun symbols differences completes deeper within =>
    yields symbols differences completes deeper (Nat.le_trans deep within)

theorem lookup_outcome (valid : p.symbols.Valid) (name : Text) (position : Position) :
    Outcome (p.Fits [(name, position)])
      (fun result : Nat × Program =>
        Wrote p [(name, position)] 0 [] result.2 ∧ result.1 = result.2.indexOf name)
      ((Emitter.lookup name position : Writer Nat) p) := by
  change Outcome _ _ (p.index (p.qualify name) position)
  obtain ⟨index, isOk, found, fits⟩ | ⟨isError, full⟩ :=
    SymbolTable.lookup_cases valid (p.qualify name) position
  · rw [Program.index, isOk]
    refine .ok fits ⟨⟨rfl, ⟨[], rfl, by simp⟩, by simp, rfl, rfl⟩, ?_⟩
    change index = ((p.symbols.note (p.qualify name) position).names[p.qualify name]?).getD 0
    rw [found, Option.getD_some]
  · rw [Program.index, isError]
    exact .error full

theorem label_yields (wrote : Wrote p names count codes q) {name : Text}
    (member : name ∈ names.map Prod.fst) :
    q.Yields (.label (q.indexOf name)) 0 fun symbols => p.environment symbols name := by
  intro symbols differences completes deeper _
  have found := completes.names _ _ (wrote.indexed member)
  have within := Nat.lt_of_lt_of_le (completes.valid.named_lt found) completes.valid.size_le
  obtain ⟨value, known⟩ :=
    SymbolTable.value?_eq_some completes.valid (SymbolTable.mem_names_iff.2 ⟨_, found⟩)
  have same : p.environment symbols name = value := by
    rw [← wrote.environment_eq]
    simp only [environment, known, Option.getD_some]
  rw [Code.evaluate_label _ _ _ _ within, SymbolTable.value_of_value? found known]
  exact congrArg Except.ok same.symm

theorem difference_yields {difference : Difference} {depth : Nat} {target base : SymbolTable → Word}
    (targetYields : p.Yields difference.target depth target)
    (baseYields : p.Yields difference.base depth base) :
    ({ p with differences := p.differences.push difference } : Program).Yields
      (.difference p.differences.size) (depth + 1)
      fun symbols => target symbols - base symbols := by
  intro symbols differences completes deeper deep
  obtain ⟨rest, grown⟩ := completes.kept
  have kept : differences[p.differences.size]? = some difference := by
    rw [← Array.getElem?_toList, ← grown]
    simp
  have within := Nat.lt_of_lt_of_le (Array.getElem?_eq_some_iff.1 kept).1 completes.size_le
  -- Its operands were there before it, so they have their values one level down.
  have earlier : Completes symbols differences p :=
    ⟨completes.valid, completes.names, by
      rw [← grown, Array.toList_push, List.append_assoc]
      exact List.prefix_append _ _, completes.size_le⟩
  obtain ⟨deeper, rfl⟩ : ∃ less, deeper = less + 1 := ⟨deeper - 1, by omega⟩
  exact Code.evaluate_difference _ _ within kept
    (targetYields symbols differences earlier deeper (by omega))
    (baseYields symbols differences earlier deeper (by omega))

def Refers (p : Program) (code : Code) : Prop :=
  code.kind = .difference → code.value.toNat < p.differences.size

theorem Refers.after {code : Code} (refers : p.Refers code) (wrote : Wrote p names count codes q) :
    q.Refers code := fun isDifference => by
  have before := refers isDifference
  have size := wrote.differences_size
  omega

theorem keepDifference_eq {difference : Difference} (base : p.Refers difference.base)
    (target : p.Refers difference.target) :
    p.keepDifference difference = .ok (.difference p.differences.size,
      { p with differences := p.differences.push difference }) := by
  have none_later (code : Code) (refers : p.Refers code) : p.laterOperand? code = none := by
    rw [laterOperand?, if_neg]
    rintro ⟨isDifference, later⟩
    exact absurd (refers isDifference) (Nat.not_lt.2 later)
  simp only [keepDifference, none_later _ base, none_later _ target]

theorem keep_outcome {base target : Code} {baseValue targetValue : SymbolTable → Word}
    (wrote : Wrote p names count codes q) (baseRefers : q.Refers base)
    (targetRefers : q.Refers target) (baseYields : q.Yields base count baseValue)
    (targetYields : q.Yields target count targetValue) :
    Outcome True
      (fun result : Code × Program => Wrote p names (count + 1) codes result.2 ∧
        result.1 = .difference (p.differences.size + count) ∧
        result.2.Yields result.1 (count + 1)
          fun symbols => targetValue symbols - baseValue symbols)
      ((Emitter.difference ⟨base, target⟩ : Writer Code) q) := by
  have kept : (Emitter.difference ⟨base, target⟩ : Writer Code) q = _ :=
    keepDifference_eq baseRefers targetRefers
  rw [kept]
  exact .ok trivial
    ⟨wrote.keep _, by rw [wrote.differences_size], difference_yields targetYields baseYields⟩

end Emit

end Program

namespace EncodingRules

open Program

variable {p : Program}

theorem literal_outcome (least value : Int) (position : Position) :
    Outcome (least ≤ value ∧ value ≤ 0xffff)
      (fun result : Code × Program => result = (.literal (Word.ofInt value), p))
      ((literal least value position : Writer Code) p) := by
  unfold literal
  split
  · rename_i outside
    exact .error fun inside => by omega
  · rename_i inside
    exact .ok ⟨by omega, by omega⟩ rfl

theorem refers_atom {q : Program} {names : List (Text × Position)} {codes : List Code} {a : Atom}
    (wrote : Wrote p names a.differenceCount codes q) (index : Text → Nat) :
    q.Refers (a.code index p.differences.size) := by
  intro isDifference
  have size := wrote.differences_size
  cases a with
  | number _ _ => simp [Atom.code, Code.literal] at isDifference
  | character _ _ => simp [Atom.code, Code.literal] at isDifference
  | identifier _ _ => simp [Atom.code, Code.label] at isDifference
  | absent => simp [Atom.code, Code.literal] at isDifference
  | difference target _ =>
      have less := Nat.mod_le (p.differences.size + target.differenceCount) (2 ^ 16)
      simp only [Atom.differenceCount] at size
      simp only [Atom.code, Code.difference, Nat.toUInt16_eq, UInt16.toNat_ofNat']
      omega

def AtomEncoded (p : Program) (a : Atom) (result : Code × Program) : Prop :=
  Wrote p a.names a.differenceCount [] result.2 ∧
    result.1 = a.code result.2.indexOf p.differences.size ∧
    result.2.Yields result.1 a.differenceCount fun symbols =>
      a.value (p.environment symbols) p.address

theorem atom_outcome (rules : EncodingRules) (a : Atom) (valid : p.symbols.Valid) :
    Outcome (a.WellFormed rules ∧ p.Fits a.names) (AtomEncoded p a)
      ((rules.atom a : Writer Code) p) := by
  have room : p.Fits [] := valid.size_le
  induction a with
  | number n position =>
      refine ((literal_outcome rules.leastNumber n position).imp ?_).of_iff (and_iff_left room).symm
      rintro _ _ rfl
      exact ⟨.refl p, rfl, fun _ _ _ _ _ => Code.evaluate_literal _ _ _ _⟩
  | character n position =>
      refine ((literal_outcome 0 n position).imp ?_).of_iff (and_iff_left room).symm
      rintro _ _ rfl
      exact ⟨.refl p, rfl, fun _ _ _ _ _ => Code.evaluate_literal _ _ _ _⟩
  | identifier name position =>
      refine ((lookup_outcome valid name position).bind True ?_).of_iff (and_comm)
      rintro ⟨index, q⟩ _ ⟨wrote, same⟩
      obtain rfl : index = q.indexOf name := same
      exact .ok trivial ⟨wrote, rfl, label_yields wrote (by simp)⟩
  | absent => exact .error fun both => both.1
  | difference target position ih =>
      rw [atom]
      by_cases allowed : rules.differenceLiterals = true
      · rw [if_pos allowed]
        refine (ih.bind True ?_).of_iff ?_
        · rintro ⟨code, q⟩ _ ⟨wrote, same, yields⟩
          dsimp only at wrote same yields
          -- The base of a difference atom is the address where it stands.
          have here : q.Yields (.literal p.address) target.differenceCount fun _ => p.address :=
            fun _ _ _ _ _ => Code.evaluate_literal _ _ _ _
          exact keep_outcome wrote (by simp [Refers, Code.literal])
            (same ▸ refers_atom wrote q.indexOf) here yields
        · simp [Atom.WellFormed, allowed, Atom.names]
      · rw [if_neg allowed]
        exact .error fun both => allowed both.1.1

def Encoded (p : Program) (e : Expression) (result : Code × Program) : Prop :=
  Wrote p e.names e.differenceCount [] result.2 ∧
    result.1 = e.code result.2.indexOf p.differences.size ∧
    result.2.Yields result.1 e.differenceCount fun symbols =>
      e.value (p.environment symbols) p.address

theorem expression_outcome (rules : EncodingRules) (e : Expression) (valid : p.symbols.Valid) :
    Outcome (e.WellFormed rules ∧ p.Fits e.names) (Encoded p e)
      ((rules.expression (some e) : Writer Code) p) := by
  obtain ⟨head, tail, position⟩ := e
  by_cases missing : head = .absent
  · subst missing
    exact .error fun both => both.1.1
  cases tail with
  | none =>
      have single : (rules.expression (some ⟨head, none, position⟩) : Writer Code) =
          rules.atom head := by
        cases head <;> first | rfl | contradiction
      have names : (⟨head, none, position⟩ : Expression).names = head.names := List.append_nil _
      rw [single, names]
      refine ((atom_outcome rules head valid).imp ?_).of_iff ?_
      · intro result _ encoded
        rw [Encoded, names]
        exact encoded
      · simp [Expression.WellFormed]
  | some tail =>
      have double : (rules.expression (some ⟨head, some tail, position⟩) : Writer Code) =
          (do
            let base ← rules.atom head
            if rules.differenceLiterals then
              let target ← rules.atom tail
              Emitter.difference ⟨base, target⟩
            else reject position .differenceLiteral) := by
        cases head <;> first | rfl | contradiction
      rw [double]
      refine ((atom_outcome rules head valid).bind (rules.differenceLiterals = true ∧
        tail.WellFormed rules ∧ p.Fits (head.names ++ tail.names)) ?_).of_iff ?_
      · rintro ⟨base, q⟩ ⟨_, fits⟩ ⟨wrote, same, baseYields⟩
        dsimp only at wrote same baseYields ⊢
        by_cases allowed : rules.differenceLiterals = true
        · rw [if_pos allowed]
          refine ((atom_outcome rules tail (wrote.valid valid fits)).bind True ?_).of_iff ?_
          · rintro ⟨target, r⟩ _ ⟨wrote', same', targetYields⟩
            dsimp only at wrote' same' targetYields
            -- The base was encoded before the target, which may have kept differences since.
            have baseRefers : q.Refers base := same ▸ refers_atom wrote q.indexOf
            have targetRefers : r.Refers target := same' ▸ refers_atom wrote' r.indexOf
            have address : q.address = p.address := by
              simp only [Program.address, wrote.code_size, List.length_nil, Nat.add_zero]
            rw [wrote.environment_eq, address] at targetYields
            refine (keep_outcome (wrote.trans wrote') (baseRefers.after wrote') targetRefers
              ((baseYields.after wrote').deeper (Nat.le_add_right _ _))
              (targetYields.deeper (Nat.le_add_left _ _))).imp ?_
            rintro ⟨code, final⟩ _ ⟨all, code_eq, yields⟩
            exact ⟨all, code_eq.trans (by simp only [Expression.code, Nat.add_assoc]), yields⟩
          · simp [wrote.fits_iff, allowed]
        · rw [if_neg allowed]
          exact .error fun all => allowed all.1
      · constructor
        · rintro ⟨⟨headFormed, _⟩, tailAllowed, tailFormed, fits⟩
          exact ⟨⟨headFormed, by simpa using ⟨tailAllowed, tailFormed⟩⟩, fits⟩
        · rintro ⟨⟨headFormed, tailFormed⟩, fits⟩
          have both := tailFormed tail rfl
          exact ⟨⟨headFormed, Fits.left fits⟩, both.1, both.2, fits⟩

end EncodingRules

end Dcpu
