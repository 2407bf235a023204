import Dcpu.Proofs.Follows
import Dcpu.Proofs.RenameStatement

set_option autoImplicit false

namespace Dcpu

namespace Program

structure Naming where
  localLabels : Bool
  scope : Text

def Naming.qualify (naming : Naming) (name : Text) : Text :=
  if naming.localLabels && name.head? == some 0x2e then naming.scope ++ name else name

def naming (p : Program) : Naming := ⟨p.localLabels, p.scope⟩

theorem qualify_naming (p : Program) (name : Text) : p.naming.qualify name = p.qualify name := rfl

/-- Programs with the same contents that read names in these two ways. -/
structure Twin (first second : Naming) (p q : Program) : Prop where
  symbols : q.symbols = p.symbols
  code : q.code = p.code
  differences : q.differences = p.differences
  naming : p.naming = first
  naming' : q.naming = second

variable {lenient : Prop} {first second : Naming}

theorem Twin.refl (p : Program) : Twin p.naming p.naming p p := ⟨rfl, rfl, rfl, rfl, rfl⟩

theorem Twin.eq {p q : Program} (twin : Twin first first p q) : p = q := by
  obtain ⟨symbols, code, differences, naming, naming'⟩ := twin
  have same := naming.trans naming'.symm
  simp only [Program.naming, Naming.mk.injEq] at same
  cases p
  cases q
  simp_all

structure Paired {α : Type} (first second : Naming) (r r' : α × Program) : Prop where
  same : r'.1 = r.1
  twin : Twin first second r.2 r'.2

def InStep (lenient : Prop) (first second : Naming) {α : Type} (x y : Writer α) : Prop :=
  ∀ p q, Twin first second p q →
    Follows lenient (Paired first second) (x.run p) (y.run q)

namespace InStep

variable {α β : Type}

theorem pure (a : α) : InStep lenient first second (Pure.pure a) (Pure.pure a) :=
  fun _ _ twin => .ok ⟨rfl, twin⟩

theorem bind {x y : Writer α} {f g : α → Writer β} (fst : InStep lenient first second x y)
    (snd : ∀ a, InStep lenient first second (f a) (g a)) :
    InStep lenient first second (x >>= f) (y >>= g) := by
  intro p q twin
  apply (fst p q twin).bind
  rintro ⟨a, p'⟩ ⟨b, q'⟩ ⟨rfl, twin'⟩
  exact snd _ p' q' twin'

theorem fail (diagnostic : Diagnostic) :
    InStep lenient first second (Emitter.fail diagnostic : Writer α) (Emitter.fail diagnostic) :=
  fun _ _ _ => .error _

theorem excused (excuse : lenient) (diagnostic : Diagnostic) (y : Writer α) :
    InStep lenient first second (Emitter.fail diagnostic) y :=
  fun _ _ _ => .excused excuse _ _

theorem write (word : Code) :
    InStep lenient first second (Emitter.write word : Writer Unit) (Emitter.write word) :=
  fun _ _ twin => .ok ⟨rfl, { twin with code := congrArg (·.push word) twin.code }⟩

theorem address :
    InStep lenient first second (Emitter.address : Writer Word) Emitter.address :=
  fun _ _ twin => .ok ⟨congrArg (·.size.toUInt16) twin.code, twin⟩

theorem difference (d : Difference) :
    InStep lenient first second (Emitter.difference d : Writer Code) (Emitter.difference d) := by
  intro p q twin
  change Follows _ _ (p.keepDifference d) (q.keepDifference d)
  simp only [keepDifference, laterOperand?, twin.differences]
  split
  · exact .error _
  · exact .error _
  · exact .ok ⟨rfl, { twin with differences := rfl }⟩

end InStep

theorem Twin.index {p q : Program} (twin : Twin first second p q) (name : Text)
    (position : Position) :
    Follows lenient (Paired first second) (p.index name position) (q.index name position) := by
  simp only [Program.index, twin.symbols]
  split
  · exact .ok ⟨rfl, { twin with symbols := rfl }⟩
  · exact .error _

theorem InStep.lookup {name name' : Text} (same : second.qualify name' = first.qualify name)
    (position : Position) :
    InStep lenient first second (Emitter.lookup name position : Writer Nat)
      (Emitter.lookup name' position) := by
  intro p q twin
  have wholes : q.qualify name' = p.qualify name := by
    rw [← qualify_naming, ← qualify_naming, twin.naming, twin.naming', same]
  change Follows _ _ (p.index (p.qualify name) position) (q.index (q.qualify name') position)
  rw [wholes]
  exact twin.index _ _

end Program

namespace EncodingRules

open Program

/-- A flag that is the same under both sets of rules, or off under the first where that is the more
strict one. -/
def Covers (lenient : Prop) (flag flag' : Bool) : Prop := flag' = flag ∨ lenient ∧ flag = false

theorem Covers.of_imp {flag flag' : Bool} (implies : flag = true → flag' = true) :
    Covers True flag flag' := by
  cases flag with
  | false => exact .inr ⟨trivial, rfl⟩
  | true => exact .inl (implies rfl)

structure Permits (lenient : Prop) (rules rules' : EncodingRules) : Prop where
  layout : rules'.layout = rules.layout
  differenceLiterals : Covers lenient rules.differenceLiterals rules'.differenceLiterals
  datLengthCounting : Covers lenient rules.datLengthCounting rules'.datLengthCounting
  signedNumbers : Covers lenient rules.signedNumbers rules'.signedNumbers

theorem Permits.refl (lenient : Prop) (rules : EncodingRules) : Permits lenient rules rules :=
  ⟨rfl, .inl rfl, .inl rfl, .inl rfl⟩

variable {lenient : Prop} {first second : Naming} {rules rules' : EncodingRules}
  {rename : Text → Text} {α : Type}

theorem Covers.inStep {flag flag' : Bool} (covers : Covers lenient flag flag') {x y : Writer α}
    (allowed : InStep lenient first second x y) (diagnostic : Diagnostic) :
    InStep lenient first second (if flag then x else Emitter.fail diagnostic)
      (if flag' then y else Emitter.fail diagnostic) := by
  rcases covers with rfl | ⟨excuse, rfl⟩
  · split
    · exact allowed
    · exact .fail _
  · exact .excused excuse _ _

theorem Permits.least (permits : Permits lenient rules rules') :
    rules'.leastNumber = rules.leastNumber ∨ lenient ∧ rules'.leastNumber ≤ rules.leastNumber := by
  rcases permits.signedNumbers with same | ⟨excuse, off⟩
  · exact .inl (by rw [leastNumber, leastNumber, same])
  · refine .inr ⟨excuse, ?_⟩
    simp only [leastNumber, off]
    split <;> decide

theorem literal_inStep {least least' : Int} (wider : least' = least ∨ lenient ∧ least' ≤ least)
    (value : Int) (position : Position) :
    InStep lenient first second (literal least value position) (literal least' value position) := by
  rcases wider with rfl | ⟨excuse, le⟩
  · unfold literal
    split
    · exact .fail _
    · exact .pure _
  · unfold literal
    by_cases outside : value < least ∨ 0xffff < value
    · rw [if_pos outside]
      exact .excused excuse _ _
    · rw [if_neg outside, if_neg (by omega)]
      exact .pure _

theorem expression_single {head : Atom} (present : head ≠ .absent) (position : Position) :
    (rules.expression (some ⟨head, none, position⟩) : Writer Code) = rules.atom head := by
  cases head <;> first | rfl | contradiction

theorem expression_double {head : Atom} (present : head ≠ .absent) (tail : Atom)
    (position : Position) :
    (rules.expression (some ⟨head, some tail, position⟩) : Writer Code) = (do
      let base ← rules.atom head
      if rules.differenceLiterals then
        let target ← rules.atom tail
        Emitter.difference ⟨base, target⟩
      else reject position .differenceLiteral) := by
  cases head <;> first | rfl | contradiction

theorem register_inStep (name : Text) (position : Position) :
    InStep lenient first second (register name position) (register name position) := by
  unfold register
  split
  · exact .pure _
  · exact .fail _

theorem writeTail_inStep (tail : Option Code) :
    InStep lenient first second (writeTail tail) (writeTail tail) := by
  cases tail with
  | none => exact .pure _
  | some word => exact .write word

theorem writeUnits_inStep (units : List Word) :
    InStep lenient first second (writeUnits units) (writeUnits units) := by
  induction units with
  | nil => exact .pure _
  | cons unit rest ih => exact (InStep.write _).bind fun _ => ih

@[simp] theorem dataSizes_mapNames (values : List (Option DataValue)) :
    dataSizes (values.map (Option.map (DataValue.mapNames rename))) = dataSizes values := by
  have size : ∀ value, dataSize (Option.map (DataValue.mapNames rename) value) = dataSize value := by
    rintro (_ | ⟨_ | _ | _⟩) <;> rfl
  simp only [dataSizes, List.foldr_map, size]

section Walk

variable (permits : Permits lenient rules rules')
  (same : ∀ name, second.qualify (rename name) = first.qualify name)
include permits same

theorem atom_inStep (a : Atom) :
    InStep lenient first second (rules.atom a) (rules'.atom (a.mapNames rename)) := by
  induction a with
  | number value position => exact literal_inStep permits.least value position
  | character value position => exact literal_inStep (.inl rfl) value position
  | identifier name position =>
      apply (InStep.lookup (same name) position).bind
      intro index
      exact .pure _
  | difference target position ih =>
      apply permits.differenceLiterals.inStep
      apply InStep.address.bind
      intro here
      apply ih.bind
      intro word
      exact .difference _
  | absent => exact .fail _

theorem expression_inStep (value : Option Expression) :
    InStep lenient first second (rules.expression value)
      (rules'.expression (value.map (Expression.mapNames rename))) := by
  have walk := atom_inStep permits same
  obtain _ | ⟨head, tail, position⟩ := value
  · exact .fail _
  by_cases absent : head = .absent
  · subst absent
    exact .fail _
  -- A name is never replaced by nothing.
  have absent' : head.mapNames rename ≠ .absent := by
    cases head <;> simp_all [Atom.mapNames]
  cases tail with
  | none =>
      rw [expression_single absent]
      change InStep _ _ _ _ (rules'.expression (some ⟨head.mapNames rename, none, position⟩))
      rw [expression_single absent']
      exact walk head
  | some tail =>
      rw [expression_double absent]
      change InStep _ _ _ _
        (rules'.expression (some ⟨head.mapNames rename, some (tail.mapNames rename), position⟩))
      rw [expression_double absent']
      apply (walk head).bind
      intro base
      apply permits.differenceLiterals.inStep
      exact (walk tail).bind fun target => .difference _

theorem literalArgument_inStep (value : Option Expression) (slot : Slot) :
    InStep lenient first second (rules.literalArgument value slot)
      (rules'.literalArgument (value.map (Expression.mapNames rename)) slot) := by
  apply (expression_inStep permits same value).bind
  intro word
  rw [permits.layout]
  split
  · split <;> exact .pure _
  · exact .pure _

theorem stackArgument_inStep (access : StackAccess) (offset : Option Expression)
    (position : Position) :
    InStep lenient first second (rules.stackArgument access offset position)
      (rules'.stackArgument access (offset.map (Expression.mapNames rename)) position) := by
  simp only [stackArgument, permits.layout]
  cases access with
  | push => exact .pure _
  | pop => exact .pure _
  | peek => exact .pure _
  | unknown => exact .fail _
  | pick =>
      cases rules.layout.pickCode? with
      | none => exact .fail _
      | some code =>
          cases offset with
          | none => exact .fail _
          | some offset =>
              apply (expression_inStep permits same (some offset)).bind
              intro word
              exact .pure _

theorem argument_inStep (slot : Slot) (argument : Option Argument) :
    InStep lenient first second (rules.argument slot argument)
      (rules'.argument slot (argument.map (Argument.mapNames rename))) := by
  cases argument with
  | none => exact .fail _
  | some argument =>
      cases argument with
      | register name position =>
          apply (register_inStep name position).bind
          intro r
          exact .pure _
      | special name position =>
          simp only [Option.map_some, Argument.mapNames, EncodingRules.argument, permits.layout]
          cases rules.layout.special? name with
          | none => exact .fail _
          | some r => exact .pure _
      | lookup named position =>
          cases named with
          | none => exact .fail _
          | some named =>
              apply (register_inStep named.name position).bind
              intro r
              exact .pure _
      | offsetLookup named sign offset position =>
          cases named with
          | none => exact .fail _
          | some named =>
              cases offset with
              | none => exact .fail _
              | some offset =>
                  apply (register_inStep named.name position).bind
                  intro r
                  apply (expression_inStep permits same (some offset)).bind
                  intro word
                  exact .pure _
      | stack access offset position => exact stackArgument_inStep permits same access offset position
      | literal value position => exact literalArgument_inStep permits same value slot
      | literalLookup value position =>
          apply (expression_inStep permits same value).bind
          intro word
          exact .pure _

theorem basic_inStep (opcode : Text) (a b : Option Argument) (position : Position) :
    InStep lenient first second (rules.basic opcode a b position)
      (rules'.basic opcode (a.map (Argument.mapNames rename)) (b.map (Argument.mapNames rename))
        position) := by
  have place : ((a.map (Argument.mapNames rename)).map Argument.position).getD .nowhere =
      (a.map Argument.position).getD .nowhere := by
    cases a <;> simp
  simp only [basic, permits.layout, place]
  cases rules.layout.basicOpcode? opcode with
  | none => exact .fail _
  | some number =>
      apply (argument_inStep permits same .a a).bind
      rintro ⟨codeA, tailA⟩
      apply (argument_inStep permits same .b b).bind
      rintro ⟨codeB, tailB⟩
      dsimp only
      cases rules.layout.pack? ⟨number, codeA, codeB⟩ with
      | none => exact .fail _
      | some word =>
          apply (InStep.write _).bind
          intro _
          split
          · exact (writeTail_inStep tailB).bind fun _ => writeTail_inStep tailA
          · exact (writeTail_inStep tailA).bind fun _ => writeTail_inStep tailB

theorem extended_inStep (opcode : Text) (operand : Option Argument) (position : Position) :
    InStep lenient first second (rules.extended opcode operand position)
      (rules'.extended opcode (operand.map (Argument.mapNames rename)) position) := by
  simp only [extended, permits.layout]
  cases rules.layout.extendedOpcode? opcode with
  | none => exact .fail _
  | some number =>
      apply (argument_inStep permits same .b operand).bind
      rintro ⟨code, tail⟩
      dsimp only
      cases rules.layout.pack? ⟨Layout.extendedOpcode, number, code⟩ with
      | none => exact .fail _
      | some word => exact (InStep.write _).bind fun _ => writeTail_inStep tail

theorem data_inStep (position : Position) (values : List (Option DataValue)) :
    InStep lenient first second (rules.data position values)
      (rules'.data position (values.map (Option.map (DataValue.mapNames rename)))) := by
  induction values with
  | nil => exact .pure _
  | cons value rest ih =>
      cases value with
      | none => exact .fail _
      | some value =>
          cases value with
          | lengthMarker place =>
              simp only [List.map_cons, Option.map_some, DataValue.mapNames, data,
                dataSizes_mapNames]
              -- A marker that is rejected ends the writing, whatever is behind it.
              refine permits.datLengthCounting.inStep ?_ (.unexpected place .lengthMarker)
              apply (literal_inStep (.inl rfl) _ _).bind
              intro word
              exact (InStep.write _).bind fun _ => ih
          | string text place => exact (writeUnits_inStep text.units).bind fun _ => ih
          | word value =>
              apply (expression_inStep permits same (some value)).bind
              intro word
              exact (InStep.write _).bind fun _ => ih

theorem body_inStep (body : Option Body) :
    InStep lenient first second (rules.body body)
      (rules'.body (body.map (Body.mapNames rename))) := by
  cases body with
  | none => exact .fail _
  | some body =>
      cases body with
      | addressFix value position => exact .fail _
      | basic opcode a b position => exact basic_inStep permits same opcode a b position
      | extended opcode operand position =>
          exact extended_inStep permits same opcode operand position
      | data values position => exact data_inStep permits same position values

end Walk

end EncodingRules

end Dcpu
