import Dcpu.Program

set_option autoImplicit false

namespace Dcpu

abbrev Emission (σ ε : Type) := StateT σ (Except ε)

/-- An emitter whose state shows the words written to it, and that ends at the first failure. -/
class Recorder (σ : Type) (ε : outParam Type) [Emitter (Emission σ ε)] where
  written : σ → List Code
  errorOf : Diagnostic → ε
  write_ok : ∀ (word : Code) (s : σ), ∃ t,
    (Emitter.write word : Emission σ ε Unit) s = .ok ((), t) ∧
      written t = written s ++ [word]
  lookup_written : ∀ (name : Text) (position : Position) (s : σ) (index : Nat) (t : σ),
    (Emitter.lookup name position : Emission σ ε Nat) s = .ok (index, t) →
      written t = written s
  address_written : ∀ (s : σ) (here : Word) (t : σ),
    (Emitter.address : Emission σ ε Word) s = .ok (here, t) → written t = written s
  difference_written : ∀ (difference : Difference) (s : σ) (word : Code) (t : σ),
    (Emitter.difference difference : Emission σ ε Code) s = .ok (word, t) →
      written t = written s
  fail_eq : ∀ {α : Type} (diagnostic : Diagnostic) (s : σ),
    (Emitter.fail diagnostic : Emission σ ε α) s = .error (errorOf diagnostic)

instance : Recorder Program Failure where
  written p := p.code.toList
  errorOf := .located
  write_ok word p := ⟨{ p with code := p.code.push word }, rfl, by simp⟩
  lookup_written name position p index q isOk := by
    change p.index (p.qualify name) position = _ at isOk
    rw [Program.index] at isOk
    split at isOk
    · obtain ⟨_, rfl⟩ := Prod.mk.inj (Except.ok.inj isOk)
      rfl
    · cases isOk
  address_written p here q isOk := by
    obtain ⟨_, rfl⟩ := Prod.mk.inj (Except.ok.inj isOk)
    rfl
  difference_written difference p word q isOk := by
    change p.keepDifference difference = _ at isOk
    rw [Program.keepDifference] at isOk
    split at isOk
    · cases isOk
    · cases isOk
    · obtain ⟨_, rfl⟩ := Prod.mk.inj (Except.ok.inj isOk)
      rfl
  fail_eq diagnostic p := rfl

namespace EncodingRules

section Emission

variable {σ ε α β : Type} {x : Emission σ ε α} {f : α → Emission σ ε β} {s t : σ}

theorem bind_eq_ok_iff {b : β} {u : σ} :
    (x >>= f) s = .ok (b, u) ↔ ∃ a t, x s = .ok (a, t) ∧ f a t = .ok (b, u) := by
  change (x s >>= fun result => f result.1 result.2) = _ ↔ _
  cases x s with
  | error e => simp [bind, Except.bind]
  | ok result =>
      constructor
      · exact fun rest => ⟨_, _, rfl, rest⟩
      · rintro ⟨a, t, same, rest⟩
        obtain rfl := Except.ok.inj same
        exact rest

theorem bind_of_ok {a : α} (first : x s = .ok (a, t)) : (x >>= f) s = f a t := by
  change (x s >>= fun result => f result.1 result.2) = _
  rw [first]
  rfl

theorem bind_of_error {e : ε} (first : x s = .error e) : (x >>= f) s = .error e := by
  change (x s >>= fun result => f result.1 result.2) = _
  rw [first]
  rfl

end Emission

section Values

variable {m : Type → Type} [Monad m] [Emitter m] (rules : EncodingRules)

def dataValue (position : Position) (first : Option DataValue) (rest : List (Option DataValue)) :
    m Unit :=
  match first with
  | some (.lengthMarker place) =>
      if rules.datLengthCounting then do
        let word ← literal 0 (dataSizes rest) place
        Emitter.write word
      else reject place .lengthMarker
  | some (.string text _) => writeUnits text.units
  | some (.word value) => do
      let word ← rules.expression (some value)
      Emitter.write (markData word)
  | none => reject position .emptyDataValue

def dataValues (position : Position) : List (Option DataValue) → List (Option DataValue) → m Unit
  | [], _ => pure ()
  | first :: rest, after => do
      -- A marker among these values counts what is behind them, too.
      rules.dataValue position first (rest ++ after)
      dataValues position rest after

end Values

variable {σ ε : Type} [Emitter (Emission σ ε)] [Recorder σ ε] {rules : EncodingRules}
  {position place : Position} {s t : σ}

open Recorder (written errorOf)

theorem data_cons (rules : EncodingRules) (position : Position) (first : Option DataValue)
    (rest : List (Option DataValue)) :
    (rules.data position (first :: rest) : Emission σ ε Unit) = (do
      rules.dataValue position first rest
      rules.data position rest) := by
  rcases first with _ | ⟨text, place⟩ | ⟨place⟩ | ⟨e⟩
  · -- A missing value is the end of it, whatever the rest would do.
    funext s
    have failed : (rules.dataValue position none rest : Emission σ ε Unit) s =
        .error (errorOf σ (.unexpected position .emptyDataValue)) := Recorder.fail_eq _ s
    rw [bind_of_error failed]
    exact Recorder.fail_eq _ s
  · rfl
  · rw [data, dataValue]
    split
    · rw [bind_assoc]
    · rfl
  · rw [data, dataValue, bind_assoc]

theorem data_append (rules : EncodingRules) (position : Position)
    (before after : List (Option DataValue)) :
    (rules.data position (before ++ after) : Emission σ ε Unit) = (do
      rules.dataValues position before after
      rules.data position after) := by
  induction before with
  | nil => rw [List.nil_append, dataValues, pure_bind]
  | cons first rest ih => rw [List.cons_append, data_cons, ih, dataValues, bind_assoc]

section Words

def Writes {α : Type} (count : Nat) (x : Emission σ ε α) : Prop :=
  ∀ s a t, x s = .ok (a, t) → ∃ words, written t = written s ++ words ∧ words.length = count

namespace Writes

variable {α β : Type} {count count' : Nat} {x : Emission σ ε α}

theorem of_same (same : ∀ s a t, x s = .ok (a, t) → written t = written s) : Writes 0 x :=
  fun s a t isOk => ⟨[], by rw [same s a t isOk, List.append_nil], rfl⟩

theorem bind {f : α → Emission σ ε β} (first : Writes count x)
    (second : ∀ a, Writes count' (f a)) : Writes (count + count') (x >>= f) := by
  intro s b u isOk
  obtain ⟨a, t, ran, rest⟩ := bind_eq_ok_iff.1 isOk
  obtain ⟨words, grown, counted⟩ := first s a t ran
  obtain ⟨words', grown', counted'⟩ := second a t b u rest
  exact ⟨words ++ words', by rw [grown', grown, List.append_assoc],
    by rw [List.length_append, counted, counted']⟩

theorem behind {f : α → Emission σ ε β} (first : Writes 0 x)
    (second : ∀ a, Writes count (f a)) : Writes count (x >>= f) :=
  Nat.zero_add count ▸ first.bind second

theorem pure (a : α) : Writes 0 (Pure.pure a : Emission σ ε α) := by
  refine of_same fun s b t isOk => ?_
  obtain ⟨_, rfl⟩ := Prod.mk.inj (Except.ok.inj isOk)
  rfl

theorem fail (diagnostic : Diagnostic) (count : Nat) :
    Writes count (Emitter.fail diagnostic : Emission σ ε α) := by
  intro s a t isOk
  rw [Recorder.fail_eq] at isOk
  cases isOk

theorem write (word : Code) : Writes 1 (Emitter.write word : Emission σ ε Unit) := by
  intro s a t isOk
  obtain ⟨t', ran, grown⟩ := Recorder.write_ok word s
  obtain ⟨_, rfl⟩ := Prod.mk.inj (Except.ok.inj (ran.symm.trans isOk))
  exact ⟨[word], grown, rfl⟩

theorem lookup (name : Text) (position : Position) :
    Writes 0 (Emitter.lookup name position : Emission σ ε Nat) :=
  of_same (Recorder.lookup_written name position)

theorem address : Writes 0 (Emitter.address : Emission σ ε Word) :=
  of_same Recorder.address_written

theorem difference (difference : Difference) :
    Writes 0 (Emitter.difference difference : Emission σ ε Code) :=
  of_same (Recorder.difference_written difference)

theorem literal (least value : Int) (position : Position) :
    Writes 0 (EncodingRules.literal least value position : Emission σ ε Code) := by
  rw [EncodingRules.literal]
  split
  · exact fail _ 0
  · exact pure _

theorem atom (rules : EncodingRules) (a : Atom) :
    Writes 0 (rules.atom a : Emission σ ε Code) := by
  induction a with
  | number value position => exact literal _ _ _
  | character value position => exact literal _ _ _
  | identifier name position => exact (lookup name position).behind fun index => pure _
  | difference target position ih =>
      rw [EncodingRules.atom]
      split
      · exact address.behind fun here => ih.behind fun word => difference _
      · exact fail _ 0
  | absent => exact fail _ 0

theorem expression (rules : EncodingRules) (e : Expression) :
    Writes 0 (rules.expression (some e) : Emission σ ε Code) := by
  rw [EncodingRules.expression.eq_def]
  split
  · exact fail _ 0
  · exact fail _ 0
  · exact atom rules _
  · refine (atom rules _).behind fun base => ?_
    split
    · exact (atom rules _).behind fun target => difference ⟨base, target⟩
    · exact fail _ 0

theorem writeUnits (units : List Word) :
    Writes units.length (EncodingRules.writeUnits units : Emission σ ε Unit) := by
  induction units with
  | nil => exact pure ()
  | cons unit rest ih =>
      rw [List.length_cons, Nat.add_comm]
      exact (write _).bind fun _ => ih

theorem dataValue (rules : EncodingRules) (position : Position) (first : Option DataValue)
    (rest : List (Option DataValue)) :
    Writes (dataSize first) (rules.dataValue position first rest : Emission σ ε Unit) := by
  rcases first with _ | ⟨text, place⟩ | ⟨place⟩ | ⟨value⟩
  · exact fail _ 1
  · exact writeUnits _
  · rw [EncodingRules.dataValue]
    split
    · exact (literal _ _ _).behind fun word => write word
    · exact fail _ 1
  · exact (expression rules value).behind fun word => write _

theorem dataValues (rules : EncodingRules) (position : Position)
    (before after : List (Option DataValue)) :
    Writes (dataSizes before) (rules.dataValues position before after : Emission σ ε Unit) := by
  induction before with
  | nil => exact pure ()
  | cons first rest ih => exact (dataValue rules position first _).bind fun _ => ih

theorem data (rules : EncodingRules) (position : Position) (values : List (Option DataValue)) :
    Writes (dataSizes values) (rules.data position values : Emission σ ε Unit) := by
  induction values with
  | nil => exact pure ()
  | cons first rest ih =>
      rw [data_cons]
      exact (dataValue rules position first rest).bind fun _ => ih

end Writes

end Words

theorem dataValue_marker (counting : rules.datLengthCounting = true) (position place : Position)
    (rest : List (Option DataValue)) :
    (rules.dataValue position (some (.lengthMarker place)) rest : Emission σ ε Unit) =
      if 0xffff < dataSizes rest then
        Emitter.fail ⟨place, .numericOverflow (dataSizes rest)⟩
      else Emitter.write (.literal (dataSizes rest).toUInt16) := by
  rw [dataValue, if_pos counting, literal]
  by_cases large : 0xffff < dataSizes rest
  · rw [if_pos (.inr (by omega)), if_pos large]
    funext s
    rw [bind_of_error (Recorder.fail_eq _ s), Recorder.fail_eq]
  · rw [if_neg (by omega), if_neg large, pure_bind, Word.ofInt_natCast]

theorem counting_of_marker {rest : List (Option DataValue)} {result : Unit × σ}
    (isOk : rules.dataValue (m := Emission σ ε) position (some (.lengthMarker place)) rest s =
      .ok result) : rules.datLengthCounting = true := by
  cases counting : rules.datLengthCounting with
  | true => rfl
  | false =>
      rw [dataValue, if_neg (by simp [counting]), reject, Recorder.fail_eq] at isOk
      cases isOk

/-- What a marker does between the values before it and those behind it, with the emitter in a state
`s` where the `dat` starts. -/
structure Counts (rules : EncodingRules) (position place : Position)
    (before after : List (Option DataValue)) (s : σ) : Prop where
  -- Its word is the number of words that are then written for the values behind it.
  counted : ∀ t, rules.data (m := Emission σ ε) position
      (before ++ some (.lengthMarker place) :: after) s = .ok ((), t) →
    ∃ r u count behind,
      rules.dataValues (m := Emission σ ε) position before (some (.lengthMarker place) :: after) s =
        .ok ((), r) ∧
      (written r).length = (written s).length + dataSizes before ∧
      written u = written r ++ [.literal count] ∧
      rules.data (m := Emission σ ε) position after u = .ok ((), t) ∧
      written t = written u ++ behind ∧ count.toNat = behind.length
  -- The values behind it become as many words as were foreseen.
  size : ∀ u t, rules.data (m := Emission σ ε) position after u = .ok ((), t) →
    (written t).length = (written u).length + dataSizes after
  -- Where it is reached, it fails exactly if these are too many for a word.
  reached : rules.datLengthCounting = true → ∀ r,
    rules.dataValues (m := Emission σ ε) position before (some (.lengthMarker place) :: after) s =
      .ok ((), r) →
    if 0xffff < dataSizes after then
      rules.data (m := Emission σ ε) position (before ++ some (.lengthMarker place) :: after) s =
        .error (errorOf σ ⟨place, .numericOverflow (dataSizes after)⟩)
    else ∃ u, written u = written r ++ [.literal (dataSizes after).toUInt16] ∧
      rules.data (m := Emission σ ε) position (before ++ some (.lengthMarker place) :: after) s =
        rules.data (m := Emission σ ε) position after u

/-- A marker counts the words behind it, and only too many of them make it fail. -/
theorem data_counts (rules : EncodingRules) (position place : Position)
    (before after : List (Option DataValue)) (s : σ) :
    Counts rules position place before after s where
  counted t accepted := by
    -- From `s` to `r` stand the values before the marker, then the marker to `u`, then the rest.
    rw [data_append, bind_eq_ok_iff] at accepted
    obtain ⟨⟨⟩, r, ran, accepted⟩ := accepted
    rw [data_cons, bind_eq_ok_iff] at accepted
    obtain ⟨⟨⟩, u, marked, accepted⟩ := accepted
    obtain ⟨first, grown', counted'⟩ := Writes.dataValues rules position before _ s () r ran
    obtain ⟨behind, grown, counted⟩ := Writes.data rules position after u () t accepted
    rw [dataValue_marker (counting_of_marker marked)] at marked
    by_cases large : 0xffff < dataSizes after
    · rw [if_pos large, Recorder.fail_eq] at marked
      cases marked
    · rw [if_neg large] at marked
      obtain ⟨u', wrote, marker⟩ := Recorder.write_ok (.literal (dataSizes after).toUInt16) r
      obtain ⟨_, rfl⟩ := Prod.mk.inj (Except.ok.inj (wrote.symm.trans marked))
      refine ⟨r, _, _, behind, ran, ?_, marker, accepted, grown, ?_⟩
      · rw [grown', List.length_append, counted']
      · rw [counted, Nat.toUInt16_eq, UInt16.toNat_ofNat', Nat.mod_eq_of_lt (by omega)]
  size u t accepted := by
    obtain ⟨words, grown, counted⟩ := Writes.data rules position after u () t accepted
    rw [grown, List.length_append, counted]
  reached counting r ran := by
    have split : rules.data (m := Emission σ ε) position
        (before ++ some (.lengthMarker place) :: after) s = _ :=
      (congrFun (data_append rules position before _) s).trans (bind_of_ok ran)
    rw [split, data_cons, dataValue_marker counting]
    by_cases large : 0xffff < dataSizes after
    · rw [if_pos large, if_pos large, bind_of_error (Recorder.fail_eq _ r)]
    · obtain ⟨u, wrote, marker⟩ := Recorder.write_ok (.literal (dataSizes after).toUInt16) r
      rw [if_neg large, if_neg large, bind_of_ok wrote]
      exact ⟨u, marker, rfl⟩

/-- A marker before a byte that is no character, and one before a character of two words. -/
def marked : List (Option DataValue) :=
  [some (.lengthMarker .nowhere), some (.string [0xff] .nowhere), some (.lengthMarker .nowhere),
    some (.string [0xf0, 0x9d, 0x84, 0x9e] .nowhere),
    some (.word ⟨.number 7 .nowhere, none, .nowhere⟩)]

def markedRules : EncodingRules := ⟨.v2, false, true, false⟩

theorem units_marked :
    Text.units [0xff] = [0xfffd] ∧ Text.units [0xf0, 0x9d, 0x84, 0x9e] = [0xd834, 0xdd1e] := by
  have first : Text.decodeFirst 0xff [] = (Text.replacement, 1) := rfl
  have second : Text.decodeFirst 0xf0 [0x9d, 0x84, 0x9e] = (Char.ofNat 0x1d11e, 4) := rfl
  constructor
  · rw [Text.units, Text.chars_cons, first]
    simp
    rfl
  · rw [Text.units, Text.chars_cons, second]
    simp
    rfl

theorem data_marked :
    ∃ q, markedRules.data (m := Emission Program Failure) .nowhere marked (.empty false) =
      .ok ((), q) := by
  have counting : markedRules.datLengthCounting = true := rfl
  obtain ⟨first, second⟩ := units_marked
  simp only [marked, data, counting, if_true, dataSizes, dataSize, first, second, List.foldr]
  exact ⟨_, rfl⟩

theorem data_counts_marked :
    ∃ (q r u : Program) (behind : List Code),
      markedRules.data (m := Emission Program Failure) .nowhere marked (.empty false) =
        .ok ((), q) ∧
      written u = written r ++ [.literal 3] ∧ written q = written u ++ behind ∧
      behind.length = 3 := by
  obtain ⟨q, accepted⟩ := data_marked
  have counts := data_counts markedRules .nowhere .nowhere (marked.take 2) (marked.drop 3)
    (Program.empty false)
  obtain ⟨r, u, count, behind, _, _, marker, rest, grown, counted⟩ := counts.counted q accepted
  have three : dataSizes (marked.drop 3) = 3 := by
    simp [marked, dataSizes, dataSize, units_marked.2]
  have size := counts.size u q rest
  rw [grown, List.length_append, three] at size
  have length : behind.length = 3 := by omega
  have same : count = 3 := UInt16.toNat_inj.1 (counted.trans length)
  exact ⟨q, r, u, behind, accepted, same ▸ marker, grown, length⟩

end EncodingRules

end Dcpu
