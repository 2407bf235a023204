import Dcpu.Proofs.FoldInstruction
import Dcpu.Proofs.ListingLines
import Dcpu.Proofs.SourceLines

set_option autoImplicit false

namespace Dcpu

namespace StatementReader

variable {reader : StatementReader} {tokens rest : List Token} {x : Argument}
  {found : List Argument} {a b operand : Operand} {valueA valueB value word : Word}

theorem stops_nil : Stops [] := by simp [Stops]

theorem stops_of_comma {separator : Token} (comma : separator.kind = .comma) :
    Stops (separator :: rest) := by
  simp [Stops, comma]

theorem argumentsAfter_last (some : tokens ≠ []) (read : reader.argument tokens = .ok (x, [])) :
    reader.argumentsAfter found tokens = .ok (x :: found).reverse := by
  obtain ⟨t, further, rfl⟩ := List.exists_cons_of_ne_nil some
  rw [argumentsAfter.eq_def]
  dsimp only
  split
  · rename_i failed
    exact absurd (failed.symm.trans read) (by simp)
  · rename_i found
    obtain ⟨rfl, _⟩ := Prod.mk.inj (Except.ok.inj (found.symm.trans read))
    rfl
  · rename_i found
    exact absurd (Prod.mk.inj (Except.ok.inj (found.symm.trans read))).2 (by simp)

theorem argumentsAfter_more {separator : Token} (some : tokens ≠ [])
    (read : reader.argument tokens = .ok (x, separator :: rest))
    (comma : separator.kind = .comma) :
    reader.argumentsAfter found tokens = reader.argumentsAfter (x :: found) rest := by
  obtain ⟨t, further, rfl⟩ := List.exists_cons_of_ne_nil some
  rw [argumentsAfter.eq_def]
  dsimp only
  split
  · rename_i failed
    exact absurd (failed.symm.trans read) (by simp)
  · rename_i found
    exact absurd (Prod.mk.inj (Except.ok.inj (found.symm.trans read))).2 (by simp)
  · rename_i found
    obtain ⟨rfl, same⟩ := Prod.mk.inj (Except.ok.inj (found.symm.trans read))
    obtain ⟨rfl, rfl⟩ := List.cons.inj same
    rw [if_pos comma]

theorem ne_nil_of_shapes {layout : Layout} (shapes : tokens.map Token.shape =
    (Listing.operandPieces layout value operand).filterMap Piece.shape?) : tokens ≠ [] := by
  rintro rfl
  cases operand <;> simp [Listing.operandPieces, Piece.shape?] at shapes

theorem statement_named {p : Position} {word : Text} {body : Body}
    (read : reader.namedBody ⟨.identifier, p, word⟩ tokens = .ok (body, [])) :
    reader.statement (⟨.identifier, p, word⟩ :: tokens) = .ok ⟨none, some body, p⟩ := by
  simp [statement, label?, StatementReader.body, read, startPosition, bind, Except.bind, pure,
    Except.pure]

theorem statement_basic {op : BasicOp}
    (known : (reader.layout.basicOpcode? op.mnemonic).isSome = true)
    (shapes : tokens.map Token.shape =
      (Listing.basicPieces reader.layout op a b valueA valueB).filterMap Piece.shape?) :
    ∃ (x y : Argument) (p : Position), x.Shows reader.layout valueA a ∧
      y.Shows reader.layout valueB b ∧
      reader.statement tokens = .ok ⟨none, some (.basic op.mnemonic (some x) (some y) p), p⟩ := by
  simp only [Listing.basicPieces, List.filterMap_cons, List.filterMap_append, Piece.shape?] at shapes
  obtain ⟨p, arguments, rfl, written⟩ := Token.map_shape_eq_cons shapes
  obtain ⟨first, others, rfl, shapesA, behind⟩ := List.map_eq_append_iff.1 written
  obtain ⟨q, second, rfl, shapesB⟩ := Token.map_shape_eq_cons behind
  -- The first operand ends at the comma, and the second with the line.
  have comma : Stops (⟨Piece.markKind 0x2c, q, [0x2c]⟩ :: second) :=
    stops_of_comma (by decide : Piece.markKind 0x2c = .comma)
  obtain ⟨x, showsA, readA⟩ := argument_operand a comma shapesA
  obtain ⟨y, showsB, readB⟩ := argument_operand b stops_nil shapesB
  rw [List.append_nil] at readB
  have read : reader.argumentsAfter [] (first ++ ⟨Piece.markKind 0x2c, q, [0x2c]⟩ :: second) =
      .ok [x, y] := by
    rw [argumentsAfter_more (by simp) readA (by decide : Piece.markKind 0x2c = .comma),
      argumentsAfter_last (ne_nil_of_shapes shapesB) readB]
    rfl
  have other : op.mnemonic ≠ "dat" := by cases op <;> decide
  refine ⟨x, y, p, showsA, showsB, statement_named ?_⟩
  simp [namedBody, Layout.lower_mnemonic, other, known, arguments, read, bind, Except.bind, pure,
    Except.pure]

theorem statement_extended {op : ExtendedOp}
    (known : (reader.layout.extendedOpcode? op.mnemonic).isSome = true)
    (shapes : tokens.map Token.shape =
      (Listing.extendedPieces reader.layout op operand value).filterMap Piece.shape?) :
    ∃ (x : Argument) (p : Position), x.Shows reader.layout value operand ∧
      reader.statement tokens = .ok ⟨none, some (.extended op.mnemonic (some x) p), p⟩ := by
  simp only [Listing.extendedPieces, List.filterMap_cons, Piece.shape?] at shapes
  obtain ⟨p, first, rfl, written⟩ := Token.map_shape_eq_cons shapes
  obtain ⟨x, shown, read⟩ := argument_operand operand stops_nil written
  rw [List.append_nil] at read
  have found : reader.argumentsAfter [] first = .ok [x] :=
    argumentsAfter_last (ne_nil_of_shapes written) read
  have other : op.mnemonic ≠ "dat" := by cases op <;> decide
  refine ⟨x, p, shown, statement_named ?_⟩
  simp [namedBody, Layout.lower_extendedMnemonic, other, Layout.basicOpcode?_extendedMnemonic, known,
    arguments, found, bind, Except.bind, pure, Except.pure]

theorem dataAfter_last {name : Token} {v : DataValue} {values : List (Option DataValue)}
    (read : reader.dataValue tokens = .ok (v, [])) :
    reader.dataAfter name values tokens =
      .ok (.data (some v :: values).reverse (name.position.span v.position), []) := by
  rw [dataAfter.eq_def]
  split
  · rename_i failed
    exact absurd (failed.symm.trans read) (by simp)
  · rename_i found
    exact absurd (Prod.mk.inj (Except.ok.inj (found.symm.trans read))).2 (by simp)
  · rename_i found
    obtain ⟨rfl, rfl⟩ := Prod.mk.inj (Except.ok.inj (found.symm.trans read))
    rfl

theorem dataAfter_more {name separator : Token} {v : DataValue}
    {values : List (Option DataValue)} (read : reader.dataValue tokens = .ok (v, separator :: rest))
    (comma : separator.kind = .comma) :
    reader.dataAfter name values tokens = reader.dataAfter name (some v :: values) rest := by
  rw [dataAfter.eq_def]
  split
  · rename_i failed
    exact absurd (failed.symm.trans read) (by simp)
  · rename_i found
    obtain ⟨rfl, same⟩ := Prod.mk.inj (Except.ok.inj (found.symm.trans read))
    obtain ⟨_, rfl⟩ := List.cons.inj same
    rfl
  · rename_i other found
    obtain ⟨_, rfl⟩ := Prod.mk.inj (Except.ok.inj (found.symm.trans read))
    obtain ⟨kind, p, w⟩ := separator
    obtain rfl : kind = .comma := comma
    exact absurd rfl (other p w rest)

theorem dataValue_hexWord (reader : StatementReader) (word : Word) (p : Position)
    (stops : Stops rest) :
    ∃ e : Expression, e.IsNumber word ∧
      reader.dataValue (⟨.literal, p, "0x" ++ Text.hexWord word⟩ :: rest) =
        .ok (.word e, rest) := by
  obtain ⟨e, number, read⟩ : ∃ e : Expression, e.IsNumber word ∧
      reader.expression (⟨.literal, p, "0x" ++ Text.hexWord word⟩ :: rest) = .ok (e, rest) :=
    expression_numeral (Numeral.decode_hexWord word) stops
  refine ⟨e, number, ?_⟩
  simp [dataValue, read, bind, Except.bind, pure, Except.pure]

theorem dataAfter_numbers (reader : StatementReader) {words : List Word} (some : words ≠ [])
    (shapes : tokens.map Token.shape = (Listing.valuePieces words).filterMap Piece.shape?)
    (name : Token) (found : List (Option DataValue)) :
    ∃ (values : List (Option DataValue)) (q : Position),
      List.Forall₂ DataValue.IsNumber words values ∧
      reader.dataAfter name found tokens = .ok (.data (found.reverse ++ values) q, []) := by
  fun_induction Listing.valuePieces words generalizing tokens found with
  | case1 => exact absurd rfl some
  | case2 word =>
      obtain ⟨p, rfl⟩ := Token.map_shape_eq_singleton shapes
      obtain ⟨e, number, read⟩ := reader.dataValue_hexWord word p stops_nil
      refine ⟨[.some (.word e)], name.position.span e.position, .cons ⟨e, number, rfl⟩ .nil, ?_⟩
      rw [dataAfter_last read, List.reverse_cons]
      rfl
  | case3 word next rest ih =>
      obtain ⟨p, others, rfl, behind⟩ := Token.map_shape_eq_cons shapes
      obtain ⟨q, tokens, rfl, written⟩ := Token.map_shape_eq_cons behind
      -- A value ends at the comma behind it.
      have comma : (⟨Piece.markKind 0x2c, q, [0x2c]⟩ : Token).kind = .comma :=
        (by decide : Piece.markKind 0x2c = .comma)
      obtain ⟨e, number, read⟩ := reader.dataValue_hexWord word p (stops_of_comma comma)
      obtain ⟨values, place, numbers, after⟩ := ih (by simp) written (.some (.word e) :: found)
      refine ⟨.some (.word e) :: values, place, .cons ⟨e, number, rfl⟩ numbers, ?_⟩
      rw [dataAfter_more read comma, after, List.reverse_cons, List.append_assoc]
      rfl

theorem statement_data (reader : StatementReader) {words : List Word} (some : words ≠ [])
    (shapes : tokens.map Token.shape = (Listing.dataPieces words).filterMap Piece.shape?) :
    ∃ (values : List (Option DataValue)) (p q : Position),
      List.Forall₂ DataValue.IsNumber words values ∧
      reader.statement tokens = .ok ⟨none, .some (.data values q), p⟩ := by
  obtain ⟨p, tokens, rfl, written⟩ := Token.map_shape_eq_cons shapes
  obtain ⟨values, q, numbers, read⟩ :=
    reader.dataAfter_numbers some written ⟨.identifier, p, "dat"⟩ []
  have lowered : Text.lower "dat" = "dat" := Text.lower_eq_self (by decide) (by decide)
  have further : tokens.isEmpty = false := by
    obtain ⟨word, rest, rfl⟩ := List.exists_cons_of_ne_nil some
    cases tokens with
    | nil => cases rest <;> simp [Listing.valuePieces, Piece.shape?] at written
    | cons _ _ => rfl
  refine ⟨values, p, q, numbers, statement_named ?_⟩
  simp only [namedBody, lowered, if_true, data, further, Bool.false_eq_true, if_false]
  exact read

end StatementReader

structure Statement.Gives (layout : Layout) (words : List Word) (s : Statement) : Prop where
  label : s.label = none
  body : ∃ body, s.body = some body ∧ body.Fixed layout words

namespace Source

variable {dialect : Dialect} {layout : Layout} {words : List Word} {pieces : List Piece}

def fewPieces : Nat := 14

theorem readable_of_parted {word : Text} {P : Statement → Prop}
    (parted : Piece.Parted (.name word :: pieces))
    (few : Piece.longest * (Piece.name word :: pieces).length < lineLimit)
    (parses : ∀ (reader : StatementReader) (tokens : List Token), reader.layout = layout →
      tokens.map Token.shape = (Piece.name word :: pieces).filterMap Piece.shape? →
      ∃ s, reader.statement tokens = .ok s ∧ P s) :
    Readable dialect layout P ((Piece.name word :: pieces).flatMap Piece.text) := by
  have printable : Text.Printable ((Piece.name word :: pieces).flatMap Piece.text) := by
    refine ⟨?_, parted.bytes⟩
    simp [Piece.text, parted.1.1.1]
  refine ⟨printable, Nat.lt_of_le_of_lt parted.length_le few, fun start => ?_⟩
  · rw [readLine, lineContent_eq printable]
    obtain ⟨tokens, shapes, read⟩ := Piece.ofLine_pieces parted
      ⟨dialect.localLabels, dialect.extendedLabelNames⟩ start
    obtain ⟨s, statement, holds⟩ := parses ⟨dialect.signedNumbers, dialect.numeralRules, layout,
      start.position ((Piece.name word :: pieces).flatMap Piece.text).length 1⟩ tokens rfl shapes
    have some : tokens ≠ [] := by
      rintro rfl
      simp [Piece.shape?] at shapes
    refine ⟨s, ?_, holds⟩
    simp only [read, List.isEmpty_nil, Bool.not_true, Bool.false_eq_true, if_false,
      List.isEmpty_iff, some, statement]

theorem readable_of_pieces {word : Text} {P : Statement → Prop}
    (parted : Piece.Parted (.name word :: pieces)) (few : pieces.length < fewPieces)
    (parses : ∀ (reader : StatementReader) (tokens : List Token), reader.layout = layout →
      tokens.map Token.shape = (Piece.name word :: pieces).filterMap Piece.shape? →
      ∃ s, reader.statement tokens = .ok s ∧ P s) :
    Readable dialect layout P ((Piece.name word :: pieces).flatMap Piece.text) := by
  refine readable_of_parted parted ?_ parses
  simp only [fewPieces, Piece.longest, List.length_cons, lineLimit] at few ⊢
  omega

end Source

namespace Listing

variable {dialect : Dialect} {layout : Layout} {word : Word} {tail : List Word} {text : Text}

theorem flatMap_basicPieces (layout : Layout) (op : BasicOp) (a b : Operand)
    (valueA valueB : Word) :
    (basicPieces layout op a b valueA valueB).flatMap Piece.text =
      op.mnemonic ++ " " ++ operandText layout .empty valueA a ++ ", " ++
        operandText layout .empty valueB b := by
  simp only [basicPieces, List.flatMap_cons, List.flatMap_append, flatMap_operandPieces,
    Piece.text, List.append_assoc]
  rfl

theorem flatMap_extendedPieces (layout : Layout) (op : ExtendedOp) (operand : Operand)
    (value : Word) :
    (extendedPieces layout op operand value).flatMap Piece.text =
      op.mnemonic ++ " " ++ operandText layout .empty value operand := by
  simp only [extendedPieces, List.flatMap_cons, flatMap_operandPieces, Piece.text,
    List.append_assoc]
  rfl

theorem flatMap_wordPieces (word : Word) : (wordPieces word).flatMap Piece.text = dataText word := by
  simp only [wordPieces, List.flatMap_cons, List.flatMap_nil, Piece.text, List.append_nil]
  rfl

theorem Shown.readable (shown : Shown layout .empty word tail text) :
    Source.Readable dialect layout (Statement.Gives layout (layout.foldInstruction word tail))
      text := by
  cases shown with
  | @basic op a b decodes valueA valueB =>
      rw [← flatMap_basicPieces]
      refine Source.readable_of_pieces (parted_basicPieces layout op a b valueA valueB) ?_ ?_
      · have first := length_operandPieces layout valueA a
        have second := length_operandPieces layout valueB b
        simp only [List.length_cons, List.length_append, Source.fewPieces]
        omega
      · rintro reader tokens rfl shapes
        have known := Layout.basicOpcode?_of_basicOp? decodes.operation
        obtain ⟨x, y, p, first, second, read⟩ := StatementReader.statement_basic
          (by simp [known]) shapes
        exact ⟨_, read, rfl, _, rfl, Body.fixed_basic decodes first second⟩
  | @extended op operand decodes value =>
      rw [← flatMap_extendedPieces]
      refine Source.readable_of_pieces (parted_extendedPieces layout op operand value) ?_ ?_
      · have only := length_operandPieces layout value operand
        simp only [List.length_cons, Source.fewPieces]
        omega
      · rintro reader tokens rfl shapes
        have known := Layout.extendedOpcode?_of_extendedOp? decodes.operation
        obtain ⟨x, p, shown, read⟩ := StatementReader.statement_extended (by simp [known]) shapes
        exact ⟨_, read, rfl, _, rfl, Body.fixed_extended decodes shown⟩

theorem readable_dataText (layout : Layout) (word : Word) :
    Source.Readable dialect layout (Statement.Gives layout [word]) (dataText word) := by
  rw [← flatMap_wordPieces]
  refine Source.readable_of_pieces (parted_wordPieces word) (by simp [Source.fewPieces]) ?_
  rintro reader tokens rfl shapes
  obtain ⟨values, p, q, numbers, read⟩ := reader.statement_data (List.cons_ne_nil word []) shapes
  exact ⟨_, read, rfl, _, rfl, Body.fixed_data numbers⟩

end Listing

end Dcpu
