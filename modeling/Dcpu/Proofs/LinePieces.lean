import Dcpu.Proofs.LexPieces
import Dcpu.Proofs.WrittenNumber

set_option autoImplicit false

namespace Dcpu

namespace Piece

theorem parted_append {before after : List Piece} (left : Parted before) (right : Parted after)
    (apart : ∀ next ∈ after.head?, next.isWord = false) : Parted (before ++ after) := by
  induction before with
  | nil => exact right
  | cons piece rest ih =>
      obtain ⟨formed, alone, left⟩ := left
      refine ⟨formed, fun word next first => ?_, ih left⟩
      cases rest with
      | nil => exact apart next first
      | cons other rest => exact alone word next first

theorem parted_mark {byte : UInt8} {rest : List Piece} (mark : byte ∈ marks)
    (parted : Parted rest) : Parted (.mark byte :: rest) :=
  ⟨mark, fun word => by simp [isWord] at word, parted⟩

theorem parted_blank {rest : List Piece} (parted : Parted rest) : Parted (.blank :: rest) :=
  ⟨trivial, fun word => by simp [isWord] at word, parted⟩

theorem parted_last {piece : Piece} (formed : piece.Formed) : Parted [piece] :=
  ⟨formed, fun _ => by simp, trivial⟩

theorem parted_word {piece next : Piece} {rest : List Piece} (formed : piece.Formed)
    (apart : next.isWord = false) (parted : Parted (next :: rest)) :
    Parted (piece :: next :: rest) :=
  ⟨formed, fun _ _ first => Option.some.inj first ▸ apart, parted⟩

theorem Formed.length_le {piece : Piece} (formed : piece.Formed) : piece.text.length ≤ longest := by
  cases piece with
  | blank => decide
  | mark _ => exact Nat.le_of_ble_eq_true rfl
  | name _ => exact formed.2
  | numeral _ => exact formed.2

theorem Parted.length_le {pieces : List Piece} (parted : Parted pieces) :
    (pieces.flatMap text).length ≤ longest * pieces.length := by
  induction pieces with
  | nil => simp
  | cons piece rest ih =>
      have first := parted.1.length_le
      have others := ih parted.2.2
      rw [List.flatMap_cons, List.length_append, List.length_cons, Nat.mul_succ]
      omega

theorem Formed.bytes {piece : Piece} (formed : piece.Formed) : ∀ b ∈ piece.text, 0x20 ≤ b := by
  intro b member
  cases piece with
  | blank =>
      obtain rfl := List.mem_singleton.1 member
      decide
  | mark byte =>
      obtain rfl := List.mem_singleton.1 member
      have all : ∀ b ∈ marks, 0x20 ≤ b := by decide +kernel
      exact all b formed
  | name word =>
      have all : ∀ n : Fin 0x100, NameRules.isLetter (UInt8.ofNat n) = true →
          0x20 ≤ UInt8.ofNat n := by decide +kernel
      exact of_all_bytes (P := (0x20 ≤ ·)) all (formed.1.2 b member)
  | numeral word =>
      have all : ∀ n : Fin 0x100, NameRules.inNumeral (UInt8.ofNat n) = true →
          0x20 ≤ UInt8.ofNat n := by decide +kernel
      exact of_all_bytes (P := (0x20 ≤ ·)) all (formed.1.2 b member)

theorem Parted.bytes {pieces : List Piece} (parted : Parted pieces) :
    ∀ b ∈ pieces.flatMap text, 0x20 ≤ b := by
  induction pieces with
  | nil => simp
  | cons piece rest ih =>
      intro b member
      rw [List.flatMap_cons] at member
      rcases List.mem_append.1 member with first | others
      · exact parted.1.bytes b first
      · exact ih parted.2.2 b others

end Piece

namespace Listing

open Text

theorem numeral_hexWord (word : Word) : (Piece.numeral ("0x" ++ hexWord word)).Formed := by
  refine ⟨⟨⟨0x30, rfl, rfl⟩, fun b member => ?_⟩, ?_⟩
  · rcases List.mem_append.1 member with mark | digit
    · have all : ∀ b ∈ ("0x" : Text), NameRules.inNumeral b = true := by decide +kernel
      exact all b mark
    · obtain ⟨d, below, rfl⟩ := mem_hexWord digit
      exact (digitByte_hex below).2.1
  · rw [List.length_append, length_hexWord]
    decide

theorem numeral_decimal {n : Nat} (small : n < 0x20) : (Piece.numeral (decimal n)).Formed := by
  have all : ∀ n : Fin 0x20, ((decimal n).head?.any isDigit &&
      (decimal n).all NameRules.inNumeral &&
      decide ((decimal n).length ≤ Piece.longest)) = true := by
    decide +kernel
  simpa [Piece.Formed, Option.any_eq_true, and_assoc] using all ⟨n, small⟩

theorem numeral_literal (value : Word) : (Piece.numeral (literal value)).Formed := by
  rw [literal]
  split
  · rename_i small
    exact numeral_decimal small
  · exact numeral_hexWord value

def operandPieces (layout : Layout) (value : Word) : Operand → List Piece
  | .register r => [.name r.name]
  | .indirect r => [.mark 0x5b, .name r.name, .mark 0x5d]
  | .indexed r => [.mark 0x5b, .numeral (literal value), .mark 0x2b, .name r.name, .mark 0x5d]
  | .push => [.name "push"]
  | .pop => [.name "pop"]
  | .peek => [.name "peek"]
  | .pick => [.name "pick", .blank, .numeral (literal value)]
  | .sp => [.name (layout.specialName .sp)]
  | .pc => [.name (layout.specialName .pc)]
  | .ex => [.name (layout.specialName .ex)]
  | .direct => [.mark 0x5b, .numeral (literal value), .mark 0x5d]
  | .literal => [.numeral (literal value)]
  | .short n => [.numeral (literal n)]

theorem get_empty (address : Word) : Notes.empty.get address = .empty := by
  simp [Notes.get, Notes.empty]

theorem dataName_empty (value : Word) : dataName .empty value = literal value := by
  rw [dataName, get_empty]
  rfl

theorem name_empty (value : Word) : name .empty value = literal value := by
  rw [name, get_empty, dataName_empty]
  rfl

theorem flatMap_operandPieces (layout : Layout) (value : Word) (operand : Operand) :
    (operandPieces layout value operand).flatMap Piece.text =
      operandText layout .empty value operand := by
  cases operand <;>
    simp only [operandPieces, operandText, dataName_empty, name_empty, List.flatMap_cons,
      List.flatMap_nil, List.append_nil, List.append_assoc, Piece.text] <;> rfl

theorem parted_operandPieces (layout : Layout) (value : Word) (operand : Operand) :
    Piece.Parted (operandPieces layout value operand) := by
  have registers (r : Register) : (Piece.name r.name).Formed := by cases r <;> decide
  have specials (r : SpecialRegister) : (Piece.name (layout.specialName r)).Formed := by
    cases layout <;> cases r <;> decide
  have numeral := numeral_literal value
  have closed : Piece.Parted [.mark 0x5d] := Piece.parted_mark (by decide) trivial
  cases operand with
  | register r => exact Piece.parted_last (registers r)
  | indirect r => exact Piece.parted_mark (by decide) (Piece.parted_word (registers r) rfl closed)
  | indexed r =>
      exact Piece.parted_mark (by decide) (Piece.parted_word numeral rfl
        (Piece.parted_mark (by decide) (Piece.parted_word (registers r) rfl closed)))
  | push => exact Piece.parted_last (by decide)
  | pop => exact Piece.parted_last (by decide)
  | peek => exact Piece.parted_last (by decide)
  | pick =>
      exact Piece.parted_word (by decide) rfl (Piece.parted_blank (Piece.parted_last numeral))
  | sp => exact Piece.parted_last (specials .sp)
  | pc => exact Piece.parted_last (specials .pc)
  | ex => exact Piece.parted_last (specials .ex)
  | direct => exact Piece.parted_mark (by decide) (Piece.parted_word numeral rfl closed)
  | literal => exact Piece.parted_last numeral
  | short n => exact Piece.parted_last (numeral_literal n)

theorem length_operandPieces (layout : Layout) (value : Word) (operand : Operand) :
    (operandPieces layout value operand).length ≤ 5 := by
  cases operand <;> exact Nat.le_of_ble_eq_true rfl

def basicPieces (layout : Layout) (op : BasicOp) (a b : Operand) (valueA valueB : Word) :
    List Piece :=
  .name op.mnemonic :: .blank :: (operandPieces layout valueA a ++
    .mark 0x2c :: .blank :: operandPieces layout valueB b)

def extendedPieces (layout : Layout) (op : ExtendedOp) (operand : Operand) (value : Word) :
    List Piece :=
  .name op.mnemonic :: .blank :: operandPieces layout value operand

def wordPieces (word : Word) : List Piece :=
  [.name "dat", .blank, .numeral ("0x" ++ hexWord word)]

def valuePieces : List Word → List Piece
  | [] => []
  | [word] => [.numeral ("0x" ++ hexWord word)]
  | word :: next :: rest =>
      .numeral ("0x" ++ hexWord word) :: .mark 0x2c :: .blank :: valuePieces (next :: rest)

def dataPieces (words : List Word) : List Piece := .name "dat" :: .blank :: valuePieces words

theorem parted_basicPieces (layout : Layout) (op : BasicOp) (a b : Operand)
    (valueA valueB : Word) : Piece.Parted (basicPieces layout op a b valueA valueB) := by
  have mnemonic : (Piece.name op.mnemonic).Formed := by cases op <;> decide
  have second := Piece.parted_blank (parted_operandPieces layout valueB b)
  refine Piece.parted_word mnemonic rfl (Piece.parted_blank ?_)
  refine Piece.parted_append (parted_operandPieces layout valueA a)
    (Piece.parted_mark (by decide) second) fun next first => ?_
  obtain rfl : Piece.mark 0x2c = next := Option.some.inj first
  rfl

theorem parted_extendedPieces (layout : Layout) (op : ExtendedOp) (operand : Operand)
    (value : Word) : Piece.Parted (extendedPieces layout op operand value) := by
  have mnemonic : (Piece.name op.mnemonic).Formed := by cases op <;> decide
  exact Piece.parted_word mnemonic rfl
    (Piece.parted_blank (parted_operandPieces layout value operand))

theorem parted_valuePieces (words : List Word) : Piece.Parted (valuePieces words) := by
  fun_induction valuePieces words with
  | case1 => trivial
  | case2 word => exact Piece.parted_last (numeral_hexWord word)
  | case3 word next rest ih =>
      exact Piece.parted_word (numeral_hexWord word) rfl
        (Piece.parted_mark (by decide) (Piece.parted_blank ih))

theorem length_valuePieces_le (words : List Word) :
    (valuePieces words).length ≤ 3 * words.length := by
  fun_induction valuePieces words with
  | case1 => rfl
  | case2 word => exact Nat.le_of_ble_eq_true rfl
  | case3 word next rest ih =>
      simp only [List.length_cons] at ih ⊢
      omega

theorem parted_dataPieces (words : List Word) : Piece.Parted (dataPieces words) :=
  Piece.parted_word (by decide) rfl (Piece.parted_blank (parted_valuePieces words))

theorem parted_wordPieces (word : Word) : Piece.Parted (wordPieces word) :=
  parted_dataPieces [word]

end Listing

end Dcpu
