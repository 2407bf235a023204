import Dcpu.Image.Format
import Dcpu.Proofs.ExtendedDialect
import Dcpu.Proofs.Reassemble
import Dcpu.Proofs.SymbolTypes

set_option autoImplicit false

namespace Dcpu

namespace Image

variable {dialect : Dialect} {image : Array Word} {row : Nat × List Word}

theorem flatMap_rows (image : Array Word) : (rows image).flatMap Prod.snd = image.toList := by
  have first (n : Nat) : ((List.range n).flatMap fun row =>
      (image.extract (row * rowWidth) ((row + 1) * rowWidth)).toList) =
        image.toList.take (n * rowWidth) := by
    induction n with
    | zero => simp
    | succ n ih =>
        rw [List.range_succ, List.flatMap_append, ih, List.flatMap_singleton, Array.toList_extract,
          List.extract_eq_take_drop, Nat.succ_mul, List.take_add, Nat.add_sub_cancel_left]
  -- So many rows reach the end of the image, and the last one may go beyond it.
  have enough : image.toList.length ≤ (image.size + rowWidth - 1) / rowWidth * rowWidth := by
    simp only [Array.length_toList, rowWidth]
    omega
  rw [rows, List.flatMap_map, first, List.take_of_length_le enough]

theorem length_of_mem_rows (member : row ∈ rows image) :
    row.2 ≠ [] ∧ row.2.length ≤ rowWidth := by
  obtain ⟨n, within, rfl⟩ := List.mem_map.1 member
  have some := List.mem_range.1 within
  have length : (image.extract (n * rowWidth) ((n + 1) * rowWidth)).toList.length =
      min ((n + 1) * rowWidth) image.size - n * rowWidth := by
    rw [Array.length_toList, Array.size_extract]
  simp only [rowWidth] at some length ⊢
  refine ⟨List.ne_nil_of_length_pos ?_, ?_⟩ <;> omega

theorem flatMap_valuePieces (words : List Word) :
    (Listing.valuePieces words).flatMap Piece.text =
      Text.join ", " (words.map fun w => ("0x" ++ Text.hexWord w : Text)) := by
  fun_induction Listing.valuePieces words with
  | case1 => rfl
  | case2 word => simp [Piece.text, Text.join, List.intercalate]
  | case3 word next rest ih =>
      rw [List.flatMap_cons, List.flatMap_cons, List.flatMap_cons, ih]
      simp only [Text.join, List.map_cons, List.intercalate_cons_cons, List.append_assoc]
      rfl

theorem dataRow_eq (words : List Word) :
    dataRow words = (Listing.dataPieces words).flatMap Piece.text ++ [Text.newline] := by
  rw [Listing.dataPieces, List.flatMap_cons, List.flatMap_cons, flatMap_valuePieces]
  rfl

theorem readable_row (dialect : Dialect) (layout : Layout) (member : row ∈ rows image) :
    Source.Readable dialect layout (Statement.Gives layout row.2)
      ((Listing.dataPieces row.2).flatMap Piece.text) := by
  obtain ⟨some, width⟩ := length_of_mem_rows member
  refine Source.readable_of_parted (Listing.parted_dataPieces row.2) ?_ ?_
  · have values := Listing.length_valuePieces_le row.2
    simp only [List.length_cons, Piece.longest, rowWidth, Source.lineLimit] at width ⊢
    omega
  · rintro reader tokens rfl shapes
    obtain ⟨values, p, q, numbers, read⟩ := reader.statement_data some shapes
    exact ⟨_, read, rfl, _, rfl, Body.fixed_data numbers⟩

theorem read_assemblyText {layout : Layout} (chosen : dialect.layout = .ok layout)
    (image : Array Word) :
    ∃ statements : List Statement,
      List.Forall₂ (fun row s => Statement.Gives layout (Prod.snd row) s) (rows image) statements ∧
      Source.read dialect (assemblyText image) = ⟨statements, []⟩ := by
  obtain ⟨statements, gives, read⟩ := Source.readFrom_lines
    (fun row (member : row ∈ rows image) => readable_row dialect layout member) ⟨1, 0⟩ [] []
  refine ⟨statements, gives, ?_⟩
  rw [Source.read, chosen]
  simpa [assemblyText, dataRow_eq] using read

end Image

namespace ProgramRules

variable {rules : ProgramRules} {statements : List Statement} {assembly : Assembly}

theorem Describes.labels_of_unnamed (describes : rules.Describes statements assembly)
    (unnamed : rules.mentions statements = [])
    (distinct : (assembly.symbols.map Symbol.name).Nodup) :
    (assembly.symbols.map fun s => (s.name, s.value)).Perm
      [(Symbol.codeStart, 0), (Symbol.codeEnd, assembly.image.size.toUInt16)] := by
  have apart : Symbol.codeStart ≠ Symbol.codeEnd := by decide
  have once : (assembly.symbols.map fun s => (s.name, s.value)).Nodup :=
    List.Nodup.of_map Prod.fst (by rwa [List.map_map])
  -- No label is listed twice, so it is enough to know which ones there are.
  rw [List.perm_ext_iff_of_nodup once (by simp [apart])]
  rintro ⟨name, value⟩
  have label : (name, value) ∈ (assembly.symbols.map fun s => (s.name, s.value)) ↔
      name ∈ bounds ∧ assembly.valueOf name = value := by
    have named := describes.names name
    rw [unnamed, List.nil_append] at named
    rw [← named]
    constructor
    · intro member
      obtain ⟨s, there, same⟩ := List.mem_map.1 member
      obtain ⟨rfl, rfl⟩ := Prod.mk.inj same
      exact ⟨⟨s, there, rfl⟩, describes.values s there⟩
    · rintro ⟨⟨s, there, rfl⟩, rfl⟩
      exact List.mem_map.2 ⟨s, there, by rw [describes.values s there]⟩
  rw [label]
  simp only [bounds, List.mem_cons, List.not_mem_nil, or_false, Prod.mk.injEq]
  constructor
  · rintro ⟨rfl | rfl, rfl⟩
    · exact .inl ⟨rfl, describes.valueOf_codeStart⟩
    · exact .inr ⟨rfl, describes.valueOf_codeEnd⟩
  · rintro (⟨rfl, rfl⟩ | ⟨rfl, rfl⟩)
    · exact ⟨.inl rfl, describes.valueOf_codeStart⟩
    · exact ⟨.inr rfl, describes.valueOf_codeEnd⟩

end ProgramRules

namespace Assembly

/-- The rows of data that an image is written as are a source for the same image, in every dialect
that has a layout. No label is left by them but the two of every program. -/
theorem ofSource_assemblyText {dialect : Dialect} {layout : Layout} {style : Image.Style}
    {image : Array Word} (chosen : dialect.layout = .ok layout)
    (fits : image.size ≤ addressSpace) (format : style.format = .assemblyHex)
    (symbols : List Symbol) :
    ∃ text assembly, Image.write style image symbols = .ok text ∧
      ofSource dialect text = .ok assembly ∧ assembly.image = image ∧
      (assembly.symbols.map fun s => (s.name, s.value)).Perm
        [(Symbol.codeStart, 0), (Symbol.codeEnd, image.size.toUInt16)] := by
  obtain ⟨rules, ruled, same⟩ := assemblyRules_of_layout chosen
  obtain ⟨statements, gives, read⟩ := Image.read_assemblyText chosen image
  have words := Image.flatMap_rows image
  have acceptable : (rules.programRules layout).Acceptable statements := by
    refine ProgramRules.acceptable_of_gives gives ?_
    rwa [words, Array.length_toList]
  have outcome := ofStatements_outcome same statements
  obtain ⟨assembly, assembled⟩ := outcome.isOk_iff.2 acceptable
  obtain ⟨_, describes⟩ := outcome.of_eq_ok assembled
  obtain ⟨distinct, _⟩ := symbols_of_ofStatements same assembled
  have whole : assembly.image = image := by
    rw [← Array.toList_inj, describes.image, ProgramRules.words_of_gives gives, words]
  have labels := describes.labels_of_unnamed (ProgramRules.mentions_of_gives gives) distinct
  refine ⟨Image.assemblyText image, assembly, ?_, ?_, whole, whole ▸ labels⟩
  · rw [Image.write, format]
  · simp only [ofSource, read, ruled, assembled]
    rfl

def nineWords : Array Word := #[0x7c01, 5, 0, 0xffff, 0x18, 0xa100, 0x61c1, 0x8000, 0x0abc]

theorem ofSource_assemblyText_nineWords :
    ∃ assembly, ofSource (Dialect.uniform false Layout.v1.name)
        ("dat 0x7c01, 0x0005, 0x0000, 0xffff, 0x0018, 0xa100, 0x61c1, 0x8000\n" ++
          "dat 0x0abc\n") = .ok assembly ∧
      assembly.image = nineWords ∧
      (assembly.symbols.map fun s => (s.name, s.value)).Perm
        [(Symbol.codeStart, 0), (Symbol.codeEnd, 9)] := by
  obtain ⟨text, assembly, written, assembled, image, labels⟩ :=
    @ofSource_assemblyText (Dialect.uniform false Layout.v1.name) .v1
      ⟨.assemblyHex, .little, ⟨0⟩⟩ nineWords (Dialect.layout_uniform false .v1) (by decide) rfl []
  have rows : Image.assemblyText nineWords =
      "dat 0x7c01, 0x0005, 0x0000, 0xffff, 0x0018, 0xa100, 0x61c1, 0x8000\n" ++
        "dat 0x0abc\n" := by
    decide +kernel
  obtain rfl := Except.ok.inj written
  rw [rows] at assembled
  exact ⟨assembly, assembled, image, labels⟩

end Assembly

end Dcpu
