import Dcpu.Assembly
import Dcpu.Proofs.AssembleStatements
import Dcpu.Proofs.ParseLine
import Mathlib

set_option autoImplicit false

namespace Dcpu

namespace Listing.Line

def isInstruction (layout : Layout) (l : Line) : Bool :=
  match l.words with
  | [] => false
  | word :: tail => (instruction? layout .empty word tail).isSome

def folded (layout : Layout) (l : Line) : List Word :=
  match l.words with
  | [] => []
  | word :: tail =>
      if l.isInstruction layout then layout.foldInstruction word tail else word :: tail

def hasLongLiteral (layout : Layout) (l : Line) : Bool :=
  match l.words with
  | [] => false
  | word :: tail => l.isInstruction layout && layout.hasLongLiteral word tail

variable {layout : Layout} {l : Line}

theorem folded_eq_words (short : l.hasLongLiteral layout = false) :
    l.folded layout = l.words := by
  rw [folded]
  rw [hasLongLiteral] at short
  cases words : l.words with
  | nil => rfl
  | cons word tail =>
      simp only [words, Bool.and_eq_false_iff] at short
      dsimp only
      by_cases instruction : l.isInstruction layout = true
      · rw [if_pos instruction]
        exact Layout.foldInstruction_eq_self (short.resolve_left (by simp [instruction]))
      · rw [if_neg instruction]

theorem length_folded_lt (long : l.hasLongLiteral layout = true) :
    (l.folded layout).length < l.words.length := by
  rw [folded]
  rw [hasLongLiteral] at long
  cases words : l.words with
  | nil => simp [words] at long
  | cons word tail =>
      simp only [words, Bool.and_eq_true] at long
      dsimp only
      rw [if_pos long.1]
      exact Layout.length_foldInstruction_lt long.2

theorem length_folded_le (layout : Layout) (l : Line) :
    (l.folded layout).length ≤ l.words.length := by
  cases long : l.hasLongLiteral layout with
  | true => exact Nat.le_of_lt (length_folded_lt long)
  | false => rw [folded_eq_words long]

theorem length_flatMap_folded_le (layout : Layout) (lines : List Line) :
    (lines.flatMap (folded layout)).length ≤ (lines.flatMap words).length := by
  induction lines with
  | nil => simp
  | cons l rest ih =>
      have first := length_folded_le layout l
      simp only [List.flatMap_cons, List.length_append]
      omega

theorem flatMap_folded_eq_iff {lines : List Line} :
    lines.flatMap (folded layout) = lines.flatMap words ↔
      ∀ l ∈ lines, l.hasLongLiteral layout = false := by
  induction lines with
  | nil => simp
  | cons l rest ih =>
      rw [List.forall_mem_cons, List.flatMap_cons, List.flatMap_cons]
      constructor
      · intro same
        -- Folding a line makes it shorter, and no other line can make up for that.
        have lengths := congrArg List.length same
        have first := length_folded_le layout l
        have others := length_flatMap_folded_le layout rest
        simp only [List.length_append] at lengths
        obtain ⟨here, behind⟩ := List.append_inj same (by omega)
        refine ⟨?_, ih.1 behind⟩
        by_contra long
        have shorter := length_folded_lt (Bool.eq_true_of_not_eq_false long)
        omega
      · rintro ⟨short, others⟩
        rw [folded_eq_words short, ih.2 others]

end Listing.Line

namespace Listing

variable {dialect : Dialect} {layout : Layout}

theorem readable_line (layout : Layout) (address word : Word) (following : List Word) :
    Source.Readable dialect layout
      (Statement.Gives layout ((line layout .empty false address word following).folded layout))
      (line layout .empty false address word following).text := by
  rw [line]
  cases found : instruction? layout .empty word following with
  | some shown =>
      obtain ⟨text, tail⟩ := shown
      obtain ⟨shown, _⟩ := instruction?_eq_some found
      have again := shown.instruction?_eq []
      rw [List.append_nil] at again
      simpa [Line.folded, Line.isInstruction, again] using shown.readable
  | none =>
      -- A word that is shown as data is no instruction alone, or else it would be one here too.
      have cut : instruction? layout .empty word [] = none := by
        rw [Option.eq_none_iff_forall_ne_some]
        rintro ⟨text, tail⟩ shown
        obtain ⟨shown, rest, nothing⟩ := instruction?_eq_some shown
        obtain ⟨rfl, _⟩ := List.append_eq_nil_iff.1 nothing.symm
        have again := shown.instruction?_eq following
        rw [List.nil_append, found] at again
        exact absurd again (by simp)
      simpa [Line.folded, Line.isInstruction, cut] using readable_dataText layout word

theorem readable_ofImage {image : Array Word} {l : Line} (member : l ∈ ofImage layout image []) :
    Source.Readable dialect layout (Statement.Gives layout (l.folded layout)) l.text := by
  obtain ⟨data, n, word, following, rfl, _, marked⟩ := mem_linesAfter member
  -- Without symbols, no line starts data.
  have code : data = false := by
    simpa [Notes.ofSymbols, Notes.get, Notes.empty, Note.empty] using marked
  rw [code]
  exact readable_line layout _ word following

end Listing

namespace ProgramRules

variable {rules : ProgramRules} {α : Type} {wordsOf : α → List Word} {items : List α}
  {statements : List Statement}

theorem words_of_gives
    (gives : List.Forall₂ (fun item s => s.Gives rules.layout (wordsOf item)) items statements)
    (env : Text → Word) : rules.words env statements = items.flatMap wordsOf := by
  -- Such statements become the same words at every site.
  have at_site (site : Site) :
      ((rules.placedFrom site statements).flatMap fun placed =>
        rules.statementWords placed.1 placed.2 env) = items.flatMap wordsOf := by
    induction gives generalizing site with
    | nil => rfl
    | @cons item s items statements gives _ ih =>
        obtain ⟨body, written, fixed⟩ := gives.body
        rw [placedFrom, List.flatMap_cons, List.flatMap_cons, ih]
        simp [statementWords, Statement.parts, written, fixed.words]
  exact at_site .start

theorem gives_of_mem
    (gives : List.Forall₂ (fun item s => s.Gives rules.layout (wordsOf item)) items statements)
    {s : Statement} (member : s ∈ statements) : ∃ words, s.Gives rules.layout words := by
  induction gives with
  | nil => simp at member
  | cons gives _ ih =>
      rcases List.mem_cons.1 member with rfl | later
      · exact ⟨_, gives⟩
      · exact ih later

theorem gives_of_placed
    (gives : List.Forall₂ (fun item s => s.Gives rules.layout (wordsOf item)) items statements)
    {site : Site} {s : Statement} (there : (site, s) ∈ rules.placed statements) :
    ∃ words, s.Gives rules.layout words := by
  obtain ⟨before, after, rfl, _⟩ := rules.mem_placed_iff.1 there
  exact gives_of_mem gives (by simp)

theorem mentions_of_gives
    (gives : List.Forall₂ (fun item s => s.Gives rules.layout (wordsOf item)) items statements) :
    rules.mentions statements = [] := by
  refine List.flatMap_eq_nil_iff.2 ?_
  rintro ⟨site, s⟩ there
  obtain ⟨words, label, body, written, fixed⟩ := gives_of_placed gives there
  simp [statementMentions, Statement.names, Statement.bodyNames, label, written, fixed.names]

theorem acceptable_of_gives
    (gives : List.Forall₂ (fun item s => s.Gives rules.layout (wordsOf item)) items statements)
    (fits : (items.flatMap wordsOf).length ≤ addressSpace) : rules.Acceptable statements := by
  -- Without names nothing is defined twice, left open or an alias of itself.
  have unnamed := mentions_of_gives gives
  have undefined : rules.definitions statements = [] := by
    refine List.filterMap_eq_nil_iff.2 ?_
    rintro ⟨site, s⟩ there
    obtain ⟨words, label, _⟩ := gives_of_placed gives there
    simp [statementDefinition?, label]
  have indifferent : ∀ n ∈ statements.map Statement.differenceCount, n = 0 := by
    intro n member
    obtain ⟨s, there, rfl⟩ := List.mem_map.1 member
    obtain ⟨words, _, body, written, fixed⟩ := gives_of_mem gives there
    simp [Statement.differenceCount, written, fixed.differences]
  exact {
    formed := by
      intro s there body found
      obtain ⟨words, _, body', written, fixed⟩ := gives_of_mem gives there
      obtain rfl := Option.some.inj (written.symm.trans found)
      exact fixed.formed _ rfl
    labelled := by
      intro s there fix
      obtain ⟨words, _, body, written, fixed⟩ := gives_of_mem gives there
      cases body with
      | addressFix value position => exact absurd rfl (fixed.unfixed value position)
      | basic _ _ _ _ => simp [Statement.isFix, written] at fix
      | extended _ _ _ => simp [Statement.isFix, written] at fix
      | data _ _ => simp [Statement.isFix, written] at fix
    once := by simp [undefined]
    free := by simp [undefined]
    defined := by simp [unnamed]
    acyclic := by
      intro name cycle
      obtain ⟨_, first, _⟩ := Relation.TransGen.head'_iff.1 cycle
      simp [Alias, undefined] at first
    words_le := by
      rw [← rules.address_behind, ← rules.length_words (fun _ => 0), words_of_gives gives]
      exact fits
    differences_le := by
      have zeros := List.eq_replicate_of_mem indifferent
      rw [zeros]
      simp
    names_le := by
      rw [unnamed]
      decide }

end ProgramRules

namespace Assembly

variable {dialect : Dialect} {layout : Layout}

theorem assemblyRules_of_layout (chosen : dialect.layout = .ok layout) :
    ∃ rules, dialect.assemblyRules = .ok rules ∧ rules.chosenLayout = .ok layout := by
  refine ⟨_, by rw [Dialect.assemblyRules, chosen]; rfl, ?_⟩
  cases layout <;> rfl

/-- Listing an image and assembling the listing puts every literal into its short form. -/
theorem ofSource_listing (chosen : dialect.layout = .ok layout) (image : Array Word)
    (fits : image.size ≤ addressSpace) :
    let lines := Listing.ofImage layout image []
    ∃ assembly, ofSource dialect (Text.join "\n" (lines.map Listing.Line.text)) = .ok assembly ∧
      lines.flatMap Listing.Line.words = image.toList ∧
      assembly.image.toList = lines.flatMap (Listing.Line.folded layout) ∧
      (assembly.image = image ↔ ∀ l ∈ lines, l.hasLongLiteral layout = false) := by
  intro lines
  have whole : lines.flatMap Listing.Line.words = image.toList :=
    Listing.ofImage_words layout image []
  obtain ⟨rules, ruled, layout'⟩ := assemblyRules_of_layout chosen
  have readable : ∀ l ∈ lines, Source.Readable dialect layout
      (Statement.Gives layout (l.folded layout)) l.text := fun _ => Listing.readable_ofImage
  obtain ⟨statements, gives, read⟩ := Source.readFrom_join readable ⟨1, 0⟩ [] []
  -- Short forms only take words away.
  have shorter : (lines.flatMap (Listing.Line.folded layout)).length ≤ addressSpace := by
    refine Nat.le_trans (Listing.Line.length_flatMap_folded_le layout lines) ?_
    rwa [whole, Array.length_toList]
  have acceptable : (rules.programRules layout).Acceptable statements :=
    ProgramRules.acceptable_of_gives gives shorter
  have outcome := ofStatements_outcome layout' statements
  obtain ⟨assembly, assembled⟩ := outcome.isOk_iff.2 acceptable
  rw [assembled] at outcome
  obtain ⟨_, describes⟩ := outcome.of_ok
  have image_eq : assembly.image.toList = lines.flatMap (Listing.Line.folded layout) := by
    rw [describes.image, ProgramRules.words_of_gives gives]
  have source : ofSource dialect (Text.join "\n" (lines.map Listing.Line.text)) = .ok assembly := by
    have found : Source.read dialect (Text.join "\n" (lines.map Listing.Line.text)) =
        ⟨statements, []⟩ := by
      rw [Source.read, chosen]
      exact read
    simp only [ofSource, found, ruled, assembled]
    rfl
  refine ⟨assembly, source, whole, image_eq, ?_⟩
  rw [← Array.toList_inj, image_eq, ← whole]
  exact Listing.Line.flatMap_folded_eq_iff

theorem ofSource_listing_sample :
    ∃ assembly, ofSource Dialect.standard (Text.join "\n"
        ((Listing.ofImage .v2 #[0x7c01, 5, 0x7c01] []).map Listing.Line.text)) = .ok assembly ∧
      assembly.image = #[0x9801, 0x7c01] := by
  have lowered : Text.lower "v2" = "v2" := Text.lower_eq_self (by decide) (by decide)
  have chosen : Dialect.standard.layout = .ok .v2 := by
    have named : Layout.ofName? "v2" = some .v2 := by
      rw [Layout.ofName?, lowered]
      decide
    have set : Dialect.standard.layoutName = "v2" := rfl
    rw [Dialect.layout, if_neg (by decide), set, named]
  have words : (Listing.ofImage .v2 #[0x7c01, 5, 0x7c01] []).flatMap
      (Listing.Line.folded .v2) = [0x9801, 0x7c01] := by
    cbv
  obtain ⟨assembly, assembled, _, image, _⟩ :=
    ofSource_listing chosen #[0x7c01, 5, 0x7c01] (by decide)
  exact ⟨assembly, assembled, Array.toList_inj.1 (image.trans words)⟩

end Assembly

end Dcpu
