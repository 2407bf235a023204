import Dcpu.Command.Assemble
import Dcpu.FileTree
import Dcpu.Proofs.PathExtension
import Mathlib.Data.List.Nodup

set_option autoImplicit false

namespace Dcpu

structure Journal where
  desk : Desk
  written : List Text

abbrev AtJournal := StateM Journal

namespace Journal

def holding (entries : List (List Text × FileEntry)) : Journal :=
  ⟨⟨⟨entries⟩, [], [], [], [], false, false⟩, []⟩

def atDesk {α : Type} (work : AtDesk α) : AtJournal α := fun journal =>
  ((work journal.desk).1, { journal with desk := (work journal.desk).2 })

instance : Host AtJournal where
  kind path := atDesk (Host.kind path)
  read path := atDesk (Host.read path)
  write path bytes := do
    modify fun journal => { journal with written := journal.written ++ [path] }
    atDesk (Host.write path bytes)
  input := atDesk Host.input
  inputIsTerminal := atDesk Host.inputIsTerminal
  outputIsTerminal := atDesk Host.outputIsTerminal
  print text := atDesk (Host.print text)
  log text := atDesk (Host.log text)

/-- Every file that is written is one of these, in their order, and the result is as said. -/
def Writes {α : Type} (files : List Text) (work : AtJournal α) (post : α → Prop) : Prop :=
  ∀ journal, post (work journal).1 ∧
    ∃ written, written.Sublist files ∧ (work journal).2.written = journal.written ++ written

variable {α β : Type} {files further : List Text} {P : α → Prop} {Q : β → Prop}

theorem Writes.pure {a : α} (holds : P a) : Writes [] (pure a) P :=
  fun journal => ⟨holds, [], .slnil, (List.append_nil journal.written).symm⟩

theorem Writes.bind {work : AtJournal α} {next : α → AtJournal β} (first : Writes files work P)
    (then_ : ∀ a, P a → Writes further (next a) Q) :
    Writes (files ++ further) (work >>= next) Q := by
  intro journal
  obtain ⟨holds, written, within, same⟩ := first journal
  obtain ⟨result, written', within', same'⟩ := then_ _ holds (work journal).2
  refine ⟨result, written ++ written', within.append within', ?_⟩
  rw [← List.append_assoc, ← same]
  exact same'

theorem Writes.bind_right {work : AtJournal α} {next : α → AtJournal β} (first : Writes [] work P)
    (then_ : ∀ a, P a → Writes files (next a) Q) : Writes files (work >>= next) Q :=
  first.bind then_

theorem Writes.bind_left {work : AtJournal α} {next : α → AtJournal β}
    (first : Writes files work P) (then_ : ∀ a, P a → Writes [] (next a) Q) :
    Writes files (work >>= next) Q := by
  have both := first.bind then_
  rwa [List.append_nil] at both

theorem Writes.mono {work : AtJournal α} (writes : Writes files work P)
    (within : files.Sublist further) : Writes further work P := by
  intro journal
  obtain ⟨holds, written, part, same⟩ := writes journal
  exact ⟨holds, written, part.trans within, same⟩

theorem writes_atDesk (work : AtDesk α) : Writes [] (atDesk work) fun _ => True :=
  fun journal => ⟨trivial, [], .slnil, (List.append_nil journal.written).symm⟩

theorem writes_write (path bytes : Text) :
    Writes [path] (Host.write path bytes) fun _ => True :=
  fun _ => ⟨trivial, [path], .refl _, rfl⟩

theorem writes_mapM {work : α → AtJournal β} {filesOf : α → List Text} {items : List α}
    (writes : ∀ a ∈ items, Writes (filesOf a) (work a) fun _ => True) :
    Writes (items.flatMap filesOf) (items.mapM work) fun _ => True := by
  induction items with
  | nil => exact .pure trivial
  | cons a items ih =>
      rw [List.mapM_cons, List.flatMap_cons]
      refine (writes a (.head _)).bind fun _ _ => ?_
      exact (ih fun a member => writes a (.tail _ member)).bind_left fun _ _ => .pure trivial

end Journal

namespace Command

open Journal

variable {α β : Type} {files further : List Text} {P : α → Prop} {Q : β → Prop}

def Attempts (files : List Text) (work : Attempt AtJournal α) (post : α → Prop) : Prop :=
  Writes files work.run fun result => ∀ a, result = .ok a → post a

theorem Attempts.pure {a : α} (holds : P a) : Attempts [] (pure a) P :=
  Writes.pure fun _ same => Except.ok.inj same ▸ holds

theorem attempts_throw (e : CommandError) : Attempts [] (throw e) P :=
  Writes.pure fun _ same => by cases same

theorem Attempts.bind {work : Attempt AtJournal α} {next : α → Attempt AtJournal β}
    (first : Attempts [] work P) (then_ : ∀ a, P a → Attempts files (next a) Q) :
    Attempts files (work >>= next) Q := by
  rw [Attempts, ExceptT.run_bind]
  refine Writes.bind_right first fun result holds => ?_
  cases result with
  | ok a => exact then_ a (holds a rfl)
  | error e =>
      have nothing : Attempts [] (throw e) Q := attempts_throw e
      exact nothing.mono (List.nil_sublist files)

theorem attempts_attempt {ε : Type} (wrap : ε → CommandError) {work : AtJournal (Except ε α)}
    (writes : Writes files work fun _ => True) :
    Attempts files (attempt wrap work) fun _ => True :=
  writes.bind_left fun _ _ => .pure fun _ _ => trivial

theorem attempts_lift {work : AtJournal α} (writes : Writes files work fun _ => True) :
    Attempts files (ExceptT.lift work) fun _ => True :=
  writes.bind_left fun _ _ => .pure fun _ _ => trivial

theorem attempts_settle {ε : Type} (wrap : ε → CommandError) (result : Except ε α) :
    Attempts [] (settle wrap result) fun _ => True :=
  Writes.pure fun _ _ => trivial

def Job.outputs (flags : Flags) (j : Job) : List Text :=
  if j.target = outputTarget then []
  else j.target :: if flags.symbols then [symbolPath j.target] else []

def jobsOf (flags : Flags) (paths : List Text) : List Job :=
  if paths = [] then [⟨[], if flags.target = [] then defaultTarget else flags.target⟩]
  else paths.map fun path => ⟨path, if flags.target = [] then imagePath path else flags.target⟩

variable {flags : Flags} {paths : List Text} {j : Job}

theorem attempts_fileJob (flags : Flags) (path : Text) :
    Attempts [] (fileJob flags path) fun j =>
      j = ⟨path, if flags.target = [] then imagePath path else flags.target⟩ := by
  refine (attempts_attempt .file (writes_atDesk _)).bind fun kind _ => ?_
  cases kind with
  | directory => exact attempts_throw _
  | file => exact .pure rfl

theorem attempts_jobs (flags : Flags) (paths : List Text) :
    Attempts [] (jobs flags paths) fun js => js = jobsOf flags paths := by
  have each (paths : List Text) : Attempts [] (paths.mapM (fileJob flags)) fun js =>
      js = paths.map fun path =>
        ⟨path, if flags.target = [] then imagePath path else flags.target⟩ := by
    induction paths with
    | nil => exact .pure rfl
    | cons path paths ih =>
        rw [List.mapM_cons]
        refine (attempts_fileJob flags path).bind fun j same => ih.bind fun js others => .pure ?_
        rw [same, others, List.map_cons]
  unfold jobs jobsOf
  split
  · refine (attempts_lift (writes_atDesk _)).bind fun terminal _ => ?_
    split
    · exact attempts_throw _
    · exact .pure rfl
  split
  · exact attempts_throw _
  · exact each paths

theorem attempts_refuseTerminal (j : Job) (format : Format) :
    Attempts [] (refuseTerminal j format) fun _ => True := by
  unfold refuseTerminal
  split
  · refine (attempts_lift (writes_atDesk _)).bind fun terminal _ => ?_
    split
    · exact attempts_throw _
    · exact .pure trivial
  · exact .pure trivial

theorem attempts_writeImage (j : Job) (style : Image.Style) (a : Assembly) :
    Attempts (if j.target = outputTarget then [] else [j.target]) (writeImage j style a)
      fun _ => True := by
  refine (attempts_refuseTerminal j style.format).bind fun _ _ => ?_
  refine (attempts_settle .format _).bind fun bytes _ => ?_
  split
  · exact attempts_lift (writes_atDesk _)
  · exact attempts_attempt .file (writes_write _ _)

theorem attempts_writeSymbols (j : Job) (a : Assembly) :
    Attempts (if j.target = outputTarget then [] else [symbolPath j.target]) (writeSymbols j a)
      fun _ => True := by
  unfold writeSymbols
  split
  · exact attempts_throw _
  · exact attempts_attempt .file (writes_write _ _)

theorem writes_say (name line : Text) : Writes [] (say name line) fun _ => True :=
  writes_atDesk _

theorem writes_orSay {work : Attempt AtJournal Unit} (attempts : Attempts files work fun _ => True)
    (j : Job) (line : Text) : Writes files (orSay j line work) fun _ => True := by
  refine Writes.bind_left attempts fun result _ => ?_
  cases result with
  | ok => exact .pure trivial
  | error e =>
      exact (writes_say _ _).bind_right fun _ _ => (writes_say _ _).bind_right fun _ _ =>
        .pure trivial

theorem writes_listSymbols (j : Job) (a : Assembly) : Writes [] (listSymbols j a) fun _ => True := by
  unfold listSymbols
  split
  · exact writes_atDesk _
  · exact writes_atDesk _

theorem writes_deliver (flags : Flags) (style : Image.Style) (j : Job) (a : Assembly) :
    Writes (j.outputs flags) (deliver flags style j a) fun _ => True := by
  have image := writes_orSay (attempts_writeImage j style a) j "Error writing output file"
  have symbols := writes_orSay (attempts_writeSymbols j a) j "Error writing symbol table"
  have parts : j.outputs flags = (if j.target = outputTarget then [] else [j.target]) ++
      if flags.symbols then if j.target = outputTarget then [] else [symbolPath j.target] else [] := by
    unfold Job.outputs
    split <;> simp
  have listed : Writes [] (if flags.listSymbols = true then do listSymbols j a; pure true
      else pure true : AtJournal Bool) fun _ => True := by
    split
    · exact (writes_listSymbols j a).bind_right fun _ _ => .pure trivial
    · exact .pure trivial
  rw [parts]
  -- The image comes first. Without it there are no symbols either.
  refine image.bind fun done _ => ?_
  by_cases failed : (!done) = true
  · rw [if_pos failed]
    exact Writes.mono (.pure trivial) (List.nil_sublist _)
  rw [if_neg failed]
  split
  · refine symbols.bind_left fun done _ => ?_
    split
    · exact .pure trivial
    · exact listed
  · exact listed

theorem writes_sayFailures (name source : Text) (failures : List Failure) :
    Writes [] (sayFailures name source failures) fun _ => True := by
  unfold sayFailures
  split
  · exact writes_atDesk _
  · exact writes_say _ _

theorem writes_readSource (path : Text) : Writes [] (readSource path) fun _ => True := by
  unfold readSource
  split
  · exact (writes_atDesk _).bind_right fun _ _ => .pure trivial
  · exact writes_atDesk _

theorem writes_runJob (flags : Flags) (dialect : Dialect) (style : Image.Style) (j : Job) :
    Writes (j.outputs flags) (runJob flags dialect style j) fun _ => True := by
  refine (writes_readSource j.path).bind_right fun source _ => ?_
  have failed : Writes (j.outputs flags) (pure false : AtJournal Bool) fun _ => True :=
    Writes.mono (.pure trivial) (List.nil_sublist _)
  cases source with
  | error e => exact (writes_say _ _).bind_right fun _ _ => failed
  | ok source =>
      dsimp only
      split
      · exact (writes_sayFailures _ _ _).bind_right fun _ _ => failed
      · exact writes_deliver _ _ _ _

theorem attempts_loadDialect (flags : Flags) :
    Attempts [] (loadDialect flags) fun _ => True := by
  have chosen (dialect : Dialect) : Attempts [] (if flags.layout = [] then pure dialect else do
      let _ ← settle .layout { dialect with layoutName := flags.layout }.layout
      pure { dialect with layoutName := flags.layout }) fun _ => True := by
    split
    · exact .pure trivial
    · exact (attempts_settle .layout _).bind fun _ _ => .pure trivial
  unfold loadDialect
  dsimp only
  split
  · exact (Attempts.pure (P := fun _ => True) trivial).bind fun dialect _ => chosen dialect
  · refine (attempts_attempt _ (writes_atDesk _)).bind fun text _ => ?_
    exact (attempts_settle _ _).bind fun dialect _ => chosen dialect

theorem attempts_prepare (flags : Flags) (paths : List Text) :
    Attempts [] (prepare flags paths) fun prepared => prepared.2.2 = jobsOf flags paths := by
  refine (attempts_loadDialect flags).bind fun dialect _ => ?_
  split
  · exact attempts_throw _
  · refine (attempts_settle .layout _).bind fun layout _ => ?_
    exact (attempts_jobs flags paths).bind fun js same => .pure same

theorem writes_assemble (flags : Flags) (paths : List Text) :
    Writes ((jobsOf flags paths).flatMap (Job.outputs flags)) (assemble flags paths)
      fun _ => True := by
  -- All jobs are known before the first of them runs, and nothing is written until then.
  refine Writes.bind_right (attempts_prepare flags paths) fun prepared same => ?_
  cases prepared with
  | error e =>
      refine (writes_atDesk _).bind_right fun _ _ => ?_
      exact Writes.mono (.pure trivial) (List.nil_sublist _)
  | ok prepared =>
      obtain ⟨dialect, style, js⟩ := prepared
      obtain rfl : js = jobsOf flags paths := same _ rfl
      exact (writes_mapM fun j _ => writes_runJob flags dialect style j).bind_left
        fun _ _ => .pure trivial

def filesOf (symbols : Bool) (stem : Text) : List Text :=
  (stem ++ imageExtension) :: if symbols then [stem ++ symbolExtension] else []

theorem isExtension_image : Path.IsExtension imageExtension :=
  ⟨"dcpu", rfl, by decide, by decide⟩

theorem isExtension_symbol : Path.IsExtension symbolExtension :=
  ⟨"sym", rfl, by decide, by decide⟩

theorem mem_filesOf_iff {symbols : Bool} {stem file : Text} :
    file ∈ filesOf symbols stem ↔ Path.stem file = stem ∧
      (Path.extension file = imageExtension ∨
        symbols = true ∧ Path.extension file = symbolExtension) := by
  have made {e : Text} (formed : Path.IsExtension e) :
      file = stem ++ e ↔ Path.stem file = stem ∧ Path.extension file = e := by
    constructor
    · rintro rfl
      exact ⟨Path.stem_append formed stem, Path.extension_append formed stem⟩
    · rintro ⟨rfl, rfl⟩
      exact (Path.stem_append_extension file).symm
  rw [filesOf, List.mem_cons, made isExtension_image, and_or_left]
  cases symbols with
  | false => simp
  | true => simp [made isExtension_symbol]

theorem nodup_filesOf (symbols : Bool) (stem : Text) : (filesOf symbols stem).Nodup := by
  have apart : imageExtension ≠ symbolExtension := by decide
  cases symbols with
  | false => simp [filesOf]
  | true => simp [filesOf, apart]

theorem disjoint_filesOf_iff {symbols : Bool} {stem stem' : Text} :
    (filesOf symbols stem).Disjoint (filesOf symbols stem') ↔ stem ≠ stem' := by
  constructor
  · rintro apart rfl
    exact apart (.head _) (.head _)
  · intro apart file first second
    exact apart ((mem_filesOf_iff.1 first).1.symm.trans (mem_filesOf_iff.1 second).1)

theorem nodup_flatMap_filesOf {symbols : Bool} {stems : List Text} :
    (stems.flatMap (filesOf symbols)).Nodup ↔ stems.Nodup := by
  have apart : Function.onFun List.Disjoint (filesOf symbols) = (· ≠ ·) := by
    funext stem stem'
    exact propext disjoint_filesOf_iff
  rw [List.nodup_flatMap, apart]
  exact and_iff_right fun stem _ => nodup_filesOf symbols stem

theorem outputs_jobsOf (free : flags.target = []) (some : paths ≠ []) :
    (jobsOf flags paths).flatMap (Job.outputs flags) =
      (paths.map Path.stem).flatMap (filesOf flags.symbols) := by
  rw [jobsOf, if_neg some, List.flatMap_map, List.flatMap_map]
  congr 1
  funext path
  rw [if_pos free]
  have image : Path.extension (imagePath path) = imageExtension :=
    Path.extension_replaceExtension isExtension_image path
  have file : imagePath path ≠ outputTarget := by
    intro same
    rw [same] at image
    exact absurd image (by decide)
  have symbols : symbolPath (imagePath path) = Path.stem path ++ symbolExtension := by
    rw [symbolPath, Path.replaceExtension_eq, imagePath, Path.stem_replaceExtension isExtension_image]
  rw [Job.outputs, if_neg file, symbols]
  rfl

theorem outputs_apart_from_sources {symbols : Bool} :
    (∀ file ∈ (paths.map Path.stem).flatMap (filesOf symbols), file ∉ paths) ↔
      ∀ path ∈ paths, Path.extension path ≠ imageExtension ∧
        (symbols = true → Path.extension path ≠ symbolExtension) := by
  simp only [List.mem_flatMap, List.mem_map, mem_filesOf_iff]
  constructor
  · intro apart path member
    have other (made : Path.extension path = imageExtension ∨
        symbols = true ∧ Path.extension path = symbolExtension) : False :=
      apart path ⟨_, ⟨path, member, rfl⟩, rfl, made⟩ member
    exact ⟨fun image => other (.inl image), fun asked symbol => other (.inr ⟨asked, symbol⟩)⟩
  · rintro apart file ⟨_, _, _, image | ⟨asked, symbol⟩⟩ member
    · exact (apart file member).1 image
    · exact (apart file member).2 asked symbol

/-- Without a target of its own, no two files that a run writes are the same, and none of them is a
source, exactly if the sources have different stems and none has an extension that the run itself
gives to files. The symbols of a target have a file of their own exactly if the target does not have
their extension. -/
theorem outputs_apart_iff (free : flags.target = []) {journal : Journal} {js : List Job}
    (accepted : ((jobs flags paths : Attempt AtJournal (List Job)).run journal).1 = .ok js) :
    (((js.flatMap (Job.outputs flags)).Nodup ∧
        ∀ file ∈ js.flatMap (Job.outputs flags), file ∉ paths) ↔
      (paths.map Path.stem).Nodup ∧ ∀ path ∈ paths, Path.extension path ≠ imageExtension ∧
        (flags.symbols = true → Path.extension path ≠ symbolExtension)) ∧
    (∃ written, written.Sublist (js.flatMap (Job.outputs flags)) ∧
      ((assemble flags paths : AtJournal Nat) journal).2.written = journal.written ++ written) ∧
    ∀ target, symbolPath target ≠ target ↔ Path.extension target ≠ symbolExtension := by
  obtain rfl : js = jobsOf flags paths := (attempts_jobs flags paths journal).1 js accepted
  refine ⟨?_, (writes_assemble flags paths journal).2,
    fun target => (Path.replaceExtension_eq_self_iff isExtension_symbol).not⟩
  by_cases none : paths = []
  · subst none
    have outputs : (jobsOf flags []).flatMap (Job.outputs flags) = filesOf flags.symbols "out" := by
      rw [jobsOf, if_pos rfl, if_pos free, List.flatMap_singleton]
      rfl
    simp [outputs, nodup_filesOf]
  · rw [outputs_jobsOf free none, nodup_flatMap_filesOf, outputs_apart_from_sources]

theorem outputs_apart_iff_dotted :
    ((jobs { symbols := true } ["a.b.dasm", "a.x/b"] : Attempt AtJournal (List Job)).run
        (.holding [(["a.b.dasm"], .file []), (["a.x"], .directory), (["b", "a.x"], .file [])])).1 =
      .ok [⟨"a.b.dasm", "a.b.dcpu"⟩, ⟨"a.x/b", "a.x/b.dcpu"⟩] ∧
    ([⟨"a.b.dasm", "a.b.dcpu"⟩, ⟨"a.x/b", "a.x/b.dcpu"⟩].flatMap
      (Job.outputs { symbols := true })).Nodup := by
  have accepted : ((jobs { symbols := true } ["a.b.dasm", "a.x/b"] :
      Attempt AtJournal (List Job)).run
        (.holding [(["a.b.dasm"], .file []), (["a.x"], .directory), (["b", "a.x"], .file [])])).1 =
      .ok [⟨"a.b.dasm", "a.b.dcpu"⟩, ⟨"a.x/b", "a.x/b.dcpu"⟩] := by decide +kernel
  exact ⟨accepted, ((outputs_apart_iff rfl accepted).1.2 (by decide +kernel)).1⟩

/-- Two sources with one image, a source that is its own image, and a target that its own symbols
replace. -/
theorem sources_share_image :
    (["a.dasm", "a.asm"] : List Text).Nodup ∧
    ((jobs {} ["a.dasm", "a.asm"] : Attempt AtJournal (List Job)).run
        (.holding [(["a.dasm"], .file []), (["a.asm"], .file [])])).1 =
      .ok [⟨"a.dasm", "a.dcpu"⟩, ⟨"a.asm", "a.dcpu"⟩] ∧
    ¬ ([⟨"a.dasm", "a.dcpu"⟩, ⟨"a.asm", "a.dcpu"⟩].flatMap (Job.outputs {})).Nodup ∧
    imagePath "prog.dcpu" = "prog.dcpu" ∧ symbolPath "prog.sym" = "prog.sym" := by
  decide +kernel

end Command

end Dcpu
