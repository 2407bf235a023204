import Dcpu.Program
import Dcpu.Proofs.StatementParts
import Dcpu.Proofs.SymbolTable
import Mathlib.Algebra.GroupWithZero.Nat

set_option autoImplicit false

namespace Dcpu

structure ProgramRules extends EncodingRules where
  localLabels : Bool
deriving DecidableEq, Repr

/-- How many words come before a statement, and the label that local names belong to there. -/
structure Site where
  address : Nat
  scope : Text
deriving DecidableEq, Repr

def Definition.valueIn (env : Text → Word) : Definition → Word
  | .value word => word
  | .sameAs target => env target

def Expression.definition? (whole : Text → Text) (e : Expression) : Option Definition :=
  match e.head, e.tail with
  | .number n _, none | .character n _, none => some (.value (Word.ofInt n))
  | .identifier name _, none => some (.sameAs (whole name))
  | _, _ => none

namespace Site

def start : Site := ⟨0, Program.outerScope⟩

def here (site : Site) : Word := site.address.toUInt16

end Site

namespace Statement

def size (layout : Layout) (s : Statement) : Nat := (s.body.map (Body.size layout)).getD 0

def parts (layout : Layout) (s : Statement) : List Part := (s.body.map (Body.parts layout)).getD []

def differenceCount (s : Statement) : Nat := (s.body.map Body.differenceCount).getD 0

def bodyNames (s : Statement) : List (Text × Position) := (s.body.map Body.names).getD []

def names (s : Statement) : List (Text × Position) :=
  (s.label.map fun label => (label.name, label.position)).toList ++ s.bodyNames

theorem length_parts (layout : Layout) (s : Statement) :
    (s.parts layout).length = s.size layout := by
  rw [parts, size]
  cases s.body with
  | none => rfl
  | some body => exact body.length_parts layout

end Statement

namespace ProgramRules

variable (rules : ProgramRules)

/-- With local labels, a name that starts with a dot belongs to a label. -/
def isLocal (name : Text) : Bool := rules.localLabels && name.head? == some 0x2e

def qualify (site : Site) (name : Text) : Text :=
  if rules.isLocal name then site.scope ++ name else name

def enter (site : Site) (s : Statement) : Site :=
  -- The statement of a label is in the scope that the label opens.
  match s.label with
  | some label => if rules.isLocal label.name then site else { site with scope := label.name }
  | none => site

def next (site : Site) (s : Statement) : Site :=
  { rules.enter site s with address := site.address + s.size rules.layout }

def behind (statements : List Statement) : Site := statements.foldl rules.next .start

def placedFrom : Site → List Statement → List (Site × Statement)
  | _, [] => []
  | site, s :: rest => (rules.enter site s, s) :: placedFrom (rules.next site s) rest

def placed (statements : List Statement) : List (Site × Statement) :=
  rules.placedFrom .start statements

section Statement

variable (site : Site) (s : Statement)

def statementWords (env : Text → Word) : List Word :=
  (s.parts rules.layout).map (Part.word (fun name => env (rules.qualify site name)) site.here)

def statementMentions : List Text := s.names.map fun mention => rules.qualify site mention.1

def meaning? : Option Definition :=
  match s.body with
  | some (.addressFix value _) => value.bind (Expression.definition? (rules.qualify site))
  | _ => some (.value site.here)

def statementDefinition? : Option (Text × Definition) :=
  s.label.bind fun label =>
    (rules.meaning? site s).map fun definition => (rules.qualify site label.name, definition)

end Statement

def mentions (statements : List Statement) : List Text :=
  (rules.placed statements).flatMap fun (site, s) => rules.statementMentions site s

def definitions (statements : List Statement) : List (Text × Definition) :=
  (rules.placed statements).filterMap fun (site, s) => rules.statementDefinition? site s

def words (env : Text → Word) (statements : List Statement) : List Word :=
  (rules.placed statements).flatMap fun (site, s) => rules.statementWords site s env

def Alias (statements : List Statement) (name target : Text) : Prop :=
  (name, .sameAs target) ∈ rules.definitions statements

theorem behind_append (before after : List Statement) :
    rules.behind (before ++ after) = after.foldl rules.next (rules.behind before) :=
  List.foldl_append

theorem placedFrom_append (site : Site) (before after : List Statement) :
    rules.placedFrom site (before ++ after) =
      rules.placedFrom site before ++ rules.placedFrom (before.foldl rules.next site) after := by
  induction before generalizing site with
  | nil => rfl
  | cons s rest ih => simp only [List.cons_append, placedFrom, ih, List.foldl_cons]

theorem placed_append (before after : List Statement) :
    rules.placed (before ++ after) =
      rules.placed before ++ rules.placedFrom (rules.behind before) after :=
  rules.placedFrom_append .start before after

theorem address_enter (site : Site) (s : Statement) :
    (rules.enter site s).address = site.address := by
  unfold enter
  split
  · split <;> rfl
  · rfl

theorem address_behind (statements : List Statement) :
    (rules.behind statements).address = (statements.map (Statement.size rules.layout)).sum := by
  -- The sum goes on from any site, not only from the first.
  have from_place (site : Site) : (statements.foldl rules.next site).address =
      site.address + (statements.map (Statement.size rules.layout)).sum := by
    induction statements generalizing site with
    | nil => rfl
    | cons s rest ih =>
        rw [List.foldl_cons, ih, next, List.map_cons, List.sum_cons, Nat.add_assoc]
  exact (from_place .start).trans (Nat.zero_add _)

def siteOf (done : List Statement) (s : Statement) : Site := rules.enter (rules.behind done) s

section Append

variable (done : List Statement) (s : Statement)

theorem placed_concat :
    rules.placed (done ++ [s]) = rules.placed done ++ [(rules.siteOf done s, s)] :=
  rules.placed_append done [s]

theorem mentions_concat :
    rules.mentions (done ++ [s]) =
      rules.mentions done ++ rules.statementMentions (rules.siteOf done s) s := by
  simp [mentions, placed_concat]

theorem definitions_concat :
    rules.definitions (done ++ [s]) =
      rules.definitions done ++ (rules.statementDefinition? (rules.siteOf done s) s).toList := by
  rw [definitions, placed_concat, List.filterMap_append, definitions]
  cases found : rules.statementDefinition? (rules.siteOf done s) s <;> simp [found]

theorem words_concat (env : Text → Word) :
    rules.words env (done ++ [s]) =
      rules.words env done ++ rules.statementWords (rules.siteOf done s) s env := by
  simp [words, placed_concat]

theorem behind_concat : rules.behind (done ++ [s]) = rules.next (rules.behind done) s :=
  rules.behind_append done [s]

theorem address_siteOf : (rules.siteOf done s).address = (rules.behind done).address :=
  rules.address_enter _ _

end Append

theorem length_statementWords (site : Site) (s : Statement) (env : Text → Word) :
    (rules.statementWords site s env).length = s.size rules.layout := by
  rw [statementWords, List.length_map, s.length_parts]

theorem length_words (env : Text → Word) (statements : List Statement) :
    (rules.words env statements).length = (rules.behind statements).address := by
  induction statements using List.reverseRecOn with
  | nil => rfl
  | append_singleton done s ih =>
      rw [words_concat, behind_concat, List.length_append, ih, length_statementWords, next]

theorem mem_placed_iff {site : Site} {s : Statement} {statements : List Statement} :
    (site, s) ∈ rules.placed statements ↔
      ∃ before after, statements = before ++ s :: after ∧ site = rules.siteOf before s := by
  constructor
  · intro there
    induction statements using List.reverseRecOn with
    | nil => simp [placed, placedFrom] at there
    | append_singleton done last ih =>
        rw [placed_concat] at there
        rcases List.mem_append.1 there with earlier | here
        · obtain ⟨before, after, rfl, same⟩ := ih earlier
          exact ⟨before, after ++ [last], by simp, same⟩
        · simp only [List.mem_singleton, Prod.mk.injEq] at here
          obtain ⟨rfl, rfl⟩ := here
          exact ⟨done, [], rfl, rfl⟩
  · rintro ⟨before, after, rfl, rfl⟩
    rw [placed_append, placedFrom]
    exact List.mem_append_right _ (.head _)

theorem take_drop_words (env : Text → Word) {site : Site} {s : Statement}
    {statements : List Statement} (there : (site, s) ∈ rules.placed statements) :
    ((rules.words env statements).drop site.address).take (s.size rules.layout) =
      rules.statementWords site s env := by
  obtain ⟨before, after, rfl, rfl⟩ := rules.mem_placed_iff.1 there
  have split : ∃ rest, rules.words env (before ++ s :: after) =
      rules.words env before ++ (rules.statementWords (rules.siteOf before s) s env ++ rest) := by
    rw [words, placed_append, placedFrom, List.flatMap_append, List.flatMap_cons]
    exact ⟨_, rfl⟩
  obtain ⟨rest, split⟩ := split
  rw [split, address_siteOf, ← length_words rules env, List.drop_left,
    ← rules.length_statementWords (rules.siteOf before s) s env, List.take_left]

end ProgramRules

end Dcpu
