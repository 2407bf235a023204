import Dcpu.Proofs.Placement
import Dcpu.Proofs.WellFormed
import Mathlib.Data.List.Dedup
import Mathlib.Logic.Relation

set_option autoImplicit false

namespace Dcpu

section Acyclic

variable {α : Type} {r r' : α → α → Prop} {a b : α}

theorem reflTransGen_insert (edges : ∀ x y, r' x y → r x y ∨ x = a ∧ y = b) {x y : α}
    (path : Relation.ReflTransGen r' x y) :
    Relation.ReflTransGen r x y ∨ Relation.ReflTransGen r x a ∧ Relation.ReflTransGen r b y := by
  induction path with
  | refl => exact .inl .refl
  | tail _ step ih =>
      rcases edges _ _ step with old | ⟨rfl, rfl⟩
      · exact ih.imp (·.tail old) (And.imp_right (·.tail old))
      · exact .inr ⟨ih.elim id And.left, .refl⟩

theorem acyclic_insert_iff (edges : ∀ x y, r' x y ↔ r x y ∨ x = a ∧ y = b) :
    (∀ x, ¬ Relation.TransGen r' x x) ↔
      (∀ x, ¬ Relation.TransGen r x x) ∧ ¬ Relation.ReflTransGen r b a := by
  have old {x y : α} (step : r x y) : r' x y := (edges x y).2 (.inl step)
  constructor
  · intro acyclic
    refine ⟨fun x cycle => acyclic x (Relation.TransGen.mono (fun _ _ => old) _ _ cycle),
      fun path => acyclic a ?_⟩
    exact .head' ((edges a b).2 (.inr ⟨rfl, rfl⟩))
      (Relation.ReflTransGen.mono (fun _ _ => old) _ _ path)
  · rintro ⟨acyclic, apart⟩ x cycle
    obtain ⟨y, step, path⟩ := Relation.TransGen.head'_iff.1 cycle
    -- A cycle through the new edge gives a path from its head back to its tail.
    have split := reflTransGen_insert (fun x y => (edges x y).1) path
    rcases (edges x y).1 step with step | ⟨rfl, rfl⟩
    · rcases split with path | ⟨before, behind⟩
      · exact acyclic x (.head' step path)
      · exact apart ((behind.tail step).trans before)
    · rcases split with path | ⟨_, behind⟩
      · exact apart path
      · exact apart behind

end Acyclic

def Statement.isFix (s : Statement) : Bool :=
  match s.body with
  | some (.addressFix ..) => true
  | _ => false

namespace ProgramRules

variable (rules : ProgramRules)

structure Sound (statements : List Statement) : Prop where
  formed : ∀ s ∈ statements, ∀ body ∈ s.body, body.WellFormed rules.toEncodingRules
  labelled : ∀ s ∈ statements, s.isFix = true → s.label.isSome = true
  once : ((rules.definitions statements).map Prod.fst).Nodup
  acyclic : ∀ name, ¬ Relation.TransGen (rules.Alias statements) name name
  words_le : (rules.behind statements).address ≤ addressSpace
  differences_le : (statements.map Statement.differenceCount).sum ≤ addressSpace
  names_le : (rules.mentions statements).dedup.length ≤ addressSpace

structure Writable (done : List Statement) (s : Statement) : Prop where
  formed : ∀ body ∈ s.body, body.WellFormed rules.toEncodingRules
  words_le : (rules.behind done).address + s.size rules.layout ≤ addressSpace
  differences_le : (done.map Statement.differenceCount).sum + s.differenceCount ≤ addressSpace
  names_le : (rules.mentions done ++
    rules.statementMentions (rules.siteOf done s) s).dedup.length ≤ addressSpace

structure MayFollow (done : List Statement) (s : Statement) : Prop extends
    rules.Writable done s where
  labelled : s.isFix = true → s.label.isSome = true
  fresh : ∀ name definition,
    rules.statementDefinition? (rules.siteOf done s) s = some (name, definition) →
      name ∉ (rules.definitions done).map Prod.fst
  apart : ∀ name target,
    rules.statementDefinition? (rules.siteOf done s) s = some (name, .sameAs target) →
      ¬ Relation.ReflTransGen (rules.Alias done) target name

variable {rules}

theorem sound_nil : rules.Sound [] where
  formed := by simp
  labelled := by simp
  once := by simp [definitions, placed, placedFrom]
  acyclic name cycle := by
    obtain ⟨_, step, _⟩ := Relation.TransGen.head'_iff.1 cycle
    simp [Alias, definitions, placed, placedFrom] at step
  words_le := Nat.zero_le _
  differences_le := Nat.zero_le _
  names_le := Nat.zero_le _

theorem length_dedup_le {names names' : List Text} (subset : names ⊆ names') :
    names.dedup.length ≤ names'.dedup.length := by
  refine (names.nodup_dedup.subperm fun name member => ?_).length_le
  exact List.mem_dedup.2 (subset (List.mem_dedup.1 member))

section Concat

variable {done : List Statement} {s : Statement}

theorem once_concat_iff :
    ((rules.definitions (done ++ [s])).map Prod.fst).Nodup ↔
      ((rules.definitions done).map Prod.fst).Nodup ∧ ∀ name definition,
        rules.statementDefinition? (rules.siteOf done s) s = some (name, definition) →
          name ∉ (rules.definitions done).map Prod.fst := by
  rw [definitions_concat, List.map_append, List.nodup_append']
  cases rules.statementDefinition? (rules.siteOf done s) s with
  | none => simp
  | some defined =>
      obtain ⟨name, definition⟩ := defined
      simp

theorem acyclic_concat_iff :
    (∀ name, ¬ Relation.TransGen (rules.Alias (done ++ [s])) name name) ↔
      (∀ name, ¬ Relation.TransGen (rules.Alias done) name name) ∧ ∀ name target,
        rules.statementDefinition? (rules.siteOf done s) s = some (name, .sameAs target) →
          ¬ Relation.ReflTransGen (rules.Alias done) target name := by
  have edges (x y : Text) : rules.Alias (done ++ [s]) x y ↔ rules.Alias done x y ∨
      rules.statementDefinition? (rules.siteOf done s) s = some (x, .sameAs y) := by
    rw [Alias, definitions_concat, List.mem_append, Option.mem_toList, Alias]
  -- Only a fix to another name adds a link.
  cases found : rules.statementDefinition? (rules.siteOf done s) s with
  | none =>
      have same : rules.Alias (done ++ [s]) = rules.Alias done := by
        funext x y
        simp [edges, found]
      simp [same]
  | some defined =>
      obtain ⟨name, value | target⟩ := defined
      · have same : rules.Alias (done ++ [s]) = rules.Alias done := by
          funext x y
          simp [edges, found]
        simp [same]
      · have inserted (x y : Text) : rules.Alias (done ++ [s]) x y ↔
            rules.Alias done x y ∨ x = name ∧ y = target := by
          simp [edges, found, eq_comm]
        rw [acyclic_insert_iff inserted]
        simp

theorem sound_concat_iff :
    rules.Sound (done ++ [s]) ↔ rules.Sound done ∧ rules.MayFollow done s := by
  constructor
  · intro sound
    obtain ⟨once, fresh⟩ := once_concat_iff.1 sound.once
    obtain ⟨acyclic, apart⟩ := acyclic_concat_iff.1 sound.acyclic
    have words_le := sound.words_le
    have differences_le := sound.differences_le
    have names_le := sound.names_le
    -- What is counted over all statements is split off for the last one.
    rw [behind_concat, next] at words_le
    rw [List.map_append, List.sum_append, List.map_singleton, List.sum_singleton] at differences_le
    rw [mentions_concat] at names_le
    dsimp only at words_le
    exact ⟨{
        formed := fun s member => sound.formed s (List.mem_append_left _ member)
        labelled := fun s member => sound.labelled s (List.mem_append_left _ member)
        once, acyclic
        words_le := by omega
        differences_le := by omega
        names_le := Nat.le_trans (length_dedup_le (List.subset_append_left _ _)) names_le }, {
        formed := sound.formed s (by simp)
        labelled := sound.labelled s (by simp)
        fresh, apart, words_le, differences_le, names_le }⟩
  · rintro ⟨sound, follows⟩
    exact {
      formed := by simpa [or_imp, forall_and] using ⟨sound.formed, follows.formed⟩
      labelled := by
        intro t member
        rcases List.mem_append.1 member with earlier | last
        · exact sound.labelled t earlier
        · obtain rfl := List.mem_singleton.1 last
          exact follows.labelled
      once := once_concat_iff.2 ⟨sound.once, follows.fresh⟩
      acyclic := acyclic_concat_iff.2 ⟨sound.acyclic, follows.apart⟩
      words_le := by
        rw [behind_concat]
        exact follows.words_le
      differences_le := by simpa using follows.differences_le
      names_le := by
        rw [mentions_concat]
        exact follows.names_le }

end Concat

theorem Sound.left {done rest : List Statement} (sound : rules.Sound (done ++ rest)) :
    rules.Sound done := by
  induction rest using List.reverseRecOn with
  | nil => simpa using sound
  | append_singleton rest s ih =>
      rw [← List.append_assoc] at sound
      exact ih (sound_concat_iff.1 sound).1

end ProgramRules

end Dcpu
