import Dcpu.Proofs.EncodeInStep

set_option autoImplicit false

namespace Dcpu

namespace Program

variable {lenient : Prop} {first second : Naming} {rules rules' : EncodingRules}
  {rename : Text → Text} {p q : Program}

theorem Twin.address_eq (twin : Twin first second p q) : q.address = p.address := by
  rw [address, address, twin.code]

theorem Twin.fixValue (twin : Twin first second p q) (index : Nat) (value : Word)
    (position : Position) :
    Follows lenient (Twin first second) (p.fixValue index value position)
      (q.fixValue index value position) := by
  simp only [Program.fixValue, twin.symbols]
  split
  · exact .ok { twin with symbols := rfl }
  · exact .error _

theorem Twin.fixAlias (twin : Twin first second p q) (index target : Nat) (position : Position) :
    Follows lenient (Twin first second) (p.fixAlias index target position)
      (q.fixAlias index target position) := by
  simp only [Program.fixAlias, twin.symbols]
  split
  · exact .ok { twin with symbols := rfl }
  · exact .error _

theorem Twin.scopeFirst (twin : Twin first second p q) (scope : Text) :
    Twin { first with scope } second { p with scope } q :=
  { twin with naming := congrArg (Naming.mk ·.localLabels scope) twin.naming }

theorem Twin.scopeSecond (twin : Twin first second p q) (scope : Text) :
    Twin first { second with scope } p { q with scope } :=
  { twin with naming' := congrArg (Naming.mk ·.localLabels scope) twin.naming' }

section Statement

variable (permits : rules.Permits lenient rules')
  (same : ∀ name, second.qualify (rename name) = first.qualify name)
include permits same

theorem Twin.fixAddress (twin : Twin first second p q) (index : Nat) (value : Option Expression)
    (place position : Position) :
    Follows lenient (Twin first second) (p.fixAddress rules index value place position)
      (q.fixAddress rules' index (value.map (Expression.mapNames rename)) place position) := by
  apply (EncodingRules.expression_inStep permits same value p q twin).bind
  rintro ⟨word, p'⟩ ⟨_, q'⟩ ⟨rfl, twin'⟩
  dsimp only at twin' ⊢
  split
  · exact twin'.fixValue _ _ _
  · exact twin'.fixAlias _ _ _
  · exact .error _
  · exact .error _

theorem Twin.writeBody? (twin : Twin first second p q) (body : Option Body) (position : Position) :
    Follows lenient (Twin first second) (p.writeBody? rules body position)
      (q.writeBody? rules' (body.map (Body.mapNames rename)) position) := by
  cases body with
  | none => exact .ok twin
  | some body =>
      apply (EncodingRules.body_inStep permits same (some body) p q twin).bind
      rintro ⟨⟨⟩, p'⟩ ⟨_, q'⟩ ⟨rfl, twin'⟩
      dsimp only at twin' ⊢
      rw [twin'.code, twin'.differences]
      split
      · exact .error _
      · exact .ok twin'

theorem writeStatement_inStep {s : Statement}
    (unlabelled : s.label = none → Twin first second p q)
    (labelled : ∀ label, s.label = some label →
      Follows lenient (Paired first second) (p.define label) (q.define (label.mapName rename))) :
    Follows lenient (Twin first second) (p.writeStatement rules s)
      (q.writeStatement rules' (s.mapNames rename)) := by
  obtain ⟨label, body, position⟩ := s
  cases label with
  | none =>
      have twin := unlabelled rfl
      rcases body with _ | ⟨_, _⟩ | _ | _ | _
      · exact .ok twin
      · exact .error _
      all_goals exact twin.writeBody? permits same (some _) position
  | some label =>
      have defined := labelled label rfl
      -- A label that is not fixed to a value has the address of the body behind it.
      have placed : ∀ body, Follows lenient (Twin first second)
          (do
            let defined ← p.define label
            let p ← defined.2.fixValue defined.1 defined.2.address label.position
            p.writeBody? rules body position)
          (do
            let defined ← q.define (label.mapName rename)
            let q ← defined.2.fixValue defined.1 defined.2.address label.position
            q.writeBody? rules' (body.map (Body.mapNames rename)) position) := by
        intro body
        apply defined.bind
        rintro ⟨_, p'⟩ ⟨_, q'⟩ ⟨rfl, twin⟩
        dsimp only at twin ⊢
        rw [twin.address_eq]
        exact (twin.fixValue _ _ _).bind fun p q twin => twin.writeBody? permits same body position
      rcases body with _ | ⟨value, place⟩ | _ | _ | _
      · exact placed none
      · apply defined.bind
        rintro ⟨_, p'⟩ ⟨_, q'⟩ ⟨rfl, twin⟩
        exact twin.fixAddress permits same _ value place label.position
      all_goals exact placed (some _)

end Statement

theorem writeStatements_cons (p : Program) (rules : EncodingRules) (s : Statement)
    (rest : List Statement) :
    p.writeStatements rules (s :: rest) =
      p.writeStatement rules s >>= fun q => q.writeStatements rules rest := by
  rw [writeStatements]
  cases p.writeStatement rules s <;> rfl

theorem Twin.fixBound (twin : Twin first second p q) (name : Text) (value : Word) :
    Follows lenient (Twin first second) (p.fixBound name value) (q.fixBound name value) := by
  apply (twin.index name .nowhere).bind
  rintro ⟨_, p'⟩ ⟨_, q'⟩ ⟨rfl, twin'⟩
  exact twin'.fixValue _ _ _

theorem Twin.finish (twin : Twin first second p q) :
    Follows lenient Eq p.finish q.finish := by
  -- How names were read no longer matters at the end.
  apply (twin.fixBound Symbol.codeStart 0).bind
  intro p' q' twin'
  rw [twin'.address_eq]
  apply (twin'.fixBound Symbol.codeEnd p'.address).bind
  intro p'' q'' twin''
  rw [twin''.symbols, twin''.code, twin''.differences]
  split
  · exact .error _
  · dsimp only
    split
    · exact .error _
    · exact .ok rfl

theorem writeStatement_permits {rules wider : EncodingRules} (permits : rules.Permits True wider)
    (p : Program) (s : Statement) :
    Follows True Eq (p.writeStatement rules s) (p.writeStatement wider s) := by
  -- The label decides how the body reads names, so it is defined before the readings are fixed.
  have step : ∃ naming, (s.label = none → Twin naming naming p p) ∧
      ∀ label, s.label = some label →
        Follows True (Paired naming naming) (p.define label) (p.define (label.mapName id)) := by
    cases labelled : s.label with
    | none => exact ⟨p.naming, fun _ => .refl p, by simp⟩
    | some label =>
        cases defined : p.define label with
        | error failure =>
            refine ⟨p.naming, by simp, ?_⟩
            rintro _ ⟨⟩
            rw [defined]
            exact .excused trivial _ _
        | ok result =>
            refine ⟨result.2.naming, by simp, ?_⟩
            rintro _ ⟨⟩
            change Follows _ _ _ (p.define label)
            rw [defined]
            exact .ok ⟨rfl, .refl _⟩
  obtain ⟨naming, unlabelled, labelled⟩ := step
  have same (name : Text) : naming.qualify (id name) = naming.qualify name := rfl
  have written := writeStatement_inStep permits same unlabelled labelled
  rw [Statement.mapNames_id] at written
  exact written.imp fun _ _ twin => twin.eq

theorem writeStatements_permits {rules wider : EncodingRules} (permits : rules.Permits True wider)
    (p : Program) (statements : List Statement) :
    Follows True Eq (p.writeStatements rules statements) (p.writeStatements wider statements) := by
  induction statements generalizing p with
  | nil => exact .ok rfl
  | cons s rest ih =>
      rw [writeStatements_cons, writeStatements_cons]
      apply (writeStatement_permits permits p s).bind
      rintro q _ rfl
      exact ih q

theorem assemble_permits {rules wider : EncodingRules} (permits : rules.Permits True wider)
    (p : Program) (statements : List Statement) :
    Follows True Eq (p.writeStatements rules statements >>= finish)
      (p.writeStatements wider statements >>= finish) := by
  apply (writeStatements_permits permits p statements).bind
  rintro q _ rfl
  exact .refl _

end Program

end Dcpu
