import Dcpu.Program

set_option autoImplicit false

namespace Dcpu

/-- The second computation does as the first: where that succeeds, their results are related, and
where it fails, both fail alike. If `lenient` holds, a failure of the first says nothing. -/
inductive Follows {ε α β : Type} (lenient : Prop) (related : α → β → Prop) :
    Except ε α → Except ε β → Prop
  | ok {a : α} {b : β} (results : related a b) : Follows lenient related (.ok a) (.ok b)
  | error (e : ε) : Follows lenient related (.error e) (.error e)
  | excused (excuse : lenient) (e : ε) (y : Except ε β) : Follows lenient related (.error e) y

namespace Follows

variable {ε α β γ δ : Type} {lenient : Prop} {related : α → β → Prop} {x : Except ε α}
  {y : Except ε β}

theorem bind {related' : γ → δ → Prop} {f : α → Except ε γ} {g : β → Except ε δ}
    (first : Follows lenient related x y)
    (second : ∀ a b, related a b → Follows lenient related' (f a) (g b)) :
    Follows lenient related' (x >>= f) (y >>= g) := by
  cases first with
  | ok results => exact second _ _ results
  | error e => exact .error e
  | excused excuse e y => exact .excused excuse e _

theorem refl (x : Except ε α) : Follows lenient Eq x x := by
  cases x with
  | ok a => exact .ok rfl
  | error e => exact .error e

theorem imp {related' : α → β → Prop} (follows : Follows lenient related x y)
    (weaker : ∀ a b, related a b → related' a b) : Follows lenient related' x y := by
  cases follows with
  | ok results => exact .ok (weaker _ _ results)
  | error e => exact .error e
  | excused excuse e y => exact .excused excuse e y

theorem eq {z : Except ε α} (follows : Follows False Eq x z) : x = z := by
  cases follows with
  | ok results => exact congrArg Except.ok results
  | error e => rfl
  | excused excuse e y => exact excuse.elim

theorem of_eq_ok {a : α} (follows : Follows lenient related x y) (result : x = .ok a) :
    ∃ b, y = .ok b ∧ related a b := by
  cases follows with
  | ok results =>
      cases result
      exact ⟨_, rfl, results⟩
  | error e => cases result
  | excused excuse e y => cases result

end Follows

end Dcpu
