import Dcpu.Program
import Dcpu.Proofs.SymbolValue

set_option autoImplicit false

namespace Dcpu

/-- A computation succeeds exactly if a condition holds, then with a result of which something else
holds; otherwise what it was given is rejected. -/
inductive Outcome {α : Type} (good : Prop) (post : α → Prop) : Except Failure α → Prop
  | ok {result : α} (holds : good) (after : post result) : Outcome good post (.ok result)
  | error {error : AssemblyError} (fails : ¬ good) : Outcome good post (.error (.rejected error))

namespace Outcome

variable {α β : Type} {good good' : Prop} {post : α → Prop} {x : Except Failure α}

theorem of_iff (outcome : Outcome good post x) (same : good ↔ good') : Outcome good' post x := by
  cases outcome with
  | ok holds after => exact .ok (same.1 holds) after
  | error fails => exact .error fun holds => fails (same.2 holds)

theorem imp {post' : α → Prop} (outcome : Outcome good post x)
    (weaker : ∀ result, good → post result → post' result) : Outcome good post' x := by
  cases outcome with
  | ok holds after => exact .ok holds (weaker _ holds after)
  | error fails => exact .error fails

theorem bind {post' : β → Prop} {f : α → Except Failure β} (first : Outcome good post x)
    (next : Prop) (second : ∀ result, good → post result → Outcome next post' (f result)) :
    Outcome (good ∧ next) post' (x >>= f) := by
  cases first with
  | error fails => exact .error fun both => fails both.1
  | ok holds after => exact (second _ holds after).of_iff (and_iff_right holds).symm

theorem isOk_iff (outcome : Outcome good post x) : (∃ result, x = .ok result) ↔ good := by
  cases outcome with
  | ok holds _ => exact ⟨fun _ => holds, fun _ => ⟨_, rfl⟩⟩
  | error fails =>
      refine ⟨?_, fun holds => absurd holds fails⟩
      rintro ⟨_, h⟩
      cases h

theorem of_ok {result : α} (outcome : Outcome good post (.ok result)) : good ∧ post result := by
  cases outcome with
  | ok holds after => exact ⟨holds, after⟩

theorem of_eq_ok {result : α} (outcome : Outcome good post x) (isOk : x = .ok result) :
    good ∧ post result :=
  (isOk ▸ outcome).of_ok

theorem rejects {failure : Failure} (outcome : Outcome good post x) (fails : x = .error failure) :
    ∃ error, failure = .rejected error := by
  cases outcome with
  | ok _ _ => cases fails
  | error _ => exact ⟨_, (Except.error.inj fails).symm⟩

theorem between {f : α → Except Failure β} {final : β} (first : Outcome good post x)
    (isOk : x >>= f = .ok final) :
    ∃ result, x = .ok result ∧ good ∧ post result ∧ f result = .ok final := by
  cases first with
  | ok holds after => exact ⟨_, rfl, holds, after, isOk⟩
  | error _ => cases isOk

end Outcome

namespace Program

def whole (p : Program) (names : List (Text × Position)) : List (Text × Position) :=
  names.map fun mention => (p.qualify mention.1, mention.2)

def Fits (p : Program) (names : List (Text × Position)) : Prop :=
  (p.symbols.noteAll (p.whole names)).size ≤ addressSpace

def indexOf (p : Program) (name : Text) : Nat := (p.symbols.names[p.qualify name]?).getD 0

/-- Names were asked for, so many differences were kept, and words were written. -/
structure Wrote (p : Program) (names : List (Text × Position)) (count : Nat) (codes : List Code)
    (q : Program) : Prop where
  symbols : q.symbols = p.symbols.noteAll (p.whole names)
  differences : ∃ kept : List Difference, kept.length = count ∧
    q.differences.toList = p.differences.toList ++ kept
  code : q.code.toList = p.code.toList ++ codes
  localLabels : q.localLabels = p.localLabels
  scope : q.scope = p.scope

namespace Wrote

variable {p q r : Program} {names names' : List (Text × Position)} {count count' : Nat}
  {codes codes' : List Code}

theorem refl (p : Program) : Wrote p [] 0 [] p where
  symbols := rfl
  differences := ⟨[], rfl, by simp⟩
  code := by simp
  localLabels := rfl
  scope := rfl

theorem qualify_eq (wrote : Wrote p names count codes q) (name : Text) :
    q.qualify name = p.qualify name := by
  rw [qualify, qualify, isLocal, isLocal, wrote.localLabels, wrote.scope]

theorem whole_eq (wrote : Wrote p names count codes q) (mentions : List (Text × Position)) :
    q.whole mentions = p.whole mentions := by
  simp only [whole, wrote.qualify_eq]

theorem trans (first : Wrote p names count codes q) (second : Wrote q names' count' codes' r) :
    Wrote p (names ++ names') (count + count') (codes ++ codes') r where
  symbols := by
    rw [second.symbols, first.symbols, first.whole_eq, ← SymbolTable.noteAll_append, whole, whole,
      whole, List.map_append]
  differences := by
    obtain ⟨kept, counted, first⟩ := first.differences
    obtain ⟨kept', counted', second⟩ := second.differences
    exact ⟨kept ++ kept', by simp [counted, counted'], by rw [second, first, List.append_assoc]⟩
  code := by rw [second.code, first.code, List.append_assoc]
  localLabels := second.localLabels.trans first.localLabels
  scope := second.scope.trans first.scope

theorem keep (wrote : Wrote p names count codes q) (difference : Difference) :
    Wrote p names (count + 1) codes { q with differences := q.differences.push difference } where
  symbols := wrote.symbols
  differences := by
    obtain ⟨kept, counted, grown⟩ := wrote.differences
    exact ⟨kept ++ [difference], by simp [counted], by simp [grown]⟩
  code := wrote.code
  localLabels := wrote.localLabels
  scope := wrote.scope

theorem valid (wrote : Wrote p names count codes q) (before : p.symbols.Valid)
    (fits : p.Fits names) : q.symbols.Valid := by
  rw [wrote.symbols]
  exact SymbolTable.noteAll_valid before fits

theorem fits_iff (wrote : Wrote p names count codes q) :
    q.Fits names' ↔ p.Fits (names ++ names') := by
  rw [Fits, Fits, wrote.symbols, wrote.whole_eq, ← SymbolTable.noteAll_append, whole, whole, whole,
    List.map_append]

theorem differences_size (wrote : Wrote p names count codes q) :
    q.differences.size = p.differences.size + count := by
  obtain ⟨kept, counted, grown⟩ := wrote.differences
  rw [← Array.length_toList, grown, List.length_append, counted, Array.length_toList]

theorem code_size (wrote : Wrote p names count codes q) :
    q.code.size = p.code.size + codes.length := by
  rw [← Array.length_toList, wrote.code, List.length_append, Array.length_toList]

theorem indexed (wrote : Wrote p names count codes q) {name : Text}
    (member : name ∈ names.map Prod.fst) :
    q.symbols.names[q.qualify name]? = some (q.indexOf name) := by
  have present : q.qualify name ∈ q.symbols.names := by
    rw [wrote.symbols, SymbolTable.mem_noteAll, wrote.qualify_eq]
    obtain ⟨mention, listed, rfl⟩ := List.mem_map.1 member
    exact .inl (List.mem_map.2 ⟨_, List.mem_map.2 ⟨mention, listed, rfl⟩, rfl⟩)
  obtain ⟨index, found⟩ := SymbolTable.mem_names_iff.1 present
  rw [indexOf, found, Option.getD_some]

theorem indexOf_eq (wrote : Wrote p names count codes q) {name : Text}
    (found : p.symbols.names[p.qualify name]? = some (p.indexOf name)) :
    q.indexOf name = p.indexOf name := by
  rw [indexOf, wrote.qualify_eq, wrote.symbols, SymbolTable.names_noteAll found, Option.getD_some]

end Wrote

theorem Fits.left {p : Program} {names names' : List (Text × Position)}
    (fits : p.Fits (names ++ names')) : p.Fits names := by
  rw [Fits, whole, List.map_append, SymbolTable.noteAll_append] at fits
  exact Nat.le_trans (SymbolTable.size_le_noteAll _ _) fits

/-- A table and differences that a program may end up with. -/
structure Completes (symbols : SymbolTable) (differences : Array Difference) (p : Program) :
    Prop where
  valid : symbols.Valid
  names : ∀ (name : Text) (index : Nat),
    p.symbols.names[name]? = some index → symbols.names[name]? = some index
  kept : p.differences.toList <+: differences.toList
  size_le : differences.size ≤ addressSpace

theorem Completes.before {symbols : SymbolTable} {differences : Array Difference} {p q : Program}
    {names : List (Text × Position)} {count : Nat} {codes : List Code}
    (completes : Completes symbols differences q) (wrote : Wrote p names count codes q) :
    Completes symbols differences p where
  valid := completes.valid
  names name index found :=
    completes.names name index (wrote.symbols ▸ SymbolTable.names_noteAll found)
  kept := by
    obtain ⟨kept, _, grown⟩ := wrote.differences
    exact .trans ⟨kept, grown.symm⟩ completes.kept
  size_le := completes.size_le

def environment (p : Program) (symbols : SymbolTable) (name : Text) : Word :=
  (symbols.value? (p.qualify name)).getD 0

theorem Wrote.environment_eq {p q : Program} {names : List (Text × Position)} {count : Nat}
    {codes : List Code} (wrote : Wrote p names count codes q) :
    q.environment = p.environment := by
  funext symbols name
  simp only [environment, wrote.qualify_eq]

end Program

end Dcpu
