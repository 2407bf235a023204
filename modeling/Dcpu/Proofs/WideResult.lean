import Dcpu.Machine.Operation
import Mathlib.Algebra.Divisibility.Basic
import Mathlib.Algebra.GroupWithZero.Nat
import Mathlib.Algebra.Ring.Int.Defs

set_option autoImplicit false

namespace Dcpu

namespace OperationResult

/-- The word for `ex` and behind it the value are the number, as far as 32 bits go. -/
def HighLow (result : OperationResult) (n : Int) : Prop :=
  ∃ ex, result.ex = some ex ∧ (ex.toNat * 0x10000 + result.value.toNat : Int) = n % 2 ^ 32

/-- The value and behind it the word for `ex` are the number, as far as 32 bits go. -/
def WholeFraction (result : OperationResult) (n : Int) : Prop :=
  ∃ ex, result.ex = some ex ∧ (result.value.toNat * 0x10000 + ex.toNat : Int) = n % 2 ^ 32

theorem highLow_wide (n : Nat) : (wide n).HighLow n := by
  refine ⟨_, rfl, ?_⟩
  simp only [wide, Nat.toUInt16_eq, UInt16.toNat_ofNat']
  omega

theorem highLow_signedWide (n : Int) : (signedWide n).HighLow n := by
  refine ⟨_, rfl, ?_⟩
  simp only [signedWide, Word.toNat_ofInt]
  omega

theorem highLow_difference (x y : Word) :
    HighLow ⟨x - y, some (if x < y then 0xffff else 0)⟩ (x.toNat - y.toNat) := by
  refine ⟨_, rfl, ?_⟩
  have smallX := x.toNat_lt
  have smallY := y.toNat_lt
  rw [UInt16.toNat_sub]
  by_cases borrow : x < y
  · have less : x.toNat < y.toNat := borrow
    simp only [if_pos borrow, UInt16.reduceToNat]
    omega
  · have least : ¬ x.toNat < y.toNat := borrow
    simp only [if_neg borrow, UInt16.reduceToNat]
    omega

theorem wholeFraction_quotient (x : Int) {divisor : Int} (positive : 0 < divisor) :
    WholeFraction ⟨Word.ofInt (x / divisor), some (Word.ofInt (x * 0x10000 / divisor))⟩
      (x * 0x10000 / divisor) := by
  -- A quotient of a number that was moved up by one word starts with the quotient of the number.
  refine ⟨_, rfl, ?_⟩
  have whole : x / divisor = x * 0x10000 / divisor / 0x10000 := by
    rw [Int.ediv_ediv_of_nonneg (Int.le_of_lt positive),
      Int.mul_ediv_mul_of_pos_left _ _ (by decide)]
  rw [Word.toNat_ofInt, Word.toNat_ofInt, whole]
  omega

end OperationResult

namespace BasicOp

open OperationResult

variable (x y ex : Word)

theorem compute?_shl :
    ∃ result, shl.compute? x y ex = some result ∧ result.HighLow (x.toNat * 2 ^ y.toNat) := by
  refine ⟨_, rfl, ?_⟩
  by_cases short : y < 32
  · rw [if_pos short, Nat.shiftLeft_eq]
    exact_mod_cast highLow_wide (x.toNat * 2 ^ y.toNat)
  · -- What is left stands above the 32 bits that are kept.
    have long : 32 ≤ y.toNat := Nat.le_of_not_lt short
    have gone : ((x.toNat : Int) * 2 ^ y.toNat) % 2 ^ 32 = ((0 : Nat) : Int) % 2 ^ 32 :=
      Int.emod_eq_zero_of_dvd ((pow_dvd_pow 2 long).mul_left _)
    obtain ⟨high, kept, zero⟩ := highLow_wide 0
    rw [if_neg short]
    exact ⟨high, kept, zero.trans gone.symm⟩

theorem compute?_div (positive : 0 < y.toNat) :
    ∃ result, div.compute? x y ex = some result ∧
      result.WholeFraction (x.toNat * 0x10000 / y.toNat) := by
  have exact := wholeFraction_quotient x.toNat (Int.natCast_pos.2 positive)
  have other : y ≠ 0 := fun zero => by simp [zero] at positive
  have whole : Word.ofInt ((x.toNat : Int) / y.toNat) = x / y := by
    rw [← Int.natCast_ediv, Word.ofInt_natCast, ← UInt16.toNat_div, Nat.toUInt16_eq,
      UInt16.ofNat_toNat]
  have fraction : Word.ofInt ((x.toNat : Int) * 0x10000 / y.toNat) =
      (x.toNat * 0x10000 / y.toNat).toUInt16 := Word.ofInt_natCast _
  rw [whole, fraction] at exact
  exact ⟨_, if_neg other, exact⟩

theorem compute?_shr :
    ∃ result, shr.compute? x y ex = some result ∧
      result.WholeFraction (x.toNat * 0x10000 / 2 ^ y.toNat) := by
  have power : ((2 ^ y.toNat : Nat) : Int) = 2 ^ y.toNat := Int.natCast_pow 2 _
  have exact := wholeFraction_quotient x.toNat (Int.natCast_pos.2 (Nat.two_pow_pos y.toNat))
  have whole : Word.ofInt ((x.toNat : Int) / (2 ^ y.toNat : Nat)) =
      (x.toNat >>> y.toNat).toUInt16 := by
    rw [← Int.natCast_ediv, Word.ofInt_natCast, Nat.shiftRight_eq_div_pow]
  have fraction : Word.ofInt ((x.toNat : Int) * 0x10000 / (2 ^ y.toNat : Nat)) =
      ((x.toNat * 0x10000) >>> y.toNat).toUInt16 := by
    rw [Nat.shiftRight_eq_div_pow]
    exact Word.ofInt_natCast _
  rw [whole, fraction, power] at exact
  exact ⟨_, rfl, exact⟩

theorem compute?_asr :
    ∃ result, asr.compute? x y ex = some result ∧
      result.WholeFraction (Word.signed x * 0x10000 / 2 ^ y.toNat) := by
  have power : ((2 ^ y.toNat : Nat) : Int) = 2 ^ y.toNat := Int.natCast_pow 2 _
  have exact := wholeFraction_quotient (Word.signed x) (Int.natCast_pos.2 (Nat.two_pow_pos y.toNat))
  rw [← Int.shiftRight_eq_div_pow, ← Int.shiftRight_eq_div_pow] at exact
  refine ⟨_, rfl, ?_⟩
  rw [← power, ← Int.shiftRight_eq_div_pow]
  exact exact

end BasicOp

def Place.isCell : Place → Bool
  | .register _ | .memory _ | .sp | .pc => true
  | .ex | .literal _ => false

namespace Machine

open OperationResult

variable {layout : Layout} {op : BasicOp} {m : Machine} {a b : Place} {result : OperationResult}

theorem get_set (cell : a.isCell = true) (m : Machine) (value ex : Word) :
    { m.set a value with ex }.get a = value := by
  cases a with
  | register r => exact (m.register_setRegister r r value).trans (if_pos rfl)
  | memory address => exact m.memory.read_write_self address value
  | sp => rfl
  | pc => rfl
  | ex => cases cell
  | literal value => cases cell

theorem basic_of_compute? {ex : Word} (layout : Layout)
    (computed : op.compute? (m.get a) (m.get b) m.ex = some result) (wide : result.ex = some ex) :
    m.basic layout op a b = some { m.set a result.value with ex } := by
  simp only [basic, computed, wide, setEx]
  cases op with
  | sti =>
      cases computed
      cases wide
  | std =>
      cases computed
      cases wide
  | _ => rfl

def highLow (m : Machine) (a : Place) : Int := m.ex.toNat * 0x10000 + (m.get a).toNat

def wholeFraction (m : Machine) (a : Place) : Int := (m.get a).toNat * 0x10000 + m.ex.toNat

def Leaves (layout : Layout) (op : BasicOp) (a b : Place) (m : Machine)
    (joined : Machine → Place → Int) (n : Int) : Prop :=
  ∃ m', m.basic layout op a b = some m' ∧ joined m' a = n % 2 ^ 32

theorem leaves_highLow (layout : Layout) (cell : a.isCell = true) {n : Int}
    (computed : ∃ result, op.compute? (m.get a) (m.get b) m.ex = some result ∧ result.HighLow n) :
    m.Leaves layout op a b highLow n := by
  obtain ⟨result, computed, ex, wide, whole⟩ := computed
  refine ⟨_, basic_of_compute? layout computed wide, ?_⟩
  rw [highLow, get_set cell]
  exact whole

theorem leaves_wholeFraction (layout : Layout) (cell : a.isCell = true) {n : Int}
    (computed : ∃ result, op.compute? (m.get a) (m.get b) m.ex = some result ∧
      result.WholeFraction n) :
    m.Leaves layout op a b wholeFraction n := by
  obtain ⟨result, computed, ex, wide, whole⟩ := computed
  refine ⟨_, basic_of_compute? layout computed wide, ?_⟩
  rw [wholeFraction, get_set cell]
  exact whole

/-- An operation leaves its exact result in a place and `ex` together: sums, differences, products
and shifts to the left with `ex` in front, quotients and shifts to the right with `ex` behind the
point. -/
theorem basic_exact (layout : Layout) {m : Machine} {a b : Place} {x y : Word}
    (cell : a.isCell = true) (first : m.get a = x) (second : m.get b = y) :
    m.Leaves layout .add a b highLow (x.toNat + y.toNat) ∧
      m.Leaves layout .sub a b highLow (x.toNat - y.toNat) ∧
      m.Leaves layout .mul a b highLow (x.toNat * y.toNat) ∧
      m.Leaves layout .mli a b highLow (Word.signed x * Word.signed y) ∧
      m.Leaves layout .shl a b highLow (x.toNat * 2 ^ y.toNat) ∧
      (0 < y.toNat → m.Leaves layout .div a b wholeFraction (x.toNat * 0x10000 / y.toNat)) ∧
      m.Leaves layout .shr a b wholeFraction (x.toNat * 0x10000 / 2 ^ y.toNat) ∧
      m.Leaves layout .asr a b wholeFraction (Word.signed x * 0x10000 / 2 ^ y.toNat) ∧
      (y = 0 → ∀ op ∈ [BasicOp.div, .dvi],
        ∃ m', m.basic layout op a b = some m' ∧ m'.get a = 0 ∧ m'.ex = 0) := by
  subst first second
  refine ⟨?_, ?_, ?_, ?_, ?_, ?_, ?_, ?_, ?_⟩
  · exact leaves_highLow layout cell ⟨_, rfl, by exact_mod_cast highLow_wide _⟩
  · exact leaves_highLow layout cell ⟨_, rfl, highLow_difference _ _⟩
  · exact leaves_highLow layout cell ⟨_, rfl, by exact_mod_cast highLow_wide _⟩
  · exact leaves_highLow layout cell ⟨_, rfl, highLow_signedWide _⟩
  · exact leaves_highLow layout cell (BasicOp.compute?_shl _ _ _)
  · exact fun positive => leaves_wholeFraction layout cell (BasicOp.compute?_div _ _ _ positive)
  · exact leaves_wholeFraction layout cell (BasicOp.compute?_shr _ _ _)
  · exact leaves_wholeFraction layout cell (BasicOp.compute?_asr _ _ _)
  · intro zero op member
    have computed : op.compute? (m.get a) (m.get b) m.ex = some .zero := by
      simp only [List.mem_cons, List.not_mem_nil, or_false] at member
      rcases member with rfl | rfl <;> simp [BasicOp.compute?, zero]
    exact ⟨_, basic_of_compute? layout computed rfl, get_set cell _ _ _, rfl⟩

def highStack : Machine := { zero with sp := 0x8001 }

theorem basic_exact_highStack :
    highStack.get .sp = 0x8001 ∧
      highStack.Leaves .v2 .mli .sp (.literal 0xfffe) highLow 65534 ∧
      highStack.Leaves .v2 .asr .sp (.literal 4) wholeFraction (-32767 * 0x10000 / 2 ^ 4) := by
  have first : highStack.get .sp = 0x8001 := rfl
  have minus : highStack.get (.literal 0xfffe) = 0xfffe := rfl
  have count : highStack.get (.literal 4) = 4 := rfl
  have signed : Word.signed 0x8001 = -32767 ∧ Word.signed 0xfffe = -2 := by decide
  obtain ⟨_, _, _, product, _⟩ := basic_exact .v2 rfl first minus
  obtain ⟨_, _, _, _, _, _, _, shifted, _⟩ := basic_exact .v2 rfl first count
  rw [signed.1, signed.2] at product
  rw [signed.1] at shifted
  exact ⟨first, product, shifted⟩

end Machine

end Dcpu
