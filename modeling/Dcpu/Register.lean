import Dcpu.Text.Lower
import Dcpu.Word

set_option autoImplicit false

namespace Dcpu

inductive Register
  | a | b | c | x | y | z | i | j
deriving DecidableEq, Repr

namespace Register

def all : List Register := [.a, .b, .c, .x, .y, .z, .i, .j]

def index : Register → Fin 8
  | .a => 0
  | .b => 1
  | .c => 2
  | .x => 3
  | .y => 4
  | .z => 5
  | .i => 6
  | .j => 7

def ofIndex : Fin 8 → Register
  | 0 => .a
  | 1 => .b
  | 2 => .c
  | 3 => .x
  | 4 => .y
  | 5 => .z
  | 6 => .i
  | 7 => .j

@[simp] theorem index_ofIndex (n : Fin 8) : (ofIndex n).index = n := by
  revert n; decide

@[simp] theorem ofIndex_index (r : Register) : ofIndex r.index = r := by
  cases r <;> rfl

theorem index_inj {r s : Register} : r.index = s.index ↔ r = s :=
  ⟨fun same => by rw [← ofIndex_index r, same, ofIndex_index], fun same => by rw [same]⟩

def ofWord (w : Word) : Register := ofIndex (Fin.ofNat 8 w.toNat)

def toWord (r : Register) : Word := r.index.val.toUInt16

@[simp] theorem ofWord_toWord (r : Register) : ofWord r.toWord = r := by
  cases r <;> rfl

def name : Register → Text
  | .a => "a"
  | .b => "b"
  | .c => "c"
  | .x => "x"
  | .y => "y"
  | .z => "z"
  | .i => "i"
  | .j => "j"

def ofName? (name : Text) : Option Register := all.find? fun r => r.name == name.lower

end Register

end Dcpu
