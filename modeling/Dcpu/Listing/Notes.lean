import Dcpu.Symbol
import Std.Data.HashMap

set_option autoImplicit false

namespace Dcpu

structure Note where
  -- the names of the address, in the order of the symbols
  labels : List Text
  -- what stands there: the last symbol that knows it decides
  type : SymbolType
  -- the first name of code there
  code? : Option Text
  -- the first name of data there
  data? : Option Text
deriving DecidableEq, Repr

namespace Note

def empty : Note := ⟨[], .unknown, none, none⟩

def before (s : Symbol) (n : Note) : Note where
  labels := s.name :: n.labels
  type := if n.type = .unknown then s.type else n.type
  code? := if s.type = .code then some s.name else n.code?
  data? := if s.type = .data then some s.name else n.data?

end Note

def Symbol.isBound (s : Symbol) : Bool := s.name == codeStart || s.name == codeEnd

structure Notes where
  byAddress : Std.HashMap Word Note

namespace Notes

def empty : Notes := ⟨∅⟩

def get (notes : Notes) (address : Word) : Note := notes.byAddress.getD address .empty

def before (s : Symbol) (notes : Notes) : Notes :=
  if s.isBound then notes
  else ⟨notes.byAddress.insert s.value ((notes.get s.value).before s)⟩

def ofSymbols (symbols : List Symbol) : Notes := symbols.foldr before empty

theorem get_before (s : Symbol) (notes : Notes) (address : Word) :
    (notes.before s).get address =
      if s.isBound then notes.get address
      else if s.value = address then (notes.get address).before s
      else notes.get address := by
  unfold before
  split
  · rfl
  · by_cases same : s.value = address
    · subst same
      simp [get]
    · simp [get, Std.HashMap.getD_insert, same]

theorem get_ofSymbols (symbols : List Symbol) (address : Word) :
    (ofSymbols symbols).get address =
      (symbols.filter fun s => !s.isBound && s.value == address).foldr Note.before .empty := by
  induction symbols with
  | nil => simp [ofSymbols, get, empty]
  | cons s symbols ih =>
      change (before s (ofSymbols symbols)).get address = _
      rw [get_before, ih]
      by_cases bound : s.isBound <;> by_cases same : s.value = address <;> simp [bound, same]

end Notes

end Dcpu
