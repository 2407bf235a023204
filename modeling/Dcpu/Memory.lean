import Dcpu.Word

set_option autoImplicit false

namespace Dcpu

structure Memory where
  words : Vector Word UInt16.size
deriving DecidableEq

namespace Memory

def zero : Memory := ⟨Vector.replicate UInt16.size 0⟩

def read (memory : Memory) (address : Word) : Word := memory.words.get address.toFin

def write (memory : Memory) (address value : Word) : Memory :=
  ⟨memory.words.set address.toNat value address.toNat_lt_size⟩

def overwrite (memory : Memory) (image : Array Word) : Memory :=
  -- Of a longer image only what fits is copied.
  ⟨Vector.ofFn fun address => image[address.val]?.getD (memory.words.get address)⟩

theorem read_eq (memory : Memory) (address : Word) (within : address.toNat < UInt16.size) :
    memory.read address = memory.words[address.toNat] := rfl

theorem read_write (memory : Memory) (address value other : Word) :
    (memory.write address value).read other =
      if address = other then value else memory.read other := by
  simp [read_eq _ _ other.toNat_lt_size, write, Vector.getElem_set, UInt16.toNat_inj]

@[simp] theorem read_write_self (memory : Memory) (address value : Word) :
    (memory.write address value).read address = value := by simp [read_write]

@[simp] theorem read_zero (address : Word) : zero.read address = 0 := by
  simp [read_eq _ _ address.toNat_lt_size, zero]

theorem read_overwrite (memory : Memory) (image : Array Word) (address : Word) :
    (memory.overwrite image).read address =
      image[address.toNat]?.getD (memory.read address) := by
  rw [read_eq _ _ address.toNat_lt_size]
  simp only [overwrite, Vector.getElem_ofFn]
  rfl

theorem ext {first second : Memory} (same : ∀ address, first.read address = second.read address) :
    first = second := by
  cases first with
  | mk xs =>
      cases second with
      | mk ys =>
          congr 1
          apply Vector.ext
          intro i within
          have read := same (UInt16.ofNat i)
          have there : (UInt16.ofNat i).toNat = i := by simp [Nat.mod_eq_of_lt within]
          simp only [read_eq _ _ (UInt16.toNat_lt_size _), there] at read
          exact read

end Memory

end Dcpu
