import Dcpu.Text.Lower

set_option autoImplicit false

namespace Dcpu

namespace Text

def Ascii (t : Text) : Prop := ∀ b ∈ t, b < 0x80

instance (t : Text) : Decidable t.Ascii := List.decidableBAll (· < 0x80) t

def asciiChar (b : UInt8) : Char := Char.ofNat b.toNat

def lowerByte (b : UInt8) : UInt8 := if 0x41 ≤ b ∧ b ≤ 0x5a then b + 0x20 else b

theorem decodeFirst_ascii {b : UInt8} (ascii : b < 0x80) (rest : Text) :
    decodeFirst b rest = (asciiChar b, 1) := by
  have small : b.toNat < 0x80 := ascii
  have valid : b.toNat.isValidChar := .inl (by omega)
  have found : sequence? b rest = some (asciiChar b, 1) := by
    rw [sequence?, leadByte?, if_pos ascii, asciiChar, Char.ofNat, dif_pos valid]
    exact (dif_pos valid).trans (if_pos (Nat.zero_le _))
  rw [decodeFirst, found]
  rfl

theorem chars_cons_ascii {b : UInt8} (ascii : b < 0x80) (rest : Text) :
    chars (b :: rest) = asciiChar b :: chars rest := by
  rw [chars_cons, decodeFirst_ascii ascii]
  rfl

theorem ofChar_lowerChar {b : UInt8} (ascii : b < 0x80) :
    ofChar (lowerChar (asciiChar b)) = [lowerByte b] := by
  have all : ∀ n : Fin 0x80, ofChar (lowerChar (asciiChar (UInt8.ofNat n))) =
      [lowerByte (UInt8.ofNat n)] := by decide +kernel
  have found := all ⟨b.toNat, ascii⟩
  rwa [UInt8.ofNat_toNat] at found

theorem lower_of_ascii {t : Text} (ascii : t.Ascii) : t.lower = t.map lowerByte := by
  induction t with
  | nil => simp [lower]
  | cons b rest ih =>
      have tail := ih fun c member => ascii c (.tail _ member)
      rw [lower] at tail
      rw [lower, chars_cons_ascii (ascii b (.head _)), List.flatMap_cons, tail,
        ofChar_lowerChar (ascii b (.head _))]
      rfl

theorem lower_eq_self {t : Text} (ascii : t.Ascii) (lowered : t.map lowerByte = t) : t.lower = t :=
  (lower_of_ascii ascii).trans lowered

end Text

end Dcpu
