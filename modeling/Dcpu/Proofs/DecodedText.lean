import Dcpu.Proofs.AsciiText

set_option autoImplicit false

namespace Dcpu

namespace Text

variable {b : UInt8} {bits d n more least : Nat} {rest further : Text} {c : Char}

theorem toNat_byte (small : d < 0x100) : (UInt8.ofNat d).toNat = d :=
  UInt8.toNat_ofNat_of_lt' small

theorem continueBits_byte (small : d < 64) (n bits : Nat) (rest : Text) :
    continueBits (n + 1) bits (UInt8.ofNat (d + 128) :: rest) =
      continueBits n (bits * 64 + d) rest := by
  have value := toNat_byte (d := d + 128) (by omega)
  have inside : 0x80 ≤ UInt8.ofNat (d + 128) ∧ UInt8.ofNat (d + 128) < 0xC0 := by
    rw [UInt8.le_iff_toNat_le, UInt8.lt_iff_toNat_lt, value]
    exact ⟨by change 128 ≤ _; omega, by change _ < 192; omega⟩
  have low : (d + 128) % 64 = d := by omega
  rw [continueBits, if_pos inside, value, low]

theorem leadByte?_two (small : d < 32) :
    leadByte? (UInt8.ofNat (d + 192)) = some (1, d, 0x80) := by
  have all : ∀ d : Fin 32, leadByte? (UInt8.ofNat (d + 192)) = some (1, d.val, 0x80) := by decide
  exact all ⟨d, small⟩

theorem leadByte?_three (small : d < 16) :
    leadByte? (UInt8.ofNat (d + 224)) = some (2, d, 0x800) := by
  have all : ∀ d : Fin 16, leadByte? (UInt8.ofNat (d + 224)) = some (2, d.val, 0x800) := by decide
  exact all ⟨d, small⟩

theorem leadByte?_four (small : d < 8) :
    leadByte? (UInt8.ofNat (d + 240)) = some (3, d, 0x10000) := by
  have all : ∀ d : Fin 8, leadByte? (UInt8.ofNat (d + 240)) = some (3, d.val, 0x10000) := by decide
  exact all ⟨d, small⟩

theorem decodeFirst_eq (lead : leadByte? b = some (more, bits, least))
    (value : continueBits more bits rest = some c.toNat) (enough : least ≤ c.toNat) :
    decodeFirst b rest = (c, more + 1) := by
  have found : sequence? b rest = some (c, more + 1) := by
    rw [sequence?, lead]
    change (continueBits more bits rest).bind _ = _
    rw [value]
    exact (dif_pos c.valid).trans (if_pos enough)
  rw [decodeFirst, found]
  rfl

theorem exists_ofChar_eq_cons (c : Char) :
    ∃ b further, ofChar c = b :: further ∧
      ∀ rest, decodeFirst b (further ++ rest) = (c, further.length + 1) := by
  have value : c.val.toNat = c.toNat := rfl
  have limit : c.toNat < 0x110000 := by
    rcases c.valid with low | high
    · exact Nat.lt_trans low (by decide)
    · exact high.2
  rw [ofChar, String.utf8EncodeChar, value]
  -- The bits go into one to four bytes, and the length is the shortest for the value.
  split
  · rename_i one
    refine ⟨_, [], rfl, fun rest => ?_⟩
    have small := toNat_byte (d := c.toNat) (by omega)
    have ascii : UInt8.ofNat c.toNat < 0x80 := by
      rw [UInt8.lt_iff_toNat_lt, small]
      exact Nat.lt_succ_of_le one
    rw [List.nil_append, decodeFirst_ascii ascii, asciiChar, small, Char.ofNat_toNat]
    rfl
  split
  · rename_i one two
    refine ⟨_, _, rfl, fun rest => ?_⟩
    refine decodeFirst_eq (leadByte?_two (Nat.mod_lt _ (by decide))) ?_ (by omega)
    change continueBits (0 + 1) _ _ = _
    rw [List.cons_append, continueBits_byte (Nat.mod_lt _ (by decide)), continueBits]
    exact congrArg some (by omega)
  split
  · rename_i one two three
    refine ⟨_, _, rfl, fun rest => ?_⟩
    refine decodeFirst_eq (leadByte?_three (Nat.mod_lt _ (by decide))) ?_ (by omega)
    change continueBits (1 + 1) _ _ = _
    rw [List.cons_append, continueBits_byte (Nat.mod_lt _ (by decide)), List.cons_append,
      continueBits_byte (Nat.mod_lt _ (by decide)), continueBits]
    exact congrArg some (by omega)
  · rename_i one two three
    refine ⟨_, _, rfl, fun rest => ?_⟩
    refine decodeFirst_eq (leadByte?_four (Nat.mod_lt _ (by decide))) ?_ (by omega)
    change continueBits (2 + 1) _ _ = _
    rw [List.cons_append, continueBits_byte (Nat.mod_lt _ (by decide)), List.cons_append,
      continueBits_byte (Nat.mod_lt _ (by decide)), List.cons_append,
      continueBits_byte (Nat.mod_lt _ (by decide)), continueBits]
    exact congrArg some (by omega)

theorem chars_flatMap_ofChar (cs : List Char) : chars (cs.flatMap ofChar) = cs := by
  induction cs with
  | nil => exact chars_nil
  | cons c cs ih =>
      obtain ⟨b, further, written, read⟩ := exists_ofChar_eq_cons c
      rw [List.flatMap_cons, written, List.cons_append, chars_cons, read, Nat.add_sub_cancel,
        List.drop_left, ih]

theorem lowerChar_lowerChar (c : Char) : lowerChar (lowerChar c) = lowerChar c := by
  by_cases ascii : c.toNat < 0x80
  · have all : ∀ n : Fin 0x80,
        lowerChar (lowerChar (Char.ofNat n)) = lowerChar (Char.ofNat n) := by decide +kernel
    have found := all ⟨c.toNat, ascii⟩
    rwa [Char.ofNat_toNat] at found
  -- Past ASCII only two characters change, and they become letters in lower case.
  · have kept : c.toLower = c := by
      refine dif_neg ?_
      rintro ⟨_, upper⟩
      rw [UInt32.le_iff_toNat_le] at upper
      exact ascii (Nat.lt_of_le_of_lt upper (by decide))
    by_cases dotted : c = '\u0130'
    · subst dotted
      decide
    by_cases kelvin : c = '\u212a'
    · subst kelvin
      decide
    have same : lowerChar c = c := by rw [lowerChar, if_neg dotted, if_neg kelvin, kept]
    rw [same, same]

theorem lower_lower (t : Text) : t.lower.lower = t.lower := by
  have bytes (t : Text) : t.lower = (t.chars.map lowerChar).flatMap ofChar := by
    rw [lower, List.flatMap_map]
  rw [bytes t, bytes, chars_flatMap_ofChar, List.map_map]
  congr 1
  exact List.map_congr_left fun c _ => lowerChar_lowerChar c

end Text

end Dcpu
