/-!
Byte strings. Sources, names and messages are bytes, and nothing promises that they are UTF-8, so
every count of columns, offsets and sizes is a count of bytes.
-/

set_option autoImplicit false

namespace Dcpu

abbrev Text := List UInt8

namespace Text

def ofString (s : String) : Text := s.toList.flatMap String.utf8EncodeChar

instance : Coe String Text := ⟨ofString⟩

def newline : UInt8 := 0x0a

def carriageReturn : UInt8 := 0x0d

def join (separator : Text) (items : List Text) : Text := List.intercalate separator items

def dropEnding (t ending : Text) : Text :=
  if ending.isSuffixOf t then t.take (t.length - ending.length) else t

theorem dropEnding_append (t ending : Text) : (t ++ ending).dropEnding ending = t := by
  rw [dropEnding, if_pos (List.isSuffixOf_iff_suffix.2 (List.suffix_append t ending)),
    List.length_append, Nat.add_sub_cancel, List.take_left]

def dropLastWhile (p : UInt8 → Bool) (t : Text) : Text := (t.reverse.dropWhile p).reverse

/-- Up to and with the first newline, and what follows it. -/
def splitLine (t : Text) : Text × Text :=
  match t.dropWhile (· != newline) with
  | [] => (t, [])
  | _ :: after => (t.takeWhile (· != newline) ++ [newline], after)

theorem splitLine_append (t : Text) : t.splitLine.1 ++ t.splitLine.2 = t := by
  have whole := List.takeWhile_append_dropWhile (p := (· != newline)) (l := t)
  unfold splitLine
  split
  · simp
  · rename_i found after rest
    have stop : found = newline := by
      have := List.head?_dropWhile_not (· != newline) t
      simpa [rest] using this
    rw [rest, stop] at whole
    simpa using whole

theorem splitLine_rest_length (b : UInt8) (rest : Text) :
    (splitLine (b :: rest)).2.length < (b :: rest).length := by
  unfold splitLine
  split
  · simp
  · rename_i found after cut
    have shorter := (List.dropWhile_sublist (· != newline) (l := b :: rest)).length_le
    rw [cut] at shorter
    simp only [List.length_cons] at shorter ⊢
    omega

end Text

end Dcpu
