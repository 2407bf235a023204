import Dcpu.Path

set_option autoImplicit false

namespace Dcpu

namespace Path

def stem (path : Text) : Text := path.dropEnding (extension path)

def IsExtension (e : Text) : Prop := ∃ name : Text, e = dot :: name ∧ dot ∉ name ∧ slash ∉ name

variable {path e : Text}

theorem takeWhile_ne {b : UInt8} {t : Text} (free : b ∉ t) (rest : Text) :
    (t ++ b :: rest).takeWhile (· != b) = t := by
  rw [List.takeWhile_append_of_pos, List.takeWhile_cons_of_neg (by simp), List.append_nil]
  intro c member
  rw [bne_iff_ne]
  rintro rfl
  exact free member

theorem extension_append (formed : IsExtension e) (t : Text) : extension (t ++ e) = e := by
  obtain ⟨name, rfl, undotted, unslashed⟩ := formed
  -- Seen from the end, the name of the extension comes first, then its dot.
  have last : (t ++ dot :: name).reverse.takeWhile (· != slash) =
      name.reverse ++ dot :: t.reverse.takeWhile (· != slash) := by
    rw [List.reverse_append, List.reverse_cons, List.append_assoc, List.singleton_append,
      List.takeWhile_append_of_pos, List.takeWhile_cons_of_pos (by decide)]
    intro c member
    rw [bne_iff_ne]
    rintro rfl
    exact unslashed (List.mem_reverse.1 member)
  have free : dot ∉ name.reverse := fun member => undotted (List.mem_reverse.1 member)
  rw [extension, last]
  rw [if_pos (by simp), takeWhile_ne free, List.reverse_reverse]

theorem extension_suffix (path : Text) : extension path <:+ path := by
  rw [extension]
  split
  · rename_i dotted
    obtain ⟨before, after, parts, free⟩ :=
      List.eq_append_cons_of_mem (List.contains_iff_mem.1 dotted)
    obtain ⟨rest, whole⟩ := List.takeWhile_prefix (· != slash) (l := path.reverse)
    rw [parts] at whole
    rw [parts, takeWhile_ne free]
    refine ⟨(after ++ rest).reverse, ?_⟩
    rw [← List.reverse_reverse path, ← whole]
    simp
  · exact List.nil_suffix

theorem stem_append_extension (path : Text) : stem path ++ extension path = path := by
  obtain ⟨front, whole⟩ := extension_suffix path
  have dropped := Text.dropEnding_append front (extension path)
  rw [whole] at dropped
  rw [stem, dropped, whole]

theorem stem_append (formed : IsExtension e) (t : Text) : stem (t ++ e) = t := by
  rw [stem, extension_append formed, Text.dropEnding_append]

theorem replaceExtension_eq (path e : Text) : replaceExtension path e = stem path ++ e := rfl

theorem extension_replaceExtension (formed : IsExtension e) (path : Text) :
    extension (replaceExtension path e) = e :=
  extension_append formed _

theorem stem_replaceExtension (formed : IsExtension e) (path : Text) :
    stem (replaceExtension path e) = stem path :=
  stem_append formed _

theorem replaceExtension_eq_self_iff (formed : IsExtension e) :
    replaceExtension path e = path ↔ extension path = e := by
  constructor
  · intro same
    rw [← same]
    exact extension_append formed _
  · rintro rfl
    exact stem_append_extension path

end Path

end Dcpu
