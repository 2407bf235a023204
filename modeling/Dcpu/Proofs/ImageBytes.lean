import Dcpu.Image.Format
import Dcpu.Machine.Load

set_option autoImplicit false

namespace Dcpu

namespace ByteOrder

theorem toNat_join (high low : UInt8) :
    (high.toUInt16 <<< 8 ||| low.toUInt16).toNat = high.toNat * 256 + low.toNat := by
  have room := high.toNat_lt
  have shifted : (high.toUInt16 <<< 8).toNat = high.toNat <<< 8 := by
    simp [Nat.shiftLeft_eq]
    omega
  rw [UInt16.toNat_or, shifted, UInt8.toNat_toUInt16, ← Nat.shiftLeft_add_eq_or_of_lt low.toNat_lt,
    Nat.shiftLeft_eq]

theorem toNat_high (w : Word) : (w >>> 8).toNat = w.toNat / 256 := by
  simp [Nat.shiftRight_eq_div_pow]

theorem word_eq_iff {order : ByteOrder} {first second : UInt8} {w : Word} :
    order.word first second = w ↔ order.bytes w = [first, second] := by
  have word_lt := w.toNat_lt
  have first_lt := first.toNat_lt
  have second_lt := second.toNat_lt
  cases order <;>
    simp only [word, bytes, List.cons.injEq, and_true, ← UInt16.toNat_inj, ← UInt8.toNat_inj,
      toNat_join, toNat_high, UInt16.toNat_toUInt8] <;>
    omega

theorem exists_bytes (order : ByteOrder) (w : Word) :
    ∃ first second, order.bytes w = [first, second] := by
  cases order <;> exact ⟨_, _, rfl⟩

theorem wordsAfter_flatMap (order : ByteOrder) (found : Array Word) (words : List Word) :
    order.wordsAfter found (words.flatMap order.bytes) = found ++ words.toArray := by
  induction words generalizing found with
  | nil => simp [wordsAfter]
  | cons w rest ih =>
      obtain ⟨first, second, bytes⟩ := order.exists_bytes w
      rw [List.flatMap_cons, bytes, List.cons_append, List.cons_append, List.nil_append, wordsAfter,
        word_eq_iff.2 bytes, ih]
      simp

theorem flatMap_wordsAfter (order : ByteOrder) (found : Array Word) (bytes : Text)
    (even : bytes.length % 2 = 0) :
    (order.wordsAfter found bytes).toList.flatMap order.bytes =
      found.toList.flatMap order.bytes ++ bytes := by
  fun_induction order.wordsAfter found bytes with
  | case1 found first second rest ih =>
      have bytes : order.bytes (order.word first second) = [first, second] := word_eq_iff.1 rfl
      simp only [List.length_cons] at even
      rw [ih (by omega)]
      simp [bytes]
  | case2 bytes found short =>
      -- Neither two bytes nor one are left, so none are.
      rcases bytes with _ | ⟨first, _ | ⟨second, rest⟩⟩
      · simp
      · simp at even
      · exact absurd rfl (short first second rest)

end ByteOrder

namespace Image

variable {order : ByteOrder} {image : Array Word} {bytes : Text}

theorem length_toBytes (order : ByteOrder) (image : Array Word) :
    (toBytes order image).length = 2 * image.size := by
  have twice (words : List Word) : (words.flatMap order.bytes).length = 2 * words.length := by
    induction words with
    | nil => rfl
    | cons w rest ih =>
        obtain ⟨first, second, bytes⟩ := order.exists_bytes w
        simp only [List.flatMap_cons, bytes, List.length_append, List.length_cons, ih]
        simp only [List.length_nil]
        omega
  simpa [toBytes] using twice image.toList

theorem ofBytes_eq_ok_iff :
    ofBytes order bytes = .ok image ↔ toBytes order image = bytes ∧ image.size ≤ addressSpace := by
  constructor
  · intro read
    rw [ofBytes] at read
    split at read
    · cases read
    · split at read
      · cases read
      · rename_i even fits
        obtain rfl := Except.ok.inj read
        have back := order.flatMap_wordsAfter #[] bytes (by omega)
        refine ⟨by simpa [toBytes] using back, ?_⟩
        have size := length_toBytes order (order.wordsAfter #[] bytes)
        rw [toBytes, back] at size
        simp only [List.flatMap_nil, List.nil_append] at size
        omega
  · rintro ⟨rfl, fits⟩
    have size := length_toBytes order image
    rw [ofBytes, if_neg (by omega), if_neg (by omega), toBytes, order.wordsAfter_flatMap]
    simp

theorem ofBytes_eq_error_iff :
    (∃ e, ofBytes order bytes = .error e) ↔
      bytes.length % 2 = 1 ∨ 2 * addressSpace < bytes.length := by
  rw [ofBytes]
  split
  · simp only [Except.error.injEq, exists_eq', true_iff]
    omega
  · split
    · simp only [Except.error.injEq, exists_eq', true_iff]
      omega
    · simp only [reduceCtorEq, exists_false, false_iff]
      omega

end Image

namespace Memory

theorem words_overwrite_zero {image : Array Word} (fits : image.size ≤ addressSpace) :
    (zero.overwrite image).words.toList =
      image.toList ++ List.replicate (addressSpace - image.size) 0 := by
  apply List.ext_getElem?
  intro i
  simp only [overwrite, Vector.toList_ofFn, List.getElem?_ofFn]
  have empty (address : Fin UInt16.size) : zero.words.get address = 0 :=
    Vector.getElem_replicate address.isLt
  simp only [empty]
  have space : addressSpace = UInt16.size := rfl
  by_cases inside : i < image.size
  · have within : i < UInt16.size := Nat.lt_of_lt_of_le inside fits
    rw [List.getElem?_append_left (by simpa using inside)]
    simp [inside, within]
  · rw [List.getElem?_append_right (by simpa using inside), List.getElem?_replicate]
    have behind : i - image.toList.length < addressSpace - image.size ↔ i < UInt16.size := by
      rw [Array.length_toList]
      omega
    simp only [behind, Array.getElem?_eq_none (Nat.le_of_not_lt inside), Option.getD_none]
    split <;> rfl

end Memory

namespace Machine

/-- A machine with an image at the start of its memory and nothing else in it. -/
structure Loaded (image : Array Word) (m : Machine) : Prop where
  memory : m.memory.words.toList = image.toList ++ List.replicate (addressSpace - image.size) 0
  registers : ∀ r, m.register r = 0
  pc : m.pc = 0
  sp : m.sp = 0
  ex : m.ex = 0
  ia : m.ia = 0
  running : m.halted = false
  queue : m.queue = []
  queueing : m.queueing = false

theorem loaded_load (m : Machine) {image : Array Word} (fits : image.size ≤ addressSpace) :
    (m.load image).Loaded image where
  memory := Memory.words_overwrite_zero fits
  registers r := by
    change (Vector.replicate 8 (0 : Word)).get r.index = 0
    exact Vector.getElem_replicate r.index.isLt
  pc := rfl
  sp := rfl
  ex := rfl
  ia := rfl
  running := rfl
  queue := rfl
  queueing := rfl

theorem loadBytes_of_ok {order : ByteOrder} {bytes : Text} {image : Array Word}
    (read : Image.ofBytes order bytes = .ok image) (m : Machine) :
    m.loadBytes order bytes = (m.load image, none) := by
  rw [loadBytes, read]

theorem loadBytes_of_error {order : ByteOrder} {bytes : Text} {e : Image.BytesError}
    (read : Image.ofBytes order bytes = .error e) (m : Machine) :
    m.loadBytes order bytes = (m, some e) := by
  rw [loadBytes, read]

/-- What was written in either order is loaded as it was, into whatever machine, and other bytes are
loaded as the image that they are, or not at all. -/
theorem loadBytes_exact (m : Machine) (order : ByteOrder) :
    (∀ (image : Array Word) (layout : LayoutNumber) (symbols : List Symbol),
      image.size ≤ addressSpace →
        ∃ bytes, Image.write ⟨.binary, order, layout⟩ image symbols = .ok bytes ∧
          m.loadBytes order bytes = (m.load image, none) ∧ (m.load image).Loaded image) ∧
    ∀ bytes : Text,
      ((m.loadBytes order bytes).2 ≠ none ↔ bytes.length % 2 = 1 ∨ 131072 < bytes.length) ∧
      ((m.loadBytes order bytes).2 ≠ none → (m.loadBytes order bytes).1 = m) ∧
      ((m.loadBytes order bytes).2 = none →
        ∃ image, Image.toBytes order image = bytes ∧ (m.loadBytes order bytes).1 = m.load image) := by
  constructor
  · intro image layout symbols fits
    exact ⟨_, rfl, loadBytes_of_ok (Image.ofBytes_eq_ok_iff.2 ⟨rfl, fits⟩) m, loaded_load m fits⟩
  · intro bytes
    have fails : (∃ e, Image.ofBytes order bytes = .error e) ↔
        bytes.length % 2 = 1 ∨ 131072 < bytes.length := Image.ofBytes_eq_error_iff
    rw [← fails]
    cases read : Image.ofBytes order bytes with
    | error e =>
        rw [loadBytes_of_error read]
        simp
    | ok image =>
        rw [loadBytes_of_ok read]
        simpa using ⟨image, (Image.ofBytes_eq_ok_iff.1 read).1, rfl⟩

def busy : Machine :=
  { registers := Vector.replicate 8 7, pc := 3, sp := 0xfffe, ex := 1, ia := 0x20
    memory := Memory.zero.overwrite #[0x1801, 0x0002, 0x7f81], halted := true, queue := [5, 6]
    queueing := true }

theorem loadBytes_exact_busy :
    (∃ bytes, Image.write ⟨.binary, .big, ⟨0⟩⟩ #[0x7c01, 0x0030] [] = .ok bytes ∧
      bytes = [0x7c, 0x01, 0x00, 0x30] ∧
      busy.loadBytes .big bytes = (busy.load #[0x7c01, 0x0030], none)) ∧
    (busy.loadBytes .big [0x01]).1 = busy := by
  obtain ⟨written, other⟩ := loadBytes_exact busy .big
  obtain ⟨bytes, wrote, loaded, _⟩ := written #[0x7c01, 0x0030] ⟨0⟩ [] (by decide)
  obtain ⟨fails, unchanged, _⟩ := other [0x01]
  exact ⟨⟨bytes, wrote, (Except.ok.inj wrote).symm, loaded⟩, unchanged (fails.2 (.inl rfl))⟩

end Machine

end Dcpu
