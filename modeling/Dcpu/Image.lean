import Dcpu.Text.Digits

set_option autoImplicit false

namespace Dcpu

inductive ByteOrder
  | little
  | big
deriving DecidableEq, Repr

namespace ByteOrder

def bytes (order : ByteOrder) (w : Word) : Text :=
  match order with
  | .little => [w.toUInt8, (w >>> 8).toUInt8]
  | .big => [(w >>> 8).toUInt8, w.toUInt8]

def word (order : ByteOrder) (first second : UInt8) : Word :=
  match order with
  | .little => second.toUInt16 <<< 8 ||| first.toUInt16
  | .big => first.toUInt16 <<< 8 ||| second.toUInt16

def wordsAfter (order : ByteOrder) (found : Array Word) : Text → Array Word
  | first :: second :: rest => wordsAfter order (found.push (order.word first second)) rest
  | _ => found

end ByteOrder

namespace Image

def toBytes (order : ByteOrder) (image : Array Word) : Text := image.toList.flatMap order.bytes

inductive BytesError
  | odd
  | tooLong
deriving DecidableEq, Repr

def BytesError.message : BytesError → Text
  | .odd => "Error reading binary: odd number of bytes"
  | .tooLong => "Error reading binary: image exceeds memory"

def ofBytes (order : ByteOrder) (bytes : Text) : Except BytesError (Array Word) :=
  if bytes.length % 2 ≠ 0 then .error .odd
  else if 2 * addressSpace < bytes.length then .error .tooLong
  else .ok (order.wordsAfter #[] bytes)

end Image

end Dcpu
