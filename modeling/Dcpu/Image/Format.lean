import Dcpu.Image
import Dcpu.Listing

set_option autoImplicit false

namespace Dcpu

inductive Format
  | binary
  | hex
  | hexWithAddress
  | assemblyHex
  | listing
  -- a number that no format has
  | other (number : Nat)
deriving DecidableEq, Repr

namespace Format

def ofName? (name : Text) : Option Format :=
  if name = "b" ∨ name = "binary" then some .binary
  else if name = "h" ∨ name = "hex" then some .hex
  else if name = "H" ∨ name = "hexwithaddr" then some .hexWithAddress
  else if name = "A" ∨ name = "assemblyhex" then some .assemblyHex
  else if name = "L" ∨ name = "listing" then some .listing
  else none

def ofNumber : Nat → Format
  | 0 => .binary
  | 1 => .hex
  | 2 => .hexWithAddress
  | 3 => .assemblyHex
  | 4 => .listing
  | n => .other n

def number : Format → Nat
  | .binary => 0
  | .hex => 1
  | .hexWithAddress => 2
  | .assemblyHex => 3
  | .listing => 4
  | .other n => n

def name : Format → Text
  | .binary => "binary"
  | .hex => "hex"
  | .hexWithAddress => "hexwithaddr"
  | .assemblyHex => "assemblyhex"
  | .listing => "listing"
  | .other _ => "<invalid>"

def isText (f : Format) : Bool := f != .binary

end Format

inductive FormatError
  | unknownName (name : Text)
  | unknownNumber (number : Nat)
  | breach (breach : Breach)
deriving DecidableEq, Repr

namespace FormatError

def message : FormatError → Text
  | .unknownName name => "Unknown target format '" ++ name ++ "'"
  | .unknownNumber number => "Unknown target format " ++ Text.decimal number
  | .breach b => b.message?.getD []

end FormatError

namespace Image

structure Style where
  format : Format
  order : ByteOrder
  -- the layout of a listing
  layout : LayoutNumber
deriving DecidableEq, Repr

def rowWidth : Nat := 8

def rows (image : Array Word) : List (Nat × List Word) :=
  (List.range ((image.size + rowWidth - 1) / rowWidth)).map fun row =>
    (row * rowWidth, (image.extract (row * rowWidth) ((row + 1) * rowWidth)).toList)

def hexRow (words : List Word) : Text := Text.join " " (words.map Text.hexWord) ++ "\n"

def dataRow (words : List Word) : Text :=
  "dat " ++ Text.join ", " (words.map fun w => ("0x" ++ Text.hexWord w : Text)) ++ "\n"

def hexText (image : Array Word) : Text := (rows image).flatMap fun row => hexRow row.2

def hexWithAddressText (image : Array Word) : Text :=
  (rows image).flatMap fun row => Text.hex4 row.1 ++ " " ++ hexRow row.2

def assemblyText (image : Array Word) : Text := (rows image).flatMap fun row => dataRow row.2

def listingText (layout : LayoutNumber) (image : Array Word) (symbols : List Symbol) :
    Except Breach Text := do
  -- A listing without a layout is in the default one.
  let number := if layout.value = 0 then Layout.default.number else layout
  return Listing.render (← Listing.ofNumberedLayout number image symbols)

def write (style : Style) (image : Array Word) (symbols : List Symbol) :
    Except FormatError Text :=
  match style.format with
  | .binary => .ok (toBytes style.order image)
  | .hex => .ok (hexText image)
  | .hexWithAddress => .ok (hexWithAddressText image)
  | .assemblyHex => .ok (assemblyText image)
  | .listing => (listingText style.layout image symbols).mapError .breach
  | .other number => .error (.unknownNumber number)

end Image

end Dcpu
