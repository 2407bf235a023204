import Dcpu.Breach
import Dcpu.Layout.Operand
import Dcpu.Layout.Operation
import Dcpu.Listing.Notes
import Dcpu.Text.Digits
import Dcpu.Text.Utf8

/-!
Listings of images. A line of a listing is an instruction with its tail or a single word of data.
Data starts at a symbol of data and ends at one of code; a word that is no instruction, or one whose
tail is cut off by the end of the image, is shown as data too.
-/

set_option autoImplicit false

namespace Dcpu

namespace Listing

structure Line where
  address : Word
  labels : List Text
  words : List Word
  text : Text
deriving DecidableEq, Repr

def literal (value : Word) : Text :=
  -- Small numbers are decimal.
  if value < 0x20 then Text.decimal value.toNat else "0x" ++ Text.hexWord value

def dataName (notes : Notes) (value : Word) : Text :=
  (notes.get value).data?.getD (literal value)

def name (notes : Notes) (value : Word) : Text :=
  (notes.get value).code?.getD (dataName notes value)

def operandText (layout : Layout) (notes : Notes) (tail : Word) : Operand → Text
  | .register r => r.name
  | .indirect r => "[" ++ r.name ++ "]"
  | .indexed r => "[" ++ dataName notes tail ++ "+" ++ r.name ++ "]"
  | .push => "push"
  | .pop => "pop"
  | .peek => "peek"
  | .pick => "pick " ++ literal tail
  | .sp => layout.specialName .sp
  | .pc => layout.specialName .pc
  | .ex => layout.specialName .ex
  | .direct => "[" ++ dataName notes tail ++ "]"
  | .literal => name notes tail
  | .short value => literal value

def operand? (layout : Layout) (notes : Notes) (slot : Slot) (code : Word) (following : List Word) :
    Option (Text × List Word) :=
  match layout.decode? slot code with
  | none => none
  | some operand =>
      if operand.hasTail then
        match following with
        | [] => none
        | tail :: _ => some (operandText layout notes tail operand, [tail])
      else some (operandText layout notes 0 operand, [])

def instruction? (layout : Layout) (notes : Notes) (word : Word) (following : List Word) :
    Option (Text × List Word) := do
  let instruction := layout.unpack word
  if instruction.opcode = Layout.extendedOpcode then
    let op ← layout.extendedOp? instruction.a
    let (operand, tail) ← operand? layout notes .b instruction.b following
    return (op.mnemonic ++ " " ++ operand, tail)
  else
    let op ← layout.basicOp? instruction.opcode
    if layout.tailBFirst then
      let (b, tailB) ← operand? layout notes .b instruction.b following
      let (a, tailA) ← operand? layout notes .a instruction.a (following.drop tailB.length)
      return (op.mnemonic ++ " " ++ a ++ ", " ++ b, tailB ++ tailA)
    else
      let (a, tailA) ← operand? layout notes .a instruction.a following
      let (b, tailB) ← operand? layout notes .b instruction.b (following.drop tailA.length)
      return (op.mnemonic ++ " " ++ a ++ ", " ++ b, tailA ++ tailB)

def dataText (word : Word) : Text := "dat 0x" ++ Text.hexWord word

def dataFrom (notes : Notes) (address : Word) (inData : Bool) : Bool :=
  match (notes.get address).type with
  | .code => false
  | .data => true
  | .unknown | .other => inData

def line (layout : Layout) (notes : Notes) (inData : Bool) (address word : Word)
    (following : List Word) : Line :=
  let labels := (notes.get address).labels
  match if inData then none else instruction? layout notes word following with
  | some (text, tail) => ⟨address, labels, word :: tail, text⟩
  | none => ⟨address, labels, [word], dataText word⟩

def linesAfter (layout : Layout) (notes : Notes) (found : List Line) (inData : Bool) (taken : Nat)
    (address : Word) : List Word → List Line
  -- The lines found stand last first, and as many words as `taken` stand in the last of them.
  | [] => found.reverse
  | word :: following =>
      match taken with
      | taken + 1 => linesAfter layout notes found inData taken (address + 1) following
      | 0 =>
          let inData := dataFrom notes address inData
          let next := line layout notes inData address word following
          linesAfter layout notes (next :: found) inData (next.words.length - 1) (address + 1)
            following

def ofImage (layout : Layout) (image : Array Word) (symbols : List Symbol) : List Line :=
  linesAfter layout (.ofSymbols symbols) [] false 0 0 image.toList

def isData (image : Array Word) (symbols : List Symbol) : Bool :=
  let notes := Notes.ofSymbols symbols
  let type (address : Nat) : SymbolType := (notes.get address.toUInt16).type
  image.isEmpty ||
    type 0 == .data && (List.range image.size).all fun address => type address != .code

def ofNumberedLayout (number : LayoutNumber) (image : Array Word) (symbols : List Symbol) :
    Except Breach (List Line) :=
  match number.require with
  | .ok layout => .ok (ofImage layout image symbols)
  | .error breach =>
      if isData image symbols then .ok (ofImage .default image symbols) else .error breach

def textWidth : Nat := 28

def Line.render (l : Line) : Text :=
  (l.labels.flatMap fun label => (":" ++ label ++ "\n" : Text)) ++ Text.hexWord l.address ++ "    " ++
    Text.padRight textWidth l.text ++ " ; " ++ Text.join " " (l.words.map Text.hexWord) ++ "\n"

def render (lines : List Line) : Text := lines.flatMap Line.render

end Listing

end Dcpu
