import Dcpu.Text.Blank
import Dcpu.Text.Lower

set_option autoImplicit false

namespace Dcpu

/-- A title, unless it is empty, column headings, sections of rows and a footing. A rule divides the
sections. -/
structure Table where
  title : Text
  heading : List Text
  sections : List (List (List Text))
  footing : List Text
deriving DecidableEq, Repr

namespace Table

inductive Side
  | left
  | right
deriving DecidableEq, Repr

def fill (side : Side) (width : Nat) (cell : Text) : Text :=
  match side with
  | .left => Text.padRight width cell
  | .right => List.replicate (width - cell.chars.length) 0x20 ++ cell

def widen (widths : List Nat) (row : List Text) : List Nat :=
  List.zipWith (fun width cell => max width cell.chars.length) widths row

def widths (t : Table) : List Nat :=
  (t.sections.flatten ++ [t.footing]).foldl widen (t.heading.map fun cell => cell.chars.length)

def dashes (n : Nat) : Text := List.replicate n 0x2d

def rule (widths : List Nat) : Text :=
  "+" ++ (widths.flatMap fun width => dashes (width + 2) ++ "+" : Text)

def row (side : Side) (widths : List Nat) (cells : List Text) : Text :=
  "|" ++ (List.flatten (List.zipWith
    (fun width cell => " " ++ fill side width cell ++ " |") widths cells) : Text)

def words (cs : List Char) : List (List Char) :=
  (cs.splitBy fun a b => Text.isBlank a == Text.isBlank b).filter fun run => !run.any Text.isBlank

def addChar (width : Nat) (lines : List (List Char)) (c : Char) : List (List Char) :=
  -- The last line stands first, and a full one is followed by a new one.
  match lines with
  | [] => [[c]]
  | last :: before => if last.length = width then [c] :: lines else (last ++ [c]) :: before

def addWord (width : Nat) (lines : List (List Char)) (word : List Char) : List (List Char) :=
  -- A blank stands before the word unless the line is full.
  match lines with
  | [] => word.foldl (addChar width) []
  | last :: before =>
      if last.length = width then word.foldl (addChar width) ([] :: lines)
      else word.foldl (addChar width) ((last ++ [' ']) :: before)

def wrap (width : Nat) (cs : List Char) : List (List Char) :=
  if cs.length ≤ width then [cs]
  else
    match (words cs).foldl (addWord width) [] with
    | [] => [[]]
    | lines => lines.reverse

def trim (cs : List Char) : List Char :=
  ((cs.dropWhile Text.isBlank).reverse.dropWhile Text.isBlank).reverse

def titleLines (inner : Nat) (title : Text) : List Text :=
  (wrap inner title.chars).map fun line =>
    "| " ++ fill .left inner ((trim line).flatMap Text.ofChar) ++ " |"

def top (inner : Nat) (title : Text) : List Text :=
  -- The rule above the title has no columns.
  if title.isEmpty then []
  else ("+" ++ dashes (inner + 2) ++ "+" : Text) :: titleLines inner title

def lines (t : Table) : List Text :=
  -- Headings and footings are in capitals, and without rows they stand at the right.
  let widths := t.widths
  let inner := widths.foldr (fun width total => width + 3 + total) 0 - 3
  let rule := rule widths
  let side : Side := if t.sections.flatten.isEmpty then .right else .left
  let bodies := t.sections.map fun rows => rows.map (row .left widths)
  top inner t.title ++ [rule, row side widths (t.heading.map Text.upper), rule] ++
    [rule].intercalate bodies ++ [rule, row side widths (t.footing.map Text.upper), rule]

def render (t : Table) : Text := Text.join "\n" t.lines

end Table

end Dcpu
