import Dcpu.Diagnostic

set_option autoImplicit false

namespace Dcpu

namespace Report

structure Entry where
  message : Text
  position? : Option Position
deriving DecidableEq, Repr

def Entry.ofFailure : Failure → Entry
  | .rejected e => ⟨e.message, e.position?⟩
  | .breach b => ⟨b.message?.getD [], none⟩

def blanks (n : Nat) : Text := List.replicate n 0x20

def underline (p : Position) : Text :=
  let column := p.byte - p.lineByte
  let caret : Text :=
    -- A place in front of its own line has its blanks behind the caret.
    if 0 ≤ column then blanks column.toNat ++ "^" else "^" ++ blanks (-column - 2).toNat
  caret ++ (List.replicate (p.size - 1).toNat 0x7e : Text)

def bytesAfter (source : Array UInt8) (found : Text) (index : Nat) : Nat → Text
  -- What was found stands last first, and at most so many bytes are looked at.
  | 0 => found.reverse
  | n + 1 =>
      match source[index]? with
      | none => found.reverse
      | some b =>
          if b = Text.newline then found.reverse
          else bytesAfter source (b :: found) (index + 1) n

def line (source : Array UInt8) (start : Nat) : Text :=
  Text.dropLastWhile (· == Text.carriageReturn) (bytesAfter source [] start (source.size - start))

def located (source : Array UInt8) (message : Text) (p : Position) : Text :=
  message ++ "\n" ++ line source p.lineByte.toNat ++ "\n\x1b[31m" ++ underline p ++ "\x1b[0m\n"

def entry (source : Array UInt8) (e : Entry) : Except Breach Text :=
  match e.position? with
  | none => .ok (e.message ++ "\n")
  | some p =>
      if p.line = 0 then .ok (e.message ++ "\n")
      -- A line cannot start before the source does.
      else if p.lineByte < 0 then .error .index
      else .ok (located source e.message p)

def render (label source : Text) (entries : List Entry) : Except Breach Text := do
  let texts ← entries.mapM (entry source.toArray)
  return texts.flatMap fun text => label ++ text

end Report

end Dcpu
