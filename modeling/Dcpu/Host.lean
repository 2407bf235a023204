import Dcpu.Text

set_option autoImplicit false

namespace Dcpu

inductive FileAction
  | stat
  | opening
  | reading
deriving DecidableEq, Repr

inductive FileReason
  | notFound
  | notDirectory
  | isDirectory
  | nameTooLong
  | other (text : Text)
deriving DecidableEq, Repr

inductive FileKind
  | file
  | directory
deriving DecidableEq, Repr

structure FileError where
  action : FileAction
  path : Text
  reason : FileReason
deriving DecidableEq, Repr

namespace FileError

def actionName : FileAction → Text
  | .stat => "stat"
  | .opening => "open"
  | .reading => "read"

def reasonText : FileReason → Text
  | .notFound => "no such file or directory"
  | .notDirectory => "not a directory"
  | .isDirectory => "is a directory"
  | .nameTooLong => "file name too long"
  | .other text => text

def message (e : FileError) : Text :=
  actionName e.action ++ " " ++ e.path ++ ": " ++ reasonText e.reason

end FileError

class Host (m : Type → Type) where
  kind : Text → m (Except FileError FileKind)
  read : Text → m (Except FileError Text)
  -- Creates the file or replaces what is in it.
  write : Text → Text → m (Except FileError Unit)
  input : m Text
  inputIsTerminal : m Bool
  outputIsTerminal : m Bool
  print : Text → m Unit
  log : Text → m Unit

end Dcpu
