import Dcpu.Host
import Dcpu.Path

set_option autoImplicit false

namespace Dcpu

inductive FileEntry
  | file (bytes : Text)
  | directory
deriving DecidableEq, Repr

/-- What stands at which place. A place is a list of names, the innermost first. -/
structure FileTree where
  entries : List (List Text × FileEntry)
deriving DecidableEq, Repr

namespace FileTree

def empty : FileTree := ⟨[]⟩

def get? (tree : FileTree) : List Text → Option FileEntry
  -- The root is a directory.
  | [] => some .directory
  | place => tree.entries.lookup place

def set (tree : FileTree) (place : List Text) (entry : FileEntry) : FileTree :=
  ⟨(place, entry) :: tree.entries.filter fun other => other.1 != place⟩

def makeDirectories (tree : FileTree) : List Text → FileTree
  | [] => tree
  | name :: outer =>
      let tree := tree.makeDirectories outer
      match tree.get? (name :: outer) with
      | some _ => tree
      | none => tree.set (name :: outer) .directory

def nameLimit : Nat := 255

def walk (tree : FileTree) (place : List Text) : List Text → Except FileReason (List Text)
  | [] => .ok place
  | name :: rest =>
      match tree.get? place with
      | none => .error .notFound
      | some (.file _) => .error .notDirectory
      | some .directory =>
          if nameLimit < name.length then .error .nameTooLong
          else if name = [] ∨ name = "." then walk tree place rest
          else if name = ".." then walk tree place.tail rest
          else walk tree (name :: place) rest

def resolve (tree : FileTree) (home : List Text) (path : Text) : Except FileReason (List Text) :=
  if path = [] then .error .notFound
  else tree.walk (if Path.isAbsolute path then [] else home) (Path.elements path)

def kind (tree : FileTree) (home : List Text) (path : Text) : Except FileError FileKind :=
  match tree.resolve home path with
  | .error reason => .error ⟨.stat, path, reason⟩
  | .ok place =>
      match tree.get? place with
      | none => .error ⟨.stat, path, .notFound⟩
      | some (.file _) => .ok .file
      | some .directory => .ok .directory

def read (tree : FileTree) (home : List Text) (path : Text) : Except FileError Text :=
  match tree.resolve home path with
  | .error reason => .error ⟨.opening, path, reason⟩
  | .ok place =>
      match tree.get? place with
      | none => .error ⟨.opening, path, .notFound⟩
      | some (.file bytes) => .ok bytes
      -- A directory can be opened, but not read.
      | some .directory => .error ⟨.reading, path, .isDirectory⟩

def creationReason (tree : FileTree) (home : List Text) (path : Text) (reason : FileReason) :
    FileReason :=
  -- A file that does not exist cannot be made with a slash at the end of its path.
  let name := path.dropLastWhile (· == Path.slash)
  if reason = .notFound ∧ name ≠ path ∧ (tree.resolve home name).toOption.isSome then .isDirectory
  else reason

def write (tree : FileTree) (home : List Text) (path bytes : Text) : Except FileError FileTree :=
  match tree.resolve home path with
  | .error reason => .error ⟨.opening, path, tree.creationReason home path reason⟩
  | .ok place =>
      match tree.get? place with
      | some .directory => .error ⟨.opening, path, .isDirectory⟩
      | _ => .ok (tree.set place (.file bytes))

end FileTree

/-- Files with a working directory, standard input, and what has been written, last piece first. -/
structure Desk where
  files : FileTree
  home : List Text
  input : Text
  printed : List Text
  logged : List Text
  inputIsTerminal : Bool
  outputIsTerminal : Bool

abbrev AtDesk := StateM Desk

instance : Host AtDesk where
  kind path := do
    let desk ← get
    return desk.files.kind desk.home path
  read path := do
    let desk ← get
    return desk.files.read desk.home path
  write path bytes := do
    let desk ← get
    match desk.files.write desk.home path bytes with
    | .error e => return .error e
    | .ok files =>
        set { desk with files }
        return .ok ()
  input := return (← get).input
  inputIsTerminal := return (← get).inputIsTerminal
  outputIsTerminal := return (← get).outputIsTerminal
  print text := modify fun desk => { desk with printed := text :: desk.printed }
  log text := modify fun desk => { desk with logged := text :: desk.logged }

end Dcpu
