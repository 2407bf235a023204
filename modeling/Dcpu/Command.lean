import Dcpu.Dialect.Document
import Dcpu.Host
import Dcpu.Image.Format
import Dcpu.Machine.Operation
import Dcpu.Path
import Dcpu.Report

set_option autoImplicit false

namespace Dcpu

namespace Command

structure Flags where
  target : Text := []
  config : Text := []
  layout : Text := []
  format : Text := "binary"
  std : Bool := false
  symbols : Bool := false
  listSymbols : Bool := false
  bigEndian : Bool := false
  image : Bool := false
  trace : Bool := false
  steps : Nat := 0x100000
deriving DecidableEq, Repr

def Flags.order (flags : Flags) : ByteOrder := if flags.bigEndian then .big else .little

inductive CommandError
  | file (error : FileError)
  | configFile (path : Text) (error : FileError)
  | configuration (path : Text) (error : DialectError)
  | layout (error : AssemblyError)
  | format (error : FormatError)
  | usage
  | severalInputs
  | noSource (name : Text)
  | binaryToTerminal
  | noTargetFile
  | image (error : Image.BytesError)
deriving DecidableEq, Repr

namespace CommandError

def message : CommandError → Text
  | .file e => e.message
  | .configFile path e => path ++ ": yaml: input error: " ++ e.message
  | .configuration path e => path ++ ": " ++ e.message
  | .layout e => e.message
  | .format e => e.message
  | .usage => "godasm [-t target] [-f format] [-s] [--std] file..."
  | .severalInputs => "--target needs a single input file"
  | .noSource name => name ++ " is not a valid DCPU-16 assembly file"
  | .binaryToTerminal => "Refusing to write a binary image to a terminal"
  | .noTargetFile => "Symbol file needs a target file"
  | .image e => e.message

end CommandError

def inputName : Text := "<stdin>"

def sourceName (path : Text) : Text := if path = [] then inputName else Path.base path

def label (name : Text) : Text := "\x1b[1m" ++ name ++ ":\x1b[0m"

variable {m : Type → Type} [Monad m] [Host m]

abbrev Attempt (m : Type → Type) := ExceptT CommandError m

def attempt {ε α : Type} (wrap : ε → CommandError) (result : m (Except ε α)) : Attempt m α :=
  ExceptT.mk (do return (← result).mapError wrap)

def settle {ε α : Type} (wrap : ε → CommandError) (result : Except ε α) : Attempt m α :=
  ExceptT.mk (pure (result.mapError wrap))

def say (name line : Text) : m Unit := Host.log (label name ++ line ++ "\n")

def readSource (path : Text) : m (Except FileError Text) :=
  -- Without a path the source is standard input.
  if path = [] then do return .ok (← Host.input) else Host.read path

def configError (path : Text) (e : FileError) : CommandError :=
  if e.action = .reading then .configFile path e else .file e

def loadDialect (flags : Flags) : Attempt m Dialect := do
  -- Everything or the standard, then a document, then the layout, which must exist.
  let base := if flags.std then Dialect.standard else Dialect.extended
  let dialect ←
    if flags.config = [] then pure base
    else do
      let text ← attempt (configError flags.config) (Host.read flags.config)
      settle (.configuration flags.config) (base.ofDocument text)
  if flags.layout = [] then return dialect
  else
    let dialect := { dialect with layoutName := flags.layout }
    let _ ← settle .layout dialect.layout
    return dialect

end Command

end Dcpu
