import Dcpu.Assembly
import Dcpu.Command
import Dcpu.Symbol.Export

set_option autoImplicit false

namespace Dcpu

namespace Command

/-- A source, empty for standard input, and where its image goes. -/
structure Job where
  path : Text
  target : Text
deriving DecidableEq, Repr

def Job.name (j : Job) : Text := sourceName j.path

def outputTarget : Text := "-"

def defaultTarget : Text := "out.dcpu"

def imageExtension : Text := ".dcpu"

def symbolExtension : Text := ".sym"

def symbolPath (target : Text) : Text := Path.replaceExtension target symbolExtension

def imagePath (path : Text) : Text := Path.replaceExtension path imageExtension

variable {m : Type → Type} [Monad m] [Host m]

def fileJob (flags : Flags) (path : Text) : Attempt m Job := do
  match ← attempt .file (Host.kind path) with
  | .directory => throw (.noSource (Path.base path))
  | .file => return ⟨path, if flags.target = [] then imagePath path else flags.target⟩

def jobs (flags : Flags) (paths : List Text) : Attempt m (List Job) := do
  if paths = [] then
    if ← ExceptT.lift Host.inputIsTerminal then throw .usage
    else return [⟨[], if flags.target = [] then defaultTarget else flags.target⟩]
  else if 1 < paths.length ∧ flags.target ≠ [] then throw .severalInputs
  else paths.mapM (fileJob flags)

def refuseTerminal (j : Job) (format : Format) : Attempt m Unit := do
  -- Bytes that are no text do not go to a terminal.
  if j.target = outputTarget ∧ format.isText = false then
    if ← ExceptT.lift Host.outputIsTerminal then throw .binaryToTerminal

def writeImage (j : Job) (style : Image.Style) (a : Assembly) : Attempt m Unit := do
  refuseTerminal j style.format
  let bytes ← settle .format (Image.write style a.image a.symbols)
  if j.target = outputTarget then ExceptT.lift (Host.print bytes)
  else attempt .file (Host.write j.target bytes)

def writeSymbols (j : Job) (a : Assembly) : Attempt m Unit :=
  if j.target = outputTarget then throw .noTargetFile
  else attempt .file (Host.write (symbolPath j.target) (Symbol.file a.symbols))

def orSay (j : Job) (line : Text) (attempt : Attempt m Unit) : m Bool := do
  match ← attempt.run with
  | .ok () => return true
  | .error e =>
      say j.name line
      say j.name e.message
      return false

def listSymbols (j : Job) (a : Assembly) : m Unit := do
  -- The table goes where the image does not.
  let table := (Symbol.table j.name a.symbols).render ++ "\n"
  if j.target = outputTarget then Host.log table else Host.print table

def deliver (flags : Flags) (style : Image.Style) (j : Job) (a : Assembly) : m Bool := do
  if !(← orSay j "Error writing output file" (writeImage j style a)) then return false
  if flags.symbols then
    if !(← orSay j "Error writing symbol table" (writeSymbols j a)) then return false
  if flags.listSymbols then listSymbols j a
  return true

def sayFailures (name source : Text) (failures : List Failure) : m Unit := do
  match Report.render (label name) source (failures.map .ofFailure) with
  | .ok text => Host.log text
  | .error breach => say name (breach.message?.getD [])

def runJob (flags : Flags) (dialect : Dialect) (style : Image.Style) (j : Job) : m Bool := do
  match ← readSource j.path with
  | .error e =>
      say j.name e.message
      return false
  | .ok source =>
      match Assembly.ofSource dialect source with
      | .error failures =>
          sayFailures j.name source failures
          return false
      | .ok assembly => deliver flags style j assembly

def prepare (flags : Flags) (paths : List Text) : Attempt m (Dialect × Image.Style × List Job) := do
  let dialect ← loadDialect flags
  match Format.ofName? flags.format with
  | none => throw (.format (.unknownName flags.format))
  | some format =>
      let layout ← settle .layout dialect.layout
      let jobs ← jobs flags paths
      return (dialect, ⟨format, flags.order, layout.number⟩, jobs)

/-- Assembles every source and gives the exit code. A job that fails does not keep the others from
being done. -/
def assemble (flags : Flags) (paths : List Text) : m Nat := do
  match ← (prepare flags paths).run with
  | .error e =>
      Host.log (e.message ++ "\n")
      return 1
  | .ok (dialect, style, jobs) =>
      let done ← jobs.mapM (runJob flags dialect style)
      return if done.all id then 0 else 1

end Command

end Dcpu
