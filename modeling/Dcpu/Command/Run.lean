import Dcpu.Command.Assemble
import Dcpu.Machine.Step

set_option autoImplicit false

namespace Dcpu

namespace Command

structure Executable where
  image : Array Word
  symbols : List Symbol
  layout : Layout

def traceLines (e : Executable) : Std.HashMap Word Text :=
  (Listing.ofImage e.layout e.image e.symbols).foldl (fun lines l => lines.insert l.address l.text) ∅

def traceLine (lines : Std.HashMap Word Text) (machine : Machine) : Text :=
  let text := lines.getD machine.pc (Listing.dataText (machine.memory.read machine.pc))
  Text.hexWord machine.pc ++ "    " ++ text ++ "\n"

def stateTable (title : Text) (machine : Machine) (steps : Nat) : Table where
  title := title
  heading := ["Register", "Value"]
  sections :=
    [Register.all.map fun r => [r.name.upper, Text.hexWord (machine.register r)],
      [["PC", Text.hexWord machine.pc], ["SP", Text.hexWord machine.sp],
        ["EX", Text.hexWord machine.ex], ["IA", Text.hexWord machine.ia]]]
  footing := ["", Text.decimal steps ++ " steps"]

variable {m : Type → Type} [Monad m] [Host m]

inductive LoadFailure
  | error (error : CommandError)
  | source (source : Text) (failures : List Failure)

def loadExecutable (flags : Flags) (path : Text) : m (Except LoadFailure Executable) := do
  let read : Attempt m (Dialect × Layout × Text) := do
    let dialect ← loadDialect flags
    let layout ← settle .layout dialect.layout
    let source ← attempt .file (readSource path)
    return (dialect, layout, source)
  match ← read.run with
  | .error e => return .error (.error e)
  | .ok (dialect, layout, source) =>
      if flags.image then
        match Image.ofBytes flags.order source with
        | .ok image => return .ok ⟨image, [], layout⟩
        | .error e => return .error (.error (.image e))
      else
        match Assembly.ofSource dialect source with
        | .ok a => return .ok ⟨a.image, a.symbols, layout⟩
        | .error failures => return .error (.source source failures)

def conclude (name : Text) (run : Machine.Run (List Text)) : m Nat := do
  run.seen.reverse.forM Host.log
  Host.print ((stateTable name run.machine run.count).render ++ "\n")
  match run.stop with
  | some (.error e) =>
      say name e.message
      return 1
  | some (.breach b) =>
      say name (b.message?.getD [])
      return 1
  | none =>
      if run.machine.halted then return 0
      else
        say name ("Stopped after " ++ Text.decimal run.count ++ " steps without halting")
        return 1

def runExecutable (flags : Flags) (name : Text) (e : Executable) : m Nat := do
  let lines := if flags.trace then traceLines e else ∅
  let observe (seen : List Text) (machine : Machine) : List Text :=
    if flags.trace then traceLine lines machine :: seen else seen
  match (Machine.zero.load e.image).run e.layout.number observe flags.steps 0 [] with
  | some run => conclude name run
  | none =>
      say name "Instruction without end"
      return 1

def run (flags : Flags) (path : Text) : m Nat := do
  let name := sourceName path
  match ← loadExecutable flags path with
  | .ok executable => runExecutable flags name executable
  | .error (.error e) =>
      say name e.message
      return 1
  | .error (.source source failures) =>
      sayFailures name source failures
      return 1

end Command

end Dcpu
