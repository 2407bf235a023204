import Dcpu.Machine.Operation

set_option autoImplicit false

namespace Dcpu

namespace Machine

def places (layout : Layout) (a b : Operand) (m : Machine) : Place × Place × Machine :=
  -- The operands are resolved in the order in which their tails stand.
  if layout.tailBFirst then
    let (placeB, m) := m.place b
    let (placeA, m) := m.place a
    (placeA, placeB, m)
  else
    let (placeA, m) := m.place a
    let (placeB, m) := m.place b
    (placeA, placeB, m)

def noteHalt (m : Machine) (address : Word) : Machine :=
  if m.pc = address then { m with halted := true } else m

def deliver (m : Machine) : Machine :=
  if m.queueing then m
  else
    match m.queue with
    | [] => m
    | message :: rest =>
        let m := { m with queue := rest }
        if m.ia = 0 then m else m.trigger message

def execute (layout : Layout) (address word : Word) (m : Machine) :
    Option (Machine × Option StepError) :=
  let instruction := layout.unpack word
  if instruction.opcode = Layout.extendedOpcode then
    match layout.extendedOp? instruction.a, layout.decode? .b instruction.b with
    | some op, some operand =>
        let (a, m) := m.place operand
        some (m.extended op a address)
    | _, _ => some (m, some (.illegalInstruction address word))
  else
    match layout.basicOp? instruction.opcode, layout.decode? .a instruction.a,
      layout.decode? .b instruction.b with
    | some op, some first, some second =>
        let (a, b, m) := m.places layout first second
        match m.basic layout op a b with
        | some m => some (m, none)
        | none => none
    | _, _, _ => some (m, some (.illegalInstruction address word))

/-- Executes the instruction at the program counter, then calls the handler for at most one waiting
interrupt. An instruction that has no end leaves no machine. -/
def step (layout : Layout) (m : Machine) : Option (Machine × Option StepError) :=
  let address := m.pc
  let (word, m) := m.fetch
  match m.execute layout address word with
  | none => none
  | some (m, some e) => some (m, some e)
  | some (m, none) => some ((m.noteHalt address).deliver, none)

inductive Stop
  | error (error : StepError)
  | breach (breach : Breach)
deriving DecidableEq, Repr

def stepOn (number : LayoutNumber) (m : Machine) : Option (Machine × Option Stop) :=
  -- Without a layout the word is fetched, and that is all.
  match number.require with
  | .error breach => some (m.fetch.2, some (.breach breach))
  | .ok layout =>
      match m.step layout with
      | none => none
      | some (m, e) => some (m, e.map .error)

structure Run (σ : Type) where
  machine : Machine
  seen : σ
  count : Nat
  stop : Option Stop

/-- Steps until the machine halts or has made `limit` more steps. Before every step it is shown to
the observer. -/
def run {σ : Type} (number : LayoutNumber) (observe : σ → Machine → σ) (limit count : Nat)
    (seen : σ) (m : Machine) : Option (Run σ) :=
  match limit with
  | 0 => some ⟨m, seen, count, none⟩
  | limit + 1 =>
      if m.halted then some ⟨m, seen, count, none⟩
      else
        let seen := observe seen m
        match m.stepOn number with
        | none => none
        | some (m, some stop) => some ⟨m, seen, count, some stop⟩
        | some (m, none) => run number observe limit (count + 1) seen m

end Machine

end Dcpu
