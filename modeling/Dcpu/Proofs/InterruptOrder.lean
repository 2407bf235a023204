import Dcpu.Proofs.ReadInstruction

/-!
The order of interrupts. A machine is watched while it makes steps: the messages that its `int`
instructions send are kept, and so are those that its handler is called with. No more messages wait
than there is room for, they wait only for a handler that will take them, and the handler gets them
in the order in which they were sent.
-/

set_option autoImplicit false

namespace Dcpu

namespace Machine

variable {layout : Layout} {m m' : Machine}

/-- The machine after so many steps, also after those that failed. -/
def steps (number : LayoutNumber) : Nat → Machine → Option Machine
  | 0, m => some m
  | n + 1, m =>
      match m.stepOn number with
      | some (m, _) => steps number n m
      | none => none

theorem place_moves (m : Machine) (operand : Operand) :
    ∃ pc sp, (m.place operand).2 = { m with pc, sp } := by
  cases operand <;> exact ⟨_, _, rfl⟩

theorem places_moves (layout : Layout) (a b : Operand) (m : Machine) :
    ∃ pc sp, (m.places layout a b).2.2 = { m with pc, sp } := by
  have both (first second : Operand) :
      ∃ pc sp, ((m.place first).2.place second).2 = { m with pc, sp } := by
    obtain ⟨pc, sp, moved⟩ := m.place_moves first
    obtain ⟨pc', sp', moved'⟩ := (m.place first).2.place_moves second
    rw [moved] at moved'
    exact ⟨pc', sp', moved ▸ moved'⟩
  unfold places
  split
  · exact both b a
  · exact both a b

@[simp] theorem queue_set (m : Machine) (place : Place) (value : Word) :
    (m.set place value).queue = m.queue := by
  cases place <;> rfl

@[simp] theorem queue_setEx (m : Machine) (ex : Option Word) : (m.setEx ex).queue = m.queue := by
  cases ex <;> rfl

@[simp] theorem queue_countIndices (op : BasicOp) (m : Machine) :
    (countIndices op m).queue = m.queue := by
  cases op <;> rfl

@[simp] theorem queue_noteHalt (m : Machine) (address : Word) :
    (m.noteHalt address).queue = m.queue := by
  unfold noteHalt
  split <;> rfl

theorem queue_skip (skipped : m.skip layout = some m') : m'.queue = m.queue := by
  unfold skip at skipped
  split at skipped
  · exact Option.some.inj skipped ▸ rfl
  · contradiction

theorem queue_basic {op : BasicOp} {a b : Place} (done : m.basic layout op a b = some m') :
    m'.queue = m.queue := by
  simp only [basic] at done
  split at done
  · rw [← Option.some.inj done]
    simp
  · split at done
    · rw [← Option.some.inj done]
    · exact queue_skip done

theorem execute_basic {address word : Word} {e : Option StepError}
    (basic : (layout.unpack word).opcode ≠ Layout.extendedOpcode)
    (executed : m.execute layout address word = some (m', e)) :
    m'.queue = m.queue ∧ (e ≠ none → m' = m) := by
  simp only [execute, basic, if_false] at executed
  split at executed
  · rename_i op first second _ _ _
    obtain ⟨pc, sp, moved⟩ := m.places_moves layout first second
    split at executed
    · rename_i after done
      obtain ⟨rfl, rfl⟩ := Prod.mk.inj (Option.some.inj executed)
      have same := queue_basic done
      rw [moved] at same
      exact ⟨same, fun failed => absurd rfl failed⟩
    · contradiction
  · obtain ⟨rfl, rfl⟩ := Prod.mk.inj (Option.some.inj executed)
    exact ⟨rfl, fun _ => rfl⟩

theorem extended_of_ne_int {op : ExtendedOp} (other : op ≠ .int) (a : Place) (address : Word)
    (m : Machine) :
    (m.extended op a address).1.queue = m.queue ∧ (m.extended op a address).2 = none := by
  cases op with
  | int => contradiction
  | iag => exact ⟨queue_set m a m.ia, rfl⟩
  | hwn => exact ⟨queue_set m a 0, rfl⟩
  | jsr => exact ⟨rfl, rfl⟩
  | ias => exact ⟨rfl, rfl⟩
  | rfi => exact ⟨rfl, rfl⟩
  | iaq => exact ⟨rfl, rfl⟩
  | hwq => exact ⟨rfl, rfl⟩
  | hwi => exact ⟨rfl, rfl⟩

end Machine

/-- A machine with the messages that were sent so far, and those that the handler was called with. -/
structure Watched where
  machine : Machine
  sent : List Word
  delivered : List Word

namespace Watched

open Machine (queueLimit)

variable {layout : Layout} {number : LayoutNumber} {w w' : Watched} {address word : Word}

def start (m : Machine) : Watched := ⟨m, [], []⟩

def trigger (w : Watched) (message : Word) : Watched :=
  { w with machine := w.machine.trigger message, delivered := w.delivered ++ [message] }

def interrupt (w : Watched) (message address : Word) : Watched × Option StepError :=
  let w := { w with sent := w.sent ++ [message] }
  if w.machine.ia = 0 then (w, none)
  else if w.machine.queueing then
    if queueLimit ≤ w.machine.queue.length then (w, some (.interruptOverflow address))
    else
      ({ w with machine := { w.machine with queue := w.machine.queue ++ [message] } }, none)
  else (w.trigger message, none)

def extended (op : ExtendedOp) (a : Place) (address : Word) (w : Watched) :
    Watched × Option StepError :=
  match op with
  | .int => w.interrupt (w.machine.get a) address
  | op =>
      let (m, e) := w.machine.extended op a address
      ({ w with machine := m }, e)

def execute (layout : Layout) (address word : Word) (w : Watched) :
    Option (Watched × Option StepError) :=
  let instruction := layout.unpack word
  if instruction.opcode = Layout.extendedOpcode then
    match layout.extendedOp? instruction.a, layout.decode? .b instruction.b with
    | some op, some operand =>
        let (a, m) := w.machine.place operand
        some ({ w with machine := m }.extended op a address)
    | _, _ => some (w, some (.illegalInstruction address word))
  else
    match w.machine.execute layout address word with
    | some (m, e) => some ({ w with machine := m }, e)
    | none => none

def deliver (w : Watched) : Watched :=
  if w.machine.queueing then w
  else
    match w.machine.queue with
    | [] => w
    | message :: rest =>
        let w := { w with machine := { w.machine with queue := rest } }
        if w.machine.ia = 0 then w else w.trigger message

def step (layout : Layout) (w : Watched) : Option (Watched × Option StepError) :=
  let address := w.machine.pc
  let (word, m) := w.machine.fetch
  match { w with machine := m }.execute layout address word with
  | none => none
  | some (w, some e) => some (w, some e)
  | some (w, none) => some ({ w with machine := w.machine.noteHalt address }.deliver, none)

def stepOn (number : LayoutNumber) (w : Watched) : Option (Watched × Option Machine.Stop) :=
  match number.require with
  | .error breach => some ({ w with machine := w.machine.fetch.2 }, some (.breach breach))
  | .ok layout =>
      match w.step layout with
      | none => none
      | some (w, e) => some (w, e.map .error)

def steps (number : LayoutNumber) : Nat → Watched → Option Watched
  | 0, w => some w
  | n + 1, w =>
      match w.stepOn number with
      | some (w, _) => steps number n w
      | none => none

theorem execute_of_decodes {op : ExtendedOp} {operand : Operand}
    (decodes : layout.DecodesExtended word op operand) (w : Watched) :
    w.execute layout address word =
      some ({ w with machine := (w.machine.place operand).2 }.extended op
        (w.machine.place operand).1 address) := by
  simp only [execute, decodes.extended, if_true, decodes.operation, decodes.operand]

section Machine

def unwatched {ε : Type} (result : Watched × ε) : Machine × ε := (result.1.machine, result.2)

theorem interrupt_machine (w : Watched) (message address : Word) :
    unwatched (w.interrupt message address) = w.machine.interrupt message address := by
  simp only [interrupt, Machine.interrupt, unwatched]
  split
  · rfl
  · split
    · split <;> rfl
    · rfl

theorem extended_machine (op : ExtendedOp) (a : Place) (address : Word) (w : Watched) :
    unwatched (w.extended op a address) = w.machine.extended op a address := by
  cases op with
  | int => exact w.interrupt_machine (w.machine.get a) address
  | _ => rfl

theorem execute_machine (layout : Layout) (address word : Word) (w : Watched) :
    (w.execute layout address word).map unwatched = w.machine.execute layout address word := by
  by_cases extended : (layout.unpack word).opcode = Layout.extendedOpcode
  · simp only [execute, Machine.execute, extended, if_true]
    cases layout.extendedOp? (layout.unpack word).a with
    | none => rfl
    | some op =>
        cases layout.decode? .b (layout.unpack word).b with
        | none => rfl
        | some operand => exact congrArg some (extended_machine op _ address _)
  · simp only [execute, extended, if_false]
    cases w.machine.execute layout address word <;> rfl

theorem deliver_machine (w : Watched) : w.deliver.machine = w.machine.deliver := by
  simp only [deliver, Machine.deliver]
  split
  · rfl
  · split
    · simp_all
    · split <;> simp_all [trigger]

theorem step_machine (layout : Layout) (w : Watched) :
    (w.step layout).map unwatched = w.machine.step layout := by
  have executed := execute_machine layout w.machine.pc w.machine.fetch.1
    { w with machine := w.machine.fetch.2 }
  simp only [step, Machine.step, ← executed]
  cases ({ w with machine := w.machine.fetch.2 } : Watched).execute layout w.machine.pc
      w.machine.fetch.1 with
  | none => rfl
  | some result =>
      obtain ⟨w', _ | e⟩ := result
      · simp [unwatched, deliver_machine]
      · rfl

theorem stepOn_machine (number : LayoutNumber) (w : Watched) :
    (w.stepOn number).map unwatched = w.machine.stepOn number := by
  unfold stepOn Machine.stepOn
  cases number.require with
  | error breach => rfl
  | ok layout =>
      dsimp only
      rw [← step_machine]
      cases w.step layout <;> rfl

theorem steps_machine (number : LayoutNumber) (n : Nat) (w : Watched) :
    (w.steps number n).map Watched.machine = w.machine.steps number n := by
  induction n generalizing w with
  | zero => rfl
  | succ n ih =>
      unfold steps Machine.steps
      rw [← stepOn_machine]
      cases w.stepOn number with
      | none => rfl
      | some result => exact ih result.1

end Machine

/-- What is true at any time, also in the middle of a step. -/
structure Kept (w : Watched) : Prop where
  short : w.machine.queue.length ≤ queueLimit
  ordered : (w.delivered ++ w.machine.queue).Sublist w.sent

/-- What is true between two steps. -/
structure InOrder (w : Watched) : Prop extends Kept w where
  settled : w.machine.queue ≠ [] → w.machine.queueing = false → w.machine.ia = 0

theorem inOrder_start (m : Machine) (image : Array Word) : (start (m.load image)).InOrder where
  short := Nat.zero_le _
  ordered := List.nil_sublist _
  settled := fun waiting => absurd rfl waiting

theorem Kept.of_queue {m : Machine} (kept : w.Kept) (same : m.queue = w.machine.queue) :
    ({ w with machine := m } : Watched).Kept := by
  constructor
  · simpa only [same] using kept.short
  · simpa only [same] using kept.ordered

theorem InOrder.of_moves (inOrder : w.InOrder) (pc sp : Word) :
    ({ w with machine := { w.machine with pc, sp } } : Watched).InOrder :=
  ⟨inOrder.toKept.of_queue rfl, inOrder.settled⟩

/-- What an instruction leaves: if it failed, nothing that waits was touched. -/
inductive Handled : Watched × Option StepError → Prop
  | done {w : Watched} (kept : w.Kept) : Handled (w, none)
  | failed {w : Watched} {e : StepError} (inOrder : w.InOrder) : Handled (w, some e)

theorem InOrder.handled (inOrder : w.InOrder) (e : Option StepError) : Handled (w, e) := by
  cases e with
  | none => exact .done inOrder.toKept
  | some e => exact .failed inOrder

theorem InOrder.interrupt (inOrder : w.InOrder) (message address : Word) :
    Handled (w.interrupt message address) := by
  -- The message takes its place behind all others.
  have behind : (w.delivered ++ w.machine.queue).Sublist (w.sent ++ [message]) :=
    inOrder.ordered.trans (List.sublist_append_left _ _)
  simp only [Watched.interrupt]
  split
  · exact .done ⟨inOrder.short, behind⟩
  · rename_i handler
    split
    · split
      · exact .failed ⟨⟨inOrder.short, behind⟩, inOrder.settled⟩
      · rename_i room
        apply Handled.done
        constructor
        · change (w.machine.queue ++ [message]).length ≤ queueLimit
          simp only [List.length_append, List.length_singleton]
          exact Nat.lt_of_not_le room
        · change (w.delivered ++ (w.machine.queue ++ [message])).Sublist (w.sent ++ [message])
          rw [← List.append_assoc]
          exact inOrder.ordered.append_right [message]
    · rename_i ready
      -- With a handler that is ready nothing waits, so the message overtakes none.
      have empty : w.machine.queue = [] := by
        by_cases waiting : w.machine.queue = []
        · exact waiting
        · exact absurd (inOrder.settled waiting (by simpa using ready)) handler
      have earlier : w.delivered.Sublist w.sent := by
        simpa only [empty, List.append_nil] using inOrder.ordered
      apply Handled.done
      constructor
      · exact inOrder.short
      · change (w.delivered ++ [message] ++ w.machine.queue).Sublist (w.sent ++ [message])
        rw [empty, List.append_nil]
        exact earlier.append_right [message]

theorem InOrder.extended (inOrder : w.InOrder) (op : ExtendedOp) (a : Place) (address : Word) :
    Handled (w.extended op a address) := by
  by_cases sends : op = .int
  · subst sends
    exact inOrder.interrupt (w.machine.get a) address
  · obtain ⟨same, fine⟩ := Machine.extended_of_ne_int sends a address w.machine
    have apart : w.extended op a address =
        ({ w with machine := (w.machine.extended op a address).1 }, none) := by
      rw [← fine]
      cases op <;> first | rfl | contradiction
    rw [apart]
    exact .done (inOrder.toKept.of_queue same)

theorem InOrder.execute {result : Watched × Option StepError} (inOrder : w.InOrder)
    (executed : w.execute layout address word = some result) : Handled result := by
  simp only [Watched.execute] at executed
  split at executed
  · split at executed
    · rename_i op operand _ _
      obtain ⟨pc, sp, moved⟩ := w.machine.place_moves operand
      rw [← Option.some.inj executed, moved]
      exact (inOrder.of_moves pc sp).extended op _ address
    · exact Option.some.inj executed ▸ inOrder.handled _
  · rename_i basic
    split at executed
    · rename_i m e done
      obtain ⟨same, unchanged⟩ := Machine.execute_basic basic done
      rw [← Option.some.inj executed]
      cases e with
      | none => exact .done (inOrder.toKept.of_queue same)
      | some e =>
          rw [unchanged (by simp)]
          exact .failed inOrder
    · contradiction

theorem Kept.deliver (kept : w.Kept) : w.deliver.InOrder := by
  unfold Watched.deliver
  split
  · rename_i queueing
    exact ⟨kept, fun _ off => absurd queueing (by simp [off])⟩
  · split
    · rename_i empty
      exact ⟨kept, fun waiting => absurd empty waiting⟩
    · rename_i message rest queue
      have short : rest.length ≤ queueLimit := by
        have := kept.short
        rw [queue, List.length_cons] at this
        omega
      have ordered := kept.ordered
      rw [queue] at ordered
      dsimp only
      split
      · -- Without a handler the message is lost, and the others are as they were.
        rename_i dropped
        constructor
        · constructor
          · exact short
          · exact (List.Sublist.append_left (List.sublist_cons_self _ _) _).trans ordered
        · exact fun _ _ => dropped
      · constructor
        · constructor
          · exact short
          · -- The first that waits becomes the last that has arrived.
            change (w.delivered ++ [message] ++ rest).Sublist w.sent
            rwa [List.append_assoc, List.singleton_append]
        · exact fun _ off => by simp [trigger, Machine.trigger, Machine.setRegister] at off

theorem InOrder.step {e : Option StepError} (inOrder : w.InOrder)
    (stepped : w.step layout = some (w', e)) : w'.InOrder := by
  have fetched : ({ w with machine := w.machine.fetch.2 } : Watched).InOrder :=
    inOrder.of_moves (w.machine.pc + 1) w.machine.sp
  simp only [Watched.step] at stepped
  split at stepped
  · contradiction
  · rename_i after e' executed
    obtain ⟨rfl, _⟩ := Prod.mk.inj (Option.some.inj stepped)
    cases fetched.execute executed with
    | failed inOrder => exact inOrder
  · rename_i after executed
    obtain ⟨rfl, _⟩ := Prod.mk.inj (Option.some.inj stepped)
    cases fetched.execute executed with
    | done kept => exact (kept.of_queue (Machine.queue_noteHalt _ _)).deliver

theorem InOrder.stepOn {stop : Option Machine.Stop} (inOrder : w.InOrder)
    (stepped : w.stepOn number = some (w', stop)) : w'.InOrder := by
  unfold Watched.stepOn at stepped
  split at stepped
  · obtain ⟨rfl, _⟩ := Prod.mk.inj (Option.some.inj stepped)
    exact inOrder.of_moves (w.machine.pc + 1) w.machine.sp
  · split at stepped
    · contradiction
    · rename_i after e done
      obtain ⟨rfl, _⟩ := Prod.mk.inj (Option.some.inj stepped)
      exact inOrder.step done

theorem InOrder.steps {n : Nat} (inOrder : w.InOrder) (ran : w.steps number n = some w') :
    w'.InOrder := by
  induction n generalizing w with
  | zero => exact Option.some.inj ran ▸ inOrder
  | succ n ih =>
      unfold Watched.steps at ran
      split at ran
      · rename_i next stop stepped
        exact ih (inOrder.stepOn stepped) ran
      · contradiction

end Watched

namespace Machine

/-- Messages reach the handler in the order in which they were sent, each at most once, and those
that wait come after those that have arrived. -/
theorem interrupts_in_order {number : LayoutNumber} {image : Array Word} {n : Nat}
    {machine m : Machine} (ran : (machine.load image).steps number n = some m) :
    m.queue.length ≤ 256 ∧ (m.queue ≠ [] → m.queueing = false → m.ia = 0) ∧
      ∃ w : Watched, (Watched.start (machine.load image)).steps number n = some w ∧ w.machine = m ∧
        w.delivered.Sublist w.sent ∧ (w.delivered ++ m.queue).Sublist w.sent := by
  have watched := Watched.steps_machine number n (Watched.start (machine.load image))
  rw [show (Watched.start (machine.load image)).machine = machine.load image from rfl, ran]
    at watched
  obtain ⟨w, run, rfl⟩ := Option.map_eq_some_iff.1 watched
  have inOrder := (Watched.inOrder_start machine image).steps run
  refine ⟨inOrder.short, inOrder.settled, w, run, rfl, ?_, inOrder.ordered⟩
  exact (List.sublist_append_left _ _).trans inOrder.ordered

/-- `ias 2`, `int 7`, and from address 2 on the handler: `int 9`, `rfi 0`. -/
def handlerImage : Array Word := #[0x8d40, 0xa100, 0xa900, 0x8560]

theorem handler_run {m : Machine}
    (fresh : m.pc = 0 ∧ m.sp = 0 ∧ m.ia = 0 ∧ m.queue = [] ∧ m.queueing = false)
    (reads : ∀ address : Word, m.memory.read address = handlerImage[address.toNat]?.getD 0) :
    ∃ w, (Watched.start m).steps ⟨2⟩ 4 = some w ∧ w.delivered = [7, 9] := by
  have known : LayoutNumber.require ⟨2⟩ = .ok .v2 := rfl
  have ias : Layout.v2.DecodesExtended 0x8d40 .ias (.short 2) := by constructor <;> decide
  have sends7 : Layout.v2.DecodesExtended 0xa100 .int (.short 7) := by constructor <;> decide
  have sends9 : Layout.v2.DecodesExtended 0xa900 .int (.short 9) := by constructor <;> decide
  have rfi : Layout.v2.DecodesExtended 0x8560 .rfi (.short 0) := by constructor <;> decide
  have words : m.memory.read 0 = 0x8d40 ∧ m.memory.read 1 = 0xa100 ∧ m.memory.read 2 = 0xa900 ∧
      m.memory.read 3 = 0x8560 := ⟨reads 0, reads 1, reads 2, reads 3⟩
  -- The stack is at the other end of memory, so the handler does not change.
  have apart : (-1 - 1 : Word) ≠ -1 ∧ (-1 : Word) ≠ 2 ∧ (-1 - 1 : Word) ≠ 2 ∧ (-1 : Word) ≠ 3 ∧
      (-1 - 1 : Word) ≠ 3 := by decide
  simp [Watched.start, Watched.steps, Watched.stepOn, known, Watched.step, fetch,
    Watched.execute_of_decodes ias, Watched.execute_of_decodes sends7,
    Watched.execute_of_decodes sends9, Watched.execute_of_decodes rfi, fresh, words, apart, place,
    Watched.extended, extended, get, Watched.deliver, noteHalt, Watched.interrupt,
    Watched.trigger, trigger, push, setRegister, returnFromInterrupt, pop, Memory.read_write,
    queueLimit]

theorem interrupts_in_order_handler :
    ∃ m w, (zero.load handlerImage).steps ⟨2⟩ 4 = some m ∧
      (Watched.start (zero.load handlerImage)).steps ⟨2⟩ 4 = some w ∧ w.delivered = [7, 9] ∧
      (w.delivered ++ m.queue).Sublist w.sent := by
  obtain ⟨w, watched, delivered⟩ := handler_run (m := zero.load handlerImage)
    ⟨rfl, rfl, rfl, rfl, rfl⟩ (read_load zero handlerImage)
  have ran : (zero.load handlerImage).steps ⟨2⟩ 4 = some w.machine := by
    rw [← show (Watched.start (zero.load handlerImage)).machine = zero.load handlerImage from rfl,
      ← Watched.steps_machine, watched, Option.map_some]
  obtain ⟨_, _, w', watched', _, _, ordered⟩ := interrupts_in_order ran
  obtain rfl := Option.some.inj (watched.symm.trans watched')
  exact ⟨w.machine, w, ran, watched, delivered, ordered⟩

end Machine

end Dcpu
