import SagaMachine.Machine.Effects
import SagaMachine.Machine.Operations
import SagaMachine.Machine.Teardown

/-!
# Running the machine

One step carries out the first instruction (`Instr.exec`). The machine stops when no
instruction is left, or when user code has spent its budget; `Config.run` takes a
number of steps, and more steps do not change a machine that stopped.
-/

namespace SagaMachine

/-- What an instruction does, and what is to be done next in its place. -/
def Instr.exec (w : World) : Instr → Option Config
  | .drain i => some (w.execDrain i)
  | .perform i job => some (w.execPerform i job)
  | .schedule i r => some ⟨[], w.schedule i r⟩
  | .poll turn body a => some (w.execPoll turn body a)
  | .advance turn s m => w.execAdvance turn s m
  | .polled turn body step => some (w.execPolled turn body step)
  | .trigger turn body nests effect => some (w.execTrigger turn body nests effect)
  | .answer turn body nests id result env =>
    some (w.execAnswer turn body nests id result env)
  | .cancelDone turn body nests id => some (w.execCancelDone turn body nests id)
  | .begun turn body nests start => some (w.execBegun turn body nests start)
  | .leave turn body exit => some (w.execLeave turn body exit)
  | .dropBody turn body => some (w.execDropBody turn body)
  | .returned turn v => some (w.execReturned turn v)
  | .abort turn f => some (w.execAbort turn f)
  | .abortDone turn f wasCurrent => some (w.execAbortDone turn f wasCurrent)
  | .conclude turn => some (w.execConclude turn)
  | .cascade i c => some (w.execCascade i c)
  | .cancel i root => some (w.execCancel i root)
  | .cancelEach i order cascades => some (w.execCancelEach i order cascades)
  | .cancelOne turn wasCurrent rest cascades =>
    some (w.execCancelOne turn wasCurrent rest cascades)
  | .emit i a sender => some (w.execEmit i a sender)
  | .forwarded i a sender => some (w.execForwarded i a sender)
  | .deliver sink d => some (w.execDeliver sink d)
  | .guards gs => some (w.execGuards gs)
  | .ops env os => some (w.execOps env os)
  | .op site env o => w.execOp site env o
  | .reply site name r => some (w.execReply site name r)
  | .started site label t => some (w.execStarted site label t)
  | .registered site tag c id => some (w.execRegistered site tag c id)
  | .moveClock target => some (w.execMoveClock target)

namespace Config

/-- One step of the machine; a machine that stopped has none. -/
def step (c : Config) : Option Config :=
  match c.todo with
  | [] => none
  | instr :: rest => (instr.exec c.world).map fun next => next.followedBy rest

/-- Up to `n` steps of the machine. -/
def run : Nat → Config → Config
  | 0, c => c
  | n + 1, c =>
    match c.step with
    | none => c
    | some c => run n c

/-- Whether nothing is left to be done. -/
def isDone (c : Config) : Bool := c.todo.isEmpty

end Config

/-- The steps that an operation from outside may take. -/
def stepLimit : Nat := 10000000

/-- Run an operation from outside to its end; nothing if the budget does not allow it. -/
def World.perform (w : World) (o : Op) : Option World :=
  let c := Config.run stepLimit ⟨[.op .outside .empty o], { w with reply := none }⟩
  if c.isDone then some c.world else none

end SagaMachine
