import SagaMachine.Mailbox
import SagaMachine.Saga

/-!
# Saga bodies between two steps

A body is what remains to be done of a saga: the statements, loops and handlers that
a script is inside of, or the place a watcher has reached. A body that came to rest
also remembers what it waits for and what it will do with the answer.
-/

namespace SagaMachine

/-- What a script is inside of. -/
inductive Frame where
  /-- Statements still to be run. -/
  | block (stmts : List Stmt)
  /-- A loop with the turns that remain, if they are counted. -/
  | loop (remaining : Option Nat) (body : List Stmt)
  /-- The statements that handle a fault raised further in. -/
  | handler (stmts : List Stmt)
deriving Repr

/-- Operations to be run when a body is over, with the variables of the guard statement. -/
structure Guard where
  name : String
  ops : List Op
  env : Env
deriving Repr

/-- What a script does once everything it waits for is answered. -/
inductive Resumption where
  /-- Bind the one answer, and register a task under a label; a fault is raised. -/
  | bind (name : Option String) (label : Option String)
  /-- Report all answers. -/
  | report
deriving Repr

/-- What a script waits for. -/
structure Pause where
  awaiting : List (Awaiting Effect)
  resumption : Resumption

/-- A script between two steps. -/
structure ScriptBody where
  control : List Frame
  env : Env
  /-- The guards of the body, latest first. -/
  guards : List Guard := []
  /-- The fault caught last. -/
  caught : Option Fault := none
  pause : Option Pause := none

/-- The place a watcher has reached. -/
inductive WatchPhase where
  | fresh
  | taking
  /-- The worker before is being cancelled. -/
  | clearing (a : Action)
  | forking
deriving Repr

/-- A watcher between two steps. -/
structure WatcherBody where
  plan : WatchPlan
  phase : WatchPhase := .fresh
  /-- The latest worker of a watcher that keeps only one. -/
  last : Option TaskRef := none
deriving Repr

namespace WatcherBody

/-- Go on to the next take. -/
def awaitAction (w : WatcherBody) : WatcherBody × Step Effect :=
  ({ w with phase := .taking }, .yielded (.take .bus w.plan.pattern))

/-- Fork the worker for an action. -/
def forkWorker (w : WatcherBody) (a : Action) : WatcherBody × Step Effect :=
  ({ w with phase := .forking }, .yielded (.fork (w.plan.workerFor a) false))

/-- End with a fault. -/
def giveUp (w : WatcherBody) (f : Fault) : WatcherBody × Step Effect :=
  (w, .complete (.error f))

/-- One step of a watcher: take an action, clear away the worker before, fork the next. -/
def resume (w : WatcherBody) (answer : Option Answer) : WatcherBody × Step Effect :=
  match w.phase, answer with
  | .fresh, _ => w.awaitAction
  | _, none => w.giveUp .foreignAwait
  | _, some (.error f) => w.giveUp f
  | .taking, some (.ok (.action a)) =>
    match w.plan.mode, w.last with
    | .latest, some previous =>
      ({ w with phase := .clearing a, last := none }, .yielded (.cancel (some previous)))
    | _, _ => w.forkWorker a
  | .taking, some (.ok _) =>
    w.giveUp (.invalidEffect "bus delivered a value that is not an action")
  | .clearing a, some (.ok _) => w.forkWorker a
  | .forking, some (.ok (.task t)) =>
    match w.plan.mode with
    | .every => w.awaitAction
    | .latest => { w with last := some t }.awaitAction
  | .forking, some (.ok _) => w.giveUp (.invalidEffect "fork resumed without a task handle")

end WatcherBody

/-- A saga body between two steps. -/
inductive Body where
  | script (s : ScriptBody)
  | watcher (w : WatcherBody)

namespace Body

/-- The guards that go off when the body is dropped, latest first. -/
def guards : Body → List Guard
  | script s => s.guards
  | watcher _ => []

end Body

/-- The body of a new task; it knows the number of its task as `self`. -/
def Program.start (p : Program) (id : TaskId) : Body :=
  match p with
  | .script stmts env =>
    .script { control := [.block stmts], env := env.insert "self" (.ofInt id) }
  | .watcher plan => .watcher { plan }

end SagaMachine
