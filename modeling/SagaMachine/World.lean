import SagaMachine.Bus
import SagaMachine.Deferred
import SagaMachine.Host
import SagaMachine.Journal
import SagaMachine.Tasks
import SagaMachine.Waits

/-!
# The world of a scenario

A world holds the middlewares of a scenario and what they share: channels, deferreds,
timers, the names under which scripts know them, and the journal. This module has the
data and the small accessors; the transitions are in the modules that follow.
-/

namespace SagaMachine

/-- A pending effect of some middleware. -/
structure EffectRef where
  mw : MiddlewareId
  effect : EffectId
deriving DecidableEq, Repr

/-- Where the delivery of a channel goes. -/
inductive Sink where
  | effect (target : EffectRef)
  /-- A taker of user code, with the operations it runs on its delivery. -/
  | script (tag : String) (next : List Op) (env : Env)
deriving Repr

/-- The state of a middleware's interpreter. -/
structure Engine where
  tasks : Tasks := .empty
  waits : Waits := .empty
  bus : Bus := {}
  /-- The recorded outcomes; they are kept for the handles of finished tasks. -/
  outcomes : Table TaskId Outcome := .empty
  nextTask : TaskId := 1
  nextEffect : EffectId := 1
  agenda : Agenda := {}
  /-- Whether the driver is working off the agenda. -/
  driving : Bool := false
  /-- The task whose step is under way. -/
  current : Option TaskId := none
  /-- The outcome of `current`, if it became terminal within its own step. -/
  halted : Option Outcome := none

/-- Who observes the interpreter. -/
inductive Monitor where
  | none
  /-- Events appear among the log lines. -/
  | log
  /-- Events are kept with sequence numbers. -/
  | memory
  /-- Events leave no visible trace. -/
  | tracing
deriving DecidableEq, Repr

/-- A middleware: its settings and observer, its host, and its interpreter. -/
structure Middleware where
  settings : Settings := {}
  monitor : Monitor := .none
  host : Host := {}
  engine : Engine := {}
  /-- A dropped middleware is kept for the handles of its tasks. -/
  alive : Bool := true

/-- Whether deferred work can be put on timers. -/
inductive TimerSupport where
  /-- Timers run on the virtual clock. -/
  | available
  /-- There is a clock, but it takes no deferred work. -/
  | refused
  /-- There is no clock. -/
  | absent
deriving DecidableEq, Repr

/-- A running timer: when it is due, and what it settles. -/
structure Timer where
  id : TimerId
  deadline : Nat
  deferred : DeferredId
  answer : Answer
deriving Repr

/-- A completion that user code polls under a tag. -/
structure Watch where
  task : TaskRef
  /-- The waker is registered with the task. -/
  registered : Bool := false
  wakes : Nat := 0
deriving Repr

/-- Everything there is. -/
structure World where
  middlewares : Table MiddlewareId Middleware := .empty
  channels : Table ChannelId (Channel Sink) := .empty
  deferreds : Table DeferredId (Deferred EffectRef) := .empty
  /-- Running timers, in order of creation. -/
  timers : List Timer := []
  nextDeferred : DeferredId := 0
  nextTimer : TimerId := 0
  /-- Milliseconds on the virtual clock. -/
  now : Nat := 0
  timerSupport : TimerSupport := .available
  /-- The scripts by name. -/
  scripts : List (String × List Stmt) := []
  channelNames : Table String ChannelId := .empty
  deferredNames : Table String DeferredId := .empty
  labels : Table String TaskRef := .empty
  takerTags : Table String (ChannelId × TakerId) := .empty
  watches : Table String Watch := .empty
  /-- The reply to the last operation from outside. -/
  reply : Option Reply := none
  /-- Statements and operations that user code may still run. -/
  budget : Nat := 5000
  /-- The journal, latest entry first. -/
  journal : List Entry := []

namespace World

/-! ## Middlewares and their engines -/

/-- A middleware that was not dropped. -/
def living? (w : World) (i : MiddlewareId) : Option Middleware :=
  (w.middlewares.get? i).filter (·.alive)

/-- The engine of a middleware; one without tasks if there is no such middleware. -/
def engine (w : World) (i : MiddlewareId) : Engine :=
  match w.middlewares.get? i with
  | some m => m.engine
  | none => {}

/-- Change the engine of a middleware. -/
def setEngine (w : World) (i : MiddlewareId) (f : Engine → Engine) : World :=
  { w with middlewares := w.middlewares.modify i fun m => { m with engine := f m.engine } }

/-- Change a task of a middleware. -/
def setTask (w : World) (i : MiddlewareId) (id : TaskId) (f : TaskNode → TaskNode) : World :=
  w.setEngine i fun e => { e with tasks := e.tasks.modify id f }

/-- A task of a middleware. -/
def task? (w : World) (i : MiddlewareId) (id : TaskId) : Option TaskNode :=
  (w.engine i).tasks.get? id

/-- Whether a task is gone or terminal, so that its step must not go on. -/
def isHalted (w : World) (i : MiddlewareId) (id : TaskId) : Bool :=
  !(w.engine i).tasks.isLive id

/-! ## The journal -/

/-- Enter a line. -/
def enter (w : World) (e : Entry) : World := { w with journal := e :: w.journal }

/-- Enter what an interpreter did. -/
def record (w : World) (i : MiddlewareId) (e : Event) : World := w.enter (.event i e)

/-- Enter the reports of predicates. -/
def enterNotes (w : World) (notes : List Note) : World :=
  notes.foldl (fun w n => w.enter (.note n)) w

/-! ## The agenda -/

/-- Schedule a reaction. -/
def schedule (w : World) (i : MiddlewareId) (r : Reaction) : World :=
  w.setEngine i fun e => { e with agenda := e.agenda.schedule r }

/-- Queue an errand. -/
def queue (w : World) (i : MiddlewareId) (errand : Errand) : World :=
  let w := w.setEngine i fun e => { e with agenda := e.agenda.queue errand }
  w.record i (.queued errand (w.engine i).agenda.errands.length)

/-! ## What handles show -/

/-- The recorded outcome of a task. -/
def outcomeOf (w : World) (t : TaskRef) : Option Outcome :=
  (w.engine t.owner).outcomes.get? t.id

/-- The status that a handle shows. A task lost with its middleware counts as cancelled. -/
def statusOf (w : World) (t : TaskRef) : Status :=
  match w.outcomeOf t with
  | some o => o.status
  | none =>
    match (w.living? t.owner).bind (·.engine.tasks.get? t.id) with
    | some node => node.status
    | none => .cancelled

/-- What is known of a task from outside. -/
def reportOf (w : World) (t : TaskRef) : TaskReport :=
  { task := t, status := w.statusOf t, outcome := w.outcomeOf t }

/-- A channel as reports show it. -/
def showChannel (w : World) (c : ChannelId) : String :=
  match w.channels.get? c with
  | some channel => channel.inspect
  | none => ""

/-- What effects show of the world around them. -/
def surroundings (w : World) : Effect.Surroundings :=
  { status := w.statusOf, channel := w.showChannel }

end World

end SagaMachine
