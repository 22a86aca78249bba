import SagaMachine.World

/-!
# Views of the journal

What an observer of a run gets to see. Monitors see some of the events of their
middleware; the library's own log lines depend on the settings; everything that user
code reports is shown as it is.
-/

namespace SagaMachine

/-- What monitors are told. -/
inductive MonitorEvent where
  | taskStarted (task : TaskId) (parent : Option TaskId) (name : String)
  | effectTriggered (task : TaskId) (effect : EffectId) (parent : Option EffectId)
      (kind : String)
  | effectResolved (effect : EffectId)
  | effectRejected (effect : EffectId) (error : String)
  | effectCancelled (effect : EffectId)
  | actionDispatched (action : Action)
  | taskFinished (task : TaskId) (status : Status)
deriving Repr

/-- What monitors are told of an event, if anything. -/
def Event.visible? : Event → Option MonitorEvent
  | .taskStarted task parent name => some (.taskStarted task parent name)
  | .triggered task id parent effect => some (.effectTriggered task id parent effect.kind)
  | .settled effect (.fault f) => some (.effectRejected effect f.message)
  | .settled effect _ => some (.effectResolved effect)
  | .withdrawn effect => some (.effectCancelled effect)
  | .dispatched a => some (.actionDispatched a)
  | .taskFinished task outcome => some (.taskFinished task outcome.status)
  | .polled .. | .bodyDropped _ | .uncaught .. | .queued .. | .fetched _ | .refused ..
  | .busEnded _ | .unreadable => none

/-- How urgent a log line is. -/
inductive Level where
  | info
  | warn
  | error
deriving DecidableEq, Repr

/-- The name of a level. -/
def Level.name : Level → String
  | info => "INFO"
  | warn => "WARN"
  | error => "ERROR"

/-- A line of the log. -/
inductive Line where
  | log (tag : Json) (v : Value)
  | note (n : Note)
  | guard (name : String)
  | call (name : String)
  | op (name : String) (r : Reply)
  | taker (tag : String) (d : Delivery)
  | host (mw : MiddlewareId) (action : Action)
  | monitor (mw : MiddlewareId) (e : MonitorEvent)
  | described (kind text : String) (width : Option Nat)
  | joined (answers : List Answer)
  /-- A line of the library itself. -/
  | trace (level : Level) (fields : List (String × String))
deriving Repr

/-- The lines that announce settings. -/
def Settings.lines (s : Settings) : List Line :=
  s.summary.map fun message => .trace .info [("message", message)]

/-- What the library itself says about an event. -/
def Middleware.remarks (m : Middleware) : Event → List Line
  | .uncaught t f =>
    if m.settings.logUncaught then
      [.trace .error
        [("message", "uncaught saga failure"), ("task", t.label), ("name", t.name),
          ("error", f.message)]]
    else []
  | .queued _ length =>
    if length = m.settings.queueWarnThreshold then
      [.trace .warn
        [("message", "action queue reached its warning threshold"),
          ("queued", toString length)]]
    else []
  | .refused a f =>
    [.trace .warn
      [("message", "queued dispatch failed"), ("action", a.kind), ("error", f.message)]]
  | .unreadable =>
    [.trace .warn
      [("message", "host state is not serializable"), ("error", "key must be a string")]]
  | _ => []

/-- What the monitor of a middleware puts into the log. -/
def Middleware.monitored (m : Middleware) (i : MiddlewareId) (e : Event) : List Line :=
  if m.monitor = .log then (e.visible?.map (Line.monitor i)).toList else []

namespace World

/-- The lines of the log for an entry of the journal. -/
def linesOf (w : World) : Entry → List Line
  | .event i e =>
    match w.middlewares.get? i with
    | none => []
    | some m => m.monitored i e ++ m.remarks e
  | .log tag v => [.log tag v]
  | .note n => [.note n]
  | .guard name => [.guard name]
  | .call name => [.call name]
  | .op name r => [.op name r]
  | .accepted .. => []
  | .taker tag d => [.taker tag d]
  | .host i _ a => [.host i a]
  | .described kind text width => [.described kind text width]
  | .joined answers => [.joined answers]
  | .timersUnavailable =>
    [.trace .warn [("message", "spawn_local called outside a LocalSet")]]

/-- The lines of the log since the journal had a certain length, oldest first. -/
def linesSince (w : World) (length : Nat) : List Line :=
  (w.journal.take (w.journal.length - length)).reverse.flatMap w.linesOf

/-- What a middleware did, oldest first. -/
def eventsOf (w : World) (i : MiddlewareId) : List Event :=
  w.journal.reverse.filterMap fun
    | .event j e => if i = j then some e else none
    | _ => none

/-- What a monitor of a middleware was told, oldest first. -/
def toldOf (w : World) (i : MiddlewareId) : List MonitorEvent :=
  (w.eventsOf i).filterMap Event.visible?

end World

/-- The actions among the events of a monitor. -/
def dispatchedIn (events : List MonitorEvent) : List Action :=
  events.filterMap fun
    | .actionDispatched a => some a
    | _ => none

end SagaMachine
