import SagaMachine.Agenda
import SagaMachine.Settings

/-!
# The journal

Everything that happens is entered in one journal, in order of time: what the
interpreters do (`Event`) and what user code reports. Monitors, warnings and log lines
are views of the journal, so looking at a run never changes it.
-/

namespace SagaMachine

/-- Something the interpreter of a middleware did. -/
inductive Event where
  | taskStarted (task : TaskId) (parent : Option TaskId) (name : String)
  /-- The body was polled, with the answer to its last effect if there was one. -/
  | polled (task : TaskId) (answer : Option Answer)
  /-- An effect got its number; `parent` is the race or `all` that it is a member of. -/
  | triggered (task : TaskId) (id : EffectId) (parent : Option EffectId) (effect : Effect)
  | settled (effect : EffectId) (signal : Signal)
  | withdrawn (effect : EffectId)
  /-- The body was dropped; its guards go off next. -/
  | bodyDropped (task : TaskId)
  | taskFinished (task : TaskId) (outcome : Outcome)
  /-- A root or detached task failed. -/
  | uncaught (task : TaskRef) (fault : Fault)
  /-- An errand joined the queue, which has this length now. -/
  | queued (errand : Errand) (length : Nat)
  /-- An errand was taken from the queue. -/
  | fetched (errand : Errand)
  | dispatched (action : Action)
  /-- The bus ended for all tasks below the mark. -/
  | busEnded (mark : TaskId)
  /-- A dispatch that nobody waits for failed. -/
  | refused (action : Action) (fault : Fault)
  /-- The host state has no JSON form. -/
  | unreadable
deriving Repr

/-- What is known of a task from outside. -/
structure TaskReport where
  task : TaskRef
  status : Status
  outcome : Option Outcome
deriving Repr

/-- The result of an operation. -/
inductive Reply where
  | ok
  /-- There is nothing by that name. -/
  | missing
  | fault (f : Fault)
  | bool (b : Bool)
  | nat (n : Nat)
  | text (s : String)
  | json (j : Json)
  | started (task : TaskId) (status : Status)
  | settings (s : Settings)
  | report (r : TaskReport)
  | outcome (o : Outcome)
  /-- The task is still alive. -/
  | pending
  /-- There is no clock that could be moved. -/
  | noClock
deriving Repr

/-- The reply to an operation that can fail. -/
def Reply.ofResult : Except Fault Unit → Reply
  | .ok _ => ok
  | .error f => fault f

/-- A line of the journal. -/
inductive Entry where
  | event (mw : MiddlewareId) (e : Event)
  | log (tag : Json) (v : Value)
  | note (n : Note)
  /-- A guard went off. -/
  | guard (name : String)
  | call (name : String)
  | op (name : String) (r : Reply)
  /-- A channel accepted a value. -/
  | accepted (channel : ChannelId) (v : Value)
  | taker (tag : String) (d : Delivery)
  /-- A host saw an action, at a time of the clock. -/
  | host (mw : MiddlewareId) (time : Nat) (action : Action)
  | described (kind text : String) (width : Option Nat)
  | joined (answers : List Answer)
  /-- A timer was asked for where timers cannot run. -/
  | timersUnavailable
deriving Repr

end SagaMachine
