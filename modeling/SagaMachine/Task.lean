import SagaMachine.Text.Layout
import SagaMachine.Text.Quoted

/-!
# Task handles and statuses

A task is one running saga. Tasks are numbered from 1 within their middleware, and
a handle names a task for good: it stays valid when the task has ended and even
when its middleware is gone.
-/

namespace SagaMachine

/-- The index of a middleware. -/
abbrev MiddlewareId := Nat

/-- The number of a task within its middleware. -/
abbrev TaskId := Nat

/-- The number of a triggered effect within its middleware. -/
abbrev EffectId := Nat

/-- A handle to a task. -/
structure TaskRef where
  owner : MiddlewareId
  id : TaskId
  name : String
deriving DecidableEq, Repr

/-- Where a task stands. -/
inductive Status where
  | created
  | running
  /-- Waiting for an effect, or for attached children after the body returned. -/
  | suspended
  | done
  | cancelled
  | aborted
deriving DecidableEq, Repr

namespace Status

/-- A terminal status never changes again. -/
def isTerminal : Status → Bool
  | done | cancelled | aborted => true
  | created | running | suspended => false

/-- The name of a status. -/
def name : Status → String
  | created => "created"
  | running => "running"
  | suspended => "suspended"
  | done => "done"
  | cancelled => "cancelled"
  | aborted => "aborted"

/-- The status as reports show it. -/
def inspect : Status → String
  | created => "Created"
  | running => "Running"
  | suspended => "Suspended"
  | done => "Done"
  | cancelled => "Cancelled"
  | aborted => "Aborted"

end Status

/-- The number of a task as reports show it. -/
def inspectTaskId (id : TaskId) : String :=
  Text.showTuple "TaskId" [toString id]

/-- A task as reports show it, given its present status. -/
def TaskRef.inspect (t : TaskRef) (status : Status) : String :=
  Text.showRecord "Task"
    [("id", inspectTaskId t.id), ("name", Text.quote t.name), ("status", status.inspect)]

/-- The number of a task in log lines. -/
def TaskRef.label (t : TaskRef) : String := "#" ++ toString t.id

end SagaMachine
