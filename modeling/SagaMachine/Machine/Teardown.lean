import SagaMachine.Machine.Instr

/-!
# The end of tasks

How a task leaves the table: its body returns, it fails, or it is cancelled. A body is
dropped before the outcome of its task is recorded, children are torn down before
their parents, and a task that becomes terminal within its own step is recorded only
when that step is over.
-/

namespace SagaMachine

namespace World

/-- Go on with the parent of a task whose outcome was recorded. -/
def cascadeOn (i : MiddlewareId) (r : Option Cascade × World) : Config :=
  match r.1 with
  | none => ⟨[], r.2⟩
  | some c => ⟨[.cascade i c], r.2⟩

/-- Drop a body, if there is one left to drop. -/
def dropping (turn : Turn) : Option Body → List Instr
  | none => []
  | some body => [.dropBody turn body]

/-- Drop a body: its guards go off. -/
def execDropBody (w : World) (turn : Turn) (body : Body) : Config :=
  ⟨[.guards body.guards], w.record turn.mw (.bodyDropped turn.task)⟩

/-- End a turn. -/
def execLeave (w : World) (turn : Turn) (body : Body) (exit : Exit) : Config :=
  let w := w.setEngine turn.mw fun e => { e with current := none }
  match exit with
  | .suspended id => ⟨[], w.park turn.mw turn.task body (some id)⟩
  | .yielded signal =>
    ⟨[], (w.park turn.mw turn.task body none).schedule turn.mw (.resume turn.task signal)⟩
  | .finished (.ok v) => ⟨[.dropBody turn body, .returned turn v], w⟩
  | .ended => ⟨[.dropBody turn body, .returned turn .unit], w⟩
  | .finished (.error f) => ⟨[.dropBody turn body, .abort turn f], w⟩
  | .halted => ⟨[.dropBody turn body, .conclude turn], w⟩

/-- The body is over: hold its value until the last attached child is finished. -/
def execReturned (w : World) (turn : Turn) (v : Value) : Config :=
  match w.task? turn.mw turn.task with
  | none => ⟨[], w⟩
  | some node =>
    if node.status.isTerminal then ⟨[], w⟩
    else if node.children.isEmpty then
      ⟨[.cascade turn.mw (.complete turn.task)],
        w.setTask turn.mw turn.task fun n => { n with result := some v }⟩
    else
      ⟨[], w.setTask turn.mw turn.task fun n =>
        { n with result := some v, status := .suspended }⟩

/-- Let a parent fail, or complete with the value it holds. -/
def execCascade (w : World) (i : MiddlewareId) : Cascade → Config
  | .abort id f => ⟨[.abort ⟨i, id⟩ f], w⟩
  | .complete id =>
    match w.task? i id with
    | none => ⟨[], w⟩
    | some node =>
      if node.status.isTerminal then ⟨[], w⟩
      else
        match node.result with
        | none => ⟨[], w⟩
        | some v =>
          let w := w.setTask i id fun n => { n with result := none }
          cascadeOn i (w.finalize i id (.done v))

/-- Fail a task: withdraw its effect, cancel its children, drop its body. -/
def execAbort (w : World) (turn : Turn) (f : Fault) : Config :=
  match w.task? turn.mw turn.task with
  | none => ⟨[], w⟩
  | some node =>
    if node.status.isTerminal then ⟨[], w⟩
    else
      let isCurrent := decide ((w.engine turn.mw).current = some turn.task)
      let w := w.setTask turn.mw turn.task fun n =>
        { n with status := .aborted, pending := none, body := none }
      let w := w.cancelPending turn.mw node.pending
      ⟨node.children.map (.cancel turn.mw) ++ dropping turn node.body ++
        [.abortDone turn f isCurrent], w⟩

/-- Record the failure of a task, or leave that to the end of its own step. -/
def execAbortDone (w : World) (turn : Turn) (f : Fault) (wasCurrent : Bool) : Config :=
  if wasCurrent then
    ⟨[], w.setEngine turn.mw fun e => { e with halted := some (.aborted f) }⟩
  else cascadeOn turn.mw (w.finalize turn.mw turn.task (.aborted f))

/-- Record the outcome of a task that became terminal within its own step. -/
def execConclude (w : World) (turn : Turn) : Config :=
  let outcome := (w.engine turn.mw).halted.getD .cancelled
  let w := w.setEngine turn.mw fun e => { e with halted := none }
  cascadeOn turn.mw (w.finalize turn.mw turn.task outcome)

/-- Cancel a live task: its whole attached subtree becomes terminal at once. -/
def execCancel (w : World) (i : MiddlewareId) (root : TaskId) : Config :=
  let tasks := (w.engine i).tasks
  if tasks.isLive root then
    let order := tasks.cancellationOrder root
    let w := order.foldl
      (fun w id => w.setTask i id fun n => { n with status := .cancelled }) w
    ⟨[.cancelEach i order []], w⟩
  else ⟨[], w⟩

/-- Tear down the next task of a cancelled subtree. -/
def execCancelEach (w : World) (i : MiddlewareId) (order : List TaskId)
    (cascades : List Cascade) : Config :=
  match order with
  | [] => ⟨cascades.map (.cascade i), w⟩
  | id :: rest =>
    match w.task? i id with
    | none => ⟨[.cancelEach i rest cascades], w⟩
    | some node =>
      let isCurrent := decide ((w.engine i).current = some id)
      let w := w.setTask i id fun n => { n with pending := none, body := none }
      let w := w.cancelPending i node.pending
      ⟨dropping ⟨i, id⟩ node.body ++ [.cancelOne ⟨i, id⟩ isCurrent rest cascades], w⟩

/-- Record a cancellation, or leave that to the end of the task's own step. -/
def execCancelOne (w : World) (turn : Turn) (wasCurrent : Bool) (rest : List TaskId)
    (cascades : List Cascade) : Config :=
  if wasCurrent then
    ⟨[.cancelEach turn.mw rest cascades],
      w.setEngine turn.mw fun e => { e with halted := some .cancelled }⟩
  else
    let r := w.finalize turn.mw turn.task .cancelled
    ⟨[.cancelEach turn.mw rest (cascades ++ r.1.toList)], r.2⟩

end World

end SagaMachine
