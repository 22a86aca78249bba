import SagaMachine.World

/-!
# Transitions of the interpreter

The steps of the interpreter that run no user code, as functions of the world:
withdrawing and settling pending effects, creating tasks, recording outcomes, ending
the bus, and starting timers.
-/

namespace SagaMachine

/-- What the end of a task means for its parent. -/
inductive Cascade where
  /-- The parent fails with the fault of its child. -/
  | abort (task : TaskId) (fault : Fault)
  /-- The parent's body is over and its last attached child is finished. -/
  | complete (task : TaskId)
deriving Repr

namespace World

/-! ## Pending effects -/

/-- Stop a timer. -/
def stopTimer (w : World) (id : Option TimerId) : World :=
  match id with
  | none => w
  | some id => { w with timers := w.timers.filter fun t => t.id ≠ id }

/-- Stop listening to a deferred, and stop the timer behind it. -/
def unsubscribe (w : World) (d : DeferredId) : World :=
  match w.deferreds.get? d with
  | none => w
  | some deferred =>
    let r := deferred.unsubscribe
    { w with deferreds := w.deferreds.modify d fun _ => r.2 }.stopTimer r.1

/-- Give up the registration that a pending effect holds. -/
def deregister (w : World) (i : MiddlewareId) (id : EffectId) : WaitKind → World
  | .take .bus taker => w.setEngine i fun e => { e with bus := e.bus.cancelTaker taker }
  | .take (.channel c) taker =>
    { w with channels := w.channels.modify c fun channel => (channel.cancelTaker taker).2 }
  | .call d => w.unsubscribe d
  | .join target =>
    w.setTask i target fun node => { node with joiners := node.joiners.filter (· ≠ id) }
  | .put | .race .. | .all .. => w

/-- Let something happen that a walk over the wait table came across. -/
def pass (w : World) (i : MiddlewareId) : Passage → World
  | .withdrawn id wait => (w.deregister i id wait.kind).record i (.withdrawn id)
  | .settled id signal => w.record i (.settled id signal)

/-- Let everything happen that a walk came across, in order. -/
def passAll (w : World) (i : MiddlewareId) (passages : List Passage) : World :=
  passages.foldl (fun w p => w.pass i p) w

/-- Replace the wait table of a middleware. -/
def setWaits (w : World) (i : MiddlewareId) (waits : Waits) : World :=
  w.setEngine i fun e => { e with waits }

/-- Add a pending effect. -/
def insertWait (w : World) (i : MiddlewareId) (id : EffectId) (wait : Wait) : World :=
  w.setEngine i fun e => { e with waits := e.waits.insert id wait }

/-- Withdraw a pending effect and everything below it. -/
def cancelWait (w : World) (i : MiddlewareId) (id : EffectId) : World :=
  let r := Waits.detach (w.engine i).waits [id]
  (w.setWaits i r.2).passAll i r.1

/-- Withdraw the effect that a task was parked on. -/
def cancelPending (w : World) (i : MiddlewareId) (pending : Option EffectId) : World :=
  match pending with
  | none => w
  | some id => w.cancelWait i id

/-- Settle a pending effect; the answer names the task that goes on, if any. -/
def settleWait (w : World) (i : MiddlewareId) (id : EffectId) (signal : Signal) :
    Option Wakeup × World :=
  let c := Waits.settle (w.engine i).waits id signal
  (c.wakeup, (w.setWaits i c.waits).passAll i c.passages)

/-- Decide a race that is still being started by its member in `slot`. -/
def closeRace (w : World) (i : MiddlewareId) (race : EffectId) (wait : Wait) (slot : Nat)
    (signal : Signal) : Signal × World :=
  let r := Waits.closeRace ((w.engine i).waits.erase race) wait.kind slot signal
  (r.1, (w.setWaits i r.2.2).passAll i r.2.1)

/-- Give up an `all` that is still being started. -/
def dropAll (w : World) (i : MiddlewareId) (all : EffectId) (wait : Wait) : World :=
  let r := Waits.detachEach ((w.engine i).waits.erase all) wait.kind.members
  (w.setWaits i r.2).passAll i r.1

/-! ## Tasks -/

/-- The handle of a task that is about to be created. -/
def nextTaskRef (w : World) (i : MiddlewareId) (saga : Saga) : TaskRef :=
  { owner := i, id := (w.engine i).nextTask, name := saga.name }

/-- Create a task; it is scheduled by whoever asked for it. -/
def createTask (w : World) (i : MiddlewareId) (saga : Saga) (parent : Option TaskId)
    (detached : Bool) : World :=
  let id := (w.engine i).nextTask
  let node : TaskNode :=
    { name := saga.name, parent, detached, body := some (saga.program.start id) }
  let w := w.setEngine i fun e =>
    { e with nextTask := id + 1, tasks := e.tasks.insert id node }
  let w :=
    match parent with
    | some p =>
      if detached then w
      else w.setTask i p fun n => { n with children := n.children ++ [id] }
    | none => w
  w.record i (.taskStarted id parent saga.name)

/-- Wake everyone who polls the completion of a task. -/
def wakeWatches (w : World) (t : TaskRef) : World :=
  { w with watches := ⟨w.watches.entries.map fun e =>
      if e.2.task.owner = t.owner ∧ e.2.task.id = t.id ∧ e.2.registered then
        (e.1, { e.2 with registered := false, wakes := e.2.wakes + 1 })
      else e⟩ }

/--
Record the outcome of a task: it leaves the table, its joiners are told in the order
they joined, and its parent may have to fail or to complete.
-/
def finalize (w : World) (i : MiddlewareId) (id : TaskId) (outcome : Outcome) :
    Option Cascade × World :=
  match w.task? i id with
  | none => (none, w)
  | some node =>
    let ref : TaskRef := { owner := i, id, name := node.name }
    let w := w.setEngine i fun e =>
      { e with tasks := e.tasks.erase id, outcomes := e.outcomes.insert id outcome }
    let w := w.wakeWatches ref
    let w := node.joiners.foldl
      (fun w joiner => w.schedule i (.settle joiner (.ofOutcome outcome))) w
    let w := w.record i (.taskFinished id outcome)
    match node.parent, node.detached with
    | some parent, false =>
      match w.task? i parent with
      | none => (none, w)
      | some above =>
        if above.status.isTerminal then (none, w)
        else
          let children := above.children.filter (· ≠ id)
          let w := w.setTask i parent fun n => { n with children }
          match outcome with
          | .aborted f => (some (.abort parent f), w)
          | _ =>
            if above.result.isSome && children.isEmpty then (some (.complete parent), w)
            else (none, w)
    | _, _ =>
      match outcome with
      | .aborted f => (none, w.record i (.uncaught ref f))
      | _ => (none, w)

/-- Park a body until its effect settles, or until a scheduled resumption. -/
def park (w : World) (i : MiddlewareId) (id : TaskId) (body : Body)
    (pending : Option EffectId) : World :=
  w.setTask i id fun node => { node with body := some body, pending, status := .suspended }

/-! ## The bus -/

/-- End the bus for all tasks created so far. -/
def endBus (w : World) (i : MiddlewareId) : World :=
  let e := w.engine i
  let r := e.bus.finish e.nextTask
  let w := (w.setEngine i fun e => { e with bus := r.2 }).record i (.busEnded e.nextTask)
  r.1.foldl (fun w t => w.schedule i (.settle t.effect .ended)) w

/-- Offer an action to the tasks that wait for it. -/
def broadcast (w : World) (i : MiddlewareId) (a : Action) : World :=
  let r := (w.engine i).bus.broadcast a
  let w := w.setEngine i fun e => { e with bus := { e.bus with takers := r.kept } }
  r.woken.foldl (fun w t => w.schedule i (.settle t.effect (.value (.action a))))
    (w.enterNotes r.notes)

/-- Let the reducer of the host see an action. -/
def reduceHost (w : World) (i : MiddlewareId) (a : Action) : World :=
  { w with middlewares := w.middlewares.modify i fun m => { m with host := m.host.reduce a } }

/-- Read the host state; a state that cannot be read is reported and counts as null. -/
def readState (w : World) (i : MiddlewareId) : Json × World :=
  match w.middlewares.get? i with
  | none => (.null, w)
  | some m =>
    let s := m.host.snapshot
    (s.1, if s.2 then w else w.record i .unreadable)

/-! ## Channels -/

/-- Put a value on a channel, and enter in the journal whether it was accepted. -/
def putChannel (w : World) (c : ChannelId) (channel : Channel Sink) (v : Value) :
    PutResult Sink × World :=
  let r := channel.put v
  let w := w.enterNotes (channel.putNotes v)
  let w := { w with channels := w.channels.insert c r.2 }
  match r.1 with
  | .ignored | .buffered (.error _) => (r.1, w)
  | .delivered _ | .buffered (.ok _) => (r.1, w.enter (.accepted c v))

/-- Register a taker on a channel. -/
def takeChannel (w : World) (c : ChannelId) (channel : Channel Sink) (p : Pattern)
    (sink : Sink) : Channel.Registration Sink × World :=
  let r := channel.take p sink
  let w := w.enterNotes (channel.takeNotes p)
  (r, { w with channels := w.channels.insert c r.channel })

/-! ## Deferreds and timers -/

/-- Add a deferred. -/
def addDeferred (w : World) (d : Deferred EffectRef) : DeferredId × World :=
  (w.nextDeferred,
    { w with
      nextDeferred := w.nextDeferred + 1
      deferreds := w.deferreds.insert w.nextDeferred d })

/-- A deferred that a timer settles; where no timer can run it is rejected at once. -/
def addTimer (w : World) (ms : Nat) (answer : Answer) : DeferredId × World :=
  match w.timerSupport with
  | .absent => w.addDeferred (.settled (.error .noTimers))
  | .refused => (w.enter .timersUnavailable).addDeferred (.settled (.error .noTimers))
  | .available =>
    let r := w.addDeferred { timer := some w.nextTimer }
    let timer : Timer :=
      { id := w.nextTimer, deadline := w.now + ms, deferred := r.1, answer }
    (r.1, { r.2 with timers := r.2.timers ++ [timer], nextTimer := r.2.nextTimer + 1 })

/-- The timer that is due first, up to a time; of two with one deadline the older one. -/
def dueTimer? (w : World) (limit : Nat) : Option Timer :=
  w.timers.foldl (fun best t =>
    if limit < t.deadline then best
    else
      match best with
      | none => some t
      | some b => if t.deadline < b.deadline then some t else best) none

end World

end SagaMachine
