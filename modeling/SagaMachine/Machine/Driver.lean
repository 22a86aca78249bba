import SagaMachine.Machine.Instr

/-!
# The driver

The driver of a middleware takes one job after the other from its agenda. A task is
only ever stepped here, so steps of one middleware never nest; whatever user code asks
for in between is scheduled or queued.
-/

namespace SagaMachine

namespace World

/--
Step a task. `expected` is the effect that settled; a task that is not parked on it,
or not there any more, ignores the signal.
-/
def beginTurn (w : World) (i : MiddlewareId) (id : TaskId) (expected : Option EffectId)
    (signal : Option Signal) : Config :=
  match w.task? i id with
  | none => ⟨[], w⟩
  | some node =>
    if node.status.isTerminal || node.pending ≠ expected then ⟨[], w⟩
    else
      match node.body with
      | none => ⟨[], w⟩
      | some body =>
        let w := w.setTask i id fun n => { n with body := none, status := .running }
        let w := w.setEngine i fun e => { e with current := some id }
        match signal with
        | none => ⟨[.poll ⟨i, id⟩ body none], w⟩
        | some (.value v) => ⟨[.poll ⟨i, id⟩ body (some (.ok v))], w⟩
        | some (.fault f) => ⟨[.poll ⟨i, id⟩ body (some (.error f))], w⟩
        | some .ended => ⟨[.leave ⟨i, id⟩ body .ended], w⟩

/-- Put a value on a channel for an effect, which then settles. -/
def putForEffect (w : World) (i : MiddlewareId) (c : ChannelId) (v : Value)
    (reply : EffectId) : Config :=
  match w.channels.get? c with
  | none => ⟨[], w.schedule i (.settle reply (.value .unit))⟩
  | some channel =>
    let r := w.putChannel c channel v
    match r.1 with
    | .ignored => ⟨[], r.2.schedule i (.settle reply (.value .unit))⟩
    | .delivered t =>
      ⟨[.deliver t.sink (.value v), .schedule i (.settle reply (.value .unit))], r.2⟩
    | .buffered result => ⟨[], r.2.schedule i (.settle reply (.ofResult result))⟩

/-- Carry out one job. -/
def execPerform (w : World) (i : MiddlewareId) : Job → Config
  | .reaction (.start id) => w.beginTurn i id none none
  | .reaction (.resume id signal) => w.beginTurn i id none (some signal)
  | .reaction (.settle id signal) =>
    let r := w.settleWait i id signal
    match r.1 with
    | none => ⟨[], r.2⟩
    | some wakeup => r.2.beginTurn i wakeup.task (some wakeup.effect) (some wakeup.signal)
  | .errand (.dispatch a reply) =>
    ⟨[.emit i a (reply.elim .nobody .effect)], w.record i (.fetched (.dispatch a reply))⟩
  | .errand (.put c v reply) =>
    (w.record i (.fetched (.put c v reply))).putForEffect i c v reply
  | .errand .finish => ⟨[], (w.record i (.fetched .finish)).endBus i⟩

/-- Take the next job, or come to rest. -/
def execDrain (w : World) (i : MiddlewareId) : Config :=
  match (w.engine i).agenda.next? with
  | none => ⟨[], w.setEngine i fun e => { e with agenda := e.agenda.flush, driving := false }⟩
  | some (job, agenda) =>
    ⟨[.perform i job, .drain i], w.setEngine i fun e => { e with agenda }⟩

/-! ## Broadcasts -/

/-- The variables of a host's operations. -/
def hostEnv (a : Action) : Env := Table.empty.insert "action" (.action a)

/-- Send an action to the host; its operations run before its reducer. -/
def execEmit (w : World) (i : MiddlewareId) (a : Action) (sender : Sender) : Config :=
  match w.middlewares.get? i with
  | none => ⟨[], w⟩
  | some m =>
    let w := w.record i (.dispatched a)
    if m.host.quiet then ⟨[.forwarded i a sender], w⟩
    else
      ⟨[.ops (hostEnv a) (m.host.ruleFor a).ops, .forwarded i a sender],
        w.enter (.host i w.now a)⟩

/-- Tell the sender of an action what became of it. -/
def finishEmit (w : World) (i : MiddlewareId) (a : Action) (sender : Sender)
    (result : Except Fault Unit) : Config :=
  match sender with
  | .effect id => ⟨[], w.schedule i (.settle id (.ofResult result))⟩
  | .caller site => ⟨[.drain i, .reply site "dispatch" (.ofResult result)], w⟩
  | .nobody =>
    match result with
    | .ok _ => ⟨[], w⟩
    | .error f => ⟨[], w.record i (.refused a f)⟩

/-- The host has seen the action: it refuses it, or the takers are woken. -/
def execForwarded (w : World) (i : MiddlewareId) (a : Action) (sender : Sender) : Config :=
  match w.middlewares.get? i with
  | none => ⟨[], w⟩
  | some m =>
    match (if m.host.quiet then none else (m.host.ruleFor a).fail) with
    | some message => w.finishEmit i a sender (.error (.failed message))
    | none => ((w.reduceHost i a).broadcast i a).finishEmit i a sender (.ok ())

/-- Hand a delivery to an effect, or to a taker of user code. -/
def execDeliver (w : World) (sink : Sink) (d : Delivery) : Config :=
  match sink with
  | .effect target => w.notify target (.ofDelivery d)
  | .script tag next env =>
    let w := w.enter (.taker tag d)
    let env :=
      match d with
      | .value v => env.insert "got" v
      | .ended => env
    ⟨[.ops env next], w⟩

end World

end SagaMachine
