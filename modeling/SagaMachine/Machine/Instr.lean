import SagaMachine.Transitions

/-!
# Instructions of the machine

A scenario is run by a machine whose state is a list of instructions and a world.
The first instruction is carried out; what it calls for — user code to run, and what
is to be done afterwards — comes back as instructions in its place. Each instruction
holds everything it needs, so nothing is ever returned from one to another, and
wherever user code runs the rest of the work is there to be looked at in the list.
-/

namespace SagaMachine

/-- Who asked for an operation. -/
inductive Site where
  /-- The scenario, from outside all sagas. -/
  | outside
  /-- User code. -/
  | nested
deriving DecidableEq, Repr

/-- A step of a task: the middleware and the task. -/
structure Turn where
  mw : MiddlewareId
  task : TaskId
deriving DecidableEq, Repr

/-- A combinator whose members are being started: its effect, the slot, and who follows. -/
inductive Nest where
  | race (id : EffectId) (slot : Nat) (rest : List Effect)
  | all (id : EffectId) (slot : Nat) (rest : List Effect)
deriving Repr

/-- Where an effect reports that is started inside of combinators, the innermost first. -/
def Nest.link : List Nest → Link
  | [] => .task
  | .race id slot _ :: _ => .race id slot
  | .all id slot _ :: _ => .all id slot

/-- What starting an effect comes to. -/
inductive Start where
  | immediate (signal : Signal)
  | pending (id : EffectId)
  /-- The issuing task became terminal. -/
  | halt
deriving Repr

/-- How a turn ends. -/
inductive Exit where
  | suspended (id : EffectId)
  /-- The task stands aside so that scheduled reactions run first. -/
  | yielded (signal : Signal)
  | finished (answer : Answer)
  /-- The source of the last effect has ended. -/
  | ended
  | halted
deriving Repr

/-- Who waits for the result of a broadcast. -/
inductive Sender where
  | effect (id : EffectId)
  /-- A queued dispatch; nobody waits. -/
  | nobody
  /-- A dispatch that started the driver. -/
  | caller (site : Site)
deriving Repr

/-- An instruction. -/
inductive Instr where
  /-- Work off the agenda of a middleware until it is empty. -/
  | drain (mw : MiddlewareId)
  | perform (mw : MiddlewareId) (job : Job)
  | schedule (mw : MiddlewareId) (r : Reaction)
  /-- Poll a body, with the answer to its last effect. -/
  | poll (turn : Turn) (body : Body) (answer : Option Answer)
  /-- Go on with the statements of a script within a poll. -/
  | advance (turn : Turn) (body : ScriptBody) (mailbox : Mailbox Effect)
  /-- The body came to rest. -/
  | polled (turn : Turn) (body : Body) (step : Step Effect)
  /-- Start an effect, inside of the combinators given. -/
  | trigger (turn : Turn) (body : Body) (nests : List Nest) (effect : Effect)
  /-- The operations of a called function are done; work out its answer. -/
  | answer (turn : Turn) (body : Body) (nests : List Nest) (id : EffectId)
      (result : AnswerExpr) (env : Env)
  /-- The cancellation that an effect asked for is done. -/
  | cancelDone (turn : Turn) (body : Body) (nests : List Nest) (id : EffectId)
  /-- An effect was started. -/
  | begun (turn : Turn) (body : Body) (nests : List Nest) (start : Start)
  | leave (turn : Turn) (body : Body) (exit : Exit)
  | dropBody (turn : Turn) (body : Body)
  /-- The body is over, with a value. -/
  | returned (turn : Turn) (value : Value)
  /-- Fail a task: its effect and its children go first. -/
  | abort (turn : Turn) (fault : Fault)
  | abortDone (turn : Turn) (fault : Fault) (wasCurrent : Bool)
  /-- Record the outcome of a task that became terminal within its own step. -/
  | conclude (turn : Turn)
  | cascade (mw : MiddlewareId) (c : Cascade)
  /-- Cancel a task and its attached subtree. -/
  | cancel (mw : MiddlewareId) (root : TaskId)
  /-- Tear down the tasks of a cancelled subtree, then let their parents react. -/
  | cancelEach (mw : MiddlewareId) (order : List TaskId) (cascades : List Cascade)
  | cancelOne (turn : Turn) (wasCurrent : Bool) (rest : List TaskId) (cascades : List Cascade)
  /-- Send an action through the host and to the takers. -/
  | emit (mw : MiddlewareId) (action : Action) (sender : Sender)
  | forwarded (mw : MiddlewareId) (action : Action) (sender : Sender)
  | deliver (sink : Sink) (delivery : Delivery)
  /-- Let guards go off, one after the other. -/
  | guards (gs : List Guard)
  | ops (env : Env) (os : List Op)
  | op (site : Site) (env : Env) (o : Op)
  /-- An operation is done. -/
  | reply (site : Site) (name : String) (r : Reply)
  /-- A task was started from outside; register and report it. -/
  | started (site : Site) (label : Option String) (task : TaskRef)
  /-- A taker of user code was registered. -/
  | registered (site : Site) (tag : String) (channel : ChannelId) (id : TakerId)
  /-- Move the clock, firing the timers that are due on the way. -/
  | moveClock (target : Nat)

/-- The machine: instructions to be carried out, and the world they act on. -/
structure Config where
  todo : List Instr
  world : World

namespace Config

/-- Let instructions follow what a transition calls for. -/
def followedBy (c : Config) (after : List Instr) : Config := { c with todo := c.todo ++ after }

end Config

namespace World

/--
Do something with a middleware. If its driver is at work the rest of the agenda waits
for it anyway; otherwise the driver starts, and works everything off afterwards.
-/
def enterDriver (w : World) (i : MiddlewareId) (work : List Instr) : Config :=
  if (w.engine i).driving then ⟨work, w⟩
  else ⟨work ++ [.drain i], w.setEngine i fun e => { e with driving := true }⟩

/-- Settle a pending effect from outside its driver; a dropped middleware hears nothing. -/
def notify (w : World) (target : EffectRef) (signal : Signal) : Config :=
  match w.living? target.mw with
  | none => ⟨[], w⟩
  | some _ => (w.schedule target.mw (.settle target.effect signal)).enterDriver target.mw []

end World

end SagaMachine
