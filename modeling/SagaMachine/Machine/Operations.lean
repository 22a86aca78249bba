import SagaMachine.Machine.Script
import SagaMachine.Machine.Driver

/-!
# Operations

What user code and the scenario can do to the world. An operation whose target does
not exist, or was dropped, answers that it is missing and changes nothing.
-/

namespace SagaMachine

namespace World

/-- Report the result of an operation: among the log lines, or to the scenario. -/
def execReply (w : World) (site : Site) (name : String) (r : Reply) : Config :=
  match site with
  | .nested => ⟨[], w.enter (.op name r)⟩
  | .outside => ⟨[], { w with reply := some r }⟩

/-- Answer an operation at once. -/
def answerOp (w : World) (site : Site) (o : Op) (r : Reply) : Config :=
  ⟨[.reply site o.name r], w⟩

/-- Use a middleware that was not dropped. -/
def withMiddleware (w : World) (site : Site) (o : Op) (i : MiddlewareId)
    (f : Middleware → Config) : Config :=
  match w.living? i with
  | none => w.answerOp site o .missing
  | some m => f m

/-- Use a task. -/
def withTask (w : World) (site : Site) (env : Env) (o : Op) (x : Expr)
    (f : TaskRef → Config) : Config :=
  match w.eval env x with
  | .task t => f t
  | _ => w.answerOp site o .missing

/-- Use a channel. -/
def withChannel (w : World) (site : Site) (o : Op) (name : String)
    (f : ChannelId → Channel Sink → Config) : Config :=
  match w.channelNames.get? name with
  | none => w.answerOp site o .missing
  | some c =>
    match w.channels.get? c with
    | none => w.answerOp site o .missing
    | some channel => f c channel

/-- Start a root task. -/
def opRun (w : World) (site : Site) (env : Env) (i : MiddlewareId) (s : SagaExpr)
    (label : Option String) : Config :=
  let saga := w.evalSaga env s
  let task := w.nextTaskRef i saga
  let w := (w.createTask i saga none false).schedule i (.start task.id)
  (w.enterDriver i []).followedBy [.started site label task]

/-- Register a started task, and report it. -/
def execStarted (w : World) (site : Site) (label : Option String) (t : TaskRef) : Config :=
  let w := w.register label (.task t)
  ⟨[.reply site "run" (.started t.id (w.statusOf t))], w⟩

/-- Dispatch an action; from inside a turn it is queued. -/
def opDispatch (w : World) (site : Site) (i : MiddlewareId) (a : Action) : Config :=
  if (w.engine i).driving then
    ⟨[.reply site "dispatch" .ok], w.queue i (.dispatch a none)⟩
  else
    ⟨[.emit i a (.caller site)], w.setEngine i fun e => { e with driving := true }⟩

/-- End the bus; from inside a turn this is queued. -/
def opFinish (w : World) (site : Site) (i : MiddlewareId) : Config :=
  if (w.engine i).driving then ⟨[.reply site "end" .ok], w.queue i .finish⟩
  else ((w.endBus i).enterDriver i []).followedBy [.reply site "end" .ok]

/-- Cancel a task and its attached subtree. -/
def opCancel (w : World) (site : Site) (t : TaskRef) : Config :=
  match w.living? t.owner with
  | none => ⟨[.reply site "cancel" .ok], w⟩
  | some _ =>
    (w.enterDriver t.owner [.cancel t.owner t.id]).followedBy [.reply site "cancel" .ok]

/-- Poll the completion of a task under a tag; the first poll fixes the task. -/
def opWatch (w : World) (t : TaskRef) (tag : String) : Reply × World :=
  let watch := (w.watches.get? tag).getD { task := t }
  match w.outcomeOf watch.task with
  | some o => (.outcome o, { w with watches := w.watches.insert tag watch })
  | none =>
    (.pending, { w with watches := w.watches.insert tag { watch with registered := true } })

/-- Put a value on a channel. -/
def opPut (w : World) (site : Site) (c : ChannelId) (channel : Channel Sink) (v : Value) :
    Config :=
  let r := w.putChannel c channel v
  match r.1 with
  | .ignored => ⟨[.reply site "put" .ok], r.2⟩
  | .delivered t => ⟨[.deliver t.sink (.value v), .reply site "put" .ok], r.2⟩
  | .buffered result => ⟨[.reply site "put" (.ofResult result)], r.2⟩

/-- Register a taker of user code on a channel. -/
def opTake (w : World) (site : Site) (env : Env) (c : ChannelId) (channel : Channel Sink)
    (pattern : Pattern) (tag : String) (next : List Op) : Config :=
  let sink : Sink := .script tag next env
  let r := w.takeChannel c channel pattern sink
  match r.1.delivery with
  | some d => ⟨[.deliver sink d, .registered site tag c r.1.id], r.2⟩
  | none => ⟨[.registered site tag c r.1.id], r.2⟩

/-- Remember a taker of user code under its tag. -/
def execRegistered (w : World) (site : Site) (tag : String) (c : ChannelId)
    (id : TakerId) : Config :=
  ⟨[.reply site "take" .ok], { w with takerTags := w.takerTags.insert tag (c, id) }⟩

/-- Withdraw a taker of user code. -/
def opUntake (w : World) (tag : String) : Reply × World :=
  match w.takerTags.get? tag with
  | none => (.missing, w)
  | some (c, id) =>
    match w.channels.get? c with
    | none => (.missing, w)
    | some channel =>
      let r := channel.cancelTaker id
      (.bool r.1, { w with channels := w.channels.insert c r.2 })

/-- Close a channel; its takers learn of the end, one after the other. -/
def opClose (w : World) (site : Site) (c : ChannelId) (channel : Channel Sink) : Config :=
  let r := channel.close
  ⟨r.1.map (fun t => .deliver t.sink .ended) ++ [.reply site "close" .ok],
    { w with channels := w.channels.insert c r.2 }⟩

/-- Settle a deferred; the call that listens to it goes on. -/
def settleDeferred (w : World) (d : DeferredId) (a : Answer) : Bool × Config :=
  match w.deferreds.get? d with
  | none => (false, ⟨[], w⟩)
  | some deferred =>
    let s := deferred.settle a
    let w := { w with deferreds := w.deferreds.insert d s.deferred }
    match s.listener with
    | none => (s.accepted, ⟨[], w⟩)
    | some target => (s.accepted, w.notify target (.ofAnswer a))

/-- Settle a named deferred by hand. -/
def opSettle (w : World) (site : Site) (o : Op) (name : String) (a : Answer) : Config :=
  match w.deferredNames.get? name with
  | none => w.answerOp site o .missing
  | some d =>
    let r := w.settleDeferred d a
    r.2.followedBy [.reply site o.name (.bool r.1)]

/--
Drop a middleware: its tasks are lost, and their bodies are dropped in order. User code
cannot do this.
-/
def opDrop (w : World) (site : Site) (i : MiddlewareId) : Config :=
  match site, w.living? i with
  | .outside, some m =>
    let bodies := m.engine.tasks.entries.flatMap fun e =>
      (e.2.body.map fun body => Instr.dropBody ⟨i, e.1⟩ body).toList
    let gone := { m with alive := false, engine := { outcomes := m.engine.outcomes } }
    ⟨bodies ++ [.reply site "drop_mw" (.bool true)],
      { w with middlewares := w.middlewares.insert i gone }⟩
  | .outside, none => ⟨[.reply site "drop_mw" (.bool false)], w⟩
  | .nested, _ => ⟨[.reply site "drop_mw" .missing], w⟩

/-- Move the clock. User code cannot do this. -/
def opAdvance (w : World) (site : Site) (ms : Nat) : Config :=
  match site, w.timerSupport with
  | .outside, .available => ⟨[.moveClock (w.now + ms), .reply site "advance" .ok], w⟩
  | .outside, _ => ⟨[.reply site "advance" .noClock], w⟩
  | .nested, _ => ⟨[.reply site "advance" .missing], w⟩

/-- Fire the timer that is due first; without one the clock arrives. -/
def execMoveClock (w : World) (target : Nat) : Config :=
  match w.dueTimer? target with
  | none => ⟨[], { w with now := target }⟩
  | some t =>
    let w := { w with now := t.deadline, timers := w.timers.filter fun u => u.id ≠ t.id }
    (w.settleDeferred t.deferred t.answer).2.followedBy [.moveClock target]

/-- Run an operation. -/
def runOp (w : World) (site : Site) (env : Env) (o : Op) : Config :=
  match o with
  | .run i s label => w.withMiddleware site o i fun _ => w.opRun site env i s label
  | .dispatch i a =>
    w.withMiddleware site o i fun _ => w.opDispatch site i (w.evalAction env a)
  | .finish i => w.withMiddleware site o i fun _ => w.opFinish site i
  | .live i =>
    w.withMiddleware site o i fun m => w.answerOp site o (.nat m.engine.tasks.size)
  | .state i =>
    w.withMiddleware site o i fun _ =>
      let r := w.readState i
      r.2.answerOp site o (.json r.1)
  | .settings i =>
    w.withMiddleware site o i fun m => w.answerOp site o (.settings m.settings)
  | .cancel x => w.withTask site env o x fun t => w.opCancel site t
  | .inspect x =>
    w.withTask site env o x fun t => w.answerOp site o (.report (w.reportOf t))
  | .sameTask a b =>
    w.answerOp site o (.bool ((w.eval env a).sameAs (w.eval env b)))
  | .watch x tag =>
    w.withTask site env o x fun t =>
      let r := w.opWatch t tag
      r.2.answerOp site o r.1
  | .wakes tag =>
    w.answerOp site o ((w.watches.get? tag).elim .missing fun v => .nat v.wakes)
  | .put name x =>
    w.withChannel site o name fun c channel => w.opPut site c channel (w.eval env x)
  | .take name pattern tag next =>
    w.withChannel site o name fun c channel =>
      w.opTake site env c channel pattern tag next
  | .untake tag =>
    let r := w.opUntake tag
    r.2.answerOp site o r.1
  | .close name => w.withChannel site o name fun c channel => w.opClose site c channel
  | .sameChannel a b =>
    w.answerOp site o (.bool (w.channelNames.get? a == w.channelNames.get? b))
  | .showChannel name =>
    w.withChannel site o name fun _ channel => w.answerOp site o (.text channel.inspect)
  | .resolve name x => w.opSettle site o name (.ok (w.eval env x))
  | .reject name f => w.opSettle site o name (.error f)
  | .showDeferred name =>
    match (w.deferredNames.get? name).bind w.deferreds.get? with
    | none => w.answerOp site o .missing
    | some d => w.answerOp site o (.text (d.inspect w.statusOf))
  | .log tag x => (w.enter (.log tag (w.eval env x))).answerOp site o .ok
  | .drop i => w.opDrop site i
  | .advance ms => w.opAdvance site ms
  | .unknown _ => w.answerOp site o .missing

/-- Run an operation, if the budget allows it. -/
def execOp (w : World) (site : Site) (env : Env) (o : Op) : Option Config :=
  w.spend.map fun w => w.runOp site env o

/-- Run operations one after the other. -/
def execOps (w : World) (env : Env) : List Op → Config
  | [] => ⟨[], w⟩
  | o :: os => ⟨[.op .nested env o, .ops env os], w⟩

end World

end SagaMachine
