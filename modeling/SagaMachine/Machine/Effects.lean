import SagaMachine.Machine.Instr
import SagaMachine.Script.Eval

/-!
# Running effects

Starting an effect gives a signal at once, leaves a pending effect behind, or ends the
turn because the issuing task became terminal. The members of a race or an `all` are
started from left to right; the combinators that are still being started travel along
with their members (`Nest`).
-/

namespace SagaMachine

namespace World

/-- An effect settled while it was started. -/
def immediate (w : World) (turn : Turn) (body : Body) (nests : List Nest) (id : EffectId)
    (signal : Signal) : Config :=
  ⟨[.begun turn body nests (.immediate signal)], w.record turn.mw (.settled id signal)⟩

/-- An effect is carried out in a wrong way. -/
def invalid (w : World) (turn : Turn) (body : Body) (nests : List Nest) (id : EffectId)
    (reason : String) : Config :=
  w.immediate turn body nests id (.fault (.invalidEffect reason))

/-- An effect is left pending. -/
def suspend (w : World) (turn : Turn) (body : Body) (nests : List Nest) (id : EffectId)
    (kind : WaitKind) : Config :=
  ⟨[.begun turn body nests (.pending id)],
    w.insertWait turn.mw id { task := turn.task, link := Nest.link nests, kind }⟩

/-- Take from the bus or from a channel. -/
def startTake (w : World) (turn : Turn) (body : Body) (nests : List Nest) (id : EffectId)
    (source : Source) (pattern : Pattern) : Config :=
  match source with
  | .bus =>
    let r := (w.engine turn.mw).bus.take turn.task pattern id
    let w := w.setEngine turn.mw fun e => { e with bus := r.bus }
    if r.ended then w.immediate turn body nests id .ended
    else w.suspend turn body nests id (.take .bus r.id)
  | .channel c =>
    match w.channels.get? c with
    | none => w.immediate turn body nests id .ended
    | some channel =>
      let r := w.takeChannel c channel pattern (.effect ⟨turn.mw, id⟩)
      match r.1.delivery with
      | some d => r.2.immediate turn body nests id (.ofDelivery d)
      | none => r.2.suspend turn body nests id (.take (.channel c) r.1.id)

/-- Queue a put. -/
def startPut (w : World) (turn : Turn) (body : Body) (nests : List Nest) (id : EffectId)
    (target : Target) : Config :=
  let errand : Errand :=
    match target with
    | .bus a => .dispatch a (some id)
    | .channel c v => .put c v id
  let r := w.suspend turn body nests id .put
  { r with world := r.world.queue turn.mw errand }

/-- Wait for a deferred; if it is settled already, its outcome comes as a reaction. -/
def awaitDeferred (w : World) (turn : Turn) (body : Body) (nests : List Nest)
    (id : EffectId) (d : DeferredId) : Config :=
  let r := w.suspend turn body nests id (.call d)
  match r.world.deferreds.get? d with
  | none => r
  | some deferred =>
    let s := deferred.subscribe ⟨turn.mw, id⟩
    let w := { r.world with deferreds := r.world.deferreds.insert d s.2 }
    match s.1 with
    | none => { r with world := w }
    | some a => { r with world := w.schedule turn.mw (.settle id (.ofAnswer a)) }

/-- Call a function: first its operations run, then it answers. -/
def startCall (w : World) (turn : Turn) (body : Body) (nests : List Nest) (id : EffectId)
    (routine : Routine) : Config :=
  match routine with
  | .sleep ms =>
    let r := w.addTimer ms (.ok .unit)
    r.2.awaitDeferred turn body nests id r.1
  | .scripted c env =>
    let w := c.label.elim w fun name => w.enter (.call name)
    ⟨[.ops env c.ops, .answer turn body nests id c.answer env], w⟩

/-- Work out the answer of a called function. -/
def execAnswer (w : World) (turn : Turn) (body : Body) (nests : List Nest) (id : EffectId)
    (result : AnswerExpr) (env : Env) : Config :=
  match result with
  | .value x => w.immediate turn body nests id (.value (w.eval env x))
  | .fault f => w.immediate turn body nests id (.fault f)
  | .deferred name =>
    match w.deferredNames.get? name with
    | some d => w.awaitDeferred turn body nests id d
    | none => w.immediate turn body nests id (.fault (.failed "no deferred"))
  | .resolved x =>
    let r := w.addDeferred (.settled (.ok (w.eval env x)))
    r.2.awaitDeferred turn body nests id r.1
  | .rejected f =>
    let r := w.addDeferred (.settled (.error f))
    r.2.awaitDeferred turn body nests id r.1
  | .timer ms fault x =>
    let answer : Answer :=
      match fault with
      | some f => .error f
      | none => .ok (w.eval env x)
    let r := w.addTimer ms answer
    r.2.awaitDeferred turn body nests id r.1

/-- Fork a task; it starts before the forking body goes on. -/
def startFork (w : World) (turn : Turn) (body : Body) (nests : List Nest) (id : EffectId)
    (saga : Saga) (detached : Bool) : Config :=
  let child := w.nextTaskRef turn.mw saga
  let w := w.createTask turn.mw saga (some turn.task) detached
  let w := w.schedule turn.mw (.start child.id)
  w.immediate turn body nests id (.value (.task child))

/-- Join on a task of the same middleware. -/
def startJoin (w : World) (turn : Turn) (body : Body) (nests : List Nest) (id : EffectId)
    (target : TaskRef) : Config :=
  if target.owner ≠ turn.mw then
    w.invalid turn body nests id "cannot join a task owned by another middleware"
  else if target.id = turn.task then
    w.invalid turn body nests id "a task cannot join itself"
  else
    match w.outcomeOf target with
    | some o => w.immediate turn body nests id (.ofOutcome o)
    | none =>
      match w.task? turn.mw target.id with
      | none => w.immediate turn body nests id (.value .unit)
      | some _ =>
        let w := w.setTask turn.mw target.id fun n =>
          { n with joiners := n.joiners ++ [id] }
        w.suspend turn body nests id (.join target.id)

/-- Start the members of a race. -/
def startRace (w : World) (turn : Turn) (body : Body) (nests : List Nest) (id : EffectId)
    (keys : Option (List String)) (members : List Effect) : Config :=
  match members with
  | [] => w.invalid turn body nests id "race needs at least one member"
  | e :: es =>
    let kind : WaitKind := .race keys (members.map fun _ => none)
    let w := w.insertWait turn.mw id { task := turn.task, link := Nest.link nests, kind }
    ⟨[.trigger turn body (.race id 0 es :: nests) e], w⟩

/-- Start the members of a race whose keys must be distinct. -/
def startKeyedRace (w : World) (turn : Turn) (body : Body) (nests : List Nest)
    (id : EffectId) (members : List (String × Effect)) : Config :=
  match Effect.duplicateKey? members with
  | some key => w.invalid turn body nests id ("race has duplicate key `" ++ key ++ "`")
  | none =>
    w.startRace turn body nests id (some (members.map Prod.fst)) (members.map Prod.snd)

/-- Start the members of an `all`. -/
def startAll (w : World) (turn : Turn) (body : Body) (nests : List Nest) (id : EffectId)
    (members : List Effect) : Config :=
  match members with
  | [] => w.immediate turn body nests id (.value (.list []))
  | e :: es =>
    let kind : WaitKind :=
      .all (members.map fun _ => none) (members.map fun _ => none) members.length
    let w := w.insertWait turn.mw id { task := turn.task, link := Nest.link nests, kind }
    ⟨[.trigger turn body (.all id 0 es :: nests) e], w⟩

/-- Cancel a task of the same middleware, or the issuing task. -/
def startCancel (w : World) (turn : Turn) (body : Body) (nests : List Nest)
    (id : EffectId) (target : Option TaskRef) : Config :=
  match target with
  | none => ⟨[.cancel turn.mw turn.task, .cancelDone turn body nests id], w⟩
  | some t =>
    if t.owner ≠ turn.mw then
      w.invalid turn body nests id "cannot cancel a task owned by another middleware"
    else ⟨[.cancel turn.mw t.id, .cancelDone turn body nests id], w⟩

/-- The cancellation is done; it may have met the issuing task. -/
def execCancelDone (w : World) (turn : Turn) (body : Body) (nests : List Nest)
    (id : EffectId) : Config :=
  if w.isHalted turn.mw turn.task then ⟨[.begun turn body nests .halt], w⟩
  else w.immediate turn body nests id (.value .unit)

/-- Read the host state, or one of its fields; a missing field is null. -/
def startSelect (w : World) (turn : Turn) (body : Body) (nests : List Nest)
    (id : EffectId) (key : Option String) : Config :=
  let r := w.readState turn.mw
  let j :=
    match key with
    | none => r.1
    | some key => (r.1.field? key).getD .null
  r.2.immediate turn body nests id (.value (.json j))

/-- Start an effect, unless the issuing task is terminal. -/
def execTrigger (w : World) (turn : Turn) (body : Body) (nests : List Nest)
    (effect : Effect) : Config :=
  if w.isHalted turn.mw turn.task then ⟨[.begun turn body nests .halt], w⟩
  else
    let id := (w.engine turn.mw).nextEffect
    let w := w.setEngine turn.mw fun e => { e with nextEffect := id + 1 }
    let parent := (Nest.link nests).parent?
    let w := w.record turn.mw (.triggered turn.task id parent effect)
    match effect with
    | .take source pattern => w.startTake turn body nests id source pattern
    | .put target => w.startPut turn body nests id target
    | .call _ routine => w.startCall turn body nests id routine
    | .fork saga detached => w.startFork turn body nests id saga detached
    | .join target => w.startJoin turn body nests id target
    | .race members => w.startKeyedRace turn body nests id members
    | .racePositional members => w.startRace turn body nests id none members
    | .all members => w.startAll turn body nests id members
    | .cancel target => w.startCancel turn body nests id target
    | .select key => w.startSelect turn body nests id key

/-! ## Going on after a start -/

/-- Note a pending member in its combinator. -/
def setMember (w : World) (i : MiddlewareId) (combinator : EffectId) (slot : Nat)
    (member : EffectId) : World :=
  w.setWaits i ((w.engine i).waits.modify combinator fun wait =>
    { wait with kind := wait.kind.setMember slot member })

/-- Go on with the body of a task whose own effect was started. -/
def resumeBody (w : World) (turn : Turn) (body : Body) (start : Start) : Config :=
  let halted := w.isHalted turn.mw turn.task
  match start with
  | .halt => ⟨[.leave turn body .halted], w⟩
  | .pending id =>
    if halted then ⟨[.leave turn body .halted], w.cancelWait turn.mw id⟩
    else ⟨[.leave turn body (.suspended id)], w⟩
  | .immediate signal =>
    if halted then ⟨[.leave turn body .halted], w⟩
    else
      match signal with
      | .ended => ⟨[.leave turn body .ended], w⟩
      | .value v =>
        if (w.engine turn.mw).agenda.fresh.isEmpty then
          ⟨[.poll turn body (some (.ok v))], w⟩
        else ⟨[.leave turn body (.yielded signal)], w⟩
      | .fault f =>
        if (w.engine turn.mw).agenda.fresh.isEmpty then
          ⟨[.poll turn body (some (.error f))], w⟩
        else ⟨[.leave turn body (.yielded signal)], w⟩

/-- Start the next member of a race; when all are started the race is pending. -/
def nextOfRace (w : World) (turn : Turn) (body : Body) (id : EffectId) (slot : Nat)
    (rest : List Effect) (nests : List Nest) : Config :=
  match rest with
  | [] => ⟨[.begun turn body nests (.pending id)], w⟩
  | e :: es => ⟨[.trigger turn body (.race id (slot + 1) es :: nests) e], w⟩

/-- Start the next member of an `all`; when all are started it may be complete. -/
def nextOfAll (w : World) (turn : Turn) (body : Body) (id : EffectId) (slot : Nat)
    (rest : List Effect) (nests : List Nest) : Config :=
  match rest with
  | e :: es => ⟨[.trigger turn body (.all id (slot + 1) es :: nests) e], w⟩
  | [] =>
    match (w.engine turn.mw).waits.get? id with
    | some { kind := .all results members 0, .. } =>
      let w := w.setWaits turn.mw ((w.engine turn.mw).waits.erase id)
      w.immediate turn body nests id (Waits.collect (.all results members 0))
    | _ => ⟨[.begun turn body nests (.pending id)], w⟩

/-- A member of a race was started. -/
def begunInRace (w : World) (turn : Turn) (body : Body) (id : EffectId) (slot : Nat)
    (rest : List Effect) (nests : List Nest) (start : Start) : Config :=
  match start with
  | .pending member => (w.setMember turn.mw id slot member).nextOfRace turn body id slot rest nests
  | .halt => ⟨[.begun turn body nests .halt], w.cancelWait turn.mw id⟩
  | .immediate signal =>
    match (w.engine turn.mw).waits.get? id with
    | none => ⟨[.begun turn body nests .halt], w⟩
    | some wait =>
      let r := w.closeRace turn.mw id wait slot signal
      r.2.immediate turn body nests id r.1

/-- A member of an `all` was started. -/
def begunInAll (w : World) (turn : Turn) (body : Body) (id : EffectId) (slot : Nat)
    (rest : List Effect) (nests : List Nest) (start : Start) : Config :=
  match start with
  | .pending member => (w.setMember turn.mw id slot member).nextOfAll turn body id slot rest nests
  | .halt => ⟨[.begun turn body nests .halt], w.cancelWait turn.mw id⟩
  | .immediate (.value v) =>
    let m := Waits.merge (w.engine turn.mw).waits id slot (.value v)
    (w.setWaits turn.mw m.2).nextOfAll turn body id slot rest nests
  | .immediate signal =>
    let w :=
      match (w.engine turn.mw).waits.get? id with
      | none => w
      | some wait => w.dropAll turn.mw id wait
    w.immediate turn body nests id signal

/-- Go on after an effect was started: with its combinator, or with the body. -/
def execBegun (w : World) (turn : Turn) (body : Body) (nests : List Nest) (start : Start) :
    Config :=
  match nests with
  | [] => w.resumeBody turn body start
  | .race id slot rest :: nests => w.begunInRace turn body id slot rest nests start
  | .all id slot rest :: nests => w.begunInAll turn body id slot rest nests start

/-- Go on after a poll: run the effect the body yielded, or end the turn. -/
def execPolled (w : World) (turn : Turn) (body : Body) (step : Step Effect) : Config :=
  if w.isHalted turn.mw turn.task then ⟨[.leave turn body .halted], w⟩
  else
    match step with
    | .complete a => ⟨[.leave turn body (.finished a)], w⟩
    | .yielded e => ⟨[.trigger turn body [] e], w⟩

end World

end SagaMachine
