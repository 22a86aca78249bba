import SagaMachine.Session

/-!
# Stages of a session

A session has one middleware, and its scripts and its rules never change. A stage
(`Session.Stage`) is what does change: the interpreter, the counters of the host, deferreds and
timers, and what the session itself keeps. All that the machine does in a session is a step
from one stage to another, up to the journal, which nothing in a session reads.
-/

namespace SagaMachine

namespace Session

/-- The fields of the host state: the actions of each type, counted. -/
def tallies (pings pongs timeouts : Nat) : List (String × Json) :=
  [("pings", .ofNat pings), ("pongs", .ofNat pongs), ("timeouts", .ofNat timeouts)]

/-- What changes in a session, apart from the journal. -/
structure Stage where
  engine : Engine
  pings : Nat
  pongs : Nat
  timeouts : Nat
  deferreds : Table DeferredId (Deferred EffectRef)
  timers : List Timer
  /-- Every deferred has a timer behind it, so both have the same number. -/
  nextTimer : TimerId
  now : Nat
  labels : Table String TaskRef
  reply : Option Reply
  budget : Nat

variable {p : Session}

namespace Stage

/-- The middleware of a session. -/
def middleware (g : Stage) : Middleware :=
  { host :=
      { rules := host.rules, state := .json (.obj (tallies g.pings g.pongs g.timeouts)) }
    engine := g.engine }

/-- The world at a stage, with a journal. -/
def world (p : Session) (g : Stage) (journal : List Entry) : World :=
  { middlewares := ⟨[(0, g.middleware)]⟩
    scripts := [("pong", pong p.base), ("pinger", pinger p.rounds p.timeout)]
    deferreds := g.deferreds, timers := g.timers, nextDeferred := g.nextTimer
    nextTimer := g.nextTimer, now := g.now, labels := g.labels, reply := g.reply
    budget := g.budget, journal }

/-- Change the interpreter. -/
@[simp] def setEngine (g : Stage) (f : Engine → Engine) : Stage := { g with engine := f g.engine }

/-- Change a task. -/
@[simp] def setTask (g : Stage) (t : TaskId) (f : TaskNode → TaskNode) : Stage :=
  g.setEngine fun e => { e with tasks := e.tasks.modify t f }

/-- Start a timer with a deferred behind it, which answers unit to an effect. -/
@[simp] def addTimer (g : Stage) (ms : Nat) : Stage :=
  { g with
    nextTimer := g.nextTimer + 1
    deferreds := g.deferreds.insert g.nextTimer { timer := some g.nextTimer }
    timers := g.timers ++ [⟨g.nextTimer, g.now + ms, g.nextTimer, .ok .unit⟩] }

variable {g : Stage} {j : List Entry}

@[simp] theorem world_engine : (g.world p j).engine 0 = g.engine := rfl

@[simp] theorem world_task? (t : TaskId) : (g.world p j).task? 0 t = g.engine.tasks.get? t := rfl

@[simp] theorem world_living? : (g.world p j).living? 0 = some g.middleware := rfl

@[simp] theorem world_deferreds : (g.world p j).deferreds = g.deferreds := rfl

@[simp] theorem world_setEngine (f : Engine → Engine) :
    (g.world p j).setEngine 0 f = (g.setEngine f).world p j := rfl

@[simp] theorem world_setTask (t : TaskId) (f : TaskNode → TaskNode) :
    (g.world p j).setTask 0 t f = (g.setTask t f).world p j := rfl

@[simp] theorem world_setWaits (waits : Waits) : (g.world p j).setWaits 0 waits =
    (g.setEngine fun e => { e with waits }).world p j := rfl

@[simp] theorem world_insertWait (id : EffectId) (wait : Wait) :
    (g.world p j).insertWait 0 id wait =
      (g.setEngine fun e => { e with waits := e.waits.insert id wait }).world p j := rfl

@[simp] theorem world_schedule (r : Reaction) : (g.world p j).schedule 0 r =
    (g.setEngine fun e => { e with agenda := e.agenda.schedule r }).world p j := rfl

@[simp] theorem world_enter (e : Entry) : (g.world p j).enter e = g.world p (e :: j) := rfl

@[simp] theorem world_record (e : Event) :
    (g.world p j).record 0 e = g.world p (.event 0 e :: j) := rfl

@[simp] theorem world_queue (errand : Errand) : (g.world p j).queue 0 errand =
    (g.setEngine fun e => { e with agenda := e.agenda.queue errand }).world p
      (.event 0 (.queued errand (g.engine.agenda.errands ++ [errand]).length) :: j) := rfl

@[simp] theorem world_addTimer (ms : Nat) :
    (g.world p j).addTimer ms (.ok .unit) = (g.nextTimer, (g.addTimer ms).world p j) := rfl

@[simp] theorem world_park (t : TaskId) (body : Body) (pending : Option EffectId) :
    (g.world p j).park 0 t body pending = (g.setTask t fun n =>
      { n with body := some body, pending, status := .suspended }).world p j := rfl

@[simp] theorem world_spend (hb : 0 < g.budget) :
    (g.world p j).spend = some (({ g with budget := g.budget - 1 } : Stage).world p j) := by
  obtain ⟨b, hb⟩ : ∃ b, g.budget = b + 1 := ⟨g.budget - 1, by omega⟩
  simp only [World.spend, world, hb]
  rfl

end Stage

/-! ## Plays -/

/--
The machine comes from one stage to another in so many steps, and from the instructions `xs` to
the instructions `ys`; what is below these is not looked at, nor is the journal.
-/
structure Plays (p : Session) (k : Nat) (g : Stage) (xs : List Instr) (g' : Stage) (ys : List Instr) :
    Prop where
  run : ∀ journal todo, ∃ journal',
    Config.run k ⟨xs ++ todo, g.world p journal⟩ = ⟨ys ++ todo, g'.world p journal'⟩

variable {g g' g'' : Stage} {xs ys zs : List Instr} {k l : Nat}

theorem run_add (k l : Nat) (c : Config) : Config.run (k + l) c = Config.run l (Config.run k c) := by
  induction k generalizing c with
  | zero => rw [Nat.zero_add, Config.run]
  | succ k ih =>
    rw [Nat.succ_add, Config.run, Config.run]
    cases hc : c.step with
    | some c' => exact ih c'
    | none =>
      cases l with
      | zero => rfl
      | succ l => simp only [Config.run, hc]

namespace Plays

theorem refl (g : Stage) (xs : List Instr) : Plays p 0 g xs g xs := ⟨fun _ _ => ⟨_, rfl⟩⟩

theorem trans (h : Plays p k g xs g' ys) (h' : Plays p l g' ys g'' zs) :
    Plays p (k + l) g xs g'' zs := by
  refine ⟨fun journal todo => ?_⟩
  obtain ⟨journal', hj⟩ := h.run journal todo
  obtain ⟨journal'', hj'⟩ := h'.run journal' todo
  exact ⟨journal'', by rw [run_add, hj, hj']⟩

/-- What is below the instructions stays. -/
theorem below (h : Plays p k g xs g' ys) (zs : List Instr) :
    Plays p k g (xs ++ zs) g' (ys ++ zs) := by
  refine ⟨fun journal todo => ?_⟩
  simpa only [List.append_assoc] using h.run journal (zs ++ todo)

end Plays

/-! ## What the instructions do -/

/-- A script that waits for the answer to its effect. -/
def sentBody (control : List Frame) (env : Env) (into : Option String) : ScriptBody :=
  { control, env, pause := some { awaiting := [.sent], resumption := .bind into none } }

namespace Stage

/-- The next job is taken. -/
@[simp] def fetch (g : Stage) (agenda : Agenda) : Stage := g.setEngine fun e => { e with agenda }

/-- A task begins its step. -/
@[simp] def beginTurn (g : Stage) (t : TaskId) : Stage :=
  (g.setTask t fun n => { n with body := none, status := .running }).setEngine fun e =>
    { e with current := some t }

/-- A unit of the budget is spent. -/
@[simp] def spend (g : Stage) : Stage := { g with budget := g.budget - 1 }

/-- An effect is issued. -/
@[simp] def issue (g : Stage) (wait : Wait) : Stage :=
  g.setEngine fun e =>
    { e with nextEffect := e.nextEffect + 1, waits := e.waits.insert e.nextEffect wait }

/-- The effect at the root of a task settles. -/
@[simp] def settle (g : Stage) (id : EffectId) : Stage :=
  g.setEngine fun e => { e with waits := e.waits.erase id }

/-- An errand is queued. -/
@[simp] def queue (g : Stage) (errand : Errand) : Stage :=
  g.setEngine fun e => { e with agenda := e.agenda.queue errand }

/-- A reaction is scheduled. -/
@[simp] def schedule (g : Stage) (r : Reaction) : Stage :=
  g.setEngine fun e => { e with agenda := e.agenda.schedule r }

/-- An effect starts to sleep. -/
@[simp] def sleep (g : Stage) (t : TaskId) (link : Link) (ms : Nat) : Stage :=
  let g' := (g.addTimer ms).issue ⟨t, link, .call g.nextTimer⟩
  { g' with
    deferreds := g'.deferreds.insert g.nextTimer
      { timer := some g.nextTimer, listener := some ⟨0, g.engine.nextEffect⟩ } }

/-- An effect starts to take actions. -/
@[simp] def take (g : Stage) (t : TaskId) (link : Link) (pattern : Pattern) : Stage :=
  (g.setEngine fun e =>
    { e with bus :=
      { e.bus with
        nextTaker := e.bus.nextTaker + 1
        takers := e.bus.takers ++ [⟨e.bus.nextTaker, t, pattern, e.nextEffect⟩] } }).issue
    ⟨t, link, .take .bus g.engine.bus.nextTaker⟩

/-- A task is forked. -/
@[simp] def fork (g : Stage) (t : TaskId) (saga : Saga) : Stage :=
  let child := g.engine.nextTask
  ((g.setEngine fun e =>
    { e with
      nextEffect := e.nextEffect + 1
      nextTask := child + 1
      tasks := e.tasks.insert child
        { name := saga.name, parent := some t, detached := false
          body := some (saga.program.start child) } }).setTask t fun n =>
    { n with children := n.children ++ [child] }).schedule (.start child)

/-- A member of a combinator is pending. -/
@[simp] def setMember (g : Stage) (combinator : EffectId) (slot : Nat) (member : EffectId) : Stage :=
  g.setEngine fun e =>
    { e with waits := e.waits.modify combinator fun wait =>
      { wait with kind := wait.kind.setMember slot member } }

/-- A race of a take and a delay. -/
@[simp] def race (g : Stage) (t : TaskId) (keys : List String) (pattern : Pattern) (ms : Nat) : Stage :=
  let id := g.engine.nextEffect
  let g₁ := g.issue ⟨t, .task, .race (some keys) [none, none]⟩
  let g₂ := (g₁.take t (.race id 0) pattern).setMember id 0 (id + 1)
  (g₂.sleep t (.race id 1) ms).setMember id 1 (id + 2)

/-- A task comes to rest, on an effect or for other tasks to be run first. -/
@[simp] def rest (g : Stage) (t : TaskId) (body : Body) (pending : Option EffectId) : Stage :=
  (g.setEngine fun e => { e with current := none }).setTask t fun n =>
    { n with body := some body, pending, status := .suspended }

@[simp] theorem world_isHalted {t : TaskId} {j : List Entry} :
    (g.world p j).isHalted 0 t = !g.engine.tasks.isLive t := rfl

end Stage

theorem Plays.of_exec {x : Instr} (h : ∀ j, ∃ j', x.exec (g.world p j) = some ⟨ys, g'.world p j'⟩) :
    Plays p 1 g [x] g' ys := by
  refine ⟨fun j todo => ?_⟩
  obtain ⟨j', hx⟩ := h j
  exact ⟨j', by simp only [Config.run, Config.step, List.cons_append, hx, Option.map_some,
    Config.followedBy, List.nil_append]⟩

/-- The driver takes the next job. -/
theorem plays_fetch {job : Job} {agenda : Agenda}
    (ha : g.engine.agenda.next? = some (job, agenda)) :
    Plays p 1 g [.drain 0] (g.fetch agenda) [.perform 0 job, .drain 0] := by
  refine .of_exec fun j => ?_
  simp only [Instr.exec, World.execDrain, Stage.world_engine, ha, Stage.world_setEngine]
  exact ⟨_, rfl⟩

variable {t : TaskId} {n : TaskNode} {body : Body} {nests : List Nest} {rest : List Frame}
  {stmts : List Stmt} {env : Env} {into : Option String}

theorem isLive_of {tasks : Tasks} (hn : tasks.get? t = some n) (hs : n.status.isTerminal = false) :
    tasks.isLive t = true := by
  simp only [Tasks.isLive, hn, hs, Bool.not_false]

/-- A script begins. -/
theorem plays_open {control : List Frame} :
    Plays p 1 g [.poll ⟨0, t⟩ (.script { control, env }) none] g
      [.advance ⟨0, t⟩ { control, env } {}] :=
  ⟨fun _ _ => ⟨_, rfl⟩⟩

/-- A script goes on with the answer to its effect. -/
theorem plays_answer {control : List Frame} {v : Value} :
    Plays p 1 g [.poll ⟨0, t⟩ (.script (sentBody control env into)) (some (.ok v))] g
      [.advance ⟨0, t⟩ (ScriptBody.bind { control, env } into v) {}] :=
  ⟨fun _ _ => ⟨_, rfl⟩⟩

/-- A script performs an effect. -/
theorem plays_perform {x : EffectExpr} {e : Effect} (t : TaskId) (stmts : List Stmt)
    (rest : List Frame) (into : Option String) (hb : 0 < g.budget)
    (hx : ∀ w : World, w.build env x = .ok e) :
    Plays p 1 g
      [.advance ⟨0, t⟩ { control := .block (.perform x into none :: stmts) :: rest, env } {}]
      g.spend [.polled ⟨0, t⟩ (.script (sentBody (.block stmts :: rest) env into)) (.yielded e)] := by
  refine .of_exec fun j => ?_
  simp only [Instr.exec, World.execAdvance, Stage.world_spend hb, Option.map_some,
    World.execStmt, hx, World.withEffects]
  exact ⟨_, rfl⟩

/-- A task leaves an effect to be run. -/
theorem plays_yield (body : Body) (e : Effect) (hl : g.engine.tasks.isLive t = true) :
    Plays p 1 g [.polled ⟨0, t⟩ body (.yielded e)] g [.trigger ⟨0, t⟩ body [] e] := by
  refine .of_exec fun j => ?_
  simp only [Instr.exec, World.execPolled, Stage.world_isHalted, hl]
  exact ⟨_, rfl⟩

/-- A dispatch is triggered. -/
theorem plays_trigger_dispatch {a : Action} (hl : g.engine.tasks.isLive t = true) :
    Plays p 1 g [.trigger ⟨0, t⟩ body nests (.put (.bus a))]
      ((g.issue ⟨t, Nest.link nests, .put⟩).queue (.dispatch a (some g.engine.nextEffect)))
      [.begun ⟨0, t⟩ body nests (.pending g.engine.nextEffect)] := by
  refine .of_exec fun j => ?_
  simp only [Instr.exec, World.execTrigger, Stage.world_isHalted, hl]
  exact ⟨_, rfl⟩

/-- A delay is triggered. -/
theorem plays_trigger_sleep {name : String} {ms : Nat} (hl : g.engine.tasks.isLive t = true) :
    Plays p 1 g [.trigger ⟨0, t⟩ body nests (.call name (.sleep ms))]
      (g.sleep t (Nest.link nests) ms) [.begun ⟨0, t⟩ body nests (.pending g.engine.nextEffect)] := by
  refine .of_exec fun j => ?_
  simp only [Instr.exec, World.execTrigger, Stage.world_isHalted, hl, World.startCall,
    World.awaitDeferred, World.suspend, Stage.world_record, Stage.world_setEngine,
    Stage.world_addTimer, Stage.world_insertWait, Stage.world_deferreds, Stage.setEngine,
    Stage.addTimer, Table.get?_insert, if_true, Deferred.subscribe]
  exact ⟨_, rfl⟩

theorem take_of_not_ended {b : Bus} {owner : TaskId} {pattern : Pattern} {effect : EffectId}
    (h : b.hasEnded owner = false) : b.take owner pattern effect =
      ⟨b.nextTaker, false,
        { b with
          nextTaker := b.nextTaker + 1
          takers := b.takers ++ [⟨b.nextTaker, owner, pattern, effect⟩] }⟩ := by
  have h' : Bus.hasEnded { b with nextTaker := b.nextTaker + 1 } owner = false := h
  simp only [Bus.take, h', Bool.false_eq_true, if_false]

/-- A take is triggered. -/
theorem plays_trigger_take {pattern : Pattern} (hl : g.engine.tasks.isLive t = true)
    (he : g.engine.bus.hasEnded t = false) :
    Plays p 1 g [.trigger ⟨0, t⟩ body nests (.take .bus pattern)]
      (g.take t (Nest.link nests) pattern)
      [.begun ⟨0, t⟩ body nests (.pending g.engine.nextEffect)] := by
  refine .of_exec fun j => ?_
  simp only [Instr.exec, World.execTrigger, Stage.world_isHalted, hl, World.startTake,
    Stage.world_record, Stage.world_setEngine, Stage.world_engine, Stage.setEngine,
    take_of_not_ended he]
  exact ⟨_, rfl⟩

/-- An effect of a task is pending: the task comes to rest. -/
theorem plays_begun_pending {id : EffectId} (hl : g.engine.tasks.isLive t = true) :
    Plays p 2 g [.begun ⟨0, t⟩ body [] (.pending id)] (g.rest t body (some id)) [] := by
  have hbegun : Plays p 1 g [.begun ⟨0, t⟩ body [] (.pending id)] g
      [.leave ⟨0, t⟩ body (.suspended id)] := by
    refine .of_exec fun j => ?_
    simp only [Instr.exec, World.execBegun, World.resumeBody, Stage.world_isHalted, hl]
    exact ⟨_, rfl⟩
  have hleave : Plays p 1 g [.leave ⟨0, t⟩ body (.suspended id)] (g.rest t body (some id)) [] :=
    ⟨fun _ _ => ⟨_, rfl⟩⟩
  exact hbegun.trans hleave

/-- The race of a take and a delay is triggered; both are pending. -/
theorem plays_trigger_race {k₁ k₂ name : String} {pattern : Pattern} {ms : Nat} (hk : k₁ ≠ k₂)
    (hl : g.engine.tasks.isLive t = true) (he : g.engine.bus.hasEnded t = false) :
    Plays p 5 g
      [.trigger ⟨0, t⟩ body [] (.race [(k₁, .take .bus pattern), (k₂, .call name (.sleep ms))])]
      (g.race t [k₁, k₂] pattern ms) [.begun ⟨0, t⟩ body [] (.pending g.engine.nextEffect)] := by
  let id := g.engine.nextEffect
  let g₁ := g.issue ⟨t, .task, .race (some [k₁, k₂]) [none, none]⟩
  let g₂ := (g₁.take t (.race id 0) pattern).setMember id 0 (id + 1)
  have hrace : Plays p 1 g
      [.trigger ⟨0, t⟩ body [] (.race [(k₁, .take .bus pattern), (k₂, .call name (.sleep ms))])] g₁
      [.trigger ⟨0, t⟩ body [.race id 0 [.call name (.sleep ms)]] (.take .bus pattern)] := by
    refine .of_exec fun j => ?_
    simp only [Instr.exec, World.execTrigger, Stage.world_isHalted, hl, World.startKeyedRace,
      Effect.duplicateKey?, List.map_cons, List.map_nil, Effect.duplicateKey?.go, List.contains_nil,
      List.contains_cons, beq_eq_false_iff_ne.2 hk.symm, Bool.or_false, Bool.false_eq_true, if_false]
    exact ⟨_, rfl⟩
  have hfirst : Plays p 1 (g₁.take t (.race id 0) pattern)
      [.begun ⟨0, t⟩ body [.race id 0 [.call name (.sleep ms)]] (.pending (id + 1))] g₂
      [.trigger ⟨0, t⟩ body [.race id 1 []] (.call name (.sleep ms))] :=
    ⟨fun _ _ => ⟨_, rfl⟩⟩
  have hsecond : Plays p 1 (g₂.sleep t (.race id 1) ms)
      [.begun ⟨0, t⟩ body [.race id 1 []] (.pending (id + 2))] (g.race t [k₁, k₂] pattern ms)
      [.begun ⟨0, t⟩ body [] (.pending id)] :=
    ⟨fun _ _ => ⟨_, rfl⟩⟩
  exact (((hrace.trans (plays_trigger_take hl he)).trans hfirst).trans
    (plays_trigger_sleep hl)).trans hsecond

/-- A task is forked; the forking one stands aside. -/
theorem plays_trigger_fork {saga : Saga} (hn : g.engine.tasks.get? t = some n)
    (hs : n.status.isTerminal = false) (hne : t ≠ g.engine.nextTask) :
    Plays p 3 g [.trigger ⟨0, t⟩ body [] (.fork saga false)]
      (((g.fork t saga).rest t body none).schedule
        (.resume t (.value (.task ⟨0, g.engine.nextTask, saga.name⟩)))) [] := by
  have hfork : Plays p 1 g [.trigger ⟨0, t⟩ body [] (.fork saga false)] (g.fork t saga)
      [.begun ⟨0, t⟩ body [] (.immediate (.value (.task ⟨0, g.engine.nextTask, saga.name⟩)))] := by
    refine .of_exec fun j => ?_
    simp only [Instr.exec, World.execTrigger, Stage.world_isHalted, isLive_of hn hs]
    exact ⟨_, rfl⟩
  have hlive : (g.fork t saga).engine.tasks.isLive t = true := by
    simp [Stage.fork, Stage.schedule, Stage.setTask, Stage.setEngine, Tasks.isLive, hne, hn, hs]
  have hbegun : Plays p 1 (g.fork t saga)
      [.begun ⟨0, t⟩ body [] (.immediate (.value (.task ⟨0, g.engine.nextTask, saga.name⟩)))]
      (g.fork t saga)
      [.leave ⟨0, t⟩ body (.yielded (.value (.task ⟨0, g.engine.nextTask, saga.name⟩)))] := by
    refine .of_exec fun j => ?_
    have hfresh : (g.fork t saga).engine.agenda.fresh.isEmpty = false := by
      simp [Stage.fork, Stage.schedule, Agenda.schedule, Stage.setEngine]
    simp only [Instr.exec, World.execBegun, World.resumeBody, Stage.world_isHalted, hlive,
      Stage.world_engine, hfresh]
    exact ⟨_, rfl⟩
  have hleave : Plays p 1 (g.fork t saga)
      [.leave ⟨0, t⟩ body (.yielded (.value (.task ⟨0, g.engine.nextTask, saga.name⟩)))]
      (((g.fork t saga).rest t body none).schedule
        (.resume t (.value (.task ⟨0, g.engine.nextTask, saga.name⟩)))) [] :=
    ⟨fun _ _ => ⟨_, rfl⟩⟩
  exact (hfork.trans hbegun).trans hleave

/-- A watcher makes a step. -/
theorem plays_poll_watcher {b : WatcherBody} {a : Option Answer} :
    Plays p 1 g [.poll ⟨0, t⟩ (.watcher b) a] g
      [.polled ⟨0, t⟩ (.watcher (b.resume a).1) (b.resume a).2] :=
  ⟨fun _ _ => ⟨_, rfl⟩⟩

/-! ## Turns -/

/-- A task is started. -/
theorem plays_start (hn : g.engine.tasks.get? t = some n) (hs : n.status.isTerminal = false)
    (hp : n.pending = none) (hb : n.body = some body) :
    Plays p 1 g [.perform 0 (.reaction (.start t))] (g.beginTurn t) [.poll ⟨0, t⟩ body none] := by
  refine .of_exec fun j => ?_
  simp only [Instr.exec, World.execPerform, World.beginTurn, Stage.world_task?, hn, hs, hp, hb]
  exact ⟨_, rfl⟩

/-- A task that stood aside goes on. -/
theorem plays_resume {v : Value} (hn : g.engine.tasks.get? t = some n)
    (hs : n.status.isTerminal = false) (hp : n.pending = none) (hb : n.body = some body) :
    Plays p 1 g [.perform 0 (.reaction (.resume t (.value v)))] (g.beginTurn t)
      [.poll ⟨0, t⟩ body (some (.ok v))] := by
  refine .of_exec fun j => ?_
  simp only [Instr.exec, World.execPerform, World.beginTurn, Stage.world_task?, hn, hs, hp, hb]
  exact ⟨_, rfl⟩

theorem settle_root {waits : Waits} {id : EffectId} {kind : WaitKind} (signal : Signal)
    (hw : waits.get? id = some ⟨t, .task, kind⟩) :
    waits.settle id signal = ⟨[.settled id signal], some ⟨t, id, signal⟩, waits.erase id⟩ := by
  simp only [Waits.settle, hw, Waits.climb, Waits.Climb.after, List.append_nil]

/-- A task goes on when its effect settles with a value. -/
theorem plays_settle {id : EffectId} {kind : WaitKind} {v : Value}
    (hw : g.engine.waits.get? id = some ⟨t, .task, kind⟩) (hn : g.engine.tasks.get? t = some n)
    (hs : n.status.isTerminal = false) (hp : n.pending = some id) (hb : n.body = some body) :
    Plays p 1 g [.perform 0 (.reaction (.settle id (.value v)))] ((g.settle id).beginTurn t)
      [.poll ⟨0, t⟩ body (some (.ok v))] := by
  refine .of_exec fun j => ?_
  simp only [Instr.exec, World.execPerform, World.settleWait, Stage.world_engine,
    settle_root _ hw, Stage.world_setWaits, World.passAll, List.foldl_cons, List.foldl_nil,
    World.pass, Stage.world_record, World.beginTurn, Stage.world_task?, Stage.setEngine, hn, hs, hp,
    hb, ne_eq, not_true_eq_false, decide_false, Bool.or_false, Bool.false_eq_true, if_false]
  exact ⟨_, rfl⟩

/-- A task ends when its effect ends. -/
theorem plays_settle_ended {id : EffectId} {kind : WaitKind}
    (hw : g.engine.waits.get? id = some ⟨t, .task, kind⟩) (hn : g.engine.tasks.get? t = some n)
    (hs : n.status.isTerminal = false) (hp : n.pending = some id) (hb : n.body = some body) :
    Plays p 1 g [.perform 0 (.reaction (.settle id .ended))] ((g.settle id).beginTurn t)
      [.leave ⟨0, t⟩ body .ended] := by
  refine .of_exec fun j => ?_
  simp only [Instr.exec, World.execPerform, World.settleWait, Stage.world_engine,
    settle_root _ hw, Stage.world_setWaits, World.passAll, List.foldl_cons, List.foldl_nil,
    World.pass, Stage.world_record, World.beginTurn, Stage.world_task?, Stage.setEngine, hn, hs, hp,
    hb, ne_eq, not_true_eq_false, decide_false, Bool.or_false, Bool.false_eq_true, if_false]
  exact ⟨_, rfl⟩

/-! ## Control -/

/-- A block is over. -/
theorem plays_block_end (g : Stage) (t : TaskId) (rest : List Frame) (env : Env) :
    Plays p 1 g [.advance ⟨0, t⟩ { control := .block [] :: rest, env } {}] g
      [.advance ⟨0, t⟩ { control := rest, env } {}] :=
  ⟨fun _ _ => ⟨_, rfl⟩⟩

/-- A counted loop is over. -/
theorem plays_loop_end (g : Stage) (t : TaskId) (block : List Stmt) (rest : List Frame) (env : Env) :
    Plays p 1 g [.advance ⟨0, t⟩ { control := .loop (some 0) block :: rest, env } {}] g
      [.advance ⟨0, t⟩ { control := rest, env } {}] :=
  ⟨fun _ _ => ⟨_, rfl⟩⟩

/-- A counted loop takes another turn. -/
theorem plays_loop (t : TaskId) (m : Nat) (block : List Stmt) (rest : List Frame) (env : Env)
    (hb : 0 < g.budget) :
    Plays p 1 g [.advance ⟨0, t⟩ { control := .loop (some (m + 1)) block :: rest, env } {}] g.spend
      [.advance ⟨0, t⟩ { control := .block block :: .loop (some m) block :: rest, env } {}] := by
  refine .of_exec fun j => ?_
  simp only [Instr.exec, World.execAdvance, Stage.world_spend hb, Option.map_some]
  exact ⟨_, rfl⟩

/-- A counted loop is entered. -/
theorem plays_repeat {m : Nat} {block : List Stmt} (hb : 0 < g.budget) :
    Plays p 1 g
      [.advance ⟨0, t⟩ { control := .block (.repeat (some m) block :: stmts) :: rest, env } {}]
      g.spend
      [.advance ⟨0, t⟩
        { control := .loop (some m) block :: .block stmts :: rest, env } {}] := by
  refine .of_exec fun j => ?_
  simp only [Instr.exec, World.execAdvance, Stage.world_spend hb, Option.map_some]
  exact ⟨_, rfl⟩

/-- A variable is assigned. -/
theorem plays_assign {x : Expr} {v : Value} (t : TaskId) (name : String) (stmts : List Stmt)
    (rest : List Frame) (hb : 0 < g.budget) (hx : ∀ w : World, w.eval env x = v) :
    Plays p 1 g
      [.advance ⟨0, t⟩ { control := .block (.assign name x none :: stmts) :: rest, env } {}]
      g.spend [.advance ⟨0, t⟩ { control := .block stmts :: rest, env := env.insert name v } {}] := by
  refine .of_exec fun j => ?_
  simp only [Instr.exec, World.execAdvance, Stage.world_spend hb, Option.map_some, World.execStmt,
    hx]
  exact ⟨_, rfl⟩

/-- A branch is chosen. -/
theorem plays_branch {test : Test} {b : Bool} (t : TaskId) (yes no stmts : List Stmt)
    (rest : List Frame) (hb : 0 < g.budget) (hx : ∀ w : World, w.holds env test = b) :
    Plays p 1 g
      [.advance ⟨0, t⟩ { control := .block (.ifThen test yes no :: stmts) :: rest, env } {}]
      g.spend
      [.advance ⟨0, t⟩
        { control := .block (if b then yes else no) :: .block stmts :: rest, env } {}] := by
  refine .of_exec fun j => ?_
  simp only [Instr.exec, World.execAdvance, Stage.world_spend hb, Option.map_some, World.execStmt,
    hx]
  exact ⟨_, rfl⟩

/-- The body of a script that is over. -/
def spentBody (env : Env) : Body := .script { control := [], env }

/-- A script comes to its end. -/
theorem plays_script_end :
    Plays p 2 g [.advance ⟨0, t⟩ { control := [], env } {}] g
      [.polled ⟨0, t⟩ (spentBody env) (.complete (.ok .unit))] :=
  ⟨fun _ _ => ⟨_, rfl⟩⟩

/-- A script returns. -/
theorem plays_return {x : Expr} {v : Value} (hb : 0 < g.budget)
    (hx : ∀ w : World, w.eval env x = v) :
    Plays p 2 g [.advance ⟨0, t⟩ { control := .block (.return x :: stmts) :: rest, env } {}] g.spend
      [.polled ⟨0, t⟩ (spentBody env) (.complete (.ok v))] := by
  have hreturn : Plays p 1 g
      [.advance ⟨0, t⟩ { control := .block (.return x :: stmts) :: rest, env } {}] g.spend
      [.guards [], .polled ⟨0, t⟩ (spentBody env) (.complete (.ok v))] := by
    refine .of_exec fun j => ?_
    simp only [Instr.exec, World.execAdvance, Stage.world_spend hb, Option.map_some,
      World.execStmt, hx]
    exact ⟨_, rfl⟩
  have hguards : Plays p 1 g.spend [.guards [], .polled ⟨0, t⟩ (spentBody env) (.complete (.ok v))]
      g.spend [.polled ⟨0, t⟩ (spentBody env) (.complete (.ok v))] :=
    ⟨fun _ _ => ⟨_, rfl⟩⟩
  exact hreturn.trans hguards

/-! ## The end of tasks -/

namespace Stage

/-- No task is within its step. -/
@[simp] def endTurn (g : Stage) : Stage := g.setEngine fun e => { e with current := none }

/-- A task leaves the table with its outcome. -/
@[simp] def retire (g : Stage) (t : TaskId) (outcome : Outcome) : Stage :=
  g.setEngine fun e =>
    { e with tasks := e.tasks.erase t, outcomes := e.outcomes.insert t outcome }

/-- The children of a task are these. -/
@[simp] def setChildren (g : Stage) (t : TaskId) (children : List TaskId) : Stage :=
  g.setTask t fun n => { n with children }

end Stage

/-- A body without guards is dropped. -/
theorem plays_drop (hg : body.guards = []) :
    Plays p 2 g [.dropBody ⟨0, t⟩ body] g [] := by
  have hdrop : Plays p 1 g [.dropBody ⟨0, t⟩ body] g [.guards []] := by
    refine .of_exec fun j => ?_
    simp only [Instr.exec, World.execDropBody, hg]
    exact ⟨_, rfl⟩
  have hguards : Plays p 1 g [.guards []] g [] := ⟨fun _ _ => ⟨_, rfl⟩⟩
  exact hdrop.trans hguards

/-- A body without guards that is over with a value. -/
theorem plays_complete (body : Body) (v : Value) (hl : g.engine.tasks.isLive t = true)
    (hg : body.guards = []) :
    Plays p 4 g [.polled ⟨0, t⟩ body (.complete (.ok v))] g.endTurn [.returned ⟨0, t⟩ v] := by
  have hpolled : Plays p 1 g [.polled ⟨0, t⟩ body (.complete (.ok v))] g
      [.leave ⟨0, t⟩ body (.finished (.ok v))] := by
    refine .of_exec fun j => ?_
    simp only [Instr.exec, World.execPolled, Stage.world_isHalted, hl]
    exact ⟨_, rfl⟩
  have hleave : Plays p 1 g [.leave ⟨0, t⟩ body (.finished (.ok v))] g.endTurn
      [.dropBody ⟨0, t⟩ body, .returned ⟨0, t⟩ v] :=
    ⟨fun _ _ => ⟨_, rfl⟩⟩
  exact (hpolled.trans hleave).trans ((plays_drop hg).below _)

theorem retire_setTask (f : TaskNode → TaskNode) (outcome : Outcome) :
    (g.setTask t f).retire t outcome = g.retire t outcome := by
  simp only [Stage.retire, Stage.setTask, Stage.setEngine, Table.erase_modify]

/-- A root task that nobody joins on leaves the table. -/
theorem world_finalize_root {v : Value} (j : List Entry) (hn : g.engine.tasks.get? t = some n)
    (hj : n.joiners = []) (hp : n.parent = none) :
    ∃ j', (g.world p j).finalize 0 t (.done v) = (none, (g.retire t (.done v)).world p j') := by
  simp only [World.finalize, Stage.world_task?, hn, hj, hp, List.foldl_nil]
  exact ⟨_, rfl⟩

/-- A child that nobody joins on leaves the table, and its parent may be complete. -/
theorem world_finalize_child {v : Value} {u : TaskId} {m : TaskNode} (j : List Entry)
    (hn : g.engine.tasks.get? t = some n) (hj : n.joiners = []) (hp : n.parent = some u)
    (hd : n.detached = false) (hm : g.engine.tasks.get? u = some m)
    (hu : m.status.isTerminal = false) (hne : u ≠ t) :
    ∃ j', (g.world p j).finalize 0 t (.done v) =
      (if m.result.isSome && (m.children.filter (· ≠ t)).isEmpty then some (.complete u) else none,
        ((g.retire t (.done v)).setChildren u (m.children.filter (· ≠ t))).world p j') := by
  have hparent : (g.retire t (.done v)).engine.tasks.get? u = some m := by
    simp [Stage.retire, Stage.setEngine, hne, hm]
  refine ⟨.event 0 (.taskFinished t (.done v)) :: j, ?_⟩
  have hstep : ((g.world p j).setEngine 0 fun e =>
      { e with tasks := e.tasks.erase t, outcomes := e.outcomes.insert t (.done v) }).wakeWatches
        ⟨0, t, n.name⟩ = (g.retire t (.done v)).world p j := rfl
  simp only [World.finalize, Stage.world_task?, hn, hj, hp, hd, List.foldl_nil, hstep,
    Stage.world_record, hparent, hu, Bool.false_eq_true, if_false]
  split <;> rfl

/-- A task that completes leaves the table. -/
theorem plays_cascade_root {v : Value} (hn : g.engine.tasks.get? t = some n)
    (hs : n.status.isTerminal = false) (hr : n.result = some v) (hj : n.joiners = [])
    (hp : n.parent = none) :
    Plays p 1 g [.cascade 0 (.complete t)] (g.retire t (.done v)) [] := by
  refine .of_exec fun j => ?_
  let g' := g.setTask t fun n => { n with result := none }
  have hn' : g'.engine.tasks.get? t = some { n with result := none } := by
    simp [g', Stage.setTask, Stage.setEngine, hn]
  obtain ⟨j', hf⟩ := world_finalize_root (p := p) (v := v) j hn' hj hp
  rw [retire_setTask] at hf
  refine ⟨j', ?_⟩
  simp only [Instr.exec, World.execCascade, Stage.world_task?, hn, hs, hr, Stage.world_setTask,
    Bool.false_eq_true, if_false]
  show some (World.cascadeOn 0 ((g'.world p j).finalize 0 t (.done v))) = _
  rw [hf]
  rfl

/-- A root task without children is over, and gone. -/
theorem plays_returned_root {v : Value} (hn : g.engine.tasks.get? t = some n)
    (hs : n.status.isTerminal = false) (hc : n.children = []) (hp : n.parent = none)
    (hj : n.joiners = []) :
    Plays p 2 g [.returned ⟨0, t⟩ v] (g.retire t (.done v)) [] := by
  let g' := g.setTask t fun n => { n with result := some v }
  have hn' : g'.engine.tasks.get? t = some { n with result := some v } := by
    simp [g', Stage.setTask, Stage.setEngine, hn]
  have hreturned : Plays p 1 g [.returned ⟨0, t⟩ v] g' [.cascade 0 (.complete t)] := by
    refine .of_exec fun j => ?_
    simp only [Instr.exec, World.execReturned, Stage.world_task?, hn, hs, hc, List.isEmpty_nil,
      Bool.false_eq_true, if_false, if_true]
    exact ⟨_, rfl⟩
  have hcascade := plays_cascade_root (p := p) hn' hs rfl hj hp
  rw [retire_setTask] at hcascade
  exact hreturned.trans hcascade

/-- A child without children is over, and gone; its parent may be complete. -/
theorem plays_returned_child {v : Value} {u : TaskId} {m : TaskNode}
    (hn : g.engine.tasks.get? t = some n) (hs : n.status.isTerminal = false)
    (hc : n.children = []) (hp : n.parent = some u) (hd : n.detached = false) (hj : n.joiners = [])
    (hm : g.engine.tasks.get? u = some m) (hu : m.status.isTerminal = false) (hne : u ≠ t) :
    Plays p 2 g [.returned ⟨0, t⟩ v] ((g.retire t (.done v)).setChildren u (m.children.filter (· ≠ t)))
      (if m.result.isSome && (m.children.filter (· ≠ t)).isEmpty then [.cascade 0 (.complete u)]
        else []) := by
  let g₁ := g.setTask t fun n => { n with result := some v }
  have hn₁ : g₁.engine.tasks.get? t = some { n with result := some v } := by
    simp [g₁, Stage.setTask, Stage.setEngine, hn]
  have hreturned : Plays p 1 g [.returned ⟨0, t⟩ v] g₁ [.cascade 0 (.complete t)] := by
    refine .of_exec fun j => ?_
    simp only [Instr.exec, World.execReturned, Stage.world_task?, hn, hs, hc, List.isEmpty_nil,
      Bool.false_eq_true, if_false, if_true]
    exact ⟨_, rfl⟩
  let g₂ := g₁.setTask t fun n => { n with result := none }
  have hn₂ : g₂.engine.tasks.get? t = some { n with result := none } := by
    simp [g₂, Stage.setTask, Stage.setEngine, hn₁]
  have hm₂ : g₂.engine.tasks.get? u = some m := by
    simp [g₂, g₁, Stage.setTask, Stage.setEngine, hne, hm]
  refine hreturned.trans (.of_exec fun j => ?_)
  obtain ⟨j', hf⟩ := world_finalize_child (p := p) (v := v) j hn₂ hj hp hd hm₂ hu hne
  rw [retire_setTask, retire_setTask] at hf
  refine ⟨j', ?_⟩
  simp only [Instr.exec, World.execCascade, Stage.world_task?, hn₁, hs, Stage.world_setTask,
    Bool.false_eq_true, if_false]
  show some (World.cascadeOn 0 ((g₂.world p j).finalize 0 t (.done v))) = _
  rw [hf]
  cases m.result.isSome && (m.children.filter (· ≠ t)).isEmpty <;> rfl

/-- A task with children holds its value. -/
theorem plays_returned_held {v : Value} (hn : g.engine.tasks.get? t = some n)
    (hs : n.status.isTerminal = false) (hc : n.children ≠ []) :
    Plays p 1 g [.returned ⟨0, t⟩ v]
      (g.setTask t fun n => { n with result := some v, status := .suspended }) [] := by
  refine .of_exec fun j => ?_
  have hc' : n.children.isEmpty = false := by simpa using hc
  simp only [Instr.exec, World.execReturned, Stage.world_task?, hn, hs, hc', Bool.false_eq_true,
    if_false]
  exact ⟨_, rfl⟩

/-! ## Errands -/

namespace Stage

/-- The host counts an action. -/
@[simp] def count (g : Stage) (kind : String) : Stage :=
  { g with
    pings := if kind = "PING" then g.pings + 1 else g.pings
    pongs := if kind = "PONG" then g.pongs + 1 else g.pongs
    timeouts := if kind = "TIMEOUT" then g.timeouts + 1 else g.timeouts }

/-- Reactions are scheduled. -/
@[simp] def scheduleAll (g : Stage) (rs : List Reaction) : Stage :=
  g.setEngine fun e => { e with agenda := { e.agenda with fresh := e.agenda.fresh ++ rs } }

/-- The takers that an action wakes leave the bus, and the others are kept. -/
@[simp] def wake (g : Stage) (woken kept : List BusTaker) (a : Action) : Stage :=
  (g.setEngine fun e => { e with bus := { e.bus with takers := kept } }).scheduleAll
    (woken.map fun t => .settle t.effect (.value (.action a)))

end Stage

theorem world_scheduleEach (a : Action) (woken : List BusTaker) (g : Stage) (j : List Entry) :
    woken.foldl (fun w t => w.schedule 0 (.settle t.effect (.value (.action a)))) (g.world p j) =
      (g.scheduleAll (woken.map fun t => .settle t.effect (.value (.action a)))).world p j := by
  induction woken generalizing g with
  | nil =>
    simp only [List.foldl_nil, List.map_nil, Stage.scheduleAll, Stage.setEngine, List.append_nil]
  | cons t ts ih =>
    rw [List.foldl_cons, Stage.world_schedule, ih]
    simp only [Stage.scheduleAll, Stage.setEngine, Agenda.schedule, List.map_cons,
      List.append_assoc, List.cons_append, List.nil_append]

/-- The greatest number of rounds. -/
def maxRounds : Nat := 65535

theorem signed_ofNat {n : Nat} (hn : n ≤ maxRounds) : (Json.ofNat n).signed? = some (n : Int) := by
  have hmax : (n : Int) ≤ 65535 := Int.ofNat_le.2 hn
  have hlo : Number.minInt ≤ (n : Int) := by
    show (-9223372036854775808 : Int) ≤ n
    omega
  have hhi : (n : Int) ≤ Number.maxSigned := by
    show (n : Int) ≤ 9223372036854775807
    omega
  exact if_pos ⟨hlo, hhi⟩

theorem countUp_eq (key : String) {fields : List (String × Json)} {n : Nat} (hn : n ≤ maxRounds)
    (hf : fields.lookup key = some (.ofNat n)) :
    Host.countUp key fields = Json.insertField key (.ofNat (n + 1)) fields := by
  simp only [Host.countUp, hf, Option.bind_some, signed_ofNat hn]
  rfl

/-- The host counts the three types of actions. -/
theorem reduce_host {a : Action} (ha : a.kind = "PING" ∨ a.kind = "PONG" ∨ a.kind = "TIMEOUT")
    (hi : g.pings ≤ maxRounds) (ho : g.pongs ≤ maxRounds) (ht : g.timeouts ≤ maxRounds) :
    g.middleware.host.reduce a = (g.count a.kind).middleware.host := by
  obtain ⟨kind, payload⟩ := a
  let fields := tallies g.pings g.pongs g.timeouts
  have hcount {key : String} {fields' : List (String × Json)}
      (hc : Host.countUp key fields = fields') :
      ({ rules := host.rules, state := .json (.obj (Host.countUp key fields)) } : Host) =
        { rules := host.rules, state := .json (.obj fields') } := by
    rw [hc]
  rcases ha with rfl | rfl | rfl
  · exact hcount (countUp_eq "pings" hi rfl)
  · exact hcount (countUp_eq "pongs" ho rfl)
  · exact hcount (countUp_eq "timeouts" ht rfl)

/-- An action passes the host, and the effect that sent it settles. -/
theorem plays_errand {a : Action} {id : EffectId} {woken kept : List BusTaker}
    (ha : a.kind = "PING" ∨ a.kind = "PONG" ∨ a.kind = "TIMEOUT")
    (hi : g.pings ≤ maxRounds) (ho : g.pongs ≤ maxRounds) (ht : g.timeouts ≤ maxRounds)
    (hbus : g.engine.bus.broadcast a = ⟨woken, kept, []⟩) :
    Plays p 4 g [.perform 0 (.errand (.dispatch a (some id)))]
      (((g.count a.kind).wake woken kept a).schedule (.settle id (.value .unit))) [] := by
  have hrule : (g.middleware.host.ruleFor a).ops = [] ∧ (g.middleware.host.ruleFor a).fail = none := by
    obtain ⟨kind, payload⟩ := a
    rcases ha with rfl | rfl | rfl <;> exact ⟨rfl, rfl⟩
  have hemit : Plays p 3 g [.perform 0 (.errand (.dispatch a (some id)))] g
      [.forwarded 0 a (.effect id)] := by
    have hperform : Plays p 1 g [.perform 0 (.errand (.dispatch a (some id)))] g
        [.emit 0 a (.effect id)] := ⟨fun _ _ => ⟨_, rfl⟩⟩
    have hops : Plays p 1 g [.emit 0 a (.effect id)] g
        [.ops (World.hostEnv a) [], .forwarded 0 a (.effect id)] := by
      refine .of_exec fun j => ?_
      have hmw : (g.world p j).middlewares.get? 0 = some g.middleware := rfl
      simp only [Instr.exec, World.execEmit, hmw, hrule.1]
      exact ⟨_, rfl⟩
    have hnone : Plays p 1 g [.ops (World.hostEnv a) [], .forwarded 0 a (.effect id)] g
        [.forwarded 0 a (.effect id)] := ⟨fun _ _ => ⟨_, rfl⟩⟩
    exact (hperform.trans hops).trans hnone
  refine hemit.trans (.of_exec fun j => ?_)
  have hmw : (g.world p j).middlewares.get? 0 = some g.middleware := rfl
  have hreduce : (g.world p j).reduceHost 0 a = (g.count a.kind).world p j := by
    have hhost := reduce_host ha hi ho ht
    show ({ g.world p j with middlewares :=
      ⟨[(0, { g.middleware with host := g.middleware.host.reduce a })]⟩ } : World) = _
    rw [hhost]
    rfl
  have hbus' : (g.count a.kind).engine.bus.broadcast a = ⟨woken, kept, []⟩ := hbus
  simp only [Instr.exec, World.execForwarded, hmw, hrule.2, ite_self, hreduce, World.broadcast,
    Stage.world_engine, hbus', World.enterNotes, List.foldl_nil, Stage.world_setEngine,
    world_scheduleEach]
  exact ⟨_, rfl⟩

/-! ## The race of a round -/

/-- The effects of a race of a take and a delay, and what they hold. -/
structure RaceIds where
  race : EffectId
  take : EffectId
  delay : EffectId
  taker : TakerId
  timer : TimerId

/-- A task is parked on a race of a take and a delay. -/
structure Stage.Races (g : Stage) (t : TaskId) (keys : List String) (r : RaceIds) : Prop where
  race : g.engine.waits.get? r.race =
    some ⟨t, .task, .race (some keys) [some r.take, some r.delay]⟩
  take : g.engine.waits.get? r.take = some ⟨t, .race r.race 0, .take .bus r.taker⟩
  delay : g.engine.waits.get? r.delay = some ⟨t, .race r.race 1, .call r.timer⟩

namespace Stage

/-- The race is decided by its take: the timer is stopped. -/
@[simp] def decideByTake (g : Stage) (r : RaceIds) : Stage :=
  { g.setEngine fun e => { e with waits := ((e.waits.erase r.take).erase r.race).erase r.delay } with
    deferreds := g.deferreds.modify r.timer fun _ => {}
    timers := g.timers.filter fun t => t.id ≠ r.timer }

/-- The race is decided by its delay: the taker leaves the bus. -/
@[simp] def decideByDelay (g : Stage) (r : RaceIds) : Stage :=
  g.setEngine fun e =>
    { e with
      waits := ((e.waits.erase r.delay).erase r.race).erase r.take
      bus := e.bus.cancelTaker r.taker }

end Stage

variable {r : RaceIds} {k₁ k₂ : String}

theorem detach_leaf {waits : Waits} {id : EffectId} {wait : Wait} (hw : waits.get? id = some wait)
    (hm : wait.kind.members = []) : waits.detach [id] = ([.withdrawn id wait], waits.erase id) := by
  rw [Waits.detach]
  split
  · rename_i hnone
    cases hnone.symm.trans hw
  · rename_i wait' hsome
    cases hsome.symm.trans hw
    simp only [hm, List.reverse_nil, List.append_nil, Waits.detach]

theorem detach_absent {waits : Waits} {id : EffectId} (hw : waits.get? id = none) :
    waits.detach [id] = ([], waits) := by
  rw [Waits.detach]
  split
  · simp only [Waits.detach]
  · rename_i wait' hsome
    cases hsome.symm.trans hw

/-- A signal climbs to a race at the root, which closes. -/
theorem climb_race {waits : Waits} {task member race : EffectId} {slot : Nat} {keys : List String}
    {members : List (Option EffectId)} (v : Value)
    (hw : waits.get? race = some ⟨t, .task, .race (some keys) members⟩) :
    waits.climb task member (.race race slot) (.value v) =
      let r := Waits.detachEach (waits.erase race) (members.filterMap id)
      let value := .value (.map [((keys[slot]?).getD "", v)])
      ⟨r.1 ++ [.settled race value], some ⟨t, race, value⟩, r.2⟩ := by
  rw [Waits.climb]
  split
  · rename_i hnone
    cases hnone.symm.trans hw
  · rename_i wait hsome
    cases hsome.symm.trans hw
    simp only [Waits.closeRace, WaitKind.members, Waits.raceResult, Waits.climb, Waits.Climb.after,
      List.append_nil]

namespace Stage.Races

theorem distinct (h : g.Races t [k₁, k₂] r) :
    r.take ≠ r.race ∧ r.delay ≠ r.race ∧ r.take ≠ r.delay := by
  refine ⟨fun he => ?_, fun he => ?_, fun he => ?_⟩
  · have htake := h.take
    rw [he, h.race] at htake
    cases htake
  · have hdelay := h.delay
    rw [he, h.race] at hdelay
    cases hdelay
  · have htake := h.take
    rw [he, h.delay] at htake
    cases htake

end Stage.Races

/-- The take of a race settles first. -/
theorem plays_settle_take {v : Value} (hr : g.Races t [k₁, k₂] r)
    (hd : g.deferreds.get? r.timer = some { timer := some r.timer, listener := some ⟨0, r.delay⟩ })
    (hn : g.engine.tasks.get? t = some n) (hs : n.status.isTerminal = false)
    (hp : n.pending = some r.race) (hb : n.body = some body) :
    Plays p 1 g [.perform 0 (.reaction (.settle r.take (.value v)))]
      ((g.decideByTake r).beginTurn t) [.poll ⟨0, t⟩ body (some (.ok (.map [(k₁, v)])))] := by
  obtain ⟨htr, hdr, htd⟩ := hr.distinct
  have hsettle : g.engine.waits.settle r.take (.value v) =
      ⟨[.settled r.take (.value v), .withdrawn r.delay ⟨t, .race r.race 1, .call r.timer⟩,
        .settled r.race (.value (.map [(k₁, v)]))], some ⟨t, r.race, .value (.map [(k₁, v)])⟩,
        ((g.engine.waits.erase r.take).erase r.race).erase r.delay⟩ := by
    have hrace : (g.engine.waits.erase r.take).get? r.race =
        some ⟨t, .task, .race (some [k₁, k₂]) [some r.take, some r.delay]⟩ := by
      rw [Table.get?_erase, if_neg htr.symm, hr.race]
    have hgone : ((g.engine.waits.erase r.take).erase r.race).get? r.take = none := by
      rw [Table.get?_erase, if_neg htr, Table.get?_erase, if_pos rfl]
    have hdelay : ((g.engine.waits.erase r.take).erase r.race).get? r.delay =
        some ⟨t, .race r.race 1, .call r.timer⟩ := by
      rw [Table.get?_erase, if_neg hdr, Table.get?_erase, if_neg htd.symm, hr.delay]
    have hmembers : [some r.take, some r.delay].filterMap id = [r.take, r.delay] := rfl
    simp only [Waits.settle, hr.take, climb_race v hrace, hmembers, Waits.detachEach,
      detach_absent hgone, detach_leaf hdelay rfl, Waits.Climb.after]
    rfl
  refine .of_exec fun j => ?_
  have htask : (g.decideByTake r).engine.tasks.get? t = some n := hn
  have hpass : ((g.world p j).settleWait 0 r.take (.value v)) =
      (some ⟨t, r.race, .value (.map [(k₁, v)])⟩, (g.decideByTake r).world p
        (.event 0 (.settled r.race (.value (.map [(k₁, v)]))) :: .event 0 (.withdrawn r.delay) ::
          .event 0 (.settled r.take (.value v)) :: j)) := by
    simp only [World.settleWait, Stage.world_engine, hsettle, Stage.world_setWaits, World.passAll,
      List.foldl_cons, List.foldl_nil, World.pass, Stage.world_record, World.deregister,
      World.unsubscribe, Stage.world_deferreds, Stage.setEngine, hd]
    rfl
  simp only [Instr.exec, World.execPerform, hpass, World.beginTurn, Stage.world_task?, htask, hs, hp,
    hb, ne_eq, not_true_eq_false, decide_false, Bool.or_false, Bool.false_eq_true, if_false]
  exact ⟨_, rfl⟩

/-- The delay of a race settles first. -/
theorem plays_settle_delay {v : Value} (hr : g.Races t [k₁, k₂] r)
    (hn : g.engine.tasks.get? t = some n) (hs : n.status.isTerminal = false)
    (hp : n.pending = some r.race) (hb : n.body = some body) :
    Plays p 1 g [.perform 0 (.reaction (.settle r.delay (.value v)))]
      ((g.decideByDelay r).beginTurn t) [.poll ⟨0, t⟩ body (some (.ok (.map [(k₂, v)])))] := by
  obtain ⟨htr, hdr, htd⟩ := hr.distinct
  have hsettle : g.engine.waits.settle r.delay (.value v) =
      ⟨[.settled r.delay (.value v), .withdrawn r.take ⟨t, .race r.race 0, .take .bus r.taker⟩,
        .settled r.race (.value (.map [(k₂, v)]))], some ⟨t, r.race, .value (.map [(k₂, v)])⟩,
        ((g.engine.waits.erase r.delay).erase r.race).erase r.take⟩ := by
    have hrace : (g.engine.waits.erase r.delay).get? r.race =
        some ⟨t, .task, .race (some [k₁, k₂]) [some r.take, some r.delay]⟩ := by
      rw [Table.get?_erase, if_neg hdr.symm, hr.race]
    have htake : ((g.engine.waits.erase r.delay).erase r.race).get? r.take =
        some ⟨t, .race r.race 0, .take .bus r.taker⟩ := by
      rw [Table.get?_erase, if_neg htr, Table.get?_erase, if_neg htd, hr.take]
    have hgone : (((g.engine.waits.erase r.delay).erase r.race).erase r.take).get? r.delay =
        none := by
      rw [Table.get?_erase, if_neg htd.symm, Table.get?_erase, if_neg hdr, Table.get?_erase,
        if_pos rfl]
    have hmembers : [some r.take, some r.delay].filterMap id = [r.take, r.delay] := rfl
    simp only [Waits.settle, hr.delay, climb_race v hrace, hmembers, Waits.detachEach,
      detach_leaf htake rfl, detach_absent hgone, Waits.Climb.after]
    rfl
  refine .of_exec fun j => ?_
  have htask : (g.decideByDelay r).engine.tasks.get? t = some n := hn
  have hpass : ((g.world p j).settleWait 0 r.delay (.value v)) =
      (some ⟨t, r.race, .value (.map [(k₂, v)])⟩, (g.decideByDelay r).world p
        (.event 0 (.settled r.race (.value (.map [(k₂, v)]))) :: .event 0 (.withdrawn r.take) ::
          .event 0 (.settled r.delay (.value v)) :: j)) := by
    simp only [World.settleWait, Stage.world_engine, hsettle, Stage.world_setWaits, World.passAll,
      List.foldl_cons, List.foldl_nil, World.pass, Stage.world_record, World.deregister,
      Stage.world_setEngine]
    rfl
  simp only [Instr.exec, World.execPerform, hpass, World.beginTurn, Stage.world_task?, htask, hs, hp,
    hb, ne_eq, not_true_eq_false, decide_false, Bool.or_false, Bool.false_eq_true, if_false]
  exact ⟨_, rfl⟩

end Session

end SagaMachine
