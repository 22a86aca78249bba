import SagaMachine.Proofs.Stages

/-!
# The jobs of a session

The driver works off one job after the other, and in a session there are few kinds of them: a
worker is started, wakes up, and ends; the watcher takes a PING and takes again; the pinger sends
a PING, waits, and counts; the host sees an action. Each job has a lemma on the stage that it
leads to.
-/

namespace SagaMachine

namespace Session

variable {p : Session} {g : Stage} {t u : TaskId} {e : EffectId} {d : TimerId} {n : TaskNode}
  {kind : WaitKind} {env : Env} {into : Option String} {rest : List Frame} {stmts : List Stmt}
  {agenda : Agenda} {a : Action}

/-! ## Who is there -/

/-- The statements of a worker after its delay. -/
def sendPong : Stmt :=
  .perform (.dispatch { kind := "PONG", payload := .payload (.var "action") }) none none

/-- The statements of a round after the PING. -/
def awaitPong (timeout : Nat) : Stmt :=
  .perform
    (.race [("pong", .take none (.type "PONG")), ("timeout", .delay (.json (.ofNat timeout)))])
    (some "winner") none

/-- The statements of a round after the race. -/
def judge : Stmt :=
  .ifThen (.has (.var "winner") "timeout")
    [.perform (.dispatch { kind := "TIMEOUT", payload := .var "round" }) none none]
    [.assign "answered" (.add (.var "answered") 1) none]

/-- The control of the pinger between two rounds. -/
def loopControl (p : Session) (left : Nat) : List Frame :=
  [.loop (some left) (pingRound p.timeout), .block [.return (.var "answered")]]

/-- A worker that waits for an effect. -/
def workerNode (control : List Frame) (env : Env) (e : EffectId) : TaskNode :=
  { name := "pong", parent := some 1, detached := false, status := .suspended
    body := some (.script (sentBody control env none)), pending := some e }

/-- The pinger, waiting for an effect. -/
def pingerNode (control : List Frame) (env : Env) (into : Option String) (e : EffectId) :
    TaskNode :=
  { name := "pinger", parent := none, detached := false, status := .suspended
    body := some (.script (sentBody control env into)), pending := some e }

/-- The plan of the watcher. -/
def plan (p : Session) : WatchPlan :=
  { mode := .every, pattern := .type "PING", worker := "pong", body := pong p.base
    env := .ofList [] }

/-- The watcher, in some phase. -/
def watcherNode (p : Session) (crew : List TaskId) (phase : WatchPhase) (pending : Option EffectId) :
    TaskNode :=
  { name := "take_every", parent := none, detached := false, children := crew
    status := .suspended, body := some (.watcher { plan := plan p, phase }), pending }

/-- The watcher after the end of the bus, while there are workers. -/
def heldNode (crew : List TaskId) (pending : Option EffectId) : TaskNode :=
  { name := "take_every", parent := none, detached := false, children := crew
    status := .suspended, body := none, pending, result := some .unit }

/-! ## Workers -/

/-- A task comes to rest on the dispatch of an action. -/
@[simp] def Stage.post (g : Stage) (t : TaskId) (s : ScriptBody) (a : Action) : Stage :=
  ((g.spend.issue ⟨t, .task, .put⟩).queue (.dispatch a (some g.engine.nextEffect))).rest t
    (.script s) (some g.engine.nextEffect)

theorem plays_post {x : ActionExpr} (stmts : List Stmt) (rest : List Frame) (into : Option String)
    (hb : 0 < g.budget) (hl : g.engine.tasks.isLive t = true) (ha : ∀ w : World, w.evalAction env x = a) :
    Plays p 5 g
      [.advance ⟨0, t⟩
        { control := .block (.perform (.dispatch x) into none :: stmts) :: rest, env } {}]
      (g.post t (sentBody (.block stmts :: rest) env into) a) [] := by
  have hx (w : World) : w.build env (.dispatch x) = .ok (.put (.bus a)) := by
    simp only [World.build, ha]
  exact (((plays_perform t stmts rest into hb hx).trans (plays_yield _ _ hl)).trans (plays_trigger_dispatch hl)).trans
    (plays_begun_pending hl)

/-- The answer of a worker. -/
def pongOf (env : Env) : Action :=
  World.evalAction {} env { kind := "PONG", payload := .payload (.var "action") }

theorem evalAction_pong (w : World) :
    w.evalAction env { kind := "PONG", payload := .payload (.var "action") } = pongOf env := by
  simp only [World.evalAction, World.eval, pongOf]

/-- A worker that slept has sent its PONG. -/
@[simp] def Stage.answered (g : Stage) (agenda : Agenda) (t : TaskId) (e : EffectId) (env : Env) : Stage :=
  (((g.fetch agenda).settle e).beginTurn t).post t (sentBody [.block []] env none) (pongOf env)

theorem plays_answered
    (ha : g.engine.agenda.next? = some (.reaction (.settle e (.value .unit)), agenda))
    (hw : g.engine.waits.get? e = some ⟨t, .task, kind⟩)
    (hn : g.engine.tasks.get? t = some (workerNode [.block [sendPong]] env e))
    (hb : 0 < g.budget) :
    Plays p 8 g [.drain 0] (g.answered agenda t e env) [.drain 0] := by
  let g' := ((g.fetch agenda).settle e).beginTurn t
  have hl : g'.engine.tasks.isLive t = true := by
    simp [g', Tasks.isLive, hn, workerNode, Status.isTerminal]
  have hwake := (plays_fetch (p := p) ha).trans
    ((plays_settle (g := g.fetch agenda) (v := .unit) hw hn rfl rfl rfl).below _)
  exact (hwake.trans (plays_answer.below _)).trans
    ((plays_post (g := g') [] [] none hb hl evalAction_pong).below _)

/-- A worker whose PONG was seen is over. -/
@[simp] def Stage.relieved (g : Stage) (agenda : Agenda) (t : TaskId) (e : EffectId)
    (crew : List TaskId) : Stage :=
  ((((g.fetch agenda).settle e).beginTurn t).endTurn.retire t (.done .unit)).setChildren 1
    (crew.filter (· ≠ t))

theorem plays_relieved {m : TaskNode}
    (ha : g.engine.agenda.next? = some (.reaction (.settle e (.value .unit)), agenda))
    (hw : g.engine.waits.get? e = some ⟨t, .task, kind⟩)
    (hn : g.engine.tasks.get? t = some (workerNode [.block []] env e))
    (hm : g.engine.tasks.get? 1 = some m) (hs : m.status.isTerminal = false) (hne : t ≠ 1) :
    Plays p 12 g [.drain 0] (g.relieved agenda t e m.children)
      ((if m.result.isSome && (m.children.filter (· ≠ t)).isEmpty then
        [.cascade 0 (.complete 1)] else []) ++ [.drain 0]) := by
  let g' := ((g.fetch agenda).settle e).beginTurn t
  have hl : g'.engine.tasks.isLive t = true := by
    simp [g', Tasks.isLive, hn, workerNode, Status.isTerminal]
  have hn' : g'.endTurn.engine.tasks.get? t =
      some { workerNode [.block []] env e with body := none, status := .running } := by
    simp [g', hn, workerNode]
  have hm' : g'.endTurn.engine.tasks.get? 1 = some m := by
    simp [g', hm, hne.symm]
  have hwake := ((plays_fetch (p := p) ha).trans
    ((plays_settle (g := g.fetch agenda) (v := .unit) hw hn rfl rfl rfl).below _)).trans
      (plays_answer.below _)
  have hend := ((plays_block_end (p := p) g' t [] env).trans plays_script_end).trans
    (plays_complete _ _ hl rfl)
  exact (hwake.trans (hend.below _)).trans
    ((plays_returned_child hn' rfl rfl rfl rfl rfl hm' hs hne.symm).below _)

/-- A worker that was just forked. -/
def freshNode (p : Session) (env : Env) : TaskNode :=
  { name := "pong", parent := some 1, detached := false
    body := some (.script { control := [.block (pong p.base)], env }) }

/-- How long a worker sleeps. -/
def latency (p : Session) (env : Env) : Nat :=
  (World.integerOf (World.eval {} env
    (.mul (.json (.ofNat p.base)) (.mul (.payload (.var "action")) (.payload (.var "action")))))).toNat

/-- A worker sleeps. -/
@[simp] def Stage.napping (g : Stage) (agenda : Agenda) (t : TaskId) (env : Env) (ms : Nat) : Stage :=
  let g' := (g.fetch agenda).beginTurn t
  (g'.spend.sleep t .task ms).rest t (.script (sentBody [.block [sendPong]] env none))
    (some g.engine.nextEffect)

theorem plays_napping (ha : g.engine.agenda.next? = some (.reaction (.start t), agenda))
    (hn : g.engine.tasks.get? t = some (freshNode p env)) (hb : 0 < g.budget) :
    Plays p 8 g [.drain 0] (g.napping agenda t env (latency p env)) [.drain 0] := by
  let g' := (g.fetch agenda).beginTurn t
  have hl : g'.engine.tasks.isLive t = true := by
    simp [g', Tasks.isLive, hn, freshNode, Status.isTerminal]
  have hx (w : World) : w.build env (.delay (.mul (.json (.ofNat p.base))
      (.mul (.payload (.var "action")) (.payload (.var "action"))))) =
        .ok (.call "delay" (.sleep (latency p env))) := by
    simp only [World.build, World.eval, latency]
  have hs : g'.spend.engine.tasks.isLive t = true := hl
  have hl' : (g'.spend.sleep t .task (latency p env)).engine.tasks.isLive t = true := hl
  have hopen := ((plays_fetch (p := p) ha).trans
    ((plays_start (g := g.fetch agenda) hn rfl rfl rfl).below _)).trans (plays_open.below _)
  have hsleep := ((plays_perform (p := p) (g := g') t [sendPong] [] none hb hx).trans
    (plays_yield _ _ hs)).trans
    ((plays_trigger_sleep hs).trans (plays_begun_pending hl'))
  exact hopen.trans (hsleep.below _)

/-! ## The watcher -/

/-- The watcher has forked a worker for an action. -/
@[simp] def Stage.forking (g : Stage) (agenda : Agenda) (e : EffectId) (a : Action) : Stage :=
  let g' := ((g.fetch agenda).settle e).beginTurn 1
  ((g'.fork 1 ((plan p).workerFor a)).rest 1 (.watcher { plan := plan p, phase := .forking })
    none).schedule (.resume 1 (.value (.task ⟨0, g.engine.nextTask, "pong"⟩)))

theorem plays_forking {crew : List TaskId}
    (ha : g.engine.agenda.next? = some (.reaction (.settle e (.value (.action a))), agenda))
    (hw : g.engine.waits.get? e = some ⟨1, .task, kind⟩)
    (hn : g.engine.tasks.get? 1 = some (watcherNode p crew .taking (some e)))
    (hne : 1 ≠ g.engine.nextTask) :
    Plays p 7 g [.drain 0] (g.forking (p := p) agenda e a) [.drain 0] := by
  let g' := ((g.fetch agenda).settle e).beginTurn 1
  have hn' : g'.engine.tasks.get? 1 =
      some { watcherNode p crew .taking (some e) with body := none, status := .running } := by
    simp [g', hn, watcherNode]
  have hl : g'.engine.tasks.isLive 1 = true := isLive_of hn' rfl
  have hwake := ((plays_fetch (p := p) ha).trans
    ((plays_settle (g := g.fetch agenda) (v := .action a) hw hn rfl rfl rfl).below _)).trans
      (plays_poll_watcher.below _)
  have hfork := (plays_yield (p := p) (g := g') (.watcher { plan := plan p, phase := .forking })
    (.fork ((plan p).workerFor a) false) hl).trans
      (plays_trigger_fork hn' rfl hne)
  exact hwake.trans (hfork.below _)

/-- The watcher takes again. -/
@[simp] def Stage.listening (g : Stage) (p : Session) (agenda : Agenda) : Stage :=
  (((g.fetch agenda).beginTurn 1).take 1 .task (.type "PING")).rest 1
    (.watcher { plan := plan p, phase := .taking }) (some g.engine.nextEffect)

theorem plays_listening {crew : List TaskId} {child : TaskRef}
    (ha : g.engine.agenda.next? = some (.reaction (.resume 1 (.value (.task child))), agenda))
    (hn : g.engine.tasks.get? 1 = some (watcherNode p crew .forking none))
    (he : g.engine.bus.hasEnded 1 = false) :
    Plays p 7 g [.drain 0] (g.listening p agenda) [.drain 0] := by
  let g' := (g.fetch agenda).beginTurn 1
  have hn' : g'.engine.tasks.get? 1 =
      some { watcherNode p crew .forking none with body := none, status := .running } := by
    simp [g', hn, watcherNode]
  have hl : g'.engine.tasks.isLive 1 = true := isLive_of hn' rfl
  have hl' : (g'.take 1 .task (.type "PING")).engine.tasks.isLive 1 = true := hl
  have hwake := ((plays_fetch (p := p) ha).trans
    ((plays_resume (g := g.fetch agenda) (v := .task child) hn rfl rfl rfl).below _)).trans
      (plays_poll_watcher.below _)
  have htake := ((plays_yield (p := p) (g := g') (.watcher { plan := plan p, phase := .taking })
    (.take .bus (.type "PING")) hl).trans (plays_trigger_take hl he)).trans (plays_begun_pending hl')
  exact hwake.trans (htake.below _)

/-! ## The host -/

/-- An action was seen by the host and by the takers. -/
@[simp] def Stage.passed (g : Stage) (agenda : Agenda) (a : Action) (id : EffectId)
    (woken kept : List BusTaker) : Stage :=
  (((g.fetch agenda).count a.kind).wake woken kept a).schedule (.settle id (.value .unit))

theorem plays_passed {id : EffectId} {woken kept : List BusTaker}
    (ha : g.engine.agenda.next? = some (.errand (.dispatch a (some id)), agenda))
    (hk : a.kind = "PING" ∨ a.kind = "PONG" ∨ a.kind = "TIMEOUT")
    (hi : g.pings ≤ maxRounds) (ho : g.pongs ≤ maxRounds) (ht : g.timeouts ≤ maxRounds)
    (hbus : g.engine.bus.broadcast a = ⟨woken, kept, []⟩) :
    Plays p 5 g [.drain 0] (g.passed agenda a id woken kept) [.drain 0] :=
  (plays_fetch ha).trans ((plays_errand (g := g.fetch agenda) hk hi ho ht hbus).below _)

/-! ## The pinger -/

/-- How long the pinger waits for a PONG. -/
def patience (p : Session) : Nat := (World.integerOf (.json (.ofNat p.timeout))).toNat

/-- The pinger waits for a PONG or for the timeout. -/
@[simp] def Stage.waiting (g : Stage) (p : Session) (agenda : Agenda) (e : EffectId) (left : Nat)
    (env : Env) : Stage :=
  let g' := ((g.fetch agenda).settle e).beginTurn 2
  (g'.spend.race 2 ["pong", "timeout"] (.type "PONG") (patience p)).rest 2
    (.script (sentBody (.block [judge] :: loopControl p left) env (some "winner")))
    (some g.engine.nextEffect)

theorem plays_waiting {left : Nat}
    (ha : g.engine.agenda.next? = some (.reaction (.settle e (.value .unit)), agenda))
    (hw : g.engine.waits.get? e = some ⟨2, .task, kind⟩)
    (hn : g.engine.tasks.get? 2 =
      some (pingerNode (.block [awaitPong p.timeout, judge] :: loopControl p left) env none e))
    (hb : 0 < g.budget) (he : g.engine.bus.hasEnded 2 = false) :
    Plays p 12 g [.drain 0] (g.waiting p agenda e left env) [.drain 0] := by
  let g' := ((g.fetch agenda).settle e).beginTurn 2
  have hl : g'.spend.engine.tasks.isLive 2 = true := by
    simp [g', Tasks.isLive, hn, pingerNode, Status.isTerminal]
  have hx (w : World) : w.build env (.race [("pong", .take none (.type "PONG")),
      ("timeout", .delay (.json (.ofNat p.timeout)))]) =
        .ok (.race [("pong", .take .bus (.type "PONG")),
          ("timeout", .call "delay" (.sleep (patience p)))]) := by
    simp only [World.build, World.buildKeyed, World.eval, patience, Except.map]
  have hl' : (g'.spend.race 2 ["pong", "timeout"] (.type "PONG")
      (patience p)).engine.tasks.isLive 2 = true := hl
  have hwake := ((plays_fetch (p := p) ha).trans
    ((plays_settle (g := g.fetch agenda) (v := .unit) hw hn rfl rfl rfl).below _)).trans
      (plays_answer.below _)
  have hrace := ((plays_perform (p := p) (g := g') 2 [judge] (loopControl p left) (some "winner") hb
    hx).trans (plays_yield _ _ hl)).trans
    ((plays_trigger_race (by decide) hl he).trans (plays_begun_pending hl'))
  exact hwake.trans (hrace.below _)

/-- The pinger has a PONG. -/
@[simp] def Stage.counting (g : Stage) (agenda : Agenda) (r : RaceIds) : Stage :=
  (((g.fetch agenda).decideByTake r).beginTurn 2).spend.spend

theorem plays_counting {left m : Nat} {r : RaceIds} {v : Value}
    (ha : g.engine.agenda.next? = some (.reaction (.settle r.take (.value v)), agenda))
    (hr : g.Races 2 ["pong", "timeout"] r)
    (hd : g.deferreds.get? r.timer = some { timer := some r.timer, listener := some ⟨0, r.delay⟩ })
    (hn : g.engine.tasks.get? 2 =
      some (pingerNode (.block [judge] :: loopControl p left) env (some "winner") r.race))
    (hb : 1 < g.budget) (henv : env.get? "answered" = some (.ofInt m)) (hm : m ≤ maxRounds) :
    ∃ env' : Env, env'.get? "answered" = some (.ofInt (m + 1 : Nat)) ∧
      Plays p 7 g [.drain 0] (g.counting agenda r)
        [.advance ⟨0, 2⟩ { control := loopControl p left, env := env' } {}, .drain 0] := by
  let env₁ := env.insert "winner" (.map [("pong", v)])
  refine ⟨env₁.insert "answered" (.ofInt (m + 1 : Nat)), by simp, ?_⟩
  let g' := ((g.fetch agenda).decideByTake r).beginTurn 2
  have htest (w : World) : w.holds env₁ (.has (.var "winner") "timeout") = false := by
    simp [World.holds, World.eval, env₁, Value.get?, Value.map?]
  have hadd (w : World) : w.eval env₁ (.add (.var "answered") 1) = .ofInt (m + 1 : Nat) := by
    have hint : World.integerOf (.ofInt m) = m := by
      have hs := signed_ofNat hm
      simp only [World.integerOf, Value.ofInt, Value.json?, Option.bind_some]
      exact congrArg (fun o => o.getD 0) hs
    simp [World.eval, env₁, henv, hint]
  have hwake := ((plays_fetch (p := p) ha).trans
    ((plays_settle_take (g := g.fetch agenda) ⟨hr.race, hr.take, hr.delay⟩ hd hn rfl rfl
      rfl).below _)).trans (plays_answer.below _)
  have hjudge := plays_branch (p := p) (g := g') 2
    [.perform (.dispatch { kind := "TIMEOUT", payload := .var "round" }) none none]
    [.assign "answered" (.add (.var "answered") 1) none] [] (loopControl p left)
    (show 0 < g.budget by omega) htest
  have hassign := plays_assign (p := p) (g := g'.spend) 2 "answered" []
    (.block [] :: loopControl p left) (show 0 < g.budget - 1 by omega) hadd
  have hends := (plays_block_end (p := p) g'.spend.spend 2 (.block [] :: loopControl p left)
    (env₁.insert "answered" (.ofInt (m + 1 : Nat)))).trans (plays_block_end _ _ _ _)
  exact hwake.trans (((hjudge.trans hassign).trans hends).below _)

/-- The action that the pinger sends with its round. -/
def roundAction (kind : String) (env : Env) : Action :=
  World.evalAction {} env { kind, payload := .var "round" }

theorem evalAction_round (env : Env) (kind : String) (w : World) :
    w.evalAction env { kind, payload := .var "round" } = roundAction kind env := by
  simp only [World.evalAction, World.eval, roundAction]

/-- The control of the pinger after a TIMEOUT. -/
def reportedControl (p : Session) (left : Nat) : List Frame :=
  .block [] :: .block [] :: loopControl p left

/-- The pinger has no PONG in time. -/
@[simp] def Stage.reporting (g : Stage) (p : Session) (agenda : Agenda) (r : RaceIds) (left : Nat)
    (env : Env) : Stage :=
  (((g.fetch agenda).decideByDelay r).beginTurn 2).spend.post 2
    (sentBody (reportedControl p left) env none) (roundAction "TIMEOUT" env)

theorem plays_reporting {left : Nat} {r : RaceIds} {v x : Value}
    (ha : g.engine.agenda.next? = some (.reaction (.settle r.delay (.value v)), agenda))
    (hr : g.Races 2 ["pong", "timeout"] r)
    (hn : g.engine.tasks.get? 2 =
      some (pingerNode (.block [judge] :: loopControl p left) env (some "winner") r.race))
    (hb : 1 < g.budget) (henv : env.get? "answered" = some x) :
    ∃ env' : Env, env'.get? "answered" = some x ∧
      Plays p 9 g [.drain 0] (g.reporting p agenda r left env') [.drain 0] := by
  let env₁ := env.insert "winner" (.map [("timeout", v)])
  refine ⟨env₁, by simp [env₁, henv], ?_⟩
  let g' := ((g.fetch agenda).decideByDelay r).beginTurn 2
  have hl : g'.spend.engine.tasks.isLive 2 = true := by
    simp [g', Tasks.isLive, hn, pingerNode, Status.isTerminal]
  have htest (w : World) : w.holds env₁ (.has (.var "winner") "timeout") = true := by
    simp [World.holds, World.eval, env₁, Value.get?, Value.map?]
  have hwake := ((plays_fetch (p := p) ha).trans
    ((plays_settle_delay (g := g.fetch agenda) ⟨hr.race, hr.take, hr.delay⟩ hn rfl rfl
      rfl).below _)).trans (plays_answer.below _)
  have hjudge := plays_branch (p := p) (g := g') 2
    [.perform (.dispatch { kind := "TIMEOUT", payload := .var "round" }) none none]
    [.assign "answered" (.add (.var "answered") 1) none] [] (loopControl p left)
    (show 0 < g.budget by omega) htest
  have hpost := plays_post (p := p) (g := g'.spend) [] (.block [] :: loopControl p left) none
    (show 0 < g.budget - 1 by omega) hl (evalAction_round env₁ "TIMEOUT")
  exact hwake.trans ((hjudge.trans hpost).below _)

/-- The pinger goes on after its TIMEOUT was seen. -/
@[simp] def Stage.reported (g : Stage) (agenda : Agenda) (e : EffectId) : Stage :=
  ((g.fetch agenda).settle e).beginTurn 2

theorem plays_reported {left : Nat}
    (ha : g.engine.agenda.next? = some (.reaction (.settle e (.value .unit)), agenda))
    (hw : g.engine.waits.get? e = some ⟨2, .task, kind⟩)
    (hn : g.engine.tasks.get? 2 = some (pingerNode (reportedControl p left) env none e)) :
    Plays p 5 g [.drain 0] (g.reported agenda e)
      [.advance ⟨0, 2⟩ { control := loopControl p left, env } {}, .drain 0] := by
  have hwake := ((plays_fetch (p := p) ha).trans
    ((plays_settle (g := g.fetch agenda) (v := .unit) hw hn rfl rfl rfl).below _)).trans
      (plays_answer.below _)
  have hends := (plays_block_end (p := p) (g.reported agenda e) 2 (.block [] :: loopControl p left)
    env).trans (plays_block_end _ _ _ _)
  exact hwake.trans (hends.below _)

/-- The pinger starts a round. -/
@[simp] def Stage.pinging (g : Stage) (p : Session) (left : Nat) (env : Env) : Stage :=
  g.spend.spend.post 2
    (sentBody (.block [awaitPong p.timeout, judge] :: loopControl p left) env none)
    (roundAction "PING" env)

theorem plays_pinging {x : Value} (left : Nat) (hl : g.engine.tasks.isLive 2 = true)
    (hb : 2 < g.budget) (henv : env.get? "answered" = some x) :
    ∃ env' : Env, env'.get? "answered" = some x ∧
      Plays p 7 g [.advance ⟨0, 2⟩ { control := loopControl p (left + 1), env } {}]
        (g.pinging p left env') [] := by
  let round := World.eval {} env (.add (.var "round") 1)
  have hadd (w : World) : w.eval env (.add (.var "round") 1) = round := by
    simp only [World.eval, round]
  refine ⟨env.insert "round" round, by simp [henv], ?_⟩
  have hloop := plays_loop (p := p) (g := g) 2 left (pingRound p.timeout)
    [.block [.return (.var "answered")]] env (show 0 < g.budget by omega)
  have hassign := plays_assign (p := p) (g := g.spend) 2 "round" (pingRound p.timeout).tail
    (loopControl p left) (show 0 < g.budget - 1 by omega) hadd
  have hpost := plays_post (p := p) (g := g.spend.spend) [awaitPong p.timeout, judge]
    (loopControl p left) none (show 0 < g.budget - 1 - 1 by omega) hl
    (evalAction_round (env.insert "round" round) "PING")
  exact (hloop.trans hassign).trans hpost

/-- The pinger is over. -/
@[simp] def Stage.finished (g : Stage) (x : Value) : Stage :=
  g.spend.endTurn.retire 2 (.done x)

theorem plays_finished {x : Value} (hn : g.engine.tasks.get? 2 = some n)
    (hs : n.status.isTerminal = false) (hc : n.children = []) (hp : n.parent = none)
    (hj : n.joiners = []) (hb : 0 < g.budget) (henv : env.get? "answered" = some x) :
    Plays p 9 g [.advance ⟨0, 2⟩ { control := loopControl p 0, env } {}] (g.finished x) [] := by
  have hx (w : World) : w.eval env (.var "answered") = x := by
    simp [World.eval, henv]
  have hend := plays_loop_end (p := p) g 2 (pingRound p.timeout)
    [.block [.return (.var "answered")]] env
  have hcomplete := plays_complete (p := p) (g := g.spend) (spentBody env) x (isLive_of hn hs) rfl
  exact ((hend.trans (plays_return hb hx)).trans hcomplete).trans
    (plays_returned_root (g := g.spend.endTurn) hn hs hc hp hj)

/-! ## The clock -/

/-- A timer fires: what sleeps on it is told. -/
@[simp] def Stage.fire (g : Stage) (tm : Timer) (e : EffectId) : Stage :=
  { g with
    now := tm.deadline
    timers := g.timers.filter fun u => u.id ≠ tm.id
    deferreds := g.deferreds.insert tm.deferred { outcome := some (.ok .unit) }
    engine :=
      { g.engine with
        driving := true, agenda := g.engine.agenda.schedule (.settle e (.value .unit)) } }

theorem plays_fire {tm : Timer} {target : Nat} {deferred : Deferred EffectRef}
    (hdue : (g.world p []).dueTimer? target = some tm) (hans : tm.answer = .ok .unit)
    (hd : g.deferreds.get? tm.deferred = some deferred) (ho : deferred.outcome = none)
    (hl : deferred.listener = some ⟨0, e⟩) (hdriving : g.engine.driving = false) :
    Plays p 1 g [.moveClock target] (g.fire tm e) [.drain 0, .moveClock target] := by
  refine .of_exec fun j => ⟨j, ?_⟩
  have hdue' : (g.world p j).dueTimer? target = some tm := hdue
  let g₁ : Stage :=
    { g with
      now := tm.deadline
      timers := g.timers.filter fun u => u.id ≠ tm.id
      deferreds := g.deferreds.insert tm.deferred { outcome := some (.ok .unit) } }
  have hsettle : World.settleDeferred { g.world p j with
      now := tm.deadline, timers := g.timers.filter fun u => u.id ≠ tm.id } tm.deferred tm.answer =
      (true, (g₁.world p j).notify ⟨0, e⟩ (.value .unit)) := by
    simp only [World.settleDeferred, Stage.world_deferreds, hd, Deferred.settle, ho, hl, hans]
    rfl
  have hnotify : (g₁.world p j).notify ⟨0, e⟩ (.value .unit) =
      ⟨[.drain 0], (g.fire tm e).world p j⟩ := by
    simp only [World.notify, Stage.world_living?, Stage.world_schedule, World.enterDriver,
      Stage.world_engine, Stage.setEngine, g₁, hdriving, Bool.false_eq_true, if_false]
    rfl
  simp only [Instr.exec, World.execMoveClock, hdue']
  show some ((World.settleDeferred { g.world p j with
      now := tm.deadline, timers := g.timers.filter fun u => u.id ≠ tm.id } tm.deferred
        tm.answer).2.followedBy [.moveClock target]) = _
  rw [hsettle, hnotify]
  rfl

/-- The clock arrives. -/
theorem plays_arrive {target : Nat} (hdue : (g.world p []).dueTimer? target = none) :
    Plays p 1 g [.moveClock target] { g with now := target } [] := by
  refine .of_exec fun j => ?_
  have hdue' : (g.world p j).dueTimer? target = none := hdue
  simp only [Instr.exec, World.execMoveClock, hdue']
  exact ⟨_, rfl⟩

/-- The driver is at rest. -/
@[simp] def Stage.idle (g : Stage) : Stage := g.setEngine fun e => { e with driving := false }

/-- The driver comes to rest. -/
theorem plays_idle (ha : g.engine.agenda = {}) : Plays p 1 g [.drain 0] g.idle [] := by
  refine .of_exec fun j => ?_
  simp only [Instr.exec, World.execDrain, Stage.world_engine, Stage.world_setEngine,
    Stage.idle, Stage.setEngine, ha]
  exact ⟨_, rfl⟩

end Session

end SagaMachine
