import SagaMachine.Proofs.Watching

/-!
# The step of a watcher

Within its own step a watcher goes from one instruction to the next, and each of them is tended
(`Scenario.Visits.tends_turn`), also while something else is carried out above it
(`Scenario.Visits.tends_below`): nothing is broadcast meanwhile.
-/

namespace SagaMachine

section

variable {s : Scenario} {c c' : Config} {w : World} {x y : Instr} {rest : List Instr}
  {i : MiddlewareId} {t : TaskId} {b : WatcherBody} {q : Concern} {r : Reaction}

/-- What is live after a step was live before it, unless it is new. -/
theorem Scenario.Visits.live_before (h : s.Visits c) (hi : c.world.Has i) (hc : c.step = some c')
    {p : Posture} (hp : (c.world.core i).posture t = some p) (hl : (c'.world.core i).Live t) :
    (c.world.core i).Live t := by
  obtain ⟨p', hp', hs⟩ := hl
  refine ⟨p, hp, ?_⟩
  cases h.turnover hi hc with
  | evolves _ _ _ core =>
    obtain ⟨q, hq, -, -, hback, -⟩ := core.kept hp
    cases hp'.symm.trans hq
    exact hback hs
  | @records _ _ _ u _ _ _ _ _ _ _ _ _ _ posture =>
    have hpost : ((c.world.core i).bury u).posture t = some p' := (congrFun posture t).symm.trans hp'
    by_cases hu : t = u
    · subst hu
      rw [Core.posture_bury, if_pos rfl] at hpost
      cases hpost
    · obtain ⟨q', hq', -, -, hstatus, -⟩ := Core.posture_bury_of_ne hu hp
      cases hpost.symm.trans hq'
      exact hstatus ▸ hs
  | dies _ _ core =>
    rw [show c'.world.core i = _ from core] at hp'
    cases hp'

theorem Config.broadcasts_eq_nil (hx : ∀ a sender, x ≠ .forwarded i a sender) :
    Config.broadcasts ⟨x :: rest, w⟩ i = [] := by
  unfold Config.broadcasts
  split
  · rename_i j a sender rest' htodo
    obtain ⟨rfl, -⟩ := List.cons.inj htodo
    refine if_neg fun hj => ?_
    obtain ⟨rfl, -⟩ := hj
    exact hx a sender rfl
  · rfl

/-- A watcher stays where it is in a step that is not about it. -/
theorem Scenario.Visits.tends_still (h : s.Visits ⟨x :: rest, w⟩) (hi : w.Has i)
    (hc : Config.step ⟨x :: rest, w⟩ = some c') (hm : b.Minds i)
    (hp : ∀ b a, x ≠ .poll ⟨i, t⟩ b a) (hx : ∀ b nests e, x ≠ .trigger ⟨i, t⟩ b nests e)
    (hf : b.phase = .fresh ∨ ∀ a sender, x ≠ .forwarded i a sender) (hw : c'.Watches i t b q) :
    Config.Tends ⟨x :: rest, w⟩ i t b q c' [] b q where
  plan := rfl
  minds := hm
  polled := id
  watches := hw
  due hne := by
    rw [Config.broadcasts_eq_nil (hf.resolve_left hne)]
    simp
  before _ _ := Or.inl rfl
  past := by
    obtain ⟨es, hes, hidle⟩ := h.idle_step hi hc hp hx
    obtain ⟨h1, h2, h3⟩ := lists_of_idle hidle
    exact ⟨es, hes, h1, by simp [h2], h3⟩
  born := nofun

/-- The step of a watcher goes on in another instruction, and nothing is forked. -/
theorem Config.tends_on {q' : Concern} {b' : WatcherBody} (es : List Event)
    (hf : ∀ a sender, x ≠ .forwarded i a sender)
    (plan : b'.plan = b.plan) (minds : b'.Minds i) (polled : b'.phase ≠ .fresh)
    (watches : c'.Watches i t b' q') (due : q'.due = q.due) (got : q'.got = q.got ++ actionsOf t es)
    (before : b.plan.mode = .latest → q'.before = q.before ∨
      q'.before = none ∧ ∀ u, q.before = some u → ¬ (c'.world.core i).Live u)
    (past : c'.world.past i = es ++ w.past i) (forks : forksOf t es = [])
    (children : childrenOf t es = []) : Config.Tends ⟨x :: rest, w⟩ i t b q c' [] b' q' where
  plan := plan
  minds := minds
  polled _ := polled
  watches := watches
  due _ := by
    rw [Config.broadcasts_eq_nil hf, due]
    simp
  before hmode _ := before hmode
  past := ⟨es, past, forks, by simp [got], children⟩
  born := nofun

theorem Config.step_poll {a : Option Answer} {b' : WatcherBody} {e : Effect}
    (hr : b.resume a = (b', .yielded e)) :
    Config.step ⟨.poll ⟨i, t⟩ (.watcher b) a :: rest, w⟩ =
      some ⟨.polled ⟨i, t⟩ (.watcher b') (.yielded e) :: rest, w.record i (.polled t a)⟩ := by
  simp only [Config.step, Instr.exec, World.execPoll, hr, Option.map_some, Config.followedBy]
  rfl

/-- A watcher is polled, and asks for an effect. -/
theorem Config.tends_poll {a : Option Answer} {b' : WatcherBody} {e : Effect} {q' : Concern}
    (hr : b.Resumes i a q b' e q')
    (hc : Config.step ⟨.poll ⟨i, t⟩ (.watcher b) a :: rest, w⟩ = some c') :
    Config.Tends ⟨.poll ⟨i, t⟩ (.watcher b) a :: rest, w⟩ i t b q c' [] b' q' := by
  cases (Config.step_poll hr.result).symm.trans hc
  refine Config.tends_on [.polled t a] (by simp) hr.plan hr.minds hr.asks.not_fresh
    (.turn ?_ (.polled hr.asks)) hr.due (hr.got.trans ?_) (fun hl => Or.inl (hr.before hl))
    (World.past_record _) rfl rfl
  · simp [framesOf_cons, Instr.owner?]
  · cases ha : actionIn a <;> simp [actionsOf, Event.action?, ha]

theorem World.not_halted (hl : (w.core i).Live t) : w.isHalted i t = false := by
  simpa using fun hh => World.isHalted_iff.1 hh hl

theorem Config.step_polled {body : Body} {e : Effect} (hl : (w.core i).Live t) :
    Config.step ⟨.polled ⟨i, t⟩ body (.yielded e) :: rest, w⟩ =
      some ⟨.trigger ⟨i, t⟩ body [] e :: rest, w⟩ := by
  simp [Config.step, Instr.exec, World.execPolled, World.not_halted hl, Config.followedBy]

/-- What a watcher has asked for is triggered. -/
theorem Config.tends_polled {e : Effect} (hm : b.Minds i) (ha : b.Asks i e q)
    (hl : (w.core i).Live t)
    (hc : Config.step ⟨.polled ⟨i, t⟩ (.watcher b) (.yielded e) :: rest, w⟩ = some c') :
    Config.Tends ⟨.polled ⟨i, t⟩ (.watcher b) (.yielded e) :: rest, w⟩ i t b q c' [] b q := by
  cases (Config.step_polled hl).symm.trans hc
  refine Config.tends_on [] (by simp) rfl hm ha.not_fresh (.turn ?_ (.triggers ha)) rfl
    (by simp [actionsOf]) (fun _ => Or.inl rfl) rfl rfl rfl
  simp [framesOf_cons, Instr.owner?]

/-- The effect of a watcher was started, and has settled at once. -/
theorem Config.tends_begun {signal : Signal} (hm : b.Minds i) (hh : b.Hears i signal q)
    (hl : (w.core i).Live t)
    (hc : Config.step ⟨.begun ⟨i, t⟩ (.watcher b) [] (.immediate signal) :: rest, w⟩ = some c') :
    Config.Tends ⟨.begun ⟨i, t⟩ (.watcher b) [] (.immediate signal) :: rest, w⟩ i t b q c' [] b q := by
  have on {z : Instr} (hz : z.owner? = some i) (hw : Config.Attends ⟨z :: rest, w⟩ i t b q z)
      (hstep : Config.step ⟨.begun ⟨i, t⟩ (.watcher b) [] (.immediate signal) :: rest, w⟩ =
        some ⟨z :: rest, w⟩) :
      Config.Tends ⟨.begun ⟨i, t⟩ (.watcher b) [] (.immediate signal) :: rest, w⟩ i t b q c' [] b
        q := by
    cases hstep.symm.trans hc
    refine Config.tends_on [] (by simp) rfl hm hh.not_fresh (.turn ?_ hw) rfl
      (by simp [actionsOf]) (fun _ => Or.inl rfl) rfl rfl rfl
    simp [framesOf_cons, hz]
  have hhalted := World.not_halted hl
  have hexec : World.execBegun w ⟨i, t⟩ (.watcher b) [] (.immediate signal) =
      w.resumeBody ⟨i, t⟩ (.watcher b) (.immediate signal) := rfl
  cases signal with
  | ended =>
    have hp : b.phase = .taking := by cases hh; assumption
    have hq : q = { before := b.last.map (·.id) } := by cases hh; rfl
    subst hq
    refine on rfl (.ends hp) ?_
    simp [Config.step, Instr.exec, hexec, World.resumeBody, hhalted, Config.followedBy]
  | value v =>
    by_cases hf : (w.engine i).agenda.fresh.isEmpty = true
    · refine on rfl (.polls hh rfl) ?_
      simp [Config.step, Instr.exec, hexec, World.resumeBody, hhalted, Config.followedBy, hf]
    · refine on rfl (.yields hh (by simp)) ?_
      simp [Config.step, Instr.exec, hexec, World.resumeBody, hhalted, Config.followedBy, hf]
  | fault f => cases hh

/-- A live task whose effect is pending is about to be parked on it. -/
theorem Config.step_begunPending {z : EffectId} (hl : (w.core i).Live t) (body : Body) :
    Config.step ⟨.begun ⟨i, t⟩ body [] (.pending z) :: rest, w⟩ =
      some ⟨.leave ⟨i, t⟩ body (.suspended z) :: rest, w⟩ := by
  simp [Config.step, Instr.exec, World.execBegun, World.resumeBody, World.not_halted hl,
    Config.followedBy]

/-- A watcher that goes on with a take leaves it pending. -/
theorem Config.tends_begunTake {z : EffectId} (hm : b.Minds i)
    (hp : b.phase = .taking)
    (hz : Config.Awaits ⟨.begun ⟨i, t⟩ (.watcher b) [] (.pending z) :: rest, w⟩ ⟨i, z⟩ b.plan.pattern)
    (hl : (w.core i).Live t)
    (hc : Config.step ⟨.begun ⟨i, t⟩ (.watcher b) [] (.pending z) :: rest, w⟩ = some c') :
    Config.Tends ⟨.begun ⟨i, t⟩ (.watcher b) [] (.pending z) :: rest, w⟩ i t b
      { before := b.last.map (·.id) } c' [] b { before := b.last.map (·.id) } := by
  cases (Config.step_begunPending hl (.watcher b)).symm.trans hc
  have hz' : Config.Awaits ⟨.leave ⟨i, t⟩ (.watcher b) (.suspended z) :: rest, w⟩ ⟨i, z⟩
      b.plan.pattern := by
    refine ⟨hz.takes, fun signal hb => hz.silent signal (Config.brings_cons.2 (Or.inr ?_))⟩
    exact (Config.brings_cons.1 hb).resolve_left id
  refine Config.tends_on [] (by simp) rfl hm (by simp [hp]) (.turn ?_ (.parks hp hz')) rfl rfl
    (fun _ => Or.inl rfl) rfl rfl rfl
  simp [framesOf_cons, Instr.owner?]

/-! ## The start of effects -/

/-- A take from the bus settles at once if the bus has ended for the task, or is left pending. -/
theorem World.execTrigger_busTake {b : Body} (hl : (w.core i).Live t) (p : Pattern) :
    ∃ start w', w.execTrigger ⟨i, t⟩ b [] (.take .bus p) = ⟨[.begun ⟨i, t⟩ b [] start], w'⟩ ∧
      (start = .immediate .ended ∧ w'.past i = .settled (w.engine i).nextEffect .ended ::
          .triggered t (w.engine i).nextEffect none (.take .bus p) :: w.past i ∨
        start = .pending (w.engine i).nextEffect ∧
          w'.past i = .triggered t (w.engine i).nextEffect none (.take .bus p) :: w.past i) := by
  have hhalted := World.not_halted hl
  let z := (w.engine i).nextEffect
  let w₁ := (w.setEngine i fun e => { e with nextEffect := z + 1 }).record i
    (.triggered t z none (.take .bus p))
  have hpast : w₁.past i = .triggered t z none (.take .bus p) :: w.past i := World.past_record _
  have hexec : w.execTrigger ⟨i, t⟩ b [] (.take .bus p) =
      w₁.startTake ⟨i, t⟩ b [] z .bus p := by
    simp only [World.execTrigger, hhalted]
    rfl
  rw [hexec]
  simp only [World.startTake]
  split
  · exact ⟨_, _, rfl, Or.inl ⟨rfl, (World.past_record _).trans (congrArg _ hpast)⟩⟩
  · exact ⟨_, _, rfl, Or.inr ⟨rfl, hpast⟩⟩

/-- A new task has the body of its program. -/
theorem World.rests_new (hi : w.Has i) (saga : Saga) (parent : Option TaskId) (detached : Bool) :
    (w.createTask i saga parent detached).rests i (w.engine i).nextTask =
      some (saga.program.start (w.engine i).nextTask, none) := by
  have hnew (node : TaskNode) : (w.setEngine i fun e =>
      { e with nextTask := (w.engine i).nextTask + 1
               tasks := e.tasks.insert (w.engine i).nextTask node }).rests i (w.engine i).nextTask =
        node.atRest := by
    simp [World.rests, World.task?, World.engine_setEngine hi]
  have hkids (u : World) (p id : TaskId) : (u.setTask i p fun n =>
      { n with children := n.children ++ [id] }).rests i = u.rests i :=
    World.rests_setTask fun _ => rfl
  cases parent with
  | none => exact hnew _
  | some p =>
    cases detached with
    | true => exact hnew _
    | false => 
      simp only [World.createTask, World.rests_record]
      rw [if_neg (by simp), hkids]
      exact hnew _

/-- A fork starts one task, with the body of its saga, and comes back with it at once. -/
theorem World.execTrigger_forks {b : Body} (hi : w.Has i) (hl : (w.core i).Live t) (saga : Saga) :
    let u : TaskRef := ⟨i, (w.engine i).nextTask, saga.name⟩
    ∃ w', w.execTrigger ⟨i, t⟩ b [] (.fork saga false) =
        ⟨[.begun ⟨i, t⟩ b [] (.immediate (.value (.task u)))], w'⟩ ∧
      w'.past i = .settled (w.engine i).nextEffect (.value (.task u)) ::
        .taskStarted u.id (some t) saga.name ::
          .triggered t (w.engine i).nextEffect none (.fork saga false) :: w.past i ∧
      w'.rests i u.id = some (saga.program.start u.id, none) := by
  intro u
  have hhalted := World.not_halted hl
  let z := (w.engine i).nextEffect
  let w₁ := (w.setEngine i fun e => { e with nextEffect := z + 1 }).record i
    (.triggered t z none (.fork saga false))
  have hpast : w₁.past i = .triggered t z none (.fork saga false) :: w.past i := World.past_record _
  have hi₁ : w₁.Has i := (World.has_record _ _).2 (World.has_setEngine.2 hi)
  have hnext : (w₁.engine i).nextTask = (w.engine i).nextTask := by
    rw [World.engine_record, World.engine_setEngine hi]
  have hexec : w.execTrigger ⟨i, t⟩ b [] (.fork saga false) =
      w₁.startFork ⟨i, t⟩ b [] z saga false := by
    simp only [World.execTrigger, hhalted]
    rfl
  have hrests := World.rests_new hi₁ saga (some t) false
  have hpast₂ : (w₁.createTask i saga (some t) false).past i =
      .taskStarted (w₁.engine i).nextTask (some t) saga.name :: w₁.past i := World.past_record _
  rw [hnext] at hrests hpast₂
  rw [hexec]
  simp only [World.startFork, World.nextTaskRef, hnext]
  refine ⟨_, rfl, (World.past_record _).trans (congrArg _ (hpast₂.trans (congrArg _ hpast))), ?_⟩
  rw [← hrests]
  exact congrFun (World.rests_schedule _) _

/-- A watcher forks the worker for an action. -/
theorem Config.tends_forks {a : Action} (hi : w.Has i) (hm : b.Minds i) (hp : b.phase = .forking)
    (hl : (w.core i).Live t) (hn : t < (w.engine i).nextTask)
    (hc : Config.step
      ⟨.trigger ⟨i, t⟩ (.watcher b) [] (.fork (b.plan.workerFor a) false) :: rest, w⟩ = some c') :
    ∃ u, Config.Tends
      ⟨.trigger ⟨i, t⟩ (.watcher b) [] (.fork (b.plan.workerFor a) false) :: rest, w⟩ i t b
      ⟨[a], [a], none⟩ c' [(a, u)] b { before := some u } := by
  obtain ⟨w', hexec, hpast, hrests⟩ :=
    World.execTrigger_forks (b := .watcher b) hi hl (b.plan.workerFor a)
  have hstep : Config.step
      ⟨.trigger ⟨i, t⟩ (.watcher b) [] (.fork (b.plan.workerFor a) false) :: rest, w⟩ = some
        ⟨.begun ⟨i, t⟩ (.watcher b) []
          (.immediate (.value (.task ⟨i, (w.engine i).nextTask, (b.plan.workerFor a).name⟩))) :: rest,
          w'⟩ := by
    simp only [Config.step, Instr.exec, hexec, Option.map_some]
    rfl
  cases hstep.symm.trans hc
  have hhears : b.Hears i (.value (.task ⟨i, (w.engine i).nextTask, (b.plan.workerFor a).name⟩))
      { before := some (w.engine i).nextTask } := .forked hp rfl
  refine ⟨(w.engine i).nextTask, ⟨rfl, hm, id, .turn ?_ (.begun hhears), fun _ => ?_, by simp,
    ⟨[_, _, _], hpast, ?_, ?_, ?_⟩, ?_⟩⟩
  · simp [framesOf_cons, Instr.owner?]
  · rw [Config.broadcasts_eq_nil (by simp)]
    rfl
  · simp [forksOf, Event.fork?]
  · simp [actionsOf, Event.action?]
  · simp [childrenOf, Event.child?, List.filterMap_cons]
  · rintro p hpw
    cases List.mem_singleton.1 hpw
    exact ⟨rfl, rfl, rfl, hn, hrests⟩

/-- A watcher takes from the bus: it is told END at once, or it waits there. -/
theorem Config.tends_takes (h : s.Visits
      ⟨.trigger ⟨i, t⟩ (.watcher b) [] (.take .bus b.plan.pattern) :: rest, w⟩) (hi : w.Has i)
    (hm : b.Minds i) (hp : b.phase = .taking) (hl : (w.core i).Live t)
    (hc : Config.step
      ⟨.trigger ⟨i, t⟩ (.watcher b) [] (.take .bus b.plan.pattern) :: rest, w⟩ = some c') :
    Config.Tends ⟨.trigger ⟨i, t⟩ (.watcher b) [] (.take .bus b.plan.pattern) :: rest, w⟩ i t b
      { before := b.last.map (·.id) } c' [] b { before := b.last.map (·.id) } := by
  obtain ⟨start, w', hexec, hstart⟩ :=
    World.execTrigger_busTake (b := .watcher b) hl b.plan.pattern
  have hstep : Config.step
      ⟨.trigger ⟨i, t⟩ (.watcher b) [] (.take .bus b.plan.pattern) :: rest, w⟩ = some
        ⟨.begun ⟨i, t⟩ (.watcher b) [] start :: rest, w'⟩ := by
    simp only [Config.step, Instr.exec, hexec, Option.map_some]
    rfl
  cases hstep.symm.trans hc
  have on (es : List Event) (hes : w'.past i = es ++ w.past i)
      (hidle : forksOf t es = [] ∧ actionsOf t es = [] ∧ childrenOf t es = [])
      (hw : Config.Attends ⟨.begun ⟨i, t⟩ (.watcher b) [] start :: rest, w'⟩ i t b
        { before := b.last.map (·.id) } (.begun ⟨i, t⟩ (.watcher b) [] start)) :
      Config.Tends ⟨.trigger ⟨i, t⟩ (.watcher b) [] (.take .bus b.plan.pattern) :: rest, w⟩ i t b
        { before := b.last.map (·.id) } ⟨.begun ⟨i, t⟩ (.watcher b) [] start :: rest, w'⟩ [] b
        { before := b.last.map (·.id) } :=
    Config.tends_on es (by simp) rfl hm (by simp [hp])
      (.turn (by simp [framesOf_cons, Instr.owner?]) hw) rfl
      (by rw [hidle.2.1]; rfl) (fun _ => Or.inl rfl) hes hidle.1 hidle.2.2
  rcases hstart with ⟨rfl, hpast⟩ | ⟨rfl, hpast⟩
  · exact on [_, _] hpast ⟨by simp [forksOf, Event.fork?], by simp [actionsOf, Event.action?],
      by simp [childrenOf, Event.child?]⟩ (.begun (.ended hp))
  · refine on [_] hpast ⟨by simp [forksOf, Event.fork?], by simp [actionsOf, Event.action?],
      by simp [childrenOf, Event.child?]⟩ (.begunTake hp ?_)
    have hi' := (h.knows.has_iff hstep i).2 hi
    have htake : w'.TakesFrom ⟨i, (w.engine i).nextEffect⟩ .bus b.plan.pattern :=
      ⟨hi', t, none, by rw [hpast]; exact List.mem_cons_self⟩
    refine ⟨htake, fun signal => h.not_brings_of_born hc (e := .take .bus b.plan.pattern) trivial ?_ htake⟩
    rintro ⟨-, u, p, hold⟩
    have ha : w.alive? i = some true := h.alive_of_owner rfl
    exact Nat.lt_irrefl _ (((h.sound hi).tabled (Config.alive_iff.2 ha)).named hold)

/-- The start of the cancellation of a task. -/
def World.cancelling (w : World) (i : MiddlewareId) (t : TaskId) (u : TaskRef) : World :=
  (w.setEngine i fun e => { e with nextEffect := (w.engine i).nextEffect + 1 }).record i
    (.triggered t (w.engine i).nextEffect none (.cancel (some u)))

theorem Config.step_cancel {body : Body} {u : TaskRef} (own : u.owner = i) (hl : (w.core i).Live t) :
    Config.step ⟨.trigger ⟨i, t⟩ body [] (.cancel (some u)) :: rest, w⟩ =
      some ⟨.cancel i u.id :: .cancelDone ⟨i, t⟩ body [] (w.engine i).nextEffect :: rest,
        w.cancelling i t u⟩ := by
  simp only [Config.step, Instr.exec, World.execTrigger, World.not_halted hl, World.startCancel, own,
    ne_eq, not_true_eq_false, if_false, Option.map_some]
  rfl

/-- A watcher has its worker before cancelled. -/
theorem Config.tends_cancels {a : Action} {u : TaskRef} (hm : b.Minds i)
    (hp : b.phase = .clearing a) (own : u.owner = i) (hl : (w.core i).Live t)
    (hc : Config.step ⟨.trigger ⟨i, t⟩ (.watcher b) [] (.cancel (some u)) :: rest, w⟩ = some c') :
    Config.Tends ⟨.trigger ⟨i, t⟩ (.watcher b) [] (.cancel (some u)) :: rest, w⟩ i t b
      ⟨[a], [a], some u.id⟩ c' [] b ⟨[a], [a], some u.id⟩ := by
  cases (Config.step_cancel own hl).symm.trans hc
  refine Config.tends_on [.triggered t (w.engine i).nextEffect none (.cancel (some u))] (by simp) rfl hm
    (by simp [hp]) (.turn (y := .cancelDone ⟨i, t⟩ (.watcher b) [] (w.engine i).nextEffect) ?_
      (.clears hp fun v hv => ?_)) rfl ?_ (fun _ => Or.inl rfl) (World.past_record _) ?_ ?_
  · simp [framesOf_cons, Instr.owner?]
  · cases hv
    exact ⟨_, rfl⟩
  · simp [actionsOf, Event.action?]
  · simp [forksOf, Event.fork?]
  · simp [childrenOf, Event.child?]

/-- The worker before is cleared away. -/
theorem Config.tends_cleared {a : Action} {y : EffectId} {before : Option TaskId} (hm : b.Minds i)
    (hp : b.phase = .clearing a) (hl : (w.core i).Live t) (hb : before = none)
    (hc : Config.step ⟨.cancelDone ⟨i, t⟩ (.watcher b) [] y :: rest, w⟩ = some c') :
    Config.Tends ⟨.cancelDone ⟨i, t⟩ (.watcher b) [] y :: rest, w⟩ i t b ⟨[a], [a], before⟩ c' [] b
      ⟨[a], [a], none⟩ := by
  subst hb
  have hstep : Config.step ⟨.cancelDone ⟨i, t⟩ (.watcher b) [] y :: rest, w⟩ = some
      ⟨.begun ⟨i, t⟩ (.watcher b) [] (.immediate (.value .unit)) :: rest,
        w.record i (.settled y (.value .unit))⟩ := by
    simp [Config.step, Instr.exec, World.execCancelDone, World.not_halted hl, World.immediate,
      Config.followedBy]
  cases hstep.symm.trans hc
  refine Config.tends_on [.settled y (.value .unit)] (by simp) rfl hm (by simp [hp])
    (.turn (by simp [framesOf_cons, Instr.owner?]) (.begun (.cleared hp))) rfl
    ?_ (fun _ => Or.inl rfl) (World.past_record _) ?_ ?_
  · simp [actionsOf, Event.action?]
  · simp [forksOf, Event.fork?]
  · simp [childrenOf, Event.child?]

/-! ## The end of a step -/

/-- The reactions that are due to a task. -/
theorem Config.Due.mem (h : c.Due i r) (hr : r.Steps t) :
    r ∈ dueSteps (c.world.core i) (framesOf i c.todo) t := by
  refine List.mem_filter.2 ⟨?_, by simpa using hr⟩
  rcases h with h | h | h
  · exact List.mem_append_right _ h
  · exact List.mem_append_left _ (List.mem_append_right _ h)
  · exact List.mem_append_left _ (List.mem_append_left _ (List.mem_filterMap.2 ⟨_, h, rfl⟩))

/-- Nothing is due to a task within its own step. -/
theorem Scenario.Visits.not_due_in_turn (h : s.Visits c) (ha : c.world.Alive i)
    (hy : y ∈ framesOf i c.todo) (hyt : y.turn? = some t) (hr : r.Steps t) : ¬ c.Due i r := by
  intro hdue
  obtain ⟨d, hd⟩ := h.conversation ha.has t
  have hnil : dueSteps (c.world.core i) (framesOf i c.todo) t = [] :=
    ((hd.fits (by simpa [Config.view, World.Alive] using ha)).turn y hy hyt).2.2.1
  have hm := hdue.mem hr
  rw [hnil] at hm
  cases hm

/-- A task that is parked has its body at rest. -/
theorem World.rests_park_self (hi : w.Has i) (hl : (w.core i).Live t) (body : Body)
    (pending : Option EffectId) : (w.park i t body pending).rests i t = some (body, pending) := by
  obtain ⟨p, hp, -⟩ := hl
  obtain ⟨n, hn, -⟩ := Option.map_eq_some_iff.1 (show ((w.engine i).tasks.get? t).map _ = some p from hp)
  simp only [World.rests, World.task?, World.park, World.setTask, World.engine_setEngine hi,
    Table.get?_modify, if_true, hn, Option.map_some, Option.bind_some]
  rfl

/-- At the end of a step that leaves the body of its task at rest, it is at rest. -/
theorem World.rests_leave {body : Body} {exit : Exit} {pending : Option EffectId} (hi : w.Has i)
    (hl : (w.core i).Live t) (hp : exit.parks? = some pending) :
    (w.execLeave ⟨i, t⟩ body exit).world.rests i t = some (body, pending) := by
  have hi₁ : (w.setEngine i fun e => { e with current := none }).Has i := World.has_setEngine.2 hi
  have hl₁ : ((w.setEngine i fun e => { e with current := none }).core i).Live t := by
    rw [World.core, World.engine_setEngine hi]
    exact hl
  cases exit with
  | suspended z =>
    cases hp
    exact World.rests_park_self hi₁ hl₁ body _
  | yielded signal =>
    cases hp
    exact (congrFun (World.rests_schedule _) _).trans (World.rests_park_self hi₁ hl₁ body _)
  | _ => cases hp

/-- A watcher parks, with its take on the bus. -/
theorem Scenario.Visits.tends_parks {z : EffectId}
    (h : s.Visits ⟨.leave ⟨i, t⟩ (.watcher b) (.suspended z) :: rest, w⟩) (hm : b.Minds i)
    (hp : b.phase = .taking)
    (hz : Config.Awaits ⟨.leave ⟨i, t⟩ (.watcher b) (.suspended z) :: rest, w⟩ ⟨i, z⟩ b.plan.pattern)
    (hl : (w.core i).Live t)
    (hc : Config.step ⟨.leave ⟨i, t⟩ (.watcher b) (.suspended z) :: rest, w⟩ = some c') :
    Config.Tends ⟨.leave ⟨i, t⟩ (.watcher b) (.suspended z) :: rest, w⟩ i t b
      { before := b.last.map (·.id) } c' [] b { before := b.last.map (·.id) } := by
  have ha : w.Alive i := h.alive_of_owner rfl
  have hi := ha.has
  have hi₁ : (w.setEngine i fun e => { e with current := none }).Has i := World.has_setEngine.2 hi
  cases hc
  refine Config.tends_on [] (by simp) rfl hm (by simp [hp])
    (.parked (World.rests_leave hi hl rfl) hp ⟨?_, hz.takes.triggered⟩ (fun signal hb => ?_)
      (absurd rfl)) rfl rfl (fun _ => Or.inl rfl) rfl rfl rfl
  · exact World.has_setEngine.2 hi₁
  · refine absurd ?_ (hz.silent signal)
    have hc : Config.step ⟨.leave ⟨i, t⟩ (.watcher b) (.suspended z) :: rest, w⟩ = some _ := rfl
    have ha' : ∀ {w' : World}, w'.alive? i = w.alive? i → w'.Alive i := fun he => he.trans ha
    refine h.brings_of_step (K := fun k => ∃ id, k = .take .bus id) hc (ha' ?_) hz.takes trivial
      (h.unlisted_busTake ha hz.takes) id hb
    exact World.alive_setEngine.trans World.alive_setEngine

/-- A watcher stands aside, and is to be resumed. -/
theorem Scenario.Visits.tends_yields {signal : Signal}
    (h : s.Visits ⟨.leave ⟨i, t⟩ (.watcher b) (.yielded signal) :: rest, w⟩) (hm : b.Minds i)
    (hh : b.Hears i signal q) (hne : signal ≠ .ended) (hl : (w.core i).Live t)
    (hc : Config.step ⟨.leave ⟨i, t⟩ (.watcher b) (.yielded signal) :: rest, w⟩ = some c') :
    Config.Tends ⟨.leave ⟨i, t⟩ (.watcher b) (.yielded signal) :: rest, w⟩ i t b q c' [] b q := by
  have ha : w.Alive i := h.alive_of_owner rfl
  have hi := ha.has
  have hsteps {r : Reaction} (hr : r.Steps t) (hdue : c'.Due i r) : r = .resume t signal := by
    rcases h.owes_steps hi hc hr hdue with hdue | ⟨b', signal', hx, rfl⟩ | rfl
    · exact absurd hdue (h.not_due_in_turn ha (y := .leave ⟨i, t⟩ (.watcher b) (.yielded signal))
        (by simp [framesOf_cons, Instr.owner?]) rfl hr)
    · cases hx
      rfl
    · obtain ⟨p, hp, -⟩ := hl
      exact absurd hr (Nat.ne_of_gt ((h.sound hi).orderly.tasks hp).number)
  cases hc
  refine Config.tends_on [] (by simp) rfl hm hh.not_fresh (.aside ?_ hh hne fun r hr => hsteps hr) rfl
    (by simp [actionsOf]) (fun _ => Or.inl rfl) rfl rfl rfl
  exact World.rests_leave hi hl rfl

/-- The source of a watcher's take has ended: its body is dropped. -/
theorem Config.tends_ends (hm : b.Minds i) (hp : b.phase = .taking)
    (hc : Config.step ⟨.leave ⟨i, t⟩ (.watcher b) .ended :: rest, w⟩ = some c') :
    Config.Tends ⟨.leave ⟨i, t⟩ (.watcher b) .ended :: rest, w⟩ i t b
      { before := b.last.map (·.id) } c' [] b { before := b.last.map (·.id) } := by
  cases hc
  exact Config.tends_on [] (by simp) rfl hm (by simp [hp]) (.leaves hp rfl) rfl rfl
    (fun _ => Or.inl rfl) rfl rfl rfl

/-! ## A step that waits for others -/

theorem Config.Attends.turn? (h : c.Attends i t b q y) : y.turn? = some t ∧ y.owner? = some i := by
  cases h <;> exact ⟨rfl, rfl⟩

/-- Whatever is cancelled is not live afterwards. -/
theorem Does.not_live_of_cancel {past es : List Event} {u : TaskId} {k k' : Core} {G : List Instr}
    {D : List TaskId} (h : Does i past (.cancel i u) k k' G D es) : ¬ k'.Live u := by
  cases h with
  | cancelLate hl => exact hl
  | cancel _ _ hu =>
    rintro ⟨p, hp, hs⟩
    rw [Core.posture_cancelAll] at hp
    obtain ⟨p, -, rfl⟩ := Option.map_eq_some_iff.1 hp
    rw [if_pos hu] at hs
    cases hs

theorem Scenario.Visits.not_live_of_cancel {u : TaskId} (h : s.Visits ⟨.cancel i u :: rest, w⟩)
    (hc : Config.step ⟨.cancel i u :: rest, w⟩ = some c') : ¬ (c'.world.core i).Live u := by
  have hi : w.Has i := (h.alive_of_owner rfl).has
  obtain ⟨next, -, rfl, hm⟩ := Config.meets_of_step h.knows hi hc
  cases hm with
  | own _ ha hd =>
    show ¬ (next.world.core i).Live u
    rw [ha.core]
    exact hd.not_live_of_cancel
  | foreign ho => exact absurd rfl ho
  | drops hx => cases hx
  | dies hx => cases hx

/-- A watcher whose step is under way waits for what it has asked to be cancelled. -/
theorem Scenario.Visits.tends_below (h : s.Visits ⟨x :: rest, w⟩) (hi : w.Has i)
    (hc : Config.step ⟨x :: rest, w⟩ = some c') (hm : b.Minds i) (hy : y ∈ framesOf i rest)
    (hatt : Config.Attends ⟨x :: rest, w⟩ i t b q y) :
    ∃ q', Config.Tends ⟨x :: rest, w⟩ i t b q c' [] b q' := by
  obtain ⟨hyt, -⟩ := hatt.turn?
  have hlater : ¬ y.Urgent := (h.knows.later y (List.mem_filter.1 hy).1).not_urgent
  have hidle (ho : x.owner? = some i) {u : TaskId} : ¬ (x.Works ∨ x.Calls ∨ x.turn? = some u) := by
    intro hx
    rw [h.drain_below hi ho hx y hy] at hyt
    cases hyt
  have hpoll : ∀ b a, x ≠ .poll ⟨i, t⟩ b a := fun b a he =>
    hidle (he ▸ rfl) (Or.inr (Or.inr (show x.turn? = some t from he ▸ rfl)))
  have htrigger : ∀ b nests e, x ≠ .trigger ⟨i, t⟩ b nests e := fun b nests e he =>
    hidle (he ▸ rfl) (Or.inr (Or.inr (show x.turn? = some t from he ▸ rfl)))
  have hforward : ∀ a sender, x ≠ .forwarded i a sender := by
    rintro a sender rfl
    cases sender with
    | caller => exact hidle (u := t) rfl (Or.inr (Or.inl trivial))
    | effect | nobody => exact hidle (u := t) rfl (Or.inl trivial)
  obtain ⟨next, -, rfl⟩ := Option.map_eq_some_iff.1 hc
  have hmem : y ∈ framesOf i (next.followedBy rest).todo := by
    rw [show (next.followedBy rest).todo = next.todo ++ rest from rfl, framesOf_append]
    exact List.mem_append_right _ hy
  cases hatt with
  | polled ha =>
    exact ⟨q, h.tends_still hi hc hm hpoll htrigger (Or.inr hforward) (.turn hmem (.polled ha))⟩
  | @clears a z before hp hu =>
    obtain ⟨es, hes, hev⟩ := h.idle_step hi hc hpoll htrigger
    obtain ⟨hforks, hactions, hchildren⟩ := lists_of_idle hev
    refine ⟨⟨[a], [a], none⟩, Config.tends_on es hforward rfl hm (by simp [hp])
      (.turn hmem (.clears hp (by simp))) rfl (by rw [hactions]; rfl)
      (fun _ => Or.inr ⟨rfl, fun u hbefore => ?_⟩) hes hforks hchildren⟩
    obtain ⟨rest', htodo⟩ := hu u hbefore
    obtain ⟨rfl, rfl⟩ := List.cons.inj htodo
    exact h.not_live_of_cancel hc
  | _ => exact absurd trivial hlater

/-! ## The step of a watcher -/

/-- A watcher whose step is under way goes on with it. -/
theorem Scenario.Visits.tends_turn (h : s.Visits ⟨x :: rest, w⟩)
    (hc : Config.step ⟨x :: rest, w⟩ = some c') (hm : b.Minds i) (hl : (w.core i).Live t)
    (hatt : Config.Attends ⟨x :: rest, w⟩ i t b q x) :
    ∃ workers b' q', Config.Tends ⟨x :: rest, w⟩ i t b q c' workers b' q' := by
  have ha : w.Alive i := h.alive_of_owner hatt.turn?.2
  cases hatt with
  | starts hp =>
    obtain ⟨b', e, hr⟩ := WatcherBody.resumes_fresh hp hm
    exact ⟨_, _, _, Config.tends_poll hr hc⟩
  | polls hh ha =>
    obtain ⟨b', e, q', hr⟩ := hh.resumes ha hm
    exact ⟨_, _, _, Config.tends_poll hr hc⟩
  | polled ha => exact ⟨_, _, _, Config.tends_polled hm ha hl hc⟩
  | triggers ha' =>
    cases ha' with
    | takes hp => exact ⟨_, _, _, Config.tends_takes h ha.has hm hp hl hc⟩
    | clears hp own => exact ⟨_, _, _, Config.tends_cancels hm hp own hl hc⟩
    | forks hp =>
      obtain ⟨p, hp', -⟩ := id hl
      obtain ⟨u, htends⟩ := Config.tends_forks ha.has hm hp hl
        ((h.sound ha.has).orderly.tasks hp').number hc
      exact ⟨_, _, _, htends⟩
  | @clears a y before hp hu =>
    refine ⟨_, _, _, Config.tends_cleared hm hp hl ?_ hc⟩
    cases before with
    | none => rfl
    | some u =>
      obtain ⟨rest', htodo⟩ := hu u rfl
      cases (List.cons.inj htodo).1
  | begun hh => exact ⟨_, _, _, Config.tends_begun hm hh hl hc⟩
  | begunTake hp hz => exact ⟨_, _, _, Config.tends_begunTake hm hp hz hl hc⟩
  | yields hh hne => exact ⟨_, _, _, h.tends_yields hm hh hne hl hc⟩
  | parks hp hz => exact ⟨_, _, _, h.tends_parks hm hp hz hl hc⟩
  | ends hp => exact ⟨_, _, _, Config.tends_ends hm hp hc⟩

end

end SagaMachine
