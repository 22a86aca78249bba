import SagaMachine.Proofs.Books
import SagaMachine.Proofs.Registrations
import SagaMachine.Proofs.Voices

/-!
# Where bodies are at rest

The body of a task is at rest with its task when it is parked, and from then on it is the same body,
parked on the same effect, until a step of the task takes it away, or the task is torn down. Nobody
else touches it.

Main statement: `Instr.rests_of_exec`.
-/

namespace SagaMachine

/-- The body that is at rest with a task, and the effect that it is parked on. -/
def TaskNode.atRest (n : TaskNode) : Option (Body × Option EffectId) := n.body.map (·, n.pending)

/-- What a task is parked on after a step of it that leaves its body at rest. -/
def Exit.parks? : Exit → Option (Option EffectId)
  | .suspended x => some (some x)
  | .yielded _ => some none
  | _ => none

/-- The bodies that are at rest with the tasks of a middleware. -/
def World.rests (w : World) (i : MiddlewareId) (t : TaskId) : Option (Body × Option EffectId) :=
  (w.task? i t).bind TaskNode.atRest

namespace World

variable {w w' w'' : World} {i j : MiddlewareId} {t : TaskId}

theorem rests_eq_some {q : Body × Option EffectId} :
    w.rests i t = some q ↔ ∃ n, w.task? i t = some n ∧ n.body = some q.1 ∧ n.pending = q.2 := by
  obtain ⟨b, y⟩ := q
  simp [rests, Option.bind_eq_some_iff, TaskNode.atRest, Option.map_eq_some_iff]

/-- How a task stands says whether its body is at rest. -/
theorem hasBody_iff : (w.core i).HasBody t ↔ ∃ q, w.rests i t = some q := by
  simp only [rests_eq_some]
  constructor
  · rintro ⟨p, hp, hb⟩
    obtain ⟨n, hn, rfl⟩ := Option.map_eq_some_iff.1 hp
    obtain ⟨b, hb⟩ := Option.isSome_iff_exists.1 hb
    exact ⟨(b, n.pending), n, hn, hb, rfl⟩
  · rintro ⟨q, n, hn, hb, -⟩
    exact ⟨n.posture, by rw [posture_core, hn]; rfl, by rw [TaskNode.posture, hb]; rfl⟩

theorem rests_congr (h : w'.middlewares = w.middlewares) : w'.rests i = w.rests i := by
  funext t
  simp only [rests, task?, engine, h]

theorem rests_untouched (h : Untouched i w w') : w'.rests i = w.rests i := by
  funext t
  rw [rests, task?, h.engine]
  rfl

/-! ## Changes that leave bodies alone -/

theorem rests_setEngine {f : Engine → Engine}
    (hf : ∀ t, ((f (w.engine j)).tasks.get? t).bind TaskNode.atRest = w.rests j t) :
    (w.setEngine j f).rests i = w.rests i := by
  funext t
  rcases engine_setEngine_or w i j f with he | ⟨rfl, -, he⟩
  · rw [rests, task?, he]
    rfl
  · rw [rests, task?, he]
    exact hf t

theorem rests_setEngine' {f : Engine → Engine} (hf : (f (w.engine j)).tasks = (w.engine j).tasks) :
    (w.setEngine j f).rests i = w.rests i :=
  rests_setEngine fun t => by rw [hf]; rfl

theorem rests_setTask {f : TaskNode → TaskNode} (hf : ∀ n, (f n).atRest = n.atRest) :
    (w.setTask j t f).rests i = w.rests i := by
  refine rests_setEngine fun u => ?_
  simp only [Table.get?_modify, rests, task?]
  split
  · rename_i hut
    subst hut
    cases (w.engine j).tasks.get? u <;> simp [hf]
  · rfl

theorem rests_foldl {α : Type} {f : World → α → World}
    (hf : ∀ w a, (f w a).rests i = w.rests i) (w : World) (as : List α) :
    (as.foldl f w).rests i = w.rests i := by
  induction as generalizing w with
  | nil => rfl
  | cons a as ih => exact (ih _).trans (hf w a)

@[simp] theorem rests_enter (e : Entry) : (w.enter e).rests i = w.rests i := rfl

@[simp] theorem rests_record (e : Event) : (w.record j e).rests i = w.rests i := rfl

@[simp] theorem rests_enterNotes (notes : List Note) :
    (w.enterNotes notes).rests i = w.rests i :=
  rests_untouched (untouched_enterNotes notes)

@[simp] theorem rests_schedule (r : Reaction) : (w.schedule j r).rests i = w.rests i :=
  rests_setEngine' rfl

@[simp] theorem rests_queue (e : Errand) : (w.queue j e).rests i = w.rests i := by
  rw [queue, rests_record]
  exact rests_setEngine' rfl

@[simp] theorem rests_setWaits (waits : Waits) : (w.setWaits j waits).rests i = w.rests i :=
  rests_setEngine' rfl

@[simp] theorem rests_insertWait (x : EffectId) (wait : Wait) :
    (w.insertWait j x wait).rests i = w.rests i :=
  rests_setEngine' rfl

@[simp] theorem rests_unsubscribe (d : DeferredId) : (w.unsubscribe d).rests i = w.rests i :=
  rests_untouched (untouched_unsubscribe d)

@[simp] theorem rests_deregister (x : EffectId) (kind : WaitKind) :
    (w.deregister j x kind).rests i = w.rests i := by
  unfold deregister
  split
  · exact rests_setEngine' rfl
  · rfl
  · exact rests_unsubscribe _
  · exact rests_setTask fun _ => rfl
  all_goals rfl

@[simp] theorem rests_passAll (ps : List Passage) : (w.passAll j ps).rests i = w.rests i := by
  refine rests_foldl (fun w p => ?_) w ps
  cases p <;> simp [pass]

@[simp] theorem rests_cancelWait (x : EffectId) : (w.cancelWait j x).rests i = w.rests i := by
  simp [cancelWait]

@[simp] theorem rests_cancelPending (pending : Option EffectId) :
    (w.cancelPending j pending).rests i = w.rests i := by
  cases pending <;> simp [cancelPending]

@[simp] theorem rests_settleWait (x : EffectId) (signal : Signal) :
    (w.settleWait j x signal).2.rests i = w.rests i := by
  simp [settleWait]

@[simp] theorem rests_closeRace (x : EffectId) (wait : Wait) (slot : Nat) (signal : Signal) :
    (w.closeRace j x wait slot signal).2.rests i = w.rests i := by
  simp [closeRace]

@[simp] theorem rests_dropAll (x : EffectId) (wait : Wait) :
    (w.dropAll j x wait).rests i = w.rests i := by
  simp [dropAll]

@[simp] theorem rests_setMember (x : EffectId) (slot : Nat) (y : EffectId) :
    (w.setMember j x slot y).rests i = w.rests i :=
  rests_setWaits _

@[simp] theorem rests_wakeWatches (t : TaskRef) : (w.wakeWatches t).rests i = w.rests i := rfl

@[simp] theorem rests_endBus : (w.endBus j).rests i = w.rests i := by
  refine (rests_foldl (fun w t => rests_schedule _) _ _).trans ?_
  rw [rests_record]
  exact rests_setEngine' rfl

@[simp] theorem rests_broadcast (a : Action) : (w.broadcast j a).rests i = w.rests i := by
  refine (rests_foldl (fun w t => rests_schedule _) _ _).trans ?_
  rw [rests_enterNotes]
  exact rests_setEngine' rfl

@[simp] theorem rests_reduceHost (a : Action) : (w.reduceHost j a).rests i = w.rests i := by
  exact rests_untouched (untouched_reduceHost a)

@[simp] theorem rests_readState : (w.readState j).2.rests i = w.rests i := by
  unfold readState
  split
  · rfl
  · dsimp only
    split <;> rfl

@[simp] theorem rests_putChannel (c : ChannelId) (channel : Channel Sink) (v : Value) :
    (w.putChannel c channel v).2.rests i = w.rests i :=
  rests_untouched (untouched_putChannel c channel v)

@[simp] theorem rests_takeChannel (c : ChannelId) (channel : Channel Sink) (p : Pattern)
    (sink : Sink) : (w.takeChannel c channel p sink).2.rests i = w.rests i :=
  rests_untouched (untouched_takeChannel c channel p sink)

@[simp] theorem rests_addDeferred (d : Deferred EffectRef) :
    (w.addDeferred d).2.rests i = w.rests i :=
  rests_untouched (untouched_addDeferred d)

@[simp] theorem rests_addTimer (ms : Nat) (a : Answer) :
    (w.addTimer ms a).2.rests i = w.rests i :=
  rests_untouched (untouched_addTimer ms a)

@[simp] theorem rests_enterDriver (work : List Instr) :
    (w.enterDriver j work).world.rests i = w.rests i := by
  unfold enterDriver
  split
  · rfl
  · exact rests_setEngine' rfl

@[simp] theorem rests_notify (target : EffectRef) (signal : Signal) :
    (w.notify target signal).world.rests i = w.rests i := by
  unfold notify
  split
  · rfl
  · simp

/-! ## Changes of bodies -/

/-- Whoever has a body at rest had it before. -/
def Sheds (i : MiddlewareId) (w w' : World) : Prop :=
  ∀ ⦃t q⦄, w'.rests i t = some q → w.rests i t = some q

namespace Sheds

theorem of_eq (h : w'.rests i = w.rests i) : Sheds i w w' := fun _ _ hb => by rwa [← h]

theorem trans (h : Sheds i w w') (h' : Sheds i w' w'') : Sheds i w w'' := fun _ _ hq => h (h' hq)

theorem setTask (w : World) (t : TaskId) {f : TaskNode → TaskNode} (hf : ∀ n, (f n).atRest = none) :
    Sheds i w (w.setTask j t f) := by
  intro u q hq
  rw [World.rests, task?, World.setTask] at hq
  rcases engine_setEngine_or w i j (fun e => { e with tasks := e.tasks.modify t f }) with
    he | ⟨rfl, -, he⟩
  · rwa [he] at hq
  · rw [he, Table.get?_modify] at hq
    split at hq
    · rw [Option.bind_map] at hq
      obtain ⟨n, -, hn⟩ := Option.bind_eq_some_iff.1 hq
      cases (hf n).symm.trans hn
    · exact hq

theorem beginTurn (w : World) (t : TaskId) (expected : Option EffectId) (signal : Option Signal) :
    Sheds i w (w.beginTurn j t expected signal).world := by
  unfold World.beginTurn
  split
  · exact of_eq rfl
  · split
    · exact of_eq rfl
    · split
      · exact of_eq rfl
      · have hs : Sheds i w ((w.setTask j t fun n => { n with body := none, status := .running }).setEngine
            j fun e => { e with current := some t }) :=
          (setTask w t fun _ => rfl).trans (of_eq (rests_setEngine' rfl))
        split <;> exact hs

theorem announce (w : World) (t : TaskId) (n : TaskNode) (o : Outcome) :
    Sheds i w (w.announce j t n o) := by
  intro u q hq
  rw [World.announce, rests_record, rests_foldl fun _ _ => rests_schedule _, rests_wakeWatches,
    World.rests, task?] at hq
  rcases engine_setEngine_or w i j (fun e =>
      { e with tasks := e.tasks.erase t, outcomes := e.outcomes.insert t o }) with he | ⟨rfl, -, he⟩
  · rwa [he] at hq
  · rw [he, Table.get?_erase] at hq
    split at hq
    · cases hq
    · exact hq

theorem finalize (w : World) (t : TaskId) (o : Outcome) : Sheds i w (w.finalize j t o).2 := by
  cases hn : w.task? j t with
  | none =>
    rw [finalize_of_absent hn]
    exact of_eq rfl
  | some n =>
    refine (announce (j := j) w t n o).trans (of_eq ?_)
    have hset (p : TaskId) (cs : List TaskId) : ((w.announce j t n o).setTask j p fun m =>
        { m with children := cs }).rests i = (w.announce j t n o).rests i :=
      rests_setTask fun _ => rfl
    rw [finalize_eq hn]
    simp only
    split
    · split
      · rfl
      · split
        · rfl
        · split
          · exact hset _ _
          · split <;> exact hset _ _
    · split <;> simp

theorem cascadeOn {r : Option Cascade × World} (h : Sheds i w r.2) :
    Sheds i w (World.cascadeOn j r).world := by
  unfold World.cascadeOn
  split <;> exact h

end Sheds

/-- A new task has the body of its program. -/
theorem rests_createTask {saga : Saga} {parent : Option TaskId} {detached : Bool}
    {q : Body × Option EffectId}
    (h : (w.createTask j saga parent detached).rests i t = some q) :
    w.rests i t = some q ∨ t = (w.engine i).nextTask ∧ q = (saga.program.start t, none) := by
  have hset (u : World) (p : TaskId) (q : TaskId) : (u.setTask j p fun n =>
      { n with children := n.children ++ [q] }).rests i = u.rests i := rests_setTask fun _ => rfl
  let node : TaskNode :=
    { name := saga.name, parent, detached, body := some (saga.program.start (w.engine j).nextTask) }
  have h : (w.setEngine j fun e =>
      { e with
        nextTask := (w.engine j).nextTask + 1
        tasks := e.tasks.insert (w.engine j).nextTask node }).rests i t = some q := by
    unfold createTask at h
    rw [rests_record] at h
    cases parent with
    | none => exact h
    | some p =>
      cases detached with
      | false => rwa [← hset]
      | true => exact h
  rw [rests, task?] at h
  rcases engine_setEngine_or w i j (fun e =>
      { e with
        nextTask := (w.engine j).nextTask + 1
        tasks := e.tasks.insert (w.engine j).nextTask node }) with he | ⟨rfl, -, he⟩
  · rw [he] at h
    exact Or.inl h
  · rw [he, Table.get?_insert] at h
    split at h
    · rename_i ht
      cases h
      exact Or.inr ⟨ht, by rw [ht]⟩
    · exact Or.inl h

/-- A body is parked with its task. -/
theorem rests_park {u : TaskId} {body : Body} {pending : Option EffectId}
    {q : Body × Option EffectId} (h : (w.park j u body pending).rests i t = some q) :
    w.rests i t = some q ∨ j = i ∧ u = t ∧ q = (body, pending) := by
  rw [rests, task?, park, World.setTask] at h
  rcases engine_setEngine_or w i j (fun e => { e with tasks := e.tasks.modify u fun node =>
      { node with body := some body, pending, status := .suspended } }) with he | ⟨rfl, -, he⟩
  · rw [he] at h
    exact Or.inl h
  · rw [he, Table.get?_modify] at h
    split at h
    · rename_i ht
      cases hn : (w.engine i).tasks.get? u with
      | none => rw [hn] at h; cases h
      | some n =>
        rw [hn] at h
        cases h
        exact Or.inr ⟨rfl, ht.symm, rfl⟩
    · exact Or.inl h

/-! ## What instructions do -/

section

variable {turn : Turn} {b : Body} {nests : List Nest} {x : EffectId}

@[simp] theorem rests_putForEffect (c : ChannelId) (v : Value) :
    (w.putForEffect j c v x).world.rests i = w.rests i := by
  unfold putForEffect
  split
  · simp
  · dsimp only
    split <;> simp

theorem Sheds.execPerform (w : World) (job : Job) : Sheds i w (w.execPerform j job).world := by
  cases job with
  | reaction r =>
    cases r with
    | start t => exact .beginTurn w t _ _
    | resume t signal => exact .beginTurn w t _ _
    | settle y signal =>
      simp only [World.execPerform]
      split
      · exact .of_eq (rests_settleWait y signal)
      · exact Sheds.trans (.of_eq (rests_settleWait y signal)) (.beginTurn _ _ _ _)
  | errand e => cases e <;> exact .of_eq (by simp [World.execPerform])

@[simp] theorem rests_finishEmit (a : Action) (sender : Sender) (result : Except Fault Unit) :
    (w.finishEmit j a sender result).world.rests i = w.rests i := by
  unfold finishEmit
  split
  · simp
  · rfl
  · split <;> simp

@[simp] theorem rests_execForwarded (a : Action) (sender : Sender) :
    (w.execForwarded j a sender).world.rests i = w.rests i := by
  unfold execForwarded
  split
  · rfl
  · split <;> simp

@[simp] theorem rests_execEmit (a : Action) (sender : Sender) :
    (w.execEmit j a sender).world.rests i = w.rests i := by
  unfold execEmit
  split
  · rfl
  · dsimp only
    split <;> rfl

@[simp] theorem rests_immediate (signal : Signal) :
    (w.immediate turn b nests x signal).world.rests i = w.rests i := rfl

@[simp] theorem rests_suspend (kind : WaitKind) :
    (w.suspend turn b nests x kind).world.rests i = w.rests i := by
  simp [suspend]

@[simp] theorem rests_awaitDeferred (d : DeferredId) :
    (w.awaitDeferred turn b nests x d).world.rests i = w.rests i := by
  have hs : (w.suspend turn b nests x (.call d)).world.rests i = w.rests i := rests_suspend _
  unfold awaitDeferred
  simp only
  split
  · exact hs
  · split
    · exact (rests_congr rfl).trans hs
    · exact (rests_schedule _).trans ((rests_congr rfl).trans hs)

theorem rests_execAnswer (result : AnswerExpr) (env : Env) :
    (w.execAnswer turn b nests x result env).world.rests i = w.rests i := by
  cases result with
  | deferred name =>
    simp only [execAnswer]
    split <;> simp
  | _ => simp [execAnswer]

@[simp] theorem rests_startTake (source : Source) (p : Pattern) :
    (w.startTake turn b nests x source p).world.rests i = w.rests i := by
  cases source with
  | bus =>
    have hb : (w.setEngine turn.mw fun e =>
        { e with bus := ((w.engine turn.mw).bus.take turn.task p x).bus }).rests i = w.rests i :=
      rests_setEngine' rfl
    simp only [startTake]
    split
    · exact hb
    · exact (rests_suspend _).trans hb
  | channel c =>
    simp only [startTake]
    split
    · rfl
    · split <;> simp

@[simp] theorem rests_startPut (target : Target) :
    (w.startPut turn b nests x target).world.rests i = w.rests i := by
  simp [startPut]

@[simp] theorem rests_startCall (routine : Routine) :
    (w.startCall turn b nests x routine).world.rests i = w.rests i := by
  cases routine with
  | scripted c env =>
    simp only [startCall]
    cases c.label <;> rfl
  | sleep ms => simp [startCall]

@[simp] theorem rests_startJoin (target : TaskRef) :
    (w.startJoin turn b nests x target).world.rests i = w.rests i := by
  have hj : (w.setTask turn.mw target.id fun n => { n with joiners := n.joiners ++ [x] }).rests i =
      w.rests i := rests_setTask fun _ => rfl
  unfold startJoin
  split
  · rfl
  · split
    · rfl
    · split
      · rfl
      · split
        · rfl
        · exact (rests_suspend _).trans hj

@[simp] theorem rests_startRace (keys : Option (List String)) (members : List Effect) :
    (w.startRace turn b nests x keys members).world.rests i = w.rests i := by
  cases members <;> simp [startRace, invalid]

@[simp] theorem rests_startKeyedRace (members : List (String × Effect)) :
    (w.startKeyedRace turn b nests x members).world.rests i = w.rests i := by
  unfold startKeyedRace
  split
  · rfl
  · exact rests_startRace _ _

@[simp] theorem rests_startAll (members : List Effect) :
    (w.startAll turn b nests x members).world.rests i = w.rests i := by
  cases members <;> simp [startAll]

@[simp] theorem rests_startCancel (target : Option TaskRef) :
    (w.startCancel turn b nests x target).world.rests i = w.rests i := by
  unfold startCancel
  split
  · rfl
  · split <;> rfl

@[simp] theorem rests_startSelect (key : Option String) :
    (w.startSelect turn b nests x key).world.rests i = w.rests i := by
  simp [startSelect]

/-- The start of an effect leaves the bodies at rest alone; a new task comes with its own. -/
theorem rests_execTrigger {e : Effect} {q : Body × Option EffectId}
    (h : (w.execTrigger turn b nests e).world.rests i t = some q) :
    w.rests i t = some q ∨
      t = (w.engine i).nextTask ∧ ∃ saga : Saga, q = (saga.program.start t, none) := by
  let w₁ := (w.setEngine turn.mw fun g =>
    { g with nextEffect := (w.engine turn.mw).nextEffect + 1 }).record turn.mw
      (.triggered turn.task (w.engine turn.mw).nextEffect (Nest.link nests).parent? e)
  have h₁ : w₁.rests i = w.rests i := (rests_record _).trans (rests_setEngine' rfl)
  have hn : (w₁.engine i).nextTask = (w.engine i).nextTask := by
    rcases engine_setEngine_or w i turn.mw (fun g =>
      { g with nextEffect := (w.engine turn.mw).nextEffect + 1 }) with he | ⟨-, -, he⟩
    · exact congrArg Engine.nextTask he
    · exact (congrArg Engine.nextTask he).trans rfl
  have hw : ∀ c : Config, c.world.rests i = w₁.rests i → c.world.rests i t = some q →
      w.rests i t = some q := fun c hc hb => by rwa [hc, h₁] at hb
  unfold execTrigger at h
  split at h
  · exact Or.inl h
  · cases e with
    | take source p => exact Or.inl (hw _ (rests_startTake source p) h)
    | put target => exact Or.inl (hw _ (rests_startPut target) h)
    | call name routine => exact Or.inl (hw _ (rests_startCall routine) h)
    | join target => exact Or.inl (hw _ (rests_startJoin target) h)
    | race members => exact Or.inl (hw _ (rests_startKeyedRace members) h)
    | racePositional members => exact Or.inl (hw _ (rests_startRace none members) h)
    | all members => exact Or.inl (hw _ (rests_startAll members) h)
    | cancel target => exact Or.inl (hw _ (rests_startCancel target) h)
    | select key => exact Or.inl (hw _ (rests_startSelect key) h)
    | fork saga detached =>
      replace h : (w₁.createTask turn.mw saga (some turn.task) detached).rests i t = some q := by
        rw [← h]
        exact congrFun (rests_schedule _).symm t
      rcases rests_createTask h with hb | ⟨ht, hb⟩
      · exact Or.inl (by rwa [h₁] at hb)
      · exact Or.inr ⟨ht.trans hn, saga, hb⟩

/-! ### After a start -/

theorem rests_execBegun (start : Start) :
    (w.execBegun turn b nests start).world.rests i = w.rests i := by
  cases nests with
  | nil =>
    simp only [execBegun, resumeBody]
    split
    · rfl
    · split <;> simp
    · split
      · rfl
      · split
        · rfl
        · split <;> rfl
        · split <;> rfl
  | cons nest nests =>
    have hall (u : World) (y : EffectId) (slot : Nat) (rest : List Effect) :
        (u.nextOfAll turn b y slot rest nests).world.rests i = u.rests i := by
      unfold nextOfAll
      split
      · rfl
      · split <;> simp
    have hrace (u : World) (y : EffectId) (slot : Nat) (rest : List Effect) :
        (u.nextOfRace turn b y slot rest nests).world.rests i = u.rests i := by
      unfold nextOfRace
      split <;> rfl
    cases nest with
    | race y slot rest =>
      simp only [execBegun, begunInRace]
      split
      · rw [hrace, rests_setMember]
      · simp
      · split <;> simp
    | all y slot rest =>
      simp only [execBegun, begunInAll]
      split
      · rw [hall, rests_setMember]
      · simp
      · rw [hall, rests_setWaits]
      · simp only [rests_immediate]
        split <;> simp

end

/-! ### The end of tasks -/

/-- The end of a step parks the body, or leaves those alone that are at rest. -/
theorem rests_execLeave {turn : Turn} {body : Body} {exit : Exit} {q : Body × Option EffectId}
    (h : (w.execLeave turn body exit).world.rests i t = some q) :
    w.rests i t = some q ∨ turn = ⟨i, t⟩ ∧ q.1 = body ∧ exit.parks? = some q.2 := by
  have hc : (w.setEngine turn.mw fun e => { e with current := none }).rests i = w.rests i :=
    rests_setEngine' rfl
  have hpark {pending : Option EffectId} (hp : exit.parks? = some pending)
      (h : ((w.setEngine turn.mw fun e =>
      { e with current := none }).park turn.mw turn.task body pending).rests i t = some q) :
      w.rests i t = some q ∨ turn = ⟨i, t⟩ ∧ q.1 = body ∧ exit.parks? = some q.2 := by
    rcases rests_park h with hb | ⟨rfl, rfl, rfl⟩
    · exact Or.inl (by rwa [hc] at hb)
    · exact Or.inr ⟨rfl, rfl, hp⟩
  unfold execLeave at h
  cases exit with
  | suspended id => exact hpark rfl h
  | yielded signal =>
    refine hpark rfl ?_
    rw [← rests_schedule]
    exact h
  | finished a =>
    cases a <;>
    · left
      rw [← hc]
      exact h
  | ended | halted =>
    left
    rw [← hc]
    exact h

theorem rests_execReturned (turn : Turn) (v : Value) :
    (w.execReturned turn v).world.rests i = w.rests i := by
  unfold execReturned
  split
  · rfl
  · split
    · rfl
    · split <;> exact rests_setTask fun _ => rfl

theorem rests_execCancel (root : TaskId) : (w.execCancel j root).world.rests i = w.rests i := by
  have hset (u : World) (t : TaskId) :
      (u.setTask j t fun n => { n with status := .cancelled }).rests i = u.rests i :=
    rests_setTask fun _ => rfl
  unfold execCancel
  simp only
  split
  · exact rests_foldl hset w _
  · rfl

theorem Sheds.execAbortDone (w : World) (turn : Turn) (f : Fault) (current : Bool) :
    Sheds i w (w.execAbortDone turn f current).world := by
  unfold World.execAbortDone
  split
  · exact .of_eq (rests_setEngine' rfl)
  · exact .cascadeOn (.finalize w turn.task _)

theorem Sheds.execConclude (w : World) (turn : Turn) :
    Sheds i w (w.execConclude turn).world := by
  have hs : (w.setEngine turn.mw fun e => { e with halted := none }).rests i = w.rests i :=
    rests_setEngine' rfl
  exact cascadeOn (Sheds.trans (.of_eq hs) (finalize _ turn.task _))

theorem Sheds.execAbort (w : World) (turn : Turn) (f : Fault) :
    Sheds i w (w.execAbort turn f).world := by
  unfold World.execAbort
  split
  · exact .of_eq rfl
  · split
    · exact .of_eq rfl
    · have hs : Sheds i w (w.setTask turn.mw turn.task fun n =>
          { n with status := .aborted, pending := none, body := none }) :=
        setTask w turn.task fun _ => rfl
      exact hs.trans (.of_eq (rests_cancelPending _))

theorem Sheds.execCancelEach (w : World) (order : List TaskId) (cascades : List Cascade) :
    Sheds i w (w.execCancelEach j order cascades).world := by
  cases order with
  | nil => exact .of_eq rfl
  | cons t rest =>
    simp only [World.execCancelEach]
    split
    · exact .of_eq rfl
    · have hs : Sheds i w (w.setTask j t fun n => { n with pending := none, body := none }) :=
        setTask w t fun _ => rfl
      exact hs.trans (.of_eq (by rw [rests_cancelPending]))

theorem Sheds.execCancelOne (w : World) (turn : Turn) (current : Bool) (rest : List TaskId)
    (cascades : List Cascade) : Sheds i w (w.execCancelOne turn current rest cascades).world := by
  unfold World.execCancelOne
  split
  · exact .of_eq (rests_setEngine' rfl)
  · exact finalize w turn.task .cancelled

theorem Sheds.execCascade (w : World) (c : Cascade) : Sheds i w (w.execCascade j c).world := by
  cases c with
  | abort t f => exact .of_eq rfl
  | complete t =>
    simp only [World.execCascade]
    split
    · exact .of_eq rfl
    · split
      · exact .of_eq rfl
      · split
        · exact .of_eq rfl
        · have hs : (w.setTask j t fun n => { n with result := none }).rests i = w.rests i :=
            rests_setTask fun _ => rfl
          exact cascadeOn (Sheds.trans (.of_eq hs) (finalize _ t _))

/-! ### Operations -/

@[simp] theorem rests_answerOp (site : Site) (o : Op) (r : Reply) :
    (w.answerOp site o r).world.rests i = w.rests i := rfl

@[simp] theorem rests_execReply (site : Site) (name : String) (r : Reply) :
    (w.execReply site name r).world.rests i = w.rests i := by
  cases site <;> rfl

@[simp] theorem rests_register (label : Option String) (v : Value) :
    (w.register label v).rests i = w.rests i := by
  unfold register
  split <;> rfl

@[simp] theorem rests_opDispatch (site : Site) (a : Action) :
    (w.opDispatch site j a).world.rests i = w.rests i := by
  unfold opDispatch
  split
  · simp
  · exact rests_setEngine' rfl

@[simp] theorem rests_opFinish (site : Site) :
    (w.opFinish site j).world.rests i = w.rests i := by
  unfold opFinish
  split
  · simp
  · exact (rests_enterDriver _).trans rests_endBus

@[simp] theorem rests_opCancel (site : Site) (t : TaskRef) :
    (w.opCancel site t).world.rests i = w.rests i := by
  unfold opCancel
  split
  · rfl
  · exact rests_enterDriver _

@[simp] theorem rests_opPut (site : Site) (c : ChannelId) (channel : Channel Sink) (v : Value) :
    (w.opPut site c channel v).world.rests i = w.rests i := by
  unfold opPut
  simp only
  split <;> simp

@[simp] theorem rests_opTake (site : Site) (env : Env) (c : ChannelId) (channel : Channel Sink)
    (p : Pattern) (tag : String) (next : List Op) :
    (w.opTake site env c channel p tag next).world.rests i = w.rests i := by
  unfold opTake
  simp only
  split <;> simp

theorem Sheds.settleDeferred (w : World) (d : DeferredId) (a : Answer) :
    Sheds i w (w.settleDeferred d a).2.world := by
  unfold World.settleDeferred
  split
  · exact .of_eq rfl
  · simp only
    split
    · exact .of_eq rfl
    · exact .of_eq (rests_notify _ _)

theorem Sheds.opDrop (w : World) (site : Site) : Sheds i w (w.opDrop site j).world := by
  unfold World.opDrop
  split
  · intro t b hb
    by_cases hij : i = j
    · subst hij
      rw [World.rests, task?, engine_of_get? ((Table.get?_insert ..).trans (if_pos rfl))] at hb
      cases hb
    · simp only [World.rests, task?, World.engine, Table.get?_insert, if_neg hij] at hb
      exact hb
  · exact .of_eq rfl
  · exact .of_eq rfl

theorem Sheds.moveClock (w : World) (target : Nat) :
    Sheds i w (w.execMoveClock target).world := by
  unfold World.execMoveClock
  split
  · exact .of_eq rfl
  · rename_i u hu
    have hs := Sheds.settleDeferred (i := i)
      { w with now := u.deadline, timers := w.timers.filter fun v => v.id ≠ u.id } u.deferred u.answer
    exact Sheds.trans (.of_eq rfl) hs

/-- An operation leaves bodies alone, but that a new task comes with its own. -/
theorem rests_runOp {site : Site} {env : Env} {o : Op} {q : Body × Option EffectId}
    (h : (w.runOp site env o).world.rests i t = some q) :
    w.rests i t = some q ∨
      t = (w.engine i).nextTask ∧ ∃ saga : Saga, q = (saga.program.start t, none) := by
  have hmw {k : MiddlewareId} {f : Middleware → Config} {P : Prop}
      (hf : ∀ m, (f m).world.rests i t = some q → P) (hw : w.rests i t = some q → P)
      (h : (w.withMiddleware site o k f).world.rests i t = some q) : P := by
    unfold withMiddleware at h
    split at h
    · exact hw h
    · exact hf _ h
  have htask {e : Expr} {f : TaskRef → Config} (hf : ∀ u, (f u).world.rests i = w.rests i)
      (h : (w.withTask site env o e f).world.rests i t = some q) : w.rests i t = some q := by
    unfold withTask at h
    split at h
    · rwa [hf] at h
    · exact h
  have hchan {name : String} {f : ChannelId → Channel Sink → Config}
      (hf : ∀ c channel, (f c channel).world.rests i t = some q → w.rests i t = some q)
      (h : (w.withChannel site o name f).world.rests i t = some q) : w.rests i t = some q := by
    unfold withChannel at h
    split at h
    · exact h
    · split at h
      · exact h
      · exact hf _ _ h
  have hsettle {name : String} {a : Answer}
      (h : (w.opSettle site o name a).world.rests i t = some q) : w.rests i t = some q := by
    unfold opSettle at h
    split at h
    · exact h
    · exact Sheds.settleDeferred w _ a h
  cases o with
  | run k e label =>
    refine hmw (fun m hm => ?_) Or.inl h
    have hm : (w.createTask k (w.evalSaga env e) none false).rests i t = some q := by
      rw [← rests_schedule, ← rests_enterDriver]
      exact hm
    rcases rests_createTask hm with hb | ⟨ht, hb⟩
    · exact Or.inl hb
    · exact Or.inr ⟨ht, _, hb⟩
  | dispatch k a => exact Or.inl (hmw (fun m hm => by rwa [rests_opDispatch] at hm) (fun h => h) h)
  | finish k => exact Or.inl (hmw (fun m hm => by rwa [rests_opFinish] at hm) (fun h => h) h)
  | live k | settings k => exact Or.inl (hmw (fun m hm => hm) (fun h => h) h)
  | state k =>
    exact Or.inl (hmw (fun m hm => by rwa [rests_answerOp, rests_readState] at hm) (fun h => h) h)
  | cancel e => exact Or.inl (htask (fun u => rests_opCancel site u) h)
  | inspect e => exact Or.inl (htask (fun u => rfl) h)
  | watch e tag =>
    refine Or.inl (htask (fun u => ?_) h)
    exact rests_untouched (Bears.untouched_opWatch u tag)
  | put name e => exact Or.inl (hchan (fun c channel hm => by rwa [rests_opPut] at hm) h)
  | take name p tag next =>
    exact Or.inl (hchan (fun c channel hm => by rwa [rests_opTake] at hm) h)
  | untake tag =>
    refine Or.inl ?_
    rwa [runOp, rests_answerOp, rests_untouched (Bears.untouched_opUntake tag)] at h
  | close name => exact Or.inl (hchan (fun c channel hm => hm) h)
  | showChannel name => exact Or.inl (hchan (fun c channel hm => hm) h)
  | resolve name e | reject name f => exact Or.inl (hsettle h)
  | showDeferred name =>
    refine Or.inl ?_
    simp only [runOp] at h
    split at h <;> exact h
  | drop k => exact Or.inl (Sheds.opDrop w site h)
  | advance ms =>
    refine Or.inl ?_
    simp only [runOp, opAdvance] at h
    split at h <;> exact h
  | sameTask | wakes | sameChannel | log | unknown => exact Or.inl h

theorem rests_execOp {site : Site} {env : Env} {o : Op} {q : Body × Option EffectId} {c : Config}
    (ho : w.execOp site env o = some c) (h : c.world.rests i t = some q) :
    w.rests i t = some q ∨
      t = (w.engine i).nextTask ∧ ∃ saga : Saga, q = (saga.program.start t, none) := by
  obtain ⟨v, hv, rfl⟩ := Option.map_eq_some_iff.1 ho
  obtain ⟨n, rfl⟩ := World.spend_eq hv
  rcases rests_runOp h with hb | ⟨ht, hb⟩
  · left
    rwa [rests_congr rfl] at hb
  · exact Or.inr ⟨ht, hb⟩

end World

/--
A body that is at rest with a task was so before, or it was parked just now, or the task is new.
-/
theorem Instr.rests_of_exec {w : World} {x : Instr} {c : Config} {i : MiddlewareId} {t : TaskId}
    {q : Body × Option EffectId} (hx : x.exec w = some c) (h : c.world.rests i t = some q) :
    w.rests i t = some q ∨ (∃ exit, x = .leave ⟨i, t⟩ q.1 exit ∧ exit.parks? = some q.2) ∨
      t = (w.engine i).nextTask ∧ ∃ saga : Saga, q = (saga.program.start t, none) := by
  have keep {w' : World} (hs : w.Sheds i w') (hb : w'.rests i t = some q) :
      w.rests i t = some q ∨ (∃ exit, x = .leave ⟨i, t⟩ q.1 exit ∧ exit.parks? = some q.2) ∨
        t = (w.engine i).nextTask ∧ ∃ saga : Saga, q = (saga.program.start t, none) := Or.inl (hs hb)
  have born (hb : w.rests i t = some q ∨
      t = (w.engine i).nextTask ∧ ∃ saga : Saga, q = (saga.program.start t, none)) :
      w.rests i t = some q ∨ (∃ exit, x = .leave ⟨i, t⟩ q.1 exit ∧ exit.parks? = some q.2) ∨
        t = (w.engine i).nextTask ∧ ∃ saga : Saga, q = (saga.program.start t, none) :=
    hb.imp_right Or.inr
  cases x <;> simp only [Instr.exec, Option.some.injEq] at hx <;> try subst hx
  case drain j =>
    refine keep (.of_eq ?_) h
    unfold World.execDrain
    split <;> exact World.rests_setEngine' rfl
  case perform j job => exact keep (.execPerform w job) h
  case schedule j r => exact keep (.of_eq (World.rests_schedule r)) h
  case poll turn body a =>
    have hgo : World.Enacts.GoesOn turn (w.record turn.mw (.polled turn.task a))
        (w.execPoll turn body a) := World.Enacts.GoesOn.execPoll body a
    exact keep (.of_eq ((World.rests_untouched (hgo.untouched i)).trans (World.rests_record _))) h
  case advance turn s m =>
    exact keep (.of_eq (World.rests_untouched ((World.Enacts.GoesOn.execAdvance hx).untouched i))) h
  case polled turn body step =>
    refine keep (.of_eq ?_) h
    unfold World.execPolled
    split
    · rfl
    · split <;> rfl
  case trigger turn body nests e => exact born (World.rests_execTrigger h)
  case answer turn body nests id result env =>
    exact keep (.of_eq (World.rests_execAnswer result env)) h
  case cancelDone turn body nests id =>
    refine keep (.of_eq ?_) h
    unfold World.execCancelDone
    split <;> rfl
  case begun turn body nests start => exact keep (.of_eq (World.rests_execBegun start)) h
  case leave turn body exit =>
    rcases World.rests_execLeave h with hb | ⟨rfl, rfl, hp⟩
    · exact Or.inl hb
    · exact Or.inr (Or.inl ⟨exit, rfl, hp⟩)
  case dropBody turn body => exact keep (.of_eq rfl) h
  case returned turn v => exact keep (.of_eq (World.rests_execReturned turn v)) h
  case abort turn f => exact keep (.execAbort w turn f) h
  case abortDone turn f current => exact keep (.execAbortDone w turn f current) h
  case conclude turn => exact keep (.execConclude w turn) h
  case cascade j c => exact keep (.execCascade w c) h
  case cancel j root => exact keep (.of_eq (World.rests_execCancel root)) h
  case cancelEach j order cascades => exact keep (.execCancelEach w order cascades) h
  case cancelOne turn current rest cascades => exact keep (.execCancelOne w turn current rest cascades) h
  case emit j a sender => exact keep (.of_eq (World.rests_execEmit a sender)) h
  case forwarded j a sender => exact keep (.of_eq (World.rests_execForwarded a sender)) h
  case deliver sink d =>
    refine keep (.of_eq ?_) h
    cases sink with
    | effect target => exact World.rests_notify target _
    | script tag next env => cases d <;> rfl
  case guards gs =>
    refine keep (.of_eq ?_) h
    cases gs <;> rfl
  case ops env os =>
    refine keep (.of_eq ?_) h
    cases os <;> rfl
  case op site env o => exact born (World.rests_execOp hx h)
  case reply site name r => exact keep (.of_eq (World.rests_execReply site name r)) h
  case started site label u => exact keep (.of_eq (World.rests_register label _)) h
  case registered site tag c id => exact keep (.of_eq rfl) h
  case moveClock target =>
    exact keep (.moveClock w target) h

end SagaMachine
