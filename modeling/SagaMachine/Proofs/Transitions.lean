import SagaMachine.Proofs.Core

/-!
# What transitions do to the core

For every transition of the interpreter: what becomes of the core of its middleware, and
which events it adds (`Advances`); other middlewares are left alone (`Untouched`). The
registrations that a transition makes or gives up do not show here.
-/

namespace SagaMachine

/-- The event that tells of a passage. -/
def Passage.event : Passage → Event
  | .withdrawn id _ => .withdrawn id
  | .settled id signal => .settled id signal

/-- An event that is not about a task or an effect. -/
def Event.IsQuiet : Event → Prop
  | .uncaught .. | .queued .. | .fetched _ | .dispatched _ | .busEnded _ | .refused .. |
    .unreadable => True
  | _ => False

/-- A task that was just created. -/
def Posture.fresh (parent : Option TaskId) (detached : Bool) : Posture where
  parent := parent
  detached := detached
  children := []
  status := .created
  hasBody := true
  pending := none
  result := none

/-- A new task: it has the next number, and its parent knows of it if it is attached. -/
def Core.create (k : Core) (parent : Option TaskId) (detached : Bool) : Core :=
  let id := k.nextTask
  let k' : Core := { k.add id (.fresh parent detached) with nextTask := id + 1 }
  match parent, detached with
  | some p, false => k'.alter p fun q => { q with children := q.children ++ [id] }
  | _, _ => k'

/-- The creation of a task changes how tasks stand and the next number, and nothing else. -/
theorem Core.create_eq (k : Core) (parent : Option TaskId) (detached : Bool) :
    k.create parent detached =
      { k with posture := (k.create parent detached).posture, nextTask := k.nextTask + 1 } := by
  unfold Core.create
  split <;> rfl

/--
The end of a task: it leaves the table, and its parent, if the task was attached to it
and the parent is not terminal, does not count it among its children any more.
-/
def Core.bury (k : Core) (t : TaskId) : Core :=
  match k.posture t with
  | none => k
  | some p =>
    match p.parent, p.detached with
    | some parent, false =>
      match (k.remove t).posture parent with
      | none => k.remove t
      | some above =>
        if above.status.isTerminal then k.remove t
        else
          let children := above.children.filter (· ≠ t)
          (k.remove t).alter parent fun q => { q with children }
    | _, _ => k.remove t

/-- The end of a task changes how tasks stand, and nothing else. -/
theorem Core.bury_eq (k : Core) (t : TaskId) :
    k.bury t = { k with posture := (k.bury t).posture } := by
  unfold Core.bury
  split
  · rfl
  · split
    · split
      · rfl
      · split <;> rfl
    · rfl

/-- What the end of a task means for its parent. -/
def Core.cascade (k : Core) (t : TaskId) (outcome : Outcome) : Option Cascade :=
  match k.posture t with
  | none => none
  | some p =>
    match p.parent, p.detached with
    | some parent, false =>
      match (k.remove t).posture parent with
      | none => none
      | some above =>
        if above.status.isTerminal then none
        else
          match outcome with
          | .aborted f => some (.abort parent f)
          | _ =>
            if above.result.isSome && (above.children.filter (· ≠ t)).isEmpty then
              some (.complete parent)
            else none
    | _, _ => none

namespace World

variable {w w' w'' : World} {i j : MiddlewareId} {k : Core} {es : List Event}

theorem posture_core (w : World) (i : MiddlewareId) (t : TaskId) :
    (w.core i).posture t = (w.task? i t).map TaskNode.posture := rfl

/-! ## Transitions of other middlewares -/

theorem untouched_schedule (h : i ≠ j) (r : Reaction) : Untouched i w (w.schedule j r) :=
  untouched_setEngine h _

theorem untouched_queue (h : i ≠ j) (e : Errand) : Untouched i w (w.queue j e) :=
  (untouched_setEngine h _).trans (untouched_record h _)

theorem untouched_setTask (h : i ≠ j) (t : TaskId) (f : TaskNode → TaskNode) :
    Untouched i w (w.setTask j t f) := untouched_setEngine h _

theorem untouched_park (h : i ≠ j) (t : TaskId) (body : Body) (pending : Option EffectId) :
    Untouched i w (w.park j t body pending) := untouched_setTask h _ _

theorem untouched_deregister (h : i ≠ j) (id : EffectId) (kind : WaitKind) :
    Untouched i w (w.deregister j id kind) := by
  cases kind with
  | take source taker =>
    cases source with
    | bus =>
      simp only [deregister]
      exact untouched_setEngine h _
    | channel c => exact .of_eq rfl rfl
  | call d => exact untouched_unsubscribe d
  | join target =>
    simp only [deregister]
    exact untouched_setTask h _ _
  | _ => exact .refl i w

theorem untouched_pass (h : i ≠ j) (p : Passage) : Untouched i w (w.pass j p) := by
  cases p with
  | withdrawn id wait =>
    exact (untouched_deregister h id wait.kind).trans (untouched_record h _)
  | settled id signal => exact untouched_record h _

theorem untouched_setWaits (h : i ≠ j) (waits : Waits) : Untouched i w (w.setWaits j waits) :=
  untouched_setEngine h _

/-- The walks over the wait table: the table is replaced, and it is told what happened. -/
theorem untouched_walk (h : i ≠ j) (waits : Waits) (ps : List Passage) :
    Untouched i w ((w.setWaits j waits).passAll j ps) :=
  (untouched_setEngine h _).trans (Untouched.foldl (fun _ p => untouched_pass h p) _ ps)

theorem untouched_insertWait (h : i ≠ j) (id : EffectId) (wait : Wait) :
    Untouched i w (w.insertWait j id wait) := untouched_setEngine h _

theorem untouched_cancelPending (h : i ≠ j) (pending : Option EffectId) :
    Untouched i w (w.cancelPending j pending) := by
  cases pending with
  | none => exact .refl i w
  | some id => exact untouched_walk h _ _

theorem untouched_createTask (h : i ≠ j) (saga : Saga) (parent : Option TaskId)
    (detached : Bool) : Untouched i w (w.createTask j saga parent detached) := by
  refine Untouched.trans ?_ (untouched_record h _)
  cases parent with
  | none => exact untouched_setEngine h _
  | some p =>
    cases detached with
    | true =>
      simp only [if_true]
      exact untouched_setEngine h _
    | false => exact (untouched_setEngine h _).trans (untouched_setTask h p _)

/-- A task leaves the table: its outcome is recorded and its joiners are told. -/
def announce (w : World) (i : MiddlewareId) (id : TaskId) (node : TaskNode)
    (outcome : Outcome) : World :=
  let w := w.setEngine i fun e =>
    { e with tasks := e.tasks.erase id, outcomes := e.outcomes.insert id outcome }
  let w := w.wakeWatches { owner := i, id, name := node.name }
  let w := node.joiners.foldl
    (fun w joiner => w.schedule i (.settle joiner (.ofOutcome outcome))) w
  w.record i (.taskFinished id outcome)

theorem untouched_announce (h : i ≠ j) (t : TaskId) (n : TaskNode) (outcome : Outcome) :
    Untouched i w (w.announce j t n outcome) := by
  refine Untouched.trans ?_ (untouched_record h _)
  refine Untouched.trans ?_ (Untouched.foldl (fun _ _ => untouched_schedule h _) _ _)
  exact (untouched_setEngine h _).trans (untouched_wakeWatches _)

theorem finalize_eq {t : TaskId} {n : TaskNode} (h : w.task? i t = some n)
    (outcome : Outcome) :
    w.finalize i t outcome =
      let w := w.announce i t n outcome
      match n.parent, n.detached with
      | some parent, false =>
        match w.task? i parent with
        | none => (none, w)
        | some above =>
          if above.status.isTerminal then (none, w)
          else
            let children := above.children.filter (· ≠ t)
            let w := w.setTask i parent fun n => { n with children }
            match outcome with
            | .aborted f => (some (.abort parent f), w)
            | _ =>
              if above.result.isSome && children.isEmpty then (some (.complete parent), w)
              else (none, w)
      | _, _ =>
        match outcome with
        | .aborted f => (none, w.record i (.uncaught { owner := i, id := t, name := n.name } f))
        | _ => (none, w) := by
  rw [finalize, h]
  rfl

theorem finalize_of_absent {t : TaskId} (h : w.task? i t = none) (outcome : Outcome) :
    w.finalize i t outcome = (none, w) := by
  rw [finalize, h]

theorem untouched_finalize (h : i ≠ j) (t : TaskId) (outcome : Outcome) :
    Untouched i w (w.finalize j t outcome).2 := by
  cases hn : w.task? j t with
  | none =>
    rw [finalize_of_absent hn]
    exact .refl i w
  | some n =>
    have h1 : Untouched i w (w.announce j t n outcome) := untouched_announce h t n outcome
    rw [finalize_eq hn]
    simp only
    split
    · split
      · exact h1
      · split
        · exact h1
        · split
          · exact h1.trans (untouched_setTask h _ _)
          · split <;> exact h1.trans (untouched_setTask h _ _)
    · split
      · exact h1.trans (untouched_record h _)
      · exact h1

theorem untouched_endBus (h : i ≠ j) : Untouched i w (w.endBus j) := by
  refine Untouched.trans ?_ (Untouched.foldl (fun _ _ => untouched_schedule h _) _ _)
  exact (untouched_setEngine h _).trans (untouched_record h _)

theorem untouched_broadcast (h : i ≠ j) (a : Action) : Untouched i w (w.broadcast j a) := by
  refine Untouched.trans ?_ (Untouched.foldl (fun _ _ => untouched_schedule h _) _ _)
  exact (untouched_setEngine h _).trans (untouched_enterNotes _)

theorem untouched_reduceHost (a : Action) : Untouched i w (w.reduceHost j a) := by
  refine ⟨?_, rfl, ?_⟩
  · simp only [engine, reduceHost, Table.get?_modify]
    by_cases h : i = j
    · subst h
      cases w.middlewares.get? i <;> simp
    · simp [h]
  · simp only [alive?, reduceHost, Table.get?_modify]
    by_cases h : i = j
    · subst h
      cases w.middlewares.get? i <;> simp
    · simp [h]

theorem untouched_readState (h : i ≠ j) : Untouched i w (w.readState j).2 := by
  unfold readState
  split
  · exact .refl i w
  · simp only
    split
    · exact .refl i w
    · exact untouched_record h _

/-! ## Transitions of the middleware -/

/-- The interpreter of a middleware went on: it has core `k` now, and did `es`. -/
structure Advances (i : MiddlewareId) (w w' : World) (k : Core) (es : List Event) : Prop where
  core : w'.core i = k
  past : w'.past i = es.reverse ++ w.past i
  alive : w'.alive? i = w.alive? i
  has : w.Has i

namespace Advances

theorem start (h : w.Has i) : Advances i w w (w.core i) [] := ⟨rfl, rfl, rfl, h⟩

theorem untouched (h : Advances i w w' k es) (h' : Untouched i w' w'') :
    Advances i w w'' k es :=
  ⟨h'.core.trans h.core, h'.past.trans h.past, h'.alive.trans h.alive, h.has⟩

theorem has' (h : Advances i w w' k es) : w'.Has i := by
  rw [has_iff, h.alive, ← has_iff]
  exact h.has

theorem setEngine (h : Advances i w w' k es) {f : Engine → Engine} (g : Core → Core)
    (hf : ∀ e, (f e).core = g e.core) : Advances i w (w'.setEngine i f) (g k) es := by
  refine ⟨?_, h.past, alive_setEngine.trans h.alive, h.has⟩
  rw [World.core, engine_setEngine h.has', hf, ← h.core]
  rfl

theorem setTask (h : Advances i w w' k es) {t : TaskId} {f : TaskNode → TaskNode}
    (g : Posture → Posture) (hf : ∀ n, (f n).posture = g n.posture) :
    Advances i w (w'.setTask i t f) (k.alter t g) es :=
  h.setEngine (f := fun e => { e with tasks := e.tasks.modify t f }) (fun k => k.alter t g)
    fun e => Engine.core_modify e t f g hf

theorem record (h : Advances i w w' k es) (e : Event) :
    Advances i w (w'.record i e) k (es ++ [e]) := by
  refine ⟨h.core, ?_, h.alive, h.has⟩
  rw [past_record, h.past, List.reverse_append]
  rfl

theorem schedule (h : Advances i w w' k es) (r : Reaction) :
    Advances i w (w'.schedule i r) (k.schedule [r]) es :=
  h.setEngine (f := fun e => { e with agenda := e.agenda.schedule r }) (fun k => k.schedule [r])
    fun _ => rfl

theorem foldl_schedule {α : Type} (h : Advances i w w' k es) (f : α → Reaction)
    (as : List α) :
    Advances i w (as.foldl (fun w a => w.schedule i (f a)) w') (k.schedule (as.map f)) es := by
  induction as generalizing w' k with
  | nil => simpa using h
  | cons a as ih =>
    have := ih (h.schedule (f a))
    simpa using this

theorem queue (h : Advances i w w' k es) (e : Errand) :
    ∃ n, Advances i w (w'.queue i e) { k with agenda := k.agenda.queue e }
      (es ++ [.queued e n]) := by
  have h1 : Advances i w (w'.setEngine i fun x => { x with agenda := x.agenda.queue e })
      { k with agenda := k.agenda.queue e } es :=
    h.setEngine (fun k => { k with agenda := k.agenda.queue e }) fun _ => rfl
  exact ⟨_, h1.record _⟩

theorem waits (h : Advances i w w' k es) : (w'.engine i).waits = k.waits := by
  rw [← h.core]
  rfl

/-! ### Pending effects -/

theorem deregister (h : Advances i w w' k es) (id : EffectId) (kind : WaitKind) :
    Advances i w (w'.deregister i id kind) k es := by
  cases kind with
  | take source taker =>
    cases source with
    | bus =>
      exact h.setEngine (f := fun e => { e with bus := e.bus.cancelTaker taker }) (fun k => k)
        fun _ => rfl
    | channel c => exact h.untouched (.of_eq rfl rfl)
  | call d => exact h.untouched (untouched_unsubscribe d)
  | join target =>
    have := h.setTask (t := target)
      (f := fun node => { node with joiners := node.joiners.filter (· ≠ id) }) (fun p => p)
      fun _ => rfl
    rwa [Core.alter_id] at this
  | _ => exact h

theorem passAll (h : Advances i w w' k es) (ps : List Passage) :
    Advances i w (w'.passAll i ps) k (es ++ ps.map Passage.event) := by
  induction ps generalizing w' es with
  | nil =>
    rw [List.map_nil, List.append_nil]
    exact h
  | cons p ps ih =>
    have h1 : Advances i w (w'.pass i p) k (es ++ [p.event]) := by
      cases p with
      | withdrawn id wait => exact (h.deregister id wait.kind).record _
      | settled id signal => exact h.record _
    have := ih h1
    rw [List.append_assoc] at this
    exact this

theorem setWaits (h : Advances i w w' k es) (waits : Waits) :
    Advances i w (w'.setWaits i waits) { k with waits } es :=
  h.setEngine (fun k => { k with waits }) fun _ => rfl

theorem walk (h : Advances i w w' k es) (waits : Waits) (ps : List Passage) :
    Advances i w ((w'.setWaits i waits).passAll i ps) { k with waits }
      (es ++ ps.map Passage.event) :=
  (h.setWaits waits).passAll ps

theorem insertWait (h : Advances i w w' k es) (id : EffectId) (wait : Wait) :
    Advances i w (w'.insertWait i id wait) { k with waits := k.waits.insert id wait } es :=
  h.setEngine (fun k => { k with waits := k.waits.insert id wait }) fun _ => rfl

theorem cancelWait (h : Advances i w w' k es) (id : EffectId) :
    Advances i w (w'.cancelWait i id) { k with waits := (Waits.detach k.waits [id]).2 }
      (es ++ (Waits.detach k.waits [id]).1.map Passage.event) := by
  rw [← h.waits]
  exact h.walk _ _

theorem cancelPending (h : Advances i w w' k es) (pending : Option EffectId) :
    Advances i w (w'.cancelPending i pending)
      { k with waits := (Waits.detach k.waits pending.toList).2 }
      (es ++ (Waits.detach k.waits pending.toList).1.map Passage.event) := by
  cases pending with
  | none => simpa [World.cancelPending, Waits.detach] using h
  | some id => exact h.cancelWait id

/-! ### Tasks -/

theorem park (h : Advances i w w' k es) (t : TaskId) (body : Body)
    (pending : Option EffectId) :
    Advances i w (w'.park i t body pending)
      (k.alter t fun p => { p with hasBody := true, pending, status := .suspended }) es :=
  h.setTask _ fun _ => rfl

theorem createTask (h : Advances i w w' k es) (saga : Saga) (parent : Option TaskId)
    (detached : Bool) :
    Advances i w (w'.createTask i saga parent detached) (k.create parent detached)
      (es ++ [.taskStarted k.nextTask parent saga.name]) := by
  have hid : (w'.engine i).nextTask = k.nextTask := by
    rw [← h.core]
    rfl
  have h1 : Advances i w
      (w'.setEngine i fun e =>
        { e with
          nextTask := k.nextTask + 1
          tasks := e.tasks.insert k.nextTask
            { name := saga.name, parent, detached,
              body := some (saga.program.start k.nextTask) } })
      { k.add k.nextTask (.fresh parent detached) with nextTask := k.nextTask + 1 } es := by
    refine h.setEngine
      (fun k' => { k'.add k.nextTask (.fresh parent detached) with nextTask := k.nextTask + 1 }) ?_
    intro e
    simp only [Engine.core, Core.add, Table.get?_insert, Core.mk.injEq, and_self, and_true]
    funext u
    by_cases hu : u = k.nextTask
    · simp [hu, TaskNode.posture, Posture.fresh]
    · simp [hu]
  simp only [World.createTask, hid]
  cases parent with
  | none => exact h1.record _
  | some p =>
    cases detached with
    | true => exact h1.record _
    | false => exact (h1.setTask _ fun _ => rfl).record _

theorem announce (h : Advances i w w' k es) (t : TaskId) (n : TaskNode) (outcome : Outcome) :
    Advances i w (w'.announce i t n outcome)
      ((k.remove t).schedule (n.joiners.map fun x => .settle x (.ofOutcome outcome)))
      (es ++ [.taskFinished t outcome]) := by
  have h1 : Advances i w
      (w'.setEngine i fun e =>
        { e with tasks := e.tasks.erase t, outcomes := e.outcomes.insert t outcome })
      (k.remove t) es := by
    refine h.setEngine (fun k => k.remove t) fun e => ?_
    simp only [Engine.core, Core.remove, Table.get?_erase, Core.mk.injEq, and_self, and_true]
    funext u
    by_cases hu : u = t <;> simp [hu]
  exact ((h1.untouched (untouched_wakeWatches _)).foldl_schedule _ _).record _

/-- What becomes of a task and of its parent when the outcome of the task is recorded. -/
theorem finalize (h : Advances i w w' k es) {t : TaskId} {n : TaskNode}
    (hn : w'.task? i t = some n) (outcome : Outcome) :
    (w'.finalize i t outcome).1 = k.cascade t outcome ∧
      ∃ quiet : List Event, (∀ e ∈ quiet, e.IsQuiet) ∧
        Advances i w (w'.finalize i t outcome).2
          ((k.bury t).schedule (n.joiners.map fun x => .settle x (.ofOutcome outcome)))
          (es ++ [.taskFinished t outcome] ++ quiet) := by
  have h1 := h.announce t n outcome
  have hpt : k.posture t = some n.posture := by
    rw [← h.core, posture_core, hn]
    rfl
  have hpu : ∀ u, (k.remove t).posture u =
      ((w'.announce i t n outcome).task? i u).map TaskNode.posture := by
    intro u
    rw [← posture_core, h1.core]
    rfl
  have hroot : ∀ o : Outcome, ∃ quiet : List Event, (∀ e ∈ quiet, e.IsQuiet) ∧
      Advances i w
        (match o with
          | .aborted f =>
            (none, (w'.announce i t n outcome).record i
              (.uncaught { owner := i, id := t, name := n.name } f))
          | _ => ((none : Option Cascade), w'.announce i t n outcome)).2
        ((k.remove t).schedule (n.joiners.map fun x => .settle x (.ofOutcome outcome)))
        (es ++ [.taskFinished t outcome] ++ quiet) := by
    intro o
    cases o with
    | aborted f => exact ⟨[_], by simp [Event.IsQuiet], h1.record _⟩
    | _ => exact ⟨[], by simp, by simpa using h1⟩
  rw [finalize_eq hn]
  simp only [Core.cascade, Core.bury, hpt, TaskNode.posture]
  split
  · rename_i parent hp hd
    rw [hpu parent]
    cases ha : (w'.announce i t n outcome).task? i parent with
    | none => exact ⟨rfl, [], by simp, by simpa using h1⟩
    | some above =>
      have hset : Advances i w
          ((w'.announce i t n outcome).setTask i parent fun n =>
            { n with children := above.children.filter (· ≠ t) })
          (((k.remove t).alter parent fun q =>
            { q with children := above.children.filter (· ≠ t) }).schedule
              (n.joiners.map fun x => .settle x (.ofOutcome outcome)))
          (es ++ [.taskFinished t outcome]) := h1.setTask _ fun _ => rfl
      simp only [Option.map_some, TaskNode.posture]
      by_cases hterm : above.status.isTerminal = true
      · simp only [hterm, if_true, true_and]
        exact ⟨[], by simp, by simpa using h1⟩
      · simp only [hterm, Bool.false_eq_true, if_false]
        cases outcome with
        | aborted f => exact ⟨rfl, [], by simp, by simpa using hset⟩
        | _ =>
          simp only
          split <;> exact ⟨rfl, [], by simp, by simpa using hset⟩
  · refine ⟨?_, hroot outcome⟩
    cases outcome <;> rfl

/-! ### The bus and the host -/

theorem endBus (h : Advances i w w' k es) :
    ∃ rs, Advances i w (w'.endBus i) (k.schedule rs) (es ++ [.busEnded k.nextTask]) ∧
      ∀ r ∈ rs, ∃ t ∈ (w'.engine i).bus.takers, r = .settle t.effect .ended := by
  have hid : (w'.engine i).nextTask = k.nextTask := by
    rw [← h.core]
    rfl
  have h1 : Advances i w (w'.setEngine i fun e =>
      { e with bus := ((w'.engine i).bus.finish (w'.engine i).nextTask).2 }) k es :=
    h.setEngine (fun k => k) fun _ => rfl
  have h2 := (h1.record (.busEnded (w'.engine i).nextTask)).foldl_schedule
    (fun t : BusTaker => .settle t.effect .ended) (w'.engine i).bus.takers
  rw [← hid]
  refine ⟨_, h2, ?_⟩
  intro r hr
  obtain ⟨t, ht, rfl⟩ := List.mem_map.1 hr
  exact ⟨t, ht, rfl⟩

theorem broadcast (h : Advances i w w' k es) (a : Action) :
    ∃ rs, Advances i w (w'.broadcast i a) (k.schedule rs) es ∧
      ∀ r ∈ rs, ∃ t ∈ ((w'.engine i).bus.broadcast a).woken,
        r = .settle t.effect (.value (.action a)) := by
  have h1 : Advances i w (w'.setEngine i fun e =>
      { e with bus := { e.bus with takers := ((w'.engine i).bus.broadcast a).kept } }) k es :=
    h.setEngine (fun k => k) fun _ => rfl
  have h2 := (h1.untouched (untouched_enterNotes ((w'.engine i).bus.broadcast a).notes)).foldl_schedule
    (fun t : BusTaker => .settle t.effect (.value (.action a)))
    ((w'.engine i).bus.broadcast a).woken
  refine ⟨_, h2, ?_⟩
  intro r hr
  obtain ⟨t, ht, rfl⟩ := List.mem_map.1 hr
  exact ⟨t, ht, rfl⟩

theorem readState (h : Advances i w w' k es) :
    ∃ quiet : List Event, (∀ e ∈ quiet, e.IsQuiet) ∧
      Advances i w (w'.readState i).2 k (es ++ quiet) := by
  unfold World.readState
  split
  · exact ⟨[], by simp, by simpa using h⟩
  · simp only
    split
    · exact ⟨[], by simp, by simpa using h⟩
    · exact ⟨[_], by simp [Event.IsQuiet], h.record _⟩

end Advances

end World

end SagaMachine
