import SagaMachine.Machine.Run

/-!
# Middlewares in guises

A middleware has parts that its interpreter does not work on: its settings and its monitor are
only read by the reports and by the operation that asks for the settings, and its host only
where actions are sent and where the state is read. A `Guise` replaces these parts, in a world
and in what is still to be done there. Every transition does the same in a guise: it leads to
the same configuration in the guise, as long as it does not look at a host that is replaced.

Main statement: `Instr.exec_inGuise`.
-/

namespace SagaMachine

/-- Change every value of a table, whatever its key. -/
def Table.mapEach {κ α : Type} (t : Table κ α) (f : κ → α → α) : Table κ α :=
  ⟨t.entries.map fun e => (e.1, f e.1 e.2)⟩

namespace Table

variable {κ α : Type} [DecidableEq κ] {f : κ → α → α} (t : Table κ α)

@[simp] theorem get?_mapEach (k : κ) : (t.mapEach f).get? k = (t.get? k).map (f k) := by
  obtain ⟨entries⟩ := t
  simp only [get?, mapEach]
  induction entries with
  | nil => rfl
  | cons e es ih =>
    rw [List.map_cons, List.find?_cons, List.find?_cons]
    by_cases he : e.1 = k
    · simp [he]
    · simpa [he] using ih

@[simp] theorem contains_mapEach (k : κ) : (t.mapEach f).contains k = t.contains k := by
  simp [contains]

theorem modify_mapEach {g h : α → α} (k : κ) (hg : ∀ v, g (f k v) = f k (h v)) :
    (t.mapEach f).modify k g = (t.modify k h).mapEach f := by
  simp only [modify, mapEach, List.map_map, mk.injEq]
  refine List.map_congr_left fun e _ => ?_
  by_cases he : e.1 = k
  · subst he
    simp [hg]
  · simp [he]

theorem insert_mapEach (k : κ) (v : α) :
    (t.mapEach f).insert k (f k v) = (t.insert k v).mapEach f := by
  unfold insert
  rw [contains_mapEach]
  split
  · exact t.modify_mapEach k fun _ => rfl
  · simp [mapEach]

omit [DecidableEq κ] in
@[simp] theorem size_mapEach : (t.mapEach f).size = t.size := by simp [size, mapEach]

end Table

/-- Replacements for the parts of middlewares that their interpreters do not work on. -/
structure Guise where
  settings : Settings → Settings := id
  monitor : Monitor → Monitor := id
  host : MiddlewareId → Host → Host := fun _ => id

variable (g : Guise)

/-- A middleware with these parts replaced. -/
def Middleware.inGuise (i : MiddlewareId) (m : Middleware) : Middleware :=
  { m with
    settings := g.settings m.settings
    monitor := g.monitor m.monitor
    host := g.host i m.host }

/-- Only the settings show in a reply. -/
def Reply.inGuise : Reply → Reply
  | .settings s => .settings (g.settings s)
  | r => r

/-- An entry of the journal, with the reply of an operation replaced. -/
def Entry.inGuise : Entry → Entry
  | .op name r => .op name (r.inGuise g)
  | e => e

/-- An instruction, with the reply that it gives replaced. -/
def Instr.inGuise : Instr → Instr
  | .reply site name r => .reply site name (r.inGuise g)
  | x => x

/-- A world whose middlewares are in a guise. -/
def World.inGuise (w : World) : World :=
  { w with
    middlewares := w.middlewares.mapEach (Middleware.inGuise g)
    reply := w.reply.map (Reply.inGuise g)
    journal := w.journal.map (Entry.inGuise g) }

/-- A configuration whose world is in a guise. -/
def Config.inGuise (c : Config) : Config :=
  ⟨c.todo.map (Instr.inGuise g), c.world.inGuise g⟩

namespace World

variable {g} {w : World} {i : MiddlewareId}

section fields
@[simp] theorem middlewares_inGuise :
    (w.inGuise g).middlewares = w.middlewares.mapEach (Middleware.inGuise g) := rfl
@[simp] theorem channels_inGuise : (w.inGuise g).channels = w.channels := rfl
@[simp] theorem deferreds_inGuise : (w.inGuise g).deferreds = w.deferreds := rfl
@[simp] theorem timers_inGuise : (w.inGuise g).timers = w.timers := rfl
@[simp] theorem nextDeferred_inGuise : (w.inGuise g).nextDeferred = w.nextDeferred := rfl
@[simp] theorem nextTimer_inGuise : (w.inGuise g).nextTimer = w.nextTimer := rfl
@[simp] theorem now_inGuise : (w.inGuise g).now = w.now := rfl
@[simp] theorem timerSupport_inGuise : (w.inGuise g).timerSupport = w.timerSupport := rfl
@[simp] theorem scripts_inGuise : (w.inGuise g).scripts = w.scripts := rfl
@[simp] theorem channelNames_inGuise : (w.inGuise g).channelNames = w.channelNames := rfl
@[simp] theorem deferredNames_inGuise : (w.inGuise g).deferredNames = w.deferredNames := rfl
@[simp] theorem labels_inGuise : (w.inGuise g).labels = w.labels := rfl
@[simp] theorem takerTags_inGuise : (w.inGuise g).takerTags = w.takerTags := rfl
@[simp] theorem watches_inGuise : (w.inGuise g).watches = w.watches := rfl
@[simp] theorem budget_inGuise : (w.inGuise g).budget = w.budget := rfl
end fields

@[simp] theorem engine_inGuise : (w.inGuise g).engine i = w.engine i := by
  simp only [engine, middlewares_inGuise, Table.get?_mapEach]
  cases w.middlewares.get? i <;> rfl

@[simp] theorem living?_inGuise :
    (w.inGuise g).living? i = (w.living? i).map (Middleware.inGuise g i) := by
  simp only [living?, middlewares_inGuise, Table.get?_mapEach, Option.filter_map]
  rfl

@[simp] theorem setEngine_inGuise (f : Engine → Engine) :
    (w.inGuise g).setEngine i f = (w.setEngine i f).inGuise g := by
  simp only [setEngine, inGuise]
  congr 1
  exact Table.modify_mapEach _ _ fun _ => rfl

@[simp] theorem setTask_inGuise (t : TaskId) (f : TaskNode → TaskNode) :
    (w.inGuise g).setTask i t f = (w.setTask i t f).inGuise g := setEngine_inGuise _

@[simp] theorem task?_inGuise (t : TaskId) : (w.inGuise g).task? i t = w.task? i t := by
  simp [task?]

@[simp] theorem isHalted_inGuise (t : TaskId) : (w.inGuise g).isHalted i t = w.isHalted i t := by
  simp [isHalted]

@[simp] theorem enter_inGuise {e : Entry} :
    (w.inGuise g).enter (e.inGuise g) = (w.enter e).inGuise g := rfl

@[simp] theorem record_inGuise {e : Event} :
    (w.inGuise g).record i e = (w.record i e).inGuise g := rfl

@[simp] theorem schedule_inGuise (r : Reaction) :
    (w.inGuise g).schedule i r = (w.schedule i r).inGuise g := setEngine_inGuise _

@[simp] theorem queue_inGuise (e : Errand) :
    (w.inGuise g).queue i e = (w.queue i e).inGuise g := by simp [queue]

theorem foldl_inGuise {α : Type} {f : World → α → World}
    (hf : ∀ w a, f (inGuise g w) a = (f w a).inGuise g) (w : World) (as : List α) :
    as.foldl f (w.inGuise g) = (as.foldl f w).inGuise g := by
  induction as generalizing w with
  | nil => rfl
  | cons a as ih => rw [List.foldl_cons, List.foldl_cons, hf, ih]

@[simp] theorem enterNotes_inGuise (notes : List Note) :
    (w.inGuise g).enterNotes notes = (w.enterNotes notes).inGuise g :=
  foldl_inGuise (fun _ _ => rfl) w notes

@[simp] theorem outcomeOf_inGuise (t : TaskRef) : (w.inGuise g).outcomeOf t = w.outcomeOf t := by
  simp [outcomeOf]

@[simp] theorem statusOf_inGuise : (w.inGuise g).statusOf = w.statusOf := by
  funext t
  simp only [statusOf, outcomeOf_inGuise, living?_inGuise]
  cases w.living? t.owner <;> rfl

@[simp] theorem reportOf_inGuise (t : TaskRef) : (w.inGuise g).reportOf t = w.reportOf t := by
  simp [reportOf]

@[simp] theorem showChannel_inGuise (c : ChannelId) :
    (w.inGuise g).showChannel c = w.showChannel c := rfl

@[simp] theorem surroundings_inGuise : (w.inGuise g).surroundings = w.surroundings := by
  simp only [surroundings, statusOf_inGuise]
  rfl

/-! ### Transitions -/

@[simp] theorem stopTimer_inGuise (id : Option TimerId) :
    (w.inGuise g).stopTimer id = (w.stopTimer id).inGuise g := by cases id <;> rfl

@[simp] theorem unsubscribe_inGuise (d : DeferredId) :
    (w.inGuise g).unsubscribe d = (w.unsubscribe d).inGuise g := by
  simp only [unsubscribe, deferreds_inGuise]
  cases w.deferreds.get? d with
  | none => rfl
  | some deferred =>
    obtain ⟨_, _, timer⟩ := deferred
    cases timer <;> rfl

@[simp] theorem deregister_inGuise (x : EffectId) (k : WaitKind) :
    (w.inGuise g).deregister i x k = (w.deregister i x k).inGuise g := by
  cases k with
  | take source taker =>
    cases source with
    | bus => simp [deregister]
    | channel c => rfl
  | call d => simp [deregister]
  | join target => simp [deregister]
  | put | race | all => rfl

@[simp] theorem pass_inGuise (p : Passage) : (w.inGuise g).pass i p = (w.pass i p).inGuise g := by
  cases p <;> simp [pass]

@[simp] theorem passAll_inGuise (ps : List Passage) :
    (w.inGuise g).passAll i ps = (w.passAll i ps).inGuise g :=
  foldl_inGuise (fun _ _ => pass_inGuise _) w ps

@[simp] theorem setWaits_inGuise (waits : Waits) :
    (w.inGuise g).setWaits i waits = (w.setWaits i waits).inGuise g := setEngine_inGuise _

@[simp] theorem insertWait_inGuise (x : EffectId) (wait : Wait) :
    (w.inGuise g).insertWait i x wait = (w.insertWait i x wait).inGuise g := setEngine_inGuise _

@[simp] theorem cancelWait_inGuise (x : EffectId) :
    (w.inGuise g).cancelWait i x = (w.cancelWait i x).inGuise g := by simp [cancelWait]

@[simp] theorem cancelPending_inGuise (pending : Option EffectId) :
    (w.inGuise g).cancelPending i pending = (w.cancelPending i pending).inGuise g := by
  cases pending <;> simp [cancelPending]

@[simp] theorem settleWait_inGuise (x : EffectId) (signal : Signal) :
    (w.inGuise g).settleWait i x signal =
      ((w.settleWait i x signal).1, (w.settleWait i x signal).2.inGuise g) := by
  simp [settleWait]

@[simp] theorem closeRace_inGuise (x : EffectId) (wait : Wait) (slot : Nat) (signal : Signal) :
    (w.inGuise g).closeRace i x wait slot signal =
      ((w.closeRace i x wait slot signal).1, (w.closeRace i x wait slot signal).2.inGuise g) := by
  simp [closeRace]

@[simp] theorem dropAll_inGuise (x : EffectId) (wait : Wait) :
    (w.inGuise g).dropAll i x wait = (w.dropAll i x wait).inGuise g := by simp [dropAll]

@[simp] theorem nextTaskRef_inGuise (saga : Saga) :
    (w.inGuise g).nextTaskRef i saga = w.nextTaskRef i saga := by simp [nextTaskRef]

@[simp] theorem createTask_inGuise (saga : Saga) (parent : Option TaskId) (detached : Bool) :
    (w.inGuise g).createTask i saga parent detached =
      (w.createTask i saga parent detached).inGuise g := by
  cases parent <;> cases detached <;> simp [createTask]

@[simp] theorem wakeWatches_inGuise (t : TaskRef) :
    (w.inGuise g).wakeWatches t = (w.wakeWatches t).inGuise g := rfl

@[simp] theorem finalize_inGuise (t : TaskId) (outcome : Outcome) :
    (w.inGuise g).finalize i t outcome =
      ((w.finalize i t outcome).1, (w.finalize i t outcome).2.inGuise g) := by
  have hjoin : ∀ (w : World) (js : List EffectId), js.foldl
      (fun w j => w.schedule i (.settle j (.ofOutcome outcome))) (w.inGuise g) =
        (js.foldl (fun w j => w.schedule i (.settle j (.ofOutcome outcome))) w).inGuise g :=
    foldl_inGuise fun _ _ => schedule_inGuise _
  simp only [finalize, task?_inGuise]
  cases w.task? i t with
  | none => rfl
  | some n =>
    simp only [setEngine_inGuise, wakeWatches_inGuise, hjoin, record_inGuise, task?_inGuise]
    split
    · split
      · rfl
      · split
        · rfl
        · split
          · simp
          · split <;> simp
    · split <;> rfl

@[simp] theorem park_inGuise (t : TaskId) (b : Body) (pending : Option EffectId) :
    (w.inGuise g).park i t b pending = (w.park i t b pending).inGuise g := setTask_inGuise ..

@[simp] theorem endBus_inGuise : (w.inGuise g).endBus i = (w.endBus i).inGuise g := by
  simp only [endBus, engine_inGuise, setEngine_inGuise, record_inGuise]
  exact foldl_inGuise (fun _ _ => schedule_inGuise _) _ _

@[simp] theorem broadcast_inGuise (a : Action) :
    (w.inGuise g).broadcast i a = (w.broadcast i a).inGuise g := by
  simp only [broadcast, engine_inGuise, setEngine_inGuise, enterNotes_inGuise]
  exact foldl_inGuise (fun _ _ => schedule_inGuise _) _ _

theorem reduceHost_inGuise (hg : ∀ h, g.host i h = h) (a : Action) :
    (w.inGuise g).reduceHost i a = (w.reduceHost i a).inGuise g := by
  simp only [reduceHost, inGuise]
  congr 1
  refine Table.modify_mapEach _ _ fun m => ?_
  simp [Middleware.inGuise, hg]

theorem readState_inGuise (hg : ∀ h, g.host i h = h) :
    (w.inGuise g).readState i = ((w.readState i).1, (w.readState i).2.inGuise g) := by
  simp only [readState, middlewares_inGuise, Table.get?_mapEach]
  cases w.middlewares.get? i with
  | none => rfl
  | some m =>
    simp only [Option.map_some, Middleware.inGuise, hg]
    split <;> simp

@[simp] theorem putChannel_inGuise (c : ChannelId) (channel : Channel Sink) (v : Value) :
    (w.inGuise g).putChannel c channel v =
      ((w.putChannel c channel v).1, (w.putChannel c channel v).2.inGuise g) := by
  simp only [putChannel, enterNotes_inGuise]
  split <;> rfl

@[simp] theorem takeChannel_inGuise (c : ChannelId) (channel : Channel Sink) (p : Pattern)
    (sink : Sink) : (w.inGuise g).takeChannel c channel p sink =
      ((w.takeChannel c channel p sink).1, (w.takeChannel c channel p sink).2.inGuise g) := by
  simp only [takeChannel, enterNotes_inGuise]
  rfl

@[simp] theorem addDeferred_inGuise (d : Deferred EffectRef) : (w.inGuise g).addDeferred d =
    ((w.addDeferred d).1, (w.addDeferred d).2.inGuise g) := rfl

@[simp] theorem addTimer_inGuise (ms : Nat) (a : Answer) : (w.inGuise g).addTimer ms a =
    ((w.addTimer ms a).1, (w.addTimer ms a).2.inGuise g) := by
  unfold addTimer
  rw [timerSupport_inGuise]
  cases w.timerSupport <;> rfl

@[simp] theorem dueTimer?_inGuise (limit : Nat) :
    (w.inGuise g).dueTimer? limit = w.dueTimer? limit := rfl

/-! ### Scripts -/

mutual

theorem eval_inGuise (env : Env) : ∀ x : Expr, (w.inGuise g).eval env x = w.eval env x
  | .json _ | .unit | .var _ | .task _ => rfl
  | .action _ x | .payload x | .kind x | .get x _ | .item x _ | .add x _ | .toJson x => by
    simp only [eval, eval_inGuise env x]
  | .mul x y => by simp only [eval, eval_inGuise env x, eval_inGuise env y]
  | .list xs => by simp only [eval, evalList_inGuise env xs]
  | .map xs => by simp only [eval, evalEntries_inGuise env xs]
  | .status x => by simp only [eval, eval_inGuise env x, statusOf_inGuise]

theorem evalList_inGuise (env : Env) : ∀ xs, (w.inGuise g).evalList env xs = w.evalList env xs
  | [] => rfl
  | x :: xs => by simp only [evalList, eval_inGuise env x, evalList_inGuise env xs]

theorem evalEntries_inGuise (env : Env) :
    ∀ xs, (w.inGuise g).evalEntries env xs = w.evalEntries env xs
  | [] => rfl
  | (_, x) :: xs => by simp only [evalEntries, eval_inGuise env x, evalEntries_inGuise env xs]

end

attribute [simp] eval_inGuise

@[simp] theorem evalAction_inGuise (env : Env) (a : ActionExpr) :
    (w.inGuise g).evalAction env a = w.evalAction env a := by simp [evalAction]

@[simp] theorem evalSaga_inGuise (env : Env) (e : SagaExpr) :
    (w.inGuise g).evalSaga env e = w.evalSaga env e := by
  simp only [evalSaga, evalEntries_inGuise]
  rfl

theorem holds_inGuise (env : Env) (t : Test) : (w.inGuise g).holds env t = w.holds env t := by
  induction t with
  | const | isUnit | eq | lt | has => simp [holds]
  | not t ih => simp [holds, ih]

mutual

theorem build_inGuise (env : Env) : ∀ e : EffectExpr, (w.inGuise g).build env e = w.build env e
  | .take none _ | .cancelSelf | .call _ | .select _ | .unknown _ => rfl
  | .take (some _) _ => rfl
  | .dispatch _ | .put _ _ | .fork _ | .spawn _ | .join _ | .cancel _ | .delay _ => by
    simp [build, evalTask, channelNamed]
  | .race members => by simp only [build, buildKeyed_inGuise env members]
  | .racePositional members => by simp only [build, buildList_inGuise env members]
  | .all members => by simp only [build, buildList_inGuise env members]

theorem buildList_inGuise (env : Env) : ∀ es, (w.inGuise g).buildList env es = w.buildList env es
  | [] => rfl
  | e :: es => by simp only [buildList, build_inGuise env e, buildList_inGuise env es]

theorem buildKeyed_inGuise (env : Env) :
    ∀ es, (w.inGuise g).buildKeyed env es = w.buildKeyed env es
  | [] => rfl
  | (_, e) :: es => by simp only [buildKeyed, build_inGuise env e, buildKeyed_inGuise env es]

end

end World

variable {g}

/-! ## Instructions -/

namespace Config

@[simp] theorem inGuise_mk (todo : List Instr) (w : World) :
    Config.inGuise g ⟨todo, w⟩ = ⟨todo.map (Instr.inGuise g), w.inGuise g⟩ := rfl

@[simp] theorem followedBy_inGuise (c : Config) (after : List Instr) :
    (c.followedBy after).inGuise g = (c.inGuise g).followedBy (after.map (Instr.inGuise g)) := by
  simp [followedBy, inGuise]

end Config

namespace World

variable {w : World} {i : MiddlewareId} {turn : Turn} {b : Body} {nests : List Nest} {x : EffectId}

@[simp] theorem enterDriver_inGuise (work : List Instr) (hw : work.map (Instr.inGuise g) = work) :
    (w.inGuise g).enterDriver i work = (w.enterDriver i work).inGuise g := by
  unfold enterDriver
  rw [engine_inGuise]
  split <;> simp [hw, Instr.inGuise]

@[simp] theorem notify_inGuise (target : EffectRef) (signal : Signal) :
    (w.inGuise g).notify target signal = (w.notify target signal).inGuise g := by
  unfold notify
  rw [living?_inGuise]
  cases w.living? target.mw with
  | none => rfl
  | some m => simp

@[simp] theorem register_inGuise (label : Option String) (v : Value) :
    (w.inGuise g).register label v = (w.register label v).inGuise g := by
  unfold register
  split <;> rfl

@[simp] theorem spend_inGuise : (w.inGuise g).spend = w.spend.map (inGuise g) := by
  unfold spend
  rw [budget_inGuise]
  split <;> rfl

@[simp] theorem finishScript_inGuise (s : ScriptBody) (a : Answer) :
    (w.inGuise g).finishScript turn s a = (w.finishScript turn s a).inGuise g := rfl

@[simp] theorem raise_inGuise (s : ScriptBody) (m : Mailbox Effect) (f : Fault) :
    (w.inGuise g).raise turn s m f = (w.raise turn s m f).inGuise g := by
  unfold raise
  split <;> rfl

@[simp] theorem resumeScript_inGuise (s : ScriptBody) (m : Mailbox Effect) (r : Resumption)
    (answers : List Answer) : (w.inGuise g).resumeScript turn s m r answers =
      (w.resumeScript turn s m r answers).inGuise g := by
  unfold resumeScript
  split
  · simp [Instr.inGuise]
  · simp
  · rfl
  · rfl

@[simp] theorem awaitAll_inGuise (s : ScriptBody) (m : Mailbox Effect) (p : Pause) :
    (w.inGuise g).awaitAll turn s m p = (w.awaitAll turn s m p).inGuise g := by
  unfold awaitAll
  simp only
  split
  · simp
  · rfl

theorem withEffects_inGuise {α : Type} (s : ScriptBody) (m : Mailbox Effect)
    (built : Except Fault α) {next next' : α → Config}
    (hn : ∀ a, next' a = (next a).inGuise g) :
    (w.inGuise g).withEffects turn s m built next' =
      (w.withEffects turn s m built next).inGuise g := by
  cases built with
  | ok a => exact hn a
  | error f => exact raise_inGuise s m f

@[simp] theorem execStmt_inGuise (s : ScriptBody) (m : Mailbox Effect) (stmt : Stmt) :
    (w.inGuise g).execStmt turn s m stmt = (w.execStmt turn s m stmt).inGuise g := by
  cases stmt with
  | perform e name label | mixed e =>
    simp only [execStmt, build_inGuise]
    exact withEffects_inGuise _ _ _ fun _ => awaitAll_inGuise ..
  | joined es =>
    simp only [execStmt, buildList_inGuise]
    exact withEffects_inGuise _ _ _ fun _ => awaitAll_inGuise ..
  | describe e =>
    simp only [execStmt, build_inGuise, surroundings_inGuise]
    exact withEffects_inGuise _ _ _ fun _ => rfl
  | foreign => simp [execStmt]
  | fail f | rethrow | unknown name => exact raise_inGuise ..
  | assign name e label => simp [execStmt, Instr.inGuise]
  | log tag e =>
    simp only [execStmt, eval_inGuise]
    rfl
  | «return» e =>
    simp only [execStmt, eval_inGuise]
    rfl
  | ifThen test yes no =>
    simp only [execStmt, holds_inGuise]
    rfl
  | guard | attempt | «repeat» | ops => rfl

@[simp] theorem execAdvance_inGuise (s : ScriptBody) (m : Mailbox Effect) :
    (w.inGuise g).execAdvance turn s m = (w.execAdvance turn s m).map (Config.inGuise g) := by
  unfold execAdvance
  split
  · rfl
  · rfl
  · rw [spend_inGuise]
    cases w.spend <;> simp
  · rfl
  · rfl
  · rw [spend_inGuise]
    cases w.spend <;> rfl

@[simp] theorem execPoll_inGuise (b : Body) (a : Option Answer) :
    (w.inGuise g).execPoll turn b a = (w.execPoll turn b a).inGuise g := by
  unfold execPoll
  cases b with
  | watcher b => rfl
  | script s =>
    simp only [record_inGuise]
    split
    · rfl
    · simp

theorem execGuards_inGuise (gs : List Guard) :
    (w.inGuise g).execGuards gs = (w.execGuards gs).inGuise g := by cases gs <;> rfl

/-! ### Effects -/

@[simp] theorem immediate_inGuise (signal : Signal) :
    (w.inGuise g).immediate turn b nests x signal = (w.immediate turn b nests x signal).inGuise g :=
  rfl

@[simp] theorem invalid_inGuise (reason : String) :
    (w.inGuise g).invalid turn b nests x reason = (w.invalid turn b nests x reason).inGuise g :=
  rfl

@[simp] theorem suspend_inGuise (k : WaitKind) :
    (w.inGuise g).suspend turn b nests x k = (w.suspend turn b nests x k).inGuise g := by
  simp [suspend, Instr.inGuise]

theorem startTake_inGuise (source : Source) (p : Pattern) :
    (w.inGuise g).startTake turn b nests x source p =
      (w.startTake turn b nests x source p).inGuise g := by
  cases source with
  | bus =>
    simp only [startTake, engine_inGuise, setEngine_inGuise]
    split <;> simp
  | channel c =>
    simp only [startTake, channels_inGuise]
    split
    · rfl
    · simp only [takeChannel_inGuise]
      split <;> simp

theorem startPut_inGuise (target : Target) :
    (w.inGuise g).startPut turn b nests x target =
      (w.startPut turn b nests x target).inGuise g := by
  cases target <;> simp [startPut, Config.inGuise]

@[simp] theorem awaitDeferred_inGuise (d : DeferredId) :
    (w.inGuise g).awaitDeferred turn b nests x d =
      (w.awaitDeferred turn b nests x d).inGuise g := by
  unfold awaitDeferred
  simp only [suspend_inGuise, Config.inGuise, deferreds_inGuise]
  split
  · rfl
  · split
    · rfl
    · rename_i deferred _ _ a _
      exact congrArg (Config.mk _) (schedule_inGuise
        (w := { w.insertWait turn.mw x ⟨turn.task, Nest.link nests, .call d⟩ with
          deferreds := w.deferreds.insert d (deferred.subscribe ⟨turn.mw, x⟩).2 }) _)

@[simp] theorem startCall_inGuise (r : Routine) :
    (w.inGuise g).startCall turn b nests x r = (w.startCall turn b nests x r).inGuise g := by
  cases r with
  | sleep ms => simp [startCall]
  | scripted c env =>
    simp only [startCall]
    cases c.label <;> rfl

theorem execAnswer_inGuise (result : AnswerExpr) (env : Env) :
    (w.inGuise g).execAnswer turn b nests x result env =
      (w.execAnswer turn b nests x result env).inGuise g := by
  unfold execAnswer
  cases result with
  | deferred name =>
    simp only [deferredNames_inGuise]
    split <;> simp
  | _ => simp

theorem startFork_inGuise (saga : Saga) (detached : Bool) :
    (w.inGuise g).startFork turn b nests x saga detached =
      (w.startFork turn b nests x saga detached).inGuise g := by simp [startFork]

theorem startJoin_inGuise (target : TaskRef) :
    (w.inGuise g).startJoin turn b nests x target =
      (w.startJoin turn b nests x target).inGuise g := by
  unfold startJoin
  split
  · simp
  · split
    · simp
    · simp only [outcomeOf_inGuise, task?_inGuise]
      split
      · simp
      · split <;> simp

@[simp] theorem startRace_inGuise (keys : Option (List String)) (members : List Effect) :
    (w.inGuise g).startRace turn b nests x keys members =
      (w.startRace turn b nests x keys members).inGuise g := by
  cases members <;> simp [startRace, Instr.inGuise]

theorem startKeyedRace_inGuise (members : List (String × Effect)) :
    (w.inGuise g).startKeyedRace turn b nests x members =
      (w.startKeyedRace turn b nests x members).inGuise g := by
  unfold startKeyedRace
  split <;> simp

theorem startAll_inGuise (members : List Effect) :
    (w.inGuise g).startAll turn b nests x members =
      (w.startAll turn b nests x members).inGuise g := by
  cases members <;> simp [startAll, Instr.inGuise]

theorem startCancel_inGuise (target : Option TaskRef) :
    (w.inGuise g).startCancel turn b nests x target =
      (w.startCancel turn b nests x target).inGuise g := by
  unfold startCancel
  split
  · rfl
  · split <;> rfl

theorem execCancelDone_inGuise :
    (w.inGuise g).execCancelDone turn b nests x = (w.execCancelDone turn b nests x).inGuise g := by
  unfold execCancelDone
  rw [isHalted_inGuise]
  split <;> rfl

theorem startSelect_inGuise (hg : ∀ h, g.host turn.mw h = h) (key : Option String) :
    (w.inGuise g).startSelect turn b nests x key =
      (w.startSelect turn b nests x key).inGuise g := by
  simp [startSelect, readState_inGuise hg]

theorem execTrigger_inGuise (e : Effect)
    (hg : ∀ key, e = .select key → ∀ h, g.host turn.mw h = h) :
    (w.inGuise g).execTrigger turn b nests e = (w.execTrigger turn b nests e).inGuise g := by
  unfold execTrigger
  simp only [isHalted_inGuise, engine_inGuise, setEngine_inGuise, record_inGuise]
  split
  · rfl
  · cases e with
    | take source p => exact startTake_inGuise source p
    | put target => exact startPut_inGuise target
    | call name r => exact startCall_inGuise r
    | fork saga detached => exact startFork_inGuise saga detached
    | join target => exact startJoin_inGuise target
    | race members => exact startKeyedRace_inGuise members
    | racePositional members => exact startRace_inGuise _ members
    | all members => exact startAll_inGuise members
    | cancel target => exact startCancel_inGuise target
    | select key => exact startSelect_inGuise (hg key rfl) key

@[simp] theorem setMember_inGuise (y : EffectId) (slot : Nat) (member : EffectId) :
    (w.inGuise g).setMember i y slot member = (w.setMember i y slot member).inGuise g := by
  simp [setMember]

theorem resumeBody_inGuise (start : Start) :
    (w.inGuise g).resumeBody turn b start = (w.resumeBody turn b start).inGuise g := by
  unfold resumeBody
  simp only [isHalted_inGuise, engine_inGuise, cancelWait_inGuise]
  cases start with
  | halt => rfl
  | pending y => simp only; split <;> rfl
  | immediate signal =>
    simp only
    split
    · rfl
    · cases signal <;> simp only <;> first | rfl | (split <;> rfl)

@[simp] theorem nextOfRace_inGuise (slot : Nat) (rest : List Effect) :
    (w.inGuise g).nextOfRace turn b x slot rest nests =
      (w.nextOfRace turn b x slot rest nests).inGuise g := by cases rest <;> rfl

@[simp] theorem nextOfAll_inGuise (slot : Nat) (rest : List Effect) :
    (w.inGuise g).nextOfAll turn b x slot rest nests =
      (w.nextOfAll turn b x slot rest nests).inGuise g := by
  cases rest with
  | cons e es => rfl
  | nil =>
    simp only [nextOfAll, engine_inGuise]
    split
    · simp
    · rfl

theorem execBegun_inGuise (start : Start) :
    (w.inGuise g).execBegun turn b nests start = (w.execBegun turn b nests start).inGuise g := by
  unfold execBegun
  split
  · exact resumeBody_inGuise start
  · unfold begunInRace
    split
    · simp
    · simp [Instr.inGuise]
    · simp only [engine_inGuise]
      split <;> simp [Instr.inGuise]
  · unfold begunInAll
    split
    · simp
    · simp [Instr.inGuise]
    · simp
    · simp only [engine_inGuise]
      split <;> simp

theorem execPolled_inGuise (step : Step Effect) :
    (w.inGuise g).execPolled turn b step = (w.execPolled turn b step).inGuise g := by
  unfold execPolled
  rw [isHalted_inGuise]
  split
  · rfl
  · split <;> rfl

/-! ### The end of tasks -/

theorem cascadeOn_inGuise (r : Option Cascade × World) :
    cascadeOn i (r.1, r.2.inGuise g) = (cascadeOn i r).inGuise g := by
  obtain ⟨_ | c, w⟩ := r <;> rfl

theorem execLeave_inGuise (exit : Exit) :
    (w.inGuise g).execLeave turn b exit = (w.execLeave turn b exit).inGuise g := by
  unfold execLeave
  cases exit with
  | finished a => cases a <;> simp [Instr.inGuise]
  | _ => simp [Instr.inGuise]

theorem execReturned_inGuise (v : Value) :
    (w.inGuise g).execReturned turn v = (w.execReturned turn v).inGuise g := by
  unfold execReturned
  simp only [task?_inGuise, setTask_inGuise]
  split
  · rfl
  · split
    · rfl
    · split <;> rfl

theorem execCascade_inGuise (c : Cascade) :
    (w.inGuise g).execCascade i c = (w.execCascade i c).inGuise g := by
  cases c with
  | abort t f => rfl
  | complete t =>
    simp only [execCascade, task?_inGuise, setTask_inGuise, finalize_inGuise, cascadeOn_inGuise]
    split
    · rfl
    · split
      · rfl
      · split <;> rfl

theorem dropping_inGuise (body : Option Body) :
    (dropping turn body).map (Instr.inGuise g) = dropping turn body := by cases body <;> rfl

theorem execAbort_inGuise (f : Fault) :
    (w.inGuise g).execAbort turn f = (w.execAbort turn f).inGuise g := by
  unfold execAbort
  simp only [task?_inGuise, setTask_inGuise, engine_inGuise, cancelPending_inGuise]
  split
  · rfl
  · split
    · rfl
    · simp [dropping_inGuise, Instr.inGuise]

theorem execAbortDone_inGuise (f : Fault) (wasCurrent : Bool) :
    (w.inGuise g).execAbortDone turn f wasCurrent =
      (w.execAbortDone turn f wasCurrent).inGuise g := by
  unfold execAbortDone
  split
  · simp
  · rw [finalize_inGuise, cascadeOn_inGuise]

theorem execConclude_inGuise :
    (w.inGuise g).execConclude turn = (w.execConclude turn).inGuise g := by
  unfold execConclude
  simp only [engine_inGuise, setEngine_inGuise, finalize_inGuise, cascadeOn_inGuise]

theorem execCancel_inGuise (t : TaskId) :
    (w.inGuise g).execCancel i t = (w.execCancel i t).inGuise g := by
  unfold execCancel
  simp only [engine_inGuise]
  split
  · exact congrArg (Config.mk _) (foldl_inGuise (fun _ _ => setTask_inGuise ..) _ _)
  · rfl

theorem execCancelEach_inGuise (order : List TaskId) (cascades : List Cascade) :
    (w.inGuise g).execCancelEach i order cascades =
      (w.execCancelEach i order cascades).inGuise g := by
  cases order with
  | nil => simp [execCancelEach, Instr.inGuise]
  | cons t rest =>
    simp only [execCancelEach, task?_inGuise, engine_inGuise, setTask_inGuise,
      cancelPending_inGuise]
    split
    · rfl
    · simp [dropping_inGuise, Instr.inGuise]

theorem execCancelOne_inGuise (wasCurrent : Bool) (rest : List TaskId) (cascades : List Cascade) :
    (w.inGuise g).execCancelOne turn wasCurrent rest cascades =
      (w.execCancelOne turn wasCurrent rest cascades).inGuise g := by
  unfold execCancelOne
  split <;> simp [Instr.inGuise]

/-! ### The driver -/

@[simp] theorem beginTurn_inGuise (t : TaskId) (expected : Option EffectId)
    (signal : Option Signal) :
    (w.inGuise g).beginTurn i t expected signal =
      (w.beginTurn i t expected signal).inGuise g := by
  unfold beginTurn
  simp only [task?_inGuise, setTask_inGuise, setEngine_inGuise]
  split
  · rfl
  · split
    · rfl
    · split
      · rfl
      · split <;> rfl

@[simp] theorem putForEffect_inGuise (c : ChannelId) (v : Value) :
    (w.inGuise g).putForEffect i c v x = (w.putForEffect i c v x).inGuise g := by
  unfold putForEffect
  simp only [channels_inGuise, schedule_inGuise, putChannel_inGuise]
  split
  · rfl
  · split <;> rfl

theorem execPerform_inGuise (job : Job) :
    (w.inGuise g).execPerform i job = (w.execPerform i job).inGuise g := by
  unfold execPerform
  split
  · simp
  · simp
  · simp only [settleWait_inGuise]
    split
    · rfl
    · simp
  · rfl
  · simp
  · simp

theorem execDrain_inGuise : (w.inGuise g).execDrain i = (w.execDrain i).inGuise g := by
  unfold execDrain
  simp only [engine_inGuise, setEngine_inGuise]
  split <;> rfl

theorem execEmit_inGuise (hg : ∀ h, g.host i h = h) (a : Action) (sender : Sender) :
    (w.inGuise g).execEmit i a sender = (w.execEmit i a sender).inGuise g := by
  unfold execEmit
  simp only [middlewares_inGuise, Table.get?_mapEach]
  cases w.middlewares.get? i with
  | none => rfl
  | some m =>
    simp only [Option.map_some, Middleware.inGuise, hg]
    split <;> rfl

theorem finishEmit_inGuise (a : Action) (sender : Sender) (result : Except Fault Unit) :
    (w.inGuise g).finishEmit i a sender result = (w.finishEmit i a sender result).inGuise g := by
  cases sender with
  | effect y => simp [finishEmit]
  | nobody => cases result <;> rfl
  | caller site => cases result <;> rfl

theorem execForwarded_inGuise (hg : ∀ h, g.host i h = h) (a : Action) (sender : Sender) :
    (w.inGuise g).execForwarded i a sender = (w.execForwarded i a sender).inGuise g := by
  unfold execForwarded
  simp only [middlewares_inGuise, Table.get?_mapEach]
  cases w.middlewares.get? i with
  | none => rfl
  | some m =>
    simp only [Option.map_some, Middleware.inGuise, hg]
    split
    · exact finishEmit_inGuise ..
    · rw [reduceHost_inGuise hg, broadcast_inGuise, finishEmit_inGuise]

theorem execDeliver_inGuise (sink : Sink) (d : Delivery) :
    (w.inGuise g).execDeliver sink d = (w.execDeliver sink d).inGuise g := by
  cases sink with
  | effect target => exact notify_inGuise target _
  | script tag next env => rfl

/-! ### Operations -/

theorem execReply_inGuise (site : Site) (name : String) (r : Reply) :
    (w.inGuise g).execReply site name (r.inGuise g) = (w.execReply site name r).inGuise g := by
  cases site <;> rfl

theorem answerOp_inGuise (site : Site) (o : Op) {r : Reply} (hr : r.inGuise g = r) :
    (w.inGuise g).answerOp site o r = (w.answerOp site o r).inGuise g := by
  simp [answerOp, Instr.inGuise, hr]

theorem withMiddleware_inGuise (site : Site) (o : Op) {f f' : Middleware → Config}
    (hf : ∀ m, f' (m.inGuise g i) = (f m).inGuise g) :
    (w.inGuise g).withMiddleware site o i f' = (w.withMiddleware site o i f).inGuise g := by
  unfold withMiddleware
  rw [living?_inGuise]
  cases w.living? i with
  | none => rfl
  | some m => exact hf m

theorem withTask_inGuise (site : Site) (env : Env) (o : Op) (e : Expr) {f f' : TaskRef → Config}
    (hf : ∀ t, f' t = (f t).inGuise g) :
    (w.inGuise g).withTask site env o e f' = (w.withTask site env o e f).inGuise g := by
  unfold withTask
  rw [eval_inGuise]
  split
  · exact hf _
  · rfl

theorem withChannel_inGuise (site : Site) (o : Op) (name : String)
    {f f' : ChannelId → Channel Sink → Config}
    (hf : ∀ c channel, f' c channel = (f c channel).inGuise g) :
    (w.inGuise g).withChannel site o name f' = (w.withChannel site o name f).inGuise g := by
  unfold withChannel
  rw [channelNames_inGuise, channels_inGuise]
  split
  · rfl
  · split
    · rfl
    · exact hf _ _

theorem opRun_inGuise (site : Site) (env : Env) (e : SagaExpr) (label : Option String) :
    (w.inGuise g).opRun site env i e label = (w.opRun site env i e label).inGuise g := by
  simp [opRun, Instr.inGuise]

theorem execStarted_inGuise (site : Site) (label : Option String) (t : TaskRef) :
    (w.inGuise g).execStarted site label t = (w.execStarted site label t).inGuise g := by
  simp [execStarted, Instr.inGuise, Reply.inGuise]

theorem opDispatch_inGuise (site : Site) (a : Action) :
    (w.inGuise g).opDispatch site i a = (w.opDispatch site i a).inGuise g := by
  unfold opDispatch
  simp only [engine_inGuise, queue_inGuise, setEngine_inGuise]
  split <;> rfl

theorem opFinish_inGuise (site : Site) :
    (w.inGuise g).opFinish site i = (w.opFinish site i).inGuise g := by
  unfold opFinish
  simp only [engine_inGuise, queue_inGuise, endBus_inGuise]
  split
  · rfl
  · simp [Instr.inGuise, Reply.inGuise]

theorem opCancel_inGuise (site : Site) (t : TaskRef) :
    (w.inGuise g).opCancel site t = (w.opCancel site t).inGuise g := by
  unfold opCancel
  rw [living?_inGuise]
  cases w.living? t.owner with
  | none => rfl
  | some m => simp [Instr.inGuise, Reply.inGuise]

theorem opWatch_inGuise (t : TaskRef) (tag : String) :
    (w.inGuise g).opWatch t tag = ((w.opWatch t tag).1, (w.opWatch t tag).2.inGuise g) := by
  unfold opWatch
  simp only [watches_inGuise, outcomeOf_inGuise]
  split <;> rfl

theorem opWatch_reply {t : TaskRef} {tag : String} :
    (w.opWatch t tag).1.inGuise g = (w.opWatch t tag).1 := by
  unfold opWatch
  simp only
  split <;> rfl

theorem opPut_inGuise (site : Site) (c : ChannelId) (channel : Channel Sink) (v : Value) :
    (w.inGuise g).opPut site c channel v = (w.opPut site c channel v).inGuise g := by
  unfold opPut
  simp only [putChannel_inGuise]
  split
  · rfl
  · rfl
  · rename_i result _
    cases result <;> rfl

theorem opTake_inGuise (site : Site) (env : Env) (c : ChannelId) (channel : Channel Sink)
    (p : Pattern) (tag : String) (next : List Op) :
    (w.inGuise g).opTake site env c channel p tag next =
      (w.opTake site env c channel p tag next).inGuise g := by
  unfold opTake
  simp only [takeChannel_inGuise]
  split <;> rfl

theorem opUntake_inGuise (tag : String) :
    (w.inGuise g).opUntake tag = ((w.opUntake tag).1, (w.opUntake tag).2.inGuise g) := by
  unfold opUntake
  rw [takerTags_inGuise, channels_inGuise]
  split
  · rfl
  · split <;> rfl

theorem opUntake_reply {tag : String} : (w.opUntake tag).1.inGuise g = (w.opUntake tag).1 := by
  unfold opUntake
  split
  · rfl
  · split <;> rfl

theorem opClose_inGuise (site : Site) (c : ChannelId) (channel : Channel Sink) :
    (w.inGuise g).opClose site c channel = (w.opClose site c channel).inGuise g := by
  simp only [opClose, Config.inGuise_mk, List.map_append, List.map_map]
  rfl

@[simp] theorem settleDeferred_inGuise (d : DeferredId) (a : Answer) :
    (w.inGuise g).settleDeferred d a =
      ((w.settleDeferred d a).1, (w.settleDeferred d a).2.inGuise g) := by
  unfold settleDeferred
  rw [deferreds_inGuise]
  split
  · rfl
  · simp only
    split
    · rfl
    · rename_i deferred _ _ target _
      exact congrArg (Prod.mk _) (notify_inGuise
        (w := { w with deferreds := w.deferreds.insert d (deferred.settle a).deferred }) target _)

theorem opSettle_inGuise (site : Site) (o : Op) (name : String) (a : Answer) :
    (w.inGuise g).opSettle site o name a = (w.opSettle site o name a).inGuise g := by
  unfold opSettle
  rw [deferredNames_inGuise]
  split
  · rfl
  · simp [Instr.inGuise, Reply.inGuise]

theorem opDrop_inGuise (site : Site) :
    (w.inGuise g).opDrop site i = (w.opDrop site i).inGuise g := by
  unfold opDrop
  rw [living?_inGuise]
  cases site with
  | nested => rfl
  | outside =>
    cases w.living? i with
    | none => rfl
    | some m =>
      simp only [Option.map_some, Config.inGuise_mk, Config.mk.injEq]
      refine ⟨?_, ?_⟩
      · rw [List.map_append, List.map_flatMap]
        refine congrArg (m.engine.tasks.entries.flatMap · ++ _) (funext fun e => ?_)
        cases e.2.body <;> rfl
      · simp only [inGuise]
        congr 1
        exact Table.insert_mapEach _ i
          { m with alive := false, engine := { outcomes := m.engine.outcomes } }

theorem opAdvance_inGuise (site : Site) (ms : Nat) :
    (w.inGuise g).opAdvance site ms = (w.opAdvance site ms).inGuise g := by
  unfold opAdvance
  rw [timerSupport_inGuise]
  split <;> rfl

theorem execMoveClock_inGuise (target : Nat) :
    (w.inGuise g).execMoveClock target = (w.execMoveClock target).inGuise g := by
  unfold execMoveClock
  rw [dueTimer?_inGuise]
  split
  · rfl
  · rename_i t _
    have h := settleDeferred_inGuise (g := g) t.deferred t.answer
      (w := { w with now := t.deadline, timers := w.timers.filter fun u => u.id ≠ t.id })
    exact (congrArg (fun r : Bool × Config => r.2.followedBy [.moveClock target]) h).trans
      (Config.followedBy_inGuise _ [.moveClock target]).symm

end World

/-- An instruction that looks at the host of a middleware. -/
def Instr.Consults (i : MiddlewareId) : Instr → Prop
  | .trigger turn _ _ (.select _) => turn.mw = i
  | .emit j _ _ | .forwarded j _ _ | .op _ _ (.state j) => j = i
  | _ => False

section

variable {w : World}

theorem World.runOp_inGuise {site : Site} {env : Env} {o : Op}
    (ho : ∀ i, Instr.Consults i (.op site env o) → ∀ h, g.host i h = h) :
    (w.inGuise g).runOp site env o = (w.runOp site env o).inGuise g := by
  cases o with
  | run i e label => exact withMiddleware_inGuise _ _ fun _ => opRun_inGuise ..
  | dispatch i a =>
    simp only [runOp, evalAction_inGuise]
    exact withMiddleware_inGuise _ _ fun _ => opDispatch_inGuise ..
  | finish i => exact withMiddleware_inGuise _ _ fun _ => opFinish_inGuise _
  | live i => exact withMiddleware_inGuise _ _ fun _ => rfl
  | settings i => exact withMiddleware_inGuise _ _ fun _ => rfl
  | state i =>
    refine withMiddleware_inGuise _ _ fun _ => ?_
    rw [readState_inGuise (ho i rfl)]
    exact answerOp_inGuise _ _ rfl
  | cancel e => exact withTask_inGuise _ _ _ _ fun _ => opCancel_inGuise ..
  | inspect e =>
    refine withTask_inGuise _ _ _ _ fun t => ?_
    rw [reportOf_inGuise]
    exact answerOp_inGuise _ _ rfl
  | sameTask a b =>
    simp only [runOp, eval_inGuise]
    exact answerOp_inGuise _ _ rfl
  | watch e tag =>
    refine withTask_inGuise _ _ _ _ fun t => ?_
    rw [opWatch_inGuise]
    exact answerOp_inGuise _ _ opWatch_reply
  | wakes tag =>
    refine answerOp_inGuise _ _ ?_
    cases (w.inGuise g).watches.get? tag <;> rfl
  | put name e =>
    simp only [runOp, eval_inGuise]
    exact withChannel_inGuise _ _ _ fun _ _ => opPut_inGuise ..
  | take name p tag next => exact withChannel_inGuise _ _ _ fun _ _ => opTake_inGuise ..
  | untake tag =>
    simp only [runOp, opUntake_inGuise]
    exact answerOp_inGuise _ _ opUntake_reply
  | close name => exact withChannel_inGuise _ _ _ fun _ _ => opClose_inGuise ..
  | sameChannel a b => rfl
  | showChannel name => exact withChannel_inGuise _ _ _ fun _ _ => rfl
  | resolve name e =>
    simp only [runOp, eval_inGuise]
    exact opSettle_inGuise ..
  | reject name f => exact opSettle_inGuise ..
  | showDeferred name =>
    simp only [runOp, statusOf_inGuise, deferredNames_inGuise, deferreds_inGuise]
    split
    · rfl
    · refine answerOp_inGuise _ _ rfl
  | log tag e =>
    simp only [runOp, eval_inGuise]
    rfl
  | drop i => exact opDrop_inGuise _
  | advance ms => exact opAdvance_inGuise ..
  | unknown name => rfl

/-- An instruction does in another guise what it does, if it does not look at a host in a guise. -/
theorem Instr.exec_inGuise {x : Instr} (hx : ∀ i, x.Consults i → ∀ h, g.host i h = h) :
    (x.inGuise g).exec (w.inGuise g) = (x.exec w).map (Config.inGuise g) := by
  cases x with
  | drain i => exact congrArg some World.execDrain_inGuise
  | perform i job => exact congrArg some (World.execPerform_inGuise job)
  | schedule i r => exact congrArg (fun w => some (Config.mk [] w)) (World.schedule_inGuise r)
  | poll turn b a => exact congrArg some (World.execPoll_inGuise b a)
  | advance turn s m => exact World.execAdvance_inGuise s m
  | polled turn b step => exact congrArg some (World.execPolled_inGuise step)
  | trigger turn b nests e =>
    refine congrArg some (World.execTrigger_inGuise e ?_)
    rintro key rfl
    exact hx turn.mw rfl
  | answer turn b nests id result env => exact congrArg some (World.execAnswer_inGuise result env)
  | cancelDone turn b nests id => exact congrArg some World.execCancelDone_inGuise
  | begun turn b nests start => exact congrArg some (World.execBegun_inGuise start)
  | leave turn b exit => exact congrArg some (World.execLeave_inGuise exit)
  | dropBody turn b => rfl
  | returned turn v => exact congrArg some (World.execReturned_inGuise v)
  | abort turn f => exact congrArg some (World.execAbort_inGuise f)
  | abortDone turn f wasCurrent => exact congrArg some (World.execAbortDone_inGuise f wasCurrent)
  | conclude turn => exact congrArg some World.execConclude_inGuise
  | cascade i c => exact congrArg some (World.execCascade_inGuise c)
  | cancel i t => exact congrArg some (World.execCancel_inGuise t)
  | cancelEach i order cascades => exact congrArg some (World.execCancelEach_inGuise order cascades)
  | cancelOne turn wasCurrent rest cascades =>
    exact congrArg some (World.execCancelOne_inGuise wasCurrent rest cascades)
  | emit i a sender => exact congrArg some (World.execEmit_inGuise (hx i rfl) a sender)
  | forwarded i a sender => exact congrArg some (World.execForwarded_inGuise (hx i rfl) a sender)
  | deliver sink d => exact congrArg some (World.execDeliver_inGuise sink d)
  | guards gs => exact congrArg some (World.execGuards_inGuise gs)
  | ops env os => cases os <;> rfl
  | op site env o =>
    simp only [inGuise, exec, World.execOp, World.spend_inGuise, Option.map_map]
    cases w.spend with
    | none => rfl
    | some w' => exact congrArg some (World.runOp_inGuise hx)
  | reply site name r => exact congrArg some (World.execReply_inGuise site name r)
  | started site label t => exact congrArg some (World.execStarted_inGuise site label t)
  | registered site tag c id => rfl
  | moveClock target => exact congrArg some (World.execMoveClock_inGuise target)

end

end SagaMachine
