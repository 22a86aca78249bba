import SagaMachine.Proofs.Steps

/-!
# The books of a middleware

What is queued, what was sent, which tasks are over and with which outcome: these books of a
middleware are written in few places. Every other transition leaves them as they are, and so does
nearly every instruction (`Instr.plain_exec`).

Main definitions: `World.book`, `Instr.Writes`, `Instr.EndsBus`. Main statement: `Instr.plain_exec`.
-/

namespace SagaMachine

/-! ## What is entered -/

/-- The errand that the put of an effect leaves behind. -/
def Target.errand (id : EffectId) : Target → Errand
  | .bus a => .dispatch a (some id)
  | .channel c v => .put c v id

/-- The errand that a triggered put leaves behind. -/
def Event.put? : Event → Option Errand
  | .triggered _ id _ (.put target) => some (target.errand id)
  | _ => none

/-- The action that was sent to the host and to the takers. -/
def Event.dispatched? : Event → Option Action
  | .dispatched a => some a
  | _ => none

/-- The task that is over, and its outcome. -/
def Event.verdict? : Event → Option (TaskId × Outcome)
  | .taskFinished t o => some (t, o)
  | _ => none

/-- The mark that an end of the bus set. -/
def Event.mark? : Event → Option TaskId
  | .busEnded m => some m
  | _ => none

/-- The books of a middleware; what happened stands latest first. -/
structure Book where
  errands : List Errand
  outcomes : Table TaskId Outcome
  watermark : Option TaskId
  puts : List Errand
  dispatched : List Action
  finished : List (TaskId × Outcome)
  marks : List TaskId

/-- An event is entered, if it concerns the books. -/
def Book.enter (b : Book) (e : Event) : Book :=
  { b with
    puts := e.put?.toList ++ b.puts
    dispatched := e.dispatched?.toList ++ b.dispatched
    finished := e.verdict?.toList ++ b.finished
    marks := e.mark?.toList ++ b.marks }

/-- An event that no book has. -/
def Event.IsUnbooked (e : Event) : Prop :=
  e.put? = none ∧ e.dispatched? = none ∧ e.verdict? = none ∧ e.mark? = none

theorem Book.enter_unbooked {b : Book} {e : Event} (h : e.IsUnbooked) : b.enter e = b := by
  simp [Book.enter, h.1, h.2.1, h.2.2.1, h.2.2.2]

/-- A taker that is registered, or withdrawn, sets no mark. -/
@[simp] theorem Bus.watermark_take (b : Bus) (t : TaskId) (p : Pattern) (x : EffectId) :
    (b.take t p x).bus.watermark = b.watermark := by
  simp only [Bus.take]
  split <;> rfl

@[simp] theorem Bus.watermark_cancelTaker (b : Bus) (id : TakerId) :
    (b.cancelTaker id).watermark = b.watermark := rfl

namespace World

/-- The books of a middleware. -/
def book (w : World) (i : MiddlewareId) : Book where
  errands := (w.engine i).agenda.errands
  outcomes := (w.engine i).outcomes
  watermark := (w.engine i).bus.watermark
  puts := (w.past i).filterMap Event.put?
  dispatched := (w.past i).filterMap Event.dispatched?
  finished := (w.past i).filterMap Event.verdict?
  marks := (w.past i).filterMap Event.mark?

variable {w w' : World} {i j : MiddlewareId}

/-! ## Transitions that leave the books as they are -/

theorem Untouched.book (h : Untouched i w w') : w'.book i = w.book i := by
  simp only [World.book, h.engine, h.past]

theorem book_congr (hm : w'.middlewares = w.middlewares) (hj : w'.journal = w.journal) :
    w'.book i = w.book i := (Untouched.of_eq hm hj).book

/-- An engine whose books are the same. -/
structure SameBook (e e' : Engine) : Prop where
  errands : e'.agenda.errands = e.agenda.errands
  outcomes : e'.outcomes = e.outcomes
  watermark : e'.bus.watermark = e.bus.watermark

theorem book_setEngine_of {f : Engine → Engine} (hf : SameBook (w.engine j) (f (w.engine j))) :
    (w.setEngine j f).book i = w.book i := by
  by_cases hij : i = j
  · subst hij
    have he : SameBook (w.engine i) ((w.setEngine i f).engine i) := by
      cases hm : w.middlewares.get? i with
      | none => exact ⟨by simp [engine, setEngine, hm], by simp [engine, setEngine, hm],
          by simp [engine, setEngine, hm]⟩
      | some m => simpa [engine, setEngine, hm] using hf
    simp only [World.book, he.errands, he.outcomes, he.watermark]
    rfl
  · exact (untouched_setEngine hij f).book

@[simp] theorem book_setEngine {f : Engine → Engine}
    (hf : ∀ e, (f e).agenda.errands = e.agenda.errands ∧ (f e).outcomes = e.outcomes ∧
      (f e).bus.watermark = e.bus.watermark) : (w.setEngine j f).book i = w.book i :=
  book_setEngine_of ⟨(hf _).1, (hf _).2.1, (hf _).2.2⟩

@[simp] theorem book_setTask (t : TaskId) (f : TaskNode → TaskNode) :
    (w.setTask j t f).book i = w.book i := by simp [setTask]

@[simp] theorem book_schedule (r : Reaction) : (w.schedule j r).book i = w.book i := by
  simp [schedule, Agenda.schedule]

@[simp] theorem book_foldl {α : Type} {f : World → α → World} (hf : ∀ w a, (f w a).book i = w.book i)
    (w : World) (as : List α) : (as.foldl f w).book i = w.book i := by
  induction as generalizing w with
  | nil => rfl
  | cons a as ih => rw [List.foldl_cons, ih, hf]

theorem book_enter {e : Entry} (h : IsForeign e) : (w.enter e).book i = w.book i :=
  (untouched_enter h).book

@[simp] theorem book_enterNotes (notes : List Note) : (w.enterNotes notes).book i = w.book i :=
  (untouched_enterNotes notes).book

/-- An event is entered in the books of its middleware. -/
theorem book_record (e : Event) :
    (w.record j e).book i = if i = j then (w.book i).enter e else w.book i := by
  have hcons : ∀ {α : Type} (f : Event → Option α) (past : List Event),
      (e :: past).filterMap f = (f e).toList ++ past.filterMap f := by
    intro α f past
    cases hf : f e <;> simp [hf]
  by_cases h : i = j
  · subst h
    simp only [World.book, past_record, if_true, Book.enter, hcons]
    rfl
  · rw [if_neg h, (untouched_record h e).book]

@[simp] theorem book_record_unbooked {e : Event} (h : e.IsUnbooked) :
    (w.record j e).book i = w.book i := by
  rw [book_record, Book.enter_unbooked h, ite_self]

@[simp] theorem book_setWaits (waits : Waits) : (w.setWaits j waits).book i = w.book i := by
  simp [setWaits]

@[simp] theorem book_insertWait (x : EffectId) (wait : Wait) :
    (w.insertWait j x wait).book i = w.book i := by simp [insertWait]

@[simp] theorem book_setMember (p : EffectId) (slot : Nat) (x : EffectId) :
    (w.setMember j p slot x).book i = w.book i := by simp [setMember]

@[simp] theorem book_park (t : TaskId) (b : Body) (pending : Option EffectId) :
    (w.park j t b pending).book i = w.book i := by simp [park]

theorem book_deregister (x : EffectId) (kind : WaitKind) :
    (w.deregister j x kind).book i = w.book i := by
  cases kind with
  | take source taker =>
    cases source with
    | bus => simp [deregister]
    | channel c => exact book_congr rfl rfl
  | call d => exact (untouched_unsubscribe d).book
  | join u => simp [deregister]
  | _ => rfl

@[simp] theorem book_passAll (ps : List Passage) : (w.passAll j ps).book i = w.book i := by
  refine book_foldl (fun w p => ?_) w ps
  cases p with
  | withdrawn x wait =>
    exact (book_record_unbooked ⟨rfl, rfl, rfl, rfl⟩).trans (book_deregister x wait.kind)
  | settled x signal => exact book_record_unbooked ⟨rfl, rfl, rfl, rfl⟩

@[simp] theorem book_cancelWait (x : EffectId) : (w.cancelWait j x).book i = w.book i := by
  simp [cancelWait]

@[simp] theorem book_cancelPending (pending : Option EffectId) :
    (w.cancelPending j pending).book i = w.book i := by
  cases pending <;> simp [cancelPending]

@[simp] theorem book_settleWait (x : EffectId) (signal : Signal) :
    (w.settleWait j x signal).2.book i = w.book i := by simp [settleWait]

@[simp] theorem book_closeRace (x : EffectId) (wait : Wait) (slot : Nat) (signal : Signal) :
    (w.closeRace j x wait slot signal).2.book i = w.book i := by simp [closeRace]

@[simp] theorem book_dropAll (x : EffectId) (wait : Wait) :
    (w.dropAll j x wait).book i = w.book i := by simp [dropAll]

@[simp] theorem book_createTask (saga : Saga) (parent : Option TaskId) (detached : Bool) :
    (w.createTask j saga parent detached).book i = w.book i := by
  refine (book_record_unbooked ⟨rfl, rfl, rfl, rfl⟩).trans ?_
  cases parent with
  | none => simp
  | some p => cases detached <;> simp

@[simp] theorem book_broadcast (a : Action) : (w.broadcast j a).book i = w.book i := by
  refine (book_foldl (fun _ _ => book_schedule _) _ _).trans ?_
  simp

@[simp] theorem book_reduceHost (a : Action) : (w.reduceHost j a).book i = w.book i :=
  (untouched_reduceHost a).book

@[simp] theorem book_readState : (w.readState j).2.book i = w.book i := by
  unfold readState
  split
  · rfl
  · simp only
    split
    · rfl
    · exact book_record_unbooked ⟨rfl, rfl, rfl, rfl⟩

@[simp] theorem book_putChannel (c : ChannelId) (channel : Channel Sink) (v : Value) :
    (w.putChannel c channel v).2.book i = w.book i := (untouched_putChannel c channel v).book

@[simp] theorem book_takeChannel (c : ChannelId) (channel : Channel Sink) (p : Pattern)
    (sink : Sink) : (w.takeChannel c channel p sink).2.book i = w.book i :=
  (untouched_takeChannel c channel p sink).book

@[simp] theorem book_addDeferred (d : Deferred EffectRef) :
    (w.addDeferred d).2.book i = w.book i := (untouched_addDeferred d).book

@[simp] theorem book_addTimer (ms : Nat) (a : Answer) : (w.addTimer ms a).2.book i = w.book i :=
  (untouched_addTimer ms a).book

@[simp] theorem book_wakeWatches (t : TaskRef) : (w.wakeWatches t).book i = w.book i :=
  (untouched_wakeWatches t).book

theorem spend_eq (h : w.spend = some w') : ∃ n, w' = { w with budget := n } := by
  unfold spend at h
  split at h <;> cases h
  exact ⟨_, rfl⟩

theorem book_spend (h : w.spend = some w') : w'.book i = w.book i := by
  obtain ⟨n, rfl⟩ := spend_eq h
  exact book_congr rfl rfl

/-! ## Transitions that write -/

/-- An errand is queued. -/
theorem book_queue (hi : w.Has i) (e : Errand) :
    (w.queue i e).book i = { w.book i with errands := (w.book i).errands ++ [e] } := by
  refine (book_record_unbooked ⟨rfl, rfl, rfl, rfl⟩).trans ?_
  simp only [book, engine_setEngine hi]
  rfl

/-- The bus ends, and the mark is set at the tasks created so far. -/
theorem book_endBus (hi : w.Has i) : (w.endBus i).book i = { w.book i with
    watermark := some (w.engine i).nextTask
    marks := (w.engine i).nextTask :: (w.book i).marks } := by
  refine (book_foldl (fun _ _ => book_schedule _) _ _).trans ?_
  rw [book_record, if_pos rfl]
  simp only [book, engine_setEngine hi]
  rfl

theorem book_endBus_of_ne (hij : i ≠ j) : (w.endBus j).book i = w.book i := by
  refine (book_foldl (fun _ _ => book_schedule _) _ _).trans ?_
  rw [book_record, if_neg hij]
  exact (untouched_setEngine hij _).book

/-- The outcome of a task of the table is written down. -/
theorem book_finalize (hi : w.Has i) {t : TaskId} {n : TaskNode} (hn : w.task? i t = some n)
    (o : Outcome) : (w.finalize i t o).2.book i = { w.book i with
      outcomes := (w.book i).outcomes.insert t o
      finished := (t, o) :: (w.book i).finished } := by
  have h : (w.announce i t n o).book i = { w.book i with
      outcomes := (w.book i).outcomes.insert t o
      finished := (t, o) :: (w.book i).finished } := by
    rw [announce, book_record, if_pos rfl, book_foldl (fun _ _ => book_schedule _),
      book_wakeWatches]
    simp only [book, engine_setEngine hi]
    rfl
  rw [finalize_eq hn]
  simp only
  split
  · split
    · exact h
    · split
      · exact h
      · split
        · exact (book_setTask ..).trans h
        · split <;> exact (book_setTask ..).trans h
  · split
    · exact (book_record_unbooked ⟨rfl, rfl, rfl, rfl⟩).trans h
    · exact h

end World

/-! ## Instructions that leave the books as they are -/

/-- Who is told the result of a broadcast, among the effects. -/
def Sender.reply? : Sender → Option EffectId
  | .effect x => some x
  | .nobody | .caller _ => none

/-- The errand that an instruction is about to carry out, and for whom. -/
def Instr.underway? : Instr → Option (MiddlewareId × Errand)
  | .perform i (.errand e) => some (i, e)
  | .emit i a sender => some (i, .dispatch a sender.reply?)
  | _ => none

/-- What an instruction comes to leaves the books as they are, and no errand is left to it. -/
structure World.Plain (w : World) (c : Config) : Prop where
  book : ∀ i, c.world.book i = w.book i
  todo : (c.todo.all fun x => x.underway?.isNone) = true

namespace World.Plain

variable {w w' w'' : World} {i j : MiddlewareId} {c : Config} {turn : Turn} {b : Body}
  {nests : List Nest}

theorem start (w : World) : w.Plain ⟨[], w⟩ := ⟨fun _ => rfl, rfl⟩

theorem of_book (hb : ∀ i, w''.book i = w'.book i) (h : w'.Plain c) : w''.Plain c :=
  ⟨fun i => (h.book i).trans (hb i).symm, h.todo⟩

theorem followedBy (h : w.Plain c) {after : List Instr}
    (ha : (after.all fun x => x.underway?.isNone) = true) : w.Plain (c.followedBy after) :=
  ⟨h.book, by rw [Config.followedBy, List.all_append, h.todo, ha]; rfl⟩

theorem all_map {α : Type} {f : α → Instr} (hf : ∀ a, (f a).underway? = none) (as : List α) :
    ((as.map f).all fun x => x.underway?.isNone) = true := by
  simp [hf]

/-! ### The driver -/

theorem enterDriver (h : ∀ i, w'.book i = w.book i) {work : List Instr}
    (hw : (work.all fun x => x.underway?.isNone) = true) : w.Plain (w'.enterDriver j work) := by
  unfold World.enterDriver
  split
  · exact ⟨h, hw⟩
  · refine ⟨fun i => (by simp : _ = w'.book i).trans (h i), ?_⟩
    rw [List.all_append, hw]
    rfl

theorem notify (target : EffectRef) (signal : Signal) : w.Plain (w.notify target signal) := by
  unfold World.notify
  split
  · exact start w
  · exact enterDriver (fun i => by simp) rfl

theorem beginTurn (t : TaskId) (expected : Option EffectId) (signal : Option Signal) :
    w.Plain (w.beginTurn j t expected signal) := by
  unfold World.beginTurn
  split
  · exact start w
  · split
    · exact start w
    · split
      · exact start w
      · simp only
        split <;> exact ⟨fun i => by simp, rfl⟩

theorem execPerform (r : Reaction) : w.Plain (w.execPerform j (.reaction r)) := by
  cases r with
  | start t => exact beginTurn t none none
  | resume t signal => exact beginTurn t none (some signal)
  | settle x signal =>
    have h : ∀ i, w.book i = (w.settleWait j x signal).2.book i := fun i => by simp
    simp only [World.execPerform]
    split
    · exact of_book h (start _)
    · exact of_book h (beginTurn ..)

theorem putForEffect (c : ChannelId) (v : Value) (reply : EffectId) :
    w.Plain (w.putForEffect j c v reply) := by
  unfold World.putForEffect
  split
  · exact ⟨fun i => by simp, rfl⟩
  · simp only
    split <;> exact ⟨fun i => by simp, rfl⟩

theorem finishEmit (h : ∀ i, w'.book i = w.book i) (a : Action) (sender : Sender)
    (result : Except Fault Unit) : w.Plain (w'.finishEmit j a sender result) := by
  unfold World.finishEmit
  split
  · exact ⟨fun i => by simpa using h i, rfl⟩
  · exact ⟨h, rfl⟩
  · split
    · exact ⟨h, rfl⟩
    · exact ⟨fun i => (book_record_unbooked ⟨rfl, rfl, rfl, rfl⟩).trans (h i), rfl⟩

theorem execForwarded (a : Action) (sender : Sender) : w.Plain (w.execForwarded j a sender) := by
  unfold World.execForwarded
  split
  · exact start w
  · split
    · exact finishEmit (fun _ => rfl) ..
    · exact finishEmit (fun i => by simp) ..

/-! ### Effects -/

theorem immediate (h : ∀ i, w'.book i = w.book i) (x : EffectId) (signal : Signal) :
    w.Plain (w'.immediate turn b nests x signal) :=
  ⟨fun i => (book_record_unbooked ⟨rfl, rfl, rfl, rfl⟩).trans (h i), rfl⟩

theorem suspend (h : ∀ i, w'.book i = w.book i) (x : EffectId) (kind : WaitKind) :
    w.Plain (w'.suspend turn b nests x kind) :=
  ⟨fun i => (book_insertWait ..).trans (h i), rfl⟩

theorem awaitDeferred (h : ∀ i, w'.book i = w.book i) (x : EffectId) (d : DeferredId) :
    w.Plain (w'.awaitDeferred turn b nests x d) := by
  have hs : w.Plain (w'.suspend turn b nests x (.call d)) := suspend h x _
  unfold World.awaitDeferred
  simp only
  split
  · exact hs
  · split
    · exact ⟨fun i => (book_congr rfl rfl).trans (hs.book i), hs.todo⟩
    · exact ⟨fun i => (book_schedule _).trans ((book_congr rfl rfl).trans (hs.book i)), hs.todo⟩

theorem startTake (h : ∀ i, w'.book i = w.book i) (x : EffectId) (source : Source) (p : Pattern) :
    w.Plain (w'.startTake turn b nests x source p) := by
  unfold World.startTake
  split
  · have hbus : ∀ i, (w'.setEngine turn.mw fun e =>
        { e with bus := ((w'.engine turn.mw).bus.take turn.task p x).bus }).book i = w.book i :=
      fun i => (book_setEngine_of ⟨rfl, rfl, Bus.watermark_take ..⟩).trans (h i)
    simp only
    split
    · exact immediate hbus ..
    · exact suspend hbus ..
  · split
    · exact immediate h ..
    · simp only
      split
      · exact immediate (fun i => by simpa using h i) ..
      · exact suspend (fun i => by simpa using h i) ..

theorem startCall (h : ∀ i, w'.book i = w.book i) (x : EffectId) (routine : Routine) :
    w.Plain (w'.startCall turn b nests x routine) := by
  unfold World.startCall
  split
  · exact awaitDeferred (fun i => by simpa using h i) ..
  · rename_i c env
    refine ⟨fun i => ?_, rfl⟩
    cases c.label with
    | none => exact h i
    | some name => exact (book_enter (e := .call name) trivial).trans (h i)

theorem execAnswer (x : EffectId) (result : AnswerExpr) (env : Env) :
    w.Plain (w.execAnswer turn b nests x result env) := by
  cases result with
  | value | fault => exact immediate (fun _ => rfl) ..
  | deferred name =>
    simp only [World.execAnswer]
    split
    · exact awaitDeferred (fun _ => rfl) ..
    · exact immediate (fun _ => rfl) ..
  | resolved | rejected | timer => exact awaitDeferred (fun i => by simp) ..

theorem startFork (h : ∀ i, w'.book i = w.book i) (x : EffectId) (saga : Saga) (detached : Bool) :
    w.Plain (w'.startFork turn b nests x saga detached) :=
  immediate (fun i => by simpa using h i) ..

theorem startJoin (h : ∀ i, w'.book i = w.book i) (x : EffectId) (target : TaskRef) :
    w.Plain (w'.startJoin turn b nests x target) := by
  unfold World.startJoin
  split
  · exact immediate h ..
  · split
    · exact immediate h ..
    · split
      · exact immediate h ..
      · split
        · exact immediate h ..
        · exact suspend (fun i => by simpa using h i) ..

theorem startRace (h : ∀ i, w'.book i = w.book i) (x : EffectId) (keys : Option (List String))
    (members : List Effect) : w.Plain (w'.startRace turn b nests x keys members) := by
  cases members with
  | nil => exact immediate h ..
  | cons => exact ⟨fun i => (book_insertWait ..).trans (h i), rfl⟩

theorem startAll (h : ∀ i, w'.book i = w.book i) (x : EffectId) (members : List Effect) :
    w.Plain (w'.startAll turn b nests x members) := by
  cases members with
  | nil => exact immediate h ..
  | cons => exact ⟨fun i => (book_insertWait ..).trans (h i), rfl⟩

theorem startCancel (h : ∀ i, w'.book i = w.book i) (x : EffectId) (target : Option TaskRef) :
    w.Plain (w'.startCancel turn b nests x target) := by
  unfold World.startCancel
  split
  · exact ⟨h, rfl⟩
  · split
    · exact immediate h ..
    · exact ⟨h, rfl⟩

/-- The start of an effect, but for puts. -/
theorem execTrigger {e : Effect} (he : ∀ target, e ≠ .put target) :
    w.Plain (w.execTrigger turn b nests e) := by
  unfold World.execTrigger
  split
  · exact ⟨fun _ => rfl, rfl⟩
  · have h : ∀ i, ((w.setEngine turn.mw fun e =>
        { e with nextEffect := (w.engine turn.mw).nextEffect + 1 }).record turn.mw
          (.triggered turn.task (w.engine turn.mw).nextEffect (Nest.link nests).parent? e)).book i =
        w.book i := by
      intro i
      have hu : (Event.triggered turn.task (w.engine turn.mw).nextEffect
          (Nest.link nests).parent? e).IsUnbooked := by
        cases e with
        | put target => exact absurd rfl (he target)
        | _ => exact ⟨rfl, rfl, rfl, rfl⟩
      exact (book_record_unbooked hu).trans (by simp)
    simp only
    cases e with
    | take source p => exact startTake h ..
    | put target => exact absurd rfl (he target)
    | call name routine => exact startCall h ..
    | fork saga detached => exact startFork h ..
    | join target => exact startJoin h ..
    | race members =>
      simp only [World.startKeyedRace]
      split
      · exact immediate h ..
      · exact startRace h ..
    | racePositional members => exact startRace h ..
    | all members => exact startAll h ..
    | cancel target => exact startCancel h ..
    | select key => exact immediate (fun i => book_readState.trans (h i)) ..

theorem execCancelDone (x : EffectId) : w.Plain (w.execCancelDone turn b nests x) := by
  unfold World.execCancelDone
  split
  · exact ⟨fun _ => rfl, rfl⟩
  · exact immediate (fun _ => rfl) ..

theorem resumeBody (start : Start) : w.Plain (w.resumeBody turn b start) := by
  unfold World.resumeBody
  simp only
  split
  · exact ⟨fun _ => rfl, rfl⟩
  · split
    · exact ⟨fun i => by simp, rfl⟩
    · exact ⟨fun _ => rfl, rfl⟩
  · split
    · exact ⟨fun _ => rfl, rfl⟩
    · split
      · exact ⟨fun _ => rfl, rfl⟩
      · split <;> exact ⟨fun _ => rfl, rfl⟩
      · split <;> exact ⟨fun _ => rfl, rfl⟩

theorem nextOfRace (h : ∀ i, w'.book i = w.book i) (x : EffectId) (slot : Nat)
    (rest : List Effect) : w.Plain (w'.nextOfRace turn b x slot rest nests) := by
  cases rest <;> exact ⟨h, rfl⟩

theorem nextOfAll (h : ∀ i, w'.book i = w.book i) (x : EffectId) (slot : Nat)
    (rest : List Effect) : w.Plain (w'.nextOfAll turn b x slot rest nests) := by
  unfold World.nextOfAll
  split
  · exact ⟨h, rfl⟩
  · split
    · exact immediate (fun i => by simpa using h i) ..
    · exact ⟨h, rfl⟩

theorem execBegun (start : Start) : w.Plain (w.execBegun turn b nests start) := by
  unfold World.execBegun
  split
  · exact resumeBody start
  · unfold World.begunInRace
    split
    · exact nextOfRace (fun i => by simp) ..
    · exact ⟨fun i => by simp, rfl⟩
    · split
      · exact ⟨fun _ => rfl, rfl⟩
      · exact immediate (fun i => by simp) ..
  · unfold World.begunInAll
    split
    · exact nextOfAll (fun i => by simp) ..
    · exact ⟨fun i => by simp, rfl⟩
    · exact nextOfAll (fun i => by simp) ..
    · refine immediate (fun i => ?_) ..
      split
      · rfl
      · simp

theorem execPolled (step : Step Effect) : w.Plain (w.execPolled turn b step) := by
  unfold World.execPolled
  split
  · exact ⟨fun _ => rfl, rfl⟩
  · split <;> exact ⟨fun _ => rfl, rfl⟩

/-! ### The end of tasks -/

theorem execLeave (exit : Exit) : w.Plain (w.execLeave turn b exit) := by
  unfold World.execLeave
  simp only
  split <;> exact ⟨fun i => by simp, rfl⟩

theorem dropping (body : Option Body) :
    ((World.dropping turn body).all fun x => x.underway?.isNone) = true := by
  cases body <;> rfl

theorem execReturned (v : Value) : w.Plain (w.execReturned turn v) := by
  unfold World.execReturned
  split
  · exact start w
  · split
    · exact start w
    · split <;> exact ⟨fun i => by simp, rfl⟩

theorem execAbort (f : Fault) : w.Plain (w.execAbort turn f) := by
  unfold World.execAbort
  split
  · exact start w
  · split
    · exact start w
    · refine ⟨fun i => by simp, ?_⟩
      rw [List.all_append, List.all_append, dropping]
      simp [Instr.underway?]

theorem execCancel (root : TaskId) : w.Plain (w.execCancel j root) := by
  unfold World.execCancel
  simp only
  split
  · exact ⟨fun i => book_foldl (fun w t => book_setTask ..) _ _, rfl⟩
  · exact start w

theorem execCancelEach (order : List TaskId) (cascades : List Cascade) :
    w.Plain (w.execCancelEach j order cascades) := by
  unfold World.execCancelEach
  split
  · exact ⟨fun _ => rfl, all_map (fun _ => rfl) _⟩
  · split
    · exact ⟨fun _ => rfl, rfl⟩
    · refine ⟨fun i => by simp, ?_⟩
      rw [List.all_append, dropping]
      rfl

/-! ### User code -/

theorem goesOn (h : Enacts.GoesOn turn w c) : w.Plain c := by
  obtain ⟨g, hg, ht⟩ := h.todo
  have hgn : g.underway? = none := by
    cases g with
    | advance | polled => rfl
    | _ => exact hg.elim
  refine ⟨fun i => (h.untouched i).book, ?_⟩
  rcases ht with ht | ⟨y, ht, hy, -⟩
  · simp [ht, hgn]
  · have hyn : y.underway? = none := by
      cases y with
      | perform | emit => cases hy
      | _ => rfl
    simp [ht, hgn, hyn]

theorem execReply (site : Site) (name : String) (r : Reply) : w.Plain (w.execReply site name r) := by
  cases site with
  | outside => exact ⟨fun i => book_congr rfl rfl, rfl⟩
  | nested => exact ⟨fun i => book_enter (e := .op name r) trivial, rfl⟩

theorem execDeliver (sink : Sink) (d : Delivery) : w.Plain (w.execDeliver sink d) := by
  cases sink with
  | effect target => exact notify ..
  | script tag next env => exact ⟨fun i => book_enter (e := .taker tag d) trivial, rfl⟩

theorem settleDeferred (h : ∀ i, w'.book i = w.book i) (d : DeferredId) (a : Answer) :
    w.Plain (w'.settleDeferred d a).2 := by
  unfold World.settleDeferred
  split
  · exact ⟨h, rfl⟩
  · simp only
    split
    · exact ⟨fun i => (book_congr rfl rfl).trans (h i), rfl⟩
    · show w.Plain (World.notify _ _ _)
      refine of_book (fun i => ?_) (notify ..)
      exact ((book_congr rfl rfl).trans (h i)).symm

theorem execMoveClock (target : Nat) : w.Plain (w.execMoveClock target) := by
  unfold World.execMoveClock
  split
  · exact ⟨fun i => book_congr rfl rfl, rfl⟩
  · refine followedBy (settleDeferred (fun i => ?_) ..) rfl
    exact book_congr rfl rfl

theorem opRun (site : Site) (env : Env) (saga : SagaExpr) (label : Option String) :
    w.Plain (w.opRun site env j saga label) :=
  (enterDriver (fun i => by simp) rfl).followedBy rfl

theorem opCancel (site : Site) (t : TaskRef) : w.Plain (w.opCancel site t) := by
  unfold World.opCancel
  split
  · exact ⟨fun _ => rfl, rfl⟩
  · exact (enterDriver (fun _ => rfl) rfl).followedBy rfl

theorem opPut (site : Site) (c : ChannelId) (channel : Channel Sink) (v : Value) :
    w.Plain (w.opPut site c channel v) := by
  unfold World.opPut
  simp only
  split <;> exact ⟨fun i => by simp, rfl⟩

theorem opTake (site : Site) (env : Env) (c : ChannelId) (channel : Channel Sink) (p : Pattern)
    (tag : String) (next : List Op) : w.Plain (w.opTake site env c channel p tag next) := by
  unfold World.opTake
  simp only
  split <;> exact ⟨fun i => by simp, rfl⟩

theorem opClose (site : Site) (c : ChannelId) (channel : Channel Sink) :
    w.Plain (w.opClose site c channel) := by
  refine ⟨fun i => book_congr rfl rfl, ?_⟩
  simp only [World.opClose]
  rw [List.all_append, all_map fun _ => rfl]
  rfl

theorem opSettle (site : Site) (o : Op) (name : String) (a : Answer) :
    w.Plain (w.opSettle site o name a) := by
  unfold World.opSettle
  split
  · exact ⟨fun _ => rfl, rfl⟩
  · exact (settleDeferred (fun _ => rfl) ..).followedBy rfl

theorem opAdvance (site : Site) (ms : Nat) : w.Plain (w.opAdvance site ms) := by
  unfold World.opAdvance
  split <;> exact ⟨fun _ => rfl, rfl⟩

theorem withMiddleware {site : Site} {o : Op} {f : Middleware → Config} (h : ∀ m, w.Plain (f m)) :
    w.Plain (w.withMiddleware site o j f) := by
  unfold World.withMiddleware
  split
  · exact ⟨fun _ => rfl, rfl⟩
  · exact h _

theorem withTask {site : Site} {env : Env} {o : Op} {x : Expr} {f : TaskRef → Config}
    (h : ∀ t, w.Plain (f t)) : w.Plain (w.withTask site env o x f) := by
  unfold World.withTask
  split
  · exact h _
  · exact ⟨fun _ => rfl, rfl⟩

theorem withChannel {site : Site} {o : Op} {name : String} {f : ChannelId → Channel Sink → Config}
    (h : ∀ c channel, w.Plain (f c channel)) : w.Plain (w.withChannel site o name f) := by
  unfold World.withChannel
  split
  · exact ⟨fun _ => rfl, rfl⟩
  · split
    · exact ⟨fun _ => rfl, rfl⟩
    · exact h _ _

end World.Plain

/-- An operation that concerns the books: it issues an errand, or drops a middleware. -/
def Op.Writes : Op → Prop
  | .dispatch .. | .finish _ | .drop _ => True
  | _ => False

/-- An instruction that concerns the books. -/
def Instr.Writes : Instr → Prop
  | .drain _ | .perform _ (.errand _) | .trigger _ _ _ (.put _) | .emit .. | .abortDone ..
  | .conclude _ | .cascade .. | .cancelOne .. => True
  | .op _ _ o => o.Writes
  | _ => False

/-- An instruction ends the bus of a middleware. -/
def Instr.EndsBus (i : MiddlewareId) : Instr → Prop
  | .perform j (.errand .finish) | .op _ _ (.finish j) => j = i
  | _ => False

section

variable {w w' : World} {c : Config} {x : Instr}

theorem Op.plain_runOp {site : Site} {env : Env} {o : Op} (ho : ¬ o.Writes) :
    w.Plain (w.runOp site env o) := by
  cases o with
  | dispatch | finish | drop => exact absurd trivial ho
  | run i saga label => exact .withMiddleware fun _ => .opRun ..
  | live | settings => exact .withMiddleware fun _ => ⟨fun _ => rfl, rfl⟩
  | state => exact .withMiddleware fun _ => ⟨fun i => by simp [World.answerOp], rfl⟩
  | cancel => exact .withTask fun _ => .opCancel ..
  | inspect => exact .withTask fun _ => ⟨fun _ => rfl, rfl⟩
  | watch x tag =>
    exact .withTask fun t => ⟨fun i => (World.Bears.untouched_opWatch t tag).book, rfl⟩
  | put => exact .withChannel fun _ _ => .opPut ..
  | take => exact .withChannel fun _ _ => .opTake ..
  | untake tag => exact ⟨fun i => (World.Bears.untouched_opUntake tag).book, rfl⟩
  | close => exact .withChannel fun _ _ => .opClose ..
  | showChannel => exact .withChannel fun _ _ => ⟨fun _ => rfl, rfl⟩
  | resolve | reject => exact .opSettle ..
  | showDeferred =>
    simp only [World.runOp]
    split <;> exact ⟨fun _ => rfl, rfl⟩
  | log tag x => exact ⟨fun i => World.book_enter (e := .log tag _) trivial, rfl⟩
  | advance => exact .opAdvance ..
  | sameTask | wakes | sameChannel | unknown => exact ⟨fun _ => rfl, rfl⟩

/-- An instruction that does not concern the books leaves them as they are. -/
theorem Instr.plain_exec (hx : ¬ x.Writes) (hc : x.exec w = some c) : w.Plain c := by
  cases x with
  | advance turn s m => exact .goesOn (.execAdvance hc)
  | op site env o =>
    obtain ⟨w', hs, rfl⟩ := Option.map_eq_some_iff.1 hc
    exact .of_book (fun i => (World.book_spend hs).symm) (o.plain_runOp hx)
  | drain | emit | abortDone | conclude | cascade | cancelOne => exact absurd trivial hx
  | perform i job =>
    cases hc
    cases job with
    | reaction r => exact .execPerform r
    | errand => exact absurd trivial hx
  | trigger turn b nests e =>
    cases hc
    refine .execTrigger fun target he => ?_
    subst he
    exact absurd trivial hx
  | schedule =>
    cases hc
    exact ⟨fun i => by simp, rfl⟩
  | poll turn b a =>
    cases hc
    have h : ∀ i, w.book i = (w.record turn.mw (.polled turn.task a)).book i :=
      fun i => (World.book_record_unbooked ⟨rfl, rfl, rfl, rfl⟩).symm
    exact .of_book h (.goesOn (.execPoll b a))
  | polled => cases hc; exact .execPolled _
  | answer => cases hc; exact .execAnswer ..
  | cancelDone => cases hc; exact .execCancelDone _
  | begun => cases hc; exact .execBegun _
  | leave => cases hc; exact .execLeave _
  | dropBody turn b =>
    cases hc
    exact ⟨fun i => World.book_record_unbooked ⟨rfl, rfl, rfl, rfl⟩, rfl⟩
  | returned => cases hc; exact .execReturned _
  | abort => cases hc; exact .execAbort _
  | cancel => cases hc; exact .execCancel _
  | cancelEach => cases hc; exact .execCancelEach ..
  | forwarded => cases hc; exact .execForwarded ..
  | deliver => cases hc; exact .execDeliver ..
  | guards gs =>
    cases hc
    cases gs with
    | nil => exact .start w
    | cons g gs => exact ⟨fun i => World.book_enter (e := .guard g.name) trivial, rfl⟩
  | ops env os => cases hc; cases os <;> exact ⟨fun _ => rfl, rfl⟩
  | reply => cases hc; exact .execReply ..
  | started site label t =>
    cases hc
    exact ⟨fun i => (World.Enacts.GoesOn.register (fun i => .refl i w) label _ i).book, rfl⟩
  | registered => cases hc; exact ⟨fun i => World.book_congr rfl rfl, rfl⟩
  | moveClock => cases hc; exact .execMoveClock _

end

end SagaMachine
