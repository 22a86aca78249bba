import SagaMachine.Proofs.Debts

/-!
# Channels that are left alone

A channel changes where a value is put on it, where it is closed, and where a taker comes. Every
other instruction leaves it as it is (`World.Stays`): takers may be withdrawn, but the buffer is the
same, and no value is entered in the journal as accepted.

Main statement: `Instr.stays`.
-/

namespace SagaMachine

/-- An instruction that registers a taker on a channel. -/
def Instr.Takes (c : ChannelId) (w : World) : Instr → Prop
  | .trigger _ _ _ (.take (.channel d) _) => d = c
  | .op _ _ (.take name _ _ _) => w.channelNames.get? name = some c
  | _ => False

/-- A channel with the same buffer, whose takers were there before, in the same order. -/
structure Channel.Stays {κ : Type} (c c' : Channel κ) : Prop where
  buffer : c'.buffer = c.buffer
  takers : c'.takers.Sublist c.takers

namespace World

/-- A channel stays as it is, but for takers that are withdrawn; and it accepts nothing. -/
structure Stays (c : ChannelId) (w w' : World) : Prop where
  channel : Option.Rel Channel.Stays (w.channels.get? c) (w'.channels.get? c)
  journal : ∃ es, w'.journal = es ++ w.journal ∧ ∀ v, .accepted c v ∉ es

variable {c d : ChannelId} {w w' w'' : World} {i : MiddlewareId} {turn : Turn} {b : Body}
  {nests : List Nest} {x : EffectId}

namespace Stays

theorem same (h : w.Stays c w')
    (hs : (w''.channels, w''.journal) = (w'.channels, w'.journal)) : w.Stays c w'' :=
  ⟨(Prod.mk.inj hs).1 ▸ h.channel, (Prod.mk.inj hs).2 ▸ h.journal⟩

theorem refl (c : ChannelId) (w : World) : w.Stays c w :=
  ⟨Option.Rel.refl (fun _ => ⟨rfl, .refl _⟩) _, [], rfl, fun _ => List.not_mem_nil⟩

theorem trans (h : w.Stays c w') (h' : w'.Stays c w'') : w.Stays c w'' where
  channel := Option.Rel.trans (fun ha hb => ⟨hb.buffer.trans ha.buffer, hb.takers.trans ha.takers⟩)
    h.channel h'.channel
  journal := by
    obtain ⟨es, he, hes⟩ := h.journal
    obtain ⟨es', he', hes'⟩ := h'.journal
    refine ⟨es' ++ es, by rw [he', he, List.append_assoc], fun v hm => ?_⟩
    exact (List.mem_append.1 hm).elim (hes' v) (hes v)

theorem enter (h : w.Stays c w') {e : Entry} (he : ∀ v, e ≠ .accepted c v) :
    w.Stays c (w'.enter e) where
  channel := h.channel
  journal := by
    obtain ⟨es, hj, hes⟩ := h.journal
    refine ⟨e :: es, congrArg (e :: ·) hj, fun v hm => ?_⟩
    exact (List.mem_cons.1 hm).elim (fun heq => he v heq.symm) (hes v)

theorem record (h : w.Stays c w') (e : Event) : w.Stays c (w'.record i e) := h.enter (by simp)

theorem foldl {α : Type} {f : World → α → World} (h : w.Stays c w')
    (hf : ∀ v a, Stays c v (f v a)) (as : List α) : w.Stays c (as.foldl f w') := by
  induction as generalizing w' with
  | nil => exact h
  | cons a as ih => exact ih (h.trans (hf w' a))

theorem enterNotes (h : w.Stays c w') (notes : List Note) : w.Stays c (w'.enterNotes notes) :=
  h.foldl (fun v _ => (refl c v).enter (by simp)) notes

/-- Another channel changes. -/
theorem setChannel (h : w.Stays c w') (hd : d ≠ c) {channel : Channel Sink} :
    w.Stays c { w' with channels := w'.channels.insert d channel } where
  channel := by
    rw [Table.get?_insert, if_neg (Ne.symm hd)]
    exact h.channel
  journal := h.journal

/-- Takers are withdrawn. -/
theorem setTakers (h : w.Stays c w') {channel channel' : Channel Sink}
    (hd : w'.channels.get? d = some channel) (hs : channel.Stays channel') :
    w.Stays c { w' with channels := w'.channels.insert d channel' } := by
  by_cases hdc : d = c
  · subst hdc
    refine h.trans ⟨?_, [], rfl, fun _ => List.not_mem_nil⟩
    rw [hd, Table.get?_insert, if_pos rfl]
    exact .some hs
  · exact h.setChannel hdc

theorem cancelTaker (channel : Channel Sink) (id : TakerId) :
    channel.Stays (channel.cancelTaker id).2 :=
  ⟨rfl, List.filter_sublist⟩

/-! ## Effects that settle or are withdrawn -/

theorem stopTimer (h : w.Stays c w') (id : Option TimerId) : w.Stays c (w'.stopTimer id) := by
  cases id with
  | none => exact h
  | some id => exact h.same (by rfl)

theorem unsubscribe (h : w.Stays c w') (e : DeferredId) : w.Stays c (w'.unsubscribe e) := by
  unfold World.unsubscribe
  split
  · exact h
  · exact stopTimer (h.same (by rfl)) _

theorem deregister (h : w.Stays c w') (x : EffectId) (kind : WaitKind) :
    w.Stays c (w'.deregister i x kind) := by
  cases kind with
  | take source id =>
    cases source with
    | bus => exact h.same (by rfl)
    | channel d =>
      refine h.trans ⟨?_, [], rfl, fun _ => List.not_mem_nil⟩
      simp only [World.deregister, Table.get?_modify]
      split
      · rename_i hcd
        rw [hcd]
        cases w'.channels.get? d with
        | none => exact .none
        | some channel => exact .some (cancelTaker channel id)
      · exact (refl c w').channel
  | call e => exact h.unsubscribe e
  | join | put | race | all => exact h.same (by rfl)

theorem passAll (h : w.Stays c w') (ps : List Passage) : w.Stays c (w'.passAll i ps) := by
  refine h.foldl (fun v p => ?_) ps
  cases p with
  | withdrawn x wait => exact ((refl c v).deregister x wait.kind).record _
  | settled x signal => exact (refl c v).record _

theorem walk (h : w.Stays c w') (waits : Waits) (ps : List Passage) :
    w.Stays c ((w'.setWaits i waits).passAll i ps) := passAll (h.same (by rfl)) ps

theorem cancelWait (h : w.Stays c w') (x : EffectId) : w.Stays c (w'.cancelWait i x) := h.walk _ _

theorem cancelPending (h : w.Stays c w') (pending : Option EffectId) :
    w.Stays c (w'.cancelPending i pending) := by
  cases pending with
  | none => exact h
  | some x => exact h.cancelWait x

/-! ## Tasks -/

theorem createTask (h : w.Stays c w') (saga : Saga) (parent : Option TaskId) (detached : Bool) :
    w.Stays c (w'.createTask i saga parent detached) := by
  unfold World.createTask
  cases parent with
  | none => exact record (h.same (by rfl)) _
  | some p => cases detached <;> exact record (h.same (by rfl)) _

theorem schedule (h : w.Stays c w') (r : Reaction) : w.Stays c (w'.schedule i r) :=
  h.same (by rfl)

theorem foldl_schedule {α : Type} (h : w.Stays c w') (f : α → Reaction) (as : List α) :
    w.Stays c (as.foldl (fun w a => w.schedule i (f a)) w') :=
  h.foldl (fun v _ => (refl c v).schedule _) as

theorem finalize (h : w.Stays c w') (t : TaskId) (outcome : Outcome) :
    w.Stays c (w'.finalize i t outcome).2 := by
  cases hn : w'.task? i t with
  | none =>
    rw [finalize_of_absent hn]
    exact h
  | some n =>
    have h1 : w.Stays c (w'.announce i t n outcome) := by
      exact record (foldl_schedule (h.same (by rfl)) _ _) _
    rw [finalize_eq hn]
    simp only
    split
    · split
      · exact h1
      · split
        · exact h1
        · split
          · exact h1.same (by rfl)
          · split <;> exact h1.same (by rfl)
    · split
      · exact h1.record _
      · exact h1

theorem cascadeOn {r : Option Cascade × World} (h : w.Stays c r.2) :
    w.Stays c (World.cascadeOn i r).world := by
  unfold World.cascadeOn
  split <;> exact h

/-! ## The driver -/

theorem endBus (h : w.Stays c w') : w.Stays c (w'.endBus i) :=
  foldl_schedule (record (h.same (by rfl)) _) _ _

theorem broadcast (h : w.Stays c w') (a : Action) : w.Stays c (w'.broadcast i a) :=
  foldl_schedule (enterNotes (h.same (by rfl)) _) _ _

theorem putChannel (h : w.Stays c w') (hd : d ≠ c) (channel : Channel Sink) (v : Value) :
    w.Stays c (w'.putChannel d channel v).2 := by
  have h1 : w.Stays c { w'.enterNotes (channel.putNotes v) with
      channels := (w'.enterNotes (channel.putNotes v)).channels.insert d (channel.put v).2 } :=
    (h.enterNotes _).setChannel hd
  have he : ∀ u, Entry.accepted d v ≠ .accepted c u := fun u he => hd (Entry.accepted.inj he).1
  unfold World.putChannel
  simp only
  split
  · exact h1
  · exact h1
  · exact h1.enter he
  · exact h1.enter he

theorem takeChannel (h : w.Stays c w') (hd : d ≠ c) (channel : Channel Sink) (p : Pattern)
    (sink : Sink) : w.Stays c (w'.takeChannel d channel p sink).2 :=
  (h.enterNotes _).setChannel hd

theorem enterDriver (h : w.Stays c w') (work : List Instr) :
    w.Stays c (w'.enterDriver i work).world := by
  unfold World.enterDriver
  split
  · exact h
  · exact h.same (by rfl)

theorem notify (h : w.Stays c w') (target : EffectRef) (signal : Signal) :
    w.Stays c (w'.notify target signal).world := by
  unfold World.notify
  split
  · exact h
  · exact (h.schedule _).enterDriver _

theorem beginTurn (h : w.Stays c w') (t : TaskId) (expected : Option EffectId)
    (signal : Option Signal) : w.Stays c (w'.beginTurn i t expected signal).world := by
  unfold World.beginTurn
  repeat' split
  all_goals first | exact h | exact h.same (by rfl)

theorem putForEffect (h : w.Stays c w') (hd : d ≠ c) (v : Value) (reply : EffectId) :
    w.Stays c (w'.putForEffect i d v reply).world := by
  unfold World.putForEffect
  split
  · exact h.schedule _
  · rename_i channel _
    have h1 := h.putChannel hd channel v
    simp only
    split
    · exact h1.schedule _
    · exact h1
    · exact h1.schedule _

theorem execErrand {e : Errand} (hs : ¬ (Instr.perform i (.errand e)).Serves (· = c) w) :
    w.Stays c (w.execPerform i (.errand e)).world := by
  have h : w.Stays c (w.record i (.fetched e)) := (refl c w).record _
  cases e with
  | dispatch a reply => exact h
  | put d v reply => exact h.putForEffect hs v reply
  | finish => exact h.endBus

theorem execEmit (a : Action) (sender : Sender) : w.Stays c (w.execEmit i a sender).world := by
  have h : w.Stays c (w.record i (.dispatched a)) := (refl c w).record _
  unfold World.execEmit
  split
  · exact refl c w
  · simp only
    split
    · exact h
    · exact h.enter (by simp)

theorem finishEmit (h : w.Stays c w') (a : Action) (sender : Sender) (result : Except Fault Unit) :
    w.Stays c (w'.finishEmit i a sender result).world := by
  cases sender with
  | effect x => exact h.schedule _
  | caller site => exact h
  | nobody =>
    cases result with
    | ok u => exact h
    | error f => exact h.record _

theorem execForwarded (a : Action) (sender : Sender) :
    w.Stays c (w.execForwarded i a sender).world := by
  unfold World.execForwarded
  split
  · exact refl c w
  · split
    · exact finishEmit (refl c w) ..
    · exact finishEmit (broadcast ((refl c w).same (by rfl)) a) ..

/-! ## The start of effects -/

theorem immediate (h : w.Stays c w') (signal : Signal) :
    w.Stays c (w'.immediate turn b nests x signal).world := h.record _

theorem suspend (h : w.Stays c w') (kind : WaitKind) :
    w.Stays c (w'.suspend turn b nests x kind).world := h.same (by rfl)

theorem awaitDeferred (h : w.Stays c w') (e : DeferredId) :
    w.Stays c (w'.awaitDeferred turn b nests x e).world := by
  unfold World.awaitDeferred
  simp only
  split
  · exact h.suspend _
  · split
    · exact h.same (by rfl)
    · exact h.same (by rfl)

theorem addTimer (h : w.Stays c w') (ms : Nat) (a : Answer) : w.Stays c (w'.addTimer ms a).2 := by
  unfold World.addTimer
  split
  · exact h.same (by rfl)
  · exact (h.enter (e := .timersUnavailable) (by simp)).same (by rfl)
  · exact h.same (by rfl)

theorem readState (h : w.Stays c w') : w.Stays c (w'.readState i).2 := by
  unfold World.readState
  split
  · exact h
  · simp only
    split
    · exact h
    · exact h.record _

theorem startTake (h : w.Stays c w') {source : Source} (hs : source ≠ .channel c) (p : Pattern) :
    w.Stays c (w'.startTake turn b nests x source p).world := by
  unfold World.startTake
  cases source with
  | bus =>
    simp only
    split
    · exact immediate (h.same (by rfl)) _
    · exact suspend (h.same (by rfl)) _
  | channel d =>
    have hd : d ≠ c := fun hd => hs (by rw [hd])
    simp only
    split
    · exact h.immediate _
    · split
      · exact (h.takeChannel hd ..).immediate _
      · exact (h.takeChannel hd ..).suspend _

theorem startCall (h : w.Stays c w') (routine : Routine) :
    w.Stays c (w'.startCall turn b nests x routine).world := by
  unfold World.startCall
  cases routine with
  | sleep ms => exact (h.addTimer ms _).awaitDeferred _
  | scripted called env =>
    simp only
    cases called.label with
    | none => exact h
    | some name => exact h.enter (by simp)

theorem startJoin (h : w.Stays c w') (target : TaskRef) :
    w.Stays c (w'.startJoin turn b nests x target).world := by
  unfold World.startJoin
  split
  · exact h.immediate _
  · split
    · exact h.immediate _
    · split
      · exact h.immediate _
      · split
        · exact h.immediate _
        · exact suspend (h.same (by rfl)) _

theorem startRace (h : w.Stays c w') (keys : Option (List String)) (members : List Effect) :
    w.Stays c (w'.startRace turn b nests x keys members).world := by
  cases members with
  | nil => exact h.immediate _
  | cons => exact h.same (by rfl)

theorem startAll (h : w.Stays c w') (members : List Effect) :
    w.Stays c (w'.startAll turn b nests x members).world := by
  cases members with
  | nil => exact h.immediate _
  | cons => exact h.same (by rfl)

theorem startCancel (h : w.Stays c w') (target : Option TaskRef) :
    w.Stays c (w'.startCancel turn b nests x target).world := by
  unfold World.startCancel
  split
  · exact h
  · split
    · exact h.immediate _
    · exact h

theorem execTrigger {e : Effect} (he : ∀ p, e ≠ .take (.channel c) p) :
    w.Stays c (w.execTrigger turn b nests e).world := by
  unfold World.execTrigger
  split
  · exact refl c w
  · have h : w.Stays c ((w.setEngine turn.mw fun g =>
        { g with nextEffect := (w.engine turn.mw).nextEffect + 1 }).record turn.mw
          (.triggered turn.task (w.engine turn.mw).nextEffect (Nest.link nests).parent? e)) :=
      record ((refl c w).same (by rfl)) _
    cases e with
    | take source p => exact h.startTake (fun hs => he p (by rw [hs])) p
    | put target =>
      have hp : w.Stays c (World.suspend _ turn b nests (w.engine turn.mw).nextEffect .put).world :=
        h.suspend .put
      exact record (hp.same (by rfl)) _
    | call name routine => exact h.startCall routine
    | fork saga detached => exact ((h.createTask ..).schedule _).immediate _
    | join target => exact h.startJoin target
    | race members =>
      simp only [World.startKeyedRace]
      split
      · exact h.immediate _
      · exact h.startRace ..
    | racePositional members => exact h.startRace ..
    | all members => exact h.startAll members
    | cancel target => exact h.startCancel target
    | select key => exact h.readState.immediate _

theorem execAnswer (result : AnswerExpr) (env : Env) :
    w.Stays c (w.execAnswer turn b nests x result env).world := by
  have h := refl c w
  cases result with
  | value | fault => exact h.immediate _
  | deferred name =>
    simp only [World.execAnswer]
    split
    · exact h.awaitDeferred _
    · exact h.immediate _
  | resolved | rejected => exact awaitDeferred (h.same (by rfl)) _
  | timer => exact (h.addTimer ..).awaitDeferred _

/-! ## Going on after a start -/

theorem resumeBody (start : Start) : w.Stays c (w.resumeBody turn b start).world := by
  have h := refl c w
  unfold World.resumeBody
  simp only
  split
  · exact h
  · split
    · exact h.cancelWait _
    · exact h
  · repeat' split
    all_goals exact h

theorem nextOfRace (h : w.Stays c w') (slot : Nat) (rest : List Effect) :
    w.Stays c (w'.nextOfRace turn b x slot rest nests).world := by
  unfold World.nextOfRace
  split <;> exact h

theorem nextOfAll (h : w.Stays c w') (slot : Nat) (rest : List Effect) :
    w.Stays c (w'.nextOfAll turn b x slot rest nests).world := by
  unfold World.nextOfAll
  split
  · exact h
  · split
    · exact immediate (h.same (by rfl)) _
    · exact h

theorem execBegun (start : Start) : w.Stays c (w.execBegun turn b nests start).world := by
  have h := refl c w
  unfold World.execBegun
  cases nests with
  | nil => exact resumeBody start
  | cons n nests =>
    cases n with
    | race p slot rest =>
      unfold World.begunInRace
      simp only
      split
      · exact nextOfRace (h.same (by rfl)) ..
      · exact h.cancelWait _
      · split
        · exact h
        · exact (h.walk ..).immediate _
    | all p slot rest =>
      unfold World.begunInAll
      simp only
      split
      · exact nextOfAll (h.same (by rfl)) ..
      · exact h.cancelWait _
      · exact nextOfAll (h.same (by rfl)) ..
      · split
        · exact h.immediate _
        · exact (h.walk ..).immediate _

/-! ## The end of tasks -/

theorem execLeave (exit : Exit) : w.Stays c (w.execLeave turn b exit).world := by
  unfold World.execLeave
  simp only
  split <;> exact (refl c w).same (by rfl)

theorem execReturned (v : Value) : w.Stays c (w.execReturned turn v).world := by
  unfold World.execReturned
  repeat' split
  all_goals exact (refl c w).same (by rfl)

theorem execAbort (f : Fault) : w.Stays c (w.execAbort turn f).world := by
  unfold World.execAbort
  split
  · exact refl c w
  · split
    · exact refl c w
    · exact cancelPending ((refl c w).same (by rfl)) _

theorem execAbortDone (f : Fault) (wasCurrent : Bool) :
    w.Stays c (w.execAbortDone turn f wasCurrent).world := by
  unfold World.execAbortDone
  split
  · exact (refl c w).same (by rfl)
  · exact cascadeOn ((refl c w).finalize ..)

theorem execCascade (k : Cascade) : w.Stays c (w.execCascade i k).world := by
  unfold World.execCascade
  split
  · exact refl c w
  · split
    · exact refl c w
    · split
      · exact refl c w
      · split
        · exact refl c w
        · exact cascadeOn (finalize ((refl c w).same (by rfl)) ..)

theorem execCancel (root : TaskId) : w.Stays c (w.execCancel i root).world := by
  unfold World.execCancel
  simp only
  split
  · exact (refl c w).foldl (f := fun w t => w.setTask i t fun n => { n with status := .cancelled })
      (fun v _ => (refl c v).same (by rfl)) _
  · exact refl c w

theorem execCancelEach (order : List TaskId) (cascades : List Cascade) :
    w.Stays c (w.execCancelEach i order cascades).world := by
  unfold World.execCancelEach
  split
  · exact refl c w
  · split
    · exact refl c w
    · exact cancelPending ((refl c w).same (by rfl)) _

theorem execCancelOne (wasCurrent : Bool) (rest : List TaskId) (cascades : List Cascade) :
    w.Stays c (w.execCancelOne turn wasCurrent rest cascades).world := by
  unfold World.execCancelOne
  split
  · exact (refl c w).same (by rfl)
  · exact (refl c w).finalize ..

/-! ## Scripts -/

section Script

variable {s : ScriptBody} {m : Mailbox Effect}

theorem raise (h : w.Stays c w') (f : Fault) : w.Stays c (w'.raise turn s m f).world := by
  unfold World.raise
  split <;> exact h

theorem register (h : w.Stays c w') (label : Option String) (v : Value) :
    w.Stays c (w'.register label v) := by
  unfold World.register
  split
  · exact h.same (by rfl)
  · exact h

theorem awaitAll (h : w.Stays c w') (p : Pause) : w.Stays c (w'.awaitAll turn s m p).world := by
  unfold World.awaitAll
  simp only
  split
  · unfold World.resumeScript
    split
    · exact h.register ..
    · exact h.raise _
    · exact h
    · exact h.enter (by simp)
  · exact h

theorem withEffects {α : Type} (h : w.Stays c w') (built : Except Fault α) {next : α → Config}
    (hn : ∀ a, w.Stays c (next a).world) : w.Stays c (w'.withEffects turn s m built next).world := by
  unfold World.withEffects
  split
  · exact hn _
  · exact h.raise _

theorem execStmt (h : w.Stays c w') (stmt : Stmt) : w.Stays c (w'.execStmt turn s m stmt).world := by
  cases stmt with
  | perform effect name label => exact h.withEffects _ fun _ => h.awaitAll _
  | assign name e label => exact h.register ..
  | log tag e => exact h.enter (by simp)
  | foreign => exact h.awaitAll { awaiting := [.foreign], resumption := .report }
  | joined effects => exact h.withEffects _ fun _ => h.awaitAll _
  | mixed effect => exact h.withEffects _ fun _ => h.awaitAll _
  | describe effect => exact h.withEffects _ fun _ => h.enter (by simp)
  | fail | rethrow | unknown => exact h.raise _
  | _ => exact h

theorem spend (h : w.spend = some w') : w.Stays c w' := by
  unfold World.spend at h
  split at h <;> cases h
  exact (refl c w).same (by rfl)

theorem execAdvance {next : Config} (hc : w.execAdvance turn s m = some next) :
    w.Stays c next.world := by
  unfold World.execAdvance at hc
  split at hc
  · cases hc
    exact refl c w
  · cases hc
    exact refl c w
  · obtain ⟨w', hs, rfl⟩ := Option.map_eq_some_iff.1 hc
    exact (spend hs).execStmt _
  · cases hc
    exact refl c w
  · cases hc
    exact refl c w
  · obtain ⟨w', hs, rfl⟩ := Option.map_eq_some_iff.1 hc
    exact spend hs

theorem execPoll (a : Option Answer) : w.Stays c (w.execPoll turn b a).world := by
  have h : w.Stays c (w.record turn.mw (.polled turn.task a)) := (refl c w).record _
  unfold World.execPoll
  split
  · exact h
  · split
    · exact h
    · exact h.awaitAll _

end Script

/-! ## User code -/

theorem execDeliver (sink : Sink) (e : Delivery) : w.Stays c (w.execDeliver sink e).world := by
  cases sink with
  | effect target => exact (refl c w).notify ..
  | script tag next env => exact (refl c w).enter (by simp)

theorem settleDeferred (h : w.Stays c w') (e : DeferredId) (a : Answer) :
    w.Stays c (w'.settleDeferred e a).2.world := by
  unfold World.settleDeferred
  split
  · exact h
  · simp only
    split
    · exact h.same (by rfl)
    · exact notify (h.same (by rfl)) ..

theorem execMoveClock (target : Nat) : w.Stays c (w.execMoveClock target).world := by
  unfold World.execMoveClock
  split
  · exact (refl c w).same (by rfl)
  · exact settleDeferred ((refl c w).same (by rfl)) ..

section Op

variable {site : Site} {env : Env} {o : Op}

theorem opRun (s : SagaExpr) (label : Option String) :
    w.Stays c (w.opRun site env i s label).world :=
  enterDriver (((refl c w).createTask ..).schedule _) _

theorem queue (h : w.Stays c w') (e : Errand) : w.Stays c (w'.queue i e) :=
  record (h.same (by rfl)) _

theorem opDispatch (a : Action) : w.Stays c (w.opDispatch site i a).world := by
  unfold World.opDispatch
  split
  · exact (refl c w).queue _
  · exact (refl c w).same (by rfl)

theorem opFinish : w.Stays c (w.opFinish site i).world := by
  unfold World.opFinish
  split
  · exact (refl c w).queue _
  · exact (refl c w).endBus.enterDriver _

theorem opCancel (t : TaskRef) : w.Stays c (w.opCancel site t).world := by
  unfold World.opCancel
  split
  · exact refl c w
  · exact (refl c w).enterDriver _

theorem opWatch (t : TaskRef) (name : String) : w.Stays c (w.opWatch t name).2 := by
  unfold World.opWatch
  simp only
  split <;> exact (refl c w).same (by rfl)

theorem opPut (hd : d ≠ c) (channel : Channel Sink) (v : Value) :
    w.Stays c (w.opPut site d channel v).world := by
  have h := (refl c w).putChannel hd channel v
  unfold World.opPut
  simp only
  split <;> exact h

theorem opTake (hd : d ≠ c) (channel : Channel Sink) (p : Pattern) (tag : String)
    (next : List Op) : w.Stays c (w.opTake site env d channel p tag next).world := by
  have h := (refl c w).takeChannel hd channel p (.script tag next env)
  unfold World.opTake
  simp only
  split <;> exact h

theorem opUntake (tag : String) : w.Stays c (w.opUntake tag).2 := by
  unfold World.opUntake
  split
  · exact refl c w
  · split
    · exact refl c w
    · exact (refl c w).setTakers ‹_› (cancelTaker ..)

theorem opSettle (name : String) (a : Answer) : w.Stays c (w.opSettle site o name a).world := by
  unfold World.opSettle
  split
  · exact refl c w
  · exact (refl c w).settleDeferred ..

theorem opDrop : w.Stays c (w.opDrop site i).world := by
  unfold World.opDrop
  split <;> exact (refl c w).same (by rfl)

theorem opAdvance (ms : Nat) : w.Stays c (w.opAdvance site ms).world := by
  unfold World.opAdvance
  split <;> exact refl c w

theorem withMiddleware {f : Middleware → Config} (hf : ∀ m, w.Stays c (f m).world) :
    w.Stays c (w.withMiddleware site o i f).world := by
  unfold World.withMiddleware
  split
  · exact refl c w
  · exact hf _

theorem withTask {e : Expr} {f : TaskRef → Config} (hf : ∀ t, w.Stays c (f t).world) :
    w.Stays c (w.withTask site env o e f).world := by
  unfold World.withTask
  split
  · exact hf _
  · exact refl c w

theorem withChannel {name : String} {f : ChannelId → Channel Sink → Config}
    (hf : ∀ d channel, w.channelNames.get? name = some d → w.Stays c (f d channel).world) :
    w.Stays c (w.withChannel site o name f).world := by
  unfold World.withChannel
  split
  · exact refl c w
  · split
    · exact refl c w
    · exact hf _ _ ‹_›

/-- An operation that does not concern a channel. -/
theorem runOp (hs : ¬ (Instr.op site env o).Serves (· = c) w) (ht : ¬ (Instr.op site env o).Takes c w) :
    w.Stays c (w.runOp site env o).world := by
  cases o with
  | run => exact withMiddleware fun _ => opRun ..
  | dispatch => exact withMiddleware fun _ => opDispatch _
  | finish => exact withMiddleware fun _ => opFinish
  | state => exact withMiddleware fun _ => (refl c w).readState
  | live | settings => exact withMiddleware fun _ => refl c w
  | cancel => exact withTask fun t => opCancel t
  | inspect => exact withTask fun _ => refl c w
  | watch => exact withTask fun _ => opWatch ..
  | put => exact withChannel fun d channel hn => opPut (fun hd => hs ⟨d, hn, hd⟩) ..
  | take => exact withChannel fun d channel hn => opTake (fun hd => ht (hn.trans (by rw [hd]))) ..
  | untake => exact opUntake _
  | close =>
    exact withChannel fun d channel hn => (refl c w).setChannel fun hd => hs ⟨d, hn, hd⟩
  | showChannel => exact withChannel fun _ _ _ => refl c w
  | resolve | reject => exact opSettle ..
  | showDeferred =>
    simp only [World.runOp]
    split <;> exact refl c w
  | log => exact (refl c w).enter (by simp)
  | drop => exact opDrop
  | advance => exact opAdvance _
  | _ => exact refl c w

end Op

end Stays

end World

/-- An instruction that neither serves a channel nor registers a taker there leaves it alone. -/
theorem Instr.stays {c : ChannelId} {w : World} {x : Instr} {next : Config}
    (hs : ¬ x.Serves (· = c) w) (ht : ¬ x.Takes c w) (hc : x.exec w = some next) :
    w.Stays c next.world := by
  have h := World.Stays.refl c w
  cases x with
  | perform i job =>
    cases hc
    cases job with
    | errand e => exact .execErrand hs
    | reaction r =>
      cases r with
      | start | resume => exact h.beginTurn ..
      | settle y signal =>
        simp only [World.execPerform]
        split
        · exact h.walk ..
        · exact (h.walk ..).beginTurn ..
  | advance turn s m => exact .execAdvance hc
  | op site env o =>
    obtain ⟨w', hw, rfl⟩ := Option.map_eq_some_iff.1 hc
    have hnames : w'.channelNames = w.channelNames := by
      unfold World.spend at hw
      split at hw <;> cases hw
      rfl
    refine (World.Stays.spend hw).trans (.runOp (fun hs' => hs ?_) fun ht' => ht ?_)
    · cases o with
      | put | close =>
        obtain ⟨d, hn, hd⟩ := hs'
        exact ⟨d, hnames ▸ hn, hd⟩
      | _ => exact hs'.elim
    · cases o with
      | take name =>
        have hn : w.channelNames.get? name = some c := hnames ▸ (id ht' : w'.channelNames.get? name = _)
        exact hn
      | _ => exact ht'.elim
  | drain i =>
    cases hc
    unfold World.execDrain
    split <;> exact h.same (by rfl)
  | trigger turn b nests e =>
    cases hc
    exact .execTrigger fun p he => ht (by rw [he]; rfl)
  | schedule i r => cases hc; exact h.schedule r
  | poll turn b a => cases hc; exact .execPoll a
  | polled turn b step =>
    cases hc
    unfold World.execPolled
    repeat' split
    all_goals exact h
  | answer turn b nests y result env => cases hc; exact .execAnswer result env
  | cancelDone turn b nests y =>
    cases hc
    unfold World.execCancelDone
    split
    · exact h
    · exact h.immediate _
  | begun turn b nests start => cases hc; exact .execBegun start
  | leave turn b exit => cases hc; exact .execLeave exit
  | dropBody turn b => cases hc; exact h.record _
  | returned turn v => cases hc; exact .execReturned v
  | abort turn f => cases hc; exact .execAbort f
  | abortDone turn f wasCurrent => cases hc; exact .execAbortDone f wasCurrent
  | conclude turn => cases hc; exact .cascadeOn (.finalize (h.same (by rfl)) ..)
  | cascade i k => cases hc; exact .execCascade k
  | cancel i root => cases hc; exact .execCancel root
  | cancelEach i order cascades => cases hc; exact .execCancelEach order cascades
  | cancelOne turn wasCurrent rest cascades => cases hc; exact .execCancelOne wasCurrent rest cascades
  | emit i a sender => cases hc; exact .execEmit a sender
  | forwarded i a sender => cases hc; exact .execForwarded a sender
  | deliver sink d => cases hc; exact .execDeliver sink d
  | guards gs =>
    cases hc
    cases gs with
    | nil => exact h
    | cons g gs => exact h.enter (by simp)
  | ops env os => cases hc; cases os <;> exact h
  | reply site name r =>
    cases hc
    cases site with
    | outside => exact h.same (by rfl)
    | nested => exact h.enter (by simp)
  | started site label t => cases hc; exact h.register ..
  | registered site tag d id => cases hc; exact h.same (by rfl)
  | moveClock target => cases hc; exact .execMoveClock target

end SagaMachine
