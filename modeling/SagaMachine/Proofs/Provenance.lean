import SagaMachine.Proofs.ChannelLaws
import SagaMachine.Proofs.Handles
import SagaMachine.Proofs.Lifetimes

/-!
# Where handles come from

All handles in a world, and in what is still to be done, name tasks that were started: a handle
is made when its task is created, and from then on it is only passed on.

Main definition: `Config.Within`. Main statement: `Scenario.Visits.join_target`.
-/

namespace SagaMachine

section

variable (P : TaskRef → Prop)

/-- All handles in what a pending effect waits for are in a set. -/
def WaitKind.Within : WaitKind → Prop
  | .all results _ _ => ∀ v, some v ∈ results → v.Within P
  | _ => True

/-- All handles in the wait table are in a set. -/
abbrev Waits.Within (waits : Waits) : Prop := waits.Each fun wait => wait.kind.Within P

/-- All handles in a reaction are in a set. -/
def Reaction.Within : Reaction → Prop
  | .start _ => True
  | .resume _ signal | .settle _ signal => signal.Within P

/-- All handles in an errand are in a set. -/
def Errand.Within : Errand → Prop
  | .put _ v _ => v.Within P
  | _ => True

/-- All handles in a job are in a set. -/
def Job.Within : Job → Prop
  | .reaction r => r.Within P
  | .errand e => e.Within P

/-- All handles in an agenda are in a set. -/
structure Agenda.Within (a : Agenda) : Prop where
  stack : ∀ r ∈ a.stack, r.Within P
  fresh : ∀ r ∈ a.fresh, r.Within P
  errands : ∀ e ∈ a.errands, e.Within P

/-- All handles in a task are in a set. -/
structure TaskNode.Within (n : TaskNode) : Prop where
  body : ∀ b, n.body = some b → b.Within P
  result : ∀ v, n.result = some v → v.Within P

/-- All handles in an engine are in a set. -/
structure Engine.Within (e : Engine) : Prop where
  tasks : e.tasks.Each (TaskNode.Within P)
  waits : Waits.Within P e.waits
  outcomes : e.outcomes.Each (Outcome.Within P)
  agenda : e.agenda.Within P
  halted : ∀ o, e.halted = some o → o.Within P

/-- All handles in the place where a delivery goes are in a set. -/
def Sink.Within : Sink → Prop
  | .effect _ => True
  | .script _ _ env => Env.Within P env

/-- All handles in a channel are in a set. -/
structure Channel.Within (c : Channel Sink) : Prop where
  items : ∀ v ∈ c.buffer.items, v.Within P
  takers : ∀ t ∈ c.takers, t.sink.Within P

/-- All handles in a deferred are in a set. -/
def Deferred.Within (d : Deferred EffectRef) : Prop := ∀ a, d.outcome = some a → a.Within P

/-- All handles in a world are in a set. -/
structure World.Within (w : World) : Prop where
  engines : w.middlewares.Each fun m => m.engine.Within P
  channels : w.channels.Each (Channel.Within P)
  deferreds : w.deferreds.Each (Deferred.Within P)
  timers : ∀ t ∈ w.timers, t.answer.Within P
  labels : w.LabelsWithin P

/-- All handles in the members that are still to be started are in a set. -/
def Nest.Within : Nest → Prop
  | .race _ _ rest | .all _ _ rest => ∀ e ∈ rest, e.Within P

/-- All handles in what a start comes to are in a set. -/
def Start.Within (start : Start) : Prop := ∀ signal, start = .immediate signal → signal.Within P

/-- All handles in the end of a turn are in a set. -/
def Exit.Within : Exit → Prop
  | .yielded signal => signal.Within P
  | .finished a => a.Within P
  | _ => True

/-- All handles in an instruction are in a set. -/
def Instr.Within : Instr → Prop
  | .perform _ job => job.Within P
  | .schedule _ r => r.Within P
  | .poll _ b last => b.Within P ∧ ∀ a, last = some a → a.Within P
  | .advance _ s m => s.Within P ∧ m.Within P
  | .polled _ b step => b.Within P ∧ step.Within P
  | .trigger _ b nests e => b.Within P ∧ (∀ n ∈ nests, n.Within P) ∧ e.Within P
  | .answer _ b nests _ _ env => b.Within P ∧ (∀ n ∈ nests, n.Within P) ∧ Env.Within P env
  | .cancelDone _ b nests _ => b.Within P ∧ ∀ n ∈ nests, n.Within P
  | .begun _ b nests start => b.Within P ∧ (∀ n ∈ nests, n.Within P) ∧ start.Within P
  | .leave _ b exit => b.Within P ∧ exit.Within P
  | .dropBody _ b => b.Within P
  | .returned _ v => v.Within P
  | .deliver sink d => sink.Within P ∧ d.Within P
  | .guards gs => ∀ g ∈ gs, Env.Within P g.env
  | .ops env _ | .op _ env _ => Env.Within P env
  | .started _ _ t => P t
  | _ => True

/-- All handles in a configuration are in a set. -/
structure Config.Within (c : Config) : Prop where
  world : c.world.Within P
  todo : ∀ x ∈ c.todo, x.Within P

end

variable {P : TaskRef → Prop} {w w' : World} {i j : MiddlewareId} {turn : Turn} {b : Body}
  {nests : List Nest} {x : EffectId} {v : Value} {signal : Signal} {env : Env}

/-! ## The wait table -/

namespace Waits

variable {waits : Waits}

theorem Within.erase (h : waits.Within P) (id : EffectId) : Waits.Within P (waits.erase id) :=
  Table.Each.erase h id

theorem Within.detach (h : waits.Within P) (ids : List EffectId) :
    (waits.detach ids).2.Within P := by
  fun_induction Waits.detach waits ids with
  | case1 => exact h
  | case2 waits id pending _ ih => exact ih h
  | case3 waits id pending wait _ r ih => exact ih (h.erase id)

theorem Within.detachEach (h : waits.Within P) (ids : List EffectId) :
    (waits.detachEach ids).2.Within P := by
  induction ids generalizing waits with
  | nil => exact h
  | cons id ids ih => exact ih (h.detach [id])

theorem raceResult_within (keys : Option (List String)) (width slot : Nat)
    (h : signal.Within P) : (raceResult keys width slot signal).Within P := by
  cases signal with
  | value v =>
    have hv := h v rfl
    cases keys with
    | some keys => exact .value (.map (by simpa using hv))
    | none =>
      refine .value (.list fun u hu => ?_)
      rcases List.mem_or_eq_of_mem_set hu with hu | rfl
      · rw [List.eq_of_mem_replicate hu]
        exact .unit
      · exact hv
  | fault f => exact .fault
  | ended => exact .ended

theorem Within.closeRace (h : waits.Within P) (kind : WaitKind) (slot : Nat)
    (hs : signal.Within P) : (waits.closeRace kind slot signal).1.Within P ∧
      (waits.closeRace kind slot signal).2.2.Within P := by
  unfold Waits.closeRace
  split
  · exact ⟨raceResult_within _ _ _ hs, h.detachEach _⟩
  · exact ⟨hs, h⟩

theorem Within.merge (h : waits.Within P) (id : EffectId) (slot : Nat) (hs : signal.Within P) :
    (waits.merge id slot signal).2.Within P ∧
      ∀ result, (waits.merge id slot signal).1 = .failed result → result.Within P := by
  unfold Waits.merge
  split
  · rename_i t link results members remaining hw
    have hold : ∀ v, some v ∈ results → v.Within P := h.get? hw
    split
    · rename_i v
      refine ⟨h.modify id fun _ _ u hu => ?_, ?_⟩
      · rcases List.mem_or_eq_of_mem_set hu with hu | hu
        · exact hold u hu
        · cases hu
          exact hs v rfl
      · simp only
        split <;> rintro _ ⟨⟩
    · refine ⟨h.modify id fun _ _ => hold, ?_⟩
      rintro _ ⟨⟩
      exact hs
  · exact ⟨h, by rintro _ ⟨⟩⟩

theorem collect_within {kind : WaitKind} (h : kind.Within P) : (collect kind).Within P := by
  cases kind with
  | all results members remaining =>
    refine .value (.list fun u hu => ?_)
    obtain ⟨r, hr, rfl⟩ := List.mem_map.1 hu
    cases r with
    | none => exact .unit
    | some v => exact h v hr
  | _ => exact .value (.list (by simp))

/-- A walk upwards passes on the handles that it comes with. -/
theorem Within.climb (h : waits.Within P) (t : TaskId) (id : EffectId) (link : Link)
    (hs : signal.Within P) : (waits.climb t id link signal).waits.Within P ∧
      ∀ wakeup, (waits.climb t id link signal).wakeup = some wakeup →
        wakeup.signal.Within P := by
  fun_induction Waits.climb waits t id link signal with
  | case1 =>
    refine ⟨h, ?_⟩
    rintro _ ⟨⟩
    exact hs
  | case2 => exact ⟨h, by rintro _ ⟨⟩⟩
  | case3 waits t id signal parent slot wait _ r ih =>
    obtain ⟨hr, hw⟩ := (h.erase parent).closeRace wait.kind slot hs
    exact ih hw hr
  | case4 waits t id signal parent slot m _ => exact ⟨(h.merge parent slot hs).1, by rintro _ ⟨⟩⟩
  | case5 waits t id signal parent slot m _ _ => exact ⟨(h.merge parent slot hs).1, by rintro _ ⟨⟩⟩
  | case6 waits t id signal parent slot m _ wait hw result ih =>
    have hm := (h.merge parent slot hs).1
    exact ih (hm.erase parent) (collect_within (hm.get? hw))
  | case7 => exact ⟨(h.merge _ _ hs).1, by rintro _ ⟨⟩⟩
  | case8 waits t id signal parent slot m result hm wait hw r ih =>
    obtain ⟨hmw, hfailed⟩ := h.merge parent slot hs
    exact ih ((hmw.erase parent).detachEach _) (hfailed _ hm)

theorem Within.settle (h : waits.Within P) (id : EffectId) (hs : signal.Within P) :
    (waits.settle id signal).waits.Within P ∧
      ∀ wakeup, (waits.settle id signal).wakeup = some wakeup → wakeup.signal.Within P := by
  unfold Waits.settle
  split
  · exact ⟨h, by rintro _ ⟨⟩⟩
  · exact (h.erase id).climb _ _ _ hs

end Waits

/-! ## The world -/

namespace World.Within

/-- A world with the same contents has the same handles. -/
theorem congr (h : w.Within P) (hm : w'.middlewares = w.middlewares)
    (hc : w'.channels = w.channels) (hd : w'.deferreds = w.deferreds)
    (ht : w'.timers = w.timers) (hl : w'.labels = w.labels) : w'.Within P :=
  ⟨by rw [hm]; exact h.engines, by rw [hc]; exact h.channels, by rw [hd]; exact h.deferreds,
    by rw [ht]; exact h.timers, by rw [World.LabelsWithin, hl]; exact h.labels⟩

theorem engine (h : w.Within P) (i : MiddlewareId) : (w.engine i).Within P := by
  unfold World.engine
  split
  · rename_i m hm
    exact h.engines.get? hm
  · exact ⟨.empty, .empty, .empty, ⟨by simp, by simp, by simp⟩, by rintro _ ⟨⟩⟩

theorem task (h : w.Within P) {t : TaskId} {n : TaskNode} (hn : w.task? i t = some n) :
    n.Within P := (h.engine i).tasks.get? hn

theorem setEngine (h : w.Within P) (i : MiddlewareId) {f : Engine → Engine}
    (hf : ∀ e, e.Within P → (f e).Within P) : (w.setEngine i f).Within P :=
  ⟨h.engines.modify i fun _ he => hf _ he, h.channels, h.deferreds, h.timers, h.labels⟩

theorem setTask (h : w.Within P) (i : MiddlewareId) (t : TaskId) {f : TaskNode → TaskNode}
    (hf : ∀ n, n.Within P → (f n).Within P) : (w.setTask i t f).Within P :=
  h.setEngine i fun _ he => { he with tasks := he.tasks.modify t hf }

theorem enter (h : w.Within P) (e : Entry) : (w.enter e).Within P := h.congr rfl rfl rfl rfl rfl

theorem record (h : w.Within P) (i : MiddlewareId) (e : Event) : (w.record i e).Within P :=
  h.enter _

theorem foldl {α : Type} {f : World → α → World} {as : List α} (h : w.Within P)
    (hf : ∀ w a, a ∈ as → w.Within P → (f w a).Within P) : (as.foldl f w).Within P := by
  induction as generalizing w with
  | nil => exact h
  | cons a as ih =>
    exact ih (hf w a List.mem_cons_self h) fun w b hb => hf w b (List.mem_cons_of_mem _ hb)

theorem enterNotes (h : w.Within P) (notes : List Note) : (w.enterNotes notes).Within P :=
  h.foldl fun _ _ _ hw => hw.enter _

theorem schedule (h : w.Within P) (i : MiddlewareId) {r : Reaction} (hr : r.Within P) :
    (w.schedule i r).Within P := by
  refine h.setEngine i fun e he =>
    { he with agenda := { he.agenda with fresh := fun r' hr' => ?_ } }
  rcases List.mem_append.1 hr' with hr' | hr'
  · exact he.agenda.fresh r' hr'
  · rw [List.mem_singleton.1 hr']
    exact hr

theorem scheduleAll {α : Type} (h : w.Within P) (i : MiddlewareId) {f : α → Reaction}
    (hf : ∀ a, (f a).Within P) (as : List α) :
    (as.foldl (fun w a => w.schedule i (f a)) w).Within P :=
  h.foldl fun _ a _ hw => hw.schedule i (hf a)

theorem queue (h : w.Within P) (i : MiddlewareId) {e : Errand} (he : e.Within P) :
    (w.queue i e).Within P := by
  have hadded : (w.setEngine i fun g => { g with agenda := g.agenda.queue e }).Within P := by
    refine h.setEngine i fun g hg =>
      { hg with agenda := { hg.agenda with errands := fun e' he' => ?_ } }
    rcases List.mem_append.1 he' with he' | he'
    · exact hg.agenda.errands e' he'
    · rw [List.mem_singleton.1 he']
      exact he
  exact hadded.record i _

/-! ### Pending effects -/

theorem setWaits (h : w.Within P) (i : MiddlewareId) {waits : Waits} (hw : waits.Within P) :
    (w.setWaits i waits).Within P := h.setEngine i fun _ he => { he with waits := hw }

theorem insertWait (h : w.Within P) (i : MiddlewareId) (id : EffectId) {wait : Wait}
    (hw : wait.kind.Within P) : (w.insertWait i id wait).Within P :=
  h.setEngine i fun _ he => { he with waits := he.waits.insert id hw }

theorem setChannels (h : w.Within P) {channels : Table ChannelId (Channel Sink)}
    (hc : channels.Each (Channel.Within P)) : { w with channels }.Within P :=
  ⟨h.engines, hc, h.deferreds, h.timers, h.labels⟩

theorem setDeferreds (h : w.Within P) {deferreds : Table DeferredId (Deferred EffectRef)}
    (hd : deferreds.Each (Deferred.Within P)) : { w with deferreds }.Within P :=
  ⟨h.engines, h.channels, hd, h.timers, h.labels⟩

theorem setTimers (h : w.Within P) {timers : List Timer}
    (ht : ∀ t ∈ timers, t.answer.Within P) : { w with timers }.Within P :=
  ⟨h.engines, h.channels, h.deferreds, ht, h.labels⟩

theorem stopTimer (h : w.Within P) (id : Option TimerId) : (w.stopTimer id).Within P := by
  unfold World.stopTimer
  split
  · exact h
  · exact h.setTimers fun t ht => h.timers t (List.mem_filter.1 ht).1

theorem unsubscribe (h : w.Within P) (d : DeferredId) : (w.unsubscribe d).Within P := by
  unfold World.unsubscribe
  split
  · exact h
  · rename_i deferred hd
    have hquit : (w.deferreds.modify d fun _ => deferred.unsubscribe.2).Each
        (Deferred.Within P) :=
      h.deferreds.modify d fun _ _ a ha => h.deferreds.get? hd a ha
    exact (h.setDeferreds hquit).stopTimer _

theorem deregister (h : w.Within P) (i : MiddlewareId) (id : EffectId) (kind : WaitKind) :
    (w.deregister i id kind).Within P := by
  unfold World.deregister
  split
  · exact h.setEngine i fun _ he => { he with }
  · refine h.setChannels (h.channels.modify _ fun channel hc => ⟨hc.items, fun t ht => ?_⟩)
    exact hc.takers t (List.mem_filter.1 ht).1
  · exact h.unsubscribe _
  · exact h.setTask i _ fun _ hn => ⟨hn.body, hn.result⟩
  all_goals exact h

theorem passAll (h : w.Within P) (i : MiddlewareId) (ps : List Passage) :
    (w.passAll i ps).Within P := by
  refine h.foldl fun w p _ hw => ?_
  cases p with
  | withdrawn => exact (hw.deregister i _ _).record i _
  | settled => exact hw.record i _

theorem cancelWait (h : w.Within P) (i : MiddlewareId) (id : EffectId) :
    (w.cancelWait i id).Within P :=
  (h.setWaits i ((h.engine i).waits.detach _)).passAll i _

theorem cancelPending (h : w.Within P) (i : MiddlewareId) (pending : Option EffectId) :
    (w.cancelPending i pending).Within P := by
  cases pending with
  | none => exact h
  | some id => exact h.cancelWait i id

theorem settleWait (h : w.Within P) (i : MiddlewareId) (id : EffectId) (hs : signal.Within P) :
    (w.settleWait i id signal).2.Within P ∧
      ∀ wakeup, (w.settleWait i id signal).1 = some wakeup → wakeup.signal.Within P := by
  obtain ⟨hw, hwake⟩ := (h.engine i).waits.settle id hs
  exact ⟨(h.setWaits i hw).passAll i _, hwake⟩

theorem closeRace (h : w.Within P) (i : MiddlewareId) (race : EffectId) (wait : Wait) (slot : Nat)
    (hs : signal.Within P) : (w.closeRace i race wait slot signal).1.Within P ∧
      (w.closeRace i race wait slot signal).2.Within P := by
  obtain ⟨hr, hw⟩ := ((h.engine i).waits.erase race).closeRace wait.kind slot hs
  exact ⟨hr, (h.setWaits i hw).passAll i _⟩

theorem dropAll (h : w.Within P) (i : MiddlewareId) (all : EffectId) (wait : Wait) :
    (w.dropAll i all wait).Within P :=
  (h.setWaits i (((h.engine i).waits.erase all).detachEach _)).passAll i _

/-! ### Tasks -/

theorem createTask (h : w.Within P) (i : MiddlewareId) {saga : Saga} (hs : saga.Within P)
    (parent : Option TaskId) (detached : Bool) :
    (w.createTask i saga parent detached).Within P := by
  have hadded : (w.setEngine i fun e =>
      { e with
        nextTask := (w.engine i).nextTask + 1
        tasks := e.tasks.insert (w.engine i).nextTask
          { name := saga.name, parent, detached,
            body := some (saga.program.start (w.engine i).nextTask) } }).Within P := by
    refine h.setEngine i fun _ he =>
      { he with tasks := he.tasks.insert _ ⟨?_, fun _ hv => by cases hv⟩ }
    intro b hb
    cases hb
    exact hs.start _
  unfold World.createTask
  cases parent with
  | none => exact hadded.record i _
  | some p =>
    cases detached with
    | true => exact hadded.record i _
    | false =>
      have hparent := hadded.setTask i p
        (f := fun n => { n with children := n.children ++ [(w.engine i).nextTask] })
        fun _ hn => ⟨hn.body, hn.result⟩
      exact hparent.record i _

theorem wakeWatches (h : w.Within P) (t : TaskRef) : (w.wakeWatches t).Within P :=
  h.congr rfl rfl rfl rfl rfl

theorem finalize (h : w.Within P) (i : MiddlewareId) (t : TaskId) {o : Outcome} (ho : o.Within P) :
    (w.finalize i t o).2.Within P := by
  cases hn : w.task? i t with
  | none =>
    rw [World.finalize, hn]
    exact h
  | some n =>
    have hgone : (w.setEngine i fun e =>
        { e with tasks := e.tasks.erase t, outcomes := e.outcomes.insert t o }).Within P :=
      h.setEngine i fun _ he =>
        { he with tasks := he.tasks.erase t, outcomes := he.outcomes.insert t ho }
    have htold := (hgone.wakeWatches ⟨i, t, n.name⟩).scheduleAll i
      (f := fun joiner => .settle joiner (.ofOutcome o)) (fun _ => .ofOutcome ho) n.joiners
    have hdone := htold.record i (.taskFinished t o)
    unfold World.finalize
    simp only [hn]
    split
    · split
      · exact hdone
      · split
        · exact hdone
        · split
          · exact hdone.setTask i _ fun _ hn => ⟨hn.body, hn.result⟩
          · split
            · exact hdone.setTask i _ fun _ hn => ⟨hn.body, hn.result⟩
            · exact hdone.setTask i _ fun _ hn => ⟨hn.body, hn.result⟩
    · split
      · exact hdone.record i _
      · exact hdone

theorem park (h : w.Within P) (i : MiddlewareId) (t : TaskId) (hb : b.Within P)
    (pending : Option EffectId) : (w.park i t b pending).Within P := by
  refine h.setTask i t fun _ hn => ⟨?_, hn.result⟩
  rintro _ ⟨⟩
  exact hb

/-! ### The bus, channels and deferreds -/

theorem setBus (h : w.Within P) (i : MiddlewareId) (g : Engine → Bus) :
    (w.setEngine i fun e => { e with bus := g e }).Within P :=
  h.setEngine i fun _ he => ⟨he.tasks, he.waits, he.outcomes, he.agenda, he.halted⟩

theorem endBus (h : w.Within P) (i : MiddlewareId) : (w.endBus i).Within P :=
  ((h.setBus i fun _ => ((w.engine i).bus.finish (w.engine i).nextTask).2).record i _).scheduleAll
    i (f := fun t : BusTaker => .settle t.effect .ended) (fun _ => .ended) _

theorem broadcast (h : w.Within P) (i : MiddlewareId) (a : Action) :
    (w.broadcast i a).Within P :=
  ((h.setBus i fun e => { e.bus with takers := ((w.engine i).bus.broadcast a).kept }).enterNotes
    _).scheduleAll i (f := fun t : BusTaker => .settle t.effect (.value (.action a)))
    (fun _ => .value (.action a)) _

theorem reduceHost (h : w.Within P) (i : MiddlewareId) (a : Action) :
    (w.reduceHost i a).Within P :=
  ⟨h.engines.modify i fun _ hm => hm, h.channels, h.deferreds, h.timers, h.labels⟩

theorem readState (h : w.Within P) (i : MiddlewareId) : (w.readState i).2.Within P := by
  unfold World.readState
  split
  · exact h
  · simp only
    split
    · exact h
    · exact h.record i _

theorem setChannel (h : w.Within P) (c : ChannelId) {channel : Channel Sink}
    (hc : channel.Within P) : { w with channels := w.channels.insert c channel }.Within P :=
  h.setChannels (h.channels.insert c hc)

theorem setDeferred (h : w.Within P) (d : DeferredId) {deferred : Deferred EffectRef}
    (hd : deferred.Within P) : { w with deferreds := w.deferreds.insert d deferred }.Within P :=
  h.setDeferreds (h.deferreds.insert d hd)

end World.Within

theorem Buffer.put_within {buffer buffer' : Buffer} (h : ∀ u ∈ buffer.items, u.Within P)
    (hv : v.Within P) (hp : buffer.put v = .ok buffer') : ∀ u ∈ buffer'.items, u.Within P := by
  have hadded : ∀ {us : List Value}, (∀ u ∈ us, u.Within P) → ∀ u ∈ us ++ [v], u.Within P := by
    intro us hus u hu
    rcases List.mem_append.1 hu with hu | hu
    · exact hus u hu
    · rw [List.mem_singleton.1 hu]
      exact hv
  unfold Buffer.put at hp
  split at hp
  · cases hp
    exact hadded h
  · cases hp
    exact h
  · split at hp
    · cases hp
      exact hadded h
    · split at hp
      · cases hp
      · cases hp
        exact h
      · cases hp
        split
        · exact h
        · exact hadded fun u hu => h u (List.mem_of_mem_tail hu)

theorem Buffer.take_within {buffer buffer' : Buffer} {p : Pattern}
    (h : ∀ u ∈ buffer.items, u.Within P) (ht : buffer.take p = some (v, buffer')) :
    v.Within P ∧ ∀ u ∈ buffer'.items, u.Within P := by
  obtain ⟨r, hr, he⟩ := Option.map_eq_some_iff.1 ht
  cases he
  obtain ⟨pre, post, hitems, hrest, -, -⟩ := Buffer.removeFirst_eq_some hr
  rw [hitems] at h
  refine ⟨h _ (by simp), fun u hu => h u ?_⟩
  have hu : u ∈ pre ++ post := hrest ▸ hu
  exact List.mem_append.2 ((List.mem_append.1 hu).imp_right (List.mem_cons_of_mem _))

theorem Channel.removeTaker_within {ts ts' : List (Taker Sink)} {t : Taker Sink}
    (h : ∀ t ∈ ts, t.sink.Within P) (hr : Channel.removeTaker v ts = some (t, ts')) :
    t.sink.Within P ∧ ∀ t ∈ ts', t.sink.Within P := by
  have hperm := Channel.removeTaker_perm hr
  exact ⟨h _ (hperm.subset List.mem_cons_self),
    fun u hu => h u (hperm.subset (List.mem_cons_of_mem _ hu))⟩

namespace World.Within

variable {c : ChannelId} {channel : Channel Sink}

/-- A value that is put goes to a taker that was there, or into the buffer. -/
theorem putChannel (h : w.Within P) (hc : channel.Within P) (hv : v.Within P) :
    (w.putChannel c channel v).2.Within P ∧
      ∀ t, (w.putChannel c channel v).1 = .delivered t → t.sink.Within P := by
  have hput : (channel.put v).2.Within P ∧ ∀ t, (channel.put v).1 = .delivered t →
      t.sink.Within P := by
    unfold Channel.put
    split
    · exact ⟨hc, by rintro _ ⟨⟩⟩
    · split
      · rename_i t rest hr
        obtain ⟨ht, hrest⟩ := Channel.removeTaker_within hc.takers hr
        refine ⟨⟨hc.items, hrest⟩, ?_⟩
        rintro _ ⟨⟩
        exact ht
      · split
        · rename_i buffer hb
          exact ⟨⟨Buffer.put_within hc.items hv hb, hc.takers⟩, by rintro _ ⟨⟩⟩
        · exact ⟨hc, by rintro _ ⟨⟩⟩
  have hworld := (h.enterNotes (channel.putNotes v)).setChannel c hput.1
  unfold World.putChannel
  simp only
  split <;> rename_i hr
  · exact ⟨hworld, hput.2⟩
  · exact ⟨hworld, hput.2⟩
  · exact ⟨hworld.enter _, hput.2⟩
  · exact ⟨hworld.enter _, hput.2⟩

/-- A take from a channel is given a value of its buffer. -/
theorem takeChannel (h : w.Within P) (hc : channel.Within P) (p : Pattern) {sink : Sink}
    (hs : sink.Within P) : (w.takeChannel c channel p sink).2.Within P ∧
      ∀ d, (w.takeChannel c channel p sink).1.delivery = some d → d.Within P := by
  have htake : (channel.take p sink).channel.Within P ∧
      ∀ d, (channel.take p sink).delivery = some d → d.Within P := by
    unfold Channel.take
    simp only
    split
    · rename_i v buffer hb
      obtain ⟨hv, hitems⟩ := Buffer.take_within hc.items hb
      refine ⟨⟨hitems, hc.takers⟩, ?_⟩
      rintro _ ⟨⟩
      exact .value hv
    · split
      · refine ⟨⟨hc.items, hc.takers⟩, ?_⟩
        rintro _ ⟨⟩
        exact .ended
      · refine ⟨⟨hc.items, fun t ht => ?_⟩, by rintro _ ⟨⟩⟩
        rcases List.mem_append.1 ht with ht | ht
        · exact hc.takers t ht
        · rw [List.mem_singleton.1 ht]
          exact hs
  exact ⟨(h.enterNotes _).setChannel c htake.1, htake.2⟩

theorem addDeferred (h : w.Within P) {d : Deferred EffectRef} (hd : d.Within P) :
    (w.addDeferred d).2.Within P := by
  have hadded := h.setDeferred w.nextDeferred hd
  exact hadded.congr rfl rfl rfl rfl rfl

theorem addTimer (h : w.Within P) (ms : Nat) {a : Answer} (ha : a.Within P) :
    (w.addTimer ms a).2.Within P := by
  have hrefused : Deferred.Within P (.settled (.error .noTimers)) := by
    rintro _ ⟨⟩
    exact .error
  unfold World.addTimer
  split
  · exact h.addDeferred hrefused
  · exact (h.enter _).addDeferred hrefused
  · have hadded := h.addDeferred (d := { timer := some w.nextTimer }) (by rintro _ ⟨⟩)
    refine ⟨hadded.engines, hadded.channels, hadded.deferreds, fun t ht => ?_, hadded.labels⟩
    rcases List.mem_append.1 ht with ht | ht
    · exact hadded.timers t ht
    · rw [List.mem_singleton.1 ht]
      exact ha

theorem register (h : w.Within P) (label : Option String) (hv : v.Within P) :
    (w.register label v).Within P := by
  unfold World.register
  split
  · cases hv with
    | task ht => exact ⟨h.engines, h.channels, h.deferreds, h.timers, h.labels.insert _ ht⟩
  · exact h

end World.Within

/-- The next handle depends on how many tasks were started only. -/
theorem World.nextTaskRef_setEngine {saga : Saga} {f : Engine → Engine}
    (hf : ∀ e, (f e).nextTask = e.nextTask) :
    (w.setEngine j f).nextTaskRef i saga = w.nextTaskRef i saga := by
  have hnext : ((w.setEngine j f).engine i).nextTask = (w.engine i).nextTask := by
    rcases World.engine_setEngine_or w i j f with he | ⟨-, -, he⟩
    · rw [he]
    · rw [he, hf]
  exact congrArg (fun n => (⟨i, n, saga.name⟩ : TaskRef)) hnext

/-! ## Instructions -/

namespace Config.Within

variable {next : Config}

theorem nil (h : w.Within P) : Config.Within P ⟨[], w⟩ :=
  ⟨h, fun _ hx => absurd hx List.not_mem_nil⟩

theorem cons {y : Instr} {F : List Instr} (h : Config.Within P ⟨F, w⟩) (hy : y.Within P) :
    Config.Within P ⟨y :: F, w⟩ := ⟨h.world, List.forall_mem_cons.2 ⟨hy, h.todo⟩⟩

theorem one {y : Instr} (h : w.Within P) (hy : y.Within P) : Config.Within P ⟨[y], w⟩ :=
  (nil h).cons hy

theorem two {y z : Instr} (h : w.Within P) (hy : y.Within P) (hz : z.Within P) :
    Config.Within P ⟨[y, z], w⟩ := (one h hz).cons hy

theorem followedBy (h : next.Within P) {after : List Instr} (ha : ∀ y ∈ after, y.Within P) :
    (next.followedBy after).Within P :=
  ⟨h.world, fun y hy => (List.mem_append.1 hy).elim (h.todo y) (ha y)⟩

theorem enterDriver (h : w.Within P) (i : MiddlewareId) {work : List Instr}
    (hwork : ∀ y ∈ work, y.Within P) : (w.enterDriver i work).Within P := by
  unfold World.enterDriver
  split
  · exact ⟨h, hwork⟩
  · have hdriving : (w.setEngine i fun e => { e with driving := true }).Within P :=
      World.Within.setEngine h i fun _ he =>
        ⟨he.tasks, he.waits, he.outcomes, he.agenda, he.halted⟩
    refine ⟨hdriving, fun y hy => ?_⟩
    rcases List.mem_append.1 hy with hy | hy
    · exact hwork y hy
    · rw [List.mem_singleton.1 hy]
      trivial

theorem notify (h : w.Within P) (target : EffectRef) (hs : signal.Within P) :
    (w.notify target signal).Within P := by
  unfold World.notify
  split
  · exact nil h
  · exact enterDriver (h.schedule target.mw (r := .settle target.effect signal) hs) _ (by simp)

/-! ### The driver -/

theorem beginTurn (h : w.Within P) (t : TaskId) (expected : Option EffectId)
    {a : Option Signal} (hs : ∀ signal, a = some signal → signal.Within P) :
    (w.beginTurn i t expected a).Within P := by
  cases hn : w.task? i t with
  | none =>
    simp only [World.beginTurn, hn]
    exact nil h
  | some n =>
    simp only [World.beginTurn, hn]
    split
    · exact nil h
    · split
      · exact nil h
      · rename_i b hb
        have hb : b.Within P := (h.task hn).body b hb
        have hworld : ((w.setTask i t fun n =>
            { n with body := none, status := .running }).setEngine i fun e =>
              { e with current := some t }).Within P := by
          refine World.Within.setEngine (World.Within.setTask h i t ?_) i ?_
          · exact fun _ hn => ⟨by rintro _ ⟨⟩, hn.result⟩
          · exact fun _ he => ⟨he.tasks, he.waits, he.outcomes, he.agenda, he.halted⟩
        split
        · exact one hworld ⟨hb, by rintro _ ⟨⟩⟩
        · rename_i v
          refine one hworld ⟨hb, ?_⟩
          rintro _ ⟨⟩
          exact .ok (hs _ rfl v rfl)
        · refine one hworld ⟨hb, ?_⟩
          rintro _ ⟨⟩
          exact .error
        · exact one hworld ⟨hb, trivial⟩

theorem putForEffect (h : w.Within P) (c : ChannelId) (hv : v.Within P) (reply : EffectId) :
    (w.putForEffect i c v reply).Within P := by
  have hunit : (Reaction.settle reply (.value .unit)).Within P := Signal.Within.value .unit
  unfold World.putForEffect
  split
  · exact nil (h.schedule i hunit)
  · rename_i channel hc
    obtain ⟨hw, htaker⟩ := h.putChannel (c := c) (h.channels.get? hc) hv
    simp only
    split
    · exact nil (hw.schedule i hunit)
    · rename_i t ht
      exact two hw ⟨htaker t ht, .value hv⟩ hunit
    · exact nil (hw.schedule i (r := .settle reply _) (.ofResult _))

theorem execPerform (h : w.Within P) {job : Job} (hj : job.Within P) :
    (w.execPerform i job).Within P := by
  cases job with
  | reaction r =>
    cases r with
    | start t => exact beginTurn (a := none) h t none (by rintro _ ⟨⟩)
    | resume t signal =>
      refine beginTurn (a := some signal) h t none ?_
      rintro _ ⟨⟩
      exact hj
    | settle id signal =>
      obtain ⟨hw, hwake⟩ := h.settleWait i id hj
      simp only [World.execPerform]
      split
      · exact nil hw
      · rename_i wakeup hwakeup
        refine beginTurn (a := some wakeup.signal) hw _ _ ?_
        rintro _ ⟨⟩
        exact hwake wakeup hwakeup
  | errand e =>
    cases e with
    | dispatch a reply => exact one (h.record i _) trivial
    | put c v reply => exact putForEffect (h.record i _) c hj reply
    | finish => exact nil ((h.record i _).endBus i)

theorem execDrain (h : w.Within P) : (w.execDrain i).Within P := by
  have ha := (h.engine i).agenda
  have hflush : ∀ {a : Agenda}, a.Within P → a.flush.Within P := fun ha =>
    ⟨fun r hr => (List.mem_append.1 hr).elim (ha.fresh r) (ha.stack r), by simp [Agenda.flush],
      ha.errands⟩
  cases hn : (w.engine i).agenda.next? with
  | none =>
    unfold World.execDrain
    rw [hn]
    exact nil (h.setEngine i fun _ he =>
      ⟨he.tasks, he.waits, he.outcomes, hflush he.agenda, he.halted⟩)
  | some next =>
    obtain ⟨job, agenda⟩ := next
    have hnext : job.Within P ∧ agenda.Within P := by
      have hall := hflush ha
      simp only [Agenda.next?] at hn
      split at hn
      · rename_i r rest hr
        cases hn
        have hs := hall.stack
        rw [hr, List.forall_mem_cons] at hs
        exact ⟨hs.1, hs.2, hall.fresh, hall.errands⟩
      · split at hn
        · rename_i e rest he
          cases hn
          have hs := hall.errands
          rw [he, List.forall_mem_cons] at hs
          exact ⟨hs.1, hall.stack, hall.fresh, hs.2⟩
        · cases hn
    simp only [World.execDrain, hn]
    exact two (h.setEngine i fun _ he => ⟨he.tasks, he.waits, he.outcomes, hnext.2, he.halted⟩)
      hnext.1 trivial

theorem execEmit (h : w.Within P) (a : Action) (sender : Sender) :
    (w.execEmit i a sender).Within P := by
  unfold World.execEmit
  split
  · exact nil h
  · simp only
    split
    · exact one (h.record i _) trivial
    · exact two ((h.record i _).enter _) (Table.Each.empty.insert _ (.action a)) trivial

theorem finishEmit (h : w.Within P) (a : Action) (sender : Sender) (result : Except Fault Unit) :
    (w.finishEmit i a sender result).Within P := by
  cases sender with
  | effect id => exact nil (h.schedule i (r := .settle id _) (.ofResult result))
  | caller site => exact two h trivial trivial
  | nobody =>
    cases result with
    | ok => exact nil h
    | error => exact nil (h.record i _)

theorem execForwarded (h : w.Within P) (a : Action) (sender : Sender) :
    (w.execForwarded i a sender).Within P := by
  unfold World.execForwarded
  split
  · exact nil h
  · split
    · exact finishEmit h a sender _
    · exact finishEmit ((h.reduceHost i a).broadcast i a) a sender _

theorem execDeliver (h : w.Within P) {sink : Sink} {d : Delivery} (hs : sink.Within P)
    (hd : d.Within P) : (w.execDeliver sink d).Within P := by
  cases sink with
  | effect target => exact notify h target (.ofDelivery hd)
  | script tag ops env =>
    cases d with
    | value v => exact one (h.enter _) (Table.Each.insert hs "got" (hd v rfl))
    | ended => exact one (h.enter _) hs

/-! ### User code -/

section

variable {s : ScriptBody} {m : Mailbox Effect}

theorem finishScript (h : w.Within P) (hs : s.Within P) {a : Answer} (ha : a.Within P) :
    (w.finishScript turn s a).Within P :=
  two h hs.guards
    ⟨⟨hs.env, fun _ hg => absurd hg List.not_mem_nil, fun _ hp => by cases hp⟩, ha⟩

theorem raise (h : w.Within P) (hs : s.Within P) (hm : m.Within P) (f : Fault) :
    (w.raise turn s m f).Within P := by
  unfold World.raise
  split
  · rename_i s' hs'
    exact one h ⟨hs.catchFault hs', hm⟩
  · exact finishScript h hs .error

theorem resumeScript (h : w.Within P) (hs : s.Within P) (hm : m.Within P)
    (resumption : Resumption) {answers : List Answer} (ha : ∀ a ∈ answers, a.Within P) :
    (w.resumeScript turn s m resumption answers).Within P := by
  unfold World.resumeScript
  split
  · have hv := ha _ List.mem_cons_self _ rfl
    exact one (h.register _ hv) ⟨hs.bind _ hv, hm⟩
  · exact raise h hs hm _
  · exact one h ⟨hs, hm⟩
  · exact one (h.enter _) ⟨hs, hm⟩

theorem awaitAll (h : w.Within P) (hs : s.Within P) (hm : m.Within P) {p : Pause}
    (hp : ∀ a ∈ p.awaiting, Awaiting.Within P a) : (w.awaitAll turn s m p).Within P := by
  obtain ⟨hxs, hm'⟩ := Awaiting.pollAll_within hm hp
  unfold World.awaitAll
  simp only
  split
  · rename_i answers ha
    exact resumeScript h hs.resumed hm' _ (Awaiting.answers?_within hxs ha)
  · refine one h ⟨⟨hs.env, hs.guards, ?_⟩, hm'.verdict⟩
    rintro _ ⟨⟩
    exact hxs

theorem withEffects {α : Type} (h : w.Within P) (hs : s.Within P) (hm : m.Within P)
    (built : Except Fault α) {g : α → Config} (hg : ∀ a, built = .ok a → (g a).Within P) :
    (w.withEffects turn s m built g).Within P := by
  cases built with
  | ok a => exact hg a rfl
  | error f => exact raise h hs hm f

theorem execStmt (h : w.Within P) (hs : s.Within P) (hm : m.Within P) (stmt : Stmt) :
    (w.execStmt turn s m stmt).Within P := by
  cases stmt with
  | perform x name label =>
    refine withEffects h hs hm _ fun e he => awaitAll h hs hm ?_
    exact List.forall_mem_singleton.2 (World.build_within h.labels hs.env x e he)
  | joined xs =>
    refine withEffects h hs hm _ fun es hes => awaitAll h hs hm ?_
    exact List.forall_mem_map.2 (World.buildList_within h.labels hs.env xs es hes)
  | mixed x =>
    refine withEffects h hs hm _ fun e he => awaitAll h hs hm ?_
    exact List.forall_mem_cons.2
      ⟨World.build_within h.labels hs.env x e he, List.forall_mem_singleton.2 trivial⟩
  | describe x => exact withEffects h hs hm _ fun e _ => one (h.enter _) ⟨hs, hm⟩
  | foreign =>
    exact awaitAll (p := { awaiting := [.foreign], resumption := .report }) h hs hm
      (List.forall_mem_singleton.2 trivial)
  | assign name x label =>
    have hv := World.eval_within h.labels hs.env x
    exact one (h.register label hv) ⟨hs.bind _ hv, hm⟩
  | log tag x => exact one (h.enter _) ⟨hs, hm⟩
  | guard name ops =>
    exact one h ⟨⟨hs.env, List.forall_mem_cons.2 ⟨hs.env, hs.guards⟩, hs.pause⟩, hm⟩
  | «return» x => exact finishScript h hs (.ok (World.eval_within h.labels hs.env x))
  | fail | rethrow | unknown => exact raise h hs hm _
  | attempt | ifThen | «repeat» => exact one h ⟨hs.congr rfl rfl rfl, hm⟩
  | ops os => exact two h hs.env ⟨hs, hm⟩

theorem execAdvance (h : w.Within P) (hs : s.Within P) (hm : m.Within P)
    (hn : w.execAdvance turn s m = some next) : next.Within P := by
  have hspend : ∀ {w'}, w.spend = some w' → w'.Within P := by
    intro w' hw'
    obtain ⟨n, rfl⟩ := World.spend_eq hw'
    exact h.congr rfl rfl rfl rfl rfl
  unfold World.execAdvance at hn
  split at hn
  · cases hn
    exact finishScript h hs (.ok .unit)
  · cases hn
    exact one h ⟨hs.congr rfl rfl rfl, hm⟩
  · obtain ⟨w', hw', rfl⟩ := Option.map_eq_some_iff.1 hn
    refine execStmt (hspend hw') ?_ hm _
    exact hs.congr rfl rfl rfl
  · cases hn
    exact one h ⟨hs.congr rfl rfl rfl, hm⟩
  · cases hn
    exact one h ⟨hs.congr rfl rfl rfl, hm⟩
  · obtain ⟨w', hw', rfl⟩ := Option.map_eq_some_iff.1 hn
    exact one (hspend hw') ⟨hs.congr rfl rfl rfl, hm⟩

end

theorem execPoll (h : w.Within P) (hb : b.Within P) {answer : Option Answer}
    (ha : ∀ a, answer = some a → a.Within P) : (w.execPoll turn b answer).Within P := by
  cases b with
  | watcher b => exact one (h.record turn.mw _) (WatcherBody.resume_within hb ha)
  | script s =>
    have hs : s.Within P := hb
    unfold World.execPoll
    simp only
    split
    · exact one (h.record turn.mw _) ⟨hs, .opened ha⟩
    · rename_i p hp
      exact awaitAll (h.record turn.mw _) hs (.opened ha) (hs.pause p hp)

theorem execGuards (h : w.Within P) {gs : List Guard} (hgs : ∀ g ∈ gs, Env.Within P g.env) :
    (w.execGuards gs).Within P := by
  cases gs with
  | nil => exact nil h
  | cons g gs =>
    rw [List.forall_mem_cons] at hgs
    exact two (h.enter _) hgs.1 hgs.2

/-! ### Starts of effects -/

section

variable (hb : b.Within P) (hns : ∀ n ∈ nests, n.Within P)

include hb hns

theorem immediate (h : w.Within P) (hs : signal.Within P) :
    (w.immediate turn b nests x signal).Within P := by
  refine one (h.record turn.mw _) ⟨hb, hns, ?_⟩
  rintro _ ⟨⟩
  exact hs

theorem suspend (h : w.Within P) {kind : WaitKind} (hk : kind.Within P) :
    (w.suspend turn b nests x kind).Within P :=
  one (h.insertWait turn.mw x hk) ⟨hb, hns, by rintro _ ⟨⟩⟩

theorem startTake (h : w.Within P) (source : Source) (p : Pattern) :
    (w.startTake turn b nests x source p).Within P := by
  cases source with
  | bus =>
    have htaken := h.setBus turn.mw fun _ => ((w.engine turn.mw).bus.take turn.task p x).bus
    unfold World.startTake
    simp only
    split
    · exact immediate hb hns htaken .ended
    · exact suspend hb hns htaken trivial
  | channel c =>
    unfold World.startTake
    simp only
    split
    · exact immediate hb hns h .ended
    · rename_i channel hc
      have hsink : Sink.Within P (.effect ⟨turn.mw, x⟩) := trivial
      obtain ⟨hw, hd⟩ := h.takeChannel (c := c) (h.channels.get? hc) p hsink
      split
      · rename_i d hd'
        exact immediate hb hns hw (.ofDelivery (hd d hd'))
      · exact suspend hb hns hw trivial

theorem startPut (h : w.Within P) {target : Target} (ht : (Effect.put target).Within P) :
    (w.startPut turn b nests x target).Within P := by
  have hsuspended : (w.suspend turn b nests x .put).Within P := suspend hb hns h trivial
  refine ⟨hsuspended.world.queue turn.mw ?_, hsuspended.todo⟩
  cases ht with
  | putBus => trivial
  | putChannel c hv => exact hv

theorem awaitDeferred (h : w.Within P) (d : DeferredId) :
    (w.awaitDeferred turn b nests x d).Within P := by
  have hsuspended : (w.suspend turn b nests x (.call d)).Within P := suspend hb hns h trivial
  unfold World.awaitDeferred
  simp only
  split
  · exact hsuspended
  · rename_i deferred hd
    have hd : deferred.Within P := h.deferreds.get? hd
    have hlisten : (deferred.subscribe ⟨turn.mw, x⟩).2.Within P ∧
        ∀ a, (deferred.subscribe ⟨turn.mw, x⟩).1 = some a → a.Within P := by
      unfold Deferred.subscribe
      split
      · rename_i a ha
        refine ⟨hd, ?_⟩
        rintro _ ⟨⟩
        exact hd a ha
      · exact ⟨hd, by rintro _ ⟨⟩⟩
    have hw := hsuspended.world.setDeferred d hlisten.1
    split
    · exact ⟨hw, hsuspended.todo⟩
    · rename_i a ha
      exact ⟨hw.schedule turn.mw (r := .settle x _) (.ofAnswer (hlisten.2 a ha)), hsuspended.todo⟩

theorem startCall (h : w.Within P) {name : String} {routine : Routine}
    (hr : (Effect.call name routine).Within P) :
    (w.startCall turn b nests x routine).Within P := by
  cases hr with
  | sleep _ ms => exact awaitDeferred hb hns (h.addTimer ms (.ok .unit)) _
  | scripted _ c henv =>
    refine two ?_ henv ⟨hb, hns, henv⟩
    cases c.label with
    | none => exact h
    | some name => exact h.enter _

theorem execAnswer (h : w.Within P) (result : AnswerExpr) (henv : Env.Within P env) :
    (w.execAnswer turn b nests x result env).Within P := by
  have hsettled : ∀ {a : Answer}, a.Within P → Deferred.Within P (.settled a) := by
    rintro a ha _ ⟨⟩
    exact ha
  cases result with
  | value y => exact immediate hb hns h (.value (World.eval_within h.labels henv y))
  | fault f => exact immediate hb hns h .fault
  | deferred name =>
    unfold World.execAnswer
    simp only
    split
    · exact awaitDeferred hb hns h _
    · exact immediate hb hns h .fault
  | resolved y =>
    exact awaitDeferred hb hns
      (h.addDeferred (hsettled (.ok (World.eval_within h.labels henv y)))) _
  | rejected f => exact awaitDeferred hb hns (h.addDeferred (hsettled .error)) _
  | timer ms fault y =>
    cases fault with
    | none =>
      exact awaitDeferred hb hns (h.addTimer ms (.ok (World.eval_within h.labels henv y))) _
    | some f => exact awaitDeferred hb hns (h.addTimer ms .error) _

/-- A fork answers with the handle that it makes. -/
theorem startFork (h : w.Within P) {saga : Saga} (hs : saga.Within P) (detached : Bool)
    (hnew : P (w.nextTaskRef turn.mw saga)) :
    (w.startFork turn b nests x saga detached).Within P :=
  immediate hb hns ((h.createTask turn.mw hs _ detached).schedule turn.mw trivial)
    (.value (.task hnew))

theorem startJoin (h : w.Within P) (target : TaskRef) :
    (w.startJoin turn b nests x target).Within P := by
  unfold World.startJoin
  split
  · exact immediate hb hns h .fault
  · split
    · exact immediate hb hns h .fault
    · split
      · rename_i o ho
        exact immediate hb hns h (.ofOutcome ((h.engine _).outcomes.get? ho))
      · split
        · exact immediate hb hns h (.value .unit)
        · refine suspend hb hns (World.Within.setTask h _ _ ?_) trivial
          exact fun _ hn => ⟨hn.body, hn.result⟩

theorem startRace (h : w.Within P) (keys : Option (List String)) {es : List Effect}
    (hes : ∀ e ∈ es, e.Within P) : (w.startRace turn b nests x keys es).Within P := by
  cases es with
  | nil => exact immediate hb hns h .fault
  | cons e es =>
    rw [List.forall_mem_cons] at hes
    exact one (h.insertWait turn.mw x trivial) ⟨hb, List.forall_mem_cons.2 ⟨hes.2, hns⟩, hes.1⟩

theorem startAll (h : w.Within P) {es : List Effect} (hes : ∀ e ∈ es, e.Within P) :
    (w.startAll turn b nests x es).Within P := by
  cases es with
  | nil => exact immediate hb hns h (.value (.list (by simp)))
  | cons e es =>
    have hkind : ∀ v, some v ∈ (e :: es).map (fun _ => (none : Option Value)) → v.Within P := by
      simp
    rw [List.forall_mem_cons] at hes
    exact one (h.insertWait turn.mw x hkind) ⟨hb, List.forall_mem_cons.2 ⟨hes.2, hns⟩, hes.1⟩

theorem startCancel (h : w.Within P) (target : Option TaskRef) :
    (w.startCancel turn b nests x target).Within P := by
  unfold World.startCancel
  split
  · exact two h trivial ⟨hb, hns⟩
  · split
    · exact immediate hb hns h .fault
    · exact two h trivial ⟨hb, hns⟩

theorem execCancelDone (h : w.Within P) : (w.execCancelDone turn b nests x).Within P := by
  unfold World.execCancelDone
  split
  · exact one h ⟨hb, hns, by rintro _ ⟨⟩⟩
  · exact immediate hb hns h (.value .unit)

theorem execTrigger (h : w.Within P) {e : Effect} (he : e.Within P)
    (hnew : ∀ saga detached, e = .fork saga detached → w.isHalted turn.mw turn.task = false →
      P (w.nextTaskRef turn.mw saga)) :
    (w.execTrigger turn b nests e).Within P := by
  have hw : ∀ e, ((w.setEngine turn.mw fun g =>
      { g with nextEffect := (w.engine turn.mw).nextEffect + 1 }).record turn.mw e).Within P := by
    refine fun e => (World.Within.setEngine h turn.mw ?_).record turn.mw e
    exact fun _ he => ⟨he.tasks, he.waits, he.outcomes, he.agenda, he.halted⟩
  unfold World.execTrigger
  split
  · exact one h ⟨hb, hns, by rintro _ ⟨⟩⟩
  · rename_i hlive
    cases e with
    | take source p => exact startTake hb hns (hw _) source p
    | put target => exact startPut hb hns (hw _) he
    | call name routine => exact startCall hb hns (hw _) he
    | fork saga detached =>
      have hsaga : saga.Within P := by
        cases he with
        | fork hs => exact hs
      have hchild := hnew saga detached rfl (Bool.eq_false_iff.2 hlive)
      refine startFork hb hns (hw _) hsaga detached ?_
      rw [← World.nextTaskRef_setEngine (w := w) (j := turn.mw) (f := fun g =>
        { g with nextEffect := (w.engine turn.mw).nextEffect + 1 }) fun _ => rfl] at hchild
      exact hchild
    | join target => exact startJoin hb hns (hw _) target
    | race members =>
      cases he with
      | race hes =>
        simp only [World.startKeyedRace]
        split
        · exact immediate hb hns (hw _) .fault
        · exact startRace hb hns (hw _) _ (List.forall_mem_map.2 hes)
    | racePositional members =>
      cases he with
      | racePositional hes => exact startRace hb hns (hw _) none hes
    | all members =>
      cases he with
      | all hes => exact startAll hb hns (hw _) hes
    | cancel target => exact startCancel hb hns (hw _) target
    | select key => exact immediate hb hns ((hw _).readState turn.mw) (.value (.json _))

/-! ### After a start -/

omit hns in
theorem resumeBody (h : w.Within P) {start : Start} (hs : start.Within P) :
    (w.resumeBody turn b start).Within P := by
  cases start with
  | halt => exact one h ⟨hb, trivial⟩
  | pending id =>
    simp only [World.resumeBody]
    split
    · exact one (h.cancelWait turn.mw id) ⟨hb, trivial⟩
    · exact one h ⟨hb, trivial⟩
  | immediate signal =>
    have hs := hs signal rfl
    simp only [World.resumeBody]
    split
    · exact one h ⟨hb, trivial⟩
    · cases signal with
      | ended => exact one h ⟨hb, trivial⟩
      | value v =>
        simp only
        split
        · refine one h ⟨hb, ?_⟩
          rintro _ ⟨⟩
          exact .ok (hs v rfl)
        · exact one h ⟨hb, hs⟩
      | fault f =>
        simp only
        split
        · refine one h ⟨hb, ?_⟩
          rintro _ ⟨⟩
          exact .error
        · exact one h ⟨hb, hs⟩

theorem nextOfRace (h : w.Within P) (slot : Nat) {rest : List Effect}
    (hrest : ∀ e ∈ rest, e.Within P) : (w.nextOfRace turn b x slot rest nests).Within P := by
  cases rest with
  | nil => exact one h ⟨hb, hns, by rintro _ ⟨⟩⟩
  | cons e es =>
    rw [List.forall_mem_cons] at hrest
    exact one h ⟨hb, List.forall_mem_cons.2 ⟨hrest.2, hns⟩, hrest.1⟩

theorem nextOfAll (h : w.Within P) (slot : Nat) {rest : List Effect}
    (hrest : ∀ e ∈ rest, e.Within P) : (w.nextOfAll turn b x slot rest nests).Within P := by
  cases rest with
  | nil =>
    simp only [World.nextOfAll]
    split
    · rename_i t link results members hw
      have hkind : (WaitKind.all results members 0).Within P := (h.engine turn.mw).waits.get? hw
      exact immediate hb hns (h.setWaits turn.mw ((h.engine turn.mw).waits.erase x))
        (Waits.collect_within hkind)
    · exact one h ⟨hb, hns, by rintro _ ⟨⟩⟩
  | cons e es =>
    rw [List.forall_mem_cons] at hrest
    exact one h ⟨hb, List.forall_mem_cons.2 ⟨hrest.2, hns⟩, hrest.1⟩

end

theorem setMember (h : w.Within P) (combinator : EffectId) (slot : Nat) (member : EffectId) :
    (w.setMember i combinator slot member).Within P := by
  refine h.setWaits i (Table.Each.modify (h.engine i).waits combinator fun wait hw => ?_)
  obtain ⟨t, link, kind⟩ := wait
  cases kind with
  | all => exact hw
  | _ => trivial

theorem execBegun (h : w.Within P) (hb : b.Within P) (hns : ∀ n ∈ nests, n.Within P)
    {start : Start} (hs : start.Within P) : (w.execBegun turn b nests start).Within P := by
  cases nests with
  | nil => exact resumeBody hb h hs
  | cons n nests =>
    rw [List.forall_mem_cons] at hns
    obtain ⟨hn, hns⟩ := hns
    cases n with
    | race id slot rest =>
      cases start with
      | pending member => exact nextOfRace hb hns (setMember h id slot member) slot hn
      | halt => exact one (h.cancelWait turn.mw id) ⟨hb, hns, by rintro _ ⟨⟩⟩
      | immediate signal =>
        simp only [World.execBegun, World.begunInRace]
        split
        · exact one h ⟨hb, hns, by rintro _ ⟨⟩⟩
        · rename_i wait _
          obtain ⟨hr, hw⟩ := h.closeRace turn.mw id wait slot (hs signal rfl)
          exact immediate hb hns hw hr
    | all id slot rest =>
      cases start with
      | pending member => exact nextOfAll hb hns (setMember h id slot member) slot hn
      | halt => exact one (h.cancelWait turn.mw id) ⟨hb, hns, by rintro _ ⟨⟩⟩
      | immediate signal =>
        have hs := hs signal rfl
        cases signal with
        | value v =>
          exact nextOfAll hb hns (h.setWaits turn.mw ((h.engine turn.mw).waits.merge id slot hs).1)
            slot hn
        | fault | ended =>
          simp only [World.execBegun, World.begunInAll]
          split
          · exact immediate hb hns h hs
          · exact immediate hb hns (h.dropAll turn.mw id _) hs

theorem execPolled (h : w.Within P) (hb : b.Within P) {step : Step Effect}
    (hs : step.Within P) : (w.execPolled turn b step).Within P := by
  unfold World.execPolled
  split
  · exact one h ⟨hb, trivial⟩
  · cases step with
    | complete a => exact one h ⟨hb, hs⟩
    | yielded e => exact one h ⟨hb, fun _ hn => absurd hn List.not_mem_nil, hs⟩

/-! ### The end of tasks -/

theorem cascadeOn {r : Option Cascade × World} (h : r.2.Within P) :
    (World.cascadeOn i r).Within P := by
  unfold World.cascadeOn
  split
  · exact nil h
  · exact one h trivial

theorem dropping_within {body : Option Body} (hb : ∀ b, body = some b → b.Within P) :
    ∀ y ∈ World.dropping turn body, y.Within P := by
  cases body with
  | none => exact fun _ hy => absurd hy List.not_mem_nil
  | some b => exact List.forall_mem_singleton.2 (hb b rfl)

theorem execLeave (h : w.Within P) (hb : b.Within P) {exit : Exit} (he : exit.Within P) :
    (w.execLeave turn b exit).Within P := by
  have hw : (w.setEngine turn.mw fun e => { e with current := none }).Within P :=
    World.Within.setEngine h turn.mw fun _ he =>
      ⟨he.tasks, he.waits, he.outcomes, he.agenda, he.halted⟩
  cases exit with
  | suspended id => exact nil (hw.park turn.mw turn.task hb _)
  | yielded signal =>
    exact nil ((hw.park turn.mw turn.task hb _).schedule turn.mw (r := .resume _ signal) he)
  | finished a =>
    cases a with
    | ok v => exact two hw hb (he v rfl)
    | error f => exact two hw hb trivial
  | ended => exact two hw hb .unit
  | halted => exact two hw hb trivial

theorem execReturned (h : w.Within P) (hv : v.Within P) : (w.execReturned turn v).Within P := by
  have hresult : ∀ n : TaskNode, n.Within P → ∀ u, some v = some u → u.Within P := by
    rintro n hn _ ⟨⟩
    exact hv
  unfold World.execReturned
  split
  · exact nil h
  · split
    · exact nil h
    · split
      · refine one (World.Within.setTask h _ _ ?_) trivial
        exact fun n hn => ⟨hn.body, hresult n hn⟩
      · refine nil (World.Within.setTask h _ _ ?_)
        exact fun n hn => ⟨hn.body, hresult n hn⟩

theorem execCascade (h : w.Within P) (c : Cascade) : (w.execCascade i c).Within P := by
  cases c with
  | abort => exact one h trivial
  | complete t =>
    cases hn : w.task? i t with
    | none =>
      simp only [World.execCascade, hn]
      exact nil h
    | some n =>
      simp only [World.execCascade, hn]
      split
      · exact nil h
      · split
        · exact nil h
        · rename_i v hv
          have hw : (w.setTask i t fun n => { n with result := none }).Within P :=
            World.Within.setTask h i t fun _ hn => ⟨hn.body, by rintro _ ⟨⟩⟩
          exact cascadeOn (hw.finalize i t (.done ((h.task hn).result v hv)))

theorem execAbort (h : w.Within P) (f : Fault) : (w.execAbort turn f).Within P := by
  cases hn : w.task? turn.mw turn.task with
  | none =>
    simp only [World.execAbort, hn]
    exact nil h
  | some n =>
    simp only [World.execAbort, hn]
    split
    · exact nil h
    · have hw : (w.setTask turn.mw turn.task fun n =>
          { n with status := .aborted, pending := none, body := none }).Within P :=
        World.Within.setTask h _ _ fun _ hn => ⟨by rintro _ ⟨⟩, hn.result⟩
      refine ⟨hw.cancelPending turn.mw _, fun y hy => ?_⟩
      rcases List.mem_append.1 hy with hy | hy
      · rcases List.mem_append.1 hy with hy | hy
        · obtain ⟨t, -, rfl⟩ := List.mem_map.1 hy
          trivial
        · exact dropping_within (h.task hn).body y hy
      · rw [List.mem_singleton.1 hy]
        trivial

theorem execAbortDone (h : w.Within P) (f : Fault) (wasCurrent : Bool) :
    (w.execAbortDone turn f wasCurrent).Within P := by
  cases wasCurrent with
  | true =>
    refine nil (World.Within.setEngine h turn.mw ?_)
    refine fun _ he => ⟨he.tasks, he.waits, he.outcomes, he.agenda, ?_⟩
    rintro _ ⟨⟩
    exact .aborted
  | false => exact cascadeOn (h.finalize turn.mw turn.task .aborted)

theorem execConclude (h : w.Within P) : (w.execConclude turn).Within P := by
  have ho : ((w.engine turn.mw).halted.getD .cancelled).Within P := by
    cases ho : (w.engine turn.mw).halted with
    | none => exact .cancelled
    | some o => exact (h.engine turn.mw).halted o ho
  have hw : (w.setEngine turn.mw fun e => { e with halted := none }).Within P :=
    World.Within.setEngine h turn.mw fun _ he =>
      ⟨he.tasks, he.waits, he.outcomes, he.agenda, by rintro _ ⟨⟩⟩
  exact cascadeOn (hw.finalize turn.mw turn.task ho)

theorem execCancel (h : w.Within P) (root : TaskId) : (w.execCancel i root).Within P := by
  unfold World.execCancel
  simp only
  split
  · refine one (h.foldl fun w t _ hw => World.Within.setTask hw i t ?_) trivial
    exact fun _ hn => ⟨hn.body, hn.result⟩
  · exact nil h

theorem execCancelEach (h : w.Within P) (order : List TaskId) (cascades : List Cascade) :
    (w.execCancelEach i order cascades).Within P := by
  cases order with
  | nil => exact ⟨h, List.forall_mem_map.2 fun _ _ => trivial⟩
  | cons t rest =>
    cases hn : w.task? i t with
    | none =>
      simp only [World.execCancelEach, hn]
      exact one h trivial
    | some n =>
      simp only [World.execCancelEach, hn]
      have hw : (w.setTask i t fun n => { n with pending := none, body := none }).Within P :=
        World.Within.setTask h i t fun _ hn => ⟨by rintro _ ⟨⟩, hn.result⟩
      refine ⟨hw.cancelPending i _, fun y hy => ?_⟩
      rcases List.mem_append.1 hy with hy | hy
      · exact dropping_within (h.task hn).body y hy
      · rw [List.mem_singleton.1 hy]
        trivial

theorem execCancelOne (h : w.Within P) (wasCurrent : Bool) (rest : List TaskId)
    (cascades : List Cascade) : (w.execCancelOne turn wasCurrent rest cascades).Within P := by
  cases wasCurrent with
  | true =>
    refine one (World.Within.setEngine h turn.mw ?_) trivial
    refine fun _ he => ⟨he.tasks, he.waits, he.outcomes, he.agenda, ?_⟩
    rintro _ ⟨⟩
    exact .cancelled
  | false => exact one (h.finalize turn.mw turn.task .cancelled) trivial

/-! ### Operations -/

theorem answerOp (h : w.Within P) (site : Site) (o : Op) (r : Reply) :
    (w.answerOp site o r).Within P := one h trivial

theorem settleDeferred (h : w.Within P) (d : DeferredId) {a : Answer} (ha : a.Within P) :
    (w.settleDeferred d a).2.Within P := by
  unfold World.settleDeferred
  split
  · exact nil h
  · rename_i deferred hd
    have hsettled : (deferred.settle a).deferred.Within P := by
      unfold Deferred.settle
      split
      · exact h.deferreds.get? hd
      · rintro _ ⟨⟩
        exact ha
    have hw := h.setDeferred d hsettled
    simp only
    split
    · exact nil hw
    · exact notify hw _ (.ofAnswer ha)

theorem execMoveClock (h : w.Within P) (target : Nat) : (w.execMoveClock target).Within P := by
  unfold World.execMoveClock
  split
  · exact nil (h.congr rfl rfl rfl rfl rfl)
  · rename_i t ht
    refine followedBy (settleDeferred ?_ _ (h.timers t (World.mem_of_dueTimer? ht)))
      (List.forall_mem_singleton.2 trivial)
    exact ⟨h.engines, h.channels, h.deferreds, fun u hu => h.timers u (List.mem_filter.1 hu).1,
      h.labels⟩

theorem opSettle (h : w.Within P) (site : Site) (o : Op) (name : String) {a : Answer}
    (ha : a.Within P) : (w.opSettle site o name a).Within P := by
  unfold World.opSettle
  split
  · exact answerOp h site o _
  · exact followedBy (settleDeferred h _ ha) (List.forall_mem_singleton.2 trivial)

theorem opDrop (h : w.Within P) (site : Site) (j : MiddlewareId) :
    (w.opDrop site j).Within P := by
  unfold World.opDrop
  split
  · rename_i m hm
    have hm := h.engines.get? (Option.filter_eq_some_iff.1 hm).1
    constructor
    case world =>
      refine ⟨h.engines.insert j ?_, h.channels, h.deferreds, h.timers, h.labels⟩
      exact ⟨.empty, .empty, hm.outcomes, ⟨by simp, by simp, by simp⟩, by rintro _ ⟨⟩⟩
    case todo =>
      intro y hy
      rcases List.mem_append.1 hy with hy | hy
      · obtain ⟨e, he, hy⟩ := List.mem_flatMap.1 hy
        cases hb : e.2.body with
        | none => simp [hb] at hy
        | some b =>
          obtain rfl : y = .dropBody ⟨j, e.1⟩ b := by simpa [hb] using hy
          exact (hm.tasks e he).body b hb
      · rw [List.mem_singleton.1 hy]
        trivial
  · exact one h trivial
  · exact one h trivial

theorem runOp (h : w.Within P) (site : Site) (henv : Env.Within P env) (o : Op)
    (hnew : ∀ i saga label, o = .run i saga label → (∃ m, w.living? i = some m) →
      P (w.nextTaskRef i (w.evalSaga env saga))) : (w.runOp site env o).Within P := by
  have hmw : ∀ {o : Op} {i : MiddlewareId} {f : Middleware → Config},
      (∀ m, w.living? i = some m → (f m).Within P) → (w.withMiddleware site o i f).Within P := by
    intro o i f hf
    unfold World.withMiddleware
    split
    · exact answerOp h site o _
    · exact hf _ (by assumption)
  have htask : ∀ {o : Op} {x : Expr} {f : TaskRef → Config}, (∀ t, (f t).Within P) →
      (w.withTask site env o x f).Within P := by
    intro o x f hf
    unfold World.withTask
    split
    · exact hf _
    · exact answerOp h site o _
  have hchannel : ∀ {o : Op} {name : String} {f : ChannelId → Channel Sink → Config},
      (∀ c channel, channel.Within P → (f c channel).Within P) →
      (w.withChannel site o name f).Within P := by
    intro o name f hf
    unfold World.withChannel
    split
    · exact answerOp h site o _
    · split
      · exact answerOp h site o _
      · rename_i channel hc
        exact hf _ _ (h.channels.get? hc)
  cases o with
  | run i saga label =>
    refine hmw fun m hm => followedBy (enterDriver ?_ i (by simp)) ?_
    · have hsaga := World.evalSaga_within h.labels henv saga
      exact (h.createTask i hsaga none false).schedule i trivial
    · exact List.forall_mem_singleton.2 (hnew i saga label rfl ⟨m, hm⟩)
  | dispatch i a =>
    refine hmw fun _ _ => ?_
    unfold World.opDispatch
    split
    · exact one (h.queue i (e := .dispatch _ none) trivial) trivial
    · refine one (World.Within.setEngine h i ?_) trivial
      exact fun _ he => ⟨he.tasks, he.waits, he.outcomes, he.agenda, he.halted⟩
  | finish i =>
    refine hmw fun _ _ => ?_
    unfold World.opFinish
    split
    · exact one (h.queue i (e := .finish) trivial) trivial
    · exact followedBy (enterDriver (h.endBus i) i (by simp)) (List.forall_mem_singleton.2 trivial)
  | live | settings => exact hmw fun _ _ => answerOp h site _ _
  | state => exact hmw fun _ _ => answerOp (h.readState _) site _ _
  | cancel x =>
    refine htask fun t => ?_
    unfold World.opCancel
    split
    · exact one h trivial
    · refine followedBy (enterDriver h _ fun y hy => ?_) (List.forall_mem_singleton.2 trivial)
      rw [List.mem_singleton.1 hy]
      trivial
  | inspect => exact htask fun _ => answerOp h site _ _
  | watch x tag =>
    refine htask fun t => answerOp ?_ site _ _
    unfold World.opWatch
    simp only
    split
    · exact h.congr rfl rfl rfl rfl rfl
    · exact h.congr rfl rfl rfl rfl rfl
  | put name x =>
    refine hchannel fun c channel hc => ?_
    have hv := World.eval_within h.labels henv x
    obtain ⟨hw, htaker⟩ := h.putChannel (c := c) hc hv
    unfold World.opPut
    simp only
    split
    · exact one hw trivial
    · rename_i t ht
      exact two hw ⟨htaker t ht, .value hv⟩ trivial
    · exact one hw trivial
  | take name p tag next =>
    refine hchannel fun c channel hc => ?_
    have hsink : Sink.Within P (.script tag next env) := henv
    obtain ⟨hw, hd⟩ := h.takeChannel (c := c) hc p hsink
    unfold World.opTake
    simp only
    split
    · rename_i d hd'
      exact two hw ⟨hsink, hd d hd'⟩ trivial
    · exact one hw trivial
  | untake tag =>
    refine answerOp ?_ site _ _
    unfold World.opUntake
    split
    · exact h
    · split
      · exact h
      · rename_i channel hc
        have hc : channel.Within P := h.channels.get? hc
        exact h.setChannel _ ⟨hc.items, fun t ht => hc.takers t (List.mem_filter.1 ht).1⟩
  | close name =>
    refine hchannel fun c channel hc => ?_
    have hclosed : (∀ t ∈ channel.close.1, t.sink.Within P) ∧ channel.close.2.Within P := by
      unfold Channel.close
      split
      · exact ⟨fun _ ht => absurd ht List.not_mem_nil, hc⟩
      · exact ⟨hc.takers, hc.items, fun _ ht => absurd ht List.not_mem_nil⟩
    refine ⟨h.setChannel c hclosed.2, fun y hy => ?_⟩
    rcases List.mem_append.1 hy with hy | hy
    · obtain ⟨t, ht, rfl⟩ := List.mem_map.1 hy
      exact ⟨hclosed.1 t ht, .ended⟩
    · rw [List.mem_singleton.1 hy]
      trivial
  | showChannel => exact hchannel fun _ _ _ => answerOp h site _ _
  | resolve name x => exact opSettle h site _ name (.ok (World.eval_within h.labels henv x))
  | reject name f => exact opSettle h site _ name .error
  | showDeferred name =>
    simp only [World.runOp]
    split
    · exact answerOp h site _ _
    · exact answerOp h site _ _
  | log => exact answerOp (h.enter _) site _ _
  | drop i => exact opDrop h site i
  | advance ms =>
    simp only [World.runOp, World.opAdvance]
    split
    · exact two h trivial trivial
    · exact one h trivial
    · exact one h trivial
  | sameTask | wakes | sameChannel | unknown => exact answerOp h site _ _

end Config.Within

/-! ## Runs -/

/-- A task was started. -/
def World.Began (w : World) (t : TaskRef) : Prop :=
  ∃ parent name, .taskStarted t.id parent name ∈ w.past t.owner

theorem World.began_createTask (w : World) (i : MiddlewareId) (saga : Saga) (parent : Option TaskId)
    (detached : Bool) : (w.createTask i saga parent detached).Began (w.nextTaskRef i saga) := by
  refine ⟨parent, saga.name, ?_⟩
  have hrecorded : ∀ (w : World) (e : Event), e ∈ (w.record i e).past i := fun w e => by
    rw [World.past_record]
    exact List.mem_cons_self
  exact hrecorded _ _

theorem World.Began.mono {t : TaskRef} (h : w.Began t)
    (hp : w.past t.owner ⊆ w'.past t.owner) : w'.Began t := by
  obtain ⟨parent, name, hm⟩ := h
  exact ⟨parent, name, hp hm⟩

theorem World.began_opRun (w : World) (site : Site) (env : Env) (i : MiddlewareId) (e : SagaExpr)
    (label : Option String) :
    (w.opRun site env i e label).world.Began (w.nextTaskRef i (w.evalSaga env e)) := by
  obtain ⟨parent, name, hm⟩ := w.began_createTask i (w.evalSaga env e) none false
  refine ⟨parent, name, ?_⟩
  unfold World.opRun World.enterDriver
  simp only
  split <;> exact hm

theorem World.began_execTrigger {saga : Saga} {detached : Bool}
    (hlive : w.isHalted turn.mw turn.task = false) :
    (w.execTrigger turn b nests (.fork saga detached)).world.Began
      (w.nextTaskRef turn.mw saga) := by
  have href : (w.setEngine turn.mw fun g =>
      { g with nextEffect := (w.engine turn.mw).nextEffect + 1 }).nextTaskRef turn.mw saga =
        w.nextTaskRef turn.mw saga := World.nextTaskRef_setEngine fun _ => rfl
  rw [World.execTrigger, if_neg (by simp [hlive]), ← href]
  obtain ⟨parent, name, hm⟩ := World.began_createTask _ turn.mw saga (some turn.task) detached
  have hlater : ∀ (w : World) (r : Reaction) (e : Event),
      w.past turn.mw ⊆ ((w.schedule turn.mw r).record turn.mw e).past turn.mw := by
    intro w r e
    rw [World.past_record]
    exact List.subset_cons_self _ _
  exact ⟨parent, name, hlater _ _ _ hm⟩

/-- An instruction makes no other handles than those of the tasks that it starts. -/
theorem Instr.within_exec {y : Instr} {next : Config} (h : w.Within P) (hy : y.Within P)
    (hnew : ∀ t, next.world.Began t → P t) (hn : y.exec w = some next) : next.Within P := by
  cases y with
  | advance turn s m => exact .execAdvance h hy.1 hy.2 hn
  | op site env o =>
    obtain ⟨w', hw', rfl⟩ := Option.map_eq_some_iff.1 hn
    obtain ⟨n, rfl⟩ := World.spend_eq hw'
    have hw : World.Within P { w with budget := n } := h.congr rfl rfl rfl rfl rfl
    refine .runOp hw site hy o fun i saga label ho ⟨m, hm⟩ => hnew _ ?_
    subst ho
    simp only [World.runOp, World.withMiddleware, hm]
    exact World.began_opRun ..
  | trigger turn b nests e =>
    cases hn
    refine .execTrigger hy.1 hy.2.1 h hy.2.2 fun saga detached he hlive => hnew _ ?_
    subst he
    exact World.began_execTrigger hlive
  | drain => cases hn; exact .execDrain h
  | perform => cases hn; exact .execPerform h hy
  | schedule i r => cases hn; exact .nil (h.schedule i hy)
  | poll => cases hn; exact .execPoll h hy.1 hy.2
  | polled => cases hn; exact .execPolled h hy.1 hy.2
  | answer => cases hn; exact .execAnswer hy.1 hy.2.1 h _ hy.2.2
  | cancelDone => cases hn; exact .execCancelDone hy.1 hy.2 h
  | begun => cases hn; exact .execBegun h hy.1 hy.2.1 hy.2.2
  | leave => cases hn; exact .execLeave h hy.1 hy.2
  | dropBody turn b =>
    cases hn
    refine .one (h.record _ _) ?_
    cases b with
    | script s => exact hy.guards
    | watcher => exact fun _ hg => absurd hg List.not_mem_nil
  | returned => cases hn; exact .execReturned h hy
  | abort => cases hn; exact .execAbort h _
  | abortDone => cases hn; exact .execAbortDone h _ _
  | conclude => cases hn; exact .execConclude h
  | cascade => cases hn; exact .execCascade h _
  | cancel => cases hn; exact .execCancel h _
  | cancelEach => cases hn; exact .execCancelEach h _ _
  | cancelOne => cases hn; exact .execCancelOne h _ _ _
  | emit => cases hn; exact .execEmit h _ _
  | forwarded => cases hn; exact .execForwarded h _ _
  | deliver => cases hn; exact .execDeliver h hy.1 hy.2
  | guards => cases hn; exact .execGuards h hy
  | ops env os =>
    cases hn
    cases os with
    | nil => exact .nil h
    | cons => exact .two h hy hy
  | reply site name r =>
    cases hn
    cases site with
    | nested => exact .nil (h.enter _)
    | outside => exact .nil (h.congr rfl rfl rfl rfl rfl)
  | started => cases hn; exact .one (h.register _ (.task hy)) trivial
  | registered => cases hn; exact .one (h.congr rfl rfl rfl rfl rfl) trivial
  | moveClock => cases hn; exact .execMoveClock h _

/-! ### The start -/

/-- Nothing in a scenario is a handle; before it runs there are no tasks. -/
def Scenario.HandleFree (s : Scenario) : Prop :=
  ∀ name buffer, (name, .buffered buffer) ∈ s.channels →
    ∀ v ∈ buffer.items, v.Within fun _ => False

theorem Value.Within.mono {Q : TaskRef → Prop} (hPQ : ∀ t, P t → Q t) (h : v.Within P) :
    v.Within Q := by
  induction h with
  | unit => exact .unit
  | json j => exact .json j
  | action a => exact .action a
  | task ht => exact .task (hPQ _ ht)
  | list _ ih => exact .list ih
  | map _ ih => exact .map ih

namespace World.Within

theorem addMiddleware (h : w.Within P) {m : Middleware} (hm : m.engine = {}) :
    (w.addMiddleware m).Within P := by
  refine ⟨h.engines.insert _ ?_, h.channels, h.deferreds, h.timers, h.labels⟩
  rw [hm]
  exact ⟨.empty, .empty, .empty, ⟨by simp, by simp, by simp⟩, by rintro _ ⟨⟩⟩

theorem addChannel (h : w.Within P) (name : String) {buffer : Buffer}
    (hb : ∀ v ∈ buffer.items, v.Within P) : (w.addChannel name buffer).Within P :=
  (h.setChannel w.channels.size ⟨hb, fun _ ht => absurd ht List.not_mem_nil⟩).congr rfl rfl rfl
    rfl rfl

theorem setUpChannel (h : w.Within P) (name : String) {spec : ChannelSpec}
    (hs : ∀ buffer, spec = .buffered buffer → ∀ v ∈ buffer.items, v.Within P) :
    (w.setUpChannel name spec).Within P := by
  have hempty : (w.addChannel name .unbounded).Within P :=
    h.addChannel name fun _ hv => absurd hv List.not_mem_nil
  cases spec with
  | buffered buffer => exact h.addChannel name (hs buffer rfl)
  | ofMiddleware => exact hempty
  | «alias» other =>
    simp only [World.setUpChannel]
    split
    · exact h.congr rfl rfl rfl rfl rfl
    · exact hempty

theorem setUpDeferred (h : w.Within P) (name : String) : (w.setUpDeferred name).Within P :=
  (h.addDeferred (d := {}) (by rintro _ ⟨⟩)).congr rfl rfl rfl rfl rfl

end World.Within

theorem Scenario.within_setUp {s : Scenario} (hs : s.HandleFree) (hw : s.setUp = .ok w) :
    w.Within P := by
  obtain ⟨ms, hms, rfl⟩ := setUp_eq hw
  have h₀ : World.Within P { timerSupport := s.timerSupport, scripts := s.scripts } :=
    ⟨.empty, .empty, .empty, fun _ ht => absurd ht List.not_mem_nil, .empty⟩
  refine World.Within.foldl (World.Within.foldl (World.Within.foldl h₀ ?_) ?_) ?_
  · exact fun w m hm hw => hw.addMiddleware (MiddlewareSpec.mapM_fresh hms m hm).1
  · refine fun w c hc hw => hw.setUpChannel c.1 fun buffer hb v hv => ?_
    exact (hs c.1 buffer (hb ▸ hc) v hv).mono fun _ hf => hf.elim
  · exact fun w name _ hw => hw.setUpDeferred name

namespace Scenario.Visits

variable {s : Scenario} {c c' : Config}

/-- All handles name tasks that were started. -/
theorem within (h : s.Visits c) (hs : s.HandleFree) (hP : ∀ t, c.world.Began t → P t) :
    c.Within P := by
  induction h with
  | start hw => exact .nil (s.within_setUp hs hw)
  | call _ o budget ih =>
    have hw := (ih hP).world
    exact .one (hw.congr rfl rfl rfl rfl rfl) .empty
  | @step c c' h hc ih =>
    obtain ⟨todo, w⟩ := c
    cases todo with
    | nil => cases hc
    | cons x rest =>
    obtain ⟨next, hn, rfl⟩ := Option.map_eq_some_iff.1 hc
    have hlearns : w.Learns next.world := (h.knows.teaches rfl hn).learns
    have hold := ih fun t ht => hP t (ht.mono (hlearns.past t.owner))
    have hnext : next.Within P :=
      Instr.within_exec hold.world (hold.todo x List.mem_cons_self) hP hn
    exact hnext.followedBy fun y hy => hold.todo y (List.mem_cons_of_mem _ hy)

/-- A task that was started is one of the tasks that were created. -/
theorem created_of_began (h : s.Visits c) {t : TaskRef} (ha : c.world.Alive t.owner)
    (ht : c.world.Began t) : c.world.Created t := by
  obtain ⟨parent, name, hm⟩ := ht
  have hstarts : 0 < c.world.starts t :=
    List.count_pos_iff.2 (List.mem_filterMap.2 ⟨_, hm, rfl⟩)
  rw [(h.keeps t ha).started] at hstarts
  by_contra hnot
  rw [World.Created] at hnot
  rw [if_neg hnot] at hstarts
  exact Nat.lt_irrefl _ hstarts

/-- The target of a join is a task that is in the table, or that has an outcome. -/
theorem join_target (h : s.Visits c) (hs : s.HandleFree) {t : TaskRef}
    (hx : .trigger turn b nests (.join t) ∈ c.todo) (ha : c.world.Alive t.owner) :
    c.world.Created t ∧
      (c.world.outcomeOf t = none → ∃ n, c.world.task? t.owner t.id = some n) := by
  have hwithin : Instr.Within c.world.Began (.trigger turn b nests (.join t)) :=
    (h.within hs fun _ ht => ht).todo _ hx
  have hcreated : c.world.Created t := by
    cases hwithin.2.2 with
    | join ht => exact h.created_of_began ha ht
  refine ⟨hcreated, fun hnone => ?_⟩
  rcases (h.keeps t ha).listed hcreated with ⟨p, hp⟩ | ⟨o, ho⟩
  · rw [World.posture_core] at hp
    obtain ⟨n, hn, -⟩ := Option.map_eq_some_iff.1 hp
    exact ⟨n, hn⟩
  · rw [hnone] at ho
    cases ho

end Scenario.Visits

end SagaMachine
