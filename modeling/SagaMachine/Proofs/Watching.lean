import SagaMachine.Proofs.Bodies
import SagaMachine.Proofs.Broadcasts
import SagaMachine.Proofs.DepthFirst
import SagaMachine.Proofs.Emissions
import SagaMachine.Proofs.OneEffect

/-!
# What a watcher is up to

A watcher takes an action, clears away the worker before if it keeps only one, forks a worker, and
takes again. `Config.Watches` says where it stands, and what it has to see to (`Concern`): the
actions that were broadcast to it and have no worker yet. `Config.Tends` says what a step of the
machine may change of this: what is broadcast comes in, and a worker that is forked takes its action
out. The body of a task stays at rest while others go on (`Scenario.Visits.rests_step`), and so does
what it was told (`Scenario.Visits.idle_step`).
-/

namespace SagaMachine

section

variable {i : MiddlewareId} {past es : List Event} {x : Instr} {k k' : Core} {F G : List Instr}
  {D : List TaskId} {t u : TaskId}

/-- A task of the table that stays live keeps its body, if it has one at rest. -/
structure Core.Holds (k : Core) (t : TaskId) (k' : Core) : Prop where
  holds : k.HasBody t → k'.Live t → k'.HasBody t

theorem Core.Holds.of_eq (h : k'.posture = k.posture) : k.Holds t k' where
  holds hb _ := by
    obtain ⟨p, hp, hb⟩ := hb
    exact ⟨p, by rw [h]; exact hp, hb⟩

theorem Core.Holds.alter {f : Posture → Posture}
    (hf : ∀ p, (f p).hasBody = p.hasBody ∨ (f p).hasBody = true) : k.Holds t (k.alter u f) where
  holds hb _ := by
    obtain ⟨p, hp, hb⟩ := hb
    by_cases hut : t = u
    · subst hut
      refine ⟨f p, by rw [Core.posture_alter, if_pos rfl, hp, Option.map_some], ?_⟩
      rcases hf p with h | h
      · rw [h, hb]
      · exact h
    · exact ⟨p, by rw [Core.posture_alter, if_neg hut, hp], hb⟩

/-- A task that goes is not live any more. -/
theorem Core.Holds.strips {f : Posture → Posture}
    (hf : ∀ p, k.posture u = some p → (f p).status.isTerminal = true) : k.Holds t (k.alter u f) where
  holds hb hl := by
    obtain ⟨p, hp, hb⟩ := hb
    by_cases hut : t = u
    · subst hut
      obtain ⟨q, hq, hlive⟩ := hl
      rw [Core.posture_alter, if_pos rfl, hp, Option.map_some] at hq
      cases hq
      rw [hf p hp] at hlive
      cases hlive
    · exact ⟨p, by rw [Core.posture_alter, if_neg hut, hp], hb⟩

theorem Core.Holds.congr {k₁ : Core} (h : k.Holds t k₁) (hp : k'.posture = k₁.posture) :
    k.Holds t k' where
  holds hb hl := by
    have hl : k₁.Live t := by
      obtain ⟨p, hq, hl⟩ := hl
      exact ⟨p, by rw [← hp]; exact hq, hl⟩
    obtain ⟨p, hq, hb⟩ := h.holds hb hl
    exact ⟨p, by rw [hp]; exact hq, hb⟩

theorem Buries.holds {k₀ : Core} {outcome : Outcome} {c : Option Cascade}
    (h : Buries past k₀ u outcome k' c es) (hp : ∀ p, k.posture t = some p → p.hasBody = true →
      ∃ q, k₀.posture t = some q ∧ q.hasBody = true) : k.Holds t k' where
  holds hb hl := by
    obtain ⟨p, hq, hb⟩ := hb
    obtain ⟨q, hq, hb⟩ := hp p hq hb
    cases h with
    | absent => exact ⟨q, hq, hb⟩
    | gone =>
      by_cases hut : t = u
      · subst hut
        obtain ⟨p, hp, -⟩ := hl
        rw [Core.posture_schedule, Core.posture_bury, if_pos rfl] at hp
        cases hp
      · refine ⟨k₀.shed u t q, ?_, ?_⟩
        · rw [Core.posture_schedule, Core.posture_bury, if_neg hut, hq, Option.map_some]
        · rw [k₀.shed_eq]
          exact hb

theorem Begins.holds {expected : Option EffectId} {signal : Option Signal}
    (h : Begins i k u expected signal k' G) :
    k.Holds t k' ∨ ∃ y ∈ G, y.turn? = some t := by
  by_cases hut : t = u
  · subst hut
    cases h with
    | skip => exact Or.inl (.of_eq rfl)
    | poll | leave => exact Or.inr ⟨_, List.mem_cons_self, rfl⟩
  · left
    have hother : k.Holds t (k.enterTurn u) :=
      { holds := fun ⟨p, hp, hb⟩ _ => ⟨p, by
          show (k.alter u _).posture t = some p
          rw [Core.posture_alter, if_neg hut, hp], hb⟩ }
    cases h with
    | skip => exact .of_eq rfl
    | poll | leave => exact hother

/-- The body of a task stays at rest, unless the task is stepped or goes. -/
theorem Does.holds (h : Does i past x k k' G D es) (ho : Orderly i k (x :: F)) :
    k.Holds t k' ∨ ∃ y ∈ G, y.turn? = some t := by
  cases h with
  | start h | resume h => exact h.holds
  | wake _ _ h =>
    exact h.holds.imp_left fun hh => ⟨fun hb => hh.holds hb⟩
  | @triggerForks _ u _ _ _ hl _ _ detached _ =>
    refine Or.inl ⟨fun ⟨p, hp, hb⟩ _ => ?_⟩
    obtain ⟨q, hq, -⟩ := hl
    have hu : u ≠ k.nextTask := Nat.ne_of_lt (ho.tasks hq).number
    have ht : t ≠ k.number.nextTask := Nat.ne_of_lt (ho.tasks hp).number
    refine ⟨k.number.welcome (some u) detached t p, ?_, ?_⟩
    · show (k.number.create (some u) detached).posture t = _
      rw [k.number.posture_create detached fun h => hu (Option.some.inj h), if_neg ht]
      exact congrArg (Option.map _) hp
    · rw [k.number.welcome_eq]
      exact hb
  | leaveSuspended =>
    exact Or.inl ((Core.Holds.alter (k := k) fun _ => Or.inr rfl).congr rfl)
  | leaveYielded =>
    exact Or.inl ((Core.Holds.alter (k := k) fun _ => Or.inr rfl).congr rfl)
  | returned | returnedHeld => exact Or.inl (.alter fun _ => Or.inl rfl)
  | abort => exact Or.inl ((Core.Holds.strips (k := k) fun _ _ => rfl).congr rfl)
  | abortDone h => exact Or.inl (h.holds fun p hp hb => ⟨p, hp, hb⟩)
  | conclude h => exact Or.inl (h.holds fun p hp hb => ⟨p, hp, hb⟩)
  | cascadeComplete _ _ _ h =>
    refine Or.inl (h.holds fun p hp hb => ?_)
    exact Core.HasBody.alter ⟨p, hp, hb⟩ fun _ => rfl
  | @cancel _ _ order =>
    refine Or.inl ⟨fun ⟨p, hp, hb⟩ _ => ⟨_, by rw [Core.posture_cancelAll, hp, Option.map_some], ?_⟩⟩
    split <;> exact hb
  | @cancelEach _ u _ _ p hp =>
    -- whoever is torn down is terminal already
    have hd : k.Doomed u := (ho.frames _ List.mem_cons_self : ∀ v ∈ _, k.Doomed v) u List.mem_cons_self
    refine Or.inl (Core.Holds.congr (Core.Holds.strips (k := k) (u := u)
      (f := fun p => { p with pending := none, hasBody := false }) hd.2) rfl)
  | cancelOne h => exact Or.inl (h.holds fun p hp hb => ⟨p, hp, hb⟩)
  | allNext hk | allFull hk | allComplete hk =>
    rcases hk with ⟨_, _, rfl⟩ | ⟨_, _, rfl⟩ <;> exact Or.inl (.of_eq rfl)
  | _ => exact Or.inl (.of_eq rfl)

theorem Drives.holds {work : List Instr} {k₀ : Core} (h : Drives i k₀ work k' G)
    (hk : k.Holds t k₀) : k.Holds t k' := by
  cases h with
  | within => exact hk
  | starts => exact hk.congr rfl

theorem Intervenes.holds (h : Intervenes i past k k' G es) (ho : Orderly i k F) : k.Holds t k' := by
  cases h with
  | spawns h =>
    refine h.holds ⟨fun ⟨p, hp, hb⟩ _ => ?_⟩
    have ht : t ≠ k.nextTask := Nat.ne_of_lt (ho.tasks hp).number
    refine ⟨k.welcome none false t p, ?_, ?_⟩
    · show (k.create none false).posture t = _
      rw [k.posture_create false (by simp : none ≠ some k.nextTask), if_neg ht, hp, Option.map_some]
    · rw [k.welcome_eq]
      exact hb
  | settles _ h => exact h.holds (.of_eq rfl)
  | cancels h => exact h.holds (.of_eq rfl)
  | _ => exact .of_eq rfl

end

/-- The body of a live task stays at rest as it is, unless the task is stepped. -/
theorem Scenario.Visits.rests_step {s : Scenario} {x : Instr} {rest : List Instr} {w : World}
    {c' : Config} {i : MiddlewareId} {t : TaskId} {q : Body × Option EffectId}
    (h : s.Visits ⟨x :: rest, w⟩) (hi : w.Has i) (hq : w.rests i t = some q)
    (hc : Config.step ⟨x :: rest, w⟩ = some c') (hl : (c'.world.core i).Live t) :
    c'.world.rests i t = some q ∨ ∃ next, x.exec w = some next ∧ c' = next.followedBy rest ∧
      x.owner? = some i ∧ ∃ y ∈ framesOf i next.todo, y.turn? = some t := by
  have ho := (h.sound hi).orderly
  have hb : (w.core i).HasBody t := World.hasBody_iff.2 ⟨q, hq⟩
  obtain ⟨p, hp, hbody⟩ := id hb
  obtain ⟨next, hn, rfl, hm⟩ := Config.meets_of_step h.knows hi hc
  have kept (hh : (w.core i).Holds t (next.world.core i)) : next.world.rests i t = some q := by
    obtain ⟨q', hq'⟩ := World.hasBody_iff.1 (hh.holds hb hl)
    rcases x.rests_of_exec hn hq' with hold | ⟨exit, rfl, -⟩ | ⟨rfl, -⟩
    · rw [hq', ← hold, hq]
    · -- the body of a task that is stepped is not at rest
      have hF : framesOf i (.leave ⟨i, t⟩ q'.1 exit :: rest) = _ := framesOf_cons ..
      have hstack := (h.sound hi).framed.stack
      have hcur := hstack.turn_unique (List.mem_filter.2 ⟨List.mem_cons_self, by simp [Instr.owner?]⟩)
        (show (Instr.leave ⟨i, t⟩ q'.1 exit).turn? = some t from rfl)
      rw [((ho.driver hcur).1.2 p hp).1] at hbody
      cases hbody
    · exact absurd (ho.tasks hp).number (Nat.lt_irrefl _)
  cases hm with
  | own hown ha hd =>
    have hF : framesOf i (x :: rest) = x :: framesOf i rest := by rw [framesOf_cons, if_pos hown]
    have ho : Orderly i (w.core i) (x :: framesOf i rest) := hF ▸ ho
    rcases hd.holds ho with hh | hy
    · exact Or.inl (kept (ha.core ▸ hh))
    · exact Or.inr ⟨next, hn, rfl, hown, hy⟩
  | foreign _ ha hin => exact Or.inl (kept (ha.core ▸ hin.holds ho))
  | drops hx hres =>
    subst hx hres
    exact Or.inl hq
  | dies _ _ _ hcore =>
    obtain ⟨p', hp', -⟩ := hl
    rw [show (next.followedBy rest).world.core i = _ from hcore] at hp'
    cases hp'

/-! ## What a watcher has done -/

/-- The fork that a task triggers. -/
def Event.fork? (t : TaskId) : Event → Option (Saga × Bool)
  | .triggered u _ none (.fork saga detached) => if u = t then some (saga, detached) else none
  | _ => none

/-- The action that a body is polled with, if its answer is one. -/
def actionIn : Option Answer → Option Action
  | some (.ok (.action a)) => some a
  | _ => none

/-- The action that the body of a task is polled with. -/
def Event.action? (t : TaskId) : Event → Option Action
  | .polled u a => if u = t then actionIn a else none
  | _ => none

/-- The task that a task has started. -/
def Event.child? (t : TaskId) : Event → Option TaskId
  | .taskStarted u (some v) _ => if v = t then some u else none
  | _ => none

/-- The sagas that a task has forked, in order. -/
def forksOf (t : TaskId) (past : List Event) : List (Saga × Bool) :=
  past.reverse.filterMap (Event.fork? t)

/-- The actions that a task has got, in order. -/
def actionsOf (t : TaskId) (past : List Event) : List Action :=
  past.reverse.filterMap (Event.action? t)

/-- The tasks that a task has started, in order. -/
def childrenOf (t : TaskId) (past : List Event) : List TaskId :=
  past.reverse.filterMap (Event.child? t)

/-- An event that is none of what a watcher does. -/
structure Event.Idle (t : TaskId) (e : Event) : Prop where
  fork : e.fork? t = none
  action : e.action? t = none
  child : e.child? t = none

section

variable {i : MiddlewareId} {past past' es : List Event} {x : Instr} {k k' : Core} {G : List Instr}
  {D : List TaskId} {t : TaskId}

theorem forksOf_append : forksOf t (es ++ past) = forksOf t past ++ forksOf t es := by
  simp [forksOf]

theorem actionsOf_append : actionsOf t (es ++ past) = actionsOf t past ++ actionsOf t es := by
  simp [actionsOf]

theorem childrenOf_append : childrenOf t (es ++ past) = childrenOf t past ++ childrenOf t es := by
  simp [childrenOf]

theorem lists_of_idle (h : ∀ e ∈ es, e.Idle t) :
    forksOf t es = [] ∧ actionsOf t es = [] ∧ childrenOf t es = [] := by
  refine ⟨?_, ?_, ?_⟩ <;> refine List.filterMap_eq_nil_iff.2 fun e he => ?_
  · exact (h e (List.mem_reverse.1 he)).fork
  · exact (h e (List.mem_reverse.1 he)).action
  · exact (h e (List.mem_reverse.1 he)).child

theorem Event.IsQuiet.idle {e : Event} (h : e.IsQuiet) : e.Idle t := by
  cases e with
  | uncaught | queued | fetched | dispatched | busEnded | refused | unreadable => exact ⟨rfl, rfl, rfl⟩
  | _ => exact h.elim

theorem Quiet.idle (h : Quiet es) : ∀ e ∈ es, e.Idle t := fun e he => (h e he).idle

theorem Passage.idle (ps : List Passage) : ∀ e ∈ ps.map Passage.event, e.Idle t := by
  intro e he
  obtain ⟨p, -, rfl⟩ := List.mem_map.1 he
  cases p <;> exact ⟨rfl, rfl, rfl⟩

theorem Event.idle_settled (y : EffectId) (signal : Signal) :
    ∀ e ∈ [Event.settled y signal], e.Idle t := by
  intro e he
  cases List.mem_singleton.1 he
  exact ⟨rfl, rfl, rfl⟩

theorem Buries.idle {u : TaskId} {outcome : Outcome} {cascade : Option Cascade}
    (h : Buries past k u outcome k' cascade es) : ∀ e ∈ es, e.Idle t := by
  cases h with
  | absent => nofun
  | gone _ _ hq =>
    intro e he
    rcases List.mem_cons.1 he with rfl | he
    · exact ⟨rfl, rfl, rfl⟩
    · exact (hq e he).idle

/-- A task is polled, or starts an effect, only in its own step. -/
theorem Does.idles (h : Does i past x k k' G D es) (hp : ∀ b a, x ≠ .poll ⟨i, t⟩ b a)
    (hx : ∀ b nests e, x ≠ .trigger ⟨i, t⟩ b nests e) : ∀ e ∈ es, e.Idle t := by
  have hnil : ∀ e ∈ ([] : List Event), e.Idle t := nofun
  have hother {u : TaskId} {b : Body} {nests : List Nest} {e : Effect}
      (hx : ∀ b' nests' e', Instr.trigger ⟨i, u⟩ b nests e ≠ .trigger ⟨i, t⟩ b' nests' e')
      {y : EffectId} {q : Option EffectId} {l : List Event} (hl : ∀ e ∈ l, e.Idle t) :
      ∀ e' ∈ .triggered u y q e :: l, e'.Idle t := by
    have hne : u ≠ t := by
      rintro rfl
      exact hx _ _ _ rfl
    intro e' he'
    rcases List.mem_cons.1 he' with rfl | he'
    · refine ⟨?_, rfl, rfl⟩
      unfold Event.fork?
      split <;> simp_all
    · exact hl e' he'
  cases h with
  | settle | wake | begunWithdraws | raceHalt | allHalt | cancelEach | abort => exact Passage.idle _
  | errand _ _ hq | emit hq | forwarded _ _ hq | forwardedCall _ hq => exact hq.idle
  | abortDone h | conclude h | cascadeComplete _ _ _ h | cancelOne h => exact h.idle
  | raceDecided | allFailed =>
    exact List.forall_mem_append.2 ⟨Passage.idle _, Event.idle_settled _ _⟩
  | answerSettles | cancelSettles | allComplete | allLost => exact Event.idle_settled _ _
  | @poll _ u b a =>
    intro e he
    cases List.mem_singleton.1 he
    have hne : u ≠ t := by
      rintro rfl
      exact hp _ _ rfl
    exact ⟨rfl, if_neg hne, rfl⟩
  | triggerSettles _ _ hq =>
    exact hother hx (List.forall_mem_append.2 ⟨hq.idle, Event.idle_settled _ _⟩)
  | @triggerForks _ u =>
    have hne : u ≠ t := by
      rintro rfl
      exact hx _ _ _ rfl
    refine hother hx fun e he => ?_
    rcases List.mem_cons.1 he with rfl | he
    · exact ⟨rfl, rfl, if_neg hne⟩
    · exact Event.idle_settled _ _ e he
  | triggerSuspends _ _ _ _ hq => exact hother hx hq.idle
  | triggerCalls | triggerCancels | triggerOpens => exact hother hx hnil
  | _ => exact hnil

theorem Intervenes.idles (h : Intervenes i past k k' G es) : ∀ e ∈ es, e.Idle t := by
  cases h with
  | quietly hq | queues _ hq | settles _ _ hq => exact hq.idle
  | spawns =>
    intro e he
    cases List.mem_singleton.1 he
    exact ⟨rfl, rfl, rfl⟩
  | _ => nofun

end

/-- Outside of its own steps a task gets nothing, and starts nothing. -/
theorem Scenario.Visits.idle_step {s : Scenario} {x : Instr} {rest : List Instr} {w : World}
    {c' : Config} {i : MiddlewareId} {t : TaskId} (h : s.Visits ⟨x :: rest, w⟩) (hi : w.Has i)
    (hc : Config.step ⟨x :: rest, w⟩ = some c') (hp : ∀ b a, x ≠ .poll ⟨i, t⟩ b a)
    (hx : ∀ b nests e, x ≠ .trigger ⟨i, t⟩ b nests e) :
    ∃ es, c'.world.past i = es ++ w.past i ∧ ∀ e ∈ es, e.Idle t := by
  obtain ⟨next, -, rfl, hm⟩ := Config.meets_of_step h.knows hi hc
  cases hm with
  | own _ ha hd => exact ⟨_, ha.past, fun e he => hd.idles hp hx e (List.mem_reverse.1 he)⟩
  | foreign _ ha hin => exact ⟨_, ha.past, fun e he => hin.idles e (List.mem_reverse.1 he)⟩
  | @drops u b hx hn =>
    subst hx hn
    refine ⟨[.bodyDropped u], World.past_record _, fun e he => ?_⟩
    cases List.mem_singleton.1 he
    exact ⟨rfl, rfl, rfl⟩
  | dies _ _ _ _ hpast => exact ⟨[], hpast, nofun⟩

/-! ## Where a watcher is -/

/-- What a watcher has to see to. -/
structure Concern where
  /-- The actions that were broadcast to it, and that it has forked no worker for. -/
  due : List Action := []
  /-- Those of them that its body was polled with. -/
  got : List Action := []
  /-- The worker before, unless it was cleared away. -/
  before : Option TaskId := none

namespace WatcherBody

variable {i : MiddlewareId} {b : WatcherBody} {q : Concern}

/-- The worker that a watcher remembers is a task of its own middleware. -/
def Minds (i : MiddlewareId) (b : WatcherBody) : Prop := ∀ u, b.last = some u → u.owner = i

/-- A watcher asks for an effect. -/
inductive Asks (i : MiddlewareId) (b : WatcherBody) : Effect → Concern → Prop
  | takes (h : b.phase = .taking) :
      Asks i b (.take .bus b.plan.pattern) { before := b.last.map (·.id) }
  | clears {a : Action} {u : TaskRef} (h : b.phase = .clearing a) (own : u.owner = i) :
      Asks i b (.cancel (some u)) ⟨[a], [a], some u.id⟩
  | forks {a : Action} (h : b.phase = .forking) :
      Asks i b (.fork (b.plan.workerFor a) false) ⟨[a], [a], none⟩

/-- The effect that a watcher has asked for settles with a signal. -/
inductive Hears (i : MiddlewareId) (b : WatcherBody) : Signal → Concern → Prop
  | action {a : Action} (h : b.phase = .taking) :
      Hears i b (.value (.action a)) ⟨[a], [], b.last.map (·.id)⟩
  | ended (h : b.phase = .taking) : Hears i b .ended { before := b.last.map (·.id) }
  | cleared {a : Action} (h : b.phase = .clearing a) : Hears i b (.value .unit) ⟨[a], [a], none⟩
  | forked {u : TaskRef} (h : b.phase = .forking) (own : u.owner = i) :
      Hears i b (.value (.task u)) { before := some u.id }

theorem Hears.not_fresh {signal : Signal} (h : b.Hears i signal q) : b.phase ≠ .fresh := by
  cases h with
  | action h | ended h | cleared h | forked h => rw [h]; nofun

theorem Asks.not_fresh {e : Effect} (h : b.Asks i e q) : b.phase ≠ .fresh := by
  cases h with
  | takes h | clears h | forks h => rw [h]; nofun

/-- A poll of a watcher: it goes on, and asks for another effect. -/
structure Resumes (i : MiddlewareId) (b : WatcherBody) (a : Option Answer) (q : Concern)
    (b' : WatcherBody) (e : Effect) (q' : Concern) : Prop where
  result : b.resume a = (b', .yielded e)
  plan : b'.plan = b.plan
  minds : b'.Minds i
  asks : b'.Asks i e q'
  due : q'.due = q.due
  got : q'.got = q.got ++ (actionIn a).toList
  before : b.plan.mode = .latest → q'.before = q.before

/-- A watcher that was not polled yet begins with a take, whatever it is told. -/
theorem resumes_fresh (h : b.phase = .fresh) (hm : b.Minds i) :
    ∃ b' e, b.Resumes i none { before := b.last.map (·.id) } b' e { before := b.last.map (·.id) } := by
  refine ⟨{ b with phase := .taking }, .take .bus b.plan.pattern, ?_, rfl, hm, .takes rfl, rfl, rfl,
    fun _ => rfl⟩
  unfold resume
  rw [h]
  rfl

/-- A watcher that hears what it expects goes on, and keeps what is due. -/
theorem Hears.resumes {signal : Signal} {a : Answer} (h : b.Hears i signal q)
    (ha : opening (some signal) = some (some a)) (hm : b.Minds i) :
    ∃ b' e q', b.Resumes i (some a) q b' e q' := by
  cases h with
  | ended => cases ha
  | @action v h =>
    cases ha
    cases hmode : b.plan.mode with
    | every =>
      refine ⟨{ b with phase := .forking }, _, _, ?_, rfl, hm, .forks rfl, rfl, rfl, fun hl => ?_⟩
      · simp [WatcherBody.resume, h, hmode, forkWorker]
      · cases hmode.symm.trans hl
    | latest =>
      cases hlast : b.last with
      | none =>
        refine ⟨{ b with phase := .forking }, _, _, ?_, rfl, hm, .forks rfl, rfl, rfl, fun _ => ?_⟩
        · simp [WatcherBody.resume, h, hmode, hlast, forkWorker]
        · rfl
      | some u =>
        refine ⟨{ b with phase := .clearing v, last := none }, _, _, ?_, rfl, nofun,
          .clears rfl (hm u hlast), rfl, rfl, fun _ => ?_⟩
        · simp [WatcherBody.resume, h, hmode, hlast]
        · rfl
  | cleared h =>
    cases ha
    refine ⟨{ b with phase := .forking }, _, _, ?_, rfl, hm, .forks rfl, rfl, rfl, fun _ => rfl⟩
    simp [WatcherBody.resume, h, forkWorker]
  | @forked u h own =>
    cases ha
    cases hmode : b.plan.mode with
    | every =>
      refine ⟨{ b with phase := .taking }, _, _, ?_, rfl, hm, .takes rfl, rfl, rfl, fun hl => ?_⟩
      · simp [WatcherBody.resume, h, hmode, awaitAction]
      · cases hmode.symm.trans hl
    | latest =>
      refine ⟨{ b with phase := .taking, last := some u }, _, _, ?_, rfl, ?_, .takes rfl, rfl, rfl,
        fun _ => rfl⟩
      · simp [WatcherBody.resume, h, hmode, awaitAction]
      · rintro _ ⟨⟩
        exact own

end WatcherBody

/-- What a watcher takes is on the bus, and nothing is on its way to it. -/
structure Config.Awaits (c : Config) (r : EffectRef) (p : Pattern) : Prop where
  takes : c.world.TakesFrom r .bus p
  silent : ∀ signal, ¬ c.Brings r signal

/-- The instruction of a watcher whose step is under way. -/
inductive Config.Attends (c : Config) (i : MiddlewareId) (t : TaskId) (b : WatcherBody) :
    Concern → Instr → Prop
  | starts (h : b.phase = .fresh) :
      Attends c i t b { before := b.last.map (·.id) } (.poll ⟨i, t⟩ (.watcher b) none)
  | polls {signal : Signal} {q : Concern} {a : Answer} (h : b.Hears i signal q)
      (ha : opening (some signal) = some (some a)) :
      Attends c i t b q (.poll ⟨i, t⟩ (.watcher b) (some a))
  | polled {e : Effect} {q : Concern} (h : b.Asks i e q) :
      Attends c i t b q (.polled ⟨i, t⟩ (.watcher b) (.yielded e))
  | triggers {e : Effect} {q : Concern} (h : b.Asks i e q) :
      Attends c i t b q (.trigger ⟨i, t⟩ (.watcher b) [] e)
  /-- Either the worker before is about to be cancelled, or it was. -/
  | clears {a : Action} {y : EffectId} {before : Option TaskId} (h : b.phase = .clearing a)
      (hu : ∀ u, before = some u → ∃ rest, c.todo = .cancel i u :: rest) :
      Attends c i t b ⟨[a], [a], before⟩ (.cancelDone ⟨i, t⟩ (.watcher b) [] y)
  | begun {signal : Signal} {q : Concern} (h : b.Hears i signal q) :
      Attends c i t b q (.begun ⟨i, t⟩ (.watcher b) [] (.immediate signal))
  | begunTake {y : EffectId} (h : b.phase = .taking) (hy : c.Awaits ⟨i, y⟩ b.plan.pattern) :
      Attends c i t b { before := b.last.map (·.id) } (.begun ⟨i, t⟩ (.watcher b) [] (.pending y))
  | yields {signal : Signal} {q : Concern} (h : b.Hears i signal q) (hne : signal ≠ .ended) :
      Attends c i t b q (.leave ⟨i, t⟩ (.watcher b) (.yielded signal))
  | parks {y : EffectId} (h : b.phase = .taking) (hy : c.Awaits ⟨i, y⟩ b.plan.pattern) :
      Attends c i t b { before := b.last.map (·.id) } (.leave ⟨i, t⟩ (.watcher b) (.suspended y))
  | ends (h : b.phase = .taking) :
      Attends c i t b { before := b.last.map (·.id) } (.leave ⟨i, t⟩ (.watcher b) .ended)

/-- A watcher stands somewhere on its way. -/
inductive Config.Watches (c : Config) (i : MiddlewareId) (t : TaskId) (b : WatcherBody) :
    Concern → Prop
  /-- It was not polled yet. -/
  | fresh (hq : c.world.rests i t = some (.watcher b, none)) (h : b.phase = .fresh)
      (only : ∀ r, r.Steps t → c.Due i r → r = .start t) :
      Watches c i t b { before := b.last.map (·.id) }
  /-- It stands aside. -/
  | aside {signal : Signal} {q : Concern} (hq : c.world.rests i t = some (.watcher b, none))
      (h : b.Hears i signal q) (hne : signal ≠ .ended)
      (only : ∀ r, r.Steps t → c.Due i r → r = .resume t signal) : Watches c i t b q
  /-- It is parked on its take. -/
  | parked {y : EffectId} {due : List Action}
      (hq : c.world.rests i t = some (.watcher b, some y)) (h : b.phase = .taking)
      (takes : c.world.TakesFrom ⟨i, y⟩ .bus b.plan.pattern)
      (hears : ∀ signal, c.Brings ⟨i, y⟩ signal → b.Hears i signal ⟨due, [], b.last.map (·.id)⟩)
      (brought : due ≠ [] → ∃ signal, c.Brings ⟨i, y⟩ signal) :
      Watches c i t b ⟨due, [], b.last.map (·.id)⟩
  | turn {y : Instr} {q : Concern} (hy : y ∈ framesOf i c.todo) (h : c.Attends i t b q y) :
      Watches c i t b q
  /-- The source of its take has ended, and its body is about to be dropped. -/
  | leaves {rest : List Instr} (h : b.phase = .taking)
      (htodo : c.todo = .dropBody ⟨i, t⟩ (.watcher b) :: rest) :
      Watches c i t b { before := b.last.map (·.id) }

/-- The actions that the next step broadcasts: one if the host lets it through. -/
def Config.broadcasts (c : Config) (i : MiddlewareId) : List Action :=
  match c.todo with
  | .forwarded j a _ :: _ =>
    if j = i ∧ (c.world.middlewares.get? i).any (fun m => (m.host.answer a).isOk) then [a] else []
  | _ => []

/-- A watcher is where it was, or it goes on, and it starts workers for some actions. -/
structure Config.Tends (c : Config) (i : MiddlewareId) (t : TaskId) (b : WatcherBody) (q : Concern)
    (c' : Config) (workers : List (Action × TaskId)) (b' : WatcherBody) (q' : Concern) : Prop where
  plan : b'.plan = b.plan
  minds : b'.Minds i
  polled : b.phase ≠ .fresh → b'.phase ≠ .fresh
  watches : c'.Watches i t b' q'
  due : b.phase ≠ .fresh →
    q.due ++ (c.broadcasts i).filter (fun a => b.plan.pattern.accepts (.action a)) =
      workers.map Prod.fst ++ q'.due
  before : b.plan.mode = .latest → workers = [] → q'.before = q.before ∨
    q'.before = none ∧ ∀ u, q.before = some u → ¬ (c'.world.core i).Live u
  past : ∃ es, c'.world.past i = es ++ c.world.past i ∧
    forksOf t es = workers.map (fun p => (b.plan.workerFor p.1, false)) ∧
    q.got ++ actionsOf t es = workers.map Prod.fst ++ q'.got ∧
    childrenOf t es = workers.map Prod.snd
  born : ∀ p ∈ workers, workers = [p] ∧ q.before = none ∧ q'.before = some p.2 ∧ t < p.2 ∧
    c'.world.rests i p.2 = some ((b.plan.workerFor p.1).program.start p.2, none)

end SagaMachine
