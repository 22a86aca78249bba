import SagaMachine.Proofs.Encounters

/-!
# Run to completion

The driver of a middleware is entered once at a time, and it polls one body at a time. Whatever
user code asks of a middleware while its driver is at work is only taken note of: reactions are
scheduled, errands are queued, new tasks wait for their start, and tasks are torn down, but no
body is polled before the poll under way has returned.

Main statement: `Scenario.Visits.run_to_completion`.
-/

namespace SagaMachine

/-! ## Polls, steps and loops under way -/

/-- The task whose body was called by a poll that an instruction goes on with. -/
def Instr.poll? : Instr → Option TaskId
  | .advance turn _ _ | .polled turn _ _ => some turn.task
  | _ => none

/-- The polls of bodies of a middleware that have not returned. -/
def pollsOf (i : MiddlewareId) (todo : List Instr) : List TaskId :=
  (framesOf i todo).filterMap Instr.poll?

/-- The tasks of a middleware whose steps are under way. -/
def stepsOf (i : MiddlewareId) (todo : List Instr) : List TaskId :=
  (framesOf i todo).filterMap Instr.turn?

/-- A loop over an agenda goes on. -/
def Instr.isDrain : Instr → Bool
  | .drain _ => true
  | _ => false

/-- The loops over the agenda of a middleware that are under way. -/
def drainsOf (i : MiddlewareId) (todo : List Instr) : List Instr :=
  (framesOf i todo).filter Instr.isDrain

/-- An instruction of the teardown of tasks. -/
def Instr.TearsDown : Instr → Prop
  | .cancel .. | .cancelEach .. | .cancelOne .. | .cascade .. | .abort .. | .abortDone .. |
    .conclude .. => True
  | _ => False

/-- The body of a task is polled. -/
def Event.IsPoll : Event → Prop
  | .polled .. => True
  | _ => False

/-- A task goes on: its body is polled, or an effect of it is started. -/
def Event.IsAct : Event → Prop
  | .polled .. | .triggered .. => True
  | _ => False

theorem Event.IsPoll.isAct {e : Event} (h : e.IsPoll) : e.IsAct := by
  cases e with
  | polled => trivial
  | _ => exact h.elim

theorem Quiet.not_isAct {es : List Event} (h : Quiet es) : ∀ e ∈ es, ¬ e.IsAct := by
  intro e he
  have hq := h e he
  cases e with
  | polled | triggered => exact hq.elim
  | _ => exact id

theorem Passage.not_isAct (ps : List Passage) : ∀ e ∈ ps.map Passage.event, ¬ e.IsAct := by
  intro e he
  obtain ⟨p, -, rfl⟩ := List.mem_map.1 he
  cases p <;> exact id

theorem Buries.not_isAct {past : List Event} {k k' : Core} {t : TaskId} {outcome : Outcome}
    {c : Option Cascade} {es : List Event} (h : Buries past k t outcome k' c es) :
    ∀ e ∈ es, ¬ e.IsAct := by
  cases h with
  | absent => exact fun e he => by cases he
  | gone _ _ hq =>
    intro e he
    rcases List.mem_cons.1 he with rfl | he
    · exact id
    · exact hq.not_isAct e he

/--
The driver of a middleware is entered at most once, and at most one of its tasks is stepped: the
one that its engine notes. Jobs, and user code that they run, come in only between two steps.
-/
structure Config.Exclusive (i : MiddlewareId) (c : Config) : Prop where
  driving : (c.world.engine i).driving = true ↔ framesOf i c.todo ≠ []
  drains : (drainsOf i c.todo).length ≤ 1
  steps : stepsOf i c.todo = (c.world.engine i).current.toList
  polls : (pollsOf i c.todo).Sublist (stepsOf i c.todo)
  between : ∀ x ∈ framesOf i c.todo, x.Works ∨ x.Calls ∨ x.Ends →
    (c.world.engine i).current = none

/-- What a step means for the polls of the bodies of a middleware. -/
inductive Config.Polls (i : MiddlewareId) (c c' : Config) : Prop
  /-- A body is polled; no other poll is under way, and the step is that of its task. -/
  | calls {t : TaskId} {b : Body} {a : Option Answer} {rest : List Instr}
      (head : c.todo = .poll ⟨i, t⟩ b a :: rest) (before : pollsOf i c.todo = [])
      (after : pollsOf i c'.todo = [t]) (current : (c.world.engine i).current = some t)
      (past : c'.world.past i = .polled t a :: c.world.past i)
  /-- The poll under way returns. -/
  | returns {t : TaskId} {b : Body} {step : Step Effect} {rest : List Instr}
      (head : c.todo = .polled ⟨i, t⟩ b step :: rest) (before : pollsOf i c.todo = [t])
      (after : pollsOf i c'.todo = []) (past : c'.world.past i = c.world.past i)
  /-- Nothing is polled, and nothing returns. -/
  | keeps {es : List Event} (same : pollsOf i c'.todo = pollsOf i c.todo)
      (past : c'.world.past i = es ++ c.world.past i) (silent : ∀ e ∈ es, ¬ e.IsPoll)

/--
An engine takes note of something: more work is on its agenda, new tasks wait for their start,
and other tasks are torn down at most.
-/
structure Core.Defers (k k' : Core) : Prop extends k.Paced k', k.Grows k' where
  errands : ∃ es, k'.agenda.errands = k.agenda.errands ++ es
  tasks : ∀ {t p'}, k'.posture t = some p' → (k.posture t = none ∧ p'.status = .created) ∨
    ∃ p, k.posture t = some p ∧ (p'.status = p.status ∨ p'.status.isTerminal = true) ∧
      (p'.hasBody = true → p.hasBody = true)

/-- A middleware only takes note of a step, and goes on with teardown at most. -/
structure Config.Defers (i : MiddlewareId) (c c' : Config) : Prop where
  core : (c.world.core i).Defers (c'.world.core i)
  frames : ∀ y ∈ framesOf i c'.todo, y ∈ framesOf i c.todo ∨ y.TearsDown
  past : ∃ es, c'.world.past i = es ++ c.world.past i ∧ ∀ e ∈ es, ¬ e.IsAct

/-! ## How frames are stacked -/

section

variable {i : MiddlewareId} {d : Option TaskId} {F : List Instr} {x : Instr}

theorem Instr.Works.passive (h : x.Works) : x.turn? = none ∧ x.isDrain = false := by
  cases x with
  | poll | advance | polled | trigger | answer | cancelDone | begun | leave | drain => exact h.elim
  | _ => exact ⟨rfl, rfl⟩

theorem Instr.Calls.passive (h : x.Calls) : x.turn? = none ∧ x.isDrain = false := by
  cases x with
  | poll | advance | polled | trigger | answer | cancelDone | begun | leave | drain => exact h.elim
  | _ => exact ⟨rfl, rfl⟩

theorem Instr.Ends.passive (h : x.Ends) : x.turn? = none ∧ x.isDrain = false := by
  cases x with
  | poll | advance | polled | trigger | answer | cancelDone | begun | leave | drain => exact h.elim
  | _ => exact ⟨rfl, rfl⟩

theorem Instr.Cancels.passive (h : x.Cancels d) : x.turn? = none ∧ x.isDrain = false := by
  cases x with
  | poll | advance | polled | trigger | answer | cancelDone | begun | leave | drain => exact h.elim
  | _ => exact ⟨rfl, rfl⟩

theorem Instr.isDrain_of_turn {t : TaskId} (h : x.turn? = some t) : x.isDrain = false := by
  cases x with
  | drain => cases h
  | _ => rfl

/-- Jobs and failures are not among what cancels tasks. -/
theorem Instr.Cancels.not_between (h : x.Cancels d) : ¬ (x.Works ∨ x.Calls ∨ x.Ends) := by
  cases x with
  | cascade _ c => cases c <;> simp_all [Cancels, Works, Calls, Ends, IsJob]
  | cancel | cancelEach | cancelOne => simp [Works, Calls, Ends, IsJob]
  | _ => exact h.elim

theorem Instr.not_between_of_turn {t : TaskId} (h : x.turn? = some t) :
    ¬ (x.Works ∨ x.Calls ∨ x.Ends) := by
  cases x with
  | poll | advance | polled | trigger | answer | cancelDone | begun | leave =>
    simp [Works, Calls, Ends, IsJob]
  | _ => cases h

/-- One step at most is under way: that of the task which the engine notes. -/
theorem Stack.steps (h : Stack i d F) : F.filterMap Instr.turn? = d.toList := by
  induction h with
  | rest | drain => rfl
  | works h =>
    rw [List.filterMap_cons_none h.passive.1]
    rfl
  | calls h =>
    rw [List.filterMap_cons_none h.passive.1]
    rfl
  | turn h =>
    rw [List.filterMap_cons_some h]
    rfl
  | cancels h _ _ ih => rw [List.filterMap_cons_none h.passive.1, ih]
  | ends h _ _ ih => rw [List.filterMap_cons_none h.passive.1, ih]

/-- The loop over the agenda is entered at most once. -/
theorem Stack.drains (h : Stack i d F) : (F.filter Instr.isDrain).length ≤ 1 := by
  induction h with
  | rest => exact Nat.zero_le 1
  | drain => exact Nat.le_refl 1
  | works h =>
    rw [List.filter_cons_of_neg (by simp [h.passive.2])]
    exact Nat.le_refl 1
  | calls h => simp [h.passive]
  | turn h =>
    rw [List.filter_cons_of_neg (by simp [Instr.isDrain_of_turn h])]
    exact Nat.le_refl 1
  | cancels h _ _ ih => simpa [h.passive] using ih
  | ends h _ _ ih => simpa [h.passive] using ih

/-- No step is under way while a job is carried out, or a task ends that is not cancelled. -/
theorem Stack.between (h : Stack i d F) (hx : x ∈ F) (hj : x.Works ∨ x.Calls ∨ x.Ends) : d = none := by
  induction h with
  | rest | drain | works | calls | ends => rfl
  | turn ht =>
    rcases List.mem_cons.1 hx with rfl | hx
    · exact absurd hj (Instr.not_between_of_turn ht)
    · cases List.mem_singleton.1 hx
      simp [Instr.Works, Instr.Calls, Instr.Ends, Instr.IsJob] at hj
  | cancels hc _ _ ih =>
    rcases List.mem_cons.1 hx with rfl | hx
    · exact absurd hj hc.not_between
    · exact ih hx

theorem Instr.turn?_of_poll? {t : TaskId} (h : x.poll? = some t) : x.turn? = some t := by
  cases x with
  | advance | polled => exact h
  | _ => cases h

/-- A poll under way is part of a step under way. -/
theorem polls_sublist_steps (F : List Instr) :
    (F.filterMap Instr.poll?).Sublist (F.filterMap Instr.turn?) := by
  induction F with
  | nil => exact .refl _
  | cons x F ih =>
    cases hp : x.poll? with
    | none =>
      rw [List.filterMap_cons_none hp]
      cases ht : x.turn? with
      | none => rwa [List.filterMap_cons_none ht]
      | some t =>
        rw [List.filterMap_cons_some ht]
        exact ih.cons t
    | some t =>
      rw [List.filterMap_cons_some hp, List.filterMap_cons_some (Instr.turn?_of_poll? hp)]
      exact ih.cons_cons t

/-- Wherever the frames are stacked, the driver is entered once at most. -/
theorem Framed.exclusive {c : Config} (h : Framed i (c.view i)) : c.Exclusive i where
  driving := h.driving
  drains := h.stack.drains
  steps := h.stack.steps
  polls := polls_sublist_steps _
  between _ hx hj := h.stack.between hx hj

end

/-! ## Polls -/

section

variable {i : MiddlewareId} {past es : List Event} {x : Instr} {k k' : Core} {G F : List Instr}
  {D : List TaskId}

theorem Instr.IsScript.poll? {turn : Turn} {g : Instr} (h : g.IsScript turn) :
    g.poll? = some turn.task := by
  cases g with
  | advance | polled =>
    cases h
    rfl
  | _ => exact h.elim

/-- A poll under way is the first frame, but for frames that cancel tasks. -/
theorem filterMap_poll?_cancels (ts : List TaskId) :
    (ts.map (Instr.cancel i)).filterMap Instr.poll? = [] := by
  simp [Instr.poll?]

theorem filterMap_poll?_cascades (cs : List Cascade) :
    (cs.map (Instr.cascade i)).filterMap Instr.poll? = [] := by
  simp [Instr.poll?]

theorem Begins.filterMap_poll? {t : TaskId} {expected : Option EffectId} {signal : Option Signal}
    (h : Begins i k t expected signal k' G) : G.filterMap Instr.poll? = [] := by
  cases h <;> rfl

/-- What a frame means for the polls under way. -/
theorem Does.polls (h : Does i past x k k' G D es) :
    (∃ t b a g, x = .poll ⟨i, t⟩ b a ∧ G = [g] ∧ g.poll? = some t ∧ es = [.polled t a]) ∨
    (∃ t b step, x = .polled ⟨i, t⟩ b step ∧ G.filterMap Instr.poll? = [] ∧ es = []) ∨
    (G.filterMap Instr.poll? = x.poll?.toList ∧ ∀ e ∈ es, ¬ e.IsPoll) := by
  have hnil : ∀ e ∈ ([] : List Event), ¬ e.IsPoll := fun e he => by cases he
  have hacts : (∀ e ∈ es, ¬ e.IsAct) → ∀ e ∈ es, ¬ e.IsPoll :=
    fun h e he hp => h e he hp.isAct
  cases h with
  | poll hg => exact Or.inl ⟨_, _, _, _, rfl, rfl, hg.poll?, rfl⟩
  | polledHalted | polledComplete | polledYielded => exact Or.inr (Or.inl ⟨_, _, _, rfl, rfl, rfl⟩)
  | advance hg =>
    refine Or.inr (Or.inr ⟨?_, hnil⟩)
    rw [List.filterMap_cons_some hg.poll?]
    rfl
  | start h | resume h => exact Or.inr (Or.inr ⟨h.filterMap_poll?, hnil⟩)
  | wake _ _ h => exact Or.inr (Or.inr ⟨h.filterMap_poll?, hacts (Passage.not_isAct _)⟩)
  | settle => exact Or.inr (Or.inr ⟨rfl, hacts (Passage.not_isAct _)⟩)
  | errand hG _ hq =>
    refine Or.inr (Or.inr ⟨?_, hacts hq.not_isAct⟩)
    rcases hG with rfl | ⟨g, rfl, hg⟩
    · rfl
    · cases g with
      | advance | polled => exact hg.elim
      | _ => rfl
  | emit hq | forwarded _ _ hq | forwardedCall _ hq =>
    exact Or.inr (Or.inr ⟨rfl, hacts hq.not_isAct⟩)
  | triggerSettles _ _ hq =>
    refine Or.inr (Or.inr ⟨rfl, fun e he => ?_⟩)
    rcases List.mem_cons.1 he with rfl | he
    · exact id
    · rcases List.mem_append.1 he with he | he
      · exact fun hp => hq.not_isAct e he hp.isAct
      · cases List.mem_singleton.1 he
        exact id
  | triggerForks => exact Or.inr (Or.inr ⟨rfl, by simp [Event.IsPoll]⟩)
  | triggerSuspends _ _ _ _ hq =>
    refine Or.inr (Or.inr ⟨rfl, fun e he => ?_⟩)
    rcases List.mem_cons.1 he with rfl | he
    · exact id
    · exact fun hp => hq.not_isAct e he hp.isAct
  | triggerCalls | triggerCancels | triggerOpens | answerSettles | cancelSettles | allComplete |
    allLost =>
    exact Or.inr (Or.inr ⟨rfl, by simp [Event.IsPoll]⟩)
  | begunWithdraws | raceHalt | allHalt | cancelEach =>
    exact Or.inr (Or.inr ⟨rfl, hacts (Passage.not_isAct _)⟩)
  | raceDecided | allFailed =>
    refine Or.inr (Or.inr ⟨rfl, fun e he => ?_⟩)
    rcases List.mem_append.1 he with he | he
    · exact fun hp => Passage.not_isAct _ e he hp.isAct
    · cases List.mem_singleton.1 he
      exact id
  | abort =>
    refine Or.inr (Or.inr ⟨?_, hacts (Passage.not_isAct _)⟩)
    rw [List.filterMap_append, filterMap_poll?_cancels]
    rfl
  | abortDone h | conclude h | cascadeComplete _ _ _ h =>
    exact Or.inr (Or.inr ⟨filterMap_poll?_cascades _, hacts h.not_isAct⟩)
  | cancelOne h => exact Or.inr (Or.inr ⟨rfl, hacts h.not_isAct⟩)
  | cancelledAll => exact Or.inr (Or.inr ⟨filterMap_poll?_cascades _, hnil⟩)
  | _ => exact Or.inr (Or.inr ⟨rfl, hnil⟩)

theorem Drives.filterMap_poll? {work : List Instr} (h : Drives i k work k' G)
    (hw : work.filterMap Instr.poll? = []) : G.filterMap Instr.poll? = [] := by
  cases h with
  | within => exact hw
  | starts =>
    rw [List.filterMap_append, hw]
    rfl

/-- User code polls no body of the middleware. -/
theorem Intervenes.silences (h : Intervenes i past k k' G es) :
    G.filterMap Instr.poll? = [] ∧ ∀ e ∈ es, ¬ e.IsAct := by
  cases h with
  | quietly hq | queues _ hq => exact ⟨rfl, hq.not_isAct⟩
  | spawns h => exact ⟨h.filterMap_poll? rfl, by simp [Event.IsAct]⟩
  | settles _ h hq => exact ⟨h.filterMap_poll? rfl, hq.not_isAct⟩
  | cancels h => exact ⟨h.filterMap_poll? rfl, fun e he => by cases he⟩
  | sends => exact ⟨rfl, fun e he => by cases he⟩

end

/-! ## Taking note -/

namespace Core.Defers

variable {k k₁ k' : Core} {t : TaskId}

theorem refl (k : Core) : k.Defers k where
  driving := rfl
  current := rfl
  stack := rfl
  fresh := ⟨[], by simp⟩
  errands := ⟨[], by simp⟩
  tasks {t p'} h := Or.inr ⟨p', h, Or.inl rfl, id⟩

/-- More work is put on the agenda. -/
theorem grow (h : k.Defers k₁) (rs : List Reaction) (es : List Errand) : k.Defers (k₁.grow rs es) where
  driving := h.driving
  current := h.current
  stack := h.stack
  fresh := by
    obtain ⟨rs', hrs⟩ := h.fresh
    exact ⟨rs' ++ rs, by simp [Core.grow, hrs]⟩
  errands := by
    obtain ⟨es', hes⟩ := h.errands
    exact ⟨es' ++ es, by simp [Core.grow, hes]⟩
  tasks := h.tasks

theorem schedule (h : k.Defers k₁) (rs : List Reaction) : k.Defers (k₁.schedule rs) :=
  k₁.grow_reactions rs ▸ h.grow rs []

/-- What is left of an engine when nothing but its wait table and its verdict changes. -/
theorem congr (h : k.Defers k₁) (hp : k'.posture = k₁.posture) (ha : k'.agenda = k₁.agenda)
    (hd : k'.driving = k₁.driving) (hc : k'.current = k₁.current) : k.Defers k' where
  driving := hd.trans h.driving
  current := hc.trans h.current
  stack := by rw [ha, h.stack]
  fresh := by simpa [ha] using h.fresh
  errands := by simpa [ha] using h.errands
  tasks ht := h.tasks (hp ▸ ht)

theorem withdraw (h : k.Defers k₁) (ids : List EffectId) : k.Defers (k₁.withdraw ids) :=
  h.congr rfl rfl rfl rfl

/-- A task changes, but it is not made to run. -/
theorem alter {f : Posture → Posture} (hf : ∀ p, ((f p).status = p.status ∨
    (f p).status.isTerminal = true) ∧ ((f p).hasBody = true → p.hasBody = true)) :
    k.Defers (k.alter t f) where
  driving := rfl
  current := rfl
  stack := rfl
  fresh := ⟨[], by simp [Core.alter]⟩
  errands := ⟨[], by simp [Core.alter]⟩
  tasks {u p'} h := by
    rw [posture_alter] at h
    split at h
    · obtain ⟨p, hp, rfl⟩ := Option.map_eq_some_iff.1 h
      rename_i hut
      exact Or.inr ⟨p, hut ▸ hp, (hf p).1, (hf p).2⟩
    · exact Or.inr ⟨p', h, Or.inl rfl, id⟩

theorem agenda_bury (k : Core) (t : TaskId) : (k.bury t).agenda = k.agenda := by
  rw [k.bury_eq]

theorem agenda_cancelAll (k : Core) (order : List TaskId) : (k.cancelAll order).agenda = k.agenda := by
  rw [k.cancelAll_eq]

/-- A task leaves the table. -/
theorem bury (h : k.Defers k₁) (t : TaskId) : k.Defers (k₁.bury t) where
  driving := (k₁.paced_bury t).driving.trans h.driving
  current := (k₁.paced_bury t).current.trans h.current
  stack := by rw [agenda_bury, h.stack]
  fresh := by simpa [agenda_bury] using h.fresh
  errands := by simpa [agenda_bury] using h.errands
  tasks {u p'} hp := by
    rw [posture_bury] at hp
    split at hp
    · cases hp
    · obtain ⟨q, hq, rfl⟩ := Option.map_eq_some_iff.1 hp
      have hq := h.tasks hq
      rw [k₁.shed_eq]
      exact hq

theorem cancelAll (k : Core) (order : List TaskId) : k.Defers (k.cancelAll order) where
  driving := (k.paced_cancelAll order).driving
  current := (k.paced_cancelAll order).current
  stack := by rw [agenda_cancelAll]
  fresh := ⟨[], by simp [agenda_cancelAll]⟩
  errands := ⟨[], by simp [agenda_cancelAll]⟩
  tasks {u p'} hp := by
    rw [posture_cancelAll] at hp
    obtain ⟨q, hq, rfl⟩ := Option.map_eq_some_iff.1 hp
    refine Or.inr ⟨q, hq, ?_, ?_⟩
    · split
      · exact Or.inr rfl
      · exact Or.inl rfl
    · split <;> exact id

/-- A root task is created. -/
theorem create (hn : k.posture k.nextTask = none) : k.Defers (k.create none false) where
  driving := rfl
  current := rfl
  stack := rfl
  fresh := ⟨[], by simp [Core.create, Core.add]⟩
  errands := ⟨[], by simp [Core.create, Core.add]⟩
  tasks {u p'} hp := by
    have hroot : none ≠ some k.nextTask := fun h => by cases h
    rw [k.posture_create false hroot] at hp
    split at hp
    · rename_i hu
      cases hp
      exact Or.inl ⟨hu ▸ hn, rfl⟩
    · obtain ⟨q, hq, rfl⟩ := Option.map_eq_some_iff.1 hp
      rw [k.welcome_eq]
      exact Or.inr ⟨q, hq, Or.inl rfl, id⟩

end Core.Defers

section

variable {i : MiddlewareId} {past es : List Event} {x : Instr} {k k₁ k' : Core} {G : List Instr}
  {D : List TaskId}

theorem Buries.defers {t : TaskId} {outcome : Outcome} {c : Option Cascade}
    (h : Buries past k₁ t outcome k' c es) (hk : k.Defers k₁) : k.Defers k' := by
  cases h with
  | absent => exact hk
  | gone => exact (hk.bury t).schedule _

/-- Frames that tear tasks down leave the rest as it is. -/
theorem Does.defers (h : Does i past x k k' G D es) (hx : x.TearsDown) :
    k.Defers k' ∧ (∀ y ∈ G, y.TearsDown) ∧ ∀ e ∈ es, ¬ e.IsAct := by
  have hnil : ∀ e ∈ ([] : List Event), ¬ e.IsAct := fun e he => by cases he
  have hnone : ∀ y ∈ ([] : List Instr), y.TearsDown := fun y hy => by cases hy
  have hone : ∀ {z : Instr}, z.TearsDown → ∀ y ∈ [z], y.TearsDown := fun hz y hy => by
    rwa [List.mem_singleton.1 hy]
  have hcascades : ∀ cs : List Cascade, ∀ y ∈ cs.map (Instr.cascade i), y.TearsDown := by
    intro cs y hy
    obtain ⟨c, -, rfl⟩ := List.mem_map.1 hy
    trivial
  cases h with
  | abortLate | cascadeLate | cancelLate => exact ⟨.refl k, hnone, hnil⟩
  | cascadeAbort | cancelledLate => exact ⟨.refl k, hone trivial, hnil⟩
  | abort =>
    refine ⟨Core.Defers.withdraw (.alter fun p => ⟨Or.inr rfl, fun hb => ?_⟩) _, fun y hy => ?_,
      Passage.not_isAct _⟩
    · cases hb
    rcases List.mem_append.1 hy with hy | hy
    · obtain ⟨u, -, rfl⟩ := List.mem_map.1 hy
      trivial
    · exact hone (by trivial) y hy
  | abortHalts => exact ⟨(Core.Defers.refl k).congr rfl rfl rfl rfl, hnone, hnil⟩
  | cancelHalts => exact ⟨(Core.Defers.refl k).congr rfl rfl rfl rfl, hone trivial, hnil⟩
  | abortDone h => exact ⟨h.defers (.refl k), hcascades _, h.not_isAct⟩
  | conclude h =>
    exact ⟨h.defers ((Core.Defers.refl k).congr rfl rfl rfl rfl), hcascades _, h.not_isAct⟩
  | cascadeComplete _ _ _ h =>
    exact ⟨h.defers (.alter fun p => ⟨Or.inl rfl, id⟩), hcascades _, h.not_isAct⟩
  | cancel => exact ⟨.cancelAll k _, hone trivial, hnil⟩
  | cancelledAll => exact ⟨.refl k, hcascades _, hnil⟩
  | cancelEach =>
    refine ⟨Core.Defers.withdraw (.alter fun p => ⟨Or.inl (by rfl), fun hb => ?_⟩) _, hone trivial,
      Passage.not_isAct _⟩
    cases hb
  | cancelOne h => exact ⟨h.defers (.refl k), hone trivial, h.not_isAct⟩
  | _ => exact hx.elim

theorem Drives.defers {work : List Instr} (h : Drives i k₁ work k' G) (hd : k₁.driving = true)
    (hk : k.Defers k₁) : k.Defers k' ∧ G = work := by
  cases h with
  | within => exact ⟨hk, rfl⟩
  | starts hn =>
    rw [hd] at hn
    cases hn

/-- A driver at work takes note of what user code asks for. -/
theorem Intervenes.defers (h : Intervenes i past k k' G es) (hd : k.driving = true)
    (hn : k.posture k.nextTask = none) : k.Defers k' ∧ ∀ y ∈ G, y.TearsDown := by
  have hnone : ∀ y ∈ ([] : List Instr), y.TearsDown := fun y hy => by cases hy
  cases h with
  | quietly => exact ⟨.refl k, hnone⟩
  | queues => exact ⟨(Core.Defers.refl k).grow _ _, hnone⟩
  | spawns h =>
    obtain ⟨hk, rfl⟩ := h.defers hd ((Core.Defers.create hn).schedule _)
    exact ⟨hk, hnone⟩
  | settles _ h =>
    obtain ⟨hk, rfl⟩ := h.defers hd ((Core.Defers.refl k).schedule _)
    exact ⟨hk, hnone⟩
  | cancels h =>
    obtain ⟨hk, rfl⟩ := h.defers hd (.refl k)
    refine ⟨hk, fun y hy => ?_⟩
    rw [List.mem_singleton.1 hy]
    trivial
  | sends hd' =>
    rw [hd] at hd'
    cases hd'

end

/-! ## Every step -/

namespace Scenario.Visits

variable {s : Scenario} {c c' : Config} {w : World} {x : Instr} {rest : List Instr}
  {i : MiddlewareId}

/-- A step polls a body, returns from a poll, or does neither. -/
theorem polls (h : s.Visits c) (hi : c.world.Has i) (hc : c.step = some c') : c.Polls i c' := by
  obtain ⟨todo, w⟩ := c
  cases todo with
  | nil => cases hc
  | cons x rest =>
    have hs : Stack i (w.core i).current (framesOf i (x :: rest)) := (h.sound hi).framed.stack
    obtain ⟨next, -, rfl, hm⟩ := Config.meets_of_step h.knows hi hc
    have hafter : pollsOf i (next.followedBy rest).todo =
        (framesOf i next.todo).filterMap Instr.poll? ++ pollsOf i rest := by
      simp [pollsOf, Config.followedBy, framesOf_append]
    have hforeign : x.owner? ≠ some i → pollsOf i (x :: rest) = pollsOf i rest := by
      intro hx
      simp [pollsOf, hx]
    cases hm with
    | @own k' es hx ha hd =>
      have hbefore : pollsOf i (x :: rest) = x.poll?.toList ++ pollsOf i rest := by
        cases hp : x.poll? <;> simp [pollsOf, hx, hp]
      -- where a step is under way only the driver is below it
      have hrest : ∀ t, x.turn? = some t →
          (w.core i).current = some t ∧ pollsOf i rest = [] := by
        intro t ht
        rw [framesOf_cons, if_pos hx] at hs
        obtain ⟨hcur, hF⟩ := hs.of_turn ht
        refine ⟨hcur, ?_⟩
        rw [pollsOf, hF]
        rfl
      rcases hd.polls with ⟨t, b, a, g, rfl, hG, hg, rfl⟩ | ⟨t, b, step, rfl, hG, rfl⟩ | ⟨hG, hes⟩
      · obtain ⟨hcur, hnil⟩ := hrest t rfl
        refine .calls rfl (by rw [hbefore, hnil]; rfl) ?_ hcur ha.past
        rw [hafter, hG, hnil, List.filterMap_cons_some hg]
        rfl
      · obtain ⟨-, hnil⟩ := hrest t rfl
        exact .returns rfl (by rw [hbefore, hnil]; rfl) (by rw [hafter, hG, hnil]; rfl) ha.past
      · refine .keeps (by rw [hafter, hG, hbefore]) ha.past fun e he => ?_
        exact hes e (List.mem_reverse.1 he)
    | foreign hx ha hd =>
      obtain ⟨hG, hes⟩ := hd.silences
      refine .keeps (by rw [hafter, hG, hforeign hx]; rfl) ha.past fun e he hp => ?_
      exact hes e (List.mem_reverse.1 he) hp.isAct
    | @drops t b hx hn =>
      subst hx hn
      have hpast := World.past_record (w := w) (i := i) (.bodyDropped t)
      rw [← List.singleton_append] at hpast
      refine .keeps rfl hpast fun e he => ?_
      rw [List.mem_singleton.1 he]
      exact id
    | dies hx hr hF _ hp =>
      subst hx hr
      refine .keeps ?_ (hp.trans (List.nil_append _).symm) fun e he => by cases he
      rw [hafter, hF]
      rfl

/-- While the driver is at work, it takes note of what others do, and so do tasks that go. -/
theorem defers (h : s.Visits ⟨x :: rest, w⟩) (hi : w.Has i)
    (hc : Config.step ⟨x :: rest, w⟩ = some c') (hd : (w.engine i).driving = true)
    (hx : x.owner? ≠ some i ∨ x.TearsDown) : Config.Defers i ⟨x :: rest, w⟩ c' := by
  have hsound := h.sound hi
  have hnext : (w.core i).posture (w.core i).nextTask = none := by
    cases hp : (w.core i).posture (w.core i).nextTask with
    | none => rfl
    | some p => exact absurd (hsound.orderly.tasks hp).number (Nat.lt_irrefl _)
  obtain ⟨next, -, rfl, hm⟩ := Config.meets_of_step h.knows hi hc
  have hframes : (∀ y ∈ framesOf i next.todo, y.TearsDown) →
      ∀ y ∈ framesOf i (next.followedBy rest).todo,
        y ∈ framesOf i (x :: rest) ∨ y.TearsDown := by
    intro hG y hy
    rw [Config.followedBy, framesOf_append] at hy
    rcases List.mem_append.1 hy with hy | hy
    · exact Or.inr (hG y hy)
    · exact Or.inl (List.mem_filter.2 ⟨List.mem_cons_of_mem _ (List.mem_filter.1 hy).1,
        (List.mem_filter.1 hy).2⟩)
  cases hm with
  | own ho ha hdoes =>
    obtain ⟨hk, hG, hes⟩ := hdoes.defers (hx.resolve_left fun hn => hn ho)
    exact ⟨ha.core ▸ hk, hframes hG, _, ha.past, fun e he => hes e (List.mem_reverse.1 he)⟩
  | foreign ho ha hin =>
    obtain ⟨hk, hG⟩ := hin.defers hd hnext
    exact ⟨ha.core ▸ hk, hframes hG, _, ha.past,
      fun e he => hin.silences.2 e (List.mem_reverse.1 he)⟩
  | @drops t b hxd hn =>
    subst hxd hn
    have hnone : ∀ y ∈ framesOf i (w.execDropBody ⟨i, t⟩ b).todo, y.TearsDown := fun y hy => by
      cases hy
    refine ⟨.refl _, hframes hnone, [.bodyDropped t], World.past_record _, fun e he => ?_⟩
    rw [List.mem_singleton.1 he]
    exact id
  | dies hxd hr =>
    -- nobody drops a middleware whose driver is at work
    subst hxd hr
    have hne := hsound.framed.driving.1 hd
    exact absurd rfl hne

end Scenario.Visits

end SagaMachine
