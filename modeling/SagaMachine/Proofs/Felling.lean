import SagaMachine.Proofs.Steps

/-!
# What tearing down leaves behind

Cancellations and failures record outcomes, drop bodies and withdraw effects, and leave
everything else alone. `World.Fells` says what has become of a middleware after a piece of
such work: which milestones were passed (bodies dropped, outcomes recorded, failures that
nobody caught), that the tasks that were opened up lost their bodies and their effects, and that
all others are as they were, but for the children and the joiners that are gone. Pieces of
work are put together with `World.Fells.trans`.

Main definitions: `Engine.Fells`, `World.Fells`.
-/

namespace SagaMachine

/-! ## Milestones -/

/-- An event that tells of the end of a task. -/
def Event.isMilestone : Event → Bool
  | .bodyDropped _ | .taskFinished .. | .uncaught .. => true
  | _ => false

/-- The task whose outcome an event records. -/
def Event.finished? : Event → Option TaskId
  | .taskFinished t _ => some t
  | _ => none

/-- The tasks whose outcomes are recorded, in order. -/
def finishedIn (es : List Event) : List TaskId := es.filterMap Event.finished?

theorem mem_finishedIn {es : List Event} {t : TaskId} :
    t ∈ finishedIn es ↔ ∃ o, .taskFinished t o ∈ es := by
  simp only [finishedIn, List.mem_filterMap]
  constructor
  · rintro ⟨e, he, ht⟩
    cases e with
    | taskFinished u o =>
      cases ht
      exact ⟨o, he⟩
    | _ => cases ht
  · rintro ⟨o, ho⟩
    exact ⟨_, ho, rfl⟩

theorem finishedIn_append (es es' : List Event) :
    finishedIn (es ++ es') = finishedIn es ++ finishedIn es' := List.filterMap_append ..

/-- What a joiner is told. -/
def notice (n : EffectId × Outcome) : Reaction := .settle n.1 (.ofOutcome n.2)

/-! ## Engines -/

/-- What becomes of a task that stays in the table while the tasks in `gone` leave it. -/
structure TaskNode.Outlasts (opened : Prop) (gone : List TaskId) (waits : Waits)
    (n n' : TaskNode) : Prop where
  name : n'.name = n.name
  parent : n'.parent = n.parent
  detached : n'.detached = n.detached
  alike : ¬ opened → n'.status = n.status ∧ n'.body = n.body ∧ n'.pending = n.pending ∧
    n'.result = n.result
  live : n'.status.isTerminal = false → n.status.isTerminal = false
  children : n'.status.isTerminal = false → n'.children = n.children.filter (· ∉ gone)
  joiners : n'.joiners.Sublist n.joiners
  joined : ∀ x ∈ n.joiners, x ∈ n'.joiners ∨ waits.get? x = none

/-- No effect joins twice. -/
structure Tasks.JoinedOnce (tasks : Tasks) : Prop where
  nodup : ∀ {t n}, tasks.get? t = some n → n.joiners.Nodup
  unique : ∀ {t u n m x}, tasks.get? t = some n → tasks.get? u = some m → x ∈ n.joiners →
    x ∈ m.joiners → t = u

/--
What tearing down has made of an engine: `opened` are the tasks that were opened up, `ms` the
milestones and `ns` the notices to joiners.
-/
structure Engine.Fells (opened : TaskId → Prop) (ms : List Event)
    (ns : List (EffectId × Outcome)) (e e' : Engine) : Prop where
  agenda : e'.agenda = { e.agenda with fresh := e.agenda.fresh ++ ns.map notice }
  current : e'.current = e.current
  finished : ∀ {t o}, .taskFinished t o ∈ ms →
    (∃ n, e.tasks.get? t = some n) ∧ e'.tasks.get? t = none ∧ e'.outcomes.get? t = some o
  kept : ∀ {t n}, e.tasks.get? t = some n → t ∉ finishedIn ms →
    ∃ n', e'.tasks.get? t = some n' ∧ n.Outlasts (opened t) (finishedIn ms) e'.waits n'
  absent : ∀ {t}, e.tasks.get? t = none → e'.tasks.get? t = none
  outcome : ∀ {t}, t ∉ finishedIn ms → e'.outcomes.get? t = e.outcomes.get? t
  waits : ∀ {x w}, e'.waits.get? x = some w → e.waits.get? x = some w
  withdrawn : ∀ {x w}, e.waits.get? x = some w → e'.waits.get? x = none → opened w.task
  heard : ∀ {x o}, (x, o) ∈ ns → ∃ t n, .taskFinished t o ∈ ms ∧ e.tasks.get? t = some n ∧
    x ∈ n.joiners
  told : ∀ {t o n x}, .taskFinished t o ∈ ms → e.tasks.get? t = some n → x ∈ n.joiners →
    (x, o) ∈ ns ∨ e'.waits.get? x = none
  once : e.tasks.JoinedOnce → (ns.map Prod.fst).Nodup

namespace TaskNode.Outlasts

variable {opened opened' : Prop} {gone gone' : List TaskId} {waits waits' : Waits}
  {n n' n'' : TaskNode}

theorem refl (n : TaskNode) : n.Outlasts opened [] waits n where
  name := rfl
  parent := rfl
  detached := rfl
  alike _ := ⟨rfl, rfl, rfl, rfl⟩
  live := id
  children _ := (List.filter_eq_self.2 fun _ _ => by simp).symm
  joiners := .refl _
  joined _ := Or.inl

theorem trans (h : n.Outlasts opened gone waits n') (h' : n'.Outlasts opened' gone' waits' n'')
    (hw : ∀ x, waits.get? x = none → waits'.get? x = none) :
    n.Outlasts (opened ∨ opened') (gone ++ gone') waits' n'' where
  name := h'.name.trans h.name
  parent := h'.parent.trans h.parent
  detached := h'.detached.trans h.detached
  alike ho := by
    obtain ⟨h1, h2, h3, h4⟩ := h.alike fun h => ho (Or.inl h)
    obtain ⟨g1, g2, g3, g4⟩ := h'.alike fun h => ho (Or.inr h)
    exact ⟨g1.trans h1, g2.trans h2, g3.trans h3, g4.trans h4⟩
  live hl := h.live (h'.live hl)
  children hl := by
    rw [h'.children hl, h.children (h'.live hl), List.filter_filter]
    congr 1
    funext c
    simp [Bool.and_comm]
  joiners := h'.joiners.trans h.joiners
  joined x hx := by
    rcases h.joined x hx with hx | hx
    · exact h'.joined x hx
    · exact Or.inr (hw x hx)

end TaskNode.Outlasts

namespace Engine.Fells

variable {opened opened' : TaskId → Prop} {ms ms' : List Event} {ns ns' : List (EffectId × Outcome)}
  {e e' e'' : Engine}

theorem refl (e : Engine) : Engine.Fells opened [] [] e e where
  agenda := by simp
  current := rfl
  finished h := by cases h
  kept h _ := ⟨_, h, .refl _⟩
  absent := id
  outcome _ := rfl
  waits := id
  withdrawn h h' := by
    rw [h] at h'
    cases h'
  heard h := by cases h
  told h := by cases h
  once _ := List.nodup_nil

theorem not_finished (h : Engine.Fells opened ms ns e e') {t : TaskId} {n : TaskNode}
    (hn : e'.tasks.get? t = some n) : t ∉ finishedIn ms := by
  intro ht
  obtain ⟨o, ho⟩ := mem_finishedIn.1 ht
  rw [(h.finished ho).2.1] at hn
  cases hn

/-- Where a task of the table comes from. -/
theorem exists_old (h : Engine.Fells opened ms ns e e') {t : TaskId} {n' : TaskNode}
    (hn : e'.tasks.get? t = some n') :
    ∃ n, e.tasks.get? t = some n ∧ n.Outlasts (opened t) (finishedIn ms) e'.waits n' := by
  cases ht : e.tasks.get? t with
  | none =>
    rw [h.absent ht] at hn
    cases hn
  | some n =>
    obtain ⟨m, hm, hout⟩ := h.kept ht (h.not_finished hn)
    rw [hn] at hm
    cases hm
    exact ⟨n, rfl, hout⟩

theorem joinedOnce (h : Engine.Fells opened ms ns e e') (ho : e.tasks.JoinedOnce) :
    e'.tasks.JoinedOnce where
  nodup hn := by
    obtain ⟨n, hn, hout⟩ := h.exists_old hn
    exact (ho.nodup hn).sublist hout.joiners
  unique hn hm hx hy := by
    obtain ⟨n, hn, hout⟩ := h.exists_old hn
    obtain ⟨m, hm, hout'⟩ := h.exists_old hm
    exact ho.unique hn hm (hout.joiners.subset hx) (hout'.joiners.subset hy)

theorem trans (h : Engine.Fells opened ms ns e e') (h' : Engine.Fells opened' ms' ns' e' e'') :
    Engine.Fells (fun t => opened t ∨ opened' t) (ms ++ ms') (ns ++ ns') e e'' where
  agenda := by simp [h'.agenda, h.agenda]
  current := h'.current.trans h.current
  finished {t o} ho := by
    rcases List.mem_append.1 ho with ho | ho
    · obtain ⟨hn, hgone, hout⟩ := h.finished ho
      refine ⟨hn, h'.absent hgone, ?_⟩
      rw [h'.outcome fun ht => ?_, hout]
      obtain ⟨o', ho'⟩ := mem_finishedIn.1 ht
      obtain ⟨n, hn⟩ := (h'.finished ho').1
      rw [hgone] at hn
      cases hn
    · obtain ⟨⟨n', hn'⟩, hgone, hout⟩ := h'.finished ho
      obtain ⟨n, hn, -⟩ := h.exists_old hn'
      exact ⟨⟨n, hn⟩, hgone, hout⟩
  kept {t n} hn ht := by
    rw [finishedIn_append, List.mem_append, not_or] at ht
    obtain ⟨n', hn', hout⟩ := h.kept hn ht.1
    obtain ⟨n'', hn'', hout'⟩ := h'.kept hn' ht.2
    refine ⟨n'', hn'', ?_⟩
    rw [finishedIn_append]
    refine hout.trans hout' fun x hx => ?_
    cases hx' : e''.waits.get? x with
    | none => rfl
    | some w =>
      rw [h'.waits hx'] at hx
      cases hx
  absent ht := h'.absent (h.absent ht)
  outcome ht := by
    rw [finishedIn_append, List.mem_append, not_or] at ht
    exact (h'.outcome ht.2).trans (h.outcome ht.1)
  waits hx := h.waits (h'.waits hx)
  withdrawn {x w} hx hx' := by
    cases hmid : e'.waits.get? x with
    | none => exact Or.inl (h.withdrawn hx hmid)
    | some w' =>
      have := h.waits hmid
      rw [hx] at this
      cases this
      exact Or.inr (h'.withdrawn hmid hx')
  heard {x o} hx := by
    rcases List.mem_append.1 hx with hx | hx
    · obtain ⟨t, n, ho, hn, hj⟩ := h.heard hx
      exact ⟨t, n, List.mem_append_left _ ho, hn, hj⟩
    · obtain ⟨t, n', ho, hn', hj⟩ := h'.heard hx
      obtain ⟨n, hn, hout⟩ := h.exists_old hn'
      exact ⟨t, n, List.mem_append_right _ ho, hn, hout.joiners.subset hj⟩
  told {t o n x} ho hn hx := by
    have hgone : ∀ {y}, e'.waits.get? y = none → e''.waits.get? y = none := by
      intro y hy
      cases hy' : e''.waits.get? y with
      | none => rfl
      | some w =>
        rw [h'.waits hy'] at hy
        cases hy
    rcases List.mem_append.1 ho with ho | ho
    · rcases h.told ho hn hx with hx | hx
      · exact Or.inl (List.mem_append_left _ hx)
      · exact Or.inr (hgone hx)
    · obtain ⟨n', hn'⟩ := (h'.finished ho).1
      obtain ⟨m, hm, hout⟩ := h.exists_old hn'
      rw [hn] at hm
      cases hm
      rcases hout.joined x hx with hx | hx
      · exact (h'.told ho hn' hx).imp_left (List.mem_append_right _)
      · exact Or.inr (hgone hx)
  once hj := by
    rw [List.map_append, List.nodup_append]
    refine ⟨h.once hj, h'.once (h.joinedOnce hj), ?_⟩
    rintro x hx _ hy rfl
    obtain ⟨⟨_, o⟩, hxo, rfl⟩ := List.mem_map.1 hx
    obtain ⟨⟨_, o'⟩, hyo, he⟩ := List.mem_map.1 hy
    cases he
    obtain ⟨t, n, ho, hn, hxn⟩ := h.heard hxo
    obtain ⟨u, m', ho', hm', hxm⟩ := h'.heard hyo
    obtain ⟨m, hm, hout⟩ := h.exists_old hm'
    cases hj.unique hn hm hxn (hout.joiners.subset hxm)
    rw [(h.finished ho).2.1] at hm'
    cases hm'

/-- More tasks may have been opened up. -/
theorem mono (h : Engine.Fells opened ms ns e e') (ho : ∀ t, opened t → opened' t) :
    Engine.Fells opened' ms ns e e' where
  agenda := h.agenda
  current := h.current
  finished := h.finished
  kept hn ht := by
    obtain ⟨n', hn', hout⟩ := h.kept hn ht
    exact ⟨n', hn', { hout with alike := fun hno => hout.alike fun hop => hno (ho _ hop) }⟩
  absent := h.absent
  outcome := h.outcome
  waits := h.waits
  withdrawn hx hx' := ho _ (h.withdrawn hx hx')
  heard := h.heard
  told := h.told
  once := h.once

/-- No milestone is passed. -/
theorem of_kept (ht : ∀ {t n}, e.tasks.get? t = some n →
      ∃ n', e'.tasks.get? t = some n' ∧ n.Outlasts (opened t) [] e'.waits n')
    (habs : ∀ {t}, e.tasks.get? t = none → e'.tasks.get? t = none)
    (hw : ∀ {x w}, e'.waits.get? x = some w → e.waits.get? x = some w)
    (hg : ∀ {x w}, e.waits.get? x = some w → e'.waits.get? x = none → opened w.task)
    (ho : e'.outcomes = e.outcomes) (ha : e'.agenda = e.agenda) (hc : e'.current = e.current) :
    Engine.Fells opened [] [] e e' where
  agenda := by simp [ha]
  current := hc
  finished h := by cases h
  kept hn _ := ht hn
  absent := habs
  outcome _ := by rw [ho]
  waits := hw
  withdrawn := hg
  heard h := by cases h
  told h := by cases h
  once _ := List.nodup_nil

/-- Nothing changes that is of interest here. -/
theorem of_eq (ht : e'.tasks = e.tasks) (ho : e'.outcomes = e.outcomes) (hw : e'.waits = e.waits)
    (ha : e'.agenda = e.agenda) (hc : e'.current = e.current) :
    Engine.Fells opened [] [] e e' := by
  refine of_kept (fun hn => ⟨_, ht ▸ hn, .refl _⟩) (fun hn => ht ▸ hn) (fun hx => hw ▸ hx) ?_ ho ha hc
  intro x w h h'
  rw [hw, h] at h'
  cases h'

/-- One task of the table changes. -/
theorem modify (e : Engine) (t : TaskId) {f : TaskNode → TaskNode}
    (hf : ∀ n : TaskNode, n.Outlasts (opened t) [] e.waits (f n)) :
    Engine.Fells opened [] [] e { e with tasks := e.tasks.modify t f } := by
  refine of_kept ?_ ?_ id ?_ rfl rfl rfl
  · intro u n hn
    by_cases hut : u = t
    · subst hut
      exact ⟨f n, by simp [hn], hf n⟩
    · exact ⟨n, by simp [hut, hn], .refl n⟩
  · intro u hu
    by_cases hut : u = t
    · subst hut
      simp [hu]
    · simp [hut, hu]
  · intro x w h h'
    rw [h] at h'
    cases h'

/-- A task is opened up. -/
theorem setTask (e : Engine) (t : TaskId) {f : TaskNode → TaskNode}
    (hf : ∀ n, (f n).name = n.name ∧ (f n).parent = n.parent ∧ (f n).detached = n.detached ∧
      (f n).children = n.children ∧ (f n).joiners = n.joiners)
    (hl : ∀ n, (f n).status.isTerminal = false → n.status.isTerminal = false) :
    Engine.Fells (· = t) [] [] e { e with tasks := e.tasks.modify t f } := by
  refine modify e t fun n => ?_
  obtain ⟨h1, h2, h3, h4, h5⟩ := hf n
  refine ⟨h1, h2, h3, fun hno => absurd rfl hno, hl n, fun _ => ?_, h5 ▸ .refl _, fun x hx => ?_⟩
  · rw [h4]
    exact (List.filter_eq_self.2 fun _ _ => by simp).symm
  · exact Or.inl (h5 ▸ hx)

/-- Effects of a task are taken out of the wait table. -/
theorem setWaits (e : Engine) {t : TaskId} {waits : Waits}
    (hw : ∀ {x w}, waits.get? x = some w → e.waits.get? x = some w)
    (ht : ∀ {x w}, e.waits.get? x = some w → waits.get? x = none → w.task = t) :
    Engine.Fells (· = t) [] [] e { e with waits } :=
  of_kept (fun hn => ⟨_, hn, .refl _⟩) id hw ht rfl rfl rfl

/-- An effect that is gone does not join any more. -/
theorem unjoin (e : Engine) (t : TaskId) {x : EffectId} (hx : e.waits.get? x = none) :
    Engine.Fells opened [] [] e
      { e with tasks := e.tasks.modify t fun n => { n with joiners := n.joiners.filter (· ≠ x) } } := by
  refine modify e t fun n => ⟨rfl, rfl, rfl, fun _ => ⟨rfl, rfl, rfl, rfl⟩, id, fun _ => ?_,
    List.filter_sublist, fun y hy => ?_⟩
  · exact (List.filter_eq_self.2 fun _ _ => by simp).symm
  · by_cases hyx : y = x
    · exact Or.inr (hyx ▸ hx)
    · exact Or.inl (List.mem_filter.2 ⟨hy, by simpa using hyx⟩)

/--
The outcome of a task is recorded: it leaves the table, its joiners are told, and it is taken
off the children of its parent, if that is live; nobody else counted it among the children.
-/
theorem finalize (e : Engine) {t : TaskId} {n : TaskNode} (hn : e.tasks.get? t = some n)
    (outcome : Outcome) {tasks : Tasks}
    (htasks : ∀ u, tasks.get? u = none ∧ (u = t ∨ e.tasks.get? u = none) ∨
      u ≠ t ∧ ∃ m children, e.tasks.get? u = some m ∧ tasks.get? u = some { m with children } ∧
        (m.status.isTerminal = false → children = m.children.filter (· ≠ t))) :
    Engine.Fells opened [.taskFinished t outcome] (n.joiners.map fun x => (x, outcome)) e
      { e with
        tasks, outcomes := e.outcomes.insert t outcome,
        agenda := { e.agenda with
          fresh := e.agenda.fresh ++ n.joiners.map fun x => .settle x (.ofOutcome outcome) } } where
  agenda := by simp [notice, Function.comp_def]
  current := rfl
  finished {u o} ho := by
    cases List.mem_singleton.1 ho
    refine ⟨⟨n, hn⟩, ?_, by simp⟩
    rcases htasks t with ⟨h, -⟩ | ⟨h, -⟩
    · exact h
    · exact absurd rfl h
  kept {u m} hm hu := by
    have hut : u ≠ t := by simpa [finishedIn, Event.finished?] using hu
    rcases htasks u with ⟨-, h | h⟩ | ⟨-, m', children, hm', hu', hc⟩
    · exact absurd h hut
    · rw [hm] at h
      cases h
    · rw [hm] at hm'
      cases hm'
      refine ⟨_, hu', rfl, rfl, rfl, fun _ => ⟨rfl, rfl, rfl, rfl⟩, id, fun hl => ?_, .refl _,
        fun x => Or.inl⟩
      rw [hc hl]
      simp [finishedIn, Event.finished?]
  absent {u} hu := by
    rcases htasks u with ⟨h, -⟩ | ⟨-, m, children, hm, -⟩
    · exact h
    · rw [hu] at hm
      cases hm
  outcome {u} hu := by
    have hut : u ≠ t := by simpa [finishedIn, Event.finished?] using hu
    simp [hut]
  waits := id
  withdrawn h h' := by
    rw [h] at h'
    cases h'
  heard {x o} hx := by
    obtain ⟨y, hy, he⟩ := List.mem_map.1 hx
    cases he
    exact ⟨t, n, List.mem_singleton_self _, hn, hy⟩
  told {u o m x} ho hm hx := by
    cases List.mem_singleton.1 ho
    rw [hn] at hm
    cases hm
    exact Or.inl (List.mem_map_of_mem hx)
  once hj := by
    simpa [Function.comp_def] using hj.nodup hn

end Engine.Fells

/-! ## Worlds -/

/-- What tearing down has made of a middleware. -/
structure World.Fells (i : MiddlewareId) (opened : TaskId → Prop) (ms : List Event)
    (w w' : World) : Prop where
  engine : ∃ ns, Engine.Fells opened ms ns (w.engine i) (w'.engine i)
  past : ∃ es : List Event, w'.past i = es.reverse ++ w.past i ∧ es.filter Event.isMilestone = ms
  alive : w'.alive? i = w.alive? i

/-- A task is attached to a parent. -/
def TaskNode.isAttached (n : TaskNode) : Bool := n.parent.isSome && !n.detached

/-- The milestones at the end of a task: a failure without a parent to go on to is uncaught. -/
def TaskNode.farewell (n : TaskNode) (i : MiddlewareId) (t : TaskId) (outcome : Outcome) :
    List Event :=
  .taskFinished t outcome ::
    match outcome with
    | .aborted f => if n.isAttached then [] else [.uncaught { owner := i, id := t, name := n.name } f]
    | _ => []

theorem finishedIn_farewell (n : TaskNode) (i : MiddlewareId) (t : TaskId) (outcome : Outcome) :
    finishedIn (n.farewell i t outcome) = [t] := by
  unfold TaskNode.farewell
  cases outcome <;> first | rfl | (dsimp only; split <;> rfl)

theorem TaskNode.eq_of_mem_farewell {n : TaskNode} {i : MiddlewareId} {t u : TaskId}
    {outcome o : Outcome} (h : .taskFinished u o ∈ n.farewell i t outcome) :
    u = t ∧ o = outcome := by
  rcases List.mem_cons.1 h with h | h
  · cases h
    exact ⟨rfl, rfl⟩
  · split at h
    · split at h
      · cases h
      · cases List.mem_singleton.1 h
    · cases h

namespace World.Fells

variable {i : MiddlewareId} {opened opened' : TaskId → Prop} {ms ms' : List Event}
  {w w' w'' : World} {t : TaskId}

theorem refl (i : MiddlewareId) (w : World) : w.Fells i opened [] w where
  engine := ⟨_, .refl _⟩
  past := ⟨[], rfl, rfl⟩
  alive := rfl

theorem trans (h : w.Fells i opened ms w') (h' : w'.Fells i opened' ms' w'') :
    w.Fells i (fun t => opened t ∨ opened' t) (ms ++ ms') w'' where
  engine := by
    obtain ⟨ns, h⟩ := h.engine
    obtain ⟨ns', h'⟩ := h'.engine
    exact ⟨_, h.trans h'⟩
  past := by
    obtain ⟨es, h1, h2⟩ := h.past
    obtain ⟨es', h1', h2'⟩ := h'.past
    refine ⟨es ++ es', ?_, ?_⟩
    · rw [h1', h1, List.reverse_append, List.append_assoc]
    · rw [List.filter_append, h2, h2']
  alive := h'.alive.trans h.alive

theorem mono {P : TaskId → Prop} (h : w.Fells i opened ms w') (ho : ∀ t, opened t → P t) :
    w.Fells i P ms w' where
  engine := by
    obtain ⟨ns, h⟩ := h.engine
    exact ⟨ns, h.mono ho⟩
  past := h.past
  alive := h.alive

theorem has (h : w.Fells i opened ms w') (hi : w.Has i) : w'.Has i := by
  rw [has_iff, h.alive, ← has_iff]
  exact hi

theorem current (h : w.Fells i opened ms w') : (w'.engine i).current = (w.engine i).current := by
  obtain ⟨ns, he⟩ := h.engine
  exact he.current

/-- Who was torn down was there. -/
theorem exists_task (h : w.Fells i opened ms w') (ht : t ∈ finishedIn ms) :
    ∃ n, w.task? i t = some n := by
  obtain ⟨ns, he⟩ := h.engine
  obtain ⟨o, ho⟩ := mem_finishedIn.1 ht
  exact (he.finished ho).1

/-- A task that was not torn down is still there. -/
theorem kept (h : w.Fells i opened ms w') {n : TaskNode} (hn : w.task? i t = some n)
    (ht : t ∉ finishedIn ms) : ∃ n', w'.task? i t = some n' ∧
      n.Outlasts (opened t) (finishedIn ms) (w'.engine i).waits n' := by
  obtain ⟨ns, he⟩ := h.engine
  exact he.kept hn ht

/-- A task that is there was there before. -/
theorem exists_old (h : w.Fells i opened ms w') {n' : TaskNode} (hn : w'.task? i t = some n') :
    ∃ n, w.task? i t = some n ∧ t ∉ finishedIn ms ∧
      n.Outlasts (opened t) (finishedIn ms) (w'.engine i).waits n' := by
  obtain ⟨ns, he⟩ := h.engine
  obtain ⟨n, hn', hout⟩ := he.exists_old hn
  exact ⟨n, hn', he.not_finished hn, hout⟩

/-- What user code does elsewhere. -/
theorem of_untouched {P : TaskId → Prop} (h : Untouched i w w') : w.Fells i P [] w' where
  engine := ⟨[], by rw [h.engine]; exact .refl _⟩
  past := ⟨[], by rw [h.past]; rfl, rfl⟩
  alive := h.alive

theorem setEngine (hi : w.Has i) {f : Engine → Engine}
    (hf : Engine.Fells opened [] [] (w.engine i) (f (w.engine i))) :
    w.Fells i opened [] (w.setEngine i f) where
  engine := ⟨[], by rw [engine_setEngine hi]; exact hf⟩
  past := ⟨[], rfl, rfl⟩
  alive := alive_setEngine

/-- An event is told that records no outcome. -/
theorem record {e : Event} (he : e.finished? = none) :
    w.Fells i opened ([e].filter Event.isMilestone) (w.record i e) where
  engine := by
    have hms : ∀ u, u ∉ finishedIn ([e].filter Event.isMilestone) := by
      intro u hu
      obtain ⟨o, ho⟩ := mem_finishedIn.1 hu
      cases List.mem_singleton.1 (List.mem_filter.1 ho).1
      cases he
    have hnone : ∀ {u o}, .taskFinished u o ∉ [e].filter Event.isMilestone :=
      fun ho => hms _ (mem_finishedIn.2 ⟨_, ho⟩)
    have hfin : finishedIn ([e].filter Event.isMilestone) = [] :=
      List.eq_nil_iff_forall_not_mem.2 hms
    have h : Engine.Fells opened [] [] (w.engine i) (w.engine i) := .refl _
    refine ⟨[], { h with
      finished := fun ho => absurd ho hnone
      kept := fun hn _ => ⟨_, hn, by rw [hfin]; exact .refl _⟩
      outcome := fun _ => rfl
      heard := fun hx => by cases hx
      told := fun ho => absurd ho hnone }⟩
  past := ⟨[e], past_record e, rfl⟩
  alive := rfl

/-- A task is opened up. -/
theorem setTask (hi : w.Has i) (t : TaskId) {f : TaskNode → TaskNode}
    (hf : ∀ n, (f n).name = n.name ∧ (f n).parent = n.parent ∧ (f n).detached = n.detached ∧
      (f n).children = n.children ∧ (f n).joiners = n.joiners)
    (hl : ∀ n, (f n).status.isTerminal = false → n.status.isTerminal = false) :
    w.Fells i (· = t) [] (w.setTask i t f) :=
  setEngine hi (f := fun e => { e with tasks := e.tasks.modify t f }) (.setTask (w.engine i) t hf hl)

/-- An effect that is gone gives up its registration. -/
theorem deregister (hi : w.Has i) {x : EffectId} (hx : (w.engine i).waits.get? x = none)
    (kind : WaitKind) : w.Fells i opened [] (w.deregister i x kind) := by
  cases kind with
  | take source taker =>
    cases source with
    | bus => exact setEngine hi (f := fun e => { e with bus := e.bus.cancelTaker taker }) (.of_eq rfl rfl rfl rfl rfl)
    | channel c => exact of_untouched (.of_eq rfl rfl)
  | call d => exact of_untouched (untouched_unsubscribe d)
  | join target => exact setEngine hi (f := fun e => { e with tasks := e.tasks.modify target fun n =>
      { n with joiners := n.joiners.filter (· ≠ x) } }) (.unjoin (w.engine i) target hx)
  | put | race | all => exact refl i w

theorem passAll (hi : w.Has i) {ps : List Passage}
    (hp : ∀ p ∈ ps, ∃ x wait, p = .withdrawn x wait ∧ (w.engine i).waits.get? x = none) :
    w.Fells i opened [] (w.passAll i ps) := by
  induction ps generalizing w with
  | nil => exact refl i w
  | cons p ps ih =>
    obtain ⟨x, wait, rfl, hx⟩ := hp p List.mem_cons_self
    have h1 : w.Fells i opened [] (w.pass i (.withdrawn x wait)) :=
      ((deregister hi hx wait.kind).trans (record (e := .withdrawn x) rfl)).mono fun t ht => ht.elim id id
    have h2 : (w.pass i (.withdrawn x wait)).Fells i opened []
        ((w.pass i (.withdrawn x wait)).passAll i ps) := by
      refine ih (h1.has hi) fun q hq => ?_
      obtain ⟨y, wait', rfl, hy⟩ := hp q (List.mem_cons_of_mem _ hq)
      refine ⟨y, wait', rfl, ?_⟩
      obtain ⟨ns, h1⟩ := h1.engine
      cases hy' : ((w.pass i (.withdrawn x wait)).engine i).waits.get? y with
      | none => rfl
      | some v =>
        rw [h1.waits hy'] at hy
        cases hy
    exact (h1.trans h2).mono fun t ht => ht.elim id id

/-- The effect that a task is parked on is withdrawn. -/
theorem cancelPending (hi : w.Has i) (pending : Option EffectId)
    (hk : ∀ {z wait}, (w.engine i).waits.get? z = some wait → wait.task ≠ t →
      ((w.engine i).waits.detach pending.toList).2.get? z = some wait) :
    w.Fells i (· = t) [] (w.cancelPending i pending) := by
  cases pending with
  | none => exact refl i w
  | some x =>
    have h1 : w.Fells i (· = t) [] (w.setWaits i ((w.engine i).waits.detach [x]).2) := by
      refine setEngine hi (f := fun e => { e with waits := ((w.engine i).waits.detach [x]).2 }) (.setWaits (w.engine i) Waits.get?_of_get?_detach ?_)
      intro y wait hy hy'
      refine Classical.byContradiction fun hne => ?_
      have := hk hy hne
      rw [Option.toList_some, hy'] at this
      cases this
    refine (h1.trans (passAll (h1.has hi) ?_)).mono fun u hu => hu.elim id id
    intro p hp
    obtain ⟨y, wait, rfl, -⟩ := Waits.withdrawn_of_mem_detach hp
    refine ⟨y, wait, rfl, ?_⟩
    simp only [World.setWaits, engine_setEngine hi]
    have hm : y ∈ ((w.engine i).waits.detach [x]).1.map Waits.Passage.id :=
      List.mem_map.2 ⟨_, hp, rfl⟩
    rw [Waits.get?_detach, if_pos hm]

/-- Several tasks are opened up, one after the other. -/
theorem foldl_setTask (hi : w.Has i) (ts : List TaskId) {f : TaskNode → TaskNode}
    (hf : ∀ n, (f n).name = n.name ∧ (f n).parent = n.parent ∧ (f n).detached = n.detached ∧
      (f n).children = n.children ∧ (f n).joiners = n.joiners)
    (hl : ∀ n, (f n).status.isTerminal = false → n.status.isTerminal = false) :
    w.Fells i (· ∈ ts) [] (ts.foldl (fun w t => w.setTask i t f) w) := by
  induction ts generalizing w with
  | nil => exact refl i w
  | cons t ts ih =>
    have h := setTask hi t hf hl
    refine (h.trans (ih (h.has hi))).mono ?_
    rintro u (rfl | hu)
    · exact List.mem_cons_self
    · exact List.mem_cons_of_mem _ hu

end World.Fells

namespace World

variable {i : MiddlewareId} {w : World} {t : TaskId} {n : TaskNode}

theorem engine_foldl_schedule (hi : w.Has i) (f : EffectId → Reaction) (xs : List EffectId) :
    (xs.foldl (fun w x => w.schedule i (f x)) w).engine i =
      { w.engine i with agenda :=
        { (w.engine i).agenda with fresh := (w.engine i).agenda.fresh ++ xs.map f } } ∧
    (xs.foldl (fun w x => w.schedule i (f x)) w).past i = w.past i ∧
    (xs.foldl (fun w x => w.schedule i (f x)) w).alive? i = w.alive? i := by
  induction xs generalizing w with
  | nil => exact ⟨by simp, rfl, rfl⟩
  | cons x xs ih =>
    have hi' : (w.schedule i (f x)).Has i := by
      rw [has_iff, World.schedule, alive_setEngine, ← has_iff]
      exact hi
    obtain ⟨h1, h2, h3⟩ := ih hi'
    refine ⟨?_, h2, h3.trans alive_setEngine⟩
    rw [List.foldl_cons, h1, World.schedule, engine_setEngine hi]
    simp [Agenda.schedule]

/-- What the recording of an outcome makes of an engine. -/
theorem announce_eq (hi : w.Has i) (outcome : Outcome) :
    (w.announce i t n outcome).engine i =
      { w.engine i with
        tasks := (w.engine i).tasks.erase t, outcomes := (w.engine i).outcomes.insert t outcome,
        agenda := { (w.engine i).agenda with
          fresh := (w.engine i).agenda.fresh ++ n.joiners.map fun x => .settle x (.ofOutcome outcome) } } ∧
    (w.announce i t n outcome).past i = .taskFinished t outcome :: w.past i ∧
    (w.announce i t n outcome).alive? i = w.alive? i := by
  unfold announce
  have hu : ∀ w' : World, Untouched i w' (w'.wakeWatches { owner := i, id := t, name := n.name }) :=
    fun w' => untouched_wakeWatches _
  generalize hw₁ : w.setEngine i (fun e =>
    { e with tasks := e.tasks.erase t, outcomes := e.outcomes.insert t outcome }) = w₁
  have hi₁ : w₁.Has i := by
    rw [has_iff, ← hw₁, alive_setEngine, ← has_iff]
    exact hi
  obtain ⟨h1, h2, h3⟩ := engine_foldl_schedule ((hu w₁).has.2 hi₁)
    (fun x => .settle x (.ofOutcome outcome)) n.joiners
  simp only
  refine ⟨?_, ?_, ?_⟩
  · show ((n.joiners.foldl _ _) : World).engine i = _
    rw [h1, (hu w₁).engine, ← hw₁, engine_setEngine hi]
  · rw [past_record, h2, (hu w₁).past, ← hw₁]
    rfl
  · show ((n.joiners.foldl _ _) : World).alive? i = _
    rw [h3, (hu w₁).alive, ← hw₁, alive_setEngine]

section

variable {P : TaskId → Prop} (hi : w.Has i) (hn : w.task? i t = some n)
  (hkids : ∀ u m, w.task? i u = some m → m.status.isTerminal = false → t ∈ m.children →
    n.parent = some u ∧ n.detached = false)
include hi hn hkids

omit hi hn in
/-- Whoever is not the parent of a task does not count it among its children. -/
theorem children_of_other {u : TaskId} {m : TaskNode} (hm : w.task? i u = some m)
    (hu : ¬ (n.parent = some u ∧ n.detached = false)) (hl : m.status.isTerminal = false) :
    m.children = m.children.filter (· ≠ t) := by
  refine (List.filter_eq_self.2 fun c hc => ?_).symm
  rw [decide_eq_true_eq]
  rintro rfl
  exact hu (hkids u m hm hl hc)

/-- The outcome of a task is recorded that has no live parent. -/
theorem fells_announce (outcome : Outcome)
    (hpar : ∀ u m, w.task? i u = some m → u ≠ t → n.parent = some u ∧ n.detached = false →
      m.status.isTerminal = true) :
    w.Fells i P [.taskFinished t outcome] (w.announce i t n outcome) := by
  obtain ⟨h1, h2, h3⟩ := announce_eq (t := t) (n := n) hi outcome
  refine ⟨⟨n.joiners.map fun x => (x, outcome), ?_⟩, ⟨[.taskFinished t outcome], h2, rfl⟩, h3⟩
  rw [h1]
  refine .finalize (w.engine i) hn outcome fun u => ?_
  by_cases hut : u = t
  · exact Or.inl ⟨by simp [hut], Or.inl hut⟩
  · cases hm : (w.engine i).tasks.get? u with
    | none => exact Or.inl ⟨by simp [hut, hm], Or.inr rfl⟩
    | some m =>
      refine Or.inr ⟨hut, m, m.children, rfl, by simp [hut, hm], fun hl => ?_⟩
      refine children_of_other hkids hm (fun hp => ?_) hl
      rw [hpar u m hm hut hp] at hl
      cases hl

/-- The outcome of a task is recorded, and its live parent does not count it any more. -/
theorem fells_announce_above (outcome : Outcome) {parent : TaskId} {above : TaskNode}
    (hp : n.parent = some parent) (hpt : parent ≠ t) (ha : w.task? i parent = some above) :
    w.Fells i P [.taskFinished t outcome] ((w.announce i t n outcome).setTask i parent fun n =>
      { n with children := above.children.filter (· ≠ t) }) := by
  obtain ⟨h1, h2, h3⟩ := announce_eq (t := t) (n := n) hi outcome
  have hia : (w.announce i t n outcome).Has i := by
    rw [has_iff, h3, ← has_iff]
    exact hi
  refine ⟨⟨n.joiners.map fun x => (x, outcome), ?_⟩, ⟨[.taskFinished t outcome], h2, rfl⟩,
    alive_setEngine.trans h3⟩
  rw [World.setTask, engine_setEngine hia, h1]
  refine .finalize (w.engine i) hn outcome fun u => ?_
  by_cases hut : u = t
  · subst hut
    have hup : ¬ u = parent := fun h => hpt h.symm
    exact Or.inl ⟨by simp [hup], Or.inl rfl⟩
  by_cases hup : u = parent
  · subst hup
    have hm : (w.engine i).tasks.get? u = some above := ha
    exact Or.inr ⟨hut, above, above.children.filter (· ≠ t), hm, by simp [hut, hm], fun _ => rfl⟩
  · cases hm : (w.engine i).tasks.get? u with
    | none => exact Or.inl ⟨by simp [hut, hup, hm], Or.inr rfl⟩
    | some m =>
      refine Or.inr ⟨hut, m, m.children, rfl, by simp [hut, hup, hm], ?_⟩
      refine children_of_other hkids hm fun hpu => hup ?_
      rw [hp] at hpu
      exact (Option.some.inj hpu.1).symm

/-- The outcome of a task is recorded; only its parent counted it among its children. -/
theorem fells_finalize (outcome : Outcome) :
    w.Fells i P (n.farewell i t outcome) (w.finalize i t outcome).2 := by
  rw [finalize_eq hn]
  simp only
  split
  · rename_i parent hp hd
    have hatt : n.isAttached = true := by simp [TaskNode.isAttached, hp, hd]
    have hms : n.farewell i t outcome = [.taskFinished t outcome] := by
      cases outcome <;> simp [TaskNode.farewell, hatt]
    rw [hms]
    have htask : ∀ u, (w.announce i t n outcome).task? i u =
        if u = t then none else w.task? i u := by
      intro u
      rw [World.task?, (announce_eq hi outcome).1]
      simp [World.task?]
    cases ha : (w.announce i t n outcome).task? i parent with
    | none =>
      refine fells_announce hi hn hkids outcome fun u m hm hut hpu => ?_
      rw [hp] at hpu
      cases hpu.1
      rw [htask, if_neg hut, hm] at ha
      cases ha
    | some above =>
      rw [htask] at ha
      split at ha
      · cases ha
      rename_i hpt
      by_cases hterm : above.status.isTerminal = true
      · simp only [hterm, if_true]
        refine fells_announce hi hn hkids outcome fun u m hm _ hpu => ?_
        rw [hp] at hpu
        cases hpu.1
        cases ha.symm.trans hm
        exact hterm
      · have hset := fells_announce_above (P := P) hi hn hkids outcome hp hpt ha
        simp only [hterm, Bool.false_eq_true, if_false]
        cases outcome with
        | aborted f => exact hset
        | _ =>
          simp only
          split <;> exact hset
  · rename_i hnp
    have hroot : ¬ n.isAttached = true := by
      intro hatt
      obtain ⟨name, parent, detached⟩ := n
      simp only [TaskNode.isAttached, Bool.and_eq_true, Bool.not_eq_true', Option.isSome_iff_exists]
        at hatt
      obtain ⟨⟨p, rfl⟩, rfl⟩ := hatt
      exact hnp p rfl rfl
    have h := fells_announce (P := P) hi hn hkids outcome fun u m _ _ hpu =>
      absurd hpu.2 fun hd => hnp u hpu.1 hd
    cases outcome with
    | aborted f =>
      have hr : (w.announce i t n (.aborted f)).Fells i P
          [.uncaught { owner := i, id := t, name := n.name } f]
          ((w.announce i t n (.aborted f)).record i
            (.uncaught { owner := i, id := t, name := n.name } f)) :=
        .record (e := .uncaught { owner := i, id := t, name := n.name } f) rfl
      simp only [TaskNode.farewell, hroot]
      exact (h.trans hr).mono fun _ h => h.elim id id
    | _ => exact h

end

end World

end SagaMachine
