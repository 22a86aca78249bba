import SagaMachine.Proofs.Rounds

/-!
# The company of a session

The workers of a session sleep, each on a timer of its own, and are children of the watcher. What
a job does belongs to one task (`Stage.Apart`), so the other workers sleep on, and nothing of the
watcher or of the pinger changes if the job is not theirs.
-/

namespace SagaMachine

namespace Table

variable {κ α : Type} [DecidableEq κ]

theorem contains_modify (t : Table κ α) (k j : κ) (f : α → α) :
    (t.modify k f).contains j = t.contains j := by
  simp only [contains, get?_modify]
  split
  · next h => simp [h]
  · rfl

theorem contains_erase (t : Table κ α) (k j : κ) :
    (t.erase k).contains j = (decide (j ≠ k) && t.contains j) := by
  by_cases h : j = k <;> simp [contains, h]

theorem contains_insert (t : Table κ α) (k j : κ) (v : α) :
    (t.insert k v).contains j = (decide (j = k) || t.contains j) := by
  by_cases h : j = k <;> simp [contains, h]

theorem contains_empty (k : κ) : (empty : Table κ α).contains k = false := rfl

theorem contains_of_get? {t : Table κ α} {k : κ} {v : α} (h : t.get? k = some v) :
    t.contains k = true :=
  contains_eq_true.2 ⟨v, h⟩

end Table

namespace Session

variable {p : Session} {g g' g'' : Stage} {t u : TaskId} {e : EffectId} {d : TimerId} {n : TaskNode}
  {kind : WaitKind} {env : Env} {into : Option String} {agenda : Agenda} {a : Action}
  {kids crew : List TaskId} {spare : List TimerId} {own : List BusTaker} {left : Nat} {r : RaceIds}

/-! ## Numbers -/

/-- What is in the tables has a number that was given out. -/
structure Stage.Numbered (g : Stage) : Prop where
  tasks : ∀ t, g.engine.tasks.contains t = true → t < g.engine.nextTask
  waits : ∀ e, g.engine.waits.contains e = true → e < g.engine.nextEffect
  deferreds : ∀ d, g.deferreds.contains d = true → d < g.nextTimer
  timers : ∀ tm ∈ g.timers, tm.id < g.nextTimer

namespace Stage.Numbered

theorem answered (h : g.Numbered) : (g.answered agenda t e env).Numbered := by
  obtain ⟨ht, hw, hd, htm⟩ := h
  constructor <;> simp [Table.contains_modify, Table.contains_erase, Table.contains_insert] <;> grind

theorem passed {id : EffectId} {woken kept : List BusTaker} (h : g.Numbered) :
    (g.passed agenda a id woken kept).Numbered :=
  ⟨h.tasks, h.waits, h.deferreds, h.timers⟩

theorem relieved (h : g.Numbered) : (g.relieved agenda t e crew).Numbered := by
  obtain ⟨ht, hw, hd, htm⟩ := h
  constructor <;> simp [Table.contains_modify, Table.contains_erase] <;> grind

theorem retire {outcome : Outcome} (h : g.Numbered) : (g.retire t outcome).Numbered := by
  obtain ⟨ht, hw, hd, htm⟩ := h
  constructor <;> simp [Table.contains_erase] <;> grind

theorem napping {ms : Nat} (h : g.Numbered) : (g.napping agenda t env ms).Numbered := by
  obtain ⟨ht, hw, hd, htm⟩ := h
  constructor <;> simp [Table.contains_modify, Table.contains_insert] <;> grind

theorem forking (h : g.Numbered) : (g.forking (p := p) agenda e a).Numbered := by
  obtain ⟨ht, hw, hd, htm⟩ := h
  constructor <;> simp [Table.contains_modify, Table.contains_erase, Table.contains_insert] <;> grind

theorem listening (h : g.Numbered) : (g.listening p agenda).Numbered := by
  obtain ⟨ht, hw, hd, htm⟩ := h
  constructor <;> simp [Table.contains_modify, Table.contains_insert] <;> grind

theorem waiting (h : g.Numbered) : (g.waiting p agenda e left env).Numbered := by
  obtain ⟨ht, hw, hd, htm⟩ := h
  constructor <;> simp [Table.contains_modify, Table.contains_erase, Table.contains_insert] <;> grind

theorem counting (h : g.Numbered) : (g.counting agenda r).Numbered := by
  obtain ⟨ht, hw, hd, htm⟩ := h
  constructor <;> simp [Table.contains_modify, Table.contains_erase] <;> grind

theorem reporting (h : g.Numbered) : (g.reporting p agenda r left env).Numbered := by
  obtain ⟨ht, hw, hd, htm⟩ := h
  constructor <;> simp [Table.contains_modify, Table.contains_erase, Table.contains_insert] <;> grind

theorem reported (h : g.Numbered) : (g.reported agenda e).Numbered := by
  obtain ⟨ht, hw, hd, htm⟩ := h
  constructor <;> simp [Table.contains_modify, Table.contains_erase] <;> grind

theorem pinging (h : g.Numbered) : (g.pinging p left env).Numbered := by
  obtain ⟨ht, hw, hd, htm⟩ := h
  constructor <;> simp [Table.contains_modify, Table.contains_insert] <;> grind

theorem finished {x : Value} (h : g.Numbered) : (g.finished x).Numbered := by
  obtain ⟨ht, hw, hd, htm⟩ := h
  constructor <;> simp [Table.contains_erase] <;> grind

end Stage.Numbered

/-! ## Who sleeps -/

/-- A worker sleeps. -/
structure Stage.Naps (g : Stage) (t : TaskId) (e : EffectId) (d : TimerId) : Prop where
  task : ∃ env, g.engine.tasks.get? t = some (workerNode [.block [sendPong]] env e)
  wait : g.engine.waits.get? e = some ⟨t, .task, .call d⟩
  deferred : g.deferreds.get? d = some { timer := some d, listener := some ⟨0, e⟩ }

/-- Only what belongs to a task has changed, or is new. -/
structure Stage.Apart (g g' : Stage) (t : TaskId) : Prop where
  tasks : ∀ u n, g.engine.tasks.get? u = some n → u ≠ t → g'.engine.tasks.get? u = some n
  waits : ∀ e w, g.engine.waits.get? e = some w → w.task ≠ t → g'.engine.waits.get? e = some w
  deferreds : ∀ d e w, g.deferreds.get? d = some { timer := some d, listener := some ⟨0, e⟩ } →
    g.engine.waits.get? e = some w → w.task ≠ t →
    g'.deferreds.get? d = some { timer := some d, listener := some ⟨0, e⟩ }

namespace Stage.Apart

theorem naps (h : g.Apart g' t) (hu : u ≠ t) (hn : g.Naps u e d) : g'.Naps u e d where
  task := hn.task.imp fun _ hx => h.tasks u _ hx hu
  wait := h.waits e _ hn.wait hu
  deferred := h.deferreds d e _ hn.deferred hn.wait hu

theorem trans (h : g.Apart g' t) (h' : g'.Apart g'' t) : g.Apart g'' t where
  tasks u n hn hu := h'.tasks u n (h.tasks u n hn hu) hu
  waits e w hw hu := h'.waits e w (h.waits e w hw hu) hu
  deferreds d e w hd hw hu := h'.deferreds d e w (h.deferreds d e w hd hw hu) (h.waits e w hw hu) hu

theorem answered (h : g.Numbered) (hw : g.engine.waits.get? e = some ⟨t, .task, kind⟩) :
    g.Apart (g.answered agenda t e env) t := by
  have hx := @Table.contains_of_get? _ _ _ g.engine.waits
  have hb := h.waits
  constructor <;> simp <;> grind

theorem relieved (hw : g.engine.waits.get? e = some ⟨t, .task, kind⟩)
    (hu : u ≠ 1) (hut : u ≠ t) (hn : g.Naps u e' d) : (g.relieved agenda t e crew).Naps u e' d := by
  obtain ⟨⟨env, ht⟩, hw', hd⟩ := hn
  refine ⟨⟨env, ?_⟩, ?_, ?_⟩ <;> simp <;> grind

theorem napping {ms : Nat} (h : g.Numbered) : g.Apart (g.napping agenda t env ms) t := by
  have hx := @Table.contains_of_get? _ _ _ g.engine.waits
  have hy := @Table.contains_of_get? _ _ _ g.deferreds
  obtain ⟨ht, hw, hd, htm⟩ := h
  constructor <;> simp <;> grind

theorem forking (h : g.Numbered) (hw : g.engine.waits.get? e = some ⟨1, .task, kind⟩) :
    g.Apart (g.forking (p := p) agenda e a) 1 := by
  have hx := @Table.contains_of_get? _ _ _ g.engine.waits
  have hy := @Table.contains_of_get? _ _ _ g.engine.tasks
  obtain ⟨ht, hw, hd, htm⟩ := h
  constructor <;> simp <;> grind

theorem listening (h : g.Numbered) : g.Apart (g.listening p agenda) 1 := by
  have hx := @Table.contains_of_get? _ _ _ g.engine.waits
  obtain ⟨ht, hw, hd, htm⟩ := h
  constructor <;> simp <;> grind

theorem waiting (h : g.Numbered) (hw : g.engine.waits.get? e = some ⟨2, .task, kind⟩) :
    g.Apart (g.waiting p agenda e left env) 2 := by
  have hx := @Table.contains_of_get? _ _ _ g.engine.waits
  have hy := @Table.contains_of_get? _ _ _ g.deferreds
  obtain ⟨ht, hw, hd, htm⟩ := h
  constructor <;> simp <;> grind

theorem counting (hr : g.Races 2 ["pong", "timeout"] r)
    (hd : g.deferreds.get? r.timer = some { timer := some r.timer, listener := some ⟨0, r.delay⟩ }) :
    g.Apart (g.counting agenda r) 2 := by
  obtain ⟨h₁, h₂, h₃⟩ := hr
  constructor <;> simp <;> grind

theorem reporting (h : g.Numbered) (hr : g.Races 2 ["pong", "timeout"] r) :
    g.Apart (g.reporting p agenda r left env) 2 := by
  have hx := @Table.contains_of_get? _ _ _ g.engine.waits
  obtain ⟨ht, hw, hd, htm⟩ := h
  obtain ⟨h₁, h₂, h₃⟩ := hr
  constructor <;> simp <;> grind

theorem reported (hw : g.engine.waits.get? e = some ⟨2, .task, kind⟩) :
    g.Apart (g.reported agenda e) 2 := by
  constructor <;> simp <;> grind

theorem pinging (h : g.Numbered) : g.Apart (g.pinging p left env) 2 := by
  have hx := @Table.contains_of_get? _ _ _ g.engine.waits
  obtain ⟨ht, hw, hd, htm⟩ := h
  constructor <;> simp <;> grind

theorem finished {x : Value} : g.Apart (g.finished x) 2 := by
  constructor <;> simp <;> grind

end Stage.Apart

theorem Stage.Apart.passed {id : EffectId} {woken kept : List BusTaker} :
    g.Apart (g.passed agenda a id woken kept) t :=
  ⟨fun _ _ h _ => h, fun _ _ h _ => h, fun _ _ _ h _ _ => h⟩

/-- What a task is, and what it waits for, is as before. -/
structure Stage.Keeps (g g' : Stage) (t : TaskId) : Prop where
  task : ∀ n, g.engine.tasks.get? t = some n → g'.engine.tasks.get? t = some n
  waits : ∀ e w, g.engine.waits.get? e = some w → w.task = t → g'.engine.waits.get? e = some w

theorem Stage.Apart.keeps (h : g.Apart g' t) (hu : u ≠ t) : g.Keeps g' u where
  task n hn := h.tasks u n hn hu
  waits e w hw ht := h.waits e w hw (ht ▸ hu)

theorem Stage.Keeps.trans (h : g.Keeps g' t) (h' : g'.Keeps g'' t) : g.Keeps g'' t where
  task n hn := h'.task n (h.task n hn)
  waits e w hw ht := h'.waits e w (h.waits e w hw ht) ht

/-! ## The company -/

/--
The workers `crew` sleep, each on a timer; `kids` are all the workers that there are, and `spare`
are the timers that are not theirs.
-/
structure Stage.Company (kids crew : List TaskId) (spare : List TimerId) (g : Stage) : Prop where
  numbered : g.Numbered
  two : 2 < g.engine.nextTask
  known : ∀ t, g.engine.tasks.contains t = true → t = 1 ∨ t = 2 ∨ t ∈ kids
  above : ∀ t ∈ kids, 2 < t
  nodup : kids.Nodup
  sub : ∀ t ∈ crew, t ∈ kids
  naps : ∀ t ∈ crew, ∃ e, ∃ tm ∈ g.timers, g.Naps t e tm.id
  due : ∀ tm ∈ g.timers, tm.deferred = tm.id ∧ tm.answer = .ok .unit ∧
    (tm.id ∈ spare ∨ ∃ t ∈ crew, ∃ e, g.Naps t e tm.id)

/-- What the watcher does, and the taker it has on the bus. -/
inductive Stage.Watched (p : Session) (kids : List TaskId) (g : Stage) : List BusTaker → Prop
  | listens {w : EffectId} {k : TakerId}
      (node : g.engine.tasks.get? 1 = some (watcherNode p kids .taking (some w)))
      (wait : g.engine.waits.get? w = some ⟨1, .task, .take .bus k⟩)
      (live : g.engine.outcomes.get? 1 = none) :
      g.Watched p kids [⟨k, 1, .type "PING", w⟩]
  /-- The bus has ended, and there are workers. -/
  | held {pending : Option EffectId}
      (node : g.engine.tasks.get? 1 = some (heldNode kids pending)) (busy : kids ≠ [])
      (live : g.engine.outcomes.get? 1 = none) : g.Watched p kids []
  /-- The bus has ended, and all workers are over. -/
  | gone (node : g.engine.tasks.get? 1 = none) (idle : kids = [])
      (ended : g.engine.outcomes.get? 1 = some (.done .unit)) : g.Watched p kids []

namespace Stage

/-- Effects of different tasks are different. -/
theorem ne_of_owner {e' : EffectId} {w w' : Wait} (hw : g.engine.waits.get? e = some w)
    (hw' : g.engine.waits.get? e' = some w') (ht : w.task ≠ w'.task) : e ≠ e' := by
  rintro rfl
  cases hw.symm.trans hw'
  exact ht rfl

theorem Naps.same (h : g.Naps t e d) {e' : EffectId} {d' : TimerId} (h' : g.Naps t e' d') :
    e' = e ∧ d' = d := by
  obtain ⟨⟨env, ht⟩, hw, -⟩ := h
  obtain ⟨⟨env', ht'⟩, hw', -⟩ := h'
  have he : e' = e := by
    rw [ht] at ht'
    simp only [workerNode, Option.some.injEq, TaskNode.mk.injEq] at ht'
    grind
  subst he
  rw [hw] at hw'
  exact ⟨rfl, by grind⟩

/-- A timer wakes one task. -/
theorem Naps.task_eq (h : g.Naps t e d) {e' : EffectId} (h' : g.Naps u e' d) : u = t := by
  have hd := h.deferred.symm.trans h'.deferred
  simp only [Option.some.injEq, Deferred.mk.injEq, EffectRef.mk.injEq] at hd
  have hw := h.wait
  obtain rfl : e = e' := by grind
  rw [h'.wait] at hw
  grind

theorem Company.apart (h : g.Company kids crew spare) (ha : g.Apart g' t) (hn : g'.Numbered)
    (ht : t ∉ crew) (htm : g'.timers = g.timers) (hnt : g'.engine.nextTask = g.engine.nextTask)
    (hk : ∀ u, g'.engine.tasks.contains u = true → g.engine.tasks.contains u = true) :
    g'.Company kids crew spare where
  numbered := hn
  two := hnt ▸ h.two
  known u hu := h.known u (hk u hu)
  above := h.above
  nodup := h.nodup
  sub := h.sub
  naps u hu := by
    obtain ⟨e, tm, htm', hnap⟩ := h.naps u hu
    exact ⟨e, tm, htm ▸ htm', ha.naps (fun he => ht (he ▸ hu)) hnap⟩
  due tm hm := by
    obtain ⟨hd, hans, hor⟩ := h.due tm (htm ▸ hm)
    refine ⟨hd, hans, hor.imp_right ?_⟩
    rintro ⟨u, hu, e, hnap⟩
    exact ⟨u, hu, e, ha.naps (fun he => ht (he ▸ hu)) hnap⟩

theorem Watched.apart (h : g.Watched p kids own) (ha : g.Apart g' t) (ht : t ≠ 1)
    (hk : g'.engine.tasks.contains 1 = true → g.engine.tasks.contains 1 = true)
    (ho : g'.engine.outcomes.get? 1 = g.engine.outcomes.get? 1) : g'.Watched p kids own := by
  cases h with
  | listens node wait live =>
    exact .listens (ha.tasks 1 _ node ht.symm) (ha.waits _ _ wait ht.symm) (ho.trans live)
  | held node busy live => exact .held (ha.tasks 1 _ node ht.symm) busy (ho.trans live)
  | gone node idle ended =>
    refine .gone ?_ idle (ho.trans ended)
    cases hg : g'.engine.tasks.get? 1 with
    | none => rfl
    | some n =>
      obtain ⟨m, hm⟩ := Table.contains_eq_true.1 (hk (Table.contains_of_get? hg))
      cases node.symm.trans hm

/-- What no task looks at is changed. -/
@[simp] def around (g : Stage) (driving : Bool) (now : Nat) (labels : Table String TaskRef)
    (reply : Option Reply) (budget : Nat) : Stage :=
  { g with engine := { g.engine with driving }, now, labels, reply, budget }

section Around

variable (driving : Bool) (now : Nat) (labels : Table String TaskRef) (reply : Option Reply)
  (budget : Nat)

theorem Naps.around (h : g.Naps t e d) : (g.around driving now labels reply budget).Naps t e d :=
  ⟨h.task, h.wait, h.deferred⟩

theorem Company.around (h : g.Company kids crew spare) :
    (g.around driving now labels reply budget).Company kids crew spare where
  numbered := ⟨h.numbered.tasks, h.numbered.waits, h.numbered.deferreds, h.numbered.timers⟩
  two := h.two
  known := h.known
  above := h.above
  nodup := h.nodup
  sub := h.sub
  naps t ht :=
    have ⟨e, tm, hm, hn⟩ := h.naps t ht
    ⟨e, tm, hm, hn.around ..⟩
  due tm hm :=
    have ⟨hd, ha, hor⟩ := h.due tm hm
    ⟨hd, ha, hor.imp_right fun ⟨t, ht, e, hn⟩ => ⟨t, ht, e, hn.around ..⟩⟩

theorem Watched.around (h : g.Watched p kids own) :
    (g.around driving now labels reply budget).Watched p kids own := by
  cases h with
  | listens node wait live => exact .listens node wait live
  | held node busy live => exact .held node busy live
  | gone node idle ended => exact .gone node idle ended

end Around

/-- A timer that fires is nothing to the watcher. -/
theorem Watched.fire {tm : Timer} (h : g.Watched p kids own) : (g.fire tm e).Watched p kids own := by
  cases h with
  | listens node wait live => exact .listens node wait live
  | held node busy live => exact .held node busy live
  | gone node idle ended => exact .gone node idle ended

/-- The watcher is told of PINGs only. -/
theorem Watched.select (h : g.Watched p kids own) (ha : a.kind ≠ "PING") (others : List BusTaker) :
    Bus.select (.action a) [] (own ++ others) =
      ⟨(Bus.select (.action a) [] others).woken, own ++ (Bus.select (.action a) [] others).kept,
        (Bus.select (.action a) [] others).notes⟩ := by
  cases h with
  | listens node wait live =>
    simp [Bus.select, Pattern.accepts, Pattern.notes, Value.kind?, ha]
  | held node busy live => rfl
  | gone node idle ended => rfl

theorem Keeps.races (h : g.Keeps g' 2) (hr : g.Races 2 ["pong", "timeout"] r) :
    g'.Races 2 ["pong", "timeout"] r :=
  ⟨h.waits _ _ hr.race rfl, h.waits _ _ hr.take rfl, h.waits _ _ hr.delay rfl⟩

/-! ## What the jobs do to the company -/

namespace Numbered

theorem fire {tm : Timer} (h : g.Numbered) (hd : g.deferreds.contains tm.deferred = true) :
    (g.fire tm e).Numbered := by
  obtain ⟨h₁, h₂, h₃, h₄⟩ := h
  constructor <;> simp [Table.contains_insert] <;> grind

end Numbered

/-- The timer of another fires. -/
theorem Naps.fire {tm : Timer} (h : g.Naps t e d) {e' : EffectId} (hd : d ≠ tm.deferred) :
    (g.fire tm e').Naps t e d :=
  ⟨h.task, h.wait, by simpa [hd] using h.deferred⟩

/-- The timer of a worker fires. -/
theorem Company.fire_worker {tm : Timer} (h : g.Company crew crew spare) (hm : tm ∈ g.timers)
    (ht : t ∈ crew) (hn : g.Naps t e tm.id) :
    (g.fire tm e).Company crew (crew.filter (· ≠ t)) spare := by
  have hdeferred : tm.deferred = tm.id := (h.due tm hm).1
  have hkeep {u : TaskId} {e' : EffectId} {tm' : Timer} (hu : u ≠ t) (hn' : g.Naps u e' tm'.id) :
      tm'.id ≠ tm.id ∧ (g.fire tm e).Naps u e' tm'.id := by
    have hne : tm'.id ≠ tm.id := fun he => hu (hn.task_eq (he ▸ hn'))
    exact ⟨hne, hn'.fire (hdeferred ▸ hne)⟩
  refine ⟨h.numbered.fire (Table.contains_of_get? (hdeferred ▸ hn.deferred)), h.two, h.known,
    h.above, h.nodup, fun u hu => (List.mem_filter.1 hu).1, fun u hu => ?_, fun tm' hm' => ?_⟩
  · obtain ⟨hu, hne⟩ := List.mem_filter.1 hu
    obtain ⟨e', tm', hm', hn'⟩ := h.naps u hu
    obtain ⟨hid, hkept⟩ := hkeep (by simpa using hne) hn'
    exact ⟨e', tm', List.mem_filter.2 ⟨hm', by simpa using hid⟩, hkept⟩
  · obtain ⟨hm', hid⟩ := List.mem_filter.1 hm'
    obtain ⟨hd, hans, hor⟩ := h.due tm' hm'
    refine ⟨hd, hans, hor.imp_right ?_⟩
    rintro ⟨u, hu, e', hn'⟩
    have hut : u ≠ t := by
      rintro rfl
      exact (by simpa using hid : tm'.id ≠ tm.id) (hn.same hn').2
    exact ⟨u, List.mem_filter.2 ⟨hu, by simpa using hut⟩, e', (hkeep hut hn').2⟩

/-- What fires belongs to the task that sleeps on it. -/
theorem Naps.apart_fire {tm : Timer} (h : g.Naps t e tm.id) (hd : tm.deferred = tm.id) :
    g.Apart (g.fire tm e) t where
  tasks _ _ hn _ := hn
  waits _ _ hw _ := hw
  deferreds d e' w hd' hw ht := by
    have hne : d ≠ tm.deferred := by
      rintro rfl
      rw [hd, h.deferred] at hd'
      have hwait := h.wait
      grind
    simpa [hne] using hd'

/-- A timer that is no worker's fires, or is stopped. -/
theorem Company.without (h : g.Company kids crew [d])
    (hg : ∀ u ∈ crew, ∀ e d', d' ≠ d → g.Naps u e d' → g'.Naps u e d')
    (hd : ∀ u ∈ crew, ∀ e, ¬ g.Naps u e d) (hn : g'.Numbered)
    (htm : g'.timers = g.timers.filter fun tm => tm.id ≠ d)
    (hnt : g'.engine.nextTask = g.engine.nextTask)
    (hk : ∀ u, g'.engine.tasks.contains u = true → g.engine.tasks.contains u = true) :
    g'.Company kids crew [] := by
  refine ⟨hn, hnt ▸ h.two, fun u hu => h.known u (hk u hu), h.above, h.nodup, h.sub,
    fun u hu => ?_, fun tm hm => ?_⟩
  · obtain ⟨e, tm, hm, hnap⟩ := h.naps u hu
    have hne : tm.id ≠ d := fun he => hd u hu e (he ▸ hnap)
    exact ⟨e, tm, htm ▸ List.mem_filter.2 ⟨hm, by simpa using hne⟩, hg u hu e _ hne hnap⟩
  · rw [htm] at hm
    obtain ⟨hm, hne⟩ := List.mem_filter.1 hm
    have hne : tm.id ≠ d := by simpa using hne
    obtain ⟨hdef, hans, hor⟩ := h.due tm hm
    obtain ⟨u, hu, e, hnap⟩ := hor.resolve_left fun hx => hne (List.mem_singleton.1 hx)
    exact ⟨hdef, hans, Or.inr ⟨u, hu, e, hg u hu e _ hne hnap⟩⟩

/-- The timer of a race is no worker's. -/
theorem Races.not_naps (hr : g.Races 2 ["pong", "timeout"] r)
    (hd : g.deferreds.get? r.timer = some { timer := some r.timer, listener := some ⟨0, r.delay⟩ }) :
    ¬ g.Naps u e r.timer := by
  intro hn
  have hdef := hd.symm.trans hn.deferred
  have hw := hn.wait
  have hdelay := hr.delay
  grind

/-- A worker starts to sleep. -/
theorem Company.napping {ms : Nat} (h : g.Company kids crew []) (ht : t ∈ kids) (hc : t ∉ crew)
    (hnode : g.engine.tasks.get? t = some (freshNode p env)) :
    (g.napping agenda t env ms).Company kids (crew ++ [t]) [] := by
  have hapart : g.Apart (g.napping agenda t env ms) t := .napping h.numbered
  have hnew : (g.napping agenda t env ms).Naps t g.engine.nextEffect g.nextTimer :=
    ⟨⟨env, by simp [hnode, freshNode, workerNode]⟩, by simp, by simp⟩
  have hkeep {u : TaskId} (hu : u ∈ crew) {e : EffectId} {d : TimerId} (hn : g.Naps u e d) :
      (g.napping agenda t env ms).Naps u e d := hapart.naps (fun he => hc (he ▸ hu)) hn
  refine ⟨h.numbered.napping, h.two, fun u hu => h.known u (by simpa [Table.contains_modify] using hu),
    h.above, h.nodup, fun u hu => ?_, fun u hu => ?_, fun tm hm => ?_⟩
  · rcases List.mem_append.1 hu with hu | hu
    · exact h.sub u hu
    · exact List.mem_singleton.1 hu ▸ ht
  · rcases List.mem_append.1 hu with hu | hu
    · obtain ⟨e, tm, hm, hn⟩ := h.naps u hu
      exact ⟨e, tm, List.mem_append_left _ hm, hkeep hu hn⟩
    · cases List.mem_singleton.1 hu
      exact ⟨_, _, List.mem_append_right _ (List.mem_singleton.2 rfl), hnew⟩
  · rcases List.mem_append.1 hm with hm | hm
    · obtain ⟨hd, hans, hor⟩ := h.due tm hm
      refine ⟨hd, hans, hor.imp_right ?_⟩
      rintro ⟨u, hu, e, hn⟩
      exact ⟨u, List.mem_append_left _ hu, e, hkeep hu hn⟩
    · cases List.mem_singleton.1 hm
      exact ⟨rfl, rfl, Or.inr ⟨t, List.mem_append_right _ (List.mem_singleton.2 rfl), _, hnew⟩⟩

/-- The pinger starts a race. -/
theorem Company.waiting (h : g.Company kids crew []) (ht : 2 ∉ crew)
    (hw : g.engine.waits.get? e = some ⟨2, .task, kind⟩) :
    (g.waiting p agenda e left env).Company kids crew [g.nextTimer] := by
  have hapart : g.Apart (g.waiting p agenda e left env) 2 := .waiting h.numbered hw
  have hkeep {u : TaskId} (hu : u ∈ crew) {e' : EffectId} {d : TimerId} (hn : g.Naps u e' d) :
      (g.waiting p agenda e left env).Naps u e' d := hapart.naps (fun he => ht (he ▸ hu)) hn
  refine ⟨h.numbered.waiting, h.two, fun u hu => h.known u (by simpa [Table.contains_modify] using hu),
    h.above, h.nodup, h.sub, fun u hu => ?_, fun tm hm => ?_⟩
  · obtain ⟨e', tm, hm, hn⟩ := h.naps u hu
    exact ⟨e', tm, List.mem_append_left _ hm, hkeep hu hn⟩
  · rcases List.mem_append.1 hm with hm | hm
    · obtain ⟨hd, hans, hor⟩ := h.due tm hm
      refine ⟨hd, hans, Or.inr ?_⟩
      obtain ⟨u, hu, e', hn⟩ := hor.resolve_left (List.not_mem_nil)
      exact ⟨u, hu, e', hkeep hu hn⟩
    · cases List.mem_singleton.1 hm
      exact ⟨rfl, rfl, Or.inl (List.mem_singleton.2 rfl)⟩

/-- A worker is forked. -/
theorem Company.forking (h : g.Company crew crew []) (ht : 1 ∉ crew)
    (hw : g.engine.waits.get? e = some ⟨1, .task, kind⟩) :
    (g.forking (p := p) agenda e a).Company (crew ++ [g.engine.nextTask]) crew [] := by
  have hapart : g.Apart (g.forking (p := p) agenda e a) 1 := .forking h.numbered hw
  have hnext (u : TaskId) (hu : u ∈ crew) : u < g.engine.nextTask := by
    obtain ⟨e', tm, hm, hn⟩ := h.naps u hu
    obtain ⟨env, hnode⟩ := hn.task
    exact h.numbered.tasks u (Table.contains_of_get? hnode)
  have htwo := h.two
  have hkeep {u : TaskId} (hu : u ∈ crew) {e' : EffectId} {d : TimerId} (hn : g.Naps u e' d) :
      (g.forking (p := p) agenda e a).Naps u e' d := hapart.naps (fun he => ht (he ▸ hu)) hn
  refine ⟨h.numbered.forking, Nat.lt_succ_of_lt h.two, fun u hu => ?_, fun u hu => ?_, ?_,
    fun u hu => List.mem_append_left _ hu, fun u hu => ?_, fun tm hm => ?_⟩
  · have hu : u = g.engine.nextTask ∨ g.engine.tasks.contains u = true := by
      simpa [Table.contains_modify, Table.contains_insert] using hu
    rcases hu with rfl | hu
    · exact Or.inr (Or.inr (List.mem_append_right _ (List.mem_singleton.2 rfl)))
    · exact (h.known u hu).imp_right fun h => h.imp_right (List.mem_append_left _)
  · rcases List.mem_append.1 hu with hu | hu
    · exact h.above u hu
    · exact List.mem_singleton.1 hu ▸ h.two
  · refine List.nodup_append.2 ⟨h.nodup, by simp, fun u hu v hv => ?_⟩
    rw [List.mem_singleton.1 hv]
    exact Nat.ne_of_lt (hnext u hu)
  · obtain ⟨e', tm, hm, hn⟩ := h.naps u hu
    exact ⟨e', tm, hm, hkeep hu hn⟩
  · obtain ⟨hd, hans, hor⟩ := h.due tm hm
    refine ⟨hd, hans, hor.imp_right ?_⟩
    rintro ⟨u, hu, e', hn⟩
    exact ⟨u, hu, e', hkeep hu hn⟩

/-- A worker is over. -/
theorem Company.relieved (h : g.Company kids (kids.filter (· ≠ t)) spare) (hone : 1 ∉ kids)
    (hw : g.engine.waits.get? e = some ⟨t, .task, kind⟩) :
    (g.relieved agenda t e kids).Company (kids.filter (· ≠ t)) (kids.filter (· ≠ t)) spare := by
  have hkeep {u : TaskId} (hu : u ∈ kids.filter (· ≠ t)) {e' : EffectId} {d : TimerId}
      (hn : g.Naps u e' d) : (g.relieved agenda t e kids).Naps u e' d := by
    obtain ⟨hu, hne⟩ := List.mem_filter.1 hu
    exact Apart.relieved hw (fun he => hone (he ▸ hu)) (by simpa using hne) hn
  refine ⟨h.numbered.relieved, h.two, fun u hu => ?_, fun u hu => h.above u ((List.mem_filter.1 hu).1),
    h.nodup.filter _, fun u hu => hu, fun u hu => ?_, fun tm hm => ?_⟩
  · have hu : u ≠ t ∧ g.engine.tasks.contains u = true := by
      simpa [Table.contains_modify, Table.contains_erase] using hu
    refine (h.known u hu.2).imp_right fun h => h.imp_right fun hk => ?_
    exact List.mem_filter.2 ⟨hk, by simpa using hu.1⟩
  · obtain ⟨e', tm, hm, hn⟩ := h.naps u hu
    exact ⟨e', tm, hm, hkeep hu hn⟩
  · obtain ⟨hd, hans, hor⟩ := h.due tm hm
    refine ⟨hd, hans, hor.imp_right ?_⟩
    rintro ⟨u, hu, e', hn⟩
    exact ⟨u, hu, e', hkeep hu hn⟩

end Stage

end Session

end SagaMachine
