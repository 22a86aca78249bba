import SagaMachine.Proofs.Clearances
import SagaMachine.Proofs.Consistency
import SagaMachine.Proofs.PostOrder

/-!
# Climbs and teardowns come to an end

A task has a larger number than its parent, and a member of a combinator a larger one than the
combinator, wherever a scenario comes to (`Scenario.Visits.parent_lt`,
`Scenario.Visits.combinator_lt`). So tasks and waits form forests, and the loops that go along
them come to an end.

Cancellations, failures and cascades call each other. Together they come to an end because none
of them adds a task, and each of them makes a live task terminal, takes a task out of the table,
or leaves less to be done (`Instr.IsTeardown.advance`). This is put together in `teardown_leads`, for
any pieces of teardown in any state, if the destructors of bodies leave the middleware alone.

Main statement: `Scenario.Visits.terminating`.
-/

namespace SagaMachine

/-! ## What decreases -/

/-- The tasks of a table, the live ones counted twice. -/
def Tasks.load (tasks : Tasks) : Nat :=
  tasks.size + tasks.entries.countP fun e => !e.2.status.isTerminal

namespace Tasks

variable {tasks : Tasks} {t u : TaskId} {n : TaskNode} {f : TaskNode → TaskNode}

theorem load_modify_le (hf : ∀ n, n.status.isTerminal = true → (f n).status.isTerminal = true) :
    load (tasks.modify t f) ≤ load tasks := by
  refine Nat.add_le_add (Nat.le_of_eq (Table.size_modify ..)) ?_
  simp only [Table.modify, List.countP_map]
  refine List.countP_mono_left fun e _ he => ?_
  simp only [Function.comp, Bool.not_eq_true'] at he ⊢
  cases hs : e.2.status.isTerminal with
  | false => rfl
  | true =>
    split at he
    · rw [hf e.2 hs] at he
      cases he
    · rw [hs] at he
      cases he

/-- A live task becomes terminal. -/
theorem load_modify_lt (hn : tasks.get? t = some n) (hl : n.status.isTerminal = false)
    (hf : ∀ n, (f n).status.isTerminal = true) : load (tasks.modify t f) < load tasks := by
  obtain ⟨e, he, rfl⟩ := Option.map_eq_some_iff.1 hn
  have hkey : e.1 = t := by simpa using List.find?_some he
  refine Nat.add_lt_add_of_le_of_lt (Nat.le_of_eq (Table.size_modify ..)) ?_
  simp only [Table.modify, List.countP_map]
  obtain ⟨as, bs, hsplit⟩ := List.append_of_mem (List.mem_of_find?_eq_some he)
  have hle : ∀ es : List (TaskId × TaskNode), es.countP ((fun e => !e.2.status.isTerminal) ∘
      fun e => if e.1 = t then (e.1, f e.2) else e) ≤ es.countP fun e => !e.2.status.isTerminal := by
    intro es
    refine List.countP_mono_left fun e _ he => ?_
    simp only [Function.comp, Bool.not_eq_true'] at he ⊢
    split at he
    · rw [hf] at he
      cases he
    · exact he
  rw [hsplit, List.countP_append, List.countP_append, List.countP_cons, List.countP_cons]
  have := hle as
  have := hle bs
  simp only [Function.comp, hkey, if_true, hf, hl, Bool.not_true, Bool.not_false, Bool.false_eq_true,
    if_false]
  omega

/-- A task leaves the table. -/
theorem load_erase_lt (hn : tasks.get? t = some n) : load (tasks.erase t) < load tasks := by
  refine Nat.add_lt_add_of_lt_of_le (Table.size_erase_lt hn) ?_
  exact List.Sublist.countP_le List.filter_sublist

end Tasks

theorem World.task?_setTask {w : World} {i : MiddlewareId} (hi : w.Has i) (t u : TaskId)
    (f : TaskNode → TaskNode) :
    (w.setTask i t f).task? i u = if u = t then (w.task? i t).map f else w.task? i u := by
  simp only [World.task?, World.setTask, World.engine_setEngine hi, Table.get?_modify]

/-! ## Tasks that leave -/

/--
Tasks leave a middleware: each that leaves has its outcome recorded, once, and none is added. A
body is with its task as before, or gone.
-/
structure World.Ebbs (i : MiddlewareId) (es : List Event) (w w' : World) : Prop where
  past : w'.past i = es.reverse ++ w.past i
  left : ∀ {t}, (∃ n', w'.task? i t = some n') ↔ (∃ n, w.task? i t = some n) ∧ t ∉ finishedIn es
  finished : ∀ {t}, t ∈ finishedIn es → ∃ n, w.task? i t = some n
  nodup : (finishedIn es).Nodup
  bodies : ∀ {t n' b}, w'.task? i t = some n' → n'.body = some b →
    ∃ n, w.task? i t = some n ∧ n.body = some b
  load : (w'.engine i).tasks.load ≤ (w.engine i).tasks.load
  alive : w'.alive? i = w.alive? i

namespace World.Ebbs

variable {i : MiddlewareId} {w w' w'' : World} {es es' : List Event} {t : TaskId} {n : TaskNode}

theorem has (h : w.Ebbs i es w') (hi : w.Has i) : w'.Has i := by
  rw [has_iff, h.alive, ← has_iff]
  exact hi

theorem trans (h : w.Ebbs i es w') (h' : w'.Ebbs i es' w'') : w.Ebbs i (es ++ es') w'' where
  past := by rw [h'.past, h.past, List.reverse_append, List.append_assoc]
  left := by
    intro t
    rw [h'.left, h.left, finishedIn_append, List.mem_append, not_or, and_assoc]
  finished {t} ht := by
    rw [finishedIn_append, List.mem_append] at ht
    rcases ht with ht | ht
    · exact h.finished ht
    · exact (h.left.1 (h'.finished ht)).1
  nodup := by
    rw [finishedIn_append]
    refine List.nodup_append.2 ⟨h.nodup, h'.nodup, ?_⟩
    rintro t ht _ ht' rfl
    exact (h.left.1 (h'.finished ht')).2 ht
  bodies hn hb := by
    obtain ⟨n, hn, hb⟩ := h'.bodies hn hb
    exact h.bodies hn hb
  load := Nat.le_trans h'.load h.load
  alive := h'.alive.trans h.alive

/-- Nothing leaves while the tasks keep their places. -/
theorem of_tasks (hpast : w'.past i = es.reverse ++ w.past i) (hes : finishedIn es = [])
    (htasks : (w'.engine i).tasks = (w.engine i).tasks) (halive : w'.alive? i = w.alive? i) :
    w.Ebbs i es w' where
  past := hpast
  left := by
    intro t
    simp [World.task?, htasks, hes]
  finished ht := by
    rw [hes] at ht
    cases ht
  nodup := hes ▸ List.nodup_nil
  bodies hn hb := ⟨_, by simpa [World.task?, htasks] using hn, hb⟩
  load := Nat.le_of_eq (by rw [htasks])
  alive := halive

theorem refl (i : MiddlewareId) (w : World) : w.Ebbs i [] w := of_tasks rfl rfl rfl rfl

theorem of_untouched (h : Untouched i w w') : w.Ebbs i [] w' :=
  of_tasks h.past rfl (by rw [h.engine]) h.alive

theorem record {e : Event} (he : e.finished? = none) : w.Ebbs i [e] (w.record i e) :=
  of_tasks (past_record e) (by simp [finishedIn, he]) rfl rfl

theorem setEngine (hi : w.Has i) {f : Engine → Engine}
    (hf : (f (w.engine i)).tasks = (w.engine i).tasks) : w.Ebbs i [] (w.setEngine i f) :=
  of_tasks rfl rfl (by rw [engine_setEngine hi, hf]) alive_setEngine

theorem setTask (hi : w.Has i) (t : TaskId) {f : TaskNode → TaskNode}
    (hb : ∀ n, (f n).body = n.body ∨ (f n).body = none)
    (hs : ∀ n, n.status.isTerminal = true → (f n).status.isTerminal = true) :
    w.Ebbs i [] (w.setTask i t f) where
  past := rfl
  left := by
    intro u
    rw [task?_setTask hi]
    by_cases hut : u = t <;> simp [hut, finishedIn]
  finished ht := by cases ht
  nodup := List.nodup_nil
  bodies {u n' b} hn hb' := by
    rw [task?_setTask hi] at hn
    split at hn
    · rename_i hut
      subst hut
      obtain ⟨m, hm, rfl⟩ := Option.map_eq_some_iff.1 hn
      rcases hb m with h | h
      · exact ⟨m, hm, h ▸ hb'⟩
      · rw [h] at hb'
        cases hb'
    · exact ⟨n', hn, hb'⟩
  load := by
    rw [World.setTask, engine_setEngine hi]
    exact Tasks.load_modify_le hs
  alive := alive_setEngine

theorem deregister (hi : w.Has i) (x : EffectId) (kind : WaitKind) :
    w.Ebbs i [] (w.deregister i x kind) := by
  cases kind with
  | take source taker =>
    cases source with
    | bus => exact setEngine hi (f := fun e => { e with bus := e.bus.cancelTaker taker }) rfl
    | channel c => exact of_untouched (.of_eq rfl rfl)
  | call d => exact of_untouched (untouched_unsubscribe d)
  | join target => exact setTask hi target (fun _ => Or.inl rfl) fun _ => id
  | put | race | all => exact refl i w

/-- The effect that a task is parked on is withdrawn. -/
theorem cancelPending (hi : w.Has i) (pending : Option EffectId) :
    ∃ es, w.Ebbs i es (w.cancelPending i pending) := by
  have hall : ∀ (ps : List Passage) {w : World}, w.Has i → ∃ es, w.Ebbs i es (w.passAll i ps) := by
    intro ps
    induction ps with
    | nil => exact fun _ => ⟨[], refl i _⟩
    | cons p ps ih =>
      intro w hi
      have hp : ∃ es, w.Ebbs i es (w.pass i p) := by
        cases p with
        | withdrawn x wait =>
          have h := deregister hi x wait.kind
          exact ⟨_, h.trans (record (e := .withdrawn x) rfl)⟩
        | settled x signal => exact ⟨_, record (e := .settled x signal) rfl⟩
      obtain ⟨es, hp⟩ := hp
      obtain ⟨es', hps⟩ := ih (hp.has hi)
      exact ⟨es ++ es', hp.trans hps⟩
  cases pending with
  | none => exact ⟨[], refl i w⟩
  | some x =>
    have h : w.Ebbs i [] (w.setWaits i ((w.engine i).waits.detach [x]).2) :=
      setEngine hi (f := fun e => { e with waits := ((w.engine i).waits.detach [x]).2 }) rfl
    obtain ⟨es, hps⟩ := hall ((w.engine i).waits.detach [x]).1 (h.has hi)
    exact ⟨[] ++ es, h.trans hps⟩

/-- Several tasks become terminal. -/
theorem foldl_setStatus (hi : w.Has i) {status : Status} (hs : status.isTerminal = true)
    (ts : List TaskId) :
    w.Ebbs i [] (ts.foldl (fun w t => w.setTask i t fun n => { n with status }) w) := by
  induction ts generalizing w with
  | nil => exact refl i w
  | cons t ts ih =>
    have h := setTask (w := w) hi t (f := fun n => { n with status }) (fun _ => Or.inl rfl) fun _ _ => hs
    exact h.trans (ih (h.has hi))

/-- A live task becomes terminal among others. -/
theorem load_foldl_setStatus (hi : w.Has i) {status : Status} (hs : status.isTerminal = true)
    {ts : List TaskId} (ht : t ∈ ts) (hn : w.task? i t = some n)
    (hl : n.status.isTerminal = false) :
    ((ts.foldl (fun w t => w.setTask i t fun n => { n with status }) w).engine i).tasks.load <
      (w.engine i).tasks.load := by
  induction ts generalizing w with
  | nil => cases ht
  | cons u ts ih =>
    have hset : w.Ebbs i [] (w.setTask i u fun n => { n with status }) :=
      setTask hi u (fun _ => Or.inl rfl) fun _ _ => hs
    have hengine : ((w.setTask i u fun n => { n with status }).engine i).tasks =
        (w.engine i).tasks.modify u fun n => { n with status } := by
      rw [World.setTask, engine_setEngine hi]
    by_cases hut : t = u
    · subst hut
      refine Nat.lt_of_le_of_lt (foldl_setStatus (hset.has hi) hs ts).load ?_
      rw [hengine]
      exact Tasks.load_modify_lt hn hl fun _ => hs
    · have hn' : (w.setTask i u fun n => { n with status }).task? i t = some n := by
        rw [task?_setTask hi, if_neg hut, hn]
      exact Nat.lt_of_lt_of_le (ih (hset.has hi) ((List.mem_cons.1 ht).resolve_left hut) hn')
        hset.load

/-- The outcome of a task is recorded, and the task leaves. -/
theorem announce (hi : w.Has i) (hn : w.task? i t = some n) (outcome : Outcome) :
    w.Ebbs i [.taskFinished t outcome] (w.announce i t n outcome) ∧
      ((w.announce i t n outcome).engine i).tasks.load < (w.engine i).tasks.load := by
  obtain ⟨hengine, hpast, halive⟩ := announce_eq (t := t) (n := n) hi outcome
  have htask : ∀ u, (w.announce i t n outcome).task? i u =
      if u = t then none else w.task? i u := by
    intro u
    rw [World.task?, hengine]
    simp [World.task?]
  have hload : ((w.announce i t n outcome).engine i).tasks.load < (w.engine i).tasks.load := by
    rw [hengine]
    exact Tasks.load_erase_lt hn
  refine ⟨⟨hpast, ?_, ?_, by simp [finishedIn, Event.finished?], ?_, Nat.le_of_lt hload, halive⟩, hload⟩
  · intro u
    rw [htask]
    by_cases hut : u = t <;> simp [hut, finishedIn, Event.finished?]
  · intro u hu
    have hut : u = t := by simpa [finishedIn, Event.finished?] using hu
    exact ⟨n, hut ▸ hn⟩
  · intro u n' b hu hb
    rw [htask] at hu
    split at hu
    · cases hu
    · exact ⟨n', hu, hb⟩

theorem finalize (hi : w.Has i) (hn : w.task? i t = some n) (outcome : Outcome) :
    ∃ es, w.Ebbs i es (w.finalize i t outcome).2 ∧
      ((w.finalize i t outcome).2.engine i).tasks.load < (w.engine i).tasks.load := by
  obtain ⟨h, hload⟩ := announce hi hn outcome
  have hgo : ∀ {es w'}, (w.announce i t n outcome).Ebbs i es w' →
      ∃ es, w.Ebbs i es w' ∧ (w'.engine i).tasks.load < (w.engine i).tasks.load :=
    fun h' => ⟨_, h.trans h', Nat.lt_of_le_of_lt h'.load hload⟩
  have hset : ∀ (p : TaskId) (children : List TaskId), (w.announce i t n outcome).Ebbs i []
      ((w.announce i t n outcome).setTask i p fun n => { n with children }) := fun p children =>
    setTask (h.has hi) p (fun _ => Or.inl rfl) fun _ => id
  rw [finalize_eq hn]
  simp only
  split
  · split
    · exact hgo (.refl i _)
    · split
      · exact hgo (.refl i _)
      · split
        · exact hgo (hset _ _)
        · split <;> exact hgo (hset _ _)
  · split
    · exact hgo (.record rfl)
    · exact hgo (.refl i _)

end World.Ebbs

/-! ## Pieces of teardown -/

/-- An instruction is a piece of teardown in a middleware. -/
def Instr.IsTeardown (i : MiddlewareId) : Instr → Prop
  | .dropBody turn _ | .abort turn _ | .abortDone turn _ _ | .conclude turn
  | .cancelOne turn _ _ _ => turn.mw = i
  | .cascade j _ | .cancel j _ | .cancelEach j _ _ => j = i
  | _ => False

/-- How much is left to be done if no task changes any more. -/
def Instr.effort : Instr → Nat
  | .dropBody .. | .abort .. | .abortDone .. | .conclude .. | .cancel .. => 1
  | .cascade .. => 2
  | .cancelEach _ order cascades => 3 * order.length + 2 * cascades.length + 1
  | .cancelOne _ _ rest cascades => 3 * rest.length + 2 * cascades.length + 2
  | _ => 0

/-- The body that an instruction drops, and its task. -/
def Instr.dropped? : Instr → Option (TaskId × Body)
  | .dropBody turn body => some (turn.task, body)
  | _ => none

def effortOf (G : List Instr) : Nat := (G.map Instr.effort).sum

def droppedIn (G : List Instr) : List (TaskId × Body) := G.filterMap Instr.dropped?

theorem effortOf_append (G H : List Instr) : effortOf (G ++ H) = effortOf G + effortOf H := by
  simp [effortOf]

theorem effortOf_cascades (i : MiddlewareId) (cascades : List Cascade) :
    effortOf (cascades.map (.cascade i)) = 2 * cascades.length := by
  induction cascades with
  | nil => rfl
  | cons c cs ih =>
    have hcons : effortOf ((c :: cs).map (.cascade i)) = 2 + effortOf (cs.map (.cascade i)) := by
      simp only [effortOf, List.map_cons, List.sum_cons, Instr.effort]
    rw [hcons, ih, List.length_cons]
    omega

theorem droppedIn_append (G H : List Instr) : droppedIn (G ++ H) = droppedIn G ++ droppedIn H :=
  List.filterMap_append ..

/--
The destructors of all bodies leave the middleware alone, of those that are with their tasks and
of those that are about to be dropped, and the budget allows for all of them.
-/
structure World.Affords (i : MiddlewareId) (cost : TaskId → Nat) (G : List Instr) (w : World) :
    Prop where
  bodies : ∀ {t n b}, w.task? i t = some n → n.body = some b → b.HarmlessTo i (cost t)
  dropped : ∀ {t b}, (t, b) ∈ droppedIn G → b.HarmlessTo i (cost t)
  budget : ∀ ts : List TaskId, ts.Nodup →
    (∀ t ∈ ts, ∃ n b, w.task? i t = some n ∧ n.body = some b) →
      (ts.map cost).sum + ((droppedIn G).map fun d => cost d.1).sum ≤ w.budget

section

variable {i : MiddlewareId} {cost : TaskId → Nat} {w w' : World} {x : Instr} {G H todo : List Instr}
  {es : List Event} {t : TaskId} {n : TaskNode}

theorem World.Harmless.affords (h : w.Harmless i cost) (hG : droppedIn G = []) :
    w.Affords i cost G where
  bodies := h.bodies
  dropped hd := by
    rw [hG] at hd
    cases hd
  budget ts hnd hts := by
    rw [hG]
    refine h.budget ts hnd fun t ht => ?_
    obtain ⟨n, -, hn, -⟩ := hts t ht
    exact ⟨n, hn⟩

namespace World.Affords

/-- An instruction makes way for others that drop only bodies that it took from their tasks. -/
theorem go (h : w.Affords i cost (x :: G)) (he : w.Ebbs i es w') (hb : w'.budget = w.budget)
    (hx : x.dropped? = none) (hnd : ((droppedIn H).map Prod.fst).Nodup)
    (hH : ∀ {t b}, (t, b) ∈ droppedIn H → (∃ n, w.task? i t = some n ∧ n.body = some b) ∧
      ∀ n', w'.task? i t = some n' → n'.body = none) : w'.Affords i cost (H ++ G) where
  bodies hn hb := by
    obtain ⟨n, hn, hb⟩ := he.bodies hn hb
    exact h.bodies hn hb
  dropped {t b} hd := by
    rw [droppedIn_append, List.mem_append] at hd
    rcases hd with hd | hd
    · obtain ⟨⟨n, hn, hb⟩, -⟩ := hH hd
      exact h.bodies hn hb
    · exact h.dropped (by simpa [droppedIn, hx] using hd)
  budget ts hts hin := by
    have hG : droppedIn (x :: G) = droppedIn G := by simp [droppedIn, hx]
    have hall := h.budget (ts ++ (droppedIn H).map Prod.fst) ?_ ?_
    · rw [hG, List.map_append, List.sum_append, List.map_map] at hall
      rw [hb, droppedIn_append, List.map_append, List.sum_append]
      simp only [Function.comp_def] at hall
      omega
    · refine List.nodup_append.2 ⟨hts, hnd, ?_⟩
      rintro t ht _ ht' rfl
      obtain ⟨⟨u, b⟩, hd, rfl⟩ := List.mem_map.1 ht'
      obtain ⟨n, b', hn, hbody⟩ := hin u ht
      rw [(hH hd).2 n hn] at hbody
      cases hbody
    · intro t ht
      rcases List.mem_append.1 ht with ht | ht
      · obtain ⟨n', b, hn', hbody⟩ := hin t ht
        obtain ⟨n, hn, hbody⟩ := he.bodies hn' hbody
        exact ⟨n, b, hn, hbody⟩
      · obtain ⟨⟨u, b⟩, hd, rfl⟩ := List.mem_map.1 ht
        obtain ⟨⟨n, hn, hbody⟩, -⟩ := hH hd
        exact ⟨n, b, hn, hbody⟩

/-- An instruction makes way for others that drop nothing. -/
theorem go_idle (h : w.Affords i cost (x :: G)) (he : w.Ebbs i es w') (hb : w'.budget = w.budget)
    (hx : x.dropped? = none) (hH : droppedIn H = []) : w'.Affords i cost (H ++ G) :=
  h.go he hb hx (by simp [hH]) fun hd => by simp [hH] at hd

/-- A body was dropped. -/
theorem spend {turn : Turn} {b : Body} (h : w.Affords i cost (.dropBody turn b :: G))
    (he : w.Ebbs i es w') (hb : w.budget ≤ w'.budget + cost turn.task) : w'.Affords i cost G where
  bodies hn hb := by
    obtain ⟨n, hn, hb⟩ := he.bodies hn hb
    exact h.bodies hn hb
  dropped hd := h.dropped (List.mem_cons_of_mem _ hd)
  budget ts hts hin := by
    have hall := h.budget ts hts fun t ht => by
      obtain ⟨n', b, hn', hbody⟩ := hin t ht
      obtain ⟨n, hn, hbody⟩ := he.bodies hn' hbody
      exact ⟨n, b, hn, hbody⟩
    have hcons : droppedIn (.dropBody turn b :: G) = (turn.task, b) :: droppedIn G := rfl
    rw [hcons, List.map_cons, List.sum_cons] at hall
    simp only at hall
    omega

end World.Affords

/--
What a piece of teardown comes to: other pieces in its place, with fewer tasks or live tasks left,
or with less to be done.
-/
structure Instr.Advance (i : MiddlewareId) (cost : TaskId → Nat) (x : Instr) (G todo : List Instr)
    (w : World) (H : List Instr) (w' : World) : Prop where
  leads : Config.Leads ⟨x :: (G ++ todo), w⟩ ⟨H ++ (G ++ todo), w'⟩
  tearsDown : ∀ y ∈ H, y.IsTeardown i
  ebbs : ∃ es, w.Ebbs i es w'
  affords : w'.Affords i cost (H ++ G)
  less : (w'.engine i).tasks.load < (w.engine i).tasks.load ∨ effortOf H < x.effort

theorem droppedIn_dropping (turn : Turn) (body : Option Body) :
    droppedIn (World.dropping turn body) = (body.map fun b => (turn.task, b)).toList := by
  cases body <;> rfl

namespace Instr.Advance

variable {turn : Turn} {body : Body} {f : Fault}

/-- An instruction that only lets others take its place, in a world where no task changes. -/
theorem of_less (hA : w.Affords i cost (x :: G)) (hc : x.exec w = some ⟨H, w'⟩)
    (hx : x.dropped? = none) (hH : ∀ y ∈ H, y.IsTeardown i ∧ y.dropped? = none)
    (he : ∃ es, w.Ebbs i es w') (hb : w'.budget = w.budget)
    (hless : (w'.engine i).tasks.load < (w.engine i).tasks.load ∨ effortOf H < x.effort) :
    x.Advance i cost G todo w H w' where
  leads := .exec hc
  tearsDown y hy := (hH y hy).1
  ebbs := he
  affords := by
    obtain ⟨es, he⟩ := he
    refine hA.go_idle he hb hx ?_
    exact List.filterMap_eq_nil_iff.2 fun y hy => (hH y hy).2
  less := hless

theorem of_nothing (hA : w.Affords i cost (x :: G)) (hc : x.exec w = some ⟨[], w⟩)
    (hx : x.dropped? = none) (heffort : 0 < x.effort) : ∃ H w', x.Advance i cost G todo w H w' :=
  ⟨[], w, of_less hA hc hx (fun _ hy => absurd hy List.not_mem_nil) ⟨[], .refl i w⟩ rfl
    (Or.inr heffort)⟩

/-- An instruction that takes the body from its task, to have it dropped. -/
theorem of_open {K L : List Instr} {f : TaskNode → TaskNode} (hA : w.Affords i cost (x :: G))
    (hi : w.Has i) (hn : w.task? i t = some n) (hf : ∀ n, (f n).body = none)
    (hs : ∀ n, n.status.isTerminal = true → (f n).status.isTerminal = true)
    (hc : x.exec w = some ⟨K ++ World.dropping ⟨i, t⟩ n.body ++ L,
      (w.setTask i t f).cancelPending i n.pending⟩) (hx : x.dropped? = none)
    (hK : ∀ y ∈ K, y.IsTeardown i ∧ y.dropped? = none)
    (hL : ∀ y ∈ L, y.IsTeardown i ∧ y.dropped? = none)
    (hless : Tasks.load ((w.engine i).tasks.modify t f) < (w.engine i).tasks.load ∨
      effortOf (K ++ World.dropping ⟨i, t⟩ n.body ++ L) < x.effort) :
    ∃ H w', x.Advance i cost G todo w H w' := by
  have hset : w.Ebbs i [] (w.setTask i t f) := .setTask hi t (fun n => Or.inr (hf n)) hs
  obtain ⟨es, hcancel⟩ := World.Ebbs.cancelPending (hset.has hi) n.pending
  have he := hset.trans hcancel
  have hnone : ∀ {M : List Instr}, (∀ y ∈ M, y.IsTeardown i ∧ y.dropped? = none) → droppedIn M = [] :=
    fun hM => List.filterMap_eq_nil_iff.2 fun y hy => (hM y hy).2
  have hdrop : droppedIn (K ++ World.dropping ⟨i, t⟩ n.body ++ L) =
      (n.body.map fun b => (t, b)).toList := by
    rw [droppedIn_append, droppedIn_append, hnone hK, hnone hL, droppedIn_dropping, List.nil_append,
      List.append_nil]
  refine ⟨_, _, .exec hc, ?_, ⟨_, he⟩, ?_, hless.imp_left fun h => ?_⟩
  · intro y hy
    rw [List.mem_append, List.mem_append] at hy
    rcases hy with (hy | hy) | hy
    · exact (hK y hy).1
    · obtain ⟨b, -, rfl⟩ : ∃ b, n.body = some b ∧ y = .dropBody ⟨i, t⟩ b := by
        cases hb : n.body with
        | none =>
          rw [hb] at hy
          cases hy
        | some b =>
          rw [hb] at hy
          exact ⟨b, rfl, List.mem_singleton.1 hy⟩
      exact rfl
    · exact (hL y hy).1
  · refine hA.go he (World.budget_cancelPending n.pending) hx ?_ fun {u b} hd => ?_
    · rw [hdrop]
      cases n.body <;> simp
    · rw [hdrop, Option.mem_toList, Option.map_eq_some_iff] at hd
      obtain ⟨b, hb, hd⟩ := hd
      cases hd
      refine ⟨⟨n, hn, hb⟩, fun n' hn' => Option.eq_none_iff_forall_ne_some.2 fun b' hb' => ?_⟩
      obtain ⟨m, hm, hbm⟩ := hcancel.bodies hn' hb'
      rw [World.task?_setTask hi, if_pos rfl, hn] at hm
      cases hm
      rw [hf] at hbm
      cases hbm
  · refine Nat.lt_of_le_of_lt hcancel.load ?_
    rw [World.setTask, World.engine_setEngine hi]
    exact h

/-- An instruction that records an outcome, and hands on to the parent. -/
theorem of_finalize (hA : w.Affords i cost (x :: G)) (hi : w.Has i)
    {w₁ : World} (he : ∃ es, w.Ebbs i es w₁) (hb : w₁.budget = w.budget) {t : TaskId}
    {outcome : Outcome} (hc : x.exec w = some (World.cascadeOn i (w₁.finalize i t outcome)))
    (hx : x.dropped? = none) (heffort : 0 < x.effort) :
    ∃ H w', x.Advance i cost G todo w H w' := by
  obtain ⟨es, he⟩ := he
  have hi₁ := he.has hi
  cases hn : w₁.task? i t with
  | none =>
    rw [World.finalize_of_absent hn] at hc
    have hless : effortOf [] < x.effort := heffort
    exact ⟨[], w₁, of_less hA hc hx (fun y hy => absurd hy List.not_mem_nil) ⟨es, he⟩ hb
      (Or.inr hless)⟩
  | some n =>
    obtain ⟨es', he', hload⟩ := World.Ebbs.finalize hi₁ hn outcome
    have hb' : (w₁.finalize i t outcome).2.budget = w.budget :=
      (World.budget_finalize t outcome).trans hb
    have hload' := Nat.lt_of_lt_of_le hload he.load
    cases hr : (w₁.finalize i t outcome).1 with
    | none =>
      have hon : World.cascadeOn i (w₁.finalize i t outcome) = ⟨[], (w₁.finalize i t outcome).2⟩ := by
        simp only [World.cascadeOn, hr]
      rw [hon] at hc
      exact ⟨[], _, of_less hA hc hx (fun y hy => absurd hy List.not_mem_nil) ⟨_, he.trans he'⟩ hb'
        (Or.inl hload')⟩
    | some c =>
      have hon : World.cascadeOn i (w₁.finalize i t outcome) =
          ⟨[.cascade i c], (w₁.finalize i t outcome).2⟩ := by
        simp only [World.cascadeOn, hr]
      rw [hon] at hc
      refine ⟨[.cascade i c], _, of_less hA hc hx (fun y hy => ?_) ⟨_, he.trans he'⟩ hb'
        (Or.inl hload')⟩
      rw [List.mem_singleton.1 hy]
      exact ⟨rfl, rfl⟩

theorem dropBody (hA : w.Affords i cost (.dropBody turn body :: G)) (hturn : turn.mw = i) :
    ∃ H w', Instr.Advance i cost (.dropBody turn body) G todo w H w' := by
  subst hturn
  have hcost : cost turn.task ≤ w.budget := by
    have h := hA.budget [] .nil nofun
    have hcons : droppedIn (.dropBody turn body :: G) = (turn.task, body) :: droppedIn G := rfl
    rw [hcons, List.map_cons, List.sum_cons] at h
    simp only [List.map_nil, List.sum_nil] at h
    omega
  have hrecord : w.Ebbs turn.mw [.bodyDropped turn.task] (w.record turn.mw (.bodyDropped turn.task)) :=
    .record rfl
  obtain ⟨w', hl, hu, hb⟩ := hA.dropped List.mem_cons_self
    (w.record turn.mw (.bodyDropped turn.task)) (G ++ todo) hcost
  have he := hrecord.trans (.of_untouched hu)
  exact ⟨[], w', (Config.Leads.exec (x := .dropBody turn body) rfl).trans hl,
    fun y hy => absurd hy List.not_mem_nil, ⟨_, he⟩, hA.spend he hb, Or.inr Nat.zero_lt_one⟩

theorem abort (hA : w.Affords i cost (.abort turn f :: G)) (hi : w.Has i) (hturn : turn.mw = i) :
    ∃ H w', Instr.Advance i cost (.abort turn f) G todo w H w' := by
  subst hturn
  cases hn : w.task? turn.mw turn.task with
  | none =>
    have hc : w.execAbort turn f = ⟨[], w⟩ := by simp only [World.execAbort, hn]
    exact of_nothing hA (congrArg some hc) rfl Nat.zero_lt_one
  | some n =>
    cases hs : n.status.isTerminal with
    | true =>
      have hc : w.execAbort turn f = ⟨[], w⟩ := by simp only [World.execAbort, hn, hs, if_true]
      exact of_nothing hA (congrArg some hc) rfl Nat.zero_lt_one
    | false =>
      have hc : w.execAbort turn f =
          ⟨n.children.map (.cancel turn.mw) ++ World.dropping turn n.body ++
            [.abortDone turn f (decide ((w.engine turn.mw).current = some turn.task))],
            (w.setTask turn.mw turn.task fun n =>
              { n with status := .aborted, pending := none, body := none }).cancelPending
                turn.mw n.pending⟩ := by
        simp only [World.execAbort, hn, hs, Bool.false_eq_true, if_false]
      have hload := Tasks.load_modify_lt hn hs (f := fun n =>
        { n with status := .aborted, pending := none, body := none }) fun _ => rfl
      refine of_open hA hi hn (fun _ => rfl) (fun _ _ => rfl) (congrArg some hc) rfl ?_ ?_
        (Or.inl hload)
      · intro y hy
        obtain ⟨u, -, rfl⟩ := List.mem_map.1 hy
        exact ⟨rfl, rfl⟩
      · intro y hy
        rw [List.mem_singleton.1 hy]
        exact ⟨rfl, rfl⟩

theorem abortDone {wasCurrent : Bool} (hA : w.Affords i cost (.abortDone turn f wasCurrent :: G))
    (hi : w.Has i) (hturn : turn.mw = i) :
    ∃ H w', Instr.Advance i cost (.abortDone turn f wasCurrent) G todo w H w' := by
  subst hturn
  cases wasCurrent with
  | true =>
    exact ⟨[], _, of_less hA rfl rfl (fun y hy => absurd hy List.not_mem_nil)
      ⟨_, .setEngine hi (f := fun e => { e with halted := some (.aborted f) }) rfl⟩ rfl
      (Or.inr Nat.zero_lt_one)⟩
  | false => exact of_finalize hA hi ⟨_, .refl _ w⟩ rfl rfl rfl Nat.zero_lt_one

theorem conclude (hA : w.Affords i cost (.conclude turn :: G)) (hi : w.Has i)
    (hturn : turn.mw = i) : ∃ H w', Instr.Advance i cost (.conclude turn) G todo w H w' := by
  subst hturn
  exact of_finalize hA hi ⟨_, .setEngine hi (f := fun e => { e with halted := none }) rfl⟩ rfl rfl
    rfl Nat.zero_lt_one

theorem cascade {c : Cascade} (hA : w.Affords i cost (.cascade i c :: G)) (hi : w.Has i) :
    ∃ H w', Instr.Advance i cost (.cascade i c) G todo w H w' := by
  cases c with
  | abort t f =>
    refine ⟨[.abort ⟨i, t⟩ f], w, of_less hA rfl rfl (fun y hy => ?_) ⟨_, .refl i w⟩ rfl
      (Or.inr Nat.one_lt_two)⟩
    rw [List.mem_singleton.1 hy]
    exact ⟨rfl, rfl⟩
  | complete t =>
    cases hn : w.task? i t with
    | none =>
      have hc : w.execCascade i (.complete t) = ⟨[], w⟩ := by simp only [World.execCascade, hn]
      exact of_nothing hA (congrArg some hc) rfl Nat.two_pos
    | some n =>
      cases hs : n.status.isTerminal with
      | true =>
        have hc : w.execCascade i (.complete t) = ⟨[], w⟩ := by
          simp only [World.execCascade, hn, hs, if_true]
        exact of_nothing hA (congrArg some hc) rfl Nat.two_pos
      | false =>
        cases hr : n.result with
        | none =>
          have hc : w.execCascade i (.complete t) = ⟨[], w⟩ := by
            simp only [World.execCascade, hn, hs, Bool.false_eq_true, if_false, hr]
          exact of_nothing hA (congrArg some hc) rfl Nat.two_pos
        | some v =>
          have hc : w.execCascade i (.complete t) = World.cascadeOn i
              ((w.setTask i t fun n => { n with result := none }).finalize i t (.done v)) := by
            simp only [World.execCascade, hn, hs, Bool.false_eq_true, if_false, hr]
          have he : w.Ebbs i [] (w.setTask i t fun n => { n with result := none }) :=
            .setTask hi t (fun _ => Or.inl rfl) fun _ => id
          exact of_finalize hA hi ⟨_, he⟩ rfl (congrArg some hc) rfl Nat.two_pos

theorem cancel (hA : w.Affords i cost (.cancel i t :: G)) (hi : w.Has i) :
    ∃ H w', Instr.Advance i cost (.cancel i t) G todo w H w' := by
  cases hl : (w.engine i).tasks.isLive t with
  | false =>
    have hc : w.execCancel i t = ⟨[], w⟩ := by
      simp only [World.execCancel, hl, Bool.false_eq_true, if_false]
    exact of_nothing hA (congrArg some hc) rfl Nat.zero_lt_one
  | true =>
    have hc : w.execCancel i t = ⟨[.cancelEach i ((w.engine i).tasks.cancellationOrder t) []],
        ((w.engine i).tasks.cancellationOrder t).foldl
          (fun w id => w.setTask i id fun n => { n with status := .cancelled }) w⟩ := by
      simp only [World.execCancel, hl, if_true]
    obtain ⟨n, hn, hs⟩ := Tasks.isLive_iff.1 hl
    have hmem : t ∈ (w.engine i).tasks.cancellationOrder t :=
      Tasks.mem_walk_of_mem (Or.inl List.mem_cons_self)
    have hbudget := World.budget_foldl (w := w)
      (f := fun w id => w.setTask i id fun n => { n with status := .cancelled })
      (fun _ _ => rfl) ((w.engine i).tasks.cancellationOrder t)
    refine ⟨_, _, of_less hA (congrArg some hc) rfl (fun y hy => ?_)
      ⟨_, .foldl_setStatus hi rfl _⟩ hbudget
      (Or.inl (World.Ebbs.load_foldl_setStatus hi rfl hmem hn hs))⟩
    rw [List.mem_singleton.1 hy]
    exact ⟨rfl, rfl⟩

theorem cancelEach {order : List TaskId} {cascades : List Cascade}
    (hA : w.Affords i cost (.cancelEach i order cascades :: G)) (hi : w.Has i) :
    ∃ H w', Instr.Advance i cost (.cancelEach i order cascades) G todo w H w' := by
  cases order with
  | nil =>
    refine ⟨cascades.map (.cascade i), w, of_less hA rfl rfl (fun y hy => ?_) ⟨_, .refl i w⟩ rfl
      (Or.inr ?_)⟩
    · obtain ⟨c, -, rfl⟩ := List.mem_map.1 hy
      exact ⟨rfl, rfl⟩
    · rw [effortOf_cascades]
      simp only [effort, List.length_nil]
      omega
  | cons u rest =>
    cases hn : w.task? i u with
    | none =>
      have hc : w.execCancelEach i (u :: rest) cascades = ⟨[.cancelEach i rest cascades], w⟩ := by
        simp only [World.execCancelEach, hn]
      refine ⟨_, _, of_less hA (congrArg some hc) rfl (fun y hy => ?_) ⟨_, .refl i w⟩ rfl
        (Or.inr ?_)⟩
      · rw [List.mem_singleton.1 hy]
        exact ⟨rfl, rfl⟩
      · simp only [effortOf, List.map_cons, List.map_nil, List.sum_cons, List.sum_nil, effort,
          List.length_cons]
        omega
    | some n =>
      have hc : w.execCancelEach i (u :: rest) cascades =
          ⟨[] ++ World.dropping ⟨i, u⟩ n.body ++
            [.cancelOne ⟨i, u⟩ (decide ((w.engine i).current = some u)) rest cascades],
            (w.setTask i u fun n => { n with pending := none, body := none }).cancelPending i
              n.pending⟩ := by
        simp only [World.execCancelEach, hn, List.nil_append]
      refine of_open (f := fun n => { n with pending := none, body := none }) hA hi hn (fun _ => rfl)
        (fun _ => id) (congrArg some hc) rfl
        (fun y hy => absurd hy List.not_mem_nil) (fun y hy => ?_) (Or.inr ?_)
      · rw [List.mem_singleton.1 hy]
        exact ⟨rfl, rfl⟩
      · have hdrop : effortOf (World.dropping ⟨i, u⟩ n.body) ≤ 1 := by
          cases n.body with
          | none => exact Nat.zero_le 1
          | some b => exact Nat.le_refl 1
        rw [List.nil_append, effortOf_append]
        simp only [effortOf, List.map_cons, List.map_nil, List.sum_cons, List.sum_nil, effort,
          List.length_cons] at hdrop ⊢
        omega

theorem cancelOne {wasCurrent : Bool} {rest : List TaskId} {cascades : List Cascade}
    (hA : w.Affords i cost (.cancelOne turn wasCurrent rest cascades :: G)) (hi : w.Has i)
    (hturn : turn.mw = i) :
    ∃ H w', Instr.Advance i cost (.cancelOne turn wasCurrent rest cascades) G todo w H w' := by
  subst hturn
  have hnext : ∀ cs, ∀ y ∈ [Instr.cancelEach turn.mw rest cs], y.IsTeardown turn.mw ∧
      y.dropped? = none := by
    intro cs y hy
    rw [List.mem_singleton.1 hy]
    exact ⟨rfl, rfl⟩
  have hless : effortOf [.cancelEach turn.mw rest cascades] <
      effort (.cancelOne turn wasCurrent rest cascades) := by
    simp only [effortOf, List.map_cons, List.map_nil, List.sum_cons, List.sum_nil, effort]
    omega
  cases wasCurrent with
  | true =>
    exact ⟨_, _, of_less hA rfl rfl (hnext cascades)
      ⟨_, .setEngine hi (f := fun e => { e with halted := some .cancelled }) rfl⟩ rfl (Or.inr hless)⟩
  | false =>
    have hbudget := World.budget_finalize (w := w) (i := turn.mw) turn.task .cancelled
    cases hn : w.task? turn.mw turn.task with
    | none =>
      have hc : w.execCancelOne turn false rest cascades =
          ⟨[.cancelEach turn.mw rest cascades], w⟩ := by
        simp only [World.execCancelOne, Bool.false_eq_true, if_false, World.finalize_of_absent hn,
          Option.toList_none, List.append_nil]
      exact ⟨_, _, of_less hA (congrArg some hc) rfl (hnext cascades) ⟨_, .refl _ w⟩ rfl
        (Or.inr hless)⟩
    | some n =>
      obtain ⟨es, he, hload⟩ := World.Ebbs.finalize hi hn .cancelled
      exact ⟨_, _, of_less hA rfl rfl (hnext _) ⟨_, he⟩ hbudget (Or.inl hload)⟩

end Instr.Advance

/-- Every piece of teardown comes to others in its place, and something decreases. -/
theorem Instr.IsTeardown.advance (hx : x.IsTeardown i) (hi : w.Has i)
    (hA : w.Affords i cost (x :: G)) : ∃ H w', x.Advance i cost G todo w H w' := by
  cases x with
  | dropBody turn body => exact Advance.dropBody hA hx
  | abort turn f => exact Advance.abort hA hi hx
  | abortDone turn f wasCurrent => exact Advance.abortDone hA hi hx
  | conclude turn => exact Advance.conclude hA hi hx
  | cascade j c =>
    obtain rfl : j = i := hx
    exact Advance.cascade hA hi
  | cancel j t =>
    obtain rfl : j = i := hx
    exact Advance.cancel hA hi
  | cancelEach j order cascades =>
    obtain rfl : j = i := hx
    exact Advance.cancelEach hA hi
  | cancelOne turn wasCurrent rest cascades => exact Advance.cancelOne hA hi hx
  | _ => exact hx.elim

/--
Pieces of teardown come to their end, whatever the state. The outer induction is on the tasks that
are left, the inner one on what is to be done while these stay as they are.
-/
theorem teardown_leads (hi : w.Has i) (hG : ∀ x ∈ G, x.IsTeardown i) (hA : w.Affords i cost G) :
    ∃ w' es, Config.Leads ⟨G ++ todo, w⟩ ⟨todo, w'⟩ ∧ w.Ebbs i es w' := by
  induction hload : (w.engine i).tasks.load using Nat.strongRecOn generalizing w G with
  | _ load ihload =>
  induction heffort : effortOf G using Nat.strongRecOn generalizing w G with
  | _ effort iheffort =>
  cases G with
  | nil => exact ⟨w, [], .refl _, .refl i w⟩
  | cons x G =>
    obtain ⟨H, w₁, hadv⟩ : ∃ H w₁, x.Advance i cost G todo w H w₁ :=
      (hG x List.mem_cons_self).advance hi hA
    obtain ⟨es, he⟩ := hadv.ebbs
    have hHG : ∀ y ∈ H ++ G, y.IsTeardown i := fun y hy =>
      (List.mem_append.1 hy).elim (hadv.tearsDown y) fun hy => hG y (List.mem_cons_of_mem _ hy)
    have hrest : ∃ w' es, Config.Leads ⟨H ++ G ++ todo, w₁⟩ ⟨todo, w'⟩ ∧ w₁.Ebbs i es w' := by
      rcases Nat.lt_or_ge (w₁.engine i).tasks.load load with hlt | hge
      · exact ihload _ hlt (he.has hi) hHG hadv.affords rfl
      · have hsame : (w₁.engine i).tasks.load = load :=
          Nat.le_antisymm (hload ▸ he.load) hge
        have hless : effortOf H < x.effort :=
          hadv.less.resolve_left fun h => by omega
        have hcons : effortOf (x :: G) = x.effort + effortOf G := by
          simp only [effortOf, List.map_cons, List.sum_cons]
        refine iheffort _ ?_ (he.has hi) hHG hadv.affords hsame rfl
        rw [effortOf_append]
        omega
    obtain ⟨w', es', hl, he'⟩ := hrest
    refine ⟨w', es ++ es', hadv.leads.trans ?_, he.trans he'⟩
    rw [← List.append_assoc]
    exact hl

end

/-! ## Numbers grow from above -/

/-- A middleware that has a task exists. -/
theorem World.has_of_task {w : World} {i : MiddlewareId} {t : TaskId} {n : TaskNode}
    (hn : w.task? i t = some n) : w.Has i := by
  cases hm : w.middlewares.get? i with
  | some m => exact ⟨m, hm⟩
  | none =>
    rw [World.task?, World.engine, hm] at hn
    cases hn

/-- A middleware that has a pending effect exists. -/
theorem World.has_of_wait {w : World} {i : MiddlewareId} {x : EffectId} {wait : Wait}
    (hx : (w.engine i).waits.get? x = some wait) : w.Has i := by
  cases hm : w.middlewares.get? i with
  | some m => exact ⟨m, hm⟩
  | none =>
    rw [World.engine, hm] at hx
    cases hx

/-- An effect inside of combinators that are being started has a larger number than these. -/
theorem Inside.lt_of_link {nests : List Nest} {x p : EffectId} (h : Inside nests x)
    (hp : (Nest.link nests).parent? = some p) : p < x := by
  cases nests with
  | nil => cases hp
  | cons n nests =>
    have hid : n.id = p := by
      cases n <;> exact Option.some.inj hp
    exact hid ▸ h n List.mem_cons_self

/-- The combinators that are being started are in the table, each with a larger number than the
one around it. -/
theorem Open.lt_of_mem {waits : Waits} {t : TaskId} {nests : List Nest} (h : Open waits t nests)
    {n : Nest} (hn : n ∈ nests) {w : Wait} (hw : waits.get? n.id = some w) {p : EffectId}
    (hp : w.link.parent? = some p) : p < n.id := by
  induction nests with
  | nil => cases hn
  | cons m nests ih =>
    obtain ⟨⟨wm, hwm, -, hl, -⟩, hin, hopen⟩ := h
    rcases List.mem_cons.1 hn with rfl | hn
    · rw [hw] at hwm
      cases hwm
      rw [hl] at hp
      exact hin.lt_of_link hp
    · exact ih hopen hn

/-- What a frame has at hand has a larger number than the combinator it is to be a member of. -/
theorem Instr.Starts.lt_of_loose {k : Core} {x : Instr} (h : x.Starts k) {y : EffectId}
    (hy : y ∈ x.loose) {w : Wait} (hw : k.waits.get? y = some w) {p : EffectId}
    (hp : w.link.parent? = some p) : p < y := by
  have hopen : ∀ {t nests}, Open k.waits t nests → y ∈ nests.map Nest.id → p < y := by
    intro t nests ho hm
    obtain ⟨n, hn, rfl⟩ := List.mem_map.1 hm
    exact ho.lt_of_mem hn hw hp
  have hadrift : ∀ {t nests}, k.Adrift t nests y → p < y := by
    rintro t nests ⟨hin, -, w', hw', -, hl⟩
    rw [hw] at hw'
    cases hw'
    rw [hl] at hp
    exact hin.lt_of_link hp
  cases x with
  | trigger turn body nests e => exact hopen h hy
  | answer turn body nests id result env => exact hopen h.1 hy
  | cancelDone turn body nests id => exact hopen h.1 hy
  | begun turn body nests start =>
    cases start with
    | pending id =>
      rcases List.mem_cons.1 hy with rfl | hy
      · exact hadrift h.2
      · exact hopen h.1 hy
    | _ => exact hopen h hy
  | leave turn body exit =>
    cases exit with
    | suspended id =>
      obtain rfl := List.mem_singleton.1 hy
      exact hadrift h
    | _ => cases hy
  | _ => cases hy

/-- The loops along tasks and waits, and the functions that tear tasks down, come to an end. -/
structure Config.Terminating (c : Config) (i : MiddlewareId) : Prop where
  /-- A task has a larger number than its parent. -/
  parents : ∀ {t n p}, c.world.task? i t = some n → n.parent = some p → p < t
  /-- A member has a larger number than its combinator. -/
  combinators : ∀ {x w p}, (c.world.engine i).waits.get? x = some w → w.link.parent? = some p → p < x
  /-- The children of live tasks form a forest. -/
  forest : (c.world.engine i).tasks.IsForest
  /-- The walk over the subtree of a live task ends. -/
  walks : ∀ {root}, (c.world.engine i).tasks.isLive root = true →
    ∃ n, Loop.Ends (Tasks.Walk.round (c.world.engine i).tasks) n ⟨[.enter root], []⟩
      ⟨[], (c.world.engine i).tasks.cancellationOrder root⟩
  /-- A withdrawal ends. -/
  withdraws : ∀ ids, ∃ n, Loop.Ends Waits.Detaching.round n ⟨(c.world.engine i).waits, ids, []⟩
    ⟨((c.world.engine i).waits.detach ids).2, [], ((c.world.engine i).waits.detach ids).1⟩
  /-- A settlement climbs to its end. -/
  climbs : ∀ {id wait} (signal : Signal), (c.world.engine i).waits.get? id = some wait →
    ∃ n d, Loop.Ends Waits.Climbing.round n
        (.start (c.world.engine i).waits id wait signal) d ∧
      n ≤ (c.world.engine i).waits.size ∧
      ((c.world.engine i).waits.settle id signal).wakeup = d.wakeup
  /-- A cancellation, a failure or a cascade runs to its end; on the way tasks leave the table with
  their outcomes, and none is added. -/
  teardowns : ∀ {x todo cost}, c.todo = x :: todo →
    ((∃ t, x = .cancel i t) ∨ (∃ t f, x = .abort ⟨i, t⟩ f) ∨ ∃ d, x = .cascade i d) →
      c.world.Harmless i cost → ∃ w' es, c.Leads ⟨todo, w'⟩ ∧ c.world.Ebbs i es w'

namespace Scenario.Visits

variable {s : Scenario} {c : Config} {i : MiddlewareId}

theorem parent_lt (h : s.Visits c) {t p : TaskId} {n : TaskNode} (hn : c.world.task? i t = some n)
    (hp : n.parent = some p) : p < t := by
  have hpost : (c.view i).core.posture t = some n.posture := by
    rw [Config.view, World.posture_core, hn]
    rfl
  exact (h.kinship (World.has_of_task hn)).below hpost hp

theorem combinator_lt (h : s.Visits c) {x p : EffectId} {wait : Wait}
    (hx : (c.world.engine i).waits.get? x = some wait) (hp : wait.link.parent? = some p) :
    p < x := by
  have hs := h.sound (World.has_of_wait hx)
  have halive : (c.view i).alive = true := by
    cases ha : (c.view i).alive with
    | true => rfl
    | false =>
      have hnone : (c.world.engine i).waits = .empty := congrArg Core.waits (hs.framed.dead ha).2
      rw [hnone] at hx
      cases hx
  have ht := hs.tabled halive
  by_cases hl : x ∈ looseOf (c.view i).frames
  · obtain ⟨y, hy, hxy⟩ := List.mem_flatMap.1 hl
    exact (ht.frames y hy).lt_of_loose hxy hx hp
  · obtain ⟨-, -, -, hlt, -⟩ := ht.forest.up hx hl hp
    exact hlt

/-- The children of live tasks form a forest. -/
theorem isForest (h : s.Visits c) (i : MiddlewareId) : (c.world.engine i).tasks.IsForest := by
  have hpost : ∀ {t n}, (c.world.engine i).tasks.get? t = some n →
      (c.view i).core.posture t = some n.posture := by
    intro t n hn
    rw [Config.view, World.posture_core, World.task?, hn]
    rfl
  refine .of_rank id (fun t => ((c.world.engine i).tasks.get? t).bind TaskNode.parent) ?_ ?_
  · intro t n hn hl
    exact (h.kinship (World.has_of_task hn)).nodup (hpost hn) hl
  · intro t n u hn hl hu _
    obtain ⟨q, hq, hqt, -⟩ :=
      ((h.sound (World.has_of_task hn)).orderly.tasks (hpost hn)).children hl u hu
    obtain ⟨m, hm, rfl⟩ := Option.map_eq_some_iff.1 hq
    have hm : (c.world.engine i).tasks.get? u = some m := hm
    exact ⟨by rw [hm]; exact hqt, h.parent_lt hm hqt⟩

/--
Wherever a scenario comes to, the numbers of tasks and effects grow from parents to children and
from combinators to members; so there are no cycles, and every loop that goes along them ends, and
with them every cancellation, failure and cascade, if the destructors of bodies do nothing to the
middleware.
-/
theorem terminating (h : s.Visits c) (i : MiddlewareId) : c.Terminating i where
  parents := h.parent_lt
  combinators := h.combinator_lt
  forest := h.isForest i
  walks hl := ⟨_, (h.isForest i).walk_ends hl⟩
  withdraws ids := ⟨_, by simpa using Waits.detach_ends (c.world.engine i).waits ids []⟩
  climbs signal hid := by
    obtain ⟨n, d, hends, hn, hw⟩ := Waits.climb_ends (.start (c.world.engine i).waits _ _ signal)
    refine ⟨n, d, hends, Nat.le_trans hn (Nat.le_of_lt (Table.size_erase_lt hid)), ?_⟩
    rw [Waits.settle_eq hid]
    exact hw
  teardowns {x todo cost} htodo hx hw := by
    obtain ⟨_, w⟩ := c
    obtain rfl := htodo
    have hx' : x.owner? = some i ∧ x.IsTeardown i ∧ droppedIn [x] = [] := by
      rcases hx with ⟨t, rfl⟩ | ⟨t, f, rfl⟩ | ⟨d, rfl⟩ <;> exact ⟨rfl, rfl, rfl⟩
    obtain ⟨howner, htears, hdrop⟩ := hx'
    have hG : ∀ y ∈ [x], y.IsTeardown i := fun y hy => List.mem_singleton.1 hy ▸ htears
    exact teardown_leads (h.alive_of_owner howner).has hG (hw.affords hdrop)

end Scenario.Visits

/-- The task of which a failure is about to be dealt with. -/
def Config.aborts? (c : Config) : Option Turn :=
  match c.todo with
  | .abort turn _ :: _ => some turn
  | _ => none

/-- A task fails whose parent, which fails with it, has another child. -/
def Scenario.siblingFails : Scenario where
  scripts := [
    ("parent", [.perform (.fork { source := .named "patient" }) none none,
      .perform (.fork { source := .named "failing" }) none none,
      .perform (.take none (.type "never")) none none]),
    ("patient", [.guard "patient" [], .perform (.take none (.type "never")) none none]),
    ("failing", [.perform (.take none (.type "go")) none none, .fail (.failed "no luck")])]
  steps := [.run 0 { source := .named "parent" } none]

theorem Scenario.terminating_siblingFails : ∃ f todo w w' es,
    siblingFails.Visits ⟨.abort ⟨0, 3⟩ f :: todo, w⟩ ∧ (w.engine 0).tasks.size = 3 ∧
      Config.Leads ⟨.abort ⟨0, 3⟩ f :: todo, w⟩ ⟨todo, w'⟩ ∧ w.Ebbs 0 es w' := by
  have h : ((siblingFails.during? (.dispatch 0 { kind := "go" }) 13).any fun c =>
      c.aborts? = some ⟨0, 3⟩ && c.world.guardsIdle 0 && (c.world.engine 0).tasks.size = 3) =
        true := by
    decide +kernel
  obtain ⟨⟨todo, w⟩, hc, h⟩ := (Option.any_eq_true ..).1 h
  simp only [Bool.and_eq_true, decide_eq_true_eq] at h
  obtain ⟨⟨habort, hidle⟩, hsize⟩ := h
  have hv := Visits.of_during? hc
  unfold Config.aborts? at habort
  split at habort
  · rename_i turn f rest htodo
    cases habort
    cases htodo
    obtain ⟨w', es, hl, he⟩ := (hv.terminating 0).teardowns rfl (Or.inr (Or.inl ⟨3, f, rfl⟩))
      (World.harmless_of_guardsIdle hidle)
    exact ⟨f, rest, w, w', es, hv, hsize, hl, he⟩
  · cases habort

end SagaMachine
