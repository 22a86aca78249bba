import SagaMachine.Proofs.Teardowns

/-!
# Cancellations

The cancellation of a live task tears down the live tasks below it, descendants first. If the
parent of the root waits for nothing but this child it completes with the value it holds, and
so may its own parent (`Tasks.Completing`).

Main statement: `Visits.cancel_leads`.
-/

namespace SagaMachine

/-! ## Parents that wait for their last child -/

namespace Tasks

/-- The body of the parent is over, with a value, and the task is its last attached child. -/
def LastChild (tasks : Tasks) (c p : TaskId) (v : Value) : Prop :=
  ∃ n m, tasks.get? c = some n ∧ n.parent = some p ∧ n.detached = false ∧
    tasks.get? p = some m ∧ m.status.isTerminal = false ∧ m.result = some v ∧ m.children = [c]

/--
The ancestors that complete one after the other when a task leaves the table, the nearest
first, with the values they hold.
-/
inductive Completing (tasks : Tasks) : TaskId → List (TaskId × Value) → Prop
  | stop {c : TaskId} (h : ∀ p v, ¬ tasks.LastChild c p v) : Completing tasks c []
  | climb {c p : TaskId} {v : Value} {chain : List (TaskId × Value)} (h : tasks.LastChild c p v)
      (hc : Completing tasks p chain) : Completing tasks c ((p, v) :: chain)

end Tasks

theorem Tasks.Completing.lt {tasks : Tasks} {c u : TaskId} {v : Value}
    {chain : List (TaskId × Value)} (h : tasks.Completing c chain)
    (hbelow : ∀ {c n q}, tasks.get? c = some n → n.parent = some q → q < c)
    (hu : (u, v) ∈ chain) : u < c := by
  induction h with
  | stop => cases hu
  | climb hl _ ih =>
    obtain ⟨n, -, hn, hp, -⟩ := hl
    rcases List.mem_cons.1 hu with he | hu
    · cases he
      exact hbelow hn hp
    · exact Nat.lt_trans (ih hu) (hbelow hn hp)

/-- The end of a task that completes. -/
def doneEvent (q : TaskId × Value) : Event := .taskFinished q.1 (.done q.2)

theorem eq_singleton_of_filter_ne {ts : List TaskId} {t : TaskId} (hnd : ts.Nodup) (ht : t ∈ ts)
    (h : ts.filter (· ≠ t) = []) : ts = [t] := by
  have hall : ∀ u ∈ ts, u = t := by
    intro u hu
    by_contra hne
    have : u ∈ ts.filter (· ≠ t) := List.mem_filter.2 ⟨hu, by simpa using hne⟩
    rw [h] at this
    cases this
  cases ts with
  | nil => cases ht
  | cons a ts =>
    cases ts with
    | nil => rw [hall a List.mem_cons_self]
    | cons b ts =>
      have hab := (hall a (by simp)).trans (hall b (by simp)).symm
      simp [hab] at hnd

section

variable {i : MiddlewareId} {w w' : World} {t u c p q : TaskId} {n m : TaskNode}
  {todo : List Instr} {x : Instr} {s : Scenario} {cost : TaskId → Nat}

/-- A task and what is above it are out of reach of what was torn down. -/
structure Engine.OutOfReach (e : Engine) (opened : TaskId → Prop) (ms : List Event)
    (b : TaskId) : Prop where
  kept : ∀ {u}, u ≤ b → u ∉ finishedIn ms
  shut : ∀ {u}, u < b → ¬ opened u
  kids : ∀ {y m c}, y < b → e.tasks.get? y = some m → m.status.isTerminal = false →
    c ∈ m.children → c ∉ finishedIn ms

namespace Engine.Fells

variable {opened : TaskId → Prop} {ms : List Event} {ns : List (EffectId × Outcome)}
  {e e' : Engine} {b : TaskId}

/-- Out of reach, parents wait for their children as before. -/
theorem lastChild_iff (h : Engine.Fells opened ms ns e e') (hr : e.OutOfReach opened ms b)
    (hbelow : ∀ {c n q}, e.tasks.get? c = some n → n.parent = some q → q < c) {v : Value}
    (hc : c ≤ b) : e'.tasks.LastChild c p v ↔ e.tasks.LastChild c p v := by
  constructor
  · rintro ⟨n', m', hn', hp, hd, hm', hl, hv, hk⟩
    obtain ⟨n, hn, hout⟩ := h.exists_old hn'
    obtain ⟨m, hm, hout'⟩ := h.exists_old hm'
    rw [hout.parent] at hp
    rw [hout.detached] at hd
    have hpb : p < b := Nat.lt_of_lt_of_le (hbelow hn hp) hc
    obtain ⟨h1, -, -, h4⟩ := hout'.alike (hr.shut hpb)
    refine ⟨n, m, hn, hp, hd, hm, h1 ▸ hl, h4 ▸ hv, ?_⟩
    have hfilter := hout'.children hl
    rw [hk, List.filter_eq_self.2] at hfilter
    · exact hfilter.symm
    · intro c' hc'
      simpa using hr.kids hpb hm (h1 ▸ hl) hc'
  · rintro ⟨n, m, hn, hp, hd, hm, hl, hv, hk⟩
    have hpb : p < b := Nat.lt_of_lt_of_le (hbelow hn hp) hc
    obtain ⟨n', hn', hout⟩ := h.kept hn (hr.kept hc)
    obtain ⟨m', hm', hout'⟩ := h.kept hm (hr.kept (Nat.le_of_lt hpb))
    obtain ⟨h1, -, -, h4⟩ := hout'.alike (hr.shut hpb)
    refine ⟨n', m', hn', hout.parent.trans hp, hout.detached.trans hd, hm', ?_, h4.trans hv, ?_⟩
    · rw [h1]
      exact hl
    · rw [hout'.children (by rw [h1]; exact hl), List.filter_eq_self.2, hk]
      intro c' hc'
      simpa using hr.kids hpb hm hl hc'

/-- Out of reach, the same parents complete one after the other. -/
theorem completing (h : Engine.Fells opened ms ns e e') (hr : e.OutOfReach opened ms b)
    (hbelow : ∀ {c n q}, e.tasks.get? c = some n → n.parent = some q → q < c)
    {chain : List (TaskId × Value)} (hc : e'.tasks.Completing c chain) (hb : c ≤ b) :
    e.tasks.Completing c chain := by
  induction hc with
  | stop hs => exact .stop fun p v hp => hs p v ((h.lastChild_iff hr hbelow hb).2 hp)
  | climb hp _ ih =>
    have hp := (h.lastChild_iff hr hbelow hb).1 hp
    obtain ⟨n, -, hn, hpar, -⟩ := id hp
    exact .climb hp (ih (Nat.le_trans (Nat.le_of_lt (hbelow hn hpar)) hb))

end Engine.Fells

namespace Grounds

theorem below (h : Grounds i x todo w) {c : TaskId} {n : TaskNode} {q : TaskId}
    (hn : (w.engine i).tasks.get? c = some n) (hq : n.parent = some q) : q < c :=
  h.kinship.below (p := n.posture)
    (by rw [World.posture_core]; exact congrArg (Option.map TaskNode.posture) hn) hq

/-- The children of live tasks form a forest. -/
theorem family (h : Grounds i x todo w) : (w.engine i).tasks.Family where
  nodup hn hl := h.kinship.nodup
    (by rw [World.posture_core]; exact congrArg (Option.map TaskNode.posture) hn) hl
  child hn hl hc hm := by
    obtain ⟨m', hm', hp, -⟩ := h.child hn hl hc
    rw [World.task?, hm] at hm'
    cases hm'
    exact ⟨h.below hm hp, hp⟩

/-- Unless a task fails, its parent goes on if it waits for this child alone. -/
theorem cascade_eq (h : Grounds i x todo w) (hn : w.task? i c = some n) (outcome : Outcome)
    (ho : ∀ f, outcome ≠ .aborted f) :
    (∃ p v, (w.core i).cascade c outcome = some (.complete p) ∧
      (w.engine i).tasks.LastChild c p v) ∨
    (w.core i).cascade c outcome = none ∧ ∀ p v, ¬ (w.engine i).tasks.LastChild c p v := by
  have hpost : ∀ {u m}, w.task? i u = some m → (w.core i).posture u = some m.posture := by
    intro u m hm
    rw [World.posture_core, hm]
    rfl
  by_cases hlast : ∃ p v, (w.engine i).tasks.LastChild c p v
  · obtain ⟨p, v, n', m, hn', hp, hd, hm, hl, hv, hk⟩ := hlast
    have hpc : p ≠ c := Nat.ne_of_lt (h.below hn' hp)
    refine Or.inl ⟨p, v, ?_, n', m, hn', hp, hd, hm, hl, hv, hk⟩
    rcases Core.cascade_of_parent hpc (hpost hn') hp hd (hpost hm) hl outcome with ⟨f, hf⟩ | hf
    · exact absurd hf fun hf => (Core.isComplete_cascade hf ho).elim
    · refine hf (by rw [show m.posture.result = some v from hv]; rfl) ?_
      show m.children.filter _ = []
      simp [hk]
  · refine Or.inr ⟨?_, fun p v hp => hlast ⟨p, v, hp⟩⟩
    cases hc : (w.core i).cascade c outcome with
    | none => rfl
    | some d =>
      exfalso
      have hcomp := Core.isComplete_cascade hc ho
      cases d with
      | abort => exact hcomp
      | complete p =>
        refine hlast ?_
        obtain ⟨q, r, hq, hp, hd, -, hr, hl, hv, hnil⟩ := Core.of_cascade_complete hc
        rw [hpost hn] at hq
        cases hq
        have hin := h.kinship.listed (hpost hn) hp hd hr hl
        have hnd := h.kinship.nodup hr hl
        rw [World.posture_core] at hr
        obtain ⟨m, hm, rfl⟩ := Option.map_eq_some_iff.1 hr
        obtain ⟨v, hv⟩ := Option.isSome_iff_exists.1 hv
        refine ⟨p, v, n, m, hn, hp, hd, hm, hl, hv, ?_⟩
        exact eq_singleton_of_filter_ne hnd hin hnil

variable {opened : TaskId → Prop} {ms : List Event}

/-- Whoever is above a task and counts somebody below it counts the task itself. -/
theorem child_eq_of_lt (h : Grounds i x todo w) (hu : u < t) (hm : (w.engine i).tasks.get? u = some m)
    (hl : m.status.isTerminal = false) (hc : c ∈ m.children) (hb : (w.engine i).tasks.Below t c) :
    c = t := by
  by_contra hct
  obtain ⟨m', hm', hpar, -⟩ := h.child hm hl hc
  exact Nat.not_lt_of_le ((hb.of_parent h.family hct hm' hpar).le h.family) hu

/-- A task is out of reach if only others below it have ended. -/
theorem outOfReach_root (h : Grounds i x todo w)
    (hfin : ∀ {u}, u ∈ finishedIn ms → (w.engine i).tasks.Below t u ∧ u ≠ t)
    (ho : ∀ {u}, opened u → (w.engine i).tasks.Below t u) :
    (w.engine i).OutOfReach opened ms t where
  kept hu hf := (hfin hf).2 (Nat.le_antisymm hu ((hfin hf).1.le h.family))
  shut hu hf := Nat.not_lt_of_le ((ho hf).le h.family) hu
  kids hy hm hl hc hf := (hfin hf).2 (h.child_eq_of_lt hy hm hl hc (hfin hf).1)

/-- The parent of a task is out of reach of what is done below the task. -/
theorem outOfReach_parent (h : Grounds i x todo w) (hn : (w.engine i).tasks.get? t = some n)
    (hp : n.parent = some p)
    (hfin : ∀ {u}, u ∈ finishedIn ms → (w.engine i).tasks.Below t u)
    (ho : ∀ {u}, opened u → (w.engine i).tasks.Below t u) :
    (w.engine i).OutOfReach opened ms p where
  kept hu hf := Nat.not_lt_of_le ((hfin hf).le h.family) (Nat.lt_of_le_of_lt hu (h.below hn hp))
  shut hu hf := Nat.not_lt_of_le ((ho hf).le h.family) (Nat.lt_trans hu (h.below hn hp))
  kids hy hm hl hc hf := by
    obtain rfl := h.child_eq_of_lt (Nat.lt_trans hy (h.below hn hp)) hm hl hc (hfin hf)
    obtain ⟨n', hn', hp', -⟩ := h.child hm hl hc
    cases hn.symm.trans hn'
    cases hp.symm.trans hp'
    exact Nat.lt_irrefl _ hy

end Grounds

/-- What a chain of completions leaves behind. -/
structure World.Completes (w w' : World) (i : MiddlewareId) (chain : List (TaskId × Value)) :
    Prop where
  fells : w.Fells i (fun u => ∃ v, (u, v) ∈ chain) (chain.map doneEvent) w'
  budget : w'.budget = w.budget

/-- Several tasks get the same status. -/
theorem World.task?_foldl_setStatus (hi : w.Has i) (ts : List TaskId) (status : Status)
    (u : TaskId) :
    (ts.foldl (fun w t => w.setTask i t fun n => { n with status }) w).task? i u =
      if u ∈ ts then (w.task? i u).map fun n => { n with status } else w.task? i u := by
  induction ts generalizing w with
  | nil => simp
  | cons t ts ih =>
    have hset : (w.setTask i t fun n => { n with status }).task? i u =
        if u = t then (w.task? i u).map fun n => { n with status } else w.task? i u := by
      rw [World.task?, World.setTask, World.engine_setEngine hi]
      by_cases hut : u = t <;> simp [World.task?, hut]
    have hi' : (w.setTask i t fun n => { n with status }).Has i := by
      rw [has_iff, World.setTask, alive_setEngine, ← has_iff]
      exact hi
    rw [List.foldl_cons, ih hi', hset]
    by_cases hut : u = t <;> by_cases hu : u ∈ ts <;> simp [hut, hu, Function.comp_def]

/-- Nobody ends but who is torn down. -/
theorem World.mem_of_demise {ts : List TaskId}
    (hu : u ∈ finishedIn (ts.flatMap (w.demise i))) : u ∈ ts := by
  obtain ⟨o, ho⟩ := mem_finishedIn.1 hu
  obtain ⟨x, hx, hxo⟩ := List.mem_flatMap.1 ho
  exact World.eq_of_mem_demise (mem_finishedIn.2 ⟨o, hxo⟩) ▸ hx

/-- What a task is cancelled with depends on its body alone. -/
theorem World.demise_congr {n' : TaskNode} (hn : w.task? i u = some n)
    (hn' : w'.task? i u = some n') (hb : n'.body = n.body)
    (hc : (w'.engine i).current = (w.engine i).current) : w'.demise i u = w.demise i u := by
  simp only [World.demise, hn, hn', hb, hc]

/-- A middleware that has a task exists. -/
theorem World.has_of_live (h : (w.core i).Live t) : w.Has i := by
  cases hm : w.middlewares.get? i with
  | some m => exact ⟨m, hm⟩
  | none =>
    obtain ⟨p, hp, -⟩ := h
    rw [World.posture_core, World.task?, World.engine, hm] at hp
    cases hp

namespace Scenario.Visits

/-- A task that holds its value and has no children left completes, and so on upwards. -/
theorem complete_leads {v : Value}
    (h : s.Visits ⟨.cascade i (.complete p) :: todo, w⟩) (hi : w.Has i) (hm : w.task? i p = some m)
    (hl : m.status.isTerminal = false) (hv : m.result = some v) :
    ∃ w' chain, Config.Leads ⟨.cascade i (.complete p) :: todo, w⟩ ⟨todo, w'⟩ ∧
      w.Completes w' i ((p, v) :: chain) ∧ (w.engine i).tasks.Completing p chain := by
  induction p using Nat.strongRecOn generalizing w m v with
  | _ p ih =>
  have hg := h.grounds rfl hi
  have h1 := World.Fells.setTask hi p (f := fun n => { n with result := none })
    (fun _ => ⟨rfl, rfl, rfl, rfl, rfl⟩) fun _ hl => hl
  have hm₁ : (w.setTask i p fun n => { n with result := none }).task? i p =
      some { m with result := none } := by
    have : (w.engine i).tasks.get? p = some m := hm
    rw [World.task?, World.setTask, World.engine_setEngine hi]
    simp [this]
  -- nobody else counts the task among its children
  have hkids : ∀ u m', (w.setTask i p fun n => { n with result := none }).task? i u = some m' →
      m'.status.isTerminal = false → p ∈ m'.children → m.parent = some u ∧ m.detached = false := by
    intro u m' hm' hl' hpm
    rw [World.task?, World.setTask, World.engine_setEngine hi] at hm'
    simp only [Table.get?_modify] at hm'
    split at hm'
    · rename_i hup
      subst hup
      have hmm : (w.engine i).tasks.get? u = some m := hm
      rw [hmm] at hm'
      cases hm'
      exact hg.parent_of_child hm u m hm hl' hpm
    · exact hg.parent_of_child hm u m' hm' hl' hpm
  have h2 := World.fells_finalize (P := fun _ => False) (h1.has hi) hm₁ hkids (.done v)
  have hf : w.Fells i (· = p) [.taskFinished p (.done v)]
      (((w.setTask i p fun n => { n with result := none }).finalize i p (.done v)).2) :=
    (h1.trans h2).mono fun u hu => hu.elim id False.elim
  have hc : ((w.setTask i p fun n => { n with result := none }).finalize i p (.done v)).1 =
      (w.core i).cascade p (.done v) := by
    rw [((World.Advances.start (h1.has hi)).finalize hm₁ (.done v)).1]
    exact h1.cascade_eq rfl hm _
  have hstep : Config.Leads ⟨.cascade i (.complete p) :: todo, w⟩
      ⟨((w.core i).cascade p (.done v)).toList.map (.cascade i) ++ todo,
        ((w.setTask i p fun n => { n with result := none }).finalize i p (.done v)).2⟩ := by
    refine (Config.Leads.exec (c := w.execCascade i (.complete p)) rfl).trans ?_
    simp only [World.execCascade, hm, hl, hv, World.cascadeOn, hc, Bool.false_eq_true, if_false]
    cases (w.core i).cascade p (.done v) <;> exact .refl _
  have hbud := World.budget_finalize (w := w.setTask i p fun n => { n with result := none })
    (i := i) p (.done v)
  generalize ((w.setTask i p fun n => { n with result := none }).finalize i p (.done v)).2 = w₂
    at hf hstep hbud
  rcases hg.cascade_eq hm (.done v) (fun f he => by cases he) with
    ⟨q, u, hcq, hlast⟩ | ⟨hcn, hstop⟩
  · -- the parent completes in its turn
    rw [hcq] at hstep
    have hv₂ := h.leads hstep
    obtain ⟨n, m', hn', hq, -, hm', hl', hv', -⟩ := id hlast
    rw [show (w.engine i).tasks.get? p = some m from hm] at hn'
    cases hn'
    have hqp : q < p := hg.below hm hq
    have hfin : ∀ {u}, u ∈ finishedIn [.taskFinished p (.done v)] → u = p := by
      simp [finishedIn, Event.finished?]
    obtain ⟨m₂, hm₂, hout⟩ := hf.kept hm' fun hq' => Nat.ne_of_lt hqp (hfin hq')
    obtain ⟨g1, -, -, g4⟩ := hout.alike (Nat.ne_of_lt hqp)
    obtain ⟨w', chain, hl'', ⟨hfells, hbudget⟩, hchain⟩ := ih q hqp hv₂ (hf.has hi) hm₂
      (g1 ▸ hl') (g4.trans hv')
    refine ⟨w', (q, u) :: chain, hstep.trans hl'', ⟨?_, hbudget.trans hbud⟩, .climb hlast ?_⟩
    · refine (hf.trans hfells).mono ?_
      rintro x (rfl | ⟨v', hx⟩)
      · exact ⟨v, List.mem_cons_self⟩
      · exact ⟨v', List.mem_cons_of_mem _ hx⟩
    · have hpp : (w.engine i).tasks.Below p p := .root (Tasks.isLive_iff.2 ⟨m, hm, hl⟩)
      have hreach : (w.engine i).OutOfReach (· = p) [.taskFinished p (.done v)] q :=
        hg.outOfReach_parent hm hq (fun hu => hfin hu ▸ hpp) fun hu => hu ▸ hpp
      obtain ⟨ns, he⟩ := hf.engine
      exact he.completing hreach hg.below hchain (Nat.le_refl _)
  · rw [hcn] at hstep
    refine ⟨w₂, [], hstep, ⟨?_, hbud⟩, .stop hstop⟩
    refine hf.mono ?_
    rintro x rfl
    exact ⟨v, List.mem_cons_self⟩

/-- Before anything is torn down, a task and all that are below it are cancelled. -/
theorem cancel_marks (h : s.Visits ⟨.cancel i t :: todo, w⟩) (hl : (w.core i).Live t) :
    ∃ w', Config.Leads ⟨.cancel i t :: todo, w⟩
        ⟨.cancelEach i ((w.engine i).tasks.cancellationOrder t) [] :: todo, w'⟩ ∧
      w.Fells i ((w.engine i).tasks.Below t) [] w' ∧ w'.budget = w.budget ∧
      ∀ {u n}, (w.engine i).tasks.Below t u → w.task? i u = some n →
        w'.task? i u = some { n with status := .cancelled } := by
  have hi : w.Has i := World.has_of_live hl
  have hF := (h.grounds rfl hi).family
  have hlive : (w.engine i).tasks.isLive t = true := World.live_iff.2 hl
  have hmem := fun u => Tasks.mem_cancellationOrder (u := u) hF hlive
  have hf : w.Fells i (· ∈ (w.engine i).tasks.cancellationOrder t) []
      (((w.engine i).tasks.cancellationOrder t).foldl
        (fun w u => w.setTask i u fun n => { n with status := .cancelled }) w) :=
    .foldl_setTask hi _ (fun _ => ⟨rfl, rfl, rfl, rfl, rfl⟩) fun _ hl => by cases hl
  refine ⟨_, ?_, hf.mono fun u => (hmem u).1, ?_, ?_⟩
  · refine (Config.Leads.exec (c := w.execCancel i t) rfl).trans ?_
    simp only [World.execCancel, hlive, if_true]
    exact .refl _
  · exact World.budget_foldl
      (f := fun w u => w.setTask i u fun n => { n with status := .cancelled }) (fun _ _ => rfl) _
  · intro u n hu hn
    rw [World.task?_foldl_setStatus hi, if_pos ((hmem u).2 hu), hn]
    rfl

/-- Then the tasks below it are torn down, one after the other. -/
theorem cancel_fells_below (h : s.Visits ⟨.cancel i t :: todo, w⟩) (hl : (w.core i).Live t)
    (hb : ∀ u n b, (w.engine i).tasks.Below t u → w.task? i u = some n → n.body = some b →
      b.HarmlessTo i (cost u))
    (hw : (((w.engine i).tasks.cancellationOrder t).map cost).sum ≤ w.budget) :
    ∃ w' pre, Config.Leads ⟨.cancel i t :: todo, w⟩ ⟨.cancelEach i [t] [] :: todo, w'⟩ ∧
      (w.engine i).tasks.cancellationOrder t = pre ++ [t] ∧
      (∀ u ∈ pre, (w.engine i).tasks.Below t u ∧ u ≠ t) ∧
      w.Fells i ((w.engine i).tasks.Below t) (pre.flatMap (w.demise i)) w' ∧
      w.budget ≤ w'.budget + (pre.map cost).sum ∧
      ∀ {n}, w.task? i t = some n → ∃ n', w'.task? i t = some n' ∧ n'.body = n.body := by
  have hi : w.Has i := World.has_of_live hl
  have hF := (h.grounds rfl hi).family
  have hlive : (w.engine i).tasks.isLive t = true := World.live_iff.2 hl
  obtain ⟨pre, hpre, hbelow⟩ := Tasks.cancellationOrder_eq hF hlive
  have hnd : pre.Nodup := (List.nodup_append.1 (hpre ▸ Tasks.nodup_cancellationOrder hF hlive)).1
  obtain ⟨w₁, hl₁, hf₁, hb₁, htask₁⟩ := h.cancel_marks hl
  rw [hpre] at hl₁ hw
  rw [List.map_append, List.sum_append] at hw
  -- none of them has a parent any more that is live
  have hin : ∀ u ∈ pre, ∃ n, w₁.task? i u = some n ∧
      (∀ b, n.body = some b → b.HarmlessTo i (cost u)) ∧
      ∀ q, n.parent = some q → n.detached = false → ¬ (w₁.core i).Live q := by
    intro u hu
    obtain ⟨hbu, hut⟩ := hbelow u hu
    obtain ⟨n, hn, -⟩ := Tasks.isLive_iff.1 hbu.isLive
    refine ⟨_, htask₁ hbu hn, fun b => hb u n b hbu hn, fun q hq _ hlq => ?_⟩
    have hbq := hbu.of_parent hF hut hn hq
    obtain ⟨m, hm, -⟩ := Tasks.isLive_iff.1 hbq.isLive
    obtain ⟨m', hm', hlm⟩ := Tasks.isLive_iff.1 (World.live_iff.2 hlq)
    cases (htask₁ hbq hm).symm.trans hm'
    cases hlm
  obtain ⟨w₂, hl₂, hf₂, hb₂⟩ := (h.leads hl₁).cancelEach_leads (hf₁.has hi) hnd hin (by omega)
  have hdemise : pre.flatMap (w₁.demise i) = pre.flatMap (w.demise i) := by
    refine List.flatMap_congr fun u hu => ?_
    obtain ⟨n, hn, -⟩ := Tasks.isLive_iff.1 (hbelow u hu).1.isLive
    exact World.demise_congr hn (htask₁ (hbelow u hu).1 hn) rfl hf₁.current
  rw [hdemise] at hf₂
  have hf := (hf₁.trans hf₂).mono fun u hu => hu.elim id fun hu => (hbelow u hu).1
  refine ⟨w₂, pre, hl₁.trans hl₂, hpre, hbelow, hf, by omega, fun {n} hn => ?_⟩
  obtain ⟨n', hn', hout⟩ := hf₂.kept (htask₁ (.root hlive) hn) fun hu =>
    (hbelow t (World.mem_of_demise hu)).2 rfl
  exact ⟨n', hn', (hout.alike fun hu => (hbelow t hu).2 rfl).2.1⟩

/--
At last the task itself is torn down. Unless it is in its own step, its parent is to complete if it
waits for this child alone.
-/
theorem cancel_fells (h : s.Visits ⟨.cancel i t :: todo, w⟩) (hl : (w.core i).Live t)
    (hb : ∀ u n b, (w.engine i).tasks.Below t u → w.task? i u = some n → n.body = some b →
      b.HarmlessTo i (cost u))
    (hw : (((w.engine i).tasks.cancellationOrder t).map cost).sum ≤ w.budget) :
    ∃ (w' : World) (c : Option Cascade),
      Config.Leads ⟨.cancel i t :: todo, w⟩ ⟨.cancelEach i [] c.toList :: todo, w'⟩ ∧
      w.Fells i ((w.engine i).tasks.Below t)
        (((w.engine i).tasks.cancellationOrder t).flatMap (w.demise i)) w' ∧
      w.budget ≤ w'.budget + (((w.engine i).tasks.cancellationOrder t).map cost).sum ∧
      ((w.engine i).current ≠ some t ∧
          (∃ p v, c = some (.complete p) ∧ (w.engine i).tasks.LastChild t p v) ∨
        c = none ∧ ((w.engine i).current ≠ some t →
          ∀ p v, ¬ (w.engine i).tasks.LastChild t p v)) := by
  have hi : w.Has i := World.has_of_live hl
  have hg := h.grounds rfl hi
  have hlive : (w.engine i).tasks.isLive t = true := World.live_iff.2 hl
  have htt : (w.engine i).tasks.Below t t := .root hlive
  obtain ⟨w₁, pre, hl₁, hpre, hbelow, hf₁, hb₁, hroot⟩ := h.cancel_fells_below hl hb hw
  rw [hpre] at hw ⊢
  rw [List.map_append, List.sum_append, List.map_singleton, List.sum_singleton] at hw ⊢
  obtain ⟨n, hn, -⟩ := Tasks.isLive_iff.1 hlive
  obtain ⟨n₁, hn₁, hbody⟩ := hroot hn
  have hv₁ := h.leads hl₁
  obtain ⟨w₂, c, hl₂, hf₂, hb₂, hc, hcn⟩ := hv₁.cancelOne_leads (hf₁.has hi) hn₁
    (fun b hb' => hb t n b htt hn (hbody ▸ hb')) (by omega)
  rw [World.demise_congr hn hn₁ hbody hf₁.current] at hf₂
  rw [hf₁.current] at hc hcn
  refine ⟨w₂, c, hl₁.trans hl₂, ?_, by omega, ?_⟩
  · rw [List.flatMap_append, List.flatMap_singleton]
    exact (hf₁.trans hf₂).mono fun u hu => hu.elim id fun hu => hu ▸ htt
  · by_cases hcur : (w.engine i).current = some t
    · exact Or.inr ⟨hcn hcur, fun hne => absurd hcur hne⟩
    · -- what is above the root is as it was
      have hreach : (w.engine i).OutOfReach ((w.engine i).tasks.Below t) (pre.flatMap (w.demise i)) t :=
        hg.outOfReach_root (fun hu => hbelow _ (World.mem_of_demise hu)) id
      obtain ⟨ns, he⟩ := hf₁.engine
      rw [hc hcur]
      rcases (hv₁.grounds rfl (hf₁.has hi)).cascade_eq hn₁ .cancelled (fun f he => by cases he) with
        ⟨p, v, hcp, hlc⟩ | ⟨hcn, hstop⟩
      · exact Or.inl ⟨hcur, p, v, hcp, (he.lastChild_iff hreach hg.below (Nat.le_refl _)).1 hlc⟩
      · exact Or.inr ⟨hcn, fun _ p v hlc =>
          hstop p v ((he.lastChild_iff hreach hg.below (Nat.le_refl _)).2 hlc)⟩

/--
The cancellation of a live task comes to its end: the live tasks below it are torn down,
descendants first, and the parents that waited for this complete.
-/
theorem cancel_leads (h : s.Visits ⟨.cancel i t :: todo, w⟩) (hl : (w.core i).Live t)
    (hb : ∀ u n b, (w.engine i).tasks.Below t u → w.task? i u = some n → n.body = some b →
      b.HarmlessTo i (cost u))
    (hw : (((w.engine i).tasks.cancellationOrder t).map cost).sum ≤ w.budget) :
    ∃ w' chain, Config.Leads ⟨.cancel i t :: todo, w⟩ ⟨todo, w'⟩ ∧
      w.Fells i (fun u => (w.engine i).tasks.Below t u ∨ ∃ v, (u, v) ∈ chain)
        (((w.engine i).tasks.cancellationOrder t).flatMap (w.demise i) ++ chain.map doneEvent) w' ∧
      w.budget ≤ w'.budget + (((w.engine i).tasks.cancellationOrder t).map cost).sum ∧
      ((w.engine i).current ≠ some t → (w.engine i).tasks.Completing t chain) ∧
      ((w.engine i).current = some t → chain = []) := by
  have hi : w.Has i := World.has_of_live hl
  have hg := h.grounds rfl hi
  have hF := hg.family
  have hlive : (w.engine i).tasks.isLive t = true := World.live_iff.2 hl
  have hfin : ∀ {u}, u ∈ finishedIn (((w.engine i).tasks.cancellationOrder t).flatMap
      (w.demise i)) → (w.engine i).tasks.Below t u :=
    fun hu => (Tasks.mem_cancellationOrder hF hlive).1 (World.mem_of_demise hu)
  obtain ⟨w₁, c, hl₁, hf₁, hb₁, ⟨hcur, p, v, rfl, hlc⟩ | ⟨rfl, hstop⟩⟩ := h.cancel_fells hl hb hw
  · -- the parent is out of reach, so it still holds its value
    obtain ⟨n, m, hn, hpar, -, hm, hlm, hvm, -⟩ := id hlc
    have hreach := hg.outOfReach_parent hn hpar hfin id
    have hpnot : ¬ (w.engine i).tasks.Below t p := fun hbp =>
      Nat.not_lt_of_le (hbp.le hF) (hg.below hn hpar)
    obtain ⟨m₁, hm₁, hout⟩ := hf₁.kept hm fun hu => hpnot (hfin hu)
    obtain ⟨h1, -, -, h4⟩ := hout.alike hpnot
    have hstep : Config.Leads ⟨.cancelEach i [] [.complete p] :: todo, w₁⟩
        ⟨.cascade i (.complete p) :: todo, w₁⟩ := .exec (c := ⟨[.cascade i (.complete p)], w₁⟩) rfl
    obtain ⟨w₂, chain, hl₂, hcomp, hchain⟩ := ((h.leads hl₁).leads hstep).complete_leads (hf₁.has hi)
      hm₁ (h1 ▸ hlm) (h4.trans hvm)
    obtain ⟨ns, he⟩ := hf₁.engine
    refine ⟨w₂, (p, v) :: chain, (hl₁.trans hstep).trans hl₂, hf₁.trans hcomp.fells, ?_, fun _ =>
      .climb hlc (he.completing hreach hg.below hchain (Nat.le_refl _)), fun hcur' => absurd hcur' hcur⟩
    rw [hcomp.budget]
    exact hb₁
  · refine ⟨w₁, [], hl₁.trans (.exec (c := ⟨[], w₁⟩) rfl), ?_, hb₁, fun hcur => .stop (hstop hcur),
      fun _ => rfl⟩
    rw [List.map_nil, List.append_nil]
    exact hf₁.mono fun _ => Or.inl

end Scenario.Visits

/-! ## Descendants first -/

namespace Tasks

/-- The live tasks that a live task is reached from by links to parents they are attached to. -/
inductive Attached (tasks : Tasks) (root : TaskId) : TaskId → Prop
  | root (h : tasks.isLive root = true) : Attached tasks root root
  | child {u v : TaskId} {n : TaskNode} (h : Attached tasks root v) (hu : tasks.get? u = some n)
      (hl : n.status.isTerminal = false) (hp : n.parent = some v) (hd : n.detached = false) :
      Attached tasks root u

end Tasks

namespace Grounds

/-- Parents list whom is attached to them. -/
theorem attached_iff (h : Grounds i x todo w) :
    (w.engine i).tasks.Attached t u ↔ (w.engine i).tasks.Below t u := by
  have hpost : ∀ {u m}, (w.engine i).tasks.get? u = some m →
      (w.core i).posture u = some m.posture := by
    intro u m hm
    rw [World.posture_core, World.task?, hm]
    rfl
  constructor
  · intro ha
    induction ha with
    | root hl => exact .root hl
    | child _ hu hl hp hd ih =>
      obtain ⟨m, hm, hlm⟩ := Tasks.isLive_iff.1 ih.isLive
      exact ih.child hm (h.kinship.listed (hpost hu) hp hd (hpost hm) hlm)
        (Tasks.isLive_iff.2 ⟨_, hu, hl⟩)
  · intro hb
    induction hb with
    | root hl => exact .root hl
    | child hb hv hu hl ih =>
      obtain ⟨m, hm, hlm⟩ := Tasks.isLive_iff.1 hb.isLive
      rw [hv] at hm
      cases hm
      obtain ⟨n, hn, hp, hd⟩ := h.child hv hlm hu
      obtain ⟨n', hn', hln⟩ := Tasks.isLive_iff.1 hl
      rw [show w.task? i _ = some n' from hn'] at hn
      cases hn
      exact ih.child hn' hln hp hd

end Grounds

/-- An event belongs to the end of a task: its body is dropped, or its outcome is recorded. -/
def Event.EndOf (t : TaskId) : Event → Prop
  | .bodyDropped u | .taskFinished u _ => u = t
  | _ => False

theorem World.endOf_of_mem_demise {e : Event} (h : e ∈ w.demise i t) (he : e.EndOf u) : u = t := by
  rcases demise_cases h with rfl | ⟨rfl, -⟩ <;> exact he.symm

theorem Event.EndOf.isMilestone {e : Event} (h : e.EndOf u) : e.isMilestone = true := by
  cases e <;> first | rfl | exact h.elim

namespace Scenario.Visits

/--
In the cancellation of a live task every task of its attached subtree has its body dropped and
its outcome recorded before any task that it descends from; only of a task whose own step is
under way nothing is recorded within the cancellation, be its ancestors recorded or not.
-/
theorem cancel_descendants_first (h : s.Visits ⟨.cancel i t :: todo, w⟩) (cost : TaskId → Nat)
    (hl : (w.engine i).tasks.isLive t = true)
    (hb : ∀ u n b, (w.engine i).tasks.Attached t u → w.task? i u = some n → n.body = some b →
      b.HarmlessTo i (cost u))
    (hw : (((w.engine i).tasks.cancellationOrder t).map cost).sum ≤ w.budget) :
    ∃ (w' : World) (es : List Event), Config.Leads ⟨.cancel i t :: todo, w⟩ ⟨todo, w'⟩ ∧
      w'.past i = es.reverse ++ w.past i ∧
      (∀ a d n, (w.engine i).tasks.Attached t a → (w.engine i).tasks.Attached a d → a ≠ d →
        (w.engine i).current ≠ some d → w.task? i d = some n →
        ∃ before after, es = before ++ after ∧ .taskFinished d .cancelled ∈ before ∧
          (n.body.isSome → .bodyDropped d ∈ before) ∧ ∀ e ∈ before, ¬ e.EndOf a) ∧
      (∀ a, (w.engine i).tasks.Attached t a → (w.engine i).current ≠ some a →
        .taskFinished a .cancelled ∈ es) ∧
      ∀ d, (w.engine i).current = some d → (w.engine i).tasks.Attached t d →
        ∀ e ∈ es, e.finished? ≠ some d := by
  have hi : w.Has i := World.has_of_live (World.live_iff.1 hl)
  have hg := h.grounds rfl hi
  have hF := hg.family
  simp only [hg.attached_iff] at hb ⊢
  obtain ⟨w', chain, hlead, hf, -, hchain, hnochain⟩ := h.cancel_leads (World.live_iff.1 hl) hb hw
  obtain ⟨es, hpast, hes⟩ := hf.past
  have hmem := fun u => Tasks.mem_cancellationOrder (u := u) hF hl
  have hpair := Tasks.pairwise_cancellationOrder hF hl
  have hin : ∀ {e}, e ∈ ((w.engine i).tasks.cancellationOrder t).flatMap (w.demise i) ++
      chain.map doneEvent → e ∈ es := by
    intro e he
    rw [← hes] at he
    exact (List.mem_filter.1 he).1
  have hfinish : ∀ {u n}, w.task? i u = some n → (w.engine i).current ≠ some u →
      .taskFinished u .cancelled ∈ w.demise i u ∧
        (n.body.isSome → .bodyDropped u ∈ w.demise i u) := by
    intro u n hn hcur
    simp only [World.demise, hn, hcur, if_false]
    refine ⟨by simp, fun hbody => ?_⟩
    simp [bodyEvents, hbody]
  refine ⟨w', es, hlead, hpast, ?_, ?_, ?_⟩
  · intro a d n ha hd hne hcur hn
    obtain ⟨l₁, l₂, hsplit⟩ := List.append_of_mem ((hmem d).2 (ha.trans hd))
    have hnot : a ∉ l₁ ++ [d] := by
      intro hal
      rcases List.mem_append.1 hal with hal | hal
      · rw [hsplit] at hpair
        exact (List.pairwise_append.1 hpair).2.2 a hal d List.mem_cons_self hd
      · exact hne (List.mem_singleton.1 hal)
    rw [hsplit, ← List.singleton_append, ← List.append_assoc, List.flatMap_append,
      List.append_assoc] at hes
    obtain ⟨before, after, rfl, hbefore, -⟩ := List.filter_eq_append_iff.1 hes
    have hsub : ∀ {e}, e ∈ w.demise i d → e ∈ before := by
      intro e he
      have : e ∈ before.filter Event.isMilestone := by
        rw [hbefore]
        exact List.mem_flatMap.2 ⟨d, by simp, he⟩
      exact (List.mem_filter.1 this).1
    refine ⟨before, after, rfl, hsub (hfinish hn hcur).1, fun hbody => hsub ((hfinish hn hcur).2 hbody),
      fun e he hend => ?_⟩
    have : e ∈ before.filter Event.isMilestone := List.mem_filter.2 ⟨he, hend.isMilestone⟩
    rw [hbefore] at this
    obtain ⟨u, hu, heu⟩ := List.mem_flatMap.1 this
    exact hnot (World.endOf_of_mem_demise heu hend ▸ hu)
  · intro a ha hcur
    obtain ⟨n, hn, -⟩ := Tasks.isLive_iff.1 ha.isLive
    exact hin (List.mem_append_left _
      (List.mem_flatMap.2 ⟨a, (hmem a).2 ha, (hfinish hn hcur).1⟩))
  · intro d hcur hd e he hed
    have hem : e ∈ es.filter Event.isMilestone := by
      refine List.mem_filter.2 ⟨he, ?_⟩
      cases e <;> first | rfl | cases hed
    rw [hes] at hem
    rcases List.mem_append.1 hem with hem | hem
    · obtain ⟨u, -, hu⟩ := List.mem_flatMap.1 hem
      rcases World.demise_cases hu with rfl | ⟨rfl, hne⟩
      · cases hed
      · exact hne (hcur.trans hed.symm)
    · obtain ⟨⟨u, v⟩, hu, rfl⟩ := List.mem_map.1 hem
      cases hed
      by_cases hct : (w.engine i).current = some t
      · rw [hnochain hct] at hu
        cases hu
      · exact Nat.not_lt_of_le (hd.le hF) ((hchain hct).lt hg.below hu)

end Scenario.Visits

/-- The cancellation that comes next. -/
def Config.cancels? (c : Config) : Option (MiddlewareId × TaskId) :=
  match c.todo with
  | .cancel i t :: _ => some (i, t)
  | _ => none

theorem Config.of_cancels? {c : Config} (h : c.cancels? = some (i, t)) :
    ∃ todo, c = ⟨.cancel i t :: todo, c.world⟩ := by
  obtain ⟨todo, w⟩ := c
  unfold cancels? at h
  split at h
  · rename_i j u rest hto
    cases h
    simp only at hto
    exact ⟨rest, by rw [hto]⟩
  · cases h

/-- A child cancels its parent. -/
def Scenario.childCancels : Scenario where
  scripts := [
    ("parent", [.perform (.fork { source := .named "child" }) none none,
      .perform (.take none (.type "never")) none none]),
    ("child", [.guard "child" [], .perform (.take none (.type "go")) none none,
      .perform (.cancel (.task "parent")) none none])]
  steps := [.run 0 { source := .named "parent" } (some "parent")]

/-- The parent is recorded while its child, whose step is under way, is not. -/
theorem Scenario.cancel_descendants_first_childCancels : ∃ todo w,
    childCancels.Visits ⟨.cancel 0 1 :: todo, w⟩ ∧ (w.engine 0).tasks.Attached 1 2 ∧
      ∃ (w' : World) (es : List Event), Config.Leads ⟨.cancel 0 1 :: todo, w⟩ ⟨todo, w'⟩ ∧
        w'.past 0 = es.reverse ++ w.past 0 ∧ .taskFinished 1 .cancelled ∈ es ∧
        ∀ e ∈ es, e.finished? ≠ some 2 := by
  have h : ((childCancels.during? (.dispatch 0 { kind := "go" }) 10).any fun c =>
      c.cancels? = some (0, 1) && c.world.guardsIdle 0 && (c.world.engine 0).current = some 2 &&
        (c.world.engine 0).tasks.isLive 1 &&
        ((c.world.engine 0).tasks.get? 2).any fun n =>
          n.parent = some 1 && !n.detached && !n.status.isTerminal) = true := by decide +kernel
  obtain ⟨c, hc, h⟩ := (Option.any_eq_true ..).1 h
  simp only [Bool.and_eq_true, decide_eq_true_eq] at h
  obtain ⟨⟨⟨⟨hcancel, hidle⟩, hcur⟩, hlive⟩, hchild⟩ := h
  obtain ⟨n, hn, hchild⟩ := (Option.any_eq_true ..).1 hchild
  simp only [Bool.and_eq_true, decide_eq_true_eq, Bool.not_eq_true'] at hchild
  obtain ⟨⟨hp, hd⟩, hl⟩ := hchild
  obtain ⟨todo, hc'⟩ := Config.of_cancels? hcancel
  have hv : childCancels.Visits ⟨.cancel 0 1 :: todo, c.world⟩ := hc' ▸ Visits.of_during? hc
  have hatt : (c.world.engine 0).tasks.Attached 1 2 := .child (.root hlive) hn hl hp hd
  obtain ⟨w', es, hlead, hpast, -, hanc, hself⟩ := hv.cancel_descendants_first (fun _ => 0) hlive
    (fun u n b _ hn hb => World.harmlessTo_of_guardsIdle hidle hn hb) (by simp)
  refine ⟨todo, c.world, hv, hatt, w', es, hlead, hpast, hanc 1 (.root hlive) ?_, hself 2 hcur hatt⟩
  rw [hcur]
  decide

end

end SagaMachine
