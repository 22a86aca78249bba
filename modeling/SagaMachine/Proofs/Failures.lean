import SagaMachine.Proofs.Clearances

/-!
# Failures

A task that fails takes its whole tree with it: its children are cancelled, it is recorded as
aborted, and its parent fails with the same fault, up to a task that is attached to none. This
is done while no step is under way and nothing else is being torn down.

Main statement: `Visits.abort_leads`.
-/

namespace SagaMachine

/-! ## Lines of ancestors -/

/-- The task that fails with this one. -/
def TaskNode.above? (n : TaskNode) : Option TaskId :=
  if n.detached then none else n.parent

theorem TaskNode.above?_eq_some {n : TaskNode} {q : TaskId} :
    n.above? = some q ↔ n.parent = some q ∧ n.detached = false := by
  unfold above?
  split <;> simp_all

theorem TaskNode.isAttached_eq (n : TaskNode) : n.isAttached = n.above?.isSome := by
  unfold isAttached above?
  cases n.detached <;> simp

/-- The end of a task that failed is recorded for itself only. -/
theorem TaskNode.eq_of_mem_ending {n : TaskNode} {i : MiddlewareId} {t u : TaskId}
    {outcome o : Outcome} (h : .taskFinished u o ∈ bodyEvents t n.body ++ n.farewell i t outcome) :
    u = t ∧ o = outcome := by
  rcases List.mem_append.1 h with h | h
  · cases (mem_bodyEvents.1 h).1
  · exact eq_of_mem_farewell h

/-- Of a failure that has no parent to go on to it is told that it is uncaught. -/
theorem TaskNode.uncaught_ending (n : TaskNode) (i : MiddlewareId) (t : TaskId) (f : Fault) :
    (bodyEvents t n.body ++ n.farewell i t (.aborted f)).filter Event.isUncaught =
      if n.above? = none then [.uncaught { owner := i, id := t, name := n.name } f] else [] := by
  have hbody : (bodyEvents t n.body).filter Event.isUncaught = [] :=
    List.filter_eq_nil_iff.2 fun e he => by simp [(mem_bodyEvents.1 he).1, Event.isUncaught]
  rw [List.filter_append, hbody, List.nil_append, farewell, isAttached_eq]
  cases n.above? <;> rfl

namespace Tasks

/-- The tasks from a task up to the topmost task above it, by links to parents it is attached
to. -/
inductive Lineage (tasks : Tasks) : TaskId → List TaskId → TaskId → Prop
  | top {t : TaskId} {n : TaskNode} (hn : tasks.get? t = some n) (h : n.above? = none) :
      Lineage tasks t [t] t
  | up {t q r : TaskId} {ps : List TaskId} {n : TaskNode} (hn : tasks.get? t = some n)
      (hq : n.above? = some q) (h : Lineage tasks q ps r) : Lineage tasks t (t :: ps) r

variable {tasks : Tasks} {t u r : TaskId} {ps : List TaskId}

theorem Lineage.le (h : tasks.Lineage t ps r)
    (hbelow : ∀ {c n q}, tasks.get? c = some n → n.parent = some q → q < c) (hu : u ∈ ps) :
    u ≤ t := by
  induction h with
  | top => exact Nat.le_of_eq (List.mem_singleton.1 hu)
  | up hn hq _ ih =>
    rcases List.mem_cons.1 hu with rfl | hu
    · exact Nat.le_refl _
    · exact Nat.le_trans (ih hu) (Nat.le_of_lt (hbelow hn (TaskNode.above?_eq_some.1 hq).1))

end Tasks

/-- The ancestors of a task that is left were there before. -/
theorem World.Clears.lineage {i : MiddlewareId} {cost : TaskId → Nat} {S : TaskId → Prop}
    {R : TaskId → Outcome → Prop} {ms : List Event} {w w' : World} {t r : TaskId}
    {ps : List TaskId} (h : w.Clears i cost S R ms w') (hp : (w'.engine i).tasks.Lineage t ps r) :
    (w.engine i).tasks.Lineage t ps r := by
  induction hp with
  | top hn ha =>
    obtain ⟨-, n, hn', hp, hd, -⟩ := h.task_old hn
    refine .top hn' ?_
    rwa [TaskNode.above?, hp, hd] at ha
  | up hn hq _ ih =>
    obtain ⟨-, n, hn', hp, hd, -⟩ := h.task_old hn
    refine .up hn' ?_ ih
    rwa [TaskNode.above?, hp, hd] at hq

section

variable {i : MiddlewareId} {cost : TaskId → Nat} {w : World} {p q : TaskId} {n : TaskNode}
  {s : Scenario} {todo : List Instr} {f : Fault}

/-- A live parent fails with a task that is attached to it. -/
theorem Core.cascade_aborted {k : Core} {a : Posture} (ha : k.posture p = some a)
    (hq : a.parent = some q) (hd : a.detached = false) (hqp : q ≠ p) (hl : k.Live q) :
    k.cascade p (.aborted f) = some (.abort q f) := by
  obtain ⟨b, hb, hlb⟩ := hl
  obtain ⟨parent, detached, children, status, hasBody, pending, result⟩ := a
  cases hq
  cases hd
  simp [cascade, ha, hqp, hb, hlb]

/-- All tasks of the table are live. -/
def World.AllLive (w : World) (i : MiddlewareId) : Prop :=
  ∀ {u n}, w.task? i u = some n → n.status.isTerminal = false

/-- The tasks whose parents are known go up to the top, all of them live. -/
theorem World.AllLive.attached {r : TaskId} {ps : List TaskId} (hall : w.AllLive i)
    (h : (w.engine i).tasks.Lineage p ps r) : (w.engine i).tasks.Attached r p := by
  induction h with
  | top hn _ => exact .root (Tasks.isLive_iff.2 ⟨_, hn, hall hn⟩)
  | up hn hq _ ih =>
    obtain ⟨hp, hd⟩ := TaskNode.above?_eq_some.1 hq
    exact ih.child hn (hall hn) hp hd

/-! ## One task that fails -/

namespace Grounds

/-- Children of a live task have nothing in common below them, even once it is opened up. -/
theorem children_apart {x : Instr} (h : Grounds i x todo w) (hn : w.task? i p = some n)
    (hl : n.status.isTerminal = false) :
    n.children.Pairwise fun c c' => ∀ u, (w.engine i).tasks.Below c u →
      ¬ (w.engine i).tasks.Below c' u := by
  have hnd : n.children.Nodup := h.kinship.nodup (p := n.posture)
    (by rw [World.posture_core, hn]; rfl) hl
  have hlive : (w.engine i).tasks.isLive p = true := Tasks.isLive_iff.2 ⟨n, hn, hl⟩
  refine hnd.imp_of_mem fun {c c'} hc hc' hne u hu hu' => ?_
  rcases hu.linear h.family hu' with hb | hb
  · exact Tasks.Below.not_sibling h.family hn hlive hc hc' hne hb
  · exact Tasks.Below.not_sibling h.family hn hlive hc' hc hne.symm hb

/-- The parent of a live task is live, unless the task is about to be cancelled. -/
theorem above_live {x : Instr} (h : Grounds i x todo w) (hn : w.task? i p = some n)
    (hl : n.status.isTerminal = false) (hx : ∀ c, x ≠ .cancel i c)
    (hno : ∀ c, .cancel i c ∉ framesOf i todo) (hq : n.above? = some q) :
    q < p ∧ (w.core i).Live q := by
  obtain ⟨hpq, hdq⟩ := TaskNode.above?_eq_some.1 hq
  have hpost : (w.core i).posture p = some n.posture := by rw [World.posture_core, hn]; rfl
  refine ⟨h.below hn hpq, (h.kinship.upheld hpost hl hpq hdq).resolve_right fun hc => ?_⟩
  rcases List.mem_cons.1 hc with hc | hc
  · exact hx p hc.symm
  · exact hno p hc

/-- Below a live task are the task itself and what is below its live children. -/
theorem below_children {x : Instr} (h : Grounds i x todo w) (hn : w.task? i p = some n)
    (hl : n.status.isTerminal = false) (hall : w.AllLive i) {u : TaskId} :
    (w.engine i).tasks.Below p u ↔ u = p ∨ ∃ c ∈ n.children, (w.engine i).tasks.Below c u := by
  have hlive : (w.engine i).tasks.isLive p = true := Tasks.isLive_iff.2 ⟨n, hn, hl⟩
  constructor
  · intro hb
    rcases hb.eq_or_child with rfl | ⟨m, c, hm, hc, -, hb⟩
    · exact Or.inl rfl
    · rw [show (w.engine i).tasks.get? p = some n from hn] at hm
      cases hm
      exact Or.inr ⟨c, hc, hb⟩
  · rintro (rfl | ⟨c, hc, hb⟩)
    · exact .root hlive
    · obtain ⟨m, hm, -⟩ := h.child hn hl hc
      exact ((Tasks.Below.root hlive).child hn hc
        (Tasks.isLive_iff.2 ⟨m, hm, hall hm⟩)).trans hb

/-- Tasks below a child are younger than its parent. -/
theorem lt_of_below_child {x : Instr} (h : Grounds i x todo w) (hn : w.task? i p = some n)
    (hl : n.status.isTerminal = false) {c u : TaskId} (hc : c ∈ n.children)
    (hb : (w.engine i).tasks.Below c u) : p < u := by
  obtain ⟨m, hm, hmp, -⟩ := h.child hn hl hc
  exact Nat.lt_of_lt_of_le (h.below hm hmp) (hb.le h.family)

variable {w₁ : World}

/-- What is below a younger task stays below it when a task is opened up. -/
theorem below_younger {x : Instr} (h : Grounds i x todo w) (hf : w.Fells i (· = p) [] w₁)
    {a u : TaskId} (ha : p < a) (hb : (w.engine i).tasks.Below a u) :
    (w₁.engine i).tasks.Below a u := by
  obtain ⟨ns, he⟩ := hf.engine
  refine he.below_kept hb fun v hav _ => ⟨fun hvp => ?_, List.not_mem_nil⟩
  exact Nat.not_lt_of_le (hav.le h.family) (hvp ▸ ha)

/-- Opening up a task leaves what is below its children. -/
theorem below_opened {x : Instr} (h : Grounds i x todo w) (hn : w.task? i p = some n)
    (hl : n.status.isTerminal = false) (hall : w.AllLive i) (hf : w.Fells i (· = p) [] w₁)
    (u : TaskId) :
    (w.engine i).tasks.Below p u ↔ u = p ∨ ∃ c ∈ n.children, (w₁.engine i).tasks.Below c u := by
  obtain ⟨ns, he⟩ := hf.engine
  rw [h.below_children hn hl hall]
  refine or_congr_right ⟨?_, ?_⟩
  · rintro ⟨c, hc, hb⟩
    exact ⟨c, hc, h.below_younger hf (h.lt_of_below_child hn hl hc (.root hb.isLive_root)) hb⟩
  · rintro ⟨c, hc, hb⟩
    exact ⟨c, hc, he.below_old hb⟩

/-- The children of a task that was opened up are live, without a live parent. -/
theorem children_orphaned {x : Instr} (h : Grounds i x todo w) (hn : w.task? i p = some n)
    (hl : n.status.isTerminal = false) (hall : w.AllLive i) (hf : w.Fells i (· = p) [] w₁)
    (hdead : ¬ (w₁.core i).Live p) {c : TaskId} (hc : c ∈ n.children) :
    (w₁.core i).Live c ∧
      ∀ m q, w₁.task? i c = some m → m.parent = some q → ¬ (w₁.core i).Live q := by
  obtain ⟨m, hm, hmp, -⟩ := h.child hn hl hc
  have hb : (w.engine i).tasks.Below c c := .root (Tasks.isLive_iff.2 ⟨m, hm, hall hm⟩)
  refine ⟨World.live_iff.1 (h.below_younger hf (h.lt_of_below_child hn hl hc hb) hb).isLive,
    fun m₁ q hm₁ hq => ?_⟩
  obtain ⟨m₀, hm₀, -, hout⟩ := hf.exists_old hm₁
  cases hm.symm.trans hm₀
  rw [hout.parent, hmp] at hq
  cases hq
  exact hdead

/-- A task is opened up, what is below its children is cleared, and then its own end is recorded:
that clears what was below it. -/
theorem clears_opened {x : Instr} {S : TaskId → Prop} {o : Outcome} {ms ms' : List Event}
    {w₂ w₃ : World} (h : Grounds i x todo w) (hf : w.Fells i (· = p) [] w₁)
    (hbud : w₁.budget = w.budget) (hS : ∀ u, (w.engine i).tasks.Below p u ↔ u = p ∨ S u)
    (hlt : ∀ {u}, S u → p < u) (hcl : w₁.Clears i cost S (fun _ o' => o' = .cancelled) ms w₂)
    (hf' : w₂.Fells i (fun _ => False) ms' w₃) (hfin : finishedIn ms' = [p])
    (hout : ∀ {u o'}, .taskFinished u o' ∈ ms' → u = p ∧ o' = o)
    (hbud' : w₂.budget ≤ w₃.budget + cost p) :
    w.Clears i cost ((w.engine i).tasks.Below p)
      (fun u o' => u = p ∧ o' = o ∨ u ≠ p ∧ o' = .cancelled) (ms ++ ms') w₃ := by
  have hdone : finishedIn (ms ++ ms') = finishedIn ms ++ [p] := by rw [finishedIn_append, hfin]
  have hyoung : ∀ {u}, u ∈ finishedIn ms → p < u := fun hu => hlt (hcl.gone.1 hu)
  constructor
  case fells =>
    exact ((hf.trans hcl.fells).trans hf').mono fun u hu => (hS u).2 (hu.resolve_right id)
  case gone =>
    intro u
    rw [hdone, List.mem_append, hcl.gone, List.mem_singleton, hS, or_comm]
  case outcome =>
    intro u o' ho
    rcases List.mem_append.1 ho with ho | ho
    · exact .inr ⟨Nat.ne_of_gt (hyoung (mem_finishedIn.2 ⟨o', ho⟩)), hcl.outcome ho⟩
    · exact .inl (hout ho)
  case closed => exact fun hx hb => hx.trans hb
  case nodup =>
    rw [hdone]
    refine List.nodup_append.2 ⟨hcl.nodup, by simp, ?_⟩
    rintro t ht _ ht' rfl
    exact Nat.lt_irrefl _ (List.mem_singleton.1 ht' ▸ hyoung ht)
  case order =>
    rw [hdone]
    refine List.pairwise_append.2 ⟨?_, List.pairwise_singleton .., ?_⟩
    · exact hcl.order.imp_of_mem fun ha _ hno hb => hno (h.below_younger hf (hyoung ha) hb)
    · intro a ha d hd hb
      cases List.mem_singleton.1 hd
      exact Nat.not_lt_of_le (hb.le h.family) (hyoung ha)
  case spent =>
    rw [hdone, List.map_append, List.sum_append]
    have := hcl.spent
    simp only [List.map_cons, List.map_nil, List.sum_cons, List.sum_nil]
    omega

end Grounds

namespace Scenario.Visits

/-- A live task fails: it is opened up, and its children are to be cancelled. -/
theorem abort_opens (h : s.Visits ⟨.abort ⟨i, p⟩ f :: todo, w⟩) (hi : w.Has i)
    (hw : w.Harmless i cost) (hcur : (w.engine i).current = none) (hn : w.task? i p = some n)
    (hl : n.status.isTerminal = false) :
    ∃ w' : World, Config.Leads ⟨.abort ⟨i, p⟩ f :: todo, w⟩ ⟨n.children.map (.cancel i) ++
        (World.dropping ⟨i, p⟩ n.body ++ ([.abortDone ⟨i, p⟩ f false] ++ todo)), w'⟩ ∧
      w.Fells i (· = p) [] w' ∧ w'.budget = w.budget ∧ ¬ (w'.core i).Live p ∧
      w'.Harmless i cost := by
  have hg := h.grounds rfl hi
  have hadv := ((World.Advances.start hi).setTask (t := p)
    (f := fun n => { n with status := .aborted, pending := none, body := none })
    (fun a => { a with status := .aborted, pending := none, hasBody := false })
    fun _ => rfl).cancelPending n.pending
  have hf := hg.fells_strip hn
    (f := fun n => { n with status := .aborted, pending := none, body := none })
    (fun _ => ⟨rfl, rfl, rfl, rfl, rfl⟩) fun _ hl => by cases hl
  have hbud : ((w.setTask i p fun n =>
      { n with status := .aborted, pending := none, body := none }).cancelPending i n.pending).budget =
        w.budget := World.budget_cancelPending _
  have hstep : Config.Leads ⟨.abort ⟨i, p⟩ f :: todo, w⟩ ⟨n.children.map (.cancel i) ++
      (World.dropping ⟨i, p⟩ n.body ++ ([.abortDone ⟨i, p⟩ f false] ++ todo)),
      (w.setTask i p fun n => { n with status := .aborted, pending := none, body := none }).cancelPending
        i n.pending⟩ := by
    refine (Config.Leads.exec (c := w.execAbort ⟨i, p⟩ f) rfl).trans ?_
    simp only [World.execAbort, hn, hl, hcur, Bool.false_eq_true, if_false, reduceCtorEq,
      decide_false, List.append_assoc]
    exact .refl _
  generalize (w.setTask i p fun n => { n with status := .aborted, pending := none, body := none }).cancelPending
    i n.pending = w' at hadv hf hbud hstep
  have hpost : (w'.core i).posture p =
      some { n.posture with status := .aborted, pending := none, hasBody := false } := by
    rw [hadv.core]
    show ((w.core i).alter p _).posture p = _
    rw [Core.posture_alter, if_pos rfl, World.posture_core, hn]
    rfl
  refine ⟨w', hstep, hf, hbud, ?_, ?_, ?_⟩
  · rintro ⟨a, ha, hla⟩
    rw [hpost] at ha
    cases ha
    cases hla
  · intro u m b hm hb
    by_cases hup : u = p
    · subst hup
      rw [World.posture_core, hm] at hpost
      have hbody := congrArg Posture.hasBody (Option.some.inj hpost)
      simp [TaskNode.posture, hb] at hbody
    · obtain ⟨m₀, hm₀, -, hout⟩ := hf.exists_old hm
      exact hw.bodies hm₀ ((hout.alike hup).2.1 ▸ hb)
  · intro ts hnd hts
    rw [hbud]
    refine hw.budget ts hnd fun u hu => ?_
    obtain ⟨m, hm⟩ := hts u hu
    obtain ⟨m₀, hm₀, -⟩ := hf.exists_old hm
    exact ⟨m₀, hm₀⟩

/-- A live task that failed loses what is left of its body, and its outcome is recorded. -/
theorem abortDone_leads
    (h : s.Visits ⟨World.dropping ⟨i, p⟩ n.body ++ ([.abortDone ⟨i, p⟩ f false] ++ todo), w⟩)
    (hi : w.Has i) {m : TaskNode} (hm : w.task? i p = some m) (hname : m.name = n.name)
    (hpar : m.parent = n.parent) (hdet : m.detached = n.detached) (hb : ∀ b, n.body = some b →
      b.HarmlessTo i (cost p)) (hc : cost p ≤ w.budget)
    (hq : ∀ q, n.above? = some q → q ≠ p ∧ (w.core i).Live q) :
    ∃ w' : World, Config.Leads
        ⟨World.dropping ⟨i, p⟩ n.body ++ ([.abortDone ⟨i, p⟩ f false] ++ todo), w⟩
        ⟨n.above?.toList.map (fun q => .cascade i (.abort q f)) ++ todo, w'⟩ ∧
      w.Fells i (fun _ => False) (bodyEvents p n.body ++ n.farewell i p (.aborted f)) w' ∧
      w.budget ≤ w'.budget + cost p := by
  obtain ⟨w₁, hl₁, hf₁, hb₁⟩ := dropping_leads (w := w) (t := p) n.body
    ([.abortDone ⟨i, p⟩ f false] ++ todo) hb hc
  have hi₁ := hf₁.has hi
  have hg := (h.leads hl₁).grounds rfl hi₁
  obtain ⟨ns, he⟩ := hf₁.engine
  obtain ⟨m₁, hm₁, hout⟩ := hf₁.kept hm (by rw [finishedIn_bodyEvents]; simp)
  have hatt : m₁.isAttached = n.isAttached := by
    simp only [TaskNode.isAttached, hout.parent, hout.detached, hpar, hdet]
  have hfar : m₁.farewell i p (.aborted f) = n.farewell i p (.aborted f) := by
    simp only [TaskNode.farewell, hatt, hout.name, hname]
  have hfin := World.fells_finalize (P := fun _ => False) hi₁ hm₁ (hg.parent_of_child hm₁)
    (.aborted f)
  rw [hfar] at hfin
  obtain ⟨hc₁, -⟩ := (World.Advances.start hi₁).finalize hm₁ (.aborted f)
  have hpost : (w₁.core i).posture p = some m₁.posture := by rw [World.posture_core, hm₁]; rfl
  have habove : m₁.above? = n.above? := by
    simp only [TaskNode.above?, hout.parent, hout.detached, hpar, hdet]
  have hcas : (w₁.core i).cascade p (.aborted f) = n.above?.map fun q => .abort q f := by
    cases hq' : n.above? with
    | none =>
      refine Core.cascade_eq_none fun a ha q hqa hda => ?_
      rw [hpost] at ha
      cases ha
      rw [← habove, TaskNode.above?_eq_some.2 ⟨hqa, hda⟩] at hq'
      cases hq'
    | some q =>
      obtain ⟨hqp, hlq⟩ := hq q hq'
      obtain ⟨hpq, hdq⟩ := TaskNode.above?_eq_some.1 (habove.trans hq')
      refine Core.cascade_aborted hpost hpq hdq hqp (World.live_iff.1 ?_)
      exact he.isLive_kept (World.live_iff.2 hlq) id (by rw [finishedIn_bodyEvents]; simp)
  refine ⟨(w₁.finalize i p (.aborted f)).2, hl₁.trans ?_, (hf₁.trans hfin).mono fun u hu => hu.elim id id, ?_⟩
  · refine (Config.Leads.exec (x := .abortDone ⟨i, p⟩ f false)
      (c := w₁.execAbortDone ⟨i, p⟩ f false) rfl).trans ?_
    simp only [World.execAbortDone, Bool.false_eq_true, if_false, World.cascadeOn, hc₁, hcas]
    cases n.above? <;> exact .refl _
  · rw [World.budget_finalize]
    exact hb₁

/--
A task that fails while all tasks are live clears what is below it, and its parent is going to
fail, if there is one.
-/
theorem abortOne_leads (h : s.Visits ⟨.abort ⟨i, p⟩ f :: todo, w⟩) (hi : w.Has i)
    (hw : w.Harmless i cost) (hcur : (w.engine i).current = none) (hall : w.AllLive i)
    (hno : ∀ c, .cancel i c ∉ framesOf i todo) (hn : w.task? i p = some n) :
    ∃ (w' : World) (ms : List Event), Config.Leads ⟨.abort ⟨i, p⟩ f :: todo, w⟩
        ⟨n.above?.toList.map (fun q => .cascade i (.abort q f)) ++ todo, w'⟩ ∧
      w.Clears i cost ((w.engine i).tasks.Below p)
        (fun u o => u = p ∧ o = .aborted f ∨ u ≠ p ∧ o = .cancelled) ms w' ∧
      ms.filter Event.isUncaught = (if n.above? = none then
        [.uncaught { owner := i, id := p, name := n.name } f] else []) := by
  have hg := h.grounds rfl hi
  have hl := hall hn
  obtain ⟨w₁, hl₁, hf₁, hbud₁, hdead, hw₁⟩ := h.abort_opens hi hw hcur hn hl
  obtain ⟨ns₁, he₁⟩ := hf₁.engine
  have hi₁ := hf₁.has hi
  -- the children, which have lost their parent
  obtain ⟨w₂, ms, hl₂, hcl, hun⟩ := (h.leads hl₁).cancelChildren_clears hi₁ hw₁
    (he₁.current.trans hcur)
    ((hg.children_apart hn hl).imp fun hab u hu hu' => hab u (he₁.below_old hu) (he₁.below_old hu'))
    (fun c hc => hg.children_orphaned hn hl hall hf₁ hdead hc)
  obtain ⟨ns₂, he₂⟩ := hcl.fells.engine
  have hlt : ∀ {u}, (∃ c ∈ n.children, (w₁.engine i).tasks.Below c u) → p < u := by
    rintro u ⟨c, hc, hb⟩
    exact hg.lt_of_below_child hn hl hc (he₁.below_old hb)
  -- the task itself
  have hself : ¬ ∃ c ∈ n.children, (w₁.engine i).tasks.Below c p :=
    fun hp => Nat.lt_irrefl _ (hlt hp)
  obtain ⟨m₁, hm₁, hout⟩ := hf₁.kept hn List.not_mem_nil
  obtain ⟨m, hm, hname, hpar, hdet, -⟩ := hcl.task_kept hm₁ hself
  have hq : ∀ q, n.above? = some q → q ≠ p ∧ (w₂.core i).Live q := by
    intro q hq
    obtain ⟨hqp, hlq⟩ := hg.above_live hn hl (fun c => nofun) hno hq
    have hlq₁ := he₁.isLive_kept (World.live_iff.2 hlq) (Nat.ne_of_lt hqp) List.not_mem_nil
    have hnot : ¬ ∃ c ∈ n.children, (w₁.engine i).tasks.Below c q :=
      fun hb => Nat.lt_asymm hqp (hlt hb)
    exact ⟨Nat.ne_of_lt hqp,
      World.live_iff.1 (he₂.isLive_kept hlq₁ hnot fun hfin => hnot (hcl.gone.1 hfin))⟩
  have hcost : cost p ≤ w₂.budget := by
    have := (hcl.harmless hw₁).budget [p] (by simp)
      fun t ht => ⟨m, List.mem_singleton.1 ht ▸ hm⟩
    simpa using this
  obtain ⟨w₃, hl₃, hf₃, hb₃⟩ := ((h.leads hl₁).leads hl₂).abortDone_leads (n := n)
    (hcl.fells.has hi₁) hm (hname.trans hout.name) (hpar.trans hout.parent)
    (hdet.trans hout.detached) (fun b hb => hw.bodies hn hb) hcost hq
  refine ⟨w₃, _, (hl₁.trans hl₂).trans hl₃,
    hg.clears_opened hf₁ hbud₁ (hg.below_opened hn hl hall hf₁) hlt hcl hf₃
      (by rw [finishedIn_append, finishedIn_bodyEvents, finishedIn_farewell, List.nil_append])
      TaskNode.eq_of_mem_ending hb₃, ?_⟩
  rw [List.filter_append, hun, List.nil_append, n.uncaught_ending]

/--
A failure while all tasks are live clears the whole tree that the task is in: the tasks from
the task up to the topmost one are recorded as aborted with its fault, all others as cancelled,
and the failure is reported once, for the topmost task.
-/
theorem abort_leads (h : s.Visits ⟨.abort ⟨i, p⟩ f :: todo, w⟩) (hi : w.Has i)
    (hw : w.Harmless i cost) (hcur : (w.engine i).current = none) (hall : w.AllLive i)
    (hno : ∀ c, .cancel i c ∉ framesOf i todo) (hn : w.task? i p = some n) :
    ∃ (w' : World) (ms : List Event) (ps : List TaskId) (r : TaskId) (m : TaskNode),
      Config.Leads ⟨.abort ⟨i, p⟩ f :: todo, w⟩ ⟨todo, w'⟩ ∧
      (w.engine i).tasks.Lineage p ps r ∧ w.task? i r = some m ∧
      w.Clears i cost ((w.engine i).tasks.Below r)
        (fun u o => u ∈ ps ∧ o = .aborted f ∨ u ∉ ps ∧ o = .cancelled) ms w' ∧
      ms.filter Event.isUncaught = [.uncaught { owner := i, id := r, name := m.name } f] := by
  induction p using Nat.strongRecOn generalizing w n with
  | _ p ih =>
  have hg := h.grounds rfl hi
  have hl := hall hn
  obtain ⟨w₁, ms₁, hl₁, hcl₁, hun₁⟩ := h.abortOne_leads hi hw hcur hall hno hn
  cases hq : n.above? with
  | none =>
    rw [hq] at hl₁
    rw [if_pos hq] at hun₁
    refine ⟨w₁, ms₁, [p], p, n, hl₁, .top hn hq, hn, hcl₁.mono (fun _ => Iff.rfl) ?_, hun₁⟩
    intro u o _ ho
    simpa only [List.mem_singleton] using ho
  | some q =>
    rw [hq] at hl₁
    rw [if_neg (by rw [hq]; exact nofun)] at hun₁
    obtain ⟨hqp, hlq⟩ := hg.above_live hn hl (fun c => nofun) hno hq
    obtain ⟨m, hm, hlm⟩ := Tasks.isLive_iff.1 (World.live_iff.2 hlq)
    have hF := hg.family
    have hnot : ¬ (w.engine i).tasks.Below p q := fun hb => Nat.not_lt_of_le (hb.le hF) hqp
    obtain ⟨m₁, hm₁, -⟩ := hcl₁.task_kept hm hnot
    have hall₁ : w₁.AllLive i := by
      intro u k hk
      obtain ⟨-, k₀, hk₀, -, -, hst, -⟩ := hcl₁.task_old hk
      exact hst ▸ hall hk₀
    have hlead : Config.Leads ⟨.abort ⟨i, p⟩ f :: todo, w⟩ ⟨.abort ⟨i, q⟩ f :: todo, w₁⟩ :=
      hl₁.trans (.exec (c := ⟨[.abort ⟨i, q⟩ f], w₁⟩) rfl)
    obtain ⟨ns, he⟩ := hcl₁.fells.engine
    obtain ⟨w₂, ms₂, ps, r, k, hl₂, hps, hk, hcl₂, hun₂⟩ := ih q hqp (h.leads hlead)
      (hcl₁.fells.has hi) (hcl₁.harmless hw) (he.current.trans hcur) hall₁ hm₁
    have hps' := hcl₁.lineage hps
    have hline : (w.engine i).tasks.Lineage p (p :: ps) r := .up hn hq hps'
    obtain ⟨-, k₀, hk₀, -⟩ := hcl₁.task_old hk
    have hbelow : (w.engine i).tasks.Below r p := hg.attached_iff.1 (hall.attached hline)
    have hname : k.name = k₀.name := by
      obtain ⟨k₁, hk₁, hname, -⟩ := hcl₁.task_kept hk₀ (hcl₁.task_old hk).1
      rw [hk] at hk₁
      cases hk₁
      exact hname
    have hmem : ∀ u, u ∈ ps → u ≤ q := fun u hu => hps'.le hg.below hu
    have hfirst : w.Clears i cost ((w.engine i).tasks.Below p)
        (fun u o => u ∈ p :: ps ∧ o = .aborted f ∨ u ∉ p :: ps ∧ o = .cancelled) ms₁ w₁ := by
      refine hcl₁.mono (fun _ => Iff.rfl) ?_
      rintro u o hu (⟨rfl, ho⟩ | ⟨hup, ho⟩)
      · exact Or.inl ⟨List.mem_cons_self, ho⟩
      · refine Or.inr ⟨fun hin => ?_, ho⟩
        rcases List.mem_cons.1 hin with hin | hin
        · exact hup hin
        · exact Nat.not_lt_of_le (hu.le hF) (Nat.lt_of_le_of_lt (hmem u hin) hqp)
    have hsecond : w₁.Clears i cost ((w₁.engine i).tasks.Below r)
        (fun u o => u ∈ p :: ps ∧ o = .aborted f ∨ u ∉ p :: ps ∧ o = .cancelled) ms₂ w₂ := by
      refine hcl₂.mono (fun _ => Iff.rfl) ?_
      rintro u o hu (⟨hin, ho⟩ | ⟨hin, ho⟩)
      · exact Or.inl ⟨List.mem_cons_of_mem _ hin, ho⟩
      · refine Or.inr ⟨fun hin' => ?_, ho⟩
        rcases List.mem_cons.1 hin' with rfl | hin'
        · exact (hcl₁.below_iff.1 hu).2 (.root (Tasks.isLive_iff.2 ⟨n, hn, hl⟩))
        · exact hin hin'
    refine ⟨w₂, ms₁ ++ ms₂, p :: ps, r, k₀, hlead.trans hl₂, hline, hk₀,
      (hfirst.trans hsecond).mono (fun u => ?_) (fun u o _ ho => ho), ?_⟩
    · rw [hcl₁.below_iff]
      constructor
      · rintro (hu | ⟨hu, -⟩)
        · exact hbelow.trans hu
        · exact hu
      · intro hu
        by_cases hpu : (w.engine i).tasks.Below p u
        · exact Or.inl hpu
        · exact Or.inr ⟨hu, hpu⟩
    · rw [List.filter_append, hun₁, hun₂, List.nil_append, hname]

end Scenario.Visits

/-! ## Bodies that end with a fault -/

/-- Once the body of a task is dropped, nothing is to be paid for the task any more. -/
theorem World.Harmless.paid {w' : World} (hw : w.Harmless i cost) (hn : w.task? i p = some n)
    (htask : ∀ u, w'.task? i u = w.task? i u) (hbody : n.body = none)
    (hb : w.budget ≤ w'.budget + cost p) : w'.Harmless i (Function.update cost p 0) where
  bodies {u m b} hm hmb := by
    rw [htask] at hm
    by_cases hup : u = p
    · subst hup
      rw [hn] at hm
      cases hm
      rw [hbody] at hmb
      cases hmb
    · rw [Function.update_of_ne hup]
      exact hw.bodies hm hmb
  budget ts hnd hts := by
    have hsum : (ts.map (Function.update cost p 0)).sum = ((ts.filter (· ≠ p)).map cost).sum := by
      clear hnd hts
      induction ts with
      | nil => rfl
      | cons t ts ih =>
        by_cases htp : t = p
        · simp [htp, ih]
        · simp [htp, ih]
    have hall := hw.budget (p :: ts.filter (· ≠ p))
      (List.nodup_cons.2 ⟨by simp, hnd.filter _⟩) (by
        intro t ht
        rcases List.mem_cons.1 ht with rfl | ht
        · exact ⟨n, hn⟩
        · rw [← htask]
          exact hts t (List.mem_filter.1 ht).1)
    rw [List.map_cons, List.sum_cons] at hall
    rw [hsum]
    omega

namespace Scenario.Visits

/-- A body ends with a fault: the tree of its task is cleared. -/
theorem fault_leads {b : Body}
    (h : s.Visits ⟨.leave ⟨i, p⟩ b (.finished (.error f)) :: todo, w⟩) (hi : w.Has i)
    (hw : w.Harmless i cost) (hb : b.HarmlessTo i (cost p)) :
    ∃ (w₁ w' : World) (ms : List Event) (ps : List TaskId) (r : TaskId) (m : TaskNode),
      Config.Leads ⟨.leave ⟨i, p⟩ b (.finished (.error f)) :: todo, w⟩
        ⟨.abort ⟨i, p⟩ f :: todo, w₁⟩ ∧
      Config.Leads ⟨.abort ⟨i, p⟩ f :: todo, w₁⟩ ⟨todo, w'⟩ ∧
      w₁.engine i = { w.engine i with current := none } ∧
      w₁.past i = .bodyDropped p :: w.past i ∧ w₁.alive? i = w.alive? i ∧ w₁.AllLive i ∧
      (w.engine i).tasks.Lineage p ps r ∧ w.task? i r = some m ∧
      w₁.Clears i (Function.update cost p 0) ((w.engine i).tasks.Below r)
        (fun u o => u ∈ ps ∧ o = .aborted f ∨ u ∉ ps ∧ o = .cancelled) ms w' ∧
      ms.filter Event.isUncaught = [.uncaught { owner := i, id := r, name := m.name } f] := by
  have hg := h.grounds rfl hi
  obtain ⟨hcur, hframes⟩ := hg.stack.of_turn (t := p) rfl
  -- the task is there, and its body is at work
  obtain ⟨a, ha, hla⟩ : (w.core i).Live p := hg.orderly.frames _ List.mem_cons_self
  have hnobody := ((hg.afoot hcur).2 a ha).1
  rw [World.posture_core] at ha
  obtain ⟨n, hn, rfl⟩ := Option.map_eq_some_iff.1 ha
  have hbody : n.body = none := by simpa [TaskNode.posture] using hnobody
  -- the body is dropped
  have hi₀ : (w.setEngine i fun e => { e with current := none }).Has i := by
    rw [World.has_iff, World.alive_setEngine, ← World.has_iff]
    exact hi
  have hcost : cost p ≤ w.budget := by
    have := hw.budget [p] (by simp) fun t ht => ⟨n, List.mem_singleton.1 ht ▸ hn⟩
    simpa using this
  obtain ⟨w₁, hl₁, hu, hbud⟩ := hb
    ((w.setEngine i fun e => { e with current := none }).record i (.bodyDropped p))
    (.abort ⟨i, p⟩ f :: todo) hcost
  have hlead : Config.Leads ⟨.leave ⟨i, p⟩ b (.finished (.error f)) :: todo, w⟩
      ⟨.abort ⟨i, p⟩ f :: todo, w₁⟩ := by
    refine (Config.Leads.exec (c := w.execLeave ⟨i, p⟩ b (.finished (.error f))) rfl).trans ?_
    refine (Config.Leads.exec (x := .dropBody ⟨i, p⟩ b) rfl).trans hl₁
  have hengine : w₁.engine i = { w.engine i with current := none } := by
    rw [hu.engine]
    exact World.engine_setEngine hi fun e => { e with current := none }
  have htask : ∀ u, w₁.task? i u = w.task? i u := fun u => by
    rw [World.task?, hengine, World.task?]
  have hi₁ : w₁.Has i := hu.has.2 hi₀
  have hg₁ := (h.leads hlead).grounds rfl hi₁
  have hcur₁ : (w₁.engine i).current = none := by rw [hengine]
  have hall : w₁.AllLive i := by
    intro u m hm
    by_contra hterm
    have hpost : (w₁.core i).posture u = some m.posture := by rw [World.posture_core, hm]; rfl
    rcases (hg₁.orderly.tasks hpost).terminal (by simpa [TaskNode.posture] using hterm) with hc | hc
    · rw [show (w₁.core i).current = (w₁.engine i).current from rfl, hcur₁] at hc
      cases hc
    · obtain ⟨x, hx, hux⟩ := hc
      rw [hframes] at hx
      rcases List.mem_cons.1 hx with rfl | hx
      · cases hux
      · cases List.mem_singleton.1 hx
        cases hux
  obtain ⟨w', ms, ps, r, m, hl₂, hps, hm, hcl, hun⟩ := (h.leads hlead).abort_leads hi₁
    (hw.paid hn htask hbody hbud) hcur₁ hall (fun c hc => by
      rw [hframes] at hc
      cases List.mem_singleton.1 hc) ((htask p).trans hn)
  rw [hengine] at hps hcl
  refine ⟨w₁, w', ms, ps, r, m, hlead, hl₂, hengine, ?_, ?_, hall, hps, (htask r).symm.trans hm, hcl, hun⟩
  · rw [hu.past, World.past_record]
    rfl
  · rw [hu.alive]
    exact World.alive_setEngine (w := w) (j := i) (f := fun e => { e with current := none })

end Scenario.Visits

end

end SagaMachine
