import SagaMachine.Proofs.Felling
import Mathlib.Algebra.GroupWithZero.Nat
import SagaMachine.Proofs.Kinship
import SagaMachine.Proofs.Quiescence

/-!
# Runs of a teardown

Where the destructors of bodies leave a middleware alone (`Body.HarmlessTo`), the teardown of
a task runs to its end, and what it leaves behind is known (`World.Fells`). A task of a
cancelled subtree is opened up, its body is dropped, and its outcome is recorded unless its own
step is under way; this is done for one task after the other.

Main statements: `Visits.cancelOne_leads`, `Visits.cancelEach_leads`.
-/

namespace SagaMachine

/-! ## Runs -/

/-- The machine comes from one configuration to another. -/
inductive Config.Leads : Config → Config → Prop
  | refl (c : Config) : Leads c c
  | step {c c' c'' : Config} (h : c.step = some c') (hl : Leads c' c'') : Leads c c''

namespace Config.Leads

variable {c c' c'' : Config}

theorem trans (h : c.Leads c') (h' : c'.Leads c'') : c.Leads c'' := by
  induction h with
  | refl => exact h'
  | step hs _ ih => exact .step hs (ih h')

theorem exec {x : Instr} {todo : List Instr} {w : World} {c : Config}
    (h : x.exec w = some c) : Config.Leads ⟨x :: todo, w⟩ ⟨c.todo ++ todo, c.world⟩ :=
  .step (by simp [Config.step, h, Config.followedBy]) (.refl _)

end Config.Leads

theorem Scenario.Visits.leads {s : Scenario} {c c' : Config} (h : s.Visits c) (hl : c.Leads c') :
    s.Visits c' := by
  induction hl with
  | refl => exact h
  | step hs _ ih => exact ih (h.step hs)

/-! ## Destructors -/

/--
The destructors of a body do nothing to a middleware: wherever its guards go off, with a budget
of at least `cost`, they come to an end, spend no more than that, and leave the middleware
untouched.
-/
def Body.HarmlessTo (b : Body) (i : MiddlewareId) (cost : Nat) : Prop :=
  ∀ (w : World) (todo : List Instr), cost ≤ w.budget →
    ∃ w', Config.Leads ⟨.guards b.guards :: todo, w⟩ ⟨todo, w'⟩ ∧ World.Untouched i w w' ∧
      w.budget ≤ w'.budget + cost

/-- Guards that only report are harmless to everyone. -/
theorem Body.harmlessTo_of_idle {b : Body} (h : ∀ g ∈ b.guards, g.ops = []) (i : MiddlewareId) :
    b.HarmlessTo i 0 := by
  intro w todo hw
  clear hw
  generalize b.guards = gs at h
  induction gs generalizing w with
  | nil => exact ⟨w, .exec (x := .guards []) rfl, .refl i w, Nat.le_refl _⟩
  | cons g gs ih =>
    obtain ⟨w', hl, hu, hb⟩ := ih (w.enter (.guard g.name))
      fun g' hg => h g' (List.mem_cons_of_mem _ hg)
    have hg : World.Untouched i w (w.enter (.guard g.name)) := ⟨rfl, rfl, rfl⟩
    refine ⟨w', ?_, hg.trans hu, hb⟩
    have hops : g.ops = [] := h g List.mem_cons_self
    refine (Config.Leads.exec (x := .guards (g :: gs)) rfl).trans ?_
    refine (Config.Leads.exec (x := .ops g.env g.ops) (c := ⟨[], w.enter (.guard g.name)⟩) ?_).trans hl
    rw [hops]
    rfl

/-- The guards of a middleware's bodies only report. -/
def World.guardsIdle (w : World) (i : MiddlewareId) : Bool :=
  (w.engine i).tasks.entries.all fun e => e.2.body.all fun b => b.guards.all fun g => g.ops.isEmpty

theorem World.harmlessTo_of_guardsIdle {w : World} {i : MiddlewareId} (h : w.guardsIdle i = true)
    {t : TaskId} {n : TaskNode} (hn : w.task? i t = some n) {b : Body} (hb : n.body = some b) :
    b.HarmlessTo i 0 := by
  refine Body.harmlessTo_of_idle (fun g hg => ?_) i
  obtain ⟨e, he, rfl⟩ := Option.map_eq_some_iff.1 hn
  have he := List.all_eq_true.1 h _ (List.mem_of_find?_eq_some he)
  simp only [hb, Option.all_some, List.all_eq_true, List.isEmpty_iff] at he
  exact he g hg

/-! ## Budgets -/

namespace World

variable {w : World} {i : MiddlewareId}

theorem budget_foldl {α : Type} {f : World → α → World} (h : ∀ w a, (f w a).budget = w.budget)
    (as : List α) : (as.foldl f w).budget = w.budget := by
  induction as generalizing w with
  | nil => rfl
  | cons a as ih => exact ih.trans (h w a)

theorem budget_deregister (x : EffectId) (kind : WaitKind) :
    (w.deregister i x kind).budget = w.budget := by
  cases kind with
  | take source taker => cases source <;> rfl
  | call d =>
    simp only [deregister, unsubscribe]
    split
    · rfl
    · unfold stopTimer
      split <;> rfl
  | _ => rfl

theorem budget_passAll (ps : List Passage) : (w.passAll i ps).budget = w.budget := by
  refine budget_foldl (fun w p => ?_) ps
  cases p with
  | withdrawn x wait => exact budget_deregister x wait.kind
  | settled => rfl

theorem budget_cancelPending (pending : Option EffectId) :
    (w.cancelPending i pending).budget = w.budget := by
  cases pending with
  | none => rfl
  | some x => exact budget_passAll _

theorem budget_finalize (t : TaskId) (outcome : Outcome) :
    (w.finalize i t outcome).2.budget = w.budget := by
  cases hn : w.task? i t with
  | none => rw [finalize_of_absent hn]
  | some n =>
    have h : (w.announce i t n outcome).budget = w.budget := by
      unfold announce
      exact Eq.trans (budget_foldl (f := fun w x => w.schedule i (.settle x (.ofOutcome outcome)))
        (fun w x => rfl) n.joiners) rfl
    rw [finalize_eq hn]
    simp only
    split
    · split
      · exact h
      · split
        · exact h
        · split
          · exact h
          · split <;> exact h
    · split <;> exact h

end World

/-! ## What holds where a frame is carried out -/

/-- What is known of a middleware whose frame is carried out next. -/
structure Grounds (i : MiddlewareId) (x : Instr) (todo : List Instr) (w : World) : Prop where
  has : w.Has i
  stack : Stack i (w.core i).current (x :: framesOf i todo)
  orderly : Orderly i (w.core i) (x :: framesOf i todo)
  tabled : Tabled (w.core i) (x :: framesOf i todo) (w.past i)
  kinship : Kinship i (w.core i) (x :: framesOf i todo)

namespace Scenario.Visits

variable {s : Scenario} {c : Config} {w : World} {i : MiddlewareId} {x : Instr}
  {todo : List Instr}

/-- Parents and children are in step wherever a scenario comes to. -/
theorem kinship (h : s.Visits c) (hi : c.world.Has i) :
    Kinship i (c.view i).core (c.view i).frames := by
  have := h.invariant (P := fun v => Sound i v ∧ Kinship i v.core v.frames)
    ⟨.start i, .start i⟩ (fun hv hm => ⟨hv.1.move hm, hv.2.move hv.1 hm⟩) hi
  exact this.2

theorem grounds (h : s.Visits ⟨x :: todo, w⟩) (hx : x.owner? = some i) (hi : w.Has i) :
    Grounds i x todo w := by
  have hs : Sound i (Config.view ⟨x :: todo, w⟩ i) := h.sound hi
  have hF : framesOf i (x :: todo) = x :: framesOf i todo := by simp [framesOf, hx]
  have hv : (Config.view ⟨x :: todo, w⟩ i).frames = x :: framesOf i todo := hF
  have halive : (Config.view ⟨x :: todo, w⟩ i).alive = true := by
    cases ha : (Config.view ⟨x :: todo, w⟩ i).alive with
    | true => rfl
    | false =>
      have := (hs.framed.dead ha).1
      rw [hv] at this
      cases this
  refine ⟨hi, ?_, ?_, ?_, ?_⟩
  · have := hs.framed.stack
    rwa [hv] at this
  · have := hs.orderly
    rwa [hv] at this
  · have := hs.tabled halive
    rwa [hv] at this
  · have := h.kinship hi
    rwa [hv] at this

end Scenario.Visits

namespace Grounds

variable {i : MiddlewareId} {x : Instr} {todo : List Instr} {w : World} {t u : TaskId}
  {n m : TaskNode}

theorem afoot (h : Grounds i x todo w) {u : TaskId} (hu : (w.core i).current = some u) :
    (w.core i).Afoot u := (h.orderly.driver hu).1

/-- Whom a live task counts among its children is attached to it. -/
theorem child (h : Grounds i x todo w) (hm : w.task? i u = some m)
    (hl : m.status.isTerminal = false) (ht : t ∈ m.children) :
    ∃ n, w.task? i t = some n ∧ n.parent = some u ∧ n.detached = false := by
  have hp : (w.core i).posture u = some m.posture := by rw [World.posture_core, hm]; rfl
  obtain ⟨q, hq, h1, h2⟩ := (h.orderly.tasks hp).children hl t ht
  rw [World.posture_core] at hq
  obtain ⟨n, hn, rfl⟩ := Option.map_eq_some_iff.1 hq
  exact ⟨n, hn, h1, h2⟩

theorem parent_of_child (h : Grounds i x todo w) (hn : w.task? i t = some n) :
    ∀ u m, w.task? i u = some m → m.status.isTerminal = false → t ∈ m.children →
      n.parent = some u ∧ n.detached = false := by
  intro u m hm hl ht
  obtain ⟨n', hn', hp, hd⟩ := h.child hm hl ht
  rw [hn] at hn'
  cases hn'
  exact ⟨hp, hd⟩

/-- A task is opened up: what it is parked on is withdrawn, and nothing of other tasks. -/
theorem fells_strip (h : Grounds i x todo w) (hn : w.task? i t = some n)
    {f : TaskNode → TaskNode}
    (hf : ∀ n, (f n).name = n.name ∧ (f n).parent = n.parent ∧ (f n).detached = n.detached ∧
      (f n).children = n.children ∧ (f n).joiners = n.joiners)
    (hl : ∀ n, (f n).status.isTerminal = false → n.status.isTerminal = false) :
    w.Fells i (· = t) [] ((w.setTask i t f).cancelPending i n.pending) := by
  have h1 := World.Fells.setTask h.has t hf hl
  have hp : (w.core i).posture t = some n.posture := by rw [World.posture_core, hn]; rfl
  have hkeep : ∀ {z wait}, (w.engine i).waits.get? z = some wait → wait.task ≠ t →
      ((w.engine i).waits.detach n.pending.toList).2.get? z = some wait :=
    (h.tabled.strip h.stack h.afoot hp (f := fun p => { p with pending := none }) fun _ => rfl).2
  have hw : ((w.setTask i t f).engine i).waits = (w.engine i).waits := by
    rw [World.setTask, World.engine_setEngine h.has]
  refine (h1.trans (World.Fells.cancelPending (t := t) (h1.has h.has) n.pending ?_)).mono
    fun u hu => hu.elim id id
  intro z wait hz hne
  rw [hw] at hz ⊢
  exact hkeep hz hne

end Grounds

/-! ## One task of a cancelled subtree -/

/-- The end of a body, if it is still there. -/
def bodyEvents (t : TaskId) (body : Option Body) : List Event :=
  if body.isSome then [.bodyDropped t] else []

/-- The milestones at the cancellation of a task: within its own step its outcome is not
recorded yet. -/
def World.demise (w : World) (i : MiddlewareId) (t : TaskId) : List Event :=
  match w.task? i t with
  | none => []
  | some n =>
    bodyEvents t n.body ++ if (w.engine i).current = some t then [] else [.taskFinished t .cancelled]

section

variable {i : MiddlewareId} {w w' : World} {t u : TaskId} {n : TaskNode} {todo : List Instr}
  {s : Scenario} {cost : TaskId → Nat}

/-- What is left of a body is dropped. -/
theorem dropping_leads (body : Option Body) (todo : List Instr) {cost : Nat}
    (hb : ∀ b, body = some b → b.HarmlessTo i cost) (hw : cost ≤ w.budget) :
    ∃ w', Config.Leads ⟨World.dropping ⟨i, t⟩ body ++ todo, w⟩ ⟨todo, w'⟩ ∧
      w.Fells i (fun _ => False) (bodyEvents t body) w' ∧ w.budget ≤ w'.budget + cost := by
  cases body with
  | none => exact ⟨w, .refl _, .refl i w, Nat.le_add_right _ _⟩
  | some b =>
    obtain ⟨w', hl, hu, hbud⟩ := hb b rfl (w.record i (.bodyDropped t)) todo hw
    refine ⟨w', ?_, ?_, hbud⟩
    · exact (Config.Leads.exec (x := .dropBody ⟨i, t⟩ b) rfl).trans hl
    · have h1 : w.Fells i (fun _ => False) [.bodyDropped t] (w.record i (.bodyDropped t)) :=
        .record (e := .bodyDropped t) rfl
      have h2 := h1.trans (.of_untouched (P := fun _ => False) hu)
      simpa [bodyEvents] using h2

/-- What the end of a task means for its parent does not depend on anything else. -/
theorem Core.cascade_congr {k k' : Core} {p p' : Posture} (hp : k.posture t = some p)
    (hp' : k'.posture t = some p') (hpar : p'.parent = p.parent) (hdet : p'.detached = p.detached)
    (hnone : ∀ u, u ≠ t → k.posture u = none → k'.posture u = none)
    (hsome : ∀ u q, u ≠ t → k.posture u = some q → ∃ q', k'.posture u = some q' ∧
      q'.status = q.status ∧ q'.result = q.result ∧
        (q.status.isTerminal = false → q'.children = q.children)) (outcome : Outcome) :
    k'.cascade t outcome = k.cascade t outcome := by
  obtain ⟨parent, detached, children, status, hasBody, pending, result⟩ := p
  simp only at hpar hdet
  simp only [cascade, hp, hp', hpar, hdet, posture_remove]
  cases parent with
  | none => rfl
  | some v =>
    cases detached with
    | true => rfl
    | false =>
      by_cases hv : v = t
      · simp [hv]
      · simp only [hv, if_false]
        cases hq : k.posture v with
        | none => rw [hnone v hv hq]
        | some q =>
          obtain ⟨q', hq', h1, h2, h3⟩ := hsome v q hv hq
          rw [hq']
          simp only [h1, h2]
          cases hl : q.status.isTerminal with
          | true => simp
          | false => rw [h3 hl]

/-- Opening up a task does not change what its end means for its parent. -/
theorem World.Fells.cascade_eq {ms : List Event} (h : w.Fells i (· = t) ms w')
    (hms : finishedIn ms = []) (hn : w.task? i t = some n) (outcome : Outcome) :
    (w'.core i).cascade t outcome = (w.core i).cascade t outcome := by
  obtain ⟨ns, h⟩ := h.engine
  have hkept : ∀ {u m}, w.task? i u = some m → ∃ m', w'.task? i u = some m' ∧
      m.Outlasts (u = t) [] (w'.engine i).waits m' := by
    intro u m hm
    have := h.kept (t := u) hm (by rw [hms]; simp)
    rwa [hms] at this
  obtain ⟨n', hn', hout⟩ := hkept hn
  have hp : (w.core i).posture t = some n.posture := by rw [World.posture_core, hn]; rfl
  have hp' : (w'.core i).posture t = some n'.posture := by rw [World.posture_core, hn']; rfl
  refine Core.cascade_congr hp hp' hout.parent hout.detached ?_ ?_ outcome
  · intro u _ hu
    rw [World.posture_core, Option.map_eq_none_iff] at hu ⊢
    exact h.absent hu
  · intro u q hut hq
    rw [World.posture_core] at hq
    obtain ⟨m, hm, rfl⟩ := Option.map_eq_some_iff.1 hq
    obtain ⟨m', hm', hout'⟩ := hkept hm
    obtain ⟨h1, -, -, h4⟩ := hout'.alike hut
    refine ⟨m'.posture, by rw [World.posture_core, hm']; rfl, h1, h4, fun hl => ?_⟩
    have := hout'.children (by rw [h1]; exact hl)
    show m'.children = m.children
    simpa using this

/-- The parent of a task whose parent is not live has no part in its end. -/
theorem Core.cascade_eq_none {k : Core} {outcome : Outcome}
    (h : ∀ p, k.posture t = some p → ∀ q, p.parent = some q → p.detached = false → ¬ k.Live q) :
    k.cascade t outcome = none := by
  unfold cascade
  cases hp : k.posture t with
  | none => rfl
  | some p =>
    obtain ⟨parent, detached, children, status, hasBody, pending, result⟩ := p
    cases parent with
    | none => rfl
    | some v =>
      cases detached with
      | true => rfl
      | false =>
        simp only [posture_remove]
        by_cases hv : v = t
        · simp [hv]
        · simp only [hv, if_false]
          cases hq : k.posture v with
          | none => rfl
          | some q =>
            cases hl : q.status.isTerminal with
            | true => simp [hl]
            | false => exact absurd ⟨q, hq, hl⟩ (h _ hp v rfl rfl)

/-- Nothing comes to life. -/
theorem World.Fells.live {opened : TaskId → Prop} {ms : List Event} (h : w.Fells i opened ms w')
    (hl : (w'.core i).Live u) : (w.core i).Live u := by
  obtain ⟨ns, h⟩ := h.engine
  obtain ⟨p', hp', hlp⟩ := hl
  rw [World.posture_core] at hp'
  obtain ⟨m', hm', rfl⟩ := Option.map_eq_some_iff.1 hp'
  obtain ⟨m, hm, hout⟩ := h.exists_old hm'
  exact ⟨m.posture, by rw [World.posture_core]; exact congrArg (Option.map _) hm, hout.live hlp⟩

theorem mem_bodyEvents {e : Event} {body : Option Body} :
    e ∈ bodyEvents t body ↔ e = .bodyDropped t ∧ body.isSome := by
  unfold bodyEvents
  split <;> simp_all

theorem finishedIn_bodyEvents (t : TaskId) (body : Option Body) :
    finishedIn (bodyEvents t body) = [] := by
  unfold bodyEvents
  split <;> rfl

theorem World.demise_cases {e : Event} (h : e ∈ w.demise i t) :
    e = .bodyDropped t ∨ e = .taskFinished t .cancelled ∧ (w.engine i).current ≠ some t := by
  unfold demise at h
  split at h
  · cases h
  · rcases List.mem_append.1 h with h | h
    · exact .inl (mem_bodyEvents.1 h).1
    · split at h
      · cases h
      · exact .inr ⟨List.mem_singleton.1 h, ‹_›⟩

theorem World.eq_of_mem_demise (h : u ∈ finishedIn (w.demise i t)) : u = t := by
  obtain ⟨e, he, hu⟩ := List.mem_filterMap.1 h
  rcases demise_cases he with rfl | ⟨rfl, -⟩
  · cases hu
  · exact (Option.some.inj hu).symm

theorem World.eq_cancelled_of_mem_demise {o : Outcome} (h : .taskFinished u o ∈ w.demise i t) :
    o = .cancelled := by
  rcases demise_cases h with h | ⟨h, -⟩ <;> cases h
  rfl

namespace Scenario.Visits

/--
A task of a cancelled subtree is torn down. If it has a live parent, what its end means for
the parent is kept for later.
-/
theorem cancelOne_leads {order : List TaskId} {cascades : List Cascade} {cost : Nat}
    (h : s.Visits ⟨.cancelEach i (t :: order) cascades :: todo, w⟩) (hi : w.Has i)
    (hn : w.task? i t = some n) (hb : ∀ b, n.body = some b → b.HarmlessTo i cost)
    (hw : cost ≤ w.budget) :
    ∃ w' c, Config.Leads ⟨.cancelEach i (t :: order) cascades :: todo, w⟩
        ⟨.cancelEach i order (cascades ++ c.toList) :: todo, w'⟩ ∧
      w.Fells i (· = t) (w.demise i t) w' ∧ w.budget ≤ w'.budget + cost ∧
      ((w.engine i).current ≠ some t → c = (w.core i).cascade t .cancelled) ∧
      ((w.engine i).current = some t → c = none) := by
  have hg := h.grounds rfl hi
  have hstrip := hg.fells_strip hn (f := fun n => { n with pending := none, body := none })
    (fun _ => ⟨rfl, rfl, rfl, rfl, rfl⟩) fun _ hl => hl
  obtain ⟨w₂, hl₂, hf₂, hb₂⟩ := dropping_leads (w := (w.setTask i t fun n =>
    { n with pending := none, body := none }).cancelPending i n.pending) (t := t) n.body
    (.cancelOne ⟨i, t⟩ (decide ((w.engine i).current = some t)) order cascades :: todo) hb
    (by rw [World.budget_cancelPending]; exact hw)
  have hstep : Config.Leads ⟨.cancelEach i (t :: order) cascades :: todo, w⟩
      ⟨.cancelOne ⟨i, t⟩ (decide ((w.engine i).current = some t)) order cascades :: todo, w₂⟩ := by
    refine Config.Leads.trans (Config.Leads.exec (c := w.execCancelEach i (t :: order) cascades)
      rfl) ?_
    simp only [World.execCancelEach, hn, List.append_assoc, List.singleton_append]
    exact hl₂
  have hf := (hstrip.trans hf₂).mono (P := (· = t)) fun u hu => hu.elim id False.elim
  have hbud : w.budget ≤ w₂.budget + cost := by
    rw [World.budget_cancelPending] at hb₂
    exact hb₂
  by_cases hcur : (w.engine i).current = some t
  · refine ⟨w₂.setEngine i fun e => { e with halted := some .cancelled }, none, ?_, ?_, hbud,
      fun hne => absurd hcur hne, fun _ => rfl⟩
    · refine hstep.trans (Config.Leads.trans (Config.Leads.exec
        (c := w₂.execCancelOne ⟨i, t⟩ true order cascades) (by simp [hcur, Instr.exec])) ?_)
      simp only [World.execCancelOne, if_true, Option.toList_none, List.append_nil]
      exact .refl _
    · have h3 : w₂.Fells i (· = t) [] (w₂.setEngine i fun e =>
          { e with halted := some .cancelled }) :=
        .setEngine (hf.has hi) (.of_eq rfl rfl rfl rfl rfl)
      have := (hf.trans h3).mono (P := (· = t)) fun u hu => hu.elim id id
      simpa [World.demise, hn, hcur] using this
  · have hv₂ := h.leads hstep
    have hg₂ := hv₂.grounds rfl (hf.has hi)
    obtain ⟨n₂, hn₂, hout⟩ : ∃ n₂, w₂.task? i t = some n₂ ∧ n₂.parent = n.parent ∧
        n₂.detached = n.detached := by
      obtain ⟨n₂, hn₂, hout⟩ := hf.kept hn (by
        rw [List.nil_append, finishedIn_bodyEvents]
        simp)
      exact ⟨n₂, hn₂, hout.parent, hout.detached⟩
    obtain ⟨hc, -⟩ := (World.Advances.start (hf.has hi)).finalize hn₂ .cancelled
    have hfin := World.fells_finalize (P := fun _ => False) (hf.has hi) hn₂
      (hg₂.parent_of_child hn₂) .cancelled
    refine ⟨(w₂.finalize i t .cancelled).2, (w₂.finalize i t .cancelled).1, ?_, ?_, ?_, ?_,
      fun he => absurd he hcur⟩
    · refine hstep.trans (Config.Leads.trans (Config.Leads.exec
        (c := w₂.execCancelOne ⟨i, t⟩ false order cascades) (by simp [hcur, Instr.exec])) ?_)
      simp only [World.execCancelOne, Bool.false_eq_true, if_false]
      exact .refl _
    · have := (hf.trans hfin).mono (P := (· = t)) fun u hu => hu.elim id False.elim
      simpa [World.demise, hn, hcur, TaskNode.farewell] using this
    · rw [World.budget_finalize]
      exact hbud
    · intro _
      rw [hc]
      exact hf.cascade_eq (by rw [List.nil_append, finishedIn_bodyEvents]) hn .cancelled

/-- Tasks whose parents are not live any more are torn down, one after the other. -/
theorem cancelEach_leads {order post : List TaskId} {cascades : List Cascade}
    (h : s.Visits ⟨.cancelEach i (order ++ post) cascades :: todo, w⟩) (hi : w.Has i) (hnd : order.Nodup)
    (hin : ∀ u ∈ order, ∃ n, w.task? i u = some n ∧
      (∀ b, n.body = some b → b.HarmlessTo i (cost u)) ∧
      ∀ q, n.parent = some q → n.detached = false → ¬ (w.core i).Live q)
    (hw : (order.map cost).sum ≤ w.budget) :
    ∃ w', Config.Leads ⟨.cancelEach i (order ++ post) cascades :: todo, w⟩
        ⟨.cancelEach i post cascades :: todo, w'⟩ ∧
      w.Fells i (· ∈ order) (order.flatMap (w.demise i)) w' ∧
      w.budget ≤ w'.budget + (order.map cost).sum := by
  induction order generalizing w with
  | nil => exact ⟨w, .refl _, .refl i w, Nat.le_add_right _ _⟩
  | cons t order ih =>
    obtain ⟨htn, hnd⟩ := List.nodup_cons.1 hnd
    rw [List.map_cons, List.sum_cons] at hw
    obtain ⟨n, hn, hb, hpar⟩ := hin t List.mem_cons_self
    obtain ⟨w₁, c, hl₁, hf₁, hb₁, hc₁, hc₂⟩ := h.cancelOne_leads hi hn hb (by omega)
    have hcnone : c = none := by
      by_cases hcur : (w.engine i).current = some t
      · exact hc₂ hcur
      · rw [hc₁ hcur]
        refine Core.cascade_eq_none fun p hp q hq hd => ?_
        rw [World.posture_core, hn] at hp
        cases hp
        exact hpar q hq hd
    subst hcnone
    rw [Option.toList_none, List.append_nil] at hl₁
    -- the tasks that are still to come are as they were
    have hrest : ∀ u ∈ order, ∀ m, w.task? i u = some m → ∃ m', w₁.task? i u = some m' ∧
        m'.body = m.body ∧ m'.parent = m.parent ∧ m'.detached = m.detached := by
      intro u hu m hm
      have hut : u ≠ t := fun he => htn (he ▸ hu)
      obtain ⟨m', hm', hout⟩ := hf₁.kept hm fun hfin => hut (World.eq_of_mem_demise hfin)
      exact ⟨m', hm', (hout.alike hut).2.1, hout.parent, hout.detached⟩
    obtain ⟨w', hl', hf', hb'⟩ := ih (h.leads hl₁) (hf₁.has hi) hnd
      (fun u hu => by
        obtain ⟨m, hm, hbm, hparm⟩ := hin u (List.mem_cons_of_mem _ hu)
        obtain ⟨m', hm', h1, h2, h3⟩ := hrest u hu m hm
        refine ⟨m', hm', h1 ▸ hbm, fun q hq hd hlq => ?_⟩
        exact hparm q (h2 ▸ hq) (h3 ▸ hd) (hf₁.live hlq))
      (by omega)
    refine ⟨w', hl₁.trans hl', ?_, ?_⟩
    · have hd : order.flatMap (w₁.demise i) = order.flatMap (w.demise i) := by
        refine List.flatMap_congr fun u hu => ?_
        obtain ⟨m, hm, -⟩ := hin u (List.mem_cons_of_mem _ hu)
        obtain ⟨m', hm', h1, -⟩ := hrest u hu m hm
        simp only [World.demise, hm, hm', h1, hf₁.current]
      rw [List.flatMap_cons, ← hd]
      refine (hf₁.trans hf').mono ?_
      rintro u (rfl | hu)
      · exact List.mem_cons_self
      · exact List.mem_cons_of_mem _ hu
    · rw [List.map_cons, List.sum_cons]
      omega

end Scenario.Visits

end

end SagaMachine
