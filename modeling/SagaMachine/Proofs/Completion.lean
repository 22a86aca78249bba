import SagaMachine.Proofs.Sequels

/-!
# Structured completion

A task completes with the value that its body ended with, and not before every child that was
ever attached to it is recorded, as completed or as cancelled. And as soon as a live task whose body
is over has no attached child left, it completes, before any other work is gone on with, and so
do the ancestors that wait for this alone.

Main statement: `Scenario.Visits.completion`.
-/

namespace SagaMachine

section

variable {c : Config} {i : MiddlewareId} {p : TaskId}

/-! ## The end of a body -/

/-- The body of a task ends next: it has returned a value, or reached the end of its run. -/
def Config.Ends (c : Config) (i : MiddlewareId) (p : TaskId) (v : Value) : Prop :=
  ∃ b rest, c.todo = .leave ⟨i, p⟩ b (.finished (.ok v)) :: rest ∨
    v = .unit ∧ c.todo = .leave ⟨i, p⟩ b .ended :: rest

end

/-- Only a body that ended leaves the return of its task behind. -/
theorem Does.returns {i : MiddlewareId} {past es : List Event} {x : Instr} {k k' : Core}
    {G : List Instr} {D : List TaskId} {t : TaskId} {v : Value} (h : Does i past x k k' G D es)
    (hm : .returned ⟨i, t⟩ v ∈ G) : ∃ b, x = .leave ⟨i, t⟩ b (.finished (.ok v)) ∨
      v = .unit ∧ x = .leave ⟨i, t⟩ b .ended := by
  cases h with
  | @leaveFinished _ u b r =>
    cases List.mem_singleton.1 hm
    exact ⟨b, Or.inl rfl⟩
  | @leaveEnded _ u b =>
    cases List.mem_singleton.1 hm
    exact ⟨b, Or.inr ⟨rfl, rfl⟩⟩
  | start hb | resume hb | wake _ _ hb => cases hb <;> simp at hm
  | errand hG =>
    rcases hG with rfl | ⟨g, rfl, hg⟩
    · cases hm
    · cases List.mem_singleton.1 hm
      exact hg.elim
  | poll hg | advance hg =>
    cases List.mem_singleton.1 hm
    exact hg.elim
  | _ => simp at hm

section

variable {s : Scenario} {c c' : Config} {w : World} {i : MiddlewareId} {p u : TaskId} {v : Value}

/-- Whoever is on the way to hold a value has a body that ended with it, in this step. -/
theorem Scenario.Visits.returned_step (h : s.Visits c) (hi : c.world.Has i)
    (hc : c.step = some c') (hm : .returned ⟨i, p⟩ v ∈ c'.todo) :
    .returned ⟨i, p⟩ v ∈ c.todo ∨ c.Ends i p v := by
  obtain ⟨todo, w⟩ := c
  cases todo with
  | nil => cases hc
  | cons x rest =>
    have hnew : ∀ {next : Config}, c' = next.followedBy rest →
        .returned ⟨i, p⟩ v ∈ rest ∨ .returned ⟨i, p⟩ v ∈ framesOf i next.todo := by
      rintro next rfl
      rcases List.mem_append.1 hm with hm | hm
      · exact Or.inr (List.mem_filter.2 ⟨hm, by simp [Instr.owner?]⟩)
      · exact Or.inl hm
    by_cases hx : x.owner? = some i
    · obtain ⟨next, hn, rfl⟩ := Option.map_eq_some_iff.1 hc
      rcases hnew rfl with hm | hm
      · exact Or.inl (List.mem_cons_of_mem _ hm)
      · right
        have hk := h.knows
        have hxk : x.Knows w.past := by
          rcases hk.todo with ⟨o, ho⟩ | hxs
          · cases ho
            cases hx
          · exact hxs x List.mem_cons_self
        obtain ⟨k', es, -, hdoes⟩ := World.Enacts.exec hi hk.world hxk hx hn
        obtain ⟨b, rfl | ⟨rfl, rfl⟩⟩ := hdoes.returns hm
        · exact ⟨b, rest, Or.inl rfl⟩
        · exact ⟨b, rest, Or.inr ⟨rfl, rfl⟩⟩
    · obtain ⟨next, hnext, -, hreq⟩ := Config.foreign_of_step h.knows hx hc
      rcases hnew hnext with hm | hm
      · exact Or.inl (List.mem_cons_of_mem _ hm)
      · exact (hreq _ hm).elim

/-- Whoever holds a value held it before, or has just returned it. -/
theorem Scenario.Visits.result_step (h : s.Visits c) (hi : c.world.Has i) (hc : c.step = some c')
    {q : Posture} (hq : (c'.world.core i).posture p = some q) (hv : q.result = some v) :
    (∃ q₀, (c.world.core i).posture p = some q₀ ∧ q₀.result = some v) ∨
      .returned ⟨i, p⟩ v ∈ c.todo := by
  have hq : (c'.view i).core.posture p = some q := hq
  cases h.turnover hi hc with
  | @evolves es alive past silent core =>
    cases hq₀ : (c.world.core i).posture p with
    | none =>
      rw [(core.new hq₀ hq).2.1] at hv
      cases hv
    | some q₀ =>
      obtain ⟨q', hq', -, -, -, hres, -⟩ := core.kept hq₀
      have hqq : q = q' := Option.some.inj (hq.symm.trans hq')
      rcases hres v (hqq ▸ hv) with hv | ⟨F, hF⟩
      · exact Or.inl ⟨q₀, rfl, hv⟩
      · have hmem : .returned ⟨i, p⟩ v ∈ framesOf i c.todo := by
          rw [show framesOf i c.todo = _ from hF]
          exact List.mem_cons_self
        exact Or.inr (List.mem_filter.1 hmem).1
  | records alive frames frames' head here past silent posture number =>
    rw [posture] at hq
    obtain ⟨-, q₀, hq₀, -, -, -, hres⟩ := Core.of_posture_bury hq
    exact Or.inl ⟨q₀, hq₀, hres ▸ hv⟩
  | dies alive past core =>
    rw [core] at hq
    cases hq

/-- Who is recorded as completed was so before, or held the value just now. -/
theorem Scenario.Visits.finished_step (h : s.Visits c) (hi : c.world.Has i)
    (hc : c.step = some c') {l₁ l₂ : List Event}
    (hl : c'.world.past i = l₁ ++ .taskFinished p (.done v) :: l₂) :
    (∃ l, c.world.past i = l ++ .taskFinished p (.done v) :: l₂) ∨
      l₂ = c.world.past i ∧ ∃ q, (c.world.core i).posture p = some q ∧ q.result = some v := by
  cases h.turnover hi hc with
  | @evolves es alive past silent core =>
    have past : c'.world.past i = es ++ c.world.past i := past
    obtain ⟨l, -, hp⟩ := split_of_silent silent (past.symm.trans hl)
    exact Or.inl ⟨l, hp⟩
  | @records x F G t a outcome es alive frames frames' head here past silent posture number =>
    have past : c'.world.past i = es ++ .taskFinished t outcome :: c.world.past i := past
    obtain ⟨l, -, hsplit⟩ := split_of_silent silent (past.symm.trans hl)
    cases l with
    | nil =>
      obtain ⟨hevent, rfl⟩ := List.cons.inj hsplit
      cases hevent
      have hk := h.kinship hi
      rw [frames] at hk
      obtain ⟨-, q, hq, -, hv, -⟩ := head.of_done hk (h.recorded (h.alive_of_posture here)).halted
      exact Or.inr ⟨rfl, q, hq, hv⟩
    | cons e l => exact Or.inl ⟨l, (List.cons.inj hsplit).2⟩
  | dies alive past core =>
    have past : c'.world.past i = c.world.past i := past
    exact Or.inl ⟨l₁, past.symm.trans hl⟩

/-- The body of a task ended with a value, at some point before. -/
def Scenario.Ended (s : Scenario) (i : MiddlewareId) (p : TaskId) (v : Value) (past : List Event)
    (c : Config) : Prop :=
  ∃ c₀, s.Visits c₀ ∧ c₀.Precedes c ∧ c₀.Ends i p v ∧ ∃ es, past = es ++ c₀.world.past i

theorem Scenario.Ended.step {past : List Event} (h : s.Ended i p v past c) (hc : c.step = some c')
    (es : List Event) : s.Ended i p v (es ++ past) c' := by
  obtain ⟨c₀, h0, h1, h2, es', rfl⟩ := h
  exact ⟨c₀, h0, h1.step hc, h2, es ++ es', by simp⟩

theorem Scenario.Ended.call {past : List Event} (h : s.Ended i p v past ⟨[], w⟩) (o : Op)
    (budget : Nat) : s.Ended i p v past ⟨[.op .outside .empty o], { w with reply := none, budget }⟩ := by
  obtain ⟨c₀, h0, h1, h2, h3⟩ := h
  exact ⟨c₀, h0, h1.call o budget, h2, h3⟩

/-- What a task holds, or completed with, is what its body ended with before. -/
theorem Scenario.Visits.ended (h : s.Visits c) (hi : c.world.Has i) :
    (∀ {p v}, .returned ⟨i, p⟩ v ∈ c.todo → s.Ended i p v (c.world.past i) c) ∧
    (∀ {p v q}, (c.world.core i).posture p = some q → q.result = some v →
      s.Ended i p v (c.world.past i) c) ∧
    ∀ {p v l₁ l₂}, c.world.past i = l₁ ++ .taskFinished p (.done v) :: l₂ → s.Ended i p v l₂ c := by
  induction h with
  | @start w h =>
    have hview := (setUp_fresh h).view hi
    have hcore : w.core i = Engine.core {} := congrArg View.core hview
    have hpast : w.past i = [] := congrArg View.past hview
    refine ⟨(fun hm => by cases hm), fun {p v q} hq => ?_, fun {p v l₁ l₂} hl => ?_⟩
    · have hq : (w.core i).posture p = some q := hq
      rw [hcore] at hq
      cases hq
    · have hl : w.past i = _ := hl
      rw [hpast] at hl
      simp at hl
  | call h o budget ih =>
    obtain ⟨-, h2, h3⟩ := ih hi
    refine ⟨fun hm => ?_, fun hq hv => (h2 hq hv).call o budget, fun hl => (h3 hl).call o budget⟩
    cases List.mem_singleton.1 hm
  | @step c c' h hc ih =>
    have hi' := (h.knows.has_iff hc i).1 hi
    obtain ⟨h1, h2, h3⟩ := ih hi'
    obtain ⟨es, hp⟩ := (h.turnover hi' hc).past
    have hp : c'.world.past i = es ++ c.world.past i := hp
    refine ⟨fun hm => hp ▸ Ended.step ?_ hc es, fun hq hv => hp ▸ Ended.step ?_ hc es, fun hl => ?_⟩
    · rcases h.returned_step hi' hc hm with hm | he
      · exact h1 hm
      · exact ⟨c, h, .refl, he, [], rfl⟩
    · rcases h.result_step hi' hc hq hv with ⟨q₀, hq₀, hv⟩ | hm
      · exact h2 hq₀ hv
      · exact h1 hm
    · rcases h.finished_step hi' hc hl with ⟨l, hl⟩ | ⟨rfl, q, hq, hv⟩
      · simpa using (h3 hl).step hc []
      · simpa using (h2 hq hv).step hc []

/-- A task whose body ended with a value holds it, or is about to, unless it is not live. -/
def Config.Holds (c : Config) (i : MiddlewareId) (p : TaskId) (v : Value) : Prop :=
  p < (c.world.core i).nextTask ∧ (¬ (c.world.core i).Live p ∨ c.Ends i p v ∨
    .returned ⟨i, p⟩ v ∈ c.todo ∨ ∃ q, (c.world.core i).posture p = some q ∧ q.result = some v)

/-- The return of a live task makes it hold the value. -/
theorem World.result_of_returned (hi : w.Has i) :
    ¬ ((w.execReturned ⟨i, p⟩ v).world.core i).Live p ∨
      ∃ q, ((w.execReturned ⟨i, p⟩ v).world.core i).posture p = some q ∧ q.result = some v := by
  obtain ⟨k', es, hadv, hdoes⟩ := World.Enacts.returned (t := p) hi v
  rw [hadv.core]
  generalize framesOf i (w.execReturned ⟨i, p⟩ v).todo = G at hdoes
  generalize dropsOf i (w.execReturned ⟨i, p⟩ v).todo = D at hdoes
  cases hdoes with
  | returnedLate hl => exact Or.inl hl
  | returned hp | returnedHeld hp =>
    exact Or.inr ⟨_, by rw [Core.posture_alter, if_pos rfl, hp]; rfl, rfl⟩

theorem Turnover.result {v₁ v₂ : View} (h : Turnover i v₁ v₂) (ha : v₂.alive = true) {q : Posture}
    (hq : v₁.core.posture p = some q) (hv : q.result = some v) :
    ¬ v₂.core.Live p ∨ ∃ q', v₂.core.posture p = some q' ∧ q'.result = some v := by
  cases h with
  | evolves _ _ _ core =>
    obtain ⟨q', hq', -, -, -, -, hres⟩ := core.kept hq
    cases hl : q'.status.isTerminal with
    | false => exact Or.inr ⟨q', hq', hres v hv hl⟩
    | true =>
      left
      rintro ⟨q'', hq'', hl'⟩
      rw [hq'] at hq''
      cases hq''
      rw [hl] at hl'
      cases hl'
  | @records x F G t a outcome es _ _ _ _ _ _ _ posture =>
    rw [Core.Live, posture]
    by_cases hpt : p = t
    · left
      rintro ⟨q', hq', -⟩
      exact (Core.of_posture_bury hq').1 hpt
    · obtain ⟨q', hq', -, -, -, hres⟩ := Core.posture_bury_of_ne hpt hq
      exact Or.inr ⟨q', hq', hres.trans hv⟩
  | dies alive =>
    rw [alive] at ha
    cases ha

theorem Scenario.Visits.holds_step (h : s.Visits c) (hi : c.world.Has i) (hc : c.step = some c')
    (ha : c'.world.Alive i) (hh : c.Holds i p v) : c'.Holds i p v := by
  have hT := h.turnover hi hc
  obtain ⟨hp, hh⟩ := hh
  obtain ⟨hp', hlive⟩ := hT.not_live (Config.alive_iff.2 ha) hp
  refine ⟨hp', ?_⟩
  rcases hh with hl | ⟨b, rest, he | ⟨rfl, he⟩⟩ | hm | ⟨q, hq, hv⟩
  · exact Or.inl (hlive hl)
  · obtain ⟨todo, w⟩ := c
    cases he
    cases hc
    exact Or.inr (Or.inr (Or.inl (by simp [Config.followedBy, World.execLeave])))
  · obtain ⟨todo, w⟩ := c
    cases he
    cases hc
    exact Or.inr (Or.inr (Or.inl (by simp [Config.followedBy, World.execLeave])))
  · obtain ⟨todo, w⟩ := c
    cases todo with
    | nil => cases hm
    | cons x rest =>
      rcases List.mem_cons.1 hm with rfl | hm
      · cases hc
        rcases World.result_of_returned (p := p) (v := v) hi with hl | hq
        · exact Or.inl hl
        · exact Or.inr (Or.inr (Or.inr hq))
      · obtain ⟨next, -, rfl⟩ := Option.map_eq_some_iff.1 hc
        exact Or.inr (Or.inr (Or.inl (List.mem_append_right _ hm)))
  · exact (hT.result (Config.alive_iff.2 ha) hq hv).imp_right fun hq => Or.inr (Or.inr hq)

/-- From the end of its body on, a live task is about to hold the value, or holds it. -/
theorem Scenario.Visits.holds {c₀ : Config} (h : s.Visits c₀) (he : c₀.Ends i p v)
    (hc : c₀.Precedes c) : c.world.Has i ∧ (c.world.Alive i → c.Holds i p v) := by
  induction hc with
  | refl =>
    have hleave : ∃ b exit rest, c₀.todo = .leave ⟨i, p⟩ b exit :: rest := by
      obtain ⟨b, rest, he | ⟨-, he⟩⟩ := he
      · exact ⟨b, _, rest, he⟩
      · exact ⟨b, _, rest, he⟩
    obtain ⟨todo, w⟩ := c₀
    obtain ⟨b, exit, rest, rfl⟩ := hleave
    have ha : w.Alive i := h.alive_of_owner rfl
    have hg := h.grounds rfl ha.has
    have hcur := (hg.stack.of_turn (t := p) rfl).1
    exact ⟨ha.has, fun _ => ⟨(hg.orderly.driver hcur).1.1, Or.inr (Or.inl he)⟩⟩
  | call _ o budget ih =>
    obtain ⟨hi, hh⟩ := ih
    refine ⟨hi, fun ha => ?_⟩
    obtain ⟨hp, hl | ⟨b, rest, he | ⟨-, he⟩⟩ | hm | hq⟩ := hh ha
    · exact ⟨hp, Or.inl hl⟩
    · cases he
    · cases he
    · cases hm
    · exact ⟨hp, Or.inr (Or.inr (Or.inr hq))⟩
  | @step c c' hc hstep ih =>
    obtain ⟨hi, hh⟩ := ih
    have hv := h.precedes hc
    refine ⟨(hv.knows.has_iff hstep i).2 hi, fun ha => ?_⟩
    exact hv.holds_step hi hstep ha (hh (hv.alive_of_step hi hstep ha))

/-! ## The last child -/

/-- A live task holds a value, and none of its attached children is in the table. -/
structure World.Ready (w : World) (i : MiddlewareId) (p : TaskId) (v : Value) : Prop where
  holds : ∃ q, (w.core i).posture p = some q ∧ q.status.isTerminal = false ∧ q.result = some v
  childless : ∀ u, ¬ w.IsChild i u p

/-- The completion of a task is carried out next, or its failure. -/
inductive Config.Closes (c : Config) (i : MiddlewareId) (p : TaskId) : Prop
  | completes (rest : List Instr) (h : c.todo = .cascade i (.complete p) :: rest)
  | torn (rest : List Instr) (h : c.todo = .cancelEach i [] [.complete p] :: rest)
  | failed (f : Fault) (rest : List Instr) (h : c.todo = .cascade i (.abort p f) :: rest)
  | fails (f : Fault) (rest : List Instr) (h : c.todo = .abort ⟨i, p⟩ f :: rest)

/-- A task that is completed is gone. -/
theorem World.gone_of_complete (hi : w.Has i) (hw : w.Knows) {q : Posture}
    (hq : (w.core i).posture p = some q) (hl : q.status.isTerminal = false)
    (hv : q.result = some v) :
    ((w.execCascade i (.complete p)).world.core i).posture p = none := by
  obtain ⟨k', es, hadv, hdoes⟩ := World.Enacts.cascade hi hw (.complete p)
  rw [hadv.core]
  generalize framesOf i (w.execCascade i (.complete p)).todo = G at hdoes
  generalize dropsOf i (w.execCascade i (.complete p)).todo = D at hdoes
  cases hdoes with
  | cascadeLate h =>
    rcases h q hq with h | h
    · rw [hl] at h
      cases h
    · rw [hv] at h
      cases h
  | cascadeComplete _ _ _ hb =>
    cases hb with
    | absent h => exact h
    | gone => exact (Core.posture_bury _ p p).trans (if_pos rfl)

/-- What the end of the last child of a task that holds its value comes to. -/
theorem Scenario.Visits.last_child {x : Instr} {rest G : List Instr} {o : Outcome}
    (h : s.Visits ⟨x :: rest, w⟩) (hi : w.Alive i) (hr : Records i (w.core i) u x o G) {a q : Posture}
    (ha : (w.core i).posture u = some a) (hap : a.parent = some p) (had : a.detached = false)
    (hq : (w.core i).posture p = some q) (hl : q.status.isTerminal = false)
    (hv : q.result = some v) (hc : ∀ y ∈ q.children, y = u) :
    G = [.cascade i (.complete p)] ∨ G = [.cancelEach i [] [.complete p]] ∨
      ∃ f, o = .aborted f ∧ G = [.cascade i (.abort p f)] := by
  have hx : x.owner? = some i := by cases hr <;> rfl
  have hk := (h.grounds hx hi.has).kinship
  have hpu : p ≠ u := Nat.ne_of_lt (hk.below ha hap)
  have hnil : q.children.filter (· ≠ u) = [] := by
    refine List.filter_eq_nil_iff.2 fun y hy => ?_
    simpa using hc y hy
  have hcas : (∃ f, o = .aborted f ∧ (w.core i).cascade u o = some (.abort p f)) ∨
      (w.core i).cascade u o = some (.complete p) := by
    by_cases ho : ∃ f, o = .aborted f
    · obtain ⟨f, rfl⟩ := ho
      exact Or.inl ⟨f, rfl, Core.cascade_aborted ha hap had hpu ⟨q, hq, hl⟩⟩
    · rcases Core.cascade_of_parent hpu ha hap had hq hl o with ⟨f, hf⟩ | hf
      · exact (Core.isComplete_cascade hf fun f he => ho ⟨f, he⟩).elim
      · exact Or.inr (hf (by rw [hv]; rfl) hnil)
  generalize hk' : w.core i = k at hr
  cases hr with
  | abort | conclude | complete =>
    subst hk'
    rcases hcas with ⟨f, he, hf⟩ | hf
    · exact Or.inr (Or.inr ⟨f, he, by rw [hf]; rfl⟩)
    · exact Or.inl (by rw [hf]; rfl)
  | cancel order cascades =>
    subst hk'
    have hfate := h.sequels hi (.cancelOne ⟨i, u⟩ false order cascades)
      (List.mem_filter.2 ⟨List.mem_cons_self, by simp [Instr.owner?]⟩)
    obtain ⟨hnone, hothers⟩ := hfate
    rcases hcas with ⟨f, he, -⟩ | hf
    · cases he
    · -- its parent is live, so it is the last one to be torn down
      cases order with
      | nil =>
        rw [hnone, hf]
        exact Or.inr (Or.inl rfl)
      | cons t order =>
        have := (hothers u (by simp)).cascade .cancelled
        rw [hf] at this
        cases this

/-- The attached children of a live task are in the table. -/
theorem Scenario.Visits.isChild_of_mem (h : s.Visits c) (hi : c.world.Has i) {q : Posture}
    (hq : (c.world.core i).posture p = some q) (hl : q.status.isTerminal = false)
    (hu : u ∈ q.children) : c.world.IsChild i u p := by
  obtain ⟨a, ha, hap, had⟩ := ((h.sound hi).orderly.tasks hq).children hl u hu
  exact World.isChild_iff.2 ⟨a, ha, hap, had⟩

/-- If an outcome is recorded and a task is left without children, this task is dealt with next. -/
theorem Scenario.Visits.ready_of_record {x : Instr} {rest G : List Instr} {o : Outcome}
    (h : s.Visits ⟨x :: rest, w⟩) (hi : w.Alive i) (hr : Records i (w.core i) u x o G)
    {w' : World} (hb : (w'.core i).posture = ((w.core i).bury u).posture) (hready : w'.Ready i p v)
    (hu : w.IsChild i u p) :
    G = [.cascade i (.complete p)] ∨ G = [.cancelEach i [] [.complete p]] ∨
      ∃ f, o = .aborted f ∧ G = [.cascade i (.abort p f)] := by
  obtain ⟨a, ha, hap, had⟩ := World.isChild_iff.1 hu
  obtain ⟨q', hq', hl', hv'⟩ := hready.holds
  rw [hb] at hq'
  obtain ⟨-, q, hq, -, -, hst, hres⟩ := Core.of_posture_bury hq'
  refine h.last_child hi hr ha hap had hq (hst ▸ hl') (hres ▸ hv') fun y hy => ?_
  by_contra hyu
  obtain ⟨b, hb', hbp, hbd⟩ := World.isChild_iff.1 (h.isChild_of_mem hi.has hq (hst ▸ hl') hy)
  obtain ⟨b', hb'', h1, h2, -⟩ := Core.posture_bury_of_ne hyu hb'
  refine hready.childless y (World.isChild_iff.2 ⟨b', ?_, h1.trans hbp, h2.trans hbd⟩)
  rw [hb]
  exact hb''

/-- A task that has just got its value to hold, and has no children, completes next. -/
theorem Scenario.Visits.closes_of_returned (h : s.Visits c) (hi : c.world.Has i)
    (hc : c.step = some c') {F : List Instr} (hF : framesOf i c.todo = .returned ⟨i, p⟩ v :: F)
    {q q' : Posture} (hq' : (c'.world.core i).posture p = some q') (hv' : q'.result = some v)
    (hq : (c.world.core i).posture p = some q) (hl : q.status.isTerminal = false)
    (hchildless : ∀ u, ¬ c.world.IsChild i u p) : c'.Closes i p := by
  have hi' := (h.knows.has_iff hc i).2 hi
  have hchildren : q.children = [] := List.eq_nil_iff_forall_not_mem.2 fun u hu =>
    hchildless u (h.isChild_of_mem hi hq hl hu)
  obtain ⟨todo, w⟩ := c
  cases todo with
  | nil => cases hF
  | cons x rest =>
    by_cases hx : x = .returned ⟨i, p⟩ v
    · subst hx
      cases hc
      rw [World.posture_core] at hq
      obtain ⟨n, hn, rfl⟩ := Option.map_eq_some_iff.1 hq
      refine .completes rest ?_
      have hkids : n.children = [] := hchildren
      have hlive : n.status.isTerminal = false := hl
      simp [Config.followedBy, World.execReturned, hn, hlive, hkids]
    · -- somebody else is at work, and the value is not held yet
      have hmem : .returned ⟨i, p⟩ v ∈ rest := by
        have hm : .returned ⟨i, p⟩ v ∈ framesOf i (x :: rest) := hF ▸ List.mem_cons_self
        exact (List.mem_cons.1 (List.mem_filter.1 hm).1).resolve_left fun he => hx he.symm
      obtain ⟨next, -, rfl⟩ := Option.map_eq_some_iff.1 hc
      have hrel := ((h.step hc).sound hi').orderly.frames (.returned ⟨i, p⟩ v)
        (List.mem_filter.2 ⟨List.mem_append_right _ hmem, by simp [Instr.owner?]⟩)
      have hnone := ((hrel : Core.Afoot _ p).2 q' hq').2.1
      rw [hv'] at hnone
      cases hnone

/-- A task that holds its value and has no attached child left is dealt with next. -/
theorem Scenario.Visits.closes_of_ready (h : s.Visits c) (hr : c.world.Ready i p v) :
    c.Closes i p := by
  induction h generalizing p v with
  | @start w h =>
    obtain ⟨q, hq, -⟩ := hr.holds
    have hi : w.Has i := ((Visits.start h).alive_of_posture hq).has
    rw [show w.core i = Engine.core {} from congrArg View.core ((setUp_fresh h).view hi)] at hq
    cases hq
  | call h o budget ih =>
    cases ih (p := p) (v := v) ⟨hr.holds, hr.childless⟩ with
    | completes _ h | torn _ h | failed _ _ h | fails _ _ h => cases h
  | @step c c' h hc ih =>
    obtain ⟨q', hq', hl', hv'⟩ := hr.holds
    have hi' : c'.world.Alive i := (h.step hc).alive_of_posture hq'
    have hi := (h.knows.has_iff hc i).1 hi'.has
    have ha := h.alive_of_step hi hc hi'
    have hT := h.turnover hi hc
    -- a task that was ready before was dealt with in this step
    have hstill : c.world.Ready i p v → c'.Closes i p := fun hr₀ => by
      have hclose := ih hr₀
      obtain ⟨q, hq, hl, hv⟩ := hr₀.holds
      obtain ⟨todo, w⟩ := c
      cases hclose with
      | completes rest h₀ =>
        cases h₀
        cases hc
        rw [show ((Config.followedBy _ rest).world.core i).posture p = none from
          World.gone_of_complete hi h.knows.world hq hl hv] at hq'
        cases hq'
      | torn rest h₀ =>
        cases h₀
        cases hc
        exact .completes rest rfl
      | failed f rest h₀ =>
        cases h₀
        cases hc
        exact .fails f rest rfl
      | fails f rest h₀ =>
        cases h₀
        cases hc
        exact absurd ⟨q', hq', hl'⟩ (World.not_live_of_abort hi)
    cases hT with
    | evolves _ _ _ core =>
      cases hq : (c.world.core i).posture p with
      | none =>
        rw [(core.new hq hq').2.1] at hv'
        cases hv'
      | some q =>
        obtain ⟨q'', hq'', -, -, hlive, hres, -⟩ := core.kept hq
        obtain rfl : q'' = q' := Option.some.inj (hq''.symm.trans hq')
        have hchildless : ∀ u, ¬ c.world.IsChild i u p := fun u hu => by
          obtain ⟨a, ha, hap, had⟩ := World.isChild_iff.1 hu
          obtain ⟨a', ha', h1, h2, -⟩ := core.kept ha
          exact hr.childless u (World.isChild_iff.2 ⟨a', ha', h1.trans hap, h2.trans had⟩)
        rcases hres v hv' with hv | ⟨F, hF⟩
        · exact hstill ⟨⟨q, hq, hlive hl', hv⟩, hchildless⟩
        · exact h.closes_of_returned hi hc hF hq' hv' hq (hlive hl') hchildless
    | @records x F G u a o es _ frames frames' head here past silent posture =>
      have past : c'.world.past i = es ++ .taskFinished u o :: c.world.past i := past
      have hes : c'.world.past i = es ++ [.taskFinished u o] ++ c.world.past i := by
        rw [past, List.append_assoc]
        rfl
      have ho : .taskFinished u o ∈ es ++ [.taskFinished u o] := by simp
      obtain ⟨y, rest, G', a', htodo, hrec, htodo', -, hbury⟩ := h.recorder hi hc hes ho
      obtain ⟨todo, w⟩ := c
      obtain rfl : todo = y :: rest := htodo
      by_cases hu : ∃ u, w.IsChild i u p
      · obtain ⟨u', hu'⟩ := hu
        have huu : u' = u := by
          by_contra hne
          obtain ⟨b, hb, hbp, hbd⟩ := World.isChild_iff.1 hu'
          obtain ⟨b', hb', h1, h2, -⟩ := Core.posture_bury_of_ne (t := u) hne hb
          refine hr.childless u' (World.isChild_iff.2 ⟨b', ?_, h1.trans hbp, h2.trans hbd⟩)
          rw [hbury]
          exact hb'
        subst huu
        rcases h.ready_of_record ha hrec hbury hr hu' with rfl | rfl | ⟨f, -, rfl⟩
        · exact .completes rest htodo'
        · exact .torn rest htodo'
        · exact .failed f rest htodo'
      · rw [hbury] at hq'
        obtain ⟨-, q, hq, -, -, hst, hres⟩ := Core.of_posture_bury hq'
        exact hstill ⟨⟨q, hq, hst ▸ hl', hres ▸ hv'⟩, fun u hu' => hu ⟨u, hu'⟩⟩
    | dies alive =>
      rw [Config.alive_iff.2 hi'] at alive
      cases alive

/-! ## Completions -/

/-- A task that is ready completes, and so do the ancestors that wait for nobody else. -/
theorem Scenario.Visits.leads_of_ready (h : s.Visits c) (hi : c.world.Has i)
    (hr : c.world.Ready i p v) {rest : List Instr}
    (hc : c.todo = .cascade i (.complete p) :: rest ∨
      c.todo = .cancelEach i [] [.complete p] :: rest) :
    ∃ w' chain, c.Leads ⟨rest, w'⟩ ∧ c.world.Completes w' i ((p, v) :: chain) ∧
      (c.world.engine i).tasks.Completing p chain := by
  obtain ⟨q, hq, hl, hv⟩ := hr.holds
  rw [World.posture_core] at hq
  obtain ⟨n, hn, rfl⟩ := Option.map_eq_some_iff.1 hq
  obtain ⟨todo, w⟩ := c
  rcases hc with rfl | rfl
  · exact h.complete_leads hi hn hl hv
  · have hstep : Config.Leads ⟨.cancelEach i [] [.complete p] :: rest, w⟩
        ⟨.cascade i (.complete p) :: rest, w⟩ :=
      .exec (c := ⟨[.cascade i (.complete p)], w⟩) rfl
    obtain ⟨w', chain, hlead, hdone⟩ := (h.leads hstep).complete_leads hi hn hl hv
    exact ⟨w', chain, hstep.trans hlead, hdone⟩

/-- Who holds a value while the loop is next, or nothing at all, has an attached child. -/
theorem Scenario.Visits.child_of_loop {c₀ : Config} (h₀ : s.Visits c₀) (he : c₀.Ends i p v)
    (hp : c₀.Precedes c) (hl : (c.world.core i).Live p)
    (hc : c.todo = [] ∨ ∃ rest, c.todo = .drain i :: rest) : ∃ u, c.world.IsChild i u p := by
  have h := h₀.precedes hp
  obtain ⟨q, hq, hlq⟩ := hl
  have ha := h.alive_of_posture hq
  by_contra hnone
  push Not at hnone
  rcases ((h₀.holds he hp).2 ha).2 with hn | ⟨b, rest, hn | ⟨-, hn⟩⟩ | hm | ⟨q', hq', hv⟩
  · exact hn ⟨q, hq, hlq⟩
  · rcases hc with hc | ⟨rest, hc⟩ <;> simp [hc] at hn
  · rcases hc with hc | ⟨rest, hc⟩ <;> simp [hc] at hn
  · obtain ⟨todo, w⟩ := c
    rcases hc with rfl | ⟨rest, rfl⟩
    · cases hm
    · have hstack := (h.grounds rfl ha.has).stack
      have hrest : .returned ⟨i, p⟩ v ∈ framesOf i rest :=
        List.mem_filter.2 ⟨(List.mem_cons.1 hm).resolve_left (by simp), by simp [Instr.owner?]⟩
      rw [hstack.of_drain.2] at hrest
      cases hrest
  · obtain rfl : q' = q := Option.some.inj (hq'.symm.trans hq)
    have hclose := h.closes_of_ready ⟨⟨q', hq, hlq, hv⟩, hnone⟩
    rcases hc with hc | ⟨rest, hc⟩ <;> rcases hclose with ⟨_, hd⟩ | ⟨_, hd⟩ | ⟨_, _, hd⟩ | ⟨_, _, hd⟩ <;>
      simp [hc] at hd

/--
When the last attached child of a live task is recorded, as completed or as cancelled, and the
body of the task is over, the task completes at once, unless its body is still being dropped.
-/
theorem Scenario.Visits.completes_at_once {c₀ : Config} {o : Outcome} {es : List Event}
    (h : s.Visits c) (h₀ : s.Visits c₀) (he : c₀.Ends i p v) (hp : c₀.Precedes c')
    (hc : c.step = some c') (hes : c'.world.past i = es ++ c.world.past i)
    (ho : .taskFinished u o ∈ es) (hna : ∀ f, o ≠ .aborted f) (hu : c.world.IsChild i u p)
    (hl : (c'.world.core i).Live p) (hlast : ∀ y, ¬ c'.world.IsChild i y p) :
    .returned ⟨i, p⟩ v ∈ c'.todo ∨ ∃ rest w' chain, c'.Leads ⟨rest, w'⟩ ∧
      c'.world.Completes w' i ((p, v) :: chain) ∧ (c'.world.engine i).tasks.Completing p chain := by
  obtain ⟨a, ha, -⟩ := World.isChild_iff.1 hu
  have hi := (h.alive_of_posture ha).has
  obtain ⟨q, hq, hlq⟩ := hl
  have h' := h.step hc
  have ha' := h'.alive_of_posture hq
  obtain ⟨x, rest, G, -, htodo, hrec, htodo', -, hbury⟩ := h.recorder hi hc hes ho
  obtain ⟨todo, w⟩ := c
  obtain rfl : todo = x :: rest := htodo
  have hleave : ¬ c'.Ends i p v := by
    -- a body is left at the top, and what records an outcome puts nothing like that there
    rintro ⟨b, rest', hend⟩
    have hmem : ∃ exit, .leave ⟨i, p⟩ b exit ∈ G ++ rest := by
      rw [← htodo']
      rcases hend with hend | ⟨-, hend⟩ <;> exact ⟨_, hend ▸ List.mem_cons_self⟩
    obtain ⟨exit, hmem⟩ := hmem
    rcases List.mem_append.1 hmem with hm | hm
    · cases hrec with
      | abort | conclude | complete =>
        obtain ⟨d, -, hd⟩ := List.mem_map.1 hm
        cases hd
      | cancel => cases List.mem_singleton.1 hm
    · exact (h.knows.later _ hm).not_urgent trivial
  rcases ((h₀.holds he hp).2 ha').2 with hn | hend | hm | ⟨q', hq', hv⟩
  · exact absurd ⟨q, hq, hlq⟩ hn
  · exact absurd hend hleave
  · exact Or.inl hm
  · obtain rfl : q' = q := Option.some.inj (hq'.symm.trans hq)
    have hready : c'.world.Ready i p v := ⟨⟨q', hq, hlq, hv⟩, hlast⟩
    have hcases : c'.todo = .cascade i (.complete p) :: rest ∨
        c'.todo = .cancelEach i [] [.complete p] :: rest := by
      rcases h.ready_of_record (h.alive_of_posture ha) hrec hbury hready hu with
        rfl | rfl | ⟨f, hf, -⟩
      · exact Or.inl htodo'
      · exact Or.inr htodo'
      · exact absurd hf (hna f)
    obtain ⟨w', chain, hdone⟩ := h'.leads_of_ready ha'.has hready hcases
    exact Or.inr ⟨rest, w', chain, hdone⟩

/-- A task whose body was dropped, and who has no attached child, completes at once. -/
theorem Scenario.Visits.completes_after_body {rest : List Instr}
    (h : s.Visits ⟨.returned ⟨i, p⟩ v :: rest, w⟩) (hl : (w.core i).Live p)
    (hlast : ∀ u, ¬ w.IsChild i u p) : ∃ w₁ w' chain,
      Config.step ⟨.returned ⟨i, p⟩ v :: rest, w⟩ = some ⟨.cascade i (.complete p) :: rest, w₁⟩ ∧
      Config.Leads ⟨.cascade i (.complete p) :: rest, w₁⟩ ⟨rest, w'⟩ ∧
      w₁.Completes w' i ((p, v) :: chain) ∧ (w₁.engine i).tasks.Completing p chain := by
  have hi := World.has_of_live hl
  obtain ⟨q, hq, hlq⟩ := hl
  have hchildren : q.children = [] := List.eq_nil_iff_forall_not_mem.2 fun u hu =>
    hlast u (h.isChild_of_mem hi hq hlq hu)
  rw [World.posture_core] at hq
  obtain ⟨n, hn, rfl⟩ := Option.map_eq_some_iff.1 hq
  have hkids : n.children = [] := hchildren
  have hlive : n.status.isTerminal = false := hlq
  have hstep : Config.step ⟨.returned ⟨i, p⟩ v :: rest, w⟩ =
      some ⟨.cascade i (.complete p) :: rest,
        w.setTask i p fun n => { n with result := some v }⟩ := by
    show some (Config.followedBy (w.execReturned ⟨i, p⟩ v) rest) = _
    simp [Config.followedBy, World.execReturned, hn, hlive, hkids]
  have hn' : (w.setTask i p fun n => { n with result := some v }).task? i p =
      some { n with result := some v } := by
    rw [World.task?, World.setTask, World.engine_setEngine hi]
    have : (w.engine i).tasks.get? p = some n := hn
    simp [this]
  have h' := h.step hstep
  obtain ⟨w', chain, hdone⟩ := h'.complete_leads ((h.knows.has_iff hstep i).2 hi) hn' hlive rfl
  exact ⟨_, w', chain, hstep, hdone⟩

/--
A task that is recorded as completed had its body ended with the value recorded, and every child
that was ever attached to it was recorded before, none of them as failed. And when the body of a
live task is over and its last attached child is recorded, as completed or as cancelled, the
task completes with the value it held, before anything else is done, and so do in turn the
ancestors that wait for it alone; no driver takes its next job before.
-/
theorem Scenario.Visits.completion (h : s.Visits c) (hi : c.world.Has i) :
    (∀ {p v l₁ l₂}, c.world.past i = l₁ ++ .taskFinished p (.done v) :: l₂ →
      s.Ended i p v l₂ c ∧ ∀ {c₀ u}, s.Visits c₀ → c₀.Precedes c → c₀.world.IsChild i u p →
        (∃ o, .taskFinished u o ∈ l₂) ∧ ∀ f, .taskFinished u (.aborted f) ∉ c.world.past i) ∧
    (∀ {c₀ p v}, s.Visits c₀ → c₀.Ends i p v → c₀.Precedes c → (c.world.core i).Live p →
      (c.todo = [] ∨ ∃ rest, c.todo = .drain i :: rest) → ∃ u, c.world.IsChild i u p) ∧
    (∀ {c₀ c' p v u o es}, s.Visits c₀ → c₀.Ends i p v → c₀.Precedes c' → c.step = some c' →
      c'.world.past i = es ++ c.world.past i → .taskFinished u o ∈ es → (∀ f, o ≠ .aborted f) →
      c.world.IsChild i u p → (c'.world.core i).Live p → (∀ y, ¬ c'.world.IsChild i y p) →
      .returned ⟨i, p⟩ v ∈ c'.todo ∨ ∃ rest w' chain, c'.Leads ⟨rest, w'⟩ ∧
        c'.world.Completes w' i ((p, v) :: chain) ∧
        (c'.world.engine i).tasks.Completing p chain) ∧
    ∀ {p v rest}, c.todo = .returned ⟨i, p⟩ v :: rest → (c.world.core i).Live p →
      (∀ u, ¬ c.world.IsChild i u p) → ∃ w₁ w' chain,
        c.step = some ⟨.cascade i (.complete p) :: rest, w₁⟩ ∧
        Config.Leads ⟨.cascade i (.complete p) :: rest, w₁⟩ ⟨rest, w'⟩ ∧
        w₁.Completes w' i ((p, v) :: chain) ∧ (w₁.engine i).tasks.Completing p chain := by
  refine ⟨fun hl => ⟨(h.ended hi).2.2 hl, fun h₀ hp hu => h₀.awaited hu hp _ _ _ hl⟩,
    fun h₀ he hp hl hc => h₀.child_of_loop he hp hl hc,
    fun h₀ he hp hc hes ho hna hu hl hlast => h.completes_at_once h₀ he hp hc hes ho hna hu hl hlast,
    fun htodo hl hlast => ?_⟩
  obtain ⟨todo, w⟩ := c
  cases htodo
  exact h.completes_after_body hl hlast

/-- A task waits for its child, which takes from a channel that is closed later. -/
def Scenario.waitsForTaker : Scenario where
  middlewares := [{}]
  channels := [("line", .buffered .unbounded)]
  scripts := [
    ("parent", [.perform (.fork { source := .named "child" }) none none, .return .unit]),
    ("child", [.perform (.take (some "line") .any) none none])]
  steps := [.run 0 { source := .named "parent" } none]

/-- The outcome of a task is in a record, and nobody is recorded as failed. -/
def completedIn (t : TaskId) (past : List Event) : Bool :=
  decide (t ∈ finishedIn past) && past.all fun
    | .taskFinished _ (.aborted _) => false
    | _ => true

/-- The parent completes when the end of the channel has ended its child. -/
theorem Scenario.completion_waitsForTaker : ∃ c c' v rest w' chain,
    waitsForTaker.Visits c ∧ c.step = some c' ∧ finishedIn (c.world.past 0) = [] ∧
      2 ∈ finishedIn (c'.world.past 0) ∧ c'.Leads ⟨rest, w'⟩ ∧
      c'.world.Completes w' 0 ((1, v) :: chain) := by
  have h : ((waitsForTaker.during? (.close "line") 8).any fun c =>
      (c.world.alive? 0).isSome && decide (finishedIn (c.world.past 0) = []) &&
        (((c.world.engine 0).tasks.get? 2).any fun n => n.parent = some 1 && !n.detached) &&
        (((c.world.engine 0).tasks.get? 1).any fun n => n.result.isSome) &&
        c.step.any fun c' => completedIn 2 (c'.world.past 0) &&
          decide ((c'.world.engine 0).nextTask = 3) && (c'.world.engine 0).tasks.isLive 1 &&
          (!c'.todo.any fun | .returned .. => true | _ => false) &&
          (List.range 3).all fun u =>
            ((c'.world.engine 0).tasks.get? u).all fun n => n.parent ≠ some 1) = true := by
    decide +kernel
  obtain ⟨c, hc, h⟩ := (Option.any_eq_true ..).1 h
  simp only [Bool.and_eq_true, decide_eq_true_eq] at h
  obtain ⟨⟨⟨⟨hi, hnone⟩, hchild⟩, hheld⟩, h⟩ := h
  obtain ⟨c', hc', h⟩ := (Option.any_eq_true ..).1 h
  simp only [completedIn, Bool.and_eq_true, decide_eq_true_eq, List.all_eq_true, List.mem_range] at h
  obtain ⟨⟨⟨⟨⟨hfin, hdone⟩, hnext⟩, hlive⟩, hret⟩, hkids⟩ := h
  have hi : c.world.Has 0 := World.has_iff.2 hi
  have hv : waitsForTaker.Visits c := Visits.of_during? hc
  have hl : (c'.world.core 0).Live 1 := World.live_iff.1 hlive
  obtain ⟨n, hn, hchild⟩ := (Option.any_eq_true ..).1 hchild
  simp only [Bool.and_eq_true, decide_eq_true_eq, Bool.not_eq_true'] at hchild
  obtain ⟨m, hm, hheld⟩ := (Option.any_eq_true ..).1 hheld
  obtain ⟨v, hheld⟩ := Option.isSome_iff_exists.1 hheld
  have hpost : (c.world.core 0).posture 1 = some m.posture := by
    rw [World.posture_core, World.task?, hm]
    rfl
  obtain ⟨c₀, h₀, hp, he, -⟩ := (hv.ended hi).2.1 hpost hheld
  obtain ⟨es, hes⟩ := (hv.turnover hi hc').past
  have hes : c'.world.past 0 = es ++ c.world.past 0 := hes
  obtain ⟨o, ho⟩ := mem_finishedIn.1 hfin
  have hmem : .taskFinished 2 o ∈ es := by
    rw [hes] at ho
    refine (List.mem_append.1 ho).resolve_right fun ho => ?_
    have := mem_finishedIn.2 ⟨o, ho⟩
    rw [hnone] at this
    cases this
  have hna : ∀ f, o ≠ .aborted f := by
    rintro f rfl
    exact absurd (hdone _ ho) (by simp)
  have hlast : ∀ y, ¬ c'.world.IsChild 0 y 1 := by
    rintro y ⟨n, hn, hpar, -⟩
    have hpost : (c'.world.core 0).posture y = some n.posture := by
      rw [World.posture_core, hn]
      rfl
    have hy := (((hv.step hc').sound ((hv.knows.has_iff hc' 0).2 hi)).orderly.tasks hpost).number
    have hy : y < (c'.world.engine 0).nextTask := hy
    have hn : (c'.world.engine 0).tasks.get? y = some n := hn
    have := hkids y (hnext ▸ hy)
    rw [hn] at this
    simp [hpar] at this
  obtain ⟨-, -, honce, -⟩ := hv.completion hi
  rcases honce h₀ he (hp.step hc') hc' hes hmem hna ⟨n, hn, hchild⟩ hl hlast with hm | h
  · simp only [Bool.not_eq_true', List.any_eq_false] at hret
    exact absurd rfl (hret _ hm)
  · obtain ⟨rest, w', chain, hleads, hcompletes, -⟩ := h
    exact ⟨c, c', v, rest, w', chain, hv, hc', hnone, hfin, hleads, hcompletes⟩

end

end SagaMachine
