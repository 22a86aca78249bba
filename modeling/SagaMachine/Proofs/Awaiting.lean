import SagaMachine.Proofs.Aftermath
import SagaMachine.Proofs.Failures
import SagaMachine.Proofs.Turnover

/-!
# Children are awaited

Whoever is recorded has left the table for good. A task completes only when it has no attached
child left, and the failure of a child is handed on to its parent at once, so every child that was
ever attached to a task that completes is recorded before, and not as failed.

Main statement: `Scenario.Visits.awaited`.
-/

namespace SagaMachine

/-! ## What is recorded is over -/

theorem mem_of_silent {es past : List Event} {u : TaskId} {o : Outcome} (hes : finishedIn es = [])
    (h : .taskFinished u o ∈ es ++ past) : .taskFinished u o ∈ past := by
  rcases List.mem_append.1 h with h | h
  · have hu := mem_finishedIn.2 ⟨o, h⟩
    rw [hes] at hu
    cases hu
  · exact h

/-- A split of some events at a recorded outcome is one of the events before silent ones. -/
theorem split_of_silent {es past l₁ l₂ : List Event} {u : TaskId} {o : Outcome}
    (hes : finishedIn es = []) (h : es ++ past = l₁ ++ .taskFinished u o :: l₂) :
    ∃ l, l₁ = es ++ l ∧ past = l ++ .taskFinished u o :: l₂ := by
  rcases List.append_eq_append_iff.1 h with ⟨l, rfl, hp⟩ | ⟨l, rfl, hl⟩
  · exact ⟨l, rfl, hp⟩
  · cases l with
    | nil => exact ⟨[], by simp, by simpa using hl.symm⟩
    | cons e l =>
      cases hl
      have hu : u ∈ finishedIn (l₁ ++ .taskFinished u o :: l) := mem_finishedIn.2 ⟨o, by simp⟩
      rw [hes] at hu
      cases hu

/-- Recorded tasks have left the table, and those that completed have left no child behind. -/
structure Recorded (v : View) : Prop where
  gone : ∀ {u o}, .taskFinished u o ∈ v.past → v.core.posture u = none ∧ u < v.core.nextTask
  childless : ∀ {p r u q}, .taskFinished p (.done r) ∈ v.past → v.core.posture u = some q →
    q.parent = some p → q.detached = true
  halted : ∀ r, v.core.halted ≠ some (.done r)

section

variable {i : MiddlewareId} {k k' : Core} {u p : TaskId} {q : Posture} {x : Instr} {G : List Instr}
  {r : Value}

/-- Whoever is recorded as completed is live, holds its value, and has no children left. -/
theorem Records.of_done {F : List Instr} (h : Records i k p x (.done r) G)
    (hk : Kinship i k (x :: F)) (hh : ∀ r, k.halted ≠ some (.done r)) :
    x = .cascade i (.complete p) ∧ ∃ a, k.posture p = some a ∧ a.status.isTerminal = false ∧
      a.result = some r ∧ a.children = [] := by
  generalize ho : Outcome.done r = o at h
  cases h with
  | abort | cancel => cases ho
  | conclude =>
    cases hhalt : k.halted with
    | none =>
      rw [hhalt] at ho
      cases ho
    | some o =>
      rw [hhalt] at ho
      exact absurd (hhalt.trans (congrArg some ho.symm)) (hh r)
  | complete hp hl hv =>
    cases ho
    exact ⟨rfl, _, hp, hl, hv, hk.ready _ List.mem_cons_self rfl hp hl⟩

/-- A live task without children left has nobody attached to it. -/
theorem Kinship.detached_of_childless {F : List Instr} {a : Posture} (h : Kinship i k F)
    (hp : k.posture p = some a) (hl : a.status.isTerminal = false) (hc : a.children = [])
    (hu : k.posture u = some q) (hq : q.parent = some p) : q.detached = true := by
  cases hd : q.detached with
  | true => rfl
  | false =>
    have hm := h.listed hu hq hd hp hl
    rw [hc] at hm
    cases hm

theorem Core.of_posture_bury {t : TaskId} {q' : Posture} (h : (k.bury t).posture u = some q') :
    u ≠ t ∧ ∃ q, k.posture u = some q ∧ q'.parent = q.parent ∧ q'.detached = q.detached ∧
      q'.status = q.status ∧ q'.result = q.result := by
  rw [posture_bury] at h
  split at h
  · cases h
  · rename_i hut
    obtain ⟨q, hq, rfl⟩ := Option.map_eq_some_iff.1 h
    exact ⟨hut, q, hq, by rw [k.shed_eq], by rw [k.shed_eq], by rw [k.shed_eq], by rw [k.shed_eq]⟩

theorem Core.posture_bury_of_ne {t : TaskId} (hu : u ≠ t) (h : k.posture u = some q) :
    ∃ q', (k.bury t).posture u = some q' ∧ q'.parent = q.parent ∧ q'.detached = q.detached ∧
      q'.status = q.status ∧ q'.result = q.result := by
  refine ⟨k.shed t u q, by rw [posture_bury, if_neg hu, h]; rfl, ?_⟩
  exact ⟨by rw [k.shed_eq], by rw [k.shed_eq], by rw [k.shed_eq], by rw [k.shed_eq]⟩

theorem Recorded.move {v v' : View} (h : v.alive = true → Recorded v) (hv : Sound i v)
    (hk : Kinship i v.core v.frames) (hm : Turnover i v v') (ha : v'.alive = true) :
    Recorded v' := by
  cases hm with
  | evolves alive past silent core =>
    have h := h (alive ▸ ha)
    refine ⟨fun {u o} hu => ?_, fun {p r u q} hp hu hq => ?_, fun r hr => h.halted r (core.halted r hr)⟩
    · obtain ⟨hn, hlt⟩ := h.gone (mem_of_silent silent (past ▸ hu))
      refine ⟨?_, Nat.lt_of_lt_of_le hlt core.number⟩
      cases hp : v'.core.posture u with
      | none => rfl
      | some p' => exact absurd hlt (Nat.not_lt_of_le (core.new hn hp).1)
    · have hp := mem_of_silent silent (past ▸ hp)
      cases hu₀ : v.core.posture u with
      | none =>
        obtain ⟨a, hpa, -⟩ := (core.new hu₀ hu).2.2 p hq
        rw [(h.gone hp).1] at hpa
        cases hpa
      | some q₀ =>
        obtain ⟨q', hq', h1, h2, -⟩ := core.kept hu₀
        rw [hu] at hq'
        cases hq'
        rw [h2]
        exact h.childless hp hu₀ (h1 ▸ hq)
  | @records x F G t a outcome es alive frames frames' head here past silent posture number halted =>
    have h := h (alive ▸ ha)
    have hrec : ∀ {u o}, .taskFinished u o ∈ v'.past →
        u = t ∧ o = outcome ∨ .taskFinished u o ∈ v.past := by
      intro u o hu
      rcases List.mem_cons.1 (mem_of_silent silent (past ▸ hu)) with he | hu
      · cases he
        exact Or.inl ⟨rfl, rfl⟩
      · exact Or.inr hu
    refine ⟨fun {u o} hu => ?_, fun {p r u q} hp hu hq => ?_, fun r hr => ?_⟩
    · rw [posture, number, Core.posture_bury]
      rcases hrec hu with ⟨rfl, rfl⟩ | hu
      · exact ⟨if_pos rfl, (hv.orderly.tasks here).number⟩
      · obtain ⟨hn, hlt⟩ := h.gone hu
        exact ⟨by rw [hn]; split <;> rfl, hlt⟩
    · rw [posture] at hu
      obtain ⟨hut, q₀, hu₀, h1, h2, -⟩ := Core.of_posture_bury hu
      rw [h2]
      rcases hrec hp with ⟨rfl, rfl⟩ | hp
      · rw [frames] at hk
        obtain ⟨-, b, hb, hl, -, hc⟩ := head.of_done hk h.halted
        exact hk.detached_of_childless hb hl hc hu₀ (h1 ▸ hq)
      · exact h.childless hp hu₀ (h1 ▸ hq)
    · rcases halted with he | he
      · exact h.halted r (he ▸ hr)
      · rw [he] at hr
        cases hr
  | dies alive =>
    rw [alive] at ha
    cases ha

end

theorem Recorded.start : Recorded ⟨true, Engine.core {}, [], [], []⟩ where
  gone h := by cases h
  childless h := by cases h
  halted r h := by cases h

theorem Config.alive_iff {c : Config} {i : MiddlewareId} :
    (c.view i).alive = true ↔ c.world.Alive i := by
  simp [Config.view, World.Alive]

/-- Wherever a scenario comes to, whoever is recorded is over. -/
theorem Scenario.Visits.recorded {s : Scenario} {c : Config} {i : MiddlewareId} (h : s.Visits c)
    (hi : c.world.Alive i) : Recorded (c.view i) := by
  have := h.invariant
    (P := fun v => Sound i v ∧ Kinship i v.core v.frames ∧ (v.alive = true → Recorded v))
    ⟨.start i, .start i, fun _ => .start⟩
    (fun hv hm => ⟨hv.1.move hm, hv.2.1.move hv.1 hm, .move hv.2.2 hv.1 hv.2.1 (hm.turnover hv.1)⟩)
    hi.has
  exact this.2.2 (Config.alive_iff.2 hi)

/-! ## Parents of failed children -/

/-- A task is not live, or is about to fail: its failure is the next thing that happens. -/
def Config.Dooms (c : Config) (i : MiddlewareId) (p : TaskId) : Prop :=
  p < (c.world.core i).nextTask ∧ (¬ (c.world.core i).Live p ∨
    ∃ f rest, c.todo = .cascade i (.abort p f) :: rest ∨ c.todo = .abort ⟨i, p⟩ f :: rest)

theorem Turnover.not_live {i : MiddlewareId} {v v' : View} {p : TaskId} (h : Turnover i v v')
    (ha : v'.alive = true) (hp : p < v.core.nextTask) :
    p < v'.core.nextTask ∧ (¬ v.core.Live p → ¬ v'.core.Live p) := by
  cases h with
  | evolves _ _ _ core => exact ⟨Nat.lt_of_lt_of_le hp core.number, core.not_live hp⟩
  | records _ _ _ _ _ _ _ posture number =>
    refine ⟨number ▸ hp, fun hl => ?_⟩
    rintro ⟨q', hq', hl'⟩
    rw [posture] at hq'
    obtain ⟨-, q, hq, -, -, h3, -⟩ := Core.of_posture_bury hq'
    exact hl ⟨q, hq, h3 ▸ hl'⟩
  | dies alive =>
    rw [alive] at ha
    cases ha

theorem Turnover.alive {i : MiddlewareId} {v v' : View} (h : Turnover i v v') (ha : v'.alive = true) :
    v.alive = true := by
  cases h with
  | evolves alive | records alive => exact alive ▸ ha
  | dies alive =>
    rw [alive] at ha
    cases ha

theorem Turnover.past {i : MiddlewareId} {v v' : View} (h : Turnover i v v') :
    ∃ es, v'.past = es ++ v.past := by
  cases h with
  | evolves _ past => exact ⟨_, past⟩
  | records _ _ _ _ _ past => exact ⟨_, past.trans (List.append_cons ..)⟩
  | dies _ past => exact ⟨[], past⟩

section

variable {s : Scenario} {c c' : Config} {w : World} {i : MiddlewareId} {p u : TaskId}

/-- A task that is failed next is not live afterwards. -/
theorem World.not_live_of_abort (hi : w.Has i) {f : Fault} :
    ¬ ((w.execAbort ⟨i, p⟩ f).world.core i).Live p := by
  obtain ⟨k', es, hadv, hdoes⟩ := World.Enacts.abort (t := p) hi f
  rw [hadv.core]
  generalize framesOf i (w.execAbort ⟨i, p⟩ f).todo = G at hdoes
  generalize dropsOf i (w.execAbort ⟨i, p⟩ f).todo = D at hdoes
  cases hdoes with
  | abortLate hl => exact hl
  | abort hp hl =>
    rintro ⟨q, hq, hlq⟩
    simp only [Core.withdraw, Core.posture_alter, if_true, hp, Option.map_some] at hq
    cases hq
    cases hlq

theorem Scenario.Visits.alive_of_step (h : s.Visits c) (hi : c.world.Has i)
    (hc : c.step = some c') (ha : c'.world.Alive i) : c.world.Alive i :=
  Config.alive_iff.1 ((h.turnover hi hc).alive (Config.alive_iff.2 ha))

theorem Scenario.Visits.dooms_step (h : s.Visits c) (hc : c.step = some c')
    (ha : c'.world.Alive i) (hi : c.world.Has i) (hd : c.Dooms i p) : c'.Dooms i p := by
  obtain ⟨hp, hd⟩ := hd
  obtain ⟨hp', hlive⟩ := (h.turnover hi hc).not_live (Config.alive_iff.2 ha) hp
  refine ⟨hp', ?_⟩
  obtain ⟨todo, w⟩ := c
  rcases hd with hl | ⟨f, rest, rfl | rfl⟩
  · exact Or.inl (hlive hl)
  · cases hc
    exact Or.inr ⟨f, rest, Or.inr rfl⟩
  · cases hc
    exact Or.inl (World.not_live_of_abort hi)

/-! ## Children and the completion of their parent -/

/-- A task is an attached child of another one. -/
def World.IsChild (w : World) (i : MiddlewareId) (u p : TaskId) : Prop :=
  ∃ n, w.task? i u = some n ∧ n.parent = some p ∧ n.detached = false

theorem World.isChild_iff : w.IsChild i u p ↔
    ∃ q, (w.core i).posture u = some q ∧ q.parent = some p ∧ q.detached = false := by
  constructor
  · rintro ⟨n, hn, hp, hd⟩
    exact ⟨n.posture, by rw [World.posture_core, hn]; rfl, hp, hd⟩
  · rintro ⟨q, hq, hp, hd⟩
    rw [World.posture_core] at hq
    obtain ⟨n, hn, rfl⟩ := Option.map_eq_some_iff.1 hq
    exact ⟨n, hn, hp, hd⟩

/-- An attached child is in the table, or it is recorded, and if it failed so does its parent. -/
def Config.Accounts (c : Config) (i : MiddlewareId) (u p : TaskId) : Prop :=
  c.world.IsChild i u p ∨ (∃ o, .taskFinished u o ∈ c.world.past i) ∧
    ∀ f, .taskFinished u (.aborted f) ∈ c.world.past i → c.Dooms i p

/-- If a task completed, a child of it was recorded before, and not as failed. -/
def Config.Awaited (c : Config) (i : MiddlewareId) (u p : TaskId) : Prop :=
  ∀ l₁ l₂ r, c.world.past i = l₁ ++ .taskFinished p (.done r) :: l₂ →
    (∃ o, .taskFinished u o ∈ l₂) ∧ ∀ f, .taskFinished u (.aborted f) ∉ c.world.past i

/-- The failure of a child is handed on to its parent at once. -/
theorem Records.of_aborted {k : Core} {x : Instr} {f : Fault} {G : List Instr} {q : Posture}
    (h : Records i k u x (.aborted f) G) (hu : k.posture u = some q) (hq : q.parent = some p)
    (hd : q.detached = false) (hpu : p ≠ u) (hl : k.Live p) : G = [.cascade i (.abort p f)] := by
  have hc : k.cascade u (.aborted f) = some (.abort p f) := Core.cascade_aborted hu hq hd hpu hl
  generalize ho : Outcome.aborted f = o at h
  cases h with
  | abort | conclude =>
    rw [← ho, hc]
    rfl
  | complete | cancel => cases ho

/-- What one step means for a child and the completion of its parent. -/
theorem Scenario.Visits.accounts_step (h : s.Visits c) (hi : c.world.Has i)
    (hc : c.step = some c') (hA : c.world.Alive i → c.Accounts i u p) (hW : c.Awaited i u p) :
    (c'.world.Alive i → c'.Accounts i u p) ∧ c'.Awaited i u p := by
  cases h.turnover hi hc with
  | @evolves es alive past silent core =>
    have past : c'.world.past i = es ++ c.world.past i := past
    refine ⟨fun ha' => ?_, fun l₁ l₂ r hl => ?_⟩
    · rcases hA (h.alive_of_step hi hc ha') with hu | ⟨⟨o, ho⟩, hf⟩
      · left
        rw [World.isChild_iff] at hu ⊢
        obtain ⟨q, hq, hp, hd⟩ := hu
        obtain ⟨q', hq', h1, h2, -⟩ := core.kept hq
        exact ⟨q', hq', h1.trans hp, h2.trans hd⟩
      · refine Or.inr ⟨⟨o, past ▸ List.mem_append_right _ ho⟩, fun f hf' => ?_⟩
        exact h.dooms_step hc ha' hi (hf f (mem_of_silent silent (past ▸ hf')))
    · obtain ⟨l, rfl, hp⟩ := split_of_silent silent (past.symm.trans hl)
      obtain ⟨hu, hno⟩ := hW l l₂ r hp
      exact ⟨hu, fun f hf => hno f (mem_of_silent silent (past ▸ hf))⟩
  | @records x F G t a outcome es alive frames frames' head here past silent posture number =>
    have past : c'.world.past i = es ++ .taskFinished t outcome :: c.world.past i := past
    have ha : c.world.Alive i := by
      cases hal : (c.view i).alive with
      | true => exact Config.alive_iff.1 hal
      | false =>
        have := ((h.sound hi).framed.dead hal).1
        rw [frames] at this
        cases this
    have hrec := h.recorded ha
    have hk := h.kinship hi
    rw [frames] at hk
    have hnew : ∀ {v o}, .taskFinished v o ∈ c'.world.past i →
        v = t ∧ o = outcome ∨ .taskFinished v o ∈ c.world.past i := by
      intro v o hv
      rcases List.mem_cons.1 (mem_of_silent silent (past ▸ hv)) with he | hv
      · cases he
        exact Or.inl ⟨rfl, rfl⟩
      · exact Or.inr hv
    -- the task is still there, so nothing is recorded of it
    have hfirst : ∀ {o}, .taskFinished t o ∉ c.world.past i := by
      intro o ho
      have hn : (c.view i).core.posture t = none := (hrec.gone ho).1
      rw [here] at hn
      cases hn
    refine ⟨fun ha' => ?_, fun l₁ l₂ r hl => ?_⟩
    · rcases hA ha with hu | ⟨⟨o, ho⟩, hf⟩
      · obtain ⟨q, hq, hp, hd⟩ := World.isChild_iff.1 hu
        have hpu : p < u := hk.below hq hp
        by_cases hut : u = t
        · subst hut
          have hmem : .taskFinished u outcome ∈ c'.world.past i := by
            rw [past]
            exact List.mem_append_right _ List.mem_cons_self
          refine Or.inr ⟨⟨outcome, hmem⟩, fun f hf => ?_⟩
          rcases hnew hf with ⟨-, rfl⟩ | hf
          · obtain ⟨y, rest, G', q', htodo, hr, htodo', hq', hpost'⟩ := h.recorder hi hc
              (past.trans (List.append_cons ..)) (List.mem_append_right _ List.mem_cons_self)
            have hnum : p < (c'.world.core i).nextTask := by
              show p < (c'.view i).core.nextTask
              rw [number]
              exact Nat.lt_trans hpu ((h.sound hi).orderly.tasks hq).number
            by_cases hl : (c.world.core i).Live p
            · rw [hr.of_aborted hq hp hd (Nat.ne_of_lt hpu) hl] at htodo'
              exact ⟨hnum, Or.inr ⟨f, rest, Or.inl htodo'⟩⟩
            · exact h.dooms_step hc ha' hi
                ⟨Nat.lt_trans hpu ((h.sound hi).orderly.tasks hq).number, Or.inl hl⟩
          · exact absurd hf hfirst
        · obtain ⟨q', hq', h1, h2, -⟩ := Core.posture_bury_of_ne hut hq
          exact Or.inl (World.isChild_iff.2 ⟨q', posture ▸ hq', h1.trans hp, h2.trans hd⟩)
      · have hut : u ≠ t := by
          rintro rfl
          exact hfirst ho
        refine Or.inr ⟨⟨o, ?_⟩, fun f hf' => ?_⟩
        · rw [past]
          exact List.mem_append_right _ (List.mem_cons_of_mem _ ho)
        · rcases hnew hf' with ⟨he, -⟩ | hf'
          · exact absurd he hut
          · exact h.dooms_step hc ha' hi (hf f hf')
    · obtain ⟨l, rfl, hsplit⟩ := split_of_silent silent (past.symm.trans hl)
      cases l with
      | nil =>
        obtain ⟨hevent, rfl⟩ := List.cons.inj hsplit
        cases hevent
        obtain ⟨rfl, a, hp, hl, -, hnil⟩ := head.of_done hk hrec.halted
        rcases hA ha with hu | ⟨hu, hf⟩
        · obtain ⟨q, hq, hqp, hd⟩ := World.isChild_iff.1 hu
          rw [hk.detached_of_childless hp hl hnil hq hqp] at hd
          cases hd
        · refine ⟨hu, fun f hf' => ?_⟩
          rcases hnew hf' with ⟨-, he⟩ | hf'
          · cases he
          · obtain ⟨-, hnl | ⟨f', rest, ht | ht⟩⟩ := hf f hf'
            · exact hnl ⟨a, hp, hl⟩
            · have hF : framesOf i c.todo = _ := frames
              rw [ht] at hF
              simp [Instr.owner?] at hF
            · have hF : framesOf i c.todo = _ := frames
              rw [ht] at hF
              simp [Instr.owner?] at hF
      | cons e l =>
        have hold := (List.cons.inj hsplit).2
        obtain ⟨⟨o, ho⟩, hno⟩ := hW l l₂ r hold
        refine ⟨⟨o, ho⟩, fun f hf => ?_⟩
        rcases hnew hf with ⟨rfl, -⟩ | hf
        · refine hfirst (o := o) ?_
          rw [hold]
          exact List.mem_append_right _ (List.mem_cons_of_mem _ ho)
        · exact hno f hf
  | dies alive past =>
    refine ⟨fun ha' => ?_, fun l₁ l₂ r hl => ?_⟩
    · rw [Config.alive_iff.2 ha'] at alive
      cases alive
    · have past : c'.world.past i = c.world.past i := past
      rw [past] at hl ⊢
      exact hW l₁ l₂ r hl

theorem Scenario.Visits.alive_of_posture (h : s.Visits c) {q : Posture}
    (hq : (c.world.core i).posture u = some q) : c.world.Alive i := by
  have hi : c.world.Has i := by
    cases hm : c.world.middlewares.get? i with
    | some m => exact ⟨m, hm⟩
    | none =>
      rw [World.posture_core, World.task?, World.engine, hm] at hq
      cases hq
  cases hal : (c.view i).alive with
  | true => exact Config.alive_iff.1 hal
  | false =>
    have hcore : c.world.core i = Engine.core {} := ((h.sound hi).framed.dead hal).2
    rw [hcore] at hq
    cases hq

/-- No task completes before its children are recorded, none of them as failed. -/
theorem Scenario.Visits.awaited {c₀ : Config} (h : s.Visits c₀) (hu : c₀.world.IsChild i u p)
    (hc : c₀.Precedes c) : c.Awaited i u p := by
  obtain ⟨q, hq, hp, hd⟩ := World.isChild_iff.1 hu
  have ha := h.alive_of_posture hq
  have key : c.world.Has i ∧ (c.world.Alive i → c.Accounts i u p) ∧ c.Awaited i u p := by
    induction hc with
    | refl =>
      refine ⟨ha.has, fun _ => Or.inl hu, fun l₁ l₂ r hl => ?_⟩
      have hdone : .taskFinished p (.done r) ∈ (c₀.view i).past := by
        show _ ∈ c₀.world.past i
        rw [hl]
        simp
      rw [(h.recorded ha).childless hdone hq hp] at hd
      cases hd
    | call _ o budget ih =>
      obtain ⟨hi, hA, hW⟩ := ih
      refine ⟨hi, fun ha => (hA ha).imp_right fun ⟨ho, hf⟩ => ⟨ho, fun f hf' => ?_⟩, hW⟩
      obtain ⟨hp, hl | ⟨_, _, hl | hl⟩⟩ := hf f hf'
      · exact ⟨hp, Or.inl hl⟩
      · cases hl
      · cases hl
    | step hc hstep ih =>
      obtain ⟨hi, hA, hW⟩ := ih
      have hv := h.precedes hc
      exact ⟨(hv.knows.has_iff hstep i).2 hi, hv.accounts_step hi hstep hA hW⟩
  exact key.2.2

end

end SagaMachine
