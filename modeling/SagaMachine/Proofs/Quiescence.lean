import SagaMachine.Proofs.Runs
import SagaMachine.Proofs.Soundness

/-!
# The engine at rest

Between two operations from outside every engine has one form: the driver is at rest with
nothing left to do, no task is stepped, and every task of the table is suspended, either
parked on a pending effect of its own or holding its value for children that are still
there. Nothing else is pending than what hangs on these effects.

Main statement: `Scenario.Visits.quiescent`.
-/

namespace SagaMachine

/-- An effect hangs on a root: it is the root, or a pending member of what hangs on it. -/
inductive Waits.Under (waits : Waits) (root : EffectId) : EffectId → Prop
  | root {w : Wait} (h : waits.get? root = some w) : Under waits root root
  | member {p x : EffectId} {w : Wait} (h : Under waits root p) (hp : waits.get? p = some w)
      (hx : x ∈ w.kind.members) : Under waits root x

/-- A task with its body, parked on a pending effect of its own. -/
structure TaskNode.Parked (waits : Waits) (t : TaskId) (n : TaskNode) : Prop where
  body : n.body.isSome
  result : n.result = none
  effect : ∃ x w, n.pending = some x ∧ waits.get? x = some w ∧ w.task = t ∧ w.link = .task

/-- A task whose body is over, holding its value for the children that are left. -/
structure TaskNode.Holding (tasks : Tasks) (t : TaskId) (n : TaskNode) : Prop where
  body : n.body = none
  result : n.result.isSome
  attached : n.children ≠ []
  children : ∀ c ∈ n.children,
    ∃ m, tasks.get? c = some m ∧ m.parent = some t ∧ m.detached = false

/-- An engine at rest. -/
structure Engine.Quiescent (e : Engine) : Prop where
  driving : e.driving = false
  agenda : e.agenda = {}
  current : e.current = none
  halted : e.halted = none
  tasks : ∀ {t n}, e.tasks.get? t = some n → n.status = .suspended ∧
    (n.Parked e.waits t ∧ ¬ n.Holding e.tasks t ∨ n.Holding e.tasks t ∧ ¬ n.Parked e.waits t)
  waits : ∀ {x w}, e.waits.get? x = some w → ∃! t,
    e.tasks.isLive t = true ∧ ∃ n r, e.tasks.get? t = some n ∧ n.pending = some r ∧
      e.waits.Under r x

namespace Waits

variable {waits : Waits} {r x : EffectId} {w rw : Wait}

theorem Under.exists_get? (h : waits.Under r x) : ∃ rw, waits.get? r = some rw := by
  induction h with
  | root h => exact ⟨_, h⟩
  | member _ _ _ ih => exact ih

/-- What hangs on an effect belongs to the same task. -/
theorem Forest.task_of_under (hF : Forest waits [] .task) (hr : waits.get? r = some rw)
    (h : waits.Under r x) (hx : waits.get? x = some w) : w.task = rw.task := by
  induction h generalizing w with
  | root =>
    rw [hr] at hx
    cases hx
    rfl
  | member h hp hm ih =>
    obtain ⟨-, ht, -⟩ := hF.of_mem_members hp hm hx
    exact ht.trans (ih hp)

/-- Every effect hangs on one that reports to its task. -/
theorem Forest.exists_root (hF : Forest waits [] .task) (hx : waits.get? x = some w) :
    ∃ r rw, waits.get? r = some rw ∧ rw.link = .task ∧ rw.task = w.task ∧ waits.Under r x := by
  induction x using Nat.strongRecOn generalizing w with
  | _ x ih =>
    cases hp : w.link.parent? with
    | none =>
      refine ⟨x, w, hx, ?_, rfl, .root hx⟩
      cases hl : w.link with
      | task => rfl
      | race | all =>
        rw [hl] at hp
        cases hp
    | some p =>
      obtain ⟨pw, hpw, ht, hlt, hm⟩ := hF.up hx List.not_mem_nil hp
      obtain ⟨r, rw, hr, hl, hrt, hu⟩ := ih p hlt hpw
      exact ⟨r, rw, hr, hl, hrt.trans ht, .member hu hpw hm.mem_members⟩

end Waits

section

variable {i : MiddlewareId} {e : Engine} {t : TaskId} {n : TaskNode} {past : List Event}

theorem Engine.posture_core (h : e.tasks.get? t = some n) : e.core.posture t = some n.posture := by
  simp only [Engine.core, h, Option.map_some]

/-- With no frame left every task is suspended: parked on an effect, or holding its value. -/
theorem Orderly.at_rest (h : Orderly i e.core []) (ha : e.agenda = {}) (hc : e.current = none)
    (hn : e.tasks.get? t = some n) :
    n.status = .suspended ∧ (n.Parked e.waits t ∧ ¬ n.Holding e.tasks t ∨
      n.Holding e.tasks t ∧ ¬ n.Parked e.waits t) := by
  have hp := Engine.posture_core hn
  have hord := h.tasks hp
  have hidle : ∀ r, ¬ Owes i e.core [] r := by
    have ha : e.core.agenda = {} := ha
    intro r
    simp [Owes, ha]
  have hcur : ∀ {u}, e.core.current ≠ some u := fun hu => by
    have hu : e.current = some _ := hu
    rw [hc] at hu
    cases hu
  have hlive : n.status.isTerminal = false := by
    cases hs : n.status.isTerminal with
    | false => rfl
    | true =>
      rcases hord.terminal hs with h | ⟨x, hx, -⟩
      · exact absurd h hcur
      · cases hx
  cases hord.standing hlive with
  | created hs hb hpn hr ho | yielded hs hb hpn hr ho => exact absurd ho (hidle _)
  | @parked hs hb x hpx hr w hw ht hl =>
    refine ⟨hs, Or.inl ⟨⟨hb, hr, x, w, hpx, hw, ht, hl⟩, fun hh => ?_⟩⟩
    have hb : n.body.isSome = true := hb
    rw [hh.body] at hb
    cases hb
  | running hs hb hr ho =>
    rcases ho with ho | ⟨x, hx, -⟩
    · exact absurd ho hcur
    · cases hx
  | @waiting hb v hr ho =>
    have hb : n.body.isSome = false := hb
    have hr : n.result = some v := hr
    rcases ho with ⟨hs, hkids⟩ | ⟨x, hx, -⟩
    · refine ⟨hs, Or.inr ⟨⟨by simpa using hb, by simp [hr], hkids, fun c hm => ?_⟩, fun hpk => ?_⟩⟩
      · obtain ⟨q, hq, hqp, hqd⟩ := hord.children hlive c hm
        obtain ⟨m, hm, rfl⟩ := Option.map_eq_some_iff.1 hq
        exact ⟨m, hm, hqp, hqd⟩
      · rw [hpk.body] at hb
        cases hb
    · cases hx

/-- With no frame left every pending effect hangs on what one task is parked on. -/
theorem Tabled.at_rest (h : Tabled e.core [] past)
    (hsusp : ∀ {t n}, e.tasks.get? t = some n → n.status = .suspended) {x : EffectId} {w : Wait}
    (hx : e.waits.get? x = some w) : ∃! t, e.tasks.isLive t = true ∧
      ∃ n r, e.tasks.get? t = some n ∧ n.pending = some r ∧ e.waits.Under r x := by
  have hF : Waits.Forest e.waits [] .task := h.forest
  obtain ⟨r, rw, hr, hl, hrt, hu⟩ := hF.exists_root hx
  obtain ⟨p, hp, -, hpr⟩ := h.rooted hr hl List.not_mem_nil
  obtain ⟨n, hn, rfl⟩ := Option.map_eq_some_iff.1 hp
  refine ⟨rw.task, ⟨?_, n, r, hn, hpr, hu⟩, ?_⟩
  · simp only [Tasks.isLive, hn, hsusp hn]
    rfl
  · rintro t ⟨-, n', r', hn', hpr', hu'⟩
    obtain ⟨w', hr'⟩ := hu'.exists_get?
    have ht := (h.pending (Engine.posture_core hn') hpr' hr').1
    rw [← ht, hrt, ← hF.task_of_under hr' hu' hx]

end

namespace Scenario.Visits

variable {s : Scenario} {c : Config} {w : World} {i : MiddlewareId}

/-- What holds of a middleware wherever a scenario comes to. -/
theorem sound (h : s.Visits c) (hi : c.world.Has i) : Sound i (c.view i) :=
  h.invariant (.start i) (fun hv hm => hv.move hm) hi

/--
Between two operations every engine is at rest: no scenario, whatever its bodies, its hosts
and its operations, leaves a task behind that nothing takes care of, or an effect pending
that belongs to none.
-/
theorem quiescent (h : s.Visits ⟨[], w⟩) {m : Middleware} (hm : w.middlewares.get? i = some m) :
    m.engine.Quiescent := by
  have hs := h.sound (i := i) ⟨m, hm⟩
  have hcore : (Config.view ⟨[], w⟩ i).core = m.engine.core := by
    simp only [Config.view, World.core, World.engine_of_get? hm]
  have hframes : (Config.view ⟨[], w⟩ i).frames = [] := rfl
  obtain ⟨hfr, hord, htab⟩ := hs
  rw [hcore, hframes] at hord
  have ha : m.engine.agenda = {} := (congrArg Core.agenda hcore).symm.trans (hfr.idle hframes)
  have hcur : m.engine.current = none := by
    have hst := hfr.stack
    rw [hcore, hframes] at hst
    generalize hd : m.engine.core.current = d at hst
    cases hst
    exact hd
  have htasks : ∀ {t n}, m.engine.tasks.get? t = some n → _ := fun hn => hord.at_rest ha hcur hn
  refine ⟨?_, ha, hcur, ?_, htasks, fun {x w'} hx => ?_⟩
  · have hd := hfr.driving
    rw [hcore, hframes] at hd
    simpa [Engine.core] using hd
  · by_contra hh
    rcases hord.halted hh with ⟨t, hc, -⟩ | ⟨turn, hc⟩
    · have hc : m.engine.current = some t := hc
      rw [hcur] at hc
      cases hc
    · cases hc
  · cases halive : (Config.view ⟨[], w⟩ i).alive with
    | true =>
      have ht := htab halive
      rw [hcore, hframes] at ht
      exact ht.at_rest (fun hn => (htasks hn).1) hx
    | false =>
      have hnone : m.engine.waits = .empty := congrArg Core.waits (hcore.symm.trans (hfr.dead halive).2)
      rw [hnone] at hx
      cases hx

end Scenario.Visits

/-- A body forks a task and returns, and its task holds the value while the other one takes. -/
def Scenario.heldByChild : Scenario where
  scripts := [
    ("parent", [.perform (.fork { source := .named "child" }) none none, .return .unit]),
    ("child", [.perform (.take none .any) none none])]
  steps := [.run 0 { source := .named "parent" } none]

theorem Scenario.quiescent_heldByChild :
    ∃ w m, heldByChild.Visits ⟨[], w⟩ ∧ w.middlewares.get? 0 = some m ∧
      m.engine.tasks.size = 2 ∧ m.engine.Quiescent := by
  have h : (heldByChild.final?.bind fun w =>
      (w.middlewares.get? 0).map fun m => m.engine.tasks.size) = some 2 := by decide +kernel
  obtain ⟨w, hw, h⟩ := Option.bind_eq_some_iff.1 h
  obtain ⟨m, hm, hsize⟩ := Option.map_eq_some_iff.1 h
  have hv := Visits.of_final? hw
  exact ⟨w, m, hv, hm, hsize, hv.quiescent hm⟩

end SagaMachine
