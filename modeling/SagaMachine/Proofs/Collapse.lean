import SagaMachine.Proofs.Aftermath
import SagaMachine.Proofs.Failures

/-!
# After a failure

An uncaught fault takes the whole attached tree of its task down and nothing else: those on the
way up to the topmost task are recorded as aborted with this fault, all others of the tree as
cancelled, and the library says so in one line of the log, about the topmost task.

Main statement: `Scenario.Visits.fault_exact`.
-/

namespace SagaMachine

/-! ## What the log says -/

/-- The line that reports a fault that nobody caught. -/
def Line.uncaught (t : TaskRef) (f : Fault) : Line :=
  .trace .error [("message", "uncaught saga failure"), ("task", t.label), ("name", t.name),
    ("error", f.message)]

/-- Whether a line reports a fault that nobody caught. -/
def Line.isUncaught : Line → Bool
  | .trace _ ((_, message) :: _) => message = "uncaught saga failure"
  | _ => false

theorem Line.isUncaught_uncaught (t : TaskRef) (f : Fault) : (Line.uncaught t f).isUncaught = true := by
  simp [uncaught, isUncaught]

/-- The lines about an event that report an uncaught fault. -/
theorem Middleware.uncaughtLines (m : Middleware) (i : MiddlewareId) (e : Event) :
    (m.monitored i e ++ m.remarks e).filter Line.isUncaught =
      match e with
      | .uncaught t f => if m.settings.logUncaught then [Line.uncaught t f] else []
      | _ => [] := by
  have hmon : (m.monitored i e).filter Line.isUncaught = [] := by
    unfold monitored
    split
    · cases e.visible? <;> rfl
    · rfl
  rw [List.filter_append, hmon, List.nil_append]
  cases e with
  | uncaught t f =>
    simp only [remarks]
    split
    · exact List.filter_eq_self.2 fun l hl => by
        rw [List.mem_singleton.1 hl]
        exact Line.isUncaught_uncaught t f
    · rfl
  | queued errand length =>
    simp only [remarks]
    split
    · simp [Line.isUncaught]
    · rfl
  | refused a f => simp [remarks, Line.isUncaught]
  | unreadable => simp [remarks, Line.isUncaught]
  | _ => rfl

/-- Only the events that tell of uncaught faults lead to lines that report them. -/
theorem World.uncaughtLines {w : World} {i : MiddlewareId} {m : Middleware}
    (hm : w.middlewares.get? i = some m) {es : List Event} {t : TaskRef} {f : Fault}
    (hes : es.filter Event.isUncaught = [.uncaught t f]) :
    (es.flatMap fun e => w.linesOf (.event i e)).filter Line.isUncaught =
      if m.settings.logUncaught then [Line.uncaught t f] else [] := by
  have key : ∀ es : List Event, (es.flatMap fun e => w.linesOf (.event i e)).filter Line.isUncaught =
      (es.filter Event.isUncaught).flatMap fun e =>
        (w.linesOf (.event i e)).filter Line.isUncaught := by
    intro es
    induction es with
    | nil => rfl
    | cons e es ih =>
      rw [List.flatMap_cons, List.filter_append, ih, List.filter_cons]
      have he : e.isUncaught = false → (w.linesOf (.event i e)).filter Line.isUncaught = [] := by
        intro he
        simp only [linesOf, hm, m.uncaughtLines i e]
        cases e with
        | uncaught => cases he
        | _ => rfl
      cases hu : e.isUncaught with
      | true => simp
      | false => simp [he hu]
  rw [key, hes]
  simp only [List.flatMap_cons, List.flatMap_nil, List.append_nil, linesOf, hm, m.uncaughtLines]

theorem uncaught_milestones (es : List Event) :
    (es.filter Event.isMilestone).filter Event.isUncaught = es.filter Event.isUncaught := by
  rw [List.filter_filter]
  refine List.filter_congr fun e _ => ?_
  cases e <;> rfl

/-! ## What a failure changes -/

/-- What the failure of a task does to its middleware, and what it does not. -/
structure World.Collapses (i : MiddlewareId) (p r : TaskId) (f : Fault) (ps : List TaskId)
    (es : List Event) (w w' : World) : Prop where
  past : w'.past i = es.reverse ++ w.past i
  /-- Up from the task, by links to parents that tasks are attached to, up to the topmost one. -/
  lineage : (w.engine i).tasks.Lineage p ps r
  /-- The tasks on the way up are aborted with the fault, all others of the tree are cancelled. -/
  recorded : ∀ u o, .taskFinished u o ∈ es ↔ (w.engine i).tasks.Attached r u ∧
    (u ∈ ps ∧ o = .aborted f ∨ u ∉ ps ∧ o = .cancelled)
  /-- Every task is recorded after those that are attached below it. -/
  order : ∀ {a d}, (w.engine i).tasks.Attached r a → (w.engine i).tasks.Attached a d → a ≠ d →
    ∃ l₁ l₂, finishedIn es = l₁ ++ l₂ ∧ d ∈ l₁ ∧ a ∈ l₂
  once : (finishedIn es).Nodup
  removed : ∀ {u o}, .taskFinished u o ∈ es →
    w'.task? i u = none ∧ (w'.engine i).outcomes.get? u = some o
  kept : ∀ {u n}, w.task? i u = some n → ¬ (w.engine i).tasks.Attached r u →
    ∃ n', w'.task? i u = some n' ∧ n'.status = n.status ∧ n'.body = n.body ∧
      n'.pending = n.pending ∧ n'.result = n.result
  absent : ∀ {u}, w.task? i u = none → w'.task? i u = none
  /-- Exactly the effects of the tree are withdrawn. -/
  waits : ∀ {x wait}, (w'.engine i).waits.get? x = some wait ↔
    (w.engine i).waits.get? x = some wait ∧ ¬ (w.engine i).tasks.Attached r wait.task
  unregistered : ∀ {x wait}, (w.engine i).waits.get? x = some wait →
    (w.engine i).tasks.Attached r wait.task → ∀ k, ¬ w'.Registered ⟨i, x⟩ k
  /-- Whoever joined is told the outcome, once; and every task outside of the tree that joined on
  one of its tasks is. -/
  notices : ∃ ns : List (EffectId × Outcome),
    (w'.engine i).agenda = { (w.engine i).agenda with
      fresh := (w.engine i).agenda.fresh ++ ns.map notice } ∧ (ns.map Prod.fst).Nodup ∧
    (∀ {x o}, (x, o) ∈ ns → ∃ u n, .taskFinished u o ∈ es ∧ w.task? i u = some n ∧
      x ∈ n.joiners) ∧
    ∀ {u o n x wait}, .taskFinished u o ∈ es → w.task? i u = some n → x ∈ n.joiners →
      (w.engine i).waits.get? x = some wait → ¬ (w.engine i).tasks.Attached r wait.task →
      (x, o) ∈ ns
  /-- The log has one line about it, if the settings say so. -/
  line : ∀ {m n}, w'.middlewares.get? i = some m → w.task? i r = some n →
    (es.flatMap fun e => w'.linesOf (.event i e)).filter Line.isUncaught =
      if m.settings.logUncaught then [Line.uncaught { owner := i, id := r, name := n.name } f]
      else []

/-- An outcome and the descendants that were recorded before. -/
theorem split_of_pairwise {α : Type} {R : α → α → Prop} {as : List α} (h : as.Pairwise R) {a d : α}
    (ha : a ∈ as) (hd : d ∈ as) (hne : a ≠ d) (hR : ¬ R a d) :
    ∃ l₁ l₂, as = l₁ ++ l₂ ∧ d ∈ l₁ ∧ a ∈ l₂ := by
  obtain ⟨l₁, l₂, rfl⟩ := List.append_of_mem ha
  refine ⟨l₁, a :: l₂, rfl, ?_, List.mem_cons_self⟩
  rcases List.mem_append.1 hd with hd | hd
  · exact hd
  · rcases List.mem_cons.1 hd with rfl | hd
    · exact absurd rfl hne
    · exact absurd ((List.pairwise_cons.1 (List.pairwise_append.1 h).2.1).1 d hd) hR

namespace Scenario.Visits

variable {s : Scenario} {w : World} {i : MiddlewareId} {p : TaskId} {b : Body} {f : Fault}
  {todo : List Instr} {cost : TaskId → Nat}

/--
A body ends with a fault that it did not catch, and the destructors of all bodies leave the
middleware alone: the exit comes to its end and takes down exactly the attached tree of the task.
-/
theorem fault_exact (h : s.Visits ⟨.leave ⟨i, p⟩ b (.finished (.error f)) :: todo, w⟩)
    (hw : w.Harmless i cost) (hb : b.HarmlessTo i (cost p)) :
    ∃ w' r ps es, Config.Leads ⟨.leave ⟨i, p⟩ b (.finished (.error f)) :: todo, w⟩ ⟨todo, w'⟩ ∧
      w.Collapses i p r f ps es w' := by
  have ha : w.Alive i := h.alive_of_owner rfl
  have hi : w.Has i := ha.has
  have hg := h.grounds rfl hi
  obtain ⟨w₁, w', ms, ps, r, m, hl₁, hl₂, hengine, hpast₁, halive₁, hall, hps, hm, hcl, hun⟩ :=
    h.fault_leads hi hw hb
  have hlead := hl₁.trans hl₂
  have hv' := h.leads hlead
  have ha' : w'.Alive i := by
    rw [World.Alive, hcl.fells.alive, halive₁]
    exact ha
  obtain ⟨es, hpast, hes⟩ := hcl.fells.past
  obtain ⟨ns, he⟩ := hcl.fells.engine
  have hord := hcl.order
  rw [hengine] at he hord
  -- the milestones among what is recorded
  have hms : ∀ {u o}, .taskFinished u o ∈ .bodyDropped p :: es ↔ .taskFinished u o ∈ ms := by
    intro u o
    rw [← hes]
    simp [Event.isMilestone]
  have hms' : finishedIn (.bodyDropped p :: es) = finishedIn ms := by
    rw [← hes, finishedIn_milestones]
    rfl
  have hgone : ∀ {u}, (w.engine i).tasks.Below r u → w'.task? i u = none := fun hu => by
    obtain ⟨o, ho⟩ := mem_finishedIn.1 (hcl.gone.2 hu)
    exact (he.finished ho).2.1
  have hwaits := hv'.waits_of_felled ha' he (S := (w.engine i).tasks.Below r) (fun _ ho => ho)
    (fun _ => (Option.some_ne_none _).symm) hgone
  refine ⟨w', r, ps, .bodyDropped p :: es, hlead, ?_⟩
  constructor
  case past =>
    rw [hpast, hpast₁]
    simp
  case lineage => exact hps
  case recorded =>
    intro u o
    rw [hms, hg.attached_iff]
    constructor
    · intro hu
      exact ⟨hcl.gone.1 (mem_finishedIn.2 ⟨o, hu⟩), hcl.outcome hu⟩
    · rintro ⟨hu, ho⟩
      obtain ⟨o', ho'⟩ := mem_finishedIn.1 (hcl.gone.2 hu)
      have heq : o = o' := by
        rcases ho with ⟨hp, rfl⟩ | ⟨hp, rfl⟩ <;> rcases hcl.outcome ho' with ⟨hp', rfl⟩ | ⟨hp', rfl⟩
        · rfl
        · exact absurd hp hp'
        · exact absurd hp' hp
        · rfl
      rw [heq]
      exact ho'
  case order =>
    intro a d haa had hne
    rw [hg.attached_iff] at haa had
    rw [hms']
    exact split_of_pairwise hord (hcl.gone.2 haa) (hcl.gone.2 (haa.trans had)) hne (not_not_intro had)
  case once =>
    rw [hms']
    exact hcl.nodup
  case removed => exact fun hu => (he.finished (hms.1 hu)).2
  case kept =>
    intro u n hn hu
    rw [hg.attached_iff] at hu
    obtain ⟨n', hn', hout⟩ := he.kept hn fun hf => hu (hcl.gone.1 hf)
    exact ⟨n', hn', hout.alike hu⟩
  case absent => exact fun hn => he.absent hn
  case waits =>
    intro x wait
    rw [hg.attached_iff]
    exact hwaits x wait
  case unregistered =>
    intro x wait hx hatt
    rw [hg.attached_iff] at hatt
    exact hv'.unregistered_of_lost ha' hwaits hx hatt
  case notices =>
    refine ⟨ns, he.agenda, he.once (h.joinedOnce ha), fun hx => ?_, ?_⟩
    · obtain ⟨u, n, hu, hn, hj⟩ := he.heard hx
      exact ⟨u, n, hms.2 hu, hn, hj⟩
    · intro u o n x wait hu hn hj hx hout
      rw [hg.attached_iff] at hout
      exact he.told_of_waiting (hms.1 hu) hn hj ((hwaits x wait).2 ⟨hx, hout⟩)
  case line =>
    intro m' n hm' hn
    cases hm.symm.trans hn
    refine World.uncaughtLines hm' ?_
    rw [List.filter_cons, ← uncaught_milestones es, hes, hun]
    rfl

end Scenario.Visits

/-- The fault that a body ends with next, and whose body it is. -/
def Config.faults? (c : Config) : Option (Turn × Body × Fault) :=
  match c.todo with
  | .leave turn b (.finished (.error f)) :: _ => some (turn, b, f)
  | _ => none

theorem Config.of_faults? {c : Config} {turn : Turn} {b : Body} {f : Fault}
    (h : c.faults? = some (turn, b, f)) :
    ∃ todo, c = ⟨.leave turn b (.finished (.error f)) :: todo, c.world⟩ := by
  obtain ⟨todo, w⟩ := c
  unfold faults? at h
  split at h
  · rename_i hto
    cases h
    exact ⟨_, by rw [show todo = _ from hto]⟩
  · cases h

/-- A child fails below a parent that has another child, and a task elsewhere joins it. -/
def Scenario.childFails : Scenario where
  scripts := [
    ("parent", [.perform (.fork { source := .named "patient" }) none none,
      .perform (.fork { source := .named "failing" }) none (some "failing"),
      .perform (.take none (.type "never")) none none]),
    ("patient", [.guard "patient" [], .perform (.take none (.type "never")) none none]),
    ("failing", [.perform (.take none (.type "go")) none none, .fail (.failed "no luck")]),
    ("other", [.perform (.join (.task "failing")) none none])]
  steps := [.run 0 { source := .named "parent" } none, .run 0 { source := .named "other" } none]

theorem Scenario.fault_exact_childFails : ∃ b f todo w w' r ps es,
    childFails.Visits ⟨.leave ⟨0, 3⟩ b (.finished (.error f)) :: todo, w⟩ ∧
      (w.engine 0).tasks.size = 4 ∧
      Config.Leads ⟨.leave ⟨0, 3⟩ b (.finished (.error f)) :: todo, w⟩ ⟨todo, w'⟩ ∧
      w.Collapses 0 3 r f ps es w' := by
  have h : ((childFails.during? (.dispatch 0 { kind := "go" }) 10).any fun c =>
      (c.faults?.any fun e => e.1 = ⟨0, 3⟩ && e.2.1.guards.all fun g => g.ops.isEmpty) &&
        c.world.guardsIdle 0 && (c.world.engine 0).tasks.size = 4) = true := by decide +kernel
  obtain ⟨c, hc, h⟩ := (Option.any_eq_true ..).1 h
  simp only [Bool.and_eq_true, decide_eq_true_eq] at h
  obtain ⟨⟨hfault, hidle⟩, hsize⟩ := h
  obtain ⟨⟨turn, b, f⟩, hf, hturn⟩ := (Option.any_eq_true ..).1 hfault
  simp only [Bool.and_eq_true, decide_eq_true_eq, List.all_eq_true, List.isEmpty_iff] at hturn
  obtain ⟨rfl, hguards⟩ := hturn
  obtain ⟨todo, hc'⟩ := Config.of_faults? hf
  have hv : childFails.Visits ⟨.leave ⟨0, 3⟩ b (.finished (.error f)) :: todo, c.world⟩ :=
    hc' ▸ Visits.of_during? hc
  obtain ⟨w', r, ps, es, hlead, hcollapse⟩ := hv.fault_exact
    (World.harmless_of_guardsIdle hidle) (Body.harmlessTo_of_idle hguards 0)
  exact ⟨b, f, todo, c.world, w', r, ps, es, hv, hsize, hlead, hcollapse⟩

end SagaMachine
