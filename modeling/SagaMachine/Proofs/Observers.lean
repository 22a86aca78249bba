import SagaMachine.Proofs.Guises
import SagaMachine.Proofs.Runs

/-!
# Observation does not interfere

Neither the monitors of a scenario nor the settings of its middlewares have a part in what it
does. Two scenarios that differ in nothing else come to worlds that agree (`World.Agrees`) after
every sequence of operations, with one journal and with one state of everything that is not a
monitor or a setting. What they report differs in the lines of monitors, in the two kinds of
lines that the settings govern (`Line.governed`), and where the settings are asked for.

Main statement: `Scenario.observation_invisible`.
-/

namespace SagaMachine

/-- The guise in which nobody watches and all settings are the default ones. -/
def Guise.plain : Guise where
  settings := fun _ => {}
  monitor := fun _ => .none

/-- A line that is there or not depending on the settings. -/
def Line.governed (level : Level) (fields : List (String × String)) : Bool :=
  (level = .error ∧ fields.lookup "message" = some "uncaught saga failure") ∨
  (level = .warn ∧
    fields.lookup "message" = some "action queue reached its warning threshold")

/-- A line of the log, if it is not up to monitors and settings. -/
def Line.plain? : Line → Option Line
  | .monitor .. => none
  | .trace level fields => if Line.governed level fields then none else some (.trace level fields)
  | .op name r => some (.op name (r.inGuise .plain))
  | l => some l

/-- A report without what is up to monitors and settings. -/
def StepReport.plain (r : StepReport) : StepReport :=
  { r with reply := r.reply.inGuise .plain, lines := r.lines.filterMap Line.plain? }

/-- What is seen of a run without what is up to monitors and settings. -/
def ScenarioResult.plain : ScenarioResult → ScenarioResult
  | .report r => .report { steps := r.steps.map StepReport.plain, memory := none }
  | r => r

/-- A middleware to be set up with the default settings and without a monitor. -/
def MiddlewareSpec.plain (m : MiddlewareSpec) : MiddlewareSpec := { host := m.host }

/-- A scenario with the default settings and without monitors. -/
def Scenario.plain (s : Scenario) : Scenario :=
  { s with middlewares := s.middlewares.map MiddlewareSpec.plain }

/-- Two worlds agree on everything but settings, monitors, and replies that show settings. -/
structure World.Agrees (w w' : World) : Prop where
  alive : ∀ i, w.alive? i = w'.alive? i
  engine : ∀ i, w.engine i = w'.engine i
  host : ∀ i, (w.middlewares.get? i).map (·.host) = (w'.middlewares.get? i).map (·.host)
  status : ∀ t, w.statusOf t = w'.statusOf t
  outcome : ∀ t, w.outcomeOf t = w'.outcomeOf t
  channels : w.channels = w'.channels
  channelNames : w.channelNames = w'.channelNames
  deferreds : w.deferreds = w'.deferreds
  deferredNames : w.deferredNames = w'.deferredNames
  timers : w.timers = w'.timers
  now : w.now = w'.now
  labels : w.labels = w'.labels
  watches : w.watches = w'.watches
  takerTags : w.takerTags = w'.takerTags
  budget : w.budget = w'.budget
  reply : w.reply.map (Reply.inGuise .plain) = w'.reply.map (Reply.inGuise .plain)
  journal : w.journal.map (Entry.inGuise .plain) = w'.journal.map (Entry.inGuise .plain)

section

variable {g : Guise} {w w' : World}

/-- Worlds in one plain guise agree. -/
theorem World.Agrees.of_plain (h : w.inGuise .plain = w'.inGuise .plain) : w.Agrees w' := by
  have hm (i : MiddlewareId) : (w.middlewares.get? i).map (Middleware.inGuise .plain i) =
      (w'.middlewares.get? i).map (Middleware.inGuise .plain i) := by
    rw [← Table.get?_mapEach, ← Table.get?_mapEach, ← World.middlewares_inGuise, h]
    rfl
  have hpart {α : Type} (f : Middleware → α) (hf : ∀ i m, f (m.inGuise .plain i) = f m)
      (i : MiddlewareId) : (w.middlewares.get? i).map f = (w'.middlewares.get? i).map f := by
    have hmap := congrArg (Option.map f) (hm i)
    have hcomp : f ∘ Middleware.inGuise .plain i = f := funext (hf i)
    rwa [Option.map_map, Option.map_map, hcomp] at hmap
  constructor
  case alive => exact hpart (·.alive) fun _ _ => rfl
  case host => exact hpart (·.host) fun _ _ => rfl
  case engine =>
    intro i
    rw [← World.engine_inGuise (g := .plain), h, World.engine_inGuise]
  case status =>
    intro t
    rw [← World.statusOf_inGuise (g := .plain), h, World.statusOf_inGuise]
  case outcome =>
    intro t
    rw [← World.outcomeOf_inGuise (g := .plain), h, World.outcomeOf_inGuise]
  all_goals injection h

/-! ## Steps and operations -/

theorem Config.step_inGuise (hg : ∀ i h, g.host i h = h) (c : Config) :
    (c.inGuise g).step = c.step.map (Config.inGuise g) := by
  obtain ⟨_ | ⟨x, rest⟩, w⟩ := c
  · rfl
  · simp only [inGuise_mk, step, List.map_cons, Instr.exec_inGuise fun i _ => hg i, Option.map_map]
    exact congrArg (Option.map · _) (funext fun next => (followedBy_inGuise next rest).symm)

theorem Config.run_inGuise (hg : ∀ i h, g.host i h = h) (n : Nat) (c : Config) :
    (c.inGuise g).run n = (c.run n).inGuise g := by
  induction n generalizing c with
  | zero => rfl
  | succ n ih =>
    simp only [run, step_inGuise hg]
    cases c.step with
    | none => rfl
    | some next => exact ih next

theorem World.perform_inGuise (hg : ∀ i h, g.host i h = h) (w : World) (o : Op) :
    (w.inGuise g).perform o = (w.perform o).map (World.inGuise g) := by
  simp only [perform]
  have hrun := Config.run_inGuise hg stepLimit
    ⟨[.op .outside .empty o], { w with reply := none }⟩
  have hdone (c : Config) : (c.inGuise g).isDone = c.isDone := by
    simp [Config.isDone, Config.inGuise]
  rw [show (⟨[.op .outside .empty o], { w.inGuise g with reply := none }⟩ : Config) =
    Config.inGuise g ⟨[.op .outside .empty o], { w with reply := none }⟩ from rfl, hrun, hdone]
  split <;> rfl

/-! ## Reports -/

/-- Monitors and settings do not show in the plain lines of the journal. -/
theorem World.linesOf_plain (w : World) (e : Entry) :
    ((w.inGuise .plain).linesOf (e.inGuise .plain)).filterMap Line.plain? =
      (w.linesOf e).filterMap Line.plain? := by
  cases e with
  | event i e =>
    simp only [Entry.inGuise, linesOf, middlewares_inGuise, Table.get?_mapEach]
    cases w.middlewares.get? i with
    | none => rfl
    | some m =>
      have hmonitored (m : Middleware) : (m.monitored i e).filterMap Line.plain? = [] := by
        unfold Middleware.monitored
        split
        · cases e.visible? <;> rfl
        · rfl
      simp only [Option.map_some, List.filterMap_append, hmonitored, List.nil_append]
      -- The two governed lines are dropped, the other two do not read the settings.
      cases e with
      | uncaught t f =>
        simp only [Middleware.remarks]
        split <;> split <;> rfl
      | queued errand length =>
        simp only [Middleware.remarks]
        split <;> split <;> rfl
      | _ => rfl
  | op name r => cases r <;> rfl
  | _ => rfl

theorem World.linesSince_plain (w : World) (length : Nat) :
    ((w.inGuise .plain).linesSince length).filterMap Line.plain? =
      (w.linesSince length).filterMap Line.plain? := by
  simp only [linesSince, inGuise, List.length_map, ← List.map_take, ← List.map_reverse,
    List.filterMap_flatMap, List.flatMap_map]
  exact congrArg (List.flatMap · _) (funext w.linesOf_plain)

theorem World.stepReport_plain (w : World) (length : Nat) :
    ((w.inGuise .plain).stepReport length).plain = (w.stepReport length).plain := by
  simp only [stepReport, StepReport.plain, linesSince_plain, StepReport.mk.injEq]
  refine ⟨?_, trivial, ?_, ?_, rfl, rfl⟩
  · change ((w.reply.map (Reply.inGuise .plain)).getD .missing).inGuise .plain = _
    cases w.reply with
    | none => rfl
    | some r => cases r <;> rfl
  · simp only [inGuise, Table.values, Table.mapEach, List.map_map]
    rfl
  · exact List.map_congr_left fun e _ => congrArg (Prod.mk e.1) (reportOf_inGuise e.2)

/-- What the reports and the final world of a sequence of operations are in the plain guise. -/
theorem World.performAll_plain (w : World) (os : List Op) :
    ((w.inGuise .plain).performAll os).map (fun r => (r.1.map StepReport.plain, r.2)) =
      (w.performAll os).map fun r => (r.1.map StepReport.plain, r.2.inGuise .plain) := by
  induction os generalizing w with
  | nil => rfl
  | cons o os ih =>
    unfold performAll
    rw [perform_inGuise fun _ _ => rfl]
    cases w.perform o with
    | none => rfl
    | some next =>
      have hlength : (w.inGuise .plain).journal.length = w.journal.length := List.length_map _
      have hreport := next.stepReport_plain w.journal.length
      have hnext := ih next
      simp only [Option.map_some, hlength]
      generalize (next.inGuise .plain).performAll os = r, next.performAll os = r' at hnext ⊢
      cases r <;> cases r' <;> simp_all

/-! ## Scenarios -/

theorem MiddlewareSpec.mapM_setUp_plain {specs : List MiddlewareSpec} {ms : List Middleware}
    (h : List.Forall₂ (fun spec m => spec.setUp = .ok m) specs ms) :
    (specs.map plain).mapM setUp = .ok (ms.map (Middleware.inGuise .plain 0)) := by
  induction h with
  | nil => rfl
  | cons hm _ ih =>
    obtain ⟨settings, rfl⟩ := setUp_eq hm
    rw [List.map_cons, List.mapM_cons, ih]
    rfl

theorem World.addMiddleware_plain (w : World) (m : Middleware) :
    (w.inGuise .plain).addMiddleware (m.inGuise .plain 0) = (w.addMiddleware m).inGuise .plain := by
  simp only [addMiddleware, middlewares_inGuise, Table.size_mapEach]
  exact congrArg (fun t => { w.inGuise .plain with middlewares := t })
    (w.middlewares.insert_mapEach w.middlewares.size m)

theorem World.foldl_addMiddleware_plain (ms : List Middleware) (w : World) :
    (ms.map (Middleware.inGuise .plain 0)).foldl addMiddleware (w.inGuise .plain) =
      (ms.foldl addMiddleware w).inGuise .plain := by
  induction ms generalizing w with
  | nil => rfl
  | cons m ms ih => rw [List.map_cons, List.foldl_cons, List.foldl_cons, addMiddleware_plain, ih]

theorem World.setUpChannel_plain (w : World) (name : String) (c : ChannelSpec) :
    (w.inGuise .plain).setUpChannel name c = (w.setUpChannel name c).inGuise .plain := by
  unfold setUpChannel
  rw [channelNames_inGuise]
  split
  · rfl
  · rfl
  · split <;> rfl

/-- A scenario that can be set up can be set up in the plain guise. -/
theorem Scenario.setUp_plain {s : Scenario} (h : s.setUp = .ok w) :
    s.plain.setUp = .ok (w.inGuise .plain) := by
  obtain ⟨ms, hms, rfl⟩ := setUp_eq h
  have hplain := MiddlewareSpec.mapM_setUp_plain (MiddlewareSpec.mapM_setUp hms)
  have hstart : s.plain.start (ms.map (Middleware.inGuise .plain 0)) = (s.start ms).inGuise .plain := by
    change s.deferreds.foldl World.setUpDeferred
      (s.channels.foldl (fun w c => w.setUpChannel c.1 c.2)
        ((ms.map (Middleware.inGuise .plain 0)).foldl World.addMiddleware
          (World.inGuise .plain { timerSupport := s.timerSupport, scripts := s.scripts }))) = _
    rw [World.foldl_addMiddleware_plain,
      World.foldl_inGuise (fun w c => w.setUpChannel_plain c.1 c.2),
      World.foldl_inGuise (fun _ _ => rfl)]
    rfl
  rw [← hstart]
  change (do
    let middlewares ← (s.middlewares.map MiddlewareSpec.plain).mapM MiddlewareSpec.setUp
    _) = _
  rw [hplain]
  rfl

/-- What a scenario reports in the plain guise. -/
theorem Scenario.run_plain {s : Scenario} (h : s.setUp = .ok w) :
    s.plain.run.plain = s.run.plain := by
  have hall := w.performAll_plain s.steps
  have hsteps : s.plain.steps = s.steps := rfl
  simp only [run, setUp_plain h, h, hsteps]
  generalize (w.inGuise .plain).performAll s.steps = r, w.performAll s.steps = r' at hall ⊢
  cases r <;> cases r' <;> simp_all [ScenarioResult.plain]

/--
Observation does not interfere: two scenarios that differ only in the monitors and the settings
of their middlewares report the same of their steps but for the lines and replies that show
monitors and settings, and any sequence of operations on them runs out of budget in both or in
neither, is reported alike, and ends in worlds that agree.
-/
theorem Scenario.observation_invisible {s s' : Scenario} (hs : s.plain = s'.plain)
    (h : s.setUp = .ok w) (h' : s'.setUp = .ok w') :
    s.run.plain = s'.run.plain ∧ ∀ os : List Op, Option.Rel
      (fun r r' => r.1.map StepReport.plain = r'.1.map StepReport.plain ∧ r.2.Agrees r'.2)
      (w.performAll os) (w'.performAll os) := by
  refine ⟨by rw [← run_plain h, ← run_plain h', hs], fun os => ?_⟩
  have hw : w.inGuise .plain = w'.inGuise .plain :=
    Except.ok.inj ((setUp_plain h).symm.trans (hs ▸ setUp_plain h'))
  have hall := (w.performAll_plain os).symm.trans (hw ▸ w'.performAll_plain os)
  generalize w.performAll os = r, w'.performAll os = r' at hall ⊢
  cases r with
  | none =>
    cases r' with
    | none => exact .none
    | some r' => cases hall
  | some r =>
    cases r' with
    | none => cases hall
    | some r' =>
      obtain ⟨hsteps, hworld⟩ := Prod.mk.inj (Option.some.inj hall)
      exact .some ⟨hsteps, .of_plain hworld⟩

end

/-- A saga fails with nobody around to catch the fault. -/
def Scenario.fails (spec : MiddlewareSpec) : Scenario where
  middlewares := [spec]
  scripts := [("failing", [.fail (.failed "gone")])]
  steps := [.run 0 { source := .named "failing" } none]

/-- A monitor that logs, while uncaught faults are not reported. -/
def MiddlewareSpec.watchful : MiddlewareSpec where
  texts := some [(Settings.logUncaughtKey, "off")]
  monitor := .log

theorem Scenario.observation_invisible_fails :
    ∃ w w', (fails {}).setUp = .ok w ∧ (fails .watchful).setUp = .ok w' ∧
      ((w.performAll (fails {}).steps).map fun r => (r.2.linesSince 0).length) = some 1 ∧
      ((w'.performAll (fails {}).steps).map fun r => (r.2.linesSince 0).length) = some 2 ∧
      (fails {}).run.plain = (fails .watchful).run.plain ∧ ∀ os : List Op, Option.Rel
        (fun r r' => r.1.map StepReport.plain = r'.1.map StepReport.plain ∧ r.2.Agrees r'.2)
        (w.performAll os) (w'.performAll os) := by
  have h : ((fails {}).setUp.toOption.any fun w => decide
      (((w.performAll (fails {}).steps).map fun r => (r.2.linesSince 0).length) = some 1)) =
        true := by
    decide +kernel
  have h' : ((fails .watchful).setUp.toOption.any fun w => decide
      (((w.performAll (fails {}).steps).map fun r => (r.2.linesSince 0).length) = some 2)) =
        true := by
    decide +kernel
  have hok {s : Scenario} {w : World} (h : s.setUp.toOption = some w) : s.setUp = .ok w := by
    cases hs : s.setUp with
    | error f =>
      rw [hs] at h
      cases h
    | ok w' =>
      rw [hs] at h
      cases h
      rfl
  obtain ⟨w, hw, hlines⟩ := (Option.any_eq_true ..).1 h
  obtain ⟨w', hw', hlines'⟩ := (Option.any_eq_true ..).1 h'
  exact ⟨w, w', hok hw, hok hw', of_decide_eq_true hlines, of_decide_eq_true hlines',
    observation_invisible rfl (hok hw) (hok hw')⟩

end SagaMachine
