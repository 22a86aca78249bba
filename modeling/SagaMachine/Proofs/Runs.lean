import Mathlib.Data.List.Forall2
import SagaMachine.Scenario
import SagaMachine.Proofs.Steps

/-!
# Runs of a scenario

A run of a scenario is a run of the machine in which operations from outside come in one
after the other, each of them when nothing is left of the one before. No operation is
excluded, and user code may be given any budget. What a middleware sees of a run is a
sequence of moves from the same start.

Main statements:

* `Scenario.Visits.invariant`: what holds of the view at the start and is kept by every move
  holds of every view in a run.
* `Scenario.Visits.performAll`: whatever a scenario reports was come to in such a run.
-/

namespace SagaMachine

/-- A world in which nothing has happened yet. -/
structure World.Fresh (w : World) : Prop where
  middleware : ∀ i m, w.middlewares.get? i = some m → m.engine = {} ∧ m.alive = true
  channel : ∀ c channel, w.channels.get? c = some channel →
    channel.takers = [] ∧ channel.closed = false
  deferred : ∀ d deferred, w.deferreds.get? d = some deferred →
    deferred = {} ∧ d < w.nextDeferred
  named : ∀ name d, w.deferredNames.get? name = some d → ∃ deferred, w.deferreds.get? d = some deferred
  timers : w.timers = []
  tags : ∀ tag, w.takerTags.get? tag = none
  journal : w.journal = []

/-- A configuration that a scenario can come to. -/
inductive Scenario.Visits (s : Scenario) : Config → Prop
  | start {w : World} (h : s.setUp = .ok w) : s.Visits ⟨[], w⟩
  /-- When nothing is left to be done the next operation may come in. -/
  | call {w : World} (h : s.Visits ⟨[], w⟩) (o : Op) (budget : Nat) :
      s.Visits ⟨[.op .outside .empty o], { w with reply := none, budget }⟩
  | step {c c' : Config} (h : s.Visits c) (hc : c.step = some c') : s.Visits c'

/-- A configuration comes before another one, or is the same, in a run. -/
inductive Config.Precedes (c : Config) : Config → Prop
  | refl : c.Precedes c
  | call {w : World} (h : c.Precedes ⟨[], w⟩) (o : Op) (budget : Nat) :
      c.Precedes ⟨[.op .outside .empty o], { w with reply := none, budget }⟩
  | step {c' c'' : Config} (h : c.Precedes c') (hc : c'.step = some c'') : c.Precedes c''

/-- The world that the operations of a scenario come to, if the budgets allow them. -/
def Scenario.final? (s : Scenario) : Option World :=
  s.setUp.toOption.bind fun w => (w.performAll s.steps).map Prod.snd

/-- Where the machine is after some steps of one more operation. -/
def Scenario.during? (s : Scenario) (o : Op) (n : Nat) : Option Config :=
  s.final?.map fun w => Config.run n ⟨[.op .outside .empty o], { w with reply := none }⟩

/-! ## The start -/

namespace World.Fresh

variable {w : World}

theorem addMiddleware (h : w.Fresh) {m : Middleware} (he : m.engine = {}) (ha : m.alive = true) :
    (w.addMiddleware m).Fresh where
  middleware i m' hm := by
    simp only [World.addMiddleware, Table.get?_insert] at hm
    split at hm
    · cases hm
      exact ⟨he, ha⟩
    · exact h.middleware i m' hm
  channel := h.channel
  deferred := h.deferred
  named := h.named
  timers := h.timers
  tags := h.tags
  journal := h.journal

theorem addChannel (h : w.Fresh) (name : String) (b : Buffer) : (w.addChannel name b).Fresh where
  middleware := h.middleware
  channel c channel hc := by
    simp only [World.addChannel, Table.get?_insert] at hc
    split at hc
    · cases hc
      exact ⟨rfl, rfl⟩
    · exact h.channel c channel hc
  deferred := h.deferred
  named := h.named
  timers := h.timers
  tags := h.tags
  journal := h.journal

theorem setUpChannel (h : w.Fresh) (name : String) (spec : ChannelSpec) :
    (w.setUpChannel name spec).Fresh := by
  unfold World.setUpChannel
  split
  · exact h.addChannel name _
  · exact h.addChannel name _
  · split
    · exact ⟨h.middleware, h.channel, h.deferred, h.named, h.timers, h.tags, h.journal⟩
    · exact h.addChannel name _

theorem setUpDeferred (h : w.Fresh) (name : String) : (w.setUpDeferred name).Fresh where
  middleware := h.middleware
  channel := h.channel
  deferred d deferred hd := by
    simp only [World.setUpDeferred, World.addDeferred, Table.get?_insert] at hd
    split at hd
    · rename_i hdn
      cases hd
      exact ⟨rfl, hdn ▸ Nat.lt_succ_self _⟩
    · obtain ⟨h1, h2⟩ := h.deferred d deferred hd
      exact ⟨h1, Nat.lt_succ_of_lt h2⟩
  named name' d hd := by
    simp only [World.setUpDeferred, World.addDeferred, Table.get?_insert] at hd ⊢
    split at hd
    · cases hd
      exact ⟨{}, if_pos rfl⟩
    · obtain ⟨deferred, he⟩ := h.named name' d hd
      exact ⟨deferred, by rw [if_neg (Nat.ne_of_lt (h.deferred d deferred he).2), he]⟩
  timers := h.timers
  tags := h.tags
  journal := h.journal

theorem foldl {α : Type} {f : World → α → World} {as : List α}
    (hf : ∀ w a, a ∈ as → w.Fresh → (f w a).Fresh) (h : w.Fresh) : (as.foldl f w).Fresh := by
  induction as generalizing w with
  | nil => exact h
  | cons a as ih =>
    exact ih (fun w b hb => hf w b (List.mem_cons_of_mem _ hb)) (hf w a List.mem_cons_self h)

theorem engine (h : w.Fresh) (i : MiddlewareId) : w.engine i = {} := by
  unfold World.engine
  split
  · rename_i m hm
    exact (h.middleware i m hm).1
  · rfl

theorem knows (h : w.Fresh) : w.Knows where
  engine i := by
    rw [h.engine i]
    exact .init _ rfl rfl rfl
  channel c channel hc t ht := by
    rw [(h.channel c channel hc).1] at ht
    cases ht
  listener d deferred hd r hr := by
    rw [(h.deferred d deferred hd).1] at hr
    cases hr

/-- The view of a middleware at the start. -/
theorem view (h : w.Fresh) {i : MiddlewareId} (hi : w.Has i) :
    Config.view ⟨[], w⟩ i = ⟨true, Engine.core {}, [], [], []⟩ := by
  obtain ⟨m, hm⟩ := hi
  obtain ⟨he, ha⟩ := h.middleware i m hm
  simp only [Config.view, World.alive?, World.core, World.engine_of_get? hm, hm, he,
    Option.map_some, ha, World.past, h.journal]
  rfl

end World.Fresh

/-- A middleware that is set up has the host and the monitor of its specification. -/
theorem MiddlewareSpec.setUp_eq {spec : MiddlewareSpec} {m : Middleware} (h : spec.setUp = .ok m) :
    ∃ settings, m = { settings, monitor := spec.monitor, host := spec.host } := by
  unfold setUp at h
  split at h
  · cases h
    exact ⟨_, rfl⟩
  · rename_i texts _
    cases hs : Settings.ofLookup fun key => texts.lookup key with
    | error f =>
      rw [hs] at h
      cases h
    | ok settings =>
      rw [hs] at h
      cases h
      exact ⟨settings, rfl⟩

/-- Middlewares are set up one by one. -/
theorem MiddlewareSpec.mapM_setUp {specs : List MiddlewareSpec} {ms : List Middleware}
    (h : specs.mapM setUp = .ok ms) : List.Forall₂ (fun spec m => spec.setUp = .ok m) specs ms := by
  induction specs generalizing ms with
  | nil =>
    cases h
    exact .nil
  | cons spec specs ih =>
    rw [List.mapM_cons] at h
    cases hs : spec.setUp with
    | error f =>
      rw [hs] at h
      cases h
    | ok m =>
      cases hr : specs.mapM setUp with
      | error f =>
        rw [hs, hr] at h
        cases h
      | ok ms' =>
        rw [hs, hr] at h
        cases h
        exact .cons hs (ih hr)

theorem MiddlewareSpec.mapM_fresh {specs : List MiddlewareSpec} {ms : List Middleware}
    (h : specs.mapM setUp = .ok ms) : ∀ m ∈ ms, m.engine = {} ∧ m.alive = true := by
  have hall := mapM_setUp h
  clear h
  induction hall with
  | nil => exact fun m hm => absurd hm List.not_mem_nil
  | cons hs _ ih =>
    intro m hm
    rcases List.mem_cons.1 hm with rfl | hm
    · obtain ⟨settings, rfl⟩ := setUp_eq hs
      exact ⟨rfl, rfl⟩
    · exact ih m hm

/-- The world that is set up from middlewares. -/
def Scenario.start (s : Scenario) (ms : List Middleware) : World :=
  s.deferreds.foldl World.setUpDeferred
    (s.channels.foldl (fun w c => w.setUpChannel c.1 c.2)
      (ms.foldl World.addMiddleware { timerSupport := s.timerSupport, scripts := s.scripts }))

/-- A scenario sets up its middlewares first. -/
theorem Scenario.setUp_eq {s : Scenario} {w : World} (h : s.setUp = .ok w) :
    ∃ ms, s.middlewares.mapM MiddlewareSpec.setUp = .ok ms ∧ w = s.start ms := by
  unfold setUp at h
  cases hm : s.middlewares.mapM MiddlewareSpec.setUp with
  | error f =>
    rw [hm] at h
    cases h
  | ok ms =>
    rw [hm] at h
    cases h
    exact ⟨ms, rfl, rfl⟩

/-- Nothing has happened yet in the world that a scenario sets up. -/
theorem Scenario.setUp_fresh {s : Scenario} {w : World} (h : s.setUp = .ok w) : w.Fresh := by
  obtain ⟨ms, hms, rfl⟩ := setUp_eq h
  have h0 : World.Fresh { timerSupport := s.timerSupport, scripts := s.scripts } := by
    refine ⟨?_, ?_, ?_, ?_, rfl, fun tag => rfl, rfl⟩
    · intro i m hi
      cases hi
    · intro c channel hc
      cases hc
    · intro d deferred hd
      cases hd
    · intro name d hd
      cases hd
  refine World.Fresh.foldl (fun w name _ hw => hw.setUpDeferred name) ?_
  refine World.Fresh.foldl (fun w c _ hw => hw.setUpChannel c.1 c.2) ?_
  refine World.Fresh.foldl (fun w m hm hw => ?_) h0
  obtain ⟨he, ha⟩ := MiddlewareSpec.mapM_fresh hms m hm
  exact hw.addMiddleware he ha

/-! ## Runs -/

theorem Config.Precedes.run {c c' : Config} (h : c.Precedes c') (n : Nat) : c.Precedes (c'.run n) := by
  induction n generalizing c' with
  | zero => exact h
  | succ n ih =>
    unfold Config.run
    split
    · exact h
    · rename_i hc
      exact ih (h.step hc)

namespace Scenario.Visits

variable {s : Scenario} {c c' : Config} {w w' : World}

theorem knows (h : s.Visits c) : c.Knows := by
  induction h with
  | start h =>
    refine ⟨(setUp_fresh h).knows, Or.inr ?_, ?_⟩
    · intro x hx
      cases hx
    · intro x hx
      cases hx
  | call h o budget ih =>
    refine ⟨⟨ih.world.engine, ih.world.channel, ih.world.listener⟩, Or.inl ⟨o, rfl⟩, ?_⟩
    intro x hx
    cases hx
  | step h hc ih => exact ih.step hc

theorem precedes (h : s.Visits c) (hc : c.Precedes c') : s.Visits c' := by
  induction hc with
  | refl => exact h
  | call _ o budget ih => exact ih.call o budget
  | step _ hc ih => exact ih.step hc

theorem run (h : s.Visits c) (n : Nat) : s.Visits (c.run n) := by
  induction n generalizing c with
  | zero => exact h
  | succ n ih =>
    unfold Config.run
    split
    · exact h
    · rename_i hc
      exact ih (h.step hc)

theorem of_isDone (h : s.Visits c) (hd : c.isDone = true) : s.Visits ⟨[], c.world⟩ := by
  obtain ⟨todo, w⟩ := c
  cases List.isEmpty_iff.1 hd
  exact h

/-- What an operation from outside comes to. -/
theorem perform (h : s.Visits ⟨[], w⟩) {o : Op} (ho : w.perform o = some w') :
    s.Visits ⟨[], w'⟩ := by
  have hr := (h.call o w.budget).run stepLimit
  unfold World.perform at ho
  simp only at ho
  split at ho
  · rename_i hd
    cases ho
    exact hr.of_isDone hd
  · cases ho

/-- What a whole list of operations comes to. -/
theorem performAll (h : s.Visits ⟨[], w⟩) {os : List Op} {r : List StepReport × World}
    (hr : w.performAll os = some r) : s.Visits ⟨[], r.2⟩ := by
  induction os generalizing w r with
  | nil =>
    cases hr
    exact h
  | cons o os ih =>
    unfold World.performAll at hr
    split at hr
    · cases hr
    · rename_i next ho
      obtain ⟨r', hr', rfl⟩ := Option.map_eq_some_iff.1 hr
      exact ih (r := r') (h.perform ho) hr'

theorem of_final? (h : s.final? = some w) : s.Visits ⟨[], w⟩ := by
  obtain ⟨w₀, h₀, h⟩ := Option.bind_eq_some_iff.1 h
  obtain ⟨r, hr, rfl⟩ := Option.map_eq_some_iff.1 h
  refine (start ?_).performAll hr
  cases hs : s.setUp with
  | error f =>
    rw [hs] at h₀
    cases h₀
  | ok w =>
    rw [hs] at h₀
    cases h₀
    rfl

theorem of_during? {o : Op} {n : Nat} (h : s.during? o n = some c) : s.Visits c := by
  obtain ⟨w, hw, rfl⟩ := Option.map_eq_some_iff.1 h
  exact ((of_final? hw).call o w.budget).run n

/--
What holds of the view of a middleware at the start, and is kept by every move, holds of
its view wherever the scenario comes to.
-/
theorem invariant {P : View → Prop} {i : MiddlewareId}
    (start : P ⟨true, Engine.core {}, [], [], []⟩)
    (move : ∀ {v v' : View}, P v → Moves i v v' → P v') (h : s.Visits c) (hi : c.world.Has i) :
    P (c.view i) := by
  induction h with
  | start h =>
    rw [(setUp_fresh h).view hi]
    exact start
  | call h o budget ih => exact ih hi
  | step h hc ih =>
    have hi' := (h.knows.has_iff hc i).1 hi
    exact move (ih hi') (Config.moves_of_step h.knows hi' hc)

end Scenario.Visits

end SagaMachine
