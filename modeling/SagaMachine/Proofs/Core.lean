import SagaMachine.Transitions

/-!
# The core of an engine

The control of an engine depends on little of its state: which tasks there are and how
each of them stands (`Posture`), the wait table, the agenda, and a few marks. This part
is its `Core`. What takers, joiners and listeners are registered where is left out, and
so are the bodies themselves, so the core changes only where control does.

The lemmas say what each transition of the interpreter does to the core of every engine.
-/

namespace SagaMachine

/-- How a task stands. -/
structure Posture where
  parent : Option TaskId
  detached : Bool
  children : List TaskId
  status : Status
  /-- The body is at rest with the task; it is neither running nor over. -/
  hasBody : Bool
  pending : Option EffectId
  result : Option Value

/-- The part of an engine that its control depends on. -/
structure Core where
  posture : TaskId → Option Posture
  waits : Waits
  agenda : Agenda
  driving : Bool
  current : Option TaskId
  halted : Option Outcome
  nextTask : TaskId
  nextEffect : EffectId

/-- How a task of the table stands. -/
def TaskNode.posture (n : TaskNode) : Posture where
  parent := n.parent
  detached := n.detached
  children := n.children
  status := n.status
  hasBody := n.body.isSome
  pending := n.pending
  result := n.result

/-- The core of an engine. -/
def Engine.core (e : Engine) : Core where
  posture t := (e.tasks.get? t).map TaskNode.posture
  waits := e.waits
  agenda := e.agenda
  driving := e.driving
  current := e.current
  halted := e.halted
  nextTask := e.nextTask
  nextEffect := e.nextEffect

namespace Core

variable (k : Core)

/-- A task that is in the table and not terminal. -/
def Live (t : TaskId) : Prop := ∃ p, k.posture t = some p ∧ p.status.isTerminal = false

/-- Change how a task stands. -/
def alter (t : TaskId) (f : Posture → Posture) : Core :=
  { k with posture := fun u => if u = t then (k.posture t).map f else k.posture u }

/-- Take a task out of the table. -/
def remove (t : TaskId) : Core :=
  { k with posture := fun u => if u = t then none else k.posture u }

/-- Add a task. -/
def add (t : TaskId) (p : Posture) : Core :=
  { k with posture := fun u => if u = t then some p else k.posture u }

/-- Schedule reactions. -/
def schedule (rs : List Reaction) : Core :=
  { k with agenda := { k.agenda with fresh := k.agenda.fresh ++ rs } }

@[simp] theorem posture_alter (t u : TaskId) (f : Posture → Posture) :
    (k.alter t f).posture u = if u = t then (k.posture t).map f else k.posture u := rfl

/-- Changing nothing. -/
theorem alter_id (t : TaskId) : k.alter t (fun p => p) = k := by
  simp only [alter]
  congr 1
  funext u
  by_cases hu : u = t <;> simp [hu]

@[simp] theorem posture_remove (t u : TaskId) :
    (k.remove t).posture u = if u = t then none else k.posture u := rfl

@[simp] theorem posture_add (t u : TaskId) (p : Posture) :
    (k.add t p).posture u = if u = t then some p else k.posture u := rfl

@[simp] theorem posture_schedule (rs : List Reaction) : (k.schedule rs).posture = k.posture :=
  rfl

@[simp] theorem schedule_nil : k.schedule [] = k := by
  simp [schedule]

@[simp] theorem schedule_schedule (rs rs' : List Reaction) :
    (k.schedule rs).schedule rs' = k.schedule (rs ++ rs') := by
  simp [schedule]

end Core

theorem Engine.core_modify (e : Engine) (t : TaskId) (f : TaskNode → TaskNode)
    (g : Posture → Posture) (h : ∀ n, (f n).posture = g n.posture) :
    ({ e with tasks := e.tasks.modify t f } : Engine).core = e.core.alter t g := by
  simp only [core, Core.alter, Core.mk.injEq, and_self, and_true]
  funext u
  rw [Table.get?_modify]
  by_cases hu : u = t
  · subst hu
    cases e.tasks.get? u <;> simp [h]
  · simp [hu]

namespace World

/-- The core of the engine of a middleware. -/
def core (w : World) (i : MiddlewareId) : Core := (w.engine i).core

/-- There is such a middleware. -/
def Has (w : World) (i : MiddlewareId) : Prop := ∃ m, w.middlewares.get? i = some m

/-- Whether a middleware is alive; nothing if there is no such middleware. -/
def alive? (w : World) (i : MiddlewareId) : Option Bool :=
  (w.middlewares.get? i).map (·.alive)

/-- What the interpreter of a middleware did, latest first. -/
def past (w : World) (i : MiddlewareId) : List Event :=
  w.journal.filterMap fun
    | .event j e => if j = i then some e else none
    | _ => none

variable {w w' w'' : World} {i j : MiddlewareId}

theorem engine_of_get? {m : Middleware} (h : w.middlewares.get? i = some m) :
    w.engine i = m.engine := by
  simp [engine, h]

theorem has_iff : w.Has i ↔ (w.alive? i).isSome := by
  cases h : w.middlewares.get? i <;> simp [Has, alive?, h]

/-! ## Changes that do not concern a middleware -/

/-- Nothing has changed for the interpreter of a middleware. -/
structure Untouched (i : MiddlewareId) (w w' : World) : Prop where
  engine : w'.engine i = w.engine i
  past : w'.past i = w.past i
  alive : w'.alive? i = w.alive? i

namespace Untouched

theorem refl (i : MiddlewareId) (w : World) : Untouched i w w := ⟨rfl, rfl, rfl⟩

theorem trans (h : Untouched i w w') (h' : Untouched i w' w'') : Untouched i w w'' :=
  ⟨h'.engine.trans h.engine, h'.past.trans h.past, h'.alive.trans h.alive⟩

theorem core (h : Untouched i w w') : w'.core i = w.core i := by
  rw [World.core, World.core, h.engine]

theorem has (h : Untouched i w w') : w'.Has i ↔ w.Has i := by
  rw [has_iff, has_iff, h.alive]

/-- A change elsewhere in the world. -/
theorem of_eq (hm : w'.middlewares = w.middlewares) (hj : w'.journal = w.journal) :
    Untouched i w w' := by
  refine ⟨?_, ?_, ?_⟩
  · simp only [World.engine, hm]
  · simp only [World.past, hj]
  · simp only [alive?, hm]

theorem foldl {α : Type} {f : World → α → World} (h : ∀ w a, Untouched i w (f w a))
    (w : World) (as : List α) : Untouched i w (as.foldl f w) := by
  induction as generalizing w with
  | nil => exact refl i w
  | cons a as ih => exact (h w a).trans (ih _)

end Untouched

/-- An entry of the journal that is no event of an interpreter. -/
def IsForeign : Entry → Prop
  | .event .. => False
  | _ => True

theorem untouched_enter {e : Entry} (h : IsForeign e) : Untouched i w (w.enter e) := by
  refine ⟨rfl, ?_, rfl⟩
  cases e with
  | event => exact h.elim
  | _ => rfl

theorem untouched_enterNotes (notes : List Note) : Untouched i w (w.enterNotes notes) :=
  Untouched.foldl (fun _ n => untouched_enter (e := .note n) trivial) w notes

theorem untouched_setEngine (h : i ≠ j) (f : Engine → Engine) :
    Untouched i w (w.setEngine j f) := by
  refine ⟨?_, rfl, ?_⟩
  · simp [engine, setEngine, h]
  · simp [alive?, setEngine, h]

theorem untouched_record (h : i ≠ j) (e : Event) : Untouched i w (w.record j e) := by
  have h' : ¬ j = i := fun h' => h h'.symm
  exact ⟨rfl, by simp [past, record, enter, h'], rfl⟩

theorem untouched_stopTimer (id : Option TimerId) : Untouched i w (w.stopTimer id) := by
  cases id with
  | none => exact .refl i w
  | some id => exact .of_eq rfl rfl

theorem untouched_unsubscribe (d : DeferredId) : Untouched i w (w.unsubscribe d) := by
  unfold unsubscribe
  split
  · exact .refl i w
  · refine Untouched.trans ?_ (untouched_stopTimer _)
    exact .of_eq rfl rfl

theorem untouched_wakeWatches (t : TaskRef) : Untouched i w (w.wakeWatches t) :=
  .of_eq rfl rfl

theorem untouched_putChannel (c : ChannelId) (channel : Channel Sink) (v : Value) :
    Untouched i w (w.putChannel c channel v).2 := by
  unfold putChannel
  have h : Untouched i w
      { w.enterNotes (channel.putNotes v) with
        channels := (w.enterNotes (channel.putNotes v)).channels.insert c (channel.put v).2 } :=
    (untouched_enterNotes _).trans (.of_eq rfl rfl)
  simp only
  split
  · exact h
  · exact h
  · exact h.trans (untouched_enter trivial)
  · exact h.trans (untouched_enter trivial)

theorem untouched_takeChannel (c : ChannelId) (channel : Channel Sink) (p : Pattern)
    (sink : Sink) : Untouched i w (w.takeChannel c channel p sink).2 := by
  refine Untouched.trans (untouched_enterNotes (channel.takeNotes p)) ?_
  exact .of_eq rfl rfl

theorem untouched_addDeferred (d : Deferred EffectRef) : Untouched i w (w.addDeferred d).2 :=
  .of_eq rfl rfl

theorem untouched_addTimer (ms : Nat) (a : Answer) : Untouched i w (w.addTimer ms a).2 := by
  unfold addTimer
  split
  · exact untouched_addDeferred _
  · exact (untouched_enter (e := .timersUnavailable) trivial).trans (untouched_addDeferred _)
  · exact (untouched_addDeferred { timer := some w.nextTimer }).trans (.of_eq rfl rfl)

/-! ## Changes of one engine -/

theorem engine_setEngine (h : w.Has i) (f : Engine → Engine) :
    (w.setEngine i f).engine i = f (w.engine i) := by
  obtain ⟨m, hm⟩ := h
  simp [engine, setEngine, hm]

@[simp] theorem alive_setEngine {f : Engine → Engine} :
    (w.setEngine j f).alive? i = w.alive? i := by
  simp only [alive?, setEngine, Table.get?_modify]
  by_cases h : i = j
  · subst h
    cases w.middlewares.get? i <;> simp
  · simp [h]

@[simp] theorem past_record (e : Event) : (w.record i e).past i = e :: w.past i := by
  simp [past, record, enter]

end World

end SagaMachine
