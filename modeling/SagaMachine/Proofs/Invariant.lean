import SagaMachine.Proofs.Frames
import SagaMachine.Proofs.Nests

/-!
# The invariant of an interpreter

What holds of a middleware wherever a run comes to. It has three parts: the frames are
stacked (`Framed`), every task is where something takes care of it (`Orderly`), and the wait
table belongs to the tasks that are parked, but for the effects that are being started
(`Tabled`).

Main definition: `Sound`. That every move keeps it is shown in the next modules.
-/

namespace SagaMachine

/-! ## What frames take care of -/

/-- The task that a cascade is about. -/
def Cascade.task : Cascade → TaskId
  | .abort t _ | .complete t => t

/-- The tasks whose outcome a frame is going to record. -/
def Instr.finishes : Instr → List TaskId
  | .cancelEach _ order _ | .cancelOne _ true order _ => order
  | .cancelOne turn false order _ => turn.task :: order
  | .abortDone turn _ _ | .conclude turn => [turn.task]
  | _ => []

/-- A frame goes on with a task whose body came to its end. -/
def Instr.Closes (t : TaskId) : Instr → Prop
  | .returned turn _ | .abort turn _ => turn.task = t
  | .cascade _ (.abort u _) => u = t
  | _ => False

/-- A frame goes on with a task that holds its value. -/
def Instr.Tends (t : TaskId) : Instr → Prop
  | .abort turn _ => turn.task = t
  | .cascade _ c => c.task = t
  | .cancelEach _ _ cascades | .cancelOne _ _ _ cascades => ∃ c ∈ cascades, c.task = t
  | _ => False

/-- A reaction is on the agenda, or about to be performed. -/
def Owes (i : MiddlewareId) (k : Core) (F : List Instr) (r : Reaction) : Prop :=
  r ∈ k.agenda.stack ∨ r ∈ k.agenda.fresh ∨ .perform i (.reaction r) ∈ F

/-! ## Tasks in order -/

namespace Core

variable (k : Core) (t : TaskId)

/-- The task is terminal, if it is still there. -/
def Doomed : Prop :=
  t < k.nextTask ∧ ∀ p, k.posture t = some p → p.status.isTerminal = true

/-- The task is terminal and without its body, if it is still there. -/
def Stripped : Prop :=
  t < k.nextTask ∧ ∀ p, k.posture t = some p → p.status.isTerminal = true ∧ p.hasBody = false

/-- The body of the task is at work, or has just come to its end. -/
def Afoot : Prop :=
  t < k.nextTask ∧ ∀ p, k.posture t = some p →
    p.hasBody = false ∧ p.result = none ∧ (p.status.isTerminal = false → p.status = .running)

end Core

/-- How a live task stands, and what takes care of it. -/
inductive Standing (i : MiddlewareId) (k : Core) (F : List Instr) (t : TaskId) (p : Posture) : Prop
  | created (hs : p.status = .created) (hb : p.hasBody = true) (hp : p.pending = none)
      (hr : p.result = none) (h : Owes i k F (.start t))
  | yielded (hs : p.status = .suspended) (hb : p.hasBody = true) (hp : p.pending = none)
      (hr : p.result = none) {signal : Signal} (h : Owes i k F (.resume t signal))
  | parked (hs : p.status = .suspended) (hb : p.hasBody = true) {x : EffectId}
      (hp : p.pending = some x) (hr : p.result = none) {w : Wait}
      (h : k.waits.get? x = some w) (ht : w.task = t) (hl : w.link = .task)
  | running (hs : p.status = .running) (hb : p.hasBody = false) (hr : p.result = none)
      (h : k.current = some t ∨ ∃ x ∈ F, x.Closes t)
  | waiting (hb : p.hasBody = false) {v : Value} (hr : p.result = some v)
      (h : (p.status = .suspended ∧ p.children ≠ []) ∨ ∃ x ∈ F, x.Tends t)

/-- A task of the table is in order. -/
structure InOrder (i : MiddlewareId) (k : Core) (F : List Instr) (t : TaskId) (p : Posture) :
    Prop where
  number : t < k.nextTask
  standing : p.status.isTerminal = false → Standing i k F t p
  terminal : p.status.isTerminal = true → k.current = some t ∨ ∃ x ∈ F, t ∈ x.finishes
  children : p.status.isTerminal = false → ∀ c ∈ p.children,
    ∃ q, k.posture c = some q ∧ q.parent = some t ∧ q.detached = false

/-- What a frame relies on. -/
def Instr.Relies (k : Core) : Instr → Prop
  | .begun turn _ _ .halt | .leave turn _ .halted => ¬ k.Live turn.task
  | .leave turn _ _ => k.Live turn.task
  | .returned turn _ => k.Afoot turn.task
  | .abortDone turn _ _ | .conclude turn => k.Stripped turn.task
  | .cancelEach _ order _ => ∀ t ∈ order, k.Doomed t
  | .cancelOne turn _ order _ => k.Stripped turn.task ∧ ∀ t ∈ order, k.Doomed t
  | _ => True

/-- Every task of the table is in order, and so are the frames that work on them. -/
structure Orderly (i : MiddlewareId) (k : Core) (F : List Instr) : Prop where
  tasks : ∀ {t p}, k.posture t = some p → InOrder i k F t p
  frames : ∀ x ∈ F, x.Relies k
  driver : ∀ {t}, k.current = some t → k.Afoot t ∧ ∃ p, k.posture t = some p
  halted : k.halted ≠ none → (∃ t, k.current = some t ∧ ¬ k.Live t) ∨ ∃ turn, .conclude turn ∈ F

/-! ## Effects that are being started -/

/-- No task is parked on an effect, or was. -/
def Core.Unused (k : Core) (id : EffectId) : Prop :=
  ∀ t p, k.posture t = some p → p.pending ≠ some id

/-- An effect that was started is not yet named by the combinator around it, or by its task. -/
def Core.Adrift (k : Core) (t : TaskId) (nests : List Nest) (id : EffectId) : Prop :=
  Inside nests id ∧ k.Unused id ∧
    ∃ w, k.waits.get? id = some w ∧ w.task = t ∧ w.link = Nest.link nests

/-- The combinators that a frame is starting. -/
def Instr.nests : Instr → List Nest
  | .trigger _ _ nests _ | .answer _ _ nests _ _ _ | .cancelDone _ _ nests _
  | .begun _ _ nests _ => nests
  | _ => []

/-- The effect that a frame has started. -/
def Instr.begun? : Instr → Option EffectId
  | .begun _ _ _ (.pending id) | .leave _ _ (.suspended id) => some id
  | _ => none

/-- The effects that a frame has at hand. -/
def Instr.loose (x : Instr) : List EffectId := x.begun?.toList ++ x.nests.map Nest.id

/-- The effects that the frames have at hand. -/
def looseOf (F : List Instr) : List EffectId := F.flatMap Instr.loose

/-- What a frame of the step of a task relies on. -/
def Instr.Starts (k : Core) : Instr → Prop
  | .trigger turn _ nests _ => Open k.waits turn.task nests
  | .answer turn _ nests id _ _ | .cancelDone turn _ nests id =>
    Open k.waits turn.task nests ∧ Inside nests id ∧ k.Unused id ∧ id < k.nextEffect ∧
      k.waits.get? id = none
  | .begun turn _ nests (.pending id) =>
    Open k.waits turn.task nests ∧ k.Adrift turn.task nests id
  | .begun turn _ nests _ => Open k.waits turn.task nests
  | .leave turn _ (.suspended id) => k.Adrift turn.task [] id
  | _ => True

/-! ## The invariant -/

/--
The wait table is a forest of complete combinators whose roots are what tasks are parked
on; only what the frames have at hand is excepted.
-/
structure Tabled (k : Core) (F : List Instr) (past : List Event) : Prop where
  forest : Waits.Forest k.waits (looseOf F) .task
  whole : ∀ {x w}, k.waits.get? x = some w → (∀ y ∈ F, x ∉ y.nests.map Nest.id) → w.kind.Whole
  rooted : ∀ {x w}, k.waits.get? x = some w → w.link = .task → x ∉ looseOf F →
    ∃ p, k.posture w.task = some p ∧ p.hasBody = true ∧ p.pending = some x
  pending : ∀ {t p x w}, k.posture t = some p → p.pending = some x → k.waits.get? x = some w →
    w.task = t ∧ w.link = .task ∧ x ∉ looseOf F
  number : ∀ {x w}, k.waits.get? x = some w → x < k.nextEffect
  parked : ∀ {t p x}, k.posture t = some p → p.pending = some x → x < k.nextEffect
  named : ∀ {t x p e}, .triggered t x p e ∈ past → x < k.nextEffect
  leaf : ∀ {x w}, k.waits.get? x = some w → LeafName past x → w.kind.IsLeaf
  frames : ∀ x ∈ F, x.Starts k

/-- What holds of a middleware wherever a run comes to. -/
structure Sound (i : MiddlewareId) (v : View) : Prop where
  framed : Framed i v
  orderly : Orderly i v.core v.frames
  tabled : v.alive = true → Tabled v.core v.frames v.past

theorem Orderly.start (i : MiddlewareId) : Orderly i (Engine.core {}) [] where
  tasks h := by cases h
  frames x hx := by cases hx
  driver h := by cases h
  halted h := absurd rfl h

theorem Tabled.start : Tabled (Engine.core {}) [] [] where
  forest := .empty
  whole h := by cases h
  rooted h := by cases h
  pending h := by cases h
  number h := by cases h
  parked h := by cases h
  named h := by cases h
  leaf h := by cases h
  frames x hx := by cases hx

theorem Sound.start (i : MiddlewareId) : Sound i ⟨true, Engine.core {}, [], [], []⟩ where
  framed := .start i
  orderly := .start i
  tabled _ := .start

end SagaMachine
