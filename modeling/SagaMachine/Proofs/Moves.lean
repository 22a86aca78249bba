import SagaMachine.Machine.Run
import SagaMachine.Proofs.Forest
import SagaMachine.Proofs.Transitions

/-!
# Moves of one interpreter

Seen from one middleware, a run of the machine is a sequence of moves. The view of a
middleware (`View`) has the core of its engine, the instructions that work on this engine
(its frames), the bodies of its tasks that are about to be dropped, and its past events.

A move carries out the first frame (`Does`), or user code intervenes (`Intervenes`); then
the other frames are left alone. User code gets in between only where no frame demands to
be carried out at once (`Instr.Urgent`).

Main definitions: `Does`, `Intervenes`, `Moves`. That every step of the machine is a move
of every middleware is shown in the next modules.
-/

namespace SagaMachine

/-! ## Views -/

/-- The middleware on whose engine an instruction works. -/
def Instr.owner? : Instr → Option MiddlewareId
  | .drain i | .perform i _ | .schedule i _ | .cascade i _ | .cancel i _ | .cancelEach i _ _
  | .emit i _ _ | .forwarded i _ _ => some i
  | .poll turn _ _ | .advance turn _ _ | .polled turn _ _ | .trigger turn _ _ _
  | .answer turn _ _ _ _ _ | .cancelDone turn _ _ _ | .begun turn _ _ _ | .leave turn _ _
  | .returned turn _ | .abort turn _ | .abortDone turn _ _ | .conclude turn
  | .cancelOne turn _ _ _ => some turn.mw
  | .dropBody .. | .deliver .. | .guards _ | .ops .. | .op .. | .reply .. | .started ..
  | .registered .. | .moveClock _ => none

/-- The task whose body an instruction drops, in a middleware. -/
def Instr.drops? (i : MiddlewareId) : Instr → Option TaskId
  | .dropBody turn _ => if turn.mw = i then some turn.task else none
  | _ => none

/-- An instruction that is carried out as soon as it is there. -/
def Instr.Urgent : Instr → Prop
  | .perform .. | .poll .. | .trigger .. | .begun .. | .leave .. => True
  | _ => False

/-- What a run looks like to a middleware. -/
structure View where
  /-- The middleware was not dropped. -/
  alive : Bool
  core : Core
  /-- The instructions that work on the engine. -/
  frames : List Instr
  /-- The tasks whose bodies are about to be dropped. -/
  drops : List TaskId
  /-- The events so far, latest first. -/
  past : List Event

/-- The frames of a middleware among some instructions. -/
def framesOf (i : MiddlewareId) (todo : List Instr) : List Instr :=
  todo.filter fun x => x.owner? = some i

/-- The tasks of a middleware whose bodies some instructions drop. -/
def dropsOf (i : MiddlewareId) (todo : List Instr) : List TaskId :=
  todo.filterMap (Instr.drops? i)

/-- The view of a middleware. -/
def Config.view (c : Config) (i : MiddlewareId) : View where
  alive := c.world.alive? i = some true
  core := c.world.core i
  frames := framesOf i c.todo
  drops := dropsOf i c.todo
  past := c.world.past i

/-! ## Effects and their names -/

/-- What the start of a combinator with members puts into the wait table, its first member and
the others. -/
def Effect.fan? : Effect → Option (WaitKind × Effect × List Effect)
  | .race members =>
    match Effect.duplicateKey? members, members.map Prod.snd with
    | none, e :: es =>
      some (.race (some (members.map Prod.fst)) ((e :: es).map fun _ => none), e, es)
    | _, _ => none
  | .racePositional (e :: es) => some (.race none ((e :: es).map fun _ => none), e, es)
  | .all (e :: es) =>
    some (.all ((e :: es).map fun _ => none) ((e :: es).map fun _ => none) (es.length + 1), e, es)
  | _ => none

/-- The nest of a combinator whose first member is being started. -/
def WaitKind.nest (kind : WaitKind) (id : EffectId) (rest : List Effect) : Nest :=
  match kind with
  | .all .. => .all id 0 rest
  | _ => .race id 0 rest

/-- What an effect without members waits for, if it is left pending. -/
def Effect.Awaits : Effect → WaitKind → Prop
  | .take source _, .take source' _ => source' = source
  | .put _, .put => True
  | .call .., .call _ => True
  | .join target, .join t => t = target.id
  | _, _ => False

theorem Effect.Awaits.isLeaf {e : Effect} {kind : WaitKind} (h : e.Awaits kind) : kind.IsLeaf := by
  cases kind with
  | race | all => cases e <;> exact h.elim
  | _ => trivial

/-- What an effect waits for, if it is left pending: the source of its kind, or its members. -/
structure Effect.Suspends (e : Effect) (kind : WaitKind) : Prop where
  awaits : e.fan? = none → e.Awaits kind
  leaf : kind.IsLeaf → e.fan? = none

/-- An effect that was triggered, and has no members. -/
def LeafName (past : List Event) (id : EffectId) : Prop :=
  ∃ t p e, .triggered t id p e ∈ past ∧ e.fan? = none

/-- Reactions that settle effects without members. -/
def Settling (past : List Event) (rs : List Reaction) : Prop :=
  ∀ r ∈ rs, ∃ id signal, r = .settle id signal ∧ LeafName past id

/-- Events that are not about tasks or effects. -/
def Quiet (es : List Event) : Prop := ∀ e ∈ es, e.IsQuiet

namespace Core

/-- More work is put on the agenda. -/
def grow (k : Core) (rs : List Reaction) (errands : List Errand) : Core :=
  { k with agenda :=
    { k.agenda with fresh := k.agenda.fresh ++ rs, errands := k.agenda.errands ++ errands } }

theorem grow_nil (k : Core) : k.grow [] [] = k := by simp [grow]

theorem grow_reactions (k : Core) (rs : List Reaction) : k.grow rs [] = k.schedule rs := by
  simp [grow, schedule]

theorem grow_errand (k : Core) (e : Errand) :
    k.grow [] [e] = { k with agenda := k.agenda.queue e } := by
  simp [grow, Agenda.queue]

/-- The step of a task is under way. -/
def enterTurn (k : Core) (t : TaskId) : Core :=
  { k.alter t fun p => { p with hasBody := false, status := .running } with current := some t }

/-- A body is parked. -/
def park (k : Core) (t : TaskId) (pending : Option EffectId) : Core :=
  { k with current := none }.alter t fun p =>
    { p with hasBody := true, pending, status := .suspended }

/-- An effect gets the next number. -/
def number (k : Core) : Core := { k with nextEffect := k.nextEffect + 1 }

/-- An effect is left pending. -/
def suspend (k : Core) (t : TaskId) (nests : List Nest) (id : EffectId) (kind : WaitKind) : Core :=
  { k with waits := k.waits.insert id { task := t, link := Nest.link nests, kind } }

/-- Some effects, and everything below them, are withdrawn. -/
def withdraw (k : Core) (ids : List EffectId) : Core :=
  { k with waits := (Waits.detach k.waits ids).2 }

/-- The events of a withdrawal. -/
def withdrawn (k : Core) (ids : List EffectId) : List Event :=
  (Waits.detach k.waits ids).1.map Passage.event

/-- Tasks become terminal. -/
def cancelAll (k : Core) (order : List TaskId) : Core :=
  order.foldl (fun k t => k.alter t fun p => { p with status := .cancelled }) k

/-- Only how tasks stand changes. -/
theorem cancelAll_eq (k : Core) (order : List TaskId) :
    k.cancelAll order = { k with posture := (k.cancelAll order).posture } := by
  unfold cancelAll
  induction order generalizing k with
  | nil => rfl
  | cons t order ih => exact ih (k.alter t _)

end Core

/-! ## Moves -/

/-- The answer a body is polled with, unless the signal ends it. -/
def opening : Option Signal → Option (Option Answer)
  | none => some none
  | some (.value v) => some (some (.ok v))
  | some (.fault f) => some (some (.error f))
  | some .ended => none

section

variable (i : MiddlewareId) (past : List Event)

/-- A task is stepped, if it stands where the signal expects it. -/
inductive Begins (k : Core) (t : TaskId) (expected : Option EffectId) (signal : Option Signal) :
    Core → List Instr → Prop
  | skip (h : ∀ p, k.posture t = some p →
      p.status.isTerminal = true ∨ p.pending ≠ expected ∨ p.hasBody = false) :
      Begins k t expected signal k []
  | poll {p : Posture} (hp : k.posture t = some p) (live : p.status.isTerminal = false)
      (parked : p.pending = expected) (body : p.hasBody = true) (b : Body)
      {a : Option Answer} (ha : opening signal = some a) :
      Begins k t expected signal (k.enterTurn t) [.poll ⟨i, t⟩ b a]
  | leave {p : Posture} (hp : k.posture t = some p) (live : p.status.isTerminal = false)
      (parked : p.pending = expected) (body : p.hasBody = true) (b : Body)
      (ha : opening signal = none) :
      Begins k t expected signal (k.enterTurn t) [.leave ⟨i, t⟩ b .ended]

/-- The outcome of a task is recorded, unless the task is gone. -/
inductive Buries (k : Core) (t : TaskId) (outcome : Outcome) :
    Core → Option Cascade → List Event → Prop
  | absent (h : k.posture t = none) : Buries k t outcome k none []
  | gone {p : Posture} (h : k.posture t = some p) {rs : List Reaction} (hs : Settling past rs)
      {es : List Event} (hq : Quiet es) :
      Buries k t outcome ((k.bury t).schedule rs) (k.cascade t outcome)
        (.taskFinished t outcome :: es)

/-- What is done about the body of a task that is torn down. -/
def dropped (t : TaskId) (hasBody : Bool) : List TaskId := if hasBody then [t] else []

/-- A job that an errand leaves behind. -/
def Instr.IsJob : Instr → Prop
  | .emit _ _ (.caller _) | .forwarded _ _ (.caller _) => False
  | .emit .. | .forwarded .. | .schedule .. => True
  | _ => False

/-- The script of a task goes on within a poll. -/
def Instr.IsScript (turn : Turn) : Instr → Prop
  | .advance u _ _ | .polled u _ _ => u = turn
  | _ => False

/--
What an instruction of middleware `i` does: from which core to which, which frames take its
place, the bodies of which tasks are about to be dropped, and what happens.
-/
inductive Does : Instr → Core → Core → List Instr → List TaskId → List Event → Prop
  -- the driver
  | rest {k} (h : k.agenda.next? = none) :
      Does (.drain i) k { k with agenda := k.agenda.flush, driving := false } [] [] []
  | next {k job agenda} (h : k.agenda.next? = some (job, agenda)) :
      Does (.drain i) k { k with agenda } [.perform i job, .drain i] [] []
  | start {k t k' G} (h : Begins i k t none none k' G) :
      Does (.perform i (.reaction (.start t))) k k' G [] []
  | resume {k t signal k' G} (h : Begins i k t none (some signal) k' G) :
      Does (.perform i (.reaction (.resume t signal))) k k' G [] []
  | settle {k id signal} (hn : LeafName past id)
      (h : (Waits.settle k.waits id signal).wakeup = none) :
      Does (.perform i (.reaction (.settle id signal))) k
        { k with waits := (Waits.settle k.waits id signal).waits } [] []
        ((Waits.settle k.waits id signal).passages.map Passage.event)
  | wake {k id signal u k' G} (hn : LeafName past id)
      (h : (Waits.settle k.waits id signal).wakeup = some u)
      (hb : Begins i { k with waits := (Waits.settle k.waits id signal).waits } u.task
        (some u.effect) (some u.signal) k' G) :
      Does (.perform i (.reaction (.settle id signal))) k k' G []
        ((Waits.settle k.waits id signal).passages.map Passage.event)
  | errand {k e G rs es} (hG : G = [] ∨ ∃ g : Instr, G = [g] ∧ g.IsJob) (hs : Settling past rs)
      (hq : Quiet es) : Does (.perform i (.errand e)) k (k.schedule rs) G [] es
  | schedule {k r} (hs : Settling past [r]) : Does (.schedule i r) k (k.schedule [r]) [] [] []
  | emit {k a sender es} (hq : Quiet es) :
      Does (.emit i a sender) k k [.forwarded i a sender] [] es
  | forwarded {k a sender rs es} (hc : ∀ site, sender ≠ .caller site) (hs : Settling past rs)
      (hq : Quiet es) : Does (.forwarded i a sender) k (k.schedule rs) [] [] es
  | forwardedCall {k a site rs es} (hs : Settling past rs) (hq : Quiet es) :
      Does (.forwarded i a (.caller site)) k (k.schedule rs) [.drain i] [] es
  -- polls
  | poll {k t b a g} (hg : g.IsScript ⟨i, t⟩) :
      Does (.poll ⟨i, t⟩ b a) k k [g] [] [.polled t a]
  | advance {k t s m g} (hg : g.IsScript ⟨i, t⟩) : Does (.advance ⟨i, t⟩ s m) k k [g] [] []
  | polledHalted {k t b step} (h : ¬ k.Live t) :
      Does (.polled ⟨i, t⟩ b step) k k [.leave ⟨i, t⟩ b .halted] [] []
  | polledComplete {k t b a} (h : k.Live t) :
      Does (.polled ⟨i, t⟩ b (.complete a)) k k [.leave ⟨i, t⟩ b (.finished a)] [] []
  | polledYielded {k t b e} (h : k.Live t) :
      Does (.polled ⟨i, t⟩ b (.yielded e)) k k [.trigger ⟨i, t⟩ b [] e] [] []
  -- the start of effects
  | triggerHalted {k t b nests e} (h : ¬ k.Live t) :
      Does (.trigger ⟨i, t⟩ b nests e) k k [.begun ⟨i, t⟩ b nests .halt] [] []
  | triggerSettles {k t b nests e signal es} (h : k.Live t) (he : e.fan? = none) (hq : Quiet es) :
      Does (.trigger ⟨i, t⟩ b nests e) k k.number [.begun ⟨i, t⟩ b nests (.immediate signal)] []
        (.triggered t k.nextEffect (Nest.link nests).parent? e :: es ++
          [.settled k.nextEffect signal])
  | triggerForks {k t b nests e} (h : k.Live t) (he : e.fan? = none) (saga : String)
      (detached : Bool) (v : Value) :
      Does (.trigger ⟨i, t⟩ b nests e) k
        ((k.number.create (some t) detached).schedule [.start k.nextTask])
        [.begun ⟨i, t⟩ b nests (.immediate (.value v))] []
        [.triggered t k.nextEffect (Nest.link nests).parent? e,
          .taskStarted k.nextTask (some t) saga, .settled k.nextEffect (.value v)]
  | triggerSuspends {k t b nests e kind rs errands es} (h : k.Live t) (he : e.fan? = none)
      (hk : e.Awaits kind)
      (hs : Settling (.triggered t k.nextEffect (Nest.link nests).parent? e :: past) rs)
      (hq : Quiet es) :
      Does (.trigger ⟨i, t⟩ b nests e) k
        ((k.number.suspend t nests k.nextEffect kind).grow rs errands)
        [.begun ⟨i, t⟩ b nests (.pending k.nextEffect)] []
        (.triggered t k.nextEffect (Nest.link nests).parent? e :: es)
  | triggerCalls {k t b nests e} (h : k.Live t) (he : e.fan? = none) (result : AnswerExpr)
      (env : Env) :
      Does (.trigger ⟨i, t⟩ b nests e) k k.number
        [.answer ⟨i, t⟩ b nests k.nextEffect result env] []
        [.triggered t k.nextEffect (Nest.link nests).parent? e]
  | triggerCancels {k t b nests e} (h : k.Live t) (he : e.fan? = none) (u : TaskId) :
      Does (.trigger ⟨i, t⟩ b nests e) k k.number
        [.cancel i u, .cancelDone ⟨i, t⟩ b nests k.nextEffect] []
        [.triggered t k.nextEffect (Nest.link nests).parent? e]
  | triggerOpens {k t b nests e kind e₀ es} (h : k.Live t) (he : e.fan? = some (kind, e₀, es)) :
      Does (.trigger ⟨i, t⟩ b nests e) k (k.number.suspend t nests k.nextEffect kind)
        [.trigger ⟨i, t⟩ b (kind.nest k.nextEffect es :: nests) e₀] []
        [.triggered t k.nextEffect (Nest.link nests).parent? e]
  | answerSettles {k t b nests id result env signal} :
      Does (.answer ⟨i, t⟩ b nests id result env) k k [.begun ⟨i, t⟩ b nests (.immediate signal)]
        [] [.settled id signal]
  | answerSuspends {k t b nests id result env d rs} (hs : Settling past rs) :
      Does (.answer ⟨i, t⟩ b nests id result env) k ((k.suspend t nests id (.call d)).schedule rs)
        [.begun ⟨i, t⟩ b nests (.pending id)] [] []
  | cancelHalted {k t b nests id} (h : ¬ k.Live t) :
      Does (.cancelDone ⟨i, t⟩ b nests id) k k [.begun ⟨i, t⟩ b nests .halt] [] []
  | cancelSettles {k t b nests id} (h : k.Live t) :
      Does (.cancelDone ⟨i, t⟩ b nests id) k k
        [.begun ⟨i, t⟩ b nests (.immediate (.value .unit))] [] [.settled id (.value .unit)]
  -- the body goes on after the start of its effect
  | begunHalt {k t b} : Does (.begun ⟨i, t⟩ b [] .halt) k k [.leave ⟨i, t⟩ b .halted] [] []
  | begunWithdraws {k t b id} (h : ¬ k.Live t) :
      Does (.begun ⟨i, t⟩ b [] (.pending id)) k (k.withdraw [id]) [.leave ⟨i, t⟩ b .halted] []
        (k.withdrawn [id])
  | begunSuspends {k t b id} (h : k.Live t) :
      Does (.begun ⟨i, t⟩ b [] (.pending id)) k k [.leave ⟨i, t⟩ b (.suspended id)] [] []
  | begunHalted {k t b signal} (h : ¬ k.Live t) :
      Does (.begun ⟨i, t⟩ b [] (.immediate signal)) k k [.leave ⟨i, t⟩ b .halted] [] []
  | begunEnds {k t b} (h : k.Live t) :
      Does (.begun ⟨i, t⟩ b [] (.immediate .ended)) k k [.leave ⟨i, t⟩ b .ended] [] []
  | begunPolls {k t b signal a} (h : k.Live t) (ha : opening (some signal) = some (some a))
      (hf : k.agenda.fresh = []) :
      Does (.begun ⟨i, t⟩ b [] (.immediate signal)) k k [.poll ⟨i, t⟩ b (some a)] [] []
  | begunYields {k t b signal a} (h : k.Live t) (ha : opening (some signal) = some (some a))
      (hf : k.agenda.fresh ≠ []) :
      Does (.begun ⟨i, t⟩ b [] (.immediate signal)) k k [.leave ⟨i, t⟩ b (.yielded signal)] [] []
  -- a combinator goes on after the start of a member
  | raceHalt {k t b id slot rest nests} :
      Does (.begun ⟨i, t⟩ b (.race id slot rest :: nests) .halt) k (k.withdraw [id])
        [.begun ⟨i, t⟩ b nests .halt] [] (k.withdrawn [id])
  | raceNext {k t b id slot e rest nests member} :
      Does (.begun ⟨i, t⟩ b (.race id slot (e :: rest) :: nests) (.pending member)) k
        { k with waits := k.waits.modify id fun w => { w with kind := w.kind.setMember slot member } }
        [.trigger ⟨i, t⟩ b (.race id (slot + 1) rest :: nests) e] [] []
  | raceFull {k t b id slot nests member} :
      Does (.begun ⟨i, t⟩ b (.race id slot [] :: nests) (.pending member)) k
        { k with waits := k.waits.modify id fun w => { w with kind := w.kind.setMember slot member } }
        [.begun ⟨i, t⟩ b nests (.pending id)] [] []
  | raceLost {k t b id slot rest nests signal} (h : k.waits.get? id = none) :
      Does (.begun ⟨i, t⟩ b (.race id slot rest :: nests) (.immediate signal)) k k
        [.begun ⟨i, t⟩ b nests .halt] [] []
  | raceDecided {k t b id slot rest nests signal w} (h : k.waits.get? id = some w) :
      Does (.begun ⟨i, t⟩ b (.race id slot rest :: nests) (.immediate signal)) k
        { k with waits := (Waits.closeRace (k.waits.erase id) w.kind slot signal).2.2 }
        [.begun ⟨i, t⟩ b nests
          (.immediate (Waits.closeRace (k.waits.erase id) w.kind slot signal).1)] []
        ((Waits.closeRace (k.waits.erase id) w.kind slot signal).2.1.map Passage.event ++
          [.settled id (Waits.closeRace (k.waits.erase id) w.kind slot signal).1])
  | allHalt {k t b id slot rest nests} :
      Does (.begun ⟨i, t⟩ b (.all id slot rest :: nests) .halt) k (k.withdraw [id])
        [.begun ⟨i, t⟩ b nests .halt] [] (k.withdrawn [id])
  | allNext {k t b id slot e rest nests start k'}
      (hk : (∃ member, start = .pending member ∧ k' = { k with waits := k.waits.modify id fun w =>
          { w with kind := w.kind.setMember slot member } }) ∨
        ∃ v, start = .immediate (.value v) ∧
          k' = { k with waits := (Waits.merge k.waits id slot (.value v)).2 }) :
      Does (.begun ⟨i, t⟩ b (.all id slot (e :: rest) :: nests) start) k k'
        [.trigger ⟨i, t⟩ b (.all id (slot + 1) rest :: nests) e] [] []
  | allFull {k t b id slot nests start k'}
      (hk : (∃ member, start = .pending member ∧ k' = { k with waits := k.waits.modify id fun w =>
          { w with kind := w.kind.setMember slot member } }) ∨
        ∃ v, start = .immediate (.value v) ∧
          k' = { k with waits := (Waits.merge k.waits id slot (.value v)).2 })
      (h : ∀ w results members, k'.waits.get? id = some w → w.kind ≠ .all results members 0) :
      Does (.begun ⟨i, t⟩ b (.all id slot [] :: nests) start) k k'
        [.begun ⟨i, t⟩ b nests (.pending id)] [] []
  | allComplete {k t b id slot nests start k' w results members}
      (hk : (∃ member, start = .pending member ∧ k' = { k with waits := k.waits.modify id fun w =>
          { w with kind := w.kind.setMember slot member } }) ∨
        ∃ v, start = .immediate (.value v) ∧
          k' = { k with waits := (Waits.merge k.waits id slot (.value v)).2 })
      (h : k'.waits.get? id = some w) (hw : w.kind = .all results members 0) :
      Does (.begun ⟨i, t⟩ b (.all id slot [] :: nests) start) k
        { k' with waits := k'.waits.erase id }
        [.begun ⟨i, t⟩ b nests (.immediate (Waits.collect w.kind))] []
        [.settled id (Waits.collect w.kind)]
  | allFailed {k t b id slot rest nests signal w} (hs : ∀ v, signal ≠ .value v)
      (h : k.waits.get? id = some w) :
      Does (.begun ⟨i, t⟩ b (.all id slot rest :: nests) (.immediate signal)) k
        { k with waits := (Waits.detachEach (k.waits.erase id) w.kind.members).2 }
        [.begun ⟨i, t⟩ b nests (.immediate signal)] []
        ((Waits.detachEach (k.waits.erase id) w.kind.members).1.map Passage.event ++
          [.settled id signal])
  | allLost {k t b id slot rest nests signal} (hs : ∀ v, signal ≠ .value v)
      (h : k.waits.get? id = none) :
      Does (.begun ⟨i, t⟩ b (.all id slot rest :: nests) (.immediate signal)) k k
        [.begun ⟨i, t⟩ b nests (.immediate signal)] [] [.settled id signal]
  -- the end of a turn
  | leaveSuspended {k t b id} :
      Does (.leave ⟨i, t⟩ b (.suspended id)) k (k.park t (some id)) [] [] []
  | leaveYielded {k t b signal} :
      Does (.leave ⟨i, t⟩ b (.yielded signal)) k ((k.park t none).schedule [.resume t signal])
        [] [] []
  | leaveFinished {k t b v} :
      Does (.leave ⟨i, t⟩ b (.finished (.ok v))) k { k with current := none }
        [.returned ⟨i, t⟩ v] [t] []
  | leaveEnded {k t b} :
      Does (.leave ⟨i, t⟩ b .ended) k { k with current := none } [.returned ⟨i, t⟩ .unit] [t] []
  | leaveFailed {k t b f} :
      Does (.leave ⟨i, t⟩ b (.finished (.error f))) k { k with current := none }
        [.abort ⟨i, t⟩ f] [t] []
  | leaveHalted {k t b} :
      Does (.leave ⟨i, t⟩ b .halted) k { k with current := none } [.conclude ⟨i, t⟩] [t] []
  -- the end of tasks
  | returnedLate {k t v} (h : ¬ k.Live t) : Does (.returned ⟨i, t⟩ v) k k [] [] []
  | returned {k t v p} (hp : k.posture t = some p) (h : p.status.isTerminal = false)
      (hc : p.children = []) :
      Does (.returned ⟨i, t⟩ v) k (k.alter t fun p => { p with result := some v })
        [.cascade i (.complete t)] [] []
  | returnedHeld {k t v p} (hp : k.posture t = some p) (h : p.status.isTerminal = false)
      (hc : p.children ≠ []) :
      Does (.returned ⟨i, t⟩ v) k
        (k.alter t fun p => { p with result := some v, status := .suspended }) [] [] []
  | abortLate {k t f} (h : ¬ k.Live t) : Does (.abort ⟨i, t⟩ f) k k [] [] []
  | abort {k t f p} (hp : k.posture t = some p) (h : p.status.isTerminal = false) :
      Does (.abort ⟨i, t⟩ f) k
        ((k.alter t fun p => { p with status := .aborted, pending := none, hasBody := false }).withdraw
          p.pending.toList)
        (p.children.map (.cancel i) ++ [.abortDone ⟨i, t⟩ f (decide (k.current = some t))])
        (dropped t p.hasBody) (k.withdrawn p.pending.toList)
  | abortHalts {k t f} :
      Does (.abortDone ⟨i, t⟩ f true) k { k with halted := some (.aborted f) } [] [] []
  | abortDone {k t f k' c es} (h : Buries past k t (.aborted f) k' c es) :
      Does (.abortDone ⟨i, t⟩ f false) k k' (c.toList.map (.cascade i)) [] es
  | conclude {k t k' c es}
      (h : Buries past { k with halted := none } t (k.halted.getD .cancelled) k' c es) :
      Does (.conclude ⟨i, t⟩) k k' (c.toList.map (.cascade i)) [] es
  | cascadeAbort {k t f} : Does (.cascade i (.abort t f)) k k [.abort ⟨i, t⟩ f] [] []
  | cascadeLate {k t} (h : ∀ p, k.posture t = some p →
      p.status.isTerminal = true ∨ p.result = none) : Does (.cascade i (.complete t)) k k [] [] []
  | cascadeComplete {k t p v k' c es} (hp : k.posture t = some p)
      (h : p.status.isTerminal = false) (hv : p.result = some v)
      (hb : Buries past (k.alter t fun p => { p with result := none }) t (.done v) k' c es) :
      Does (.cascade i (.complete t)) k k' (c.toList.map (.cascade i)) [] es
  | cancelLate {k t} (h : ¬ k.Live t) : Does (.cancel i t) k k [] [] []
  | cancel {k t order} (h : k.Live t) (ho : ∀ u ∈ order, k.Live u) (ht : t ∈ order)
      (hc : ∀ u ∈ order, ∀ p, k.posture u = some p → ∀ c ∈ p.children, k.Live c → c ∈ order) :
      Does (.cancel i t) k (k.cancelAll order) [.cancelEach i order []] [] []
  | cancelledAll {k cascades} :
      Does (.cancelEach i [] cascades) k k (cascades.map (.cascade i)) [] []
  | cancelledLate {k t rest cascades} (h : k.posture t = none) :
      Does (.cancelEach i (t :: rest) cascades) k k [.cancelEach i rest cascades] [] []
  | cancelEach {k t rest cascades p} (hp : k.posture t = some p) :
      Does (.cancelEach i (t :: rest) cascades) k
        ((k.alter t fun p => { p with pending := none, hasBody := false }).withdraw
          p.pending.toList)
        [.cancelOne ⟨i, t⟩ (decide (k.current = some t)) rest cascades] (dropped t p.hasBody)
        (k.withdrawn p.pending.toList)
  | cancelHalts {k t rest cascades} :
      Does (.cancelOne ⟨i, t⟩ true rest cascades) k { k with halted := some .cancelled }
        [.cancelEach i rest cascades] [] []
  | cancelOne {k t rest cascades k' c es} (h : Buries past k t .cancelled k' c es) :
      Does (.cancelOne ⟨i, t⟩ false rest cascades) k k'
        [.cancelEach i rest (cascades ++ c.toList)] [] es

/-- Something is done within the driver; if that is at rest, it starts. -/
inductive Drives (k : Core) (work : List Instr) : Core → List Instr → Prop
  | within (h : k.driving = true) : Drives k work k work
  | starts (h : k.driving = false) :
      Drives k work { k with driving := true } (work ++ [.drain i])

/-- What user code, outside the frames of middleware `i`, does to it. -/
inductive Intervenes : Core → Core → List Instr → List Event → Prop
  | quietly {k es} (hq : Quiet es) : Intervenes k k [] es
  | spawns {k k' G name} (h : Drives i ((k.create none false).schedule [.start k.nextTask]) [] k' G) :
      Intervenes k k' G [.taskStarted k.nextTask none name]
  | settles {k rs k' G es} (hs : Settling past rs) (h : Drives i (k.schedule rs) [] k' G)
      (hq : Quiet es) : Intervenes k k' G es
  | cancels {k t k' G} (h : Drives i k [.cancel i t] k' G) : Intervenes k k' G []
  | queues {k e es} (h : k.driving = true) (hq : Quiet es) :
      Intervenes k (k.grow [] [e]) [] es
  | sends {k a site} (h : k.driving = false) :
      Intervenes k { k with driving := true } [.emit i a (.caller site)] []

/-- A step of the machine as a middleware sees it. -/
inductive Moves : View → View → Prop
  | does {alive k F D past x k' G D' es} (h : Does i past x k k' G D' es)
      (hu : ∀ f ∈ F, ¬ f.Urgent) :
      Moves ⟨alive, k, x :: F, D, past⟩ ⟨alive, k', G ++ F, D' ++ D, es.reverse ++ past⟩
  | intervenes {k F D past k' G es} (h : Intervenes i past k k' G es) (hu : ∀ f ∈ F, ¬ f.Urgent) :
      Moves ⟨true, k, F, D, past⟩ ⟨true, k', G ++ F, D, es.reverse ++ past⟩
  | still {v} : Moves v v
  | drops {alive k F t D past} (hu : ∀ f ∈ F, ¬ f.Urgent) :
      Moves ⟨alive, k, F, t :: D, past⟩ ⟨alive, k, F, D, .bodyDropped t :: past⟩
  /-- The middleware itself is dropped, and with it the bodies that its tasks still have. -/
  | dies {k past D} (hD : D.Nodup ∧ ∀ t, t ∈ D ↔ ∃ p, k.posture t = some p ∧ p.hasBody = true) :
      Moves ⟨true, k, [], [], past⟩ ⟨false, Engine.core {}, [], D, past⟩

end

end SagaMachine
