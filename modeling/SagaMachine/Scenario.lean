import SagaMachine.Machine.Run
import SagaMachine.Report

/-!
# Scenarios

A scenario sets up a world — middlewares, then channels in order of their names, then
deferreds — and runs operations on it from outside, one after the other. After each
operation it reports the result, the new lines of the log and the state of everything
that has a name.
-/

namespace SagaMachine

/-- A middleware to be set up; without texts it has the default settings. -/
structure MiddlewareSpec where
  texts : Option (List (String × String)) := none
  monitor : Monitor := .none
  host : Host := {}

/-- A channel to be set up. -/
inductive ChannelSpec where
  | buffered (b : Buffer)
  /-- Another name of the same channel. -/
  | alias (name : String)
  /-- The channel that a middleware makes. -/
  | ofMiddleware (i : MiddlewareId)

/-- A scenario. -/
structure Scenario where
  middlewares : List MiddlewareSpec := [{}]
  timerSupport : TimerSupport := .available
  channels : List (String × ChannelSpec) := []
  deferreds : List String := []
  scripts : List (String × List Stmt) := []
  steps : List Op := []

/-- What is seen of the world after a step. -/
structure StepReport where
  reply : Reply
  lines : List Line
  /-- The number of live tasks of each middleware that was not dropped. -/
  live : List (Option Nat)
  tasks : List (String × TaskReport)
  /-- The buffered values, the pending takers and whether it is closed, for each channel. -/
  channels : List (String × Nat × Nat × Bool)
  deferreds : List (String × Option Answer)

/-- What is seen of a whole run. -/
structure ScenarioReport where
  steps : List StepReport
  /-- What each memory monitor kept; nothing at all if there is none. -/
  memory : Option (List (Option (List MonitorEvent)))

/-- How a scenario comes out. -/
inductive ScenarioResult where
  | report (r : ScenarioReport)
  /-- The settings of a middleware are not valid. -/
  | invalid (f : SettingsFault)
  /-- User code spent its budget. -/
  | exhausted

namespace World

/-- Add a middleware, with the next number. -/
def addMiddleware (w : World) (m : Middleware) : World :=
  { w with middlewares := w.middlewares.insert w.middlewares.size m }

/-- Add a channel under a name, with the next number. -/
def addChannel (w : World) (name : String) (b : Buffer) : World :=
  let c := w.channels.size
  { w with
    channels := w.channels.insert c { buffer := b }
    channelNames := w.channelNames.insert name c }

/-- Set up a channel. -/
def setUpChannel (w : World) (name : String) : ChannelSpec → World
  | .buffered b => w.addChannel name b
  | .ofMiddleware _ => w.addChannel name .unbounded
  | .alias other =>
    match w.channelNames.get? other with
    | some c => { w with channelNames := w.channelNames.insert name c }
    | none => w.addChannel name .unbounded

/-- Set up a named deferred. -/
def setUpDeferred (w : World) (name : String) : World :=
  let r := w.addDeferred {}
  { r.2 with deferredNames := r.2.deferredNames.insert name r.1 }

/-- What is seen of a channel. -/
def channelReport (w : World) (c : ChannelId) : Nat × Nat × Bool :=
  match w.channels.get? c with
  | some channel => (channel.buffer.items.length, channel.takers.length, channel.closed)
  | none => (0, 0, false)

/-- What is seen of the world after a step that began with a journal of some length. -/
def stepReport (w : World) (length : Nat) : StepReport :=
  { reply := w.reply.getD .missing
    lines := w.linesSince length
    live := w.middlewares.values.map fun m =>
      if m.alive then some m.engine.tasks.size else none
    tasks := w.labels.entries.map fun e => (e.1, w.reportOf e.2)
    channels := w.channelNames.entries.map fun e => (e.1, w.channelReport e.2)
    deferreds := w.deferredNames.entries.map fun e =>
      (e.1, (w.deferreds.get? e.2).bind (·.outcome)) }

/-- Run operations from outside, and report after each of them. -/
def performAll (w : World) : List Op → Option (List StepReport × World)
  | [] => some ([], w)
  | o :: os =>
    match w.perform o with
    | none => none
    | some next =>
      (next.performAll os).map fun r => (next.stepReport w.journal.length :: r.1, r.2)

/-- What the memory monitors kept. -/
def memories (w : World) : Option (List (Option (List MonitorEvent))) :=
  if w.middlewares.values.any (fun m => m.monitor = .memory) then
    some (w.middlewares.entries.map fun e =>
      if e.2.monitor = .memory then some (w.toldOf e.1) else none)
  else none

end World

namespace MiddlewareSpec

/-- The middleware of a specification. -/
def setUp (s : MiddlewareSpec) : Except SettingsFault Middleware :=
  match s.texts with
  | none => .ok { monitor := s.monitor, host := s.host }
  | some texts =>
    (Settings.ofLookup fun key => texts.lookup key).map fun settings =>
      { settings, monitor := s.monitor, host := s.host }

end MiddlewareSpec

namespace Scenario

/-- The world before the first step. -/
def setUp (s : Scenario) : Except SettingsFault World := do
  let middlewares ← s.middlewares.mapM MiddlewareSpec.setUp
  let start : World := { timerSupport := s.timerSupport, scripts := s.scripts }
  let w := middlewares.foldl World.addMiddleware start
  let w := s.channels.foldl (fun w c => w.setUpChannel c.1 c.2) w
  return s.deferreds.foldl World.setUpDeferred w

/-- Run a scenario. -/
def run (s : Scenario) : ScenarioResult :=
  match s.setUp with
  | .error f => .invalid f
  | .ok w =>
    match w.performAll s.steps with
    | none => .exhausted
    | some r => .report { steps := r.1, memory := r.2.memories }

end Scenario

end SagaMachine
