import SagaMachine.Script.Syntax
import SagaMachine.Table

/-!
# Sagas and effects

A saga is a named program together with the variables it starts with. An effect is
inert data that a saga yields: nothing happens until the interpreter runs it.
-/

namespace SagaMachine

/-- The variables of a body. -/
abbrev Env := Table String Value

/-- A watcher: which actions it takes, and the script its workers run. -/
structure WatchPlan where
  mode : WatchMode
  pattern : Pattern
  worker : String
  body : List Stmt
  env : Env
deriving Repr

/-- What a saga runs. -/
inductive Program where
  | script (body : List Stmt) (env : Env)
  | watcher (plan : WatchPlan)
deriving Repr

/-- A program with the name its tasks carry. -/
structure Saga where
  name : String
  program : Program
deriving Repr

/-- The worker of a watcher for one action: its variables and `action`. -/
def WatchPlan.workerFor (p : WatchPlan) (a : Action) : Saga :=
  { name := p.worker, program := .script p.body (p.env.insert "action" (.action a)) }

/-- The name of a watcher's own tasks. -/
def WatchMode.sagaName : WatchMode → String
  | every => "take_every"
  | latest => "take_latest"

/-- The number of a channel. -/
abbrev ChannelId := Nat

/-- The number of a deferred. -/
abbrev DeferredId := Nat

/-- Where a take looks for values. -/
inductive Source where
  | bus
  | channel (id : ChannelId)
deriving DecidableEq, Repr

/-- Where a put goes. -/
inductive Target where
  | bus (a : Action)
  | channel (id : ChannelId) (v : Value)
deriving Repr

/-- A function to be called, with the variables it sees. -/
inductive Routine where
  | scripted (c : CallExpr) (env : Env)
  /-- Answer unit after a number of milliseconds. -/
  | sleep (ms : Nat)
deriving Repr

/-- An effect, to be run by the interpreter. -/
inductive Effect where
  | take (source : Source) (pattern : Pattern)
  | put (target : Target)
  | call (name : String) (routine : Routine)
  | fork (saga : Saga) (detached : Bool)
  | join (task : TaskRef)
  /-- The first member to settle decides; the result names it by its key. -/
  | race (members : List (String × Effect))
  /-- The first member to settle decides; the result names it by its place. -/
  | racePositional (members : List Effect)
  /-- All members are waited for. -/
  | all (members : List Effect)
  /-- Cancel a task, or the issuing task itself. -/
  | cancel (target : Option TaskRef)
  | select (key : Option String)
deriving Repr

namespace Effect

/-- The name of the kind of an effect. -/
def kind : Effect → String
  | take .. => "take"
  | put _ => "put"
  | call .. => "call"
  | fork _ false => "fork"
  | fork _ true => "spawn"
  | join _ => "join"
  | race _ => "race"
  | racePositional _ => "race"
  | all _ => "all"
  | cancel _ => "cancel"
  | select _ => "select"

/-- The number of members of a race, for races only. -/
def raceWidth? : Effect → Option Nat
  | race members => some members.length
  | racePositional members => some members.length
  | _ => none

/-- The first key that occurs a second time. -/
def duplicateKey? (members : List (String × Effect)) : Option String :=
  go [] (members.map Prod.fst)
where
  go (seen : List String) : List String → Option String
    | [] => none
    | k :: ks => if seen.contains k then some k else go (k :: seen) ks

/-- What reports show of the world behind an effect. -/
structure Surroundings where
  status : TaskRef → Status
  channel : ChannelId → String

/-- A take's source as reports show it. -/
def inspectSource (s : Surroundings) : Source → String
  | .bus => "Bus"
  | .channel id => Text.showTuple "Channel" [s.channel id]

/-- A put's target as reports show it. -/
def inspectTarget (s : Surroundings) : Target → String
  | .bus a => Text.showTuple "Bus" [a.inspect]
  | .channel id v => Text.showTuple "Channel" [s.channel id, v.inspect s.status]

mutual

/-- The effect as reports show it. -/
def inspect (s : Surroundings) : Effect → String
  | take source pattern =>
    Text.showRecord "Take"
      [("source", inspectSource s source), ("pattern", pattern.inspect)]
  | put target => Text.showTuple "Put" [inspectTarget s target]
  | call name _ => Text.showRecord "Call" [("name", Text.quote name)]
  | fork saga detached =>
    Text.showRecord "Fork"
      [("saga", Text.quote saga.name), ("detached", Text.showBool detached)]
  | join task => Text.showTuple "Join" [inspectTaskId task.id]
  | race members =>
    Text.showTuple "Race" [Text.showTuple "Keyed" [Text.showList (inspectKeyed s members)]]
  | racePositional members =>
    Text.showTuple "Race"
      [Text.showTuple "Positional" [Text.showList (inspectList s members)]]
  | all members => Text.showTuple "Parallel" [Text.showList (inspectList s members)]
  | cancel (some task) =>
    Text.showTuple "Cancel" [Text.showTuple "Task" [task.inspect (s.status task)]]
  | cancel none => Text.showTuple "Cancel" ["Current"]
  | select _ => "Select"

/-- The members of an effect as reports show them. -/
def inspectList (s : Surroundings) : List Effect → List String
  | [] => []
  | e :: es => inspect s e :: inspectList s es

/-- The members of a keyed race as reports show them. -/
def inspectKeyed (s : Surroundings) : List (String × Effect) → List String
  | [] => []
  | (k, e) :: es => Text.showTuple "" [Text.quote k, inspect s e] :: inspectKeyed s es

end

end Effect

end SagaMachine
