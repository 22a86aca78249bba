import SagaMachine.Pattern

/-!
# Syntax of scripts

User code is data here: saga bodies are lists of statements, and everything a body,
a call, a guard or a host rule does to the world is a list of operations. Nothing in
the syntax is a function; the evaluation of expressions, the building of effects and
the running of operations are separate interpretations.
-/

namespace SagaMachine

/-- An expression for a value. -/
inductive Expr where
  | json (j : Json)
  | unit
  /-- An action with the payload's plain JSON. -/
  | action (kind : String) (payload : Expr)
  | list (items : List Expr)
  | map (entries : List (String × Expr))
  /-- A variable of the body; unit if it is unset. -/
  | var (name : String)
  /-- The task registered under a label; unit if there is none. -/
  | task (label : String)
  /-- The payload of an action; unit for other values. -/
  | payload (x : Expr)
  /-- The kind of a value as a string; unit if it has none. -/
  | kind (x : Expr)
  /-- An entry of a map; unit if there is none. -/
  | get (x : Expr) (key : String)
  /-- An item of a list; unit if there is none. -/
  | item (x : Expr) (n : Nat)
  /-- A sum; a value that is no signed integer counts as zero. -/
  | add (x : Expr) (n : Int)
  /-- A product; a value that is no signed integer counts as zero. -/
  | mul (x y : Expr)
  /-- Plain JSON of a value. -/
  | toJson (x : Expr)
  /-- The status of a task as a string; unit for other values. -/
  | status (x : Expr)
deriving Repr

/-- An expression for an action. -/
structure ActionExpr where
  kind : String
  payload : Expr := .json .null
deriving Repr

/-- A test on values. -/
inductive Test where
  | const (b : Bool)
  | eq (x y : Expr)
  /-- The integer of `x`, zero if it is none, is less than `n`. -/
  | lt (x : Expr) (n : Int)
  /-- `x` is a map with this key. -/
  | has (x : Expr) (key : String)
  | isUnit (x : Expr)
  | not (t : Test)
deriving Repr

/-- What a watcher does with the worker before when a new action comes in. -/
inductive WatchMode where
  /-- It lets every worker run. -/
  | every
  /-- It cancels the worker before. -/
  | latest
deriving DecidableEq, Repr

/-- Which saga to run: a named script, or a watcher that forks a named worker per action. -/
inductive SagaSource where
  | named (name : String)
  | watcher (mode : WatchMode) (pattern : Pattern) (worker : String)
deriving Repr

/-- A saga with the variables it starts with. -/
structure SagaExpr where
  source : SagaSource
  args : List (String × Expr) := []
deriving Repr

/-- An operation on the world. -/
inductive Op where
  /-- Start a root task. -/
  | run (mw : MiddlewareId) (saga : SagaExpr) (label : Option String)
  | dispatch (mw : MiddlewareId) (action : ActionExpr)
  /-- End the bus. -/
  | finish (mw : MiddlewareId)
  | live (mw : MiddlewareId)
  | state (mw : MiddlewareId)
  | settings (mw : MiddlewareId)
  | cancel (task : Expr)
  | inspect (task : Expr)
  | sameTask (a b : Expr)
  /-- Poll the completion of a task with the waker of a tag. -/
  | watch (task : Expr) (tag : String)
  /-- How often the waker of a tag was woken. -/
  | wakes (tag : String)
  | put (channel : String) (value : Expr)
  /-- Register a taker that runs `next` on its delivery, with a value bound to `got`. -/
  | take (channel : String) (pattern : Pattern) (tag : String) (next : List Op)
  | untake (tag : String)
  | close (channel : String)
  | sameChannel (a b : String)
  | showChannel (channel : String)
  | resolve (deferred : String) (value : Expr)
  | reject (deferred : String) (fault : Fault)
  | showDeferred (deferred : String)
  | log (tag : Json) (value : Expr)
  /-- Drop a middleware; only from outside all sagas. -/
  | drop (mw : MiddlewareId)
  /-- Move the clock; only from outside all sagas. -/
  | advance (ms : Nat)
  | unknown (name : String)
deriving Repr

/-- The name of an operation in reports. -/
def Op.name : Op → String
  | run .. => "run"
  | dispatch .. => "dispatch"
  | finish _ => "end"
  | live _ => "live"
  | state _ => "state"
  | settings _ => "config"
  | cancel _ => "cancel"
  | inspect _ => "inspect"
  | sameTask .. => "same_task"
  | watch .. => "watch"
  | wakes _ => "wakes"
  | put .. => "put"
  | take .. => "take"
  | untake _ => "untake"
  | close _ => "close"
  | sameChannel .. => "same_chan"
  | showChannel _ => "show_chan"
  | resolve .. => "resolve"
  | reject .. => "reject"
  | showDeferred _ => "show_deferred"
  | log .. => "log"
  | drop _ => "drop_mw"
  | advance _ => "advance"
  | unknown name => name

/-- What a called function answers. -/
inductive AnswerExpr where
  | value (x : Expr)
  | fault (f : Fault)
  /-- The outcome of a named deferred, now or later. -/
  | deferred (name : String)
  /-- A deferred that is settled from the start. -/
  | resolved (x : Expr)
  | rejected (f : Fault)
  /-- A deferred that a timer settles. -/
  | timer (ms : Nat) (fault : Option Fault) (value : Expr)
deriving Repr

/-- A function to be called: the operations it runs, then its answer. -/
structure CallExpr where
  /-- The name under which the call is reported, if at all. -/
  label : Option String := none
  ops : List Op := []
  answer : AnswerExpr := .value .unit
deriving Repr

/-- An expression for an effect. -/
inductive EffectExpr where
  /-- Take from a channel, or from the bus if no channel is named. -/
  | take (channel : Option String) (pattern : Pattern)
  | dispatch (action : ActionExpr)
  | put (channel : String) (value : Expr)
  | call (c : CallExpr)
  | fork (saga : SagaExpr)
  /-- Fork a task that its parent neither waits for nor tears down. -/
  | spawn (saga : SagaExpr)
  | join (task : Expr)
  | cancel (task : Expr)
  | cancelSelf
  | race (members : List (String × EffectExpr))
  | racePositional (members : List EffectExpr)
  | all (members : List EffectExpr)
  /-- Read the host state, or one of its fields. -/
  | select (key : Option String)
  /-- Wait on the clock; a negative or missing number of milliseconds counts as zero. -/
  | delay (ms : Expr)
  | unknown (name : String)
deriving Repr

/-- A statement of a saga body. -/
inductive Stmt where
  /-- Yield an effect; bind the result, and register a task under a label. -/
  | perform (effect : EffectExpr) (bind : Option String) (label : Option String)
  /-- Bind a value, and register a task under a label. -/
  | assign (name : String) (value : Expr) (label : Option String)
  | log (tag : Json) (value : Expr)
  /-- Run operations when the body is over, however it ends. -/
  | guard (name : String) (ops : List Op)
  | return (value : Expr)
  | fail (fault : Fault)
  | attempt (body handler : List Stmt)
  /-- Raise the fault caught last. -/
  | rethrow
  | ifThen (test : Test) (yes no : List Stmt)
  /-- Repeat a number of times, or for ever. -/
  | repeat (times : Option Nat) (body : List Stmt)
  | ops (ops : List Op)
  /-- Wait for something that is no effect. -/
  | foreign
  /-- Yield all effects at once, as separate performs. -/
  | joined (effects : List EffectExpr)
  /-- Yield an effect next to something that is no effect. -/
  | mixed (effect : EffectExpr)
  /-- Report an effect without yielding it. -/
  | describe (effect : EffectExpr)
  | unknown (name : String)
deriving Repr

end SagaMachine
