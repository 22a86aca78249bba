import SagaMachine.Saga
import SagaMachine.Signal

/-!
# The agenda of a middleware

What the driver of a middleware still has to do. Reactions belong to the turn that
caused them: they are worked off depth first, those of one piece of work in the order
they were scheduled. Errands — puts, dispatches from inside a turn, and ends — wait in
a queue and are taken, oldest first, only when no reaction is left.
-/

namespace SagaMachine

/-- A reaction within the present turn. -/
inductive Reaction where
  /-- Poll a new task for the first time. -/
  | start (task : TaskId)
  /-- Go on with a task that stood aside, with the signal of its last effect. -/
  | resume (task : TaskId) (signal : Signal)
  /-- Settle a pending effect. -/
  | settle (effect : EffectId) (signal : Signal)
deriving Repr

/-- A queued errand. -/
inductive Errand where
  /-- Dispatch an action; the effect that asked for it, if any, gets the result. -/
  | dispatch (action : Action) (reply : Option EffectId)
  /-- Put a value on a channel for an effect. -/
  | put (channel : ChannelId) (value : Value) (reply : EffectId)
  /-- End the bus. -/
  | finish
deriving Repr

/-- What the driver does next. -/
inductive Job where
  | reaction (r : Reaction)
  | errand (e : Errand)
deriving Repr

/-- What is left to do. -/
structure Agenda where
  /-- Reactions, the next one first. -/
  stack : List Reaction := []
  /-- Reactions scheduled by the present job, in the order they were scheduled. -/
  fresh : List Reaction := []
  /-- Errands, the oldest first. -/
  errands : List Errand := []
deriving Repr

namespace Agenda

/-- Add a reaction to those of the present job. -/
def schedule (a : Agenda) (r : Reaction) : Agenda := { a with fresh := a.fresh ++ [r] }

/-- Add an errand at the end of the queue. -/
def queue (a : Agenda) (e : Errand) : Agenda := { a with errands := a.errands ++ [e] }

/-- Put the fresh reactions on the stack, the first one on top. -/
def flush (a : Agenda) : Agenda := { a with stack := a.fresh ++ a.stack, fresh := [] }

/-- Take the next job: a reaction if there is one, else the oldest errand. -/
def next? (a : Agenda) : Option (Job × Agenda) :=
  let a := a.flush
  match a.stack with
  | r :: rest => some (.reaction r, { a with stack := rest })
  | [] =>
    match a.errands with
    | e :: rest => some (.errand e, { a with errands := rest })
    | [] => none

/-- Whether nothing is left to do. -/
def isEmpty (a : Agenda) : Bool := a.stack.isEmpty && a.fresh.isEmpty && a.errands.isEmpty

end Agenda

end SagaMachine
