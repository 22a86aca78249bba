import SagaMachine.Channel

/-!
# The action bus

The bus of a middleware holds the tasks that wait for actions. A broadcast wakes,
for each task, its earliest taker that accepts the action; an end wakes everyone and
sets a watermark below which no task takes from the bus any more.
-/

namespace SagaMachine

/-- A task's pending take from the bus, for the effect that waits for it. -/
structure BusTaker where
  id : TakerId
  owner : TaskId
  pattern : Pattern
  effect : EffectId
deriving Repr

/-- The pending takers of a middleware, in order of registration. -/
structure Bus where
  takers : List BusTaker := []
  nextTaker : TakerId := 1
  /-- Tasks with a smaller number have seen the end. -/
  watermark : Option TaskId := none
deriving Repr

namespace Bus

/-- Whether a task has seen the end. -/
def hasEnded (b : Bus) (owner : TaskId) : Bool :=
  match b.watermark with
  | some mark => decide (owner < mark)
  | none => false

/-- What a take from the bus meets: the end at once, or a place in the queue. -/
structure Registration where
  id : TakerId
  ended : Bool
  bus : Bus
deriving Repr

/-- Register a taker; a task that has seen the end gets the end again. -/
def take (b : Bus) (owner : TaskId) (p : Pattern) (effect : EffectId) : Registration :=
  let id := b.nextTaker
  let b := { b with nextTaker := id + 1 }
  if b.hasEnded owner then ⟨id, true, b⟩
  else ⟨id, false, { b with takers := b.takers ++ [⟨id, owner, p, effect⟩] }⟩

/-- Withdraw a pending taker. -/
def cancelTaker (b : Bus) (id : TakerId) : Bus :=
  { b with takers := b.takers.filter fun t => t.id ≠ id }

/-- The takers of a broadcast: those it wakes, those that stay, and the reports made. -/
structure Broadcast where
  woken : List BusTaker
  kept : List BusTaker
  notes : List Note

/-- Walk the takers in order; `served` holds the tasks that already have a delivery. -/
def select (v : Value) (served : List TaskId) : List BusTaker → Broadcast
  | [] => ⟨[], [], []⟩
  | t :: ts =>
    if served.contains t.owner then
      let r := select v served ts
      { r with kept := t :: r.kept }
    else if t.pattern.accepts v then
      let r := select v (t.owner :: served) ts
      { r with woken := t :: r.woken, notes := t.pattern.notes v ++ r.notes }
    else
      let r := select v served ts
      { r with kept := t :: r.kept, notes := t.pattern.notes v ++ r.notes }

/-- Offer an action to the takers, at most once per task. -/
def broadcast (b : Bus) (a : Action) : Broadcast :=
  select (.action a) [] b.takers

/-- End the bus for all tasks below the watermark; the answer lists the pending takers. -/
def finish (b : Bus) (mark : TaskId) : List BusTaker × Bus :=
  (b.takers, { b with takers := [], watermark := some mark })

end Bus

end SagaMachine
