import SagaMachine.Body

/-!
# The task tree

The live tasks of a middleware, each with its parent and its attached children. A
task leaves the table when its outcome is recorded, so everything in the table is
live or on its way out.

A cancellation tears down a subtree, children before parents. `Tasks.cancellationOrder`
lists that subtree with an explicit stack: a task is expanded once, its children come
before it, and children that already have a terminal status are left alone.
-/

namespace SagaMachine

/-- A live task. -/
structure TaskNode where
  name : String
  /-- The task that forked this one, also if it is detached. -/
  parent : Option TaskId
  /-- A detached task is not torn down with its parent, and its parent does not wait for it. -/
  detached : Bool
  /-- Live attached children, in the order they were forked. -/
  children : List TaskId := []
  status : Status := .created
  /-- The body, unless it is running or over. -/
  body : Option Body
  /-- The effect the task is parked on. -/
  pending : Option EffectId := none
  /-- What the body returned, held until the last attached child is finished. -/
  result : Option Value := none
  /-- The effects that join on this task, in the order they were issued. -/
  joiners : List EffectId := []

/-- The live tasks of a middleware. -/
abbrev Tasks := Table TaskId TaskNode

namespace Tasks

/-- Whether a task is in the table and not yet terminal. -/
def isLive (tasks : Tasks) (id : TaskId) : Bool :=
  match tasks.get? id with
  | some node => !node.status.isTerminal
  | none => false

/-- A visit of the walk over a subtree: before or after the children. -/
inductive Visit where
  | enter (id : TaskId)
  | leave (id : TaskId)
deriving DecidableEq, Repr

/--
Work off a stack of visits. Entering a task puts its live children before its leaving;
leaving lists it. A task that was entered is taken out of the table, so it is never
entered again.
-/
def walk (tasks : Tasks) : List Visit → List TaskId
  | [] => []
  | .leave id :: rest => id :: walk tasks rest
  | .enter id :: rest =>
    match _h : tasks.get? id with
    | none => id :: walk tasks rest
    | some node =>
      let children := node.children.filter fun child => tasks.isLive child
      walk (tasks.erase id) (children.map .enter ++ .leave id :: rest)
termination_by visits => (tasks.size, visits.length)
decreasing_by
  · exact Prod.Lex.right _ (Nat.lt_succ_self _)
  · exact Prod.Lex.right _ (Nat.lt_succ_self _)
  · exact Prod.Lex.left _ _ (Table.size_erase_lt _h)

/-- The tasks of a live subtree, every task after all its descendants. -/
def cancellationOrder (tasks : Tasks) (root : TaskId) : List TaskId :=
  walk tasks [.enter root]

end Tasks

end SagaMachine
