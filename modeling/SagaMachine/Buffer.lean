import SagaMachine.Pattern

/-!
# Buffers

A buffer stores the values of a channel that no taker was waiting for. Its policy
says how many values it holds and what happens to a value that does not fit.
-/

namespace SagaMachine

/-- How many values a buffer holds. -/
inductive Capacity where
  /-- Nothing is ever stored. -/
  | none
  | bounded (limit : Nat)
  | unbounded
deriving DecidableEq, Repr

/-- What a bounded buffer does with a value that does not fit. -/
inductive Overflow where
  | reject
  | dropNewest
  | dropOldest
deriving DecidableEq, Repr

/-- A buffer: its policy and the stored values, oldest first. -/
structure Buffer where
  capacity : Capacity
  overflow : Overflow
  items : List Value := []
deriving Repr

namespace Buffer

/-- Stores nothing. -/
def none : Buffer := { capacity := .none, overflow := .dropNewest }

/-- Holds up to `limit` values and refuses further ones. -/
def fixed (limit : Nat) : Buffer := { capacity := .bounded limit, overflow := .reject }

/-- Holds up to `limit` values and discards further ones. -/
def dropping (limit : Nat) : Buffer := { capacity := .bounded limit, overflow := .dropNewest }

/-- Holds the `limit` latest values. -/
def sliding (limit : Nat) : Buffer := { capacity := .bounded limit, overflow := .dropOldest }

/-- Holds every value. -/
def unbounded : Buffer := { capacity := .unbounded, overflow := .reject }

/-- Store a value as the policy says. -/
def put (b : Buffer) (v : Value) : Except Fault Buffer :=
  match b.capacity with
  | .unbounded => .ok { b with items := b.items ++ [v] }
  | .none => .ok b
  | .bounded limit =>
    if b.items.length < limit then .ok { b with items := b.items ++ [v] }
    else
      match b.overflow with
      | .reject => .error (.overflow limit)
      | .dropNewest => .ok b
      | .dropOldest => .ok (if limit = 0 then b else { b with items := b.items.tail ++ [v] })

/-- Remove the first value that the pattern accepts from a list. -/
def removeFirst (p : Pattern) : List Value → Option (Value × List Value)
  | [] => .none
  | v :: vs =>
    if p.accepts v then some (v, vs)
    else (removeFirst p vs).map fun r => (r.1, v :: r.2)

/-- Take the oldest stored value that the pattern accepts. -/
def take (b : Buffer) (p : Pattern) : Option (Value × Buffer) :=
  (removeFirst p b.items).map fun r => (r.1, { b with items := r.2 })

/-- The reports of the patterns evaluated by `take`. -/
def takeNotes (b : Buffer) (p : Pattern) : List Note :=
  p.searchNotes b.items

end Buffer

/-- The capacity as reports show it. -/
def Capacity.inspect : Capacity → String
  | none => "None"
  | bounded limit => Text.showTuple "Bounded" [toString limit]
  | unbounded => "Unbounded"

/-- The overflow policy as reports show it. -/
def Overflow.inspect : Overflow → String
  | reject => "Reject"
  | dropNewest => "DropNewest"
  | dropOldest => "DropOldest"

end SagaMachine
