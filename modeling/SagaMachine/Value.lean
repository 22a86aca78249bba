import SagaMachine.Action
import SagaMachine.Fault
import SagaMachine.Task

/-!
# Values

What flows through effects: JSON, actions, task handles, and the composite results
of `all` and of races. Patterns look at the kind of a value (`Value.kind?`): the
type of an action, the `type` field of a JSON object, or a JSON string itself.
-/

namespace SagaMachine

/-- A value that an effect can carry. -/
inductive Value where
  | unit
  | json (j : Json)
  | action (a : Action)
  | task (t : TaskRef)
  /-- Positional results. -/
  | list (items : List Value)
  /-- Keyed results, in increasing order of the keys. -/
  | map (entries : List (String × Value))
deriving Repr

namespace Value

instance : Inhabited Value := ⟨unit⟩

/-- Whether the value is unit. -/
def isUnit : Value → Bool
  | unit => true
  | _ => false

/-- The tag that patterns look at. -/
def kind? : Value → Option String
  | action a => some a.kind
  | json (.str s) => some s
  | json (.obj fields) => (fields.lookup "type").bind Json.str?
  | _ => none

/-- The action in a value. -/
def action? : Value → Option Action
  | action a => some a
  | _ => none

/-- The task handle in a value. -/
def task? : Value → Option TaskRef
  | task t => some t
  | _ => none

/-- The JSON in a value. -/
def json? : Value → Option Json
  | json j => some j
  | _ => none

/-- The items of a list. -/
def list? : Value → Option (List Value)
  | list items => some items
  | _ => none

/-- The entries of a map. -/
def map? : Value → Option (List (String × Value))
  | map entries => some entries
  | _ => none

/-- The entry of a map under a key. -/
def get? (v : Value) (key : String) : Option Value :=
  v.map?.bind (·.lookup key)

/-- The name of the form of a value. -/
def form : Value → String
  | unit => "unit"
  | json _ => "json"
  | action _ => "action"
  | task _ => "task"
  | list _ => "list"
  | map _ => "map"

/-- A string as a value. -/
def ofString (s : String) : Value := json (.str s)

/-- An integer as a value. -/
def ofInt (n : Int) : Value := json (Json.ofInt n)

mutual

/-- The value as plain JSON: unit is null, and a task is an object with its number. -/
def toJson : Value → Json
  | unit => .null
  | json j => j
  | action a => a.toJson
  | task t => .obj [("task", Json.ofNat t.id)]
  | list items => .arr (toJsonList items)
  | map entries => .obj (toJsonFields entries)

/-- The items of a list as plain JSON. -/
def toJsonList : List Value → List Json
  | [] => []
  | v :: vs => toJson v :: toJsonList vs

/-- The entries of a map as plain JSON. -/
def toJsonFields : List (String × Value) → List (String × Json)
  | [] => []
  | (k, v) :: vs => (k, toJson v) :: toJsonFields vs

end

mutual

/-- Equality of values. Handles are equal when they name the same task. -/
def sameAs : Value → Value → Bool
  | unit, unit => true
  | json a, json b => a.sameAs b
  | action a, action b => a.kind == b.kind && a.payload.sameAs b.payload
  | task a, task b => a.owner == b.owner && a.id == b.id
  | list a, list b => sameList a b
  | map a, map b => sameEntries a b
  | _, _ => false

/-- Lists are equal item by item. -/
def sameList : List Value → List Value → Bool
  | [], [] => true
  | x :: xs, y :: ys => sameAs x y && sameList xs ys
  | _, _ => false

/-- Maps are equal entry by entry. -/
def sameEntries : List (String × Value) → List (String × Value) → Bool
  | [], [] => true
  | (k, x) :: xs, (l, y) :: ys => k == l && sameAs x y && sameEntries xs ys
  | _, _ => false

end

mutual

/-- The value as reports show it, given the present status of every task. -/
def inspect (status : TaskRef → Status) : Value → String
  | unit => "Unit"
  | json j => Text.showTuple "Json" [j.inspect]
  | action a => Text.showTuple "Action" [a.inspect]
  | task t => Text.showTuple "Task" [t.inspect (status t)]
  | list items => Text.showTuple "List" [Text.showList (inspectList status items)]
  | map entries => Text.showTuple "Map" [Text.showMap (inspectEntries status entries)]

/-- The items of a list as reports show them. -/
def inspectList (status : TaskRef → Status) : List Value → List String
  | [] => []
  | v :: vs => inspect status v :: inspectList status vs

/-- The entries of a map as reports show them. -/
def inspectEntries (status : TaskRef → Status) :
    List (String × Value) → List (String × String)
  | [] => []
  | (k, v) :: vs => (Text.quote k, inspect status v) :: inspectEntries status vs

end

/-- Insert an entry at its place in the order of keys; a present key is replaced. -/
def insertEntry (k : String) (v : Value) : List (String × Value) → List (String × Value)
  | [] => [(k, v)]
  | (l, w) :: rest =>
    if k < l then (k, v) :: (l, w) :: rest
    else if k = l then (k, v) :: rest
    else (l, w) :: insertEntry k v rest

/-- The map with the given entries; of two entries with one key the later wins. -/
def ofEntries (entries : List (String × Value)) : Value :=
  map (entries.foldl (fun acc e => insertEntry e.1 e.2 acc) [])

end Value

/-- What a call, a put or a whole saga comes to: a value or a fault. -/
abbrev Answer := Except Fault Value

/-- How a task ended. -/
inductive Outcome where
  | done (v : Value)
  | cancelled
  | aborted (f : Fault)
deriving Repr

namespace Outcome

/-- The terminal status that goes with an outcome. -/
def status : Outcome → Status
  | done _ => .done
  | cancelled => .cancelled
  | aborted _ => .aborted

/-- The value of a task that ended normally. -/
def value? : Outcome → Option Value
  | done v => some v
  | _ => none

/-- The fault of a task that failed. -/
def fault? : Outcome → Option Fault
  | aborted f => some f
  | _ => none

/-- What joining the task gives: cancellation is no failure and yields unit. -/
def toAnswer : Outcome → Answer
  | done v => .ok v
  | cancelled => .ok .unit
  | aborted f => .error f

end Outcome

end SagaMachine
