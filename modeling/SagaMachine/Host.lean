import SagaMachine.Script.Syntax

/-!
# Hosts

Every action on the bus goes through the host of its middleware before any saga sees
it. A host keeps a state that its rules update: counting, storing payloads or
collecting them. It may also run operations of its own, or refuse an action.
-/

namespace SagaMachine

/-- What a host does with the actions of one type. -/
structure Rule where
  /-- Operations run on the way, with the action as a variable. -/
  ops : List Op := []
  /-- Refuse the action with this message. -/
  fail : Option String := none
  /-- The field to count up. -/
  increment : Option String := none
  /-- The field that stores the payload. -/
  store : Option String := none
  /-- The field that collects the payloads. -/
  collect : Option String := none
deriving Repr

/-- The state behind a host. -/
inductive HostState where
  /-- No state and no reducer. -/
  | stateless
  | json (j : Json)
  /-- A state that has no JSON form. -/
  | unreadable
deriving Repr

/-- A host: its rules by action type, and its state. -/
structure Host where
  /-- Forward actions without reporting them, running operations or refusing any. -/
  quiet : Bool := false
  rules : List (String × Rule) := []
  state : HostState := .stateless
deriving Repr

namespace Host

/-- The rule for an action. -/
def ruleFor (h : Host) (a : Action) : Rule := (h.rules.lookup a.kind).getD {}

/-- Add 1 to an integer field; a field that is missing or no integer counts as zero. -/
def countUp (key : String) (fields : List (String × Json)) : List (String × Json) :=
  let n := ((fields.lookup key).bind Json.signed?).getD 0
  Json.insertField key (Json.ofInt (n + 1)) fields

/-- Append a value to a list field, made if it is missing; other fields stay as they are. -/
def append (key : String) (v : Json) (fields : List (String × Json)) :
    List (String × Json) :=
  match (fields.lookup key).getD (.arr []) with
  | .arr items => Json.insertField key (.arr (items ++ [v])) fields
  | _ => fields

/-- Apply a rule to the fields of a state: count, then store, then collect. -/
def applyRule (r : Rule) (payload : Json) (fields : List (String × Json)) :
    List (String × Json) :=
  let fields := r.increment.elim fields fun key => countUp key fields
  let fields := r.store.elim fields fun key => Json.insertField key payload fields
  r.collect.elim fields fun key => append key payload fields

/-- The reducer: only the state of an object changes. -/
def reduceState (rules : List (String × Rule)) (state : HostState) (a : Action) : HostState :=
  match state with
  | .json (.obj fields) =>
    .json (.obj (applyRule ((rules.lookup a.kind).getD {}) a.payload fields))
  | state => state

/-- Let the reducer see an action. -/
def reduce (h : Host) (a : Action) : Host :=
  { h with state := reduceState h.rules h.state a }

/-- The state as JSON; null if there is none, and whether it could be read. -/
def snapshot (h : Host) : Json × Bool :=
  match h.state with
  | .stateless => (.null, true)
  | .json j => (j, true)
  | .unreadable => (.null, false)

end Host

end SagaMachine
