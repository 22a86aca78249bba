import SagaMachine.Json.Basic

/-!
# Actions

An action travels through the dispatch path of a host: it has a type and a payload.
Its JSON form is an object with the fields `type` and `payload`, the latter left out
when it is null. Reading also accepts an array of the type and, optionally, the
payload.
-/

namespace SagaMachine

/-- An event on the dispatch path. -/
structure Action where
  kind : String
  payload : Json := .null
deriving DecidableEq, Repr

namespace Action

/-- The JSON form of an action; a null payload is left out. -/
def toJson (a : Action) : Json :=
  match a.payload with
  | .null => .obj [("type", .str a.kind)]
  | payload => .obj [("payload", payload), ("type", .str a.kind)]

/-- Read an action from JSON: an object with a `type`, or an array that starts with one. -/
def ofJson? : Json → Option Action
  | .obj fields =>
    match fields.lookup "type" with
    | some (.str kind) => some ⟨kind, (fields.lookup "payload").getD .null⟩
    | _ => none
  | .arr [.str kind] => some ⟨kind, .null⟩
  | .arr [.str kind, payload] => some ⟨kind, payload⟩
  | _ => none

/-- The action as reports show it. -/
def inspect (a : Action) : String :=
  Text.showRecord "Action" [("kind", Text.quote a.kind), ("payload", a.payload.inspect)]

end Action

end SagaMachine
