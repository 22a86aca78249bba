import SagaMachine.Value

/-!
# Patterns

A pattern says which values a taker accepts. Acceptance (`Pattern.accepts`) is a
plain function of the value; a predicate that reports its evaluations does so
through `Pattern.notes`, so looking at a value never changes the answer.
-/

namespace SagaMachine

/-- A condition on values, given by user code. -/
inductive Predicate where
  | const (b : Bool)
  /-- The value is this JSON. -/
  | jsonIs (j : Json)
  /-- The value is an action with this payload. -/
  | payloadIs (j : Json)
  /-- The value is an action whose payload is an integer of at least `n`. -/
  | payloadAtLeast (n : Int)
  /-- The kind of the value is not `s`; a value without a kind passes. -/
  | kindIsNot (s : String)
  /-- The value has this form. -/
  | formIs (s : String)
  /-- Report the value under a tag at every evaluation, then answer as `inner`. -/
  | reported (tag : Json) (inner : Predicate)
deriving Repr

/-- A report of a predicate: its tag and the value it looked at. -/
abbrev Note := Json × Value

namespace Predicate

/-- Whether the condition holds. -/
def holds : Predicate → Value → Bool
  | const b, _ => b
  | jsonIs j, v =>
    match v with
    | .json k => k.sameAs j
    | _ => false
  | payloadIs j, v =>
    match v with
    | .action a => a.payload.sameAs j
    | _ => false
  | payloadAtLeast n, v =>
    match v with
    | .action a =>
      match a.payload.signed? with
      | some m => decide (n ≤ m)
      | none => false
    | _ => false
  | kindIsNot s, v => v.kind? != some s
  | formIs s, v => v.form == s
  | reported _ inner, v => inner.holds v

/-- The reports made while the condition is evaluated, in order. -/
def notes : Predicate → Value → List Note
  | reported tag inner, v => (tag, v) :: inner.notes v
  | _, _ => []

end Predicate

/-- What a taker is willing to take. -/
inductive Pattern where
  | any
  | type (kind : String)
  | oneOf (kinds : List String)
  | predicate (p : Predicate)
deriving Repr

namespace Pattern

/-- The pattern that a plain text stands for: the star accepts everything. -/
def ofText (s : String) : Pattern :=
  if s = "*" then any else type s

/-- Whether the pattern accepts a value. -/
def accepts : Pattern → Value → Bool
  | any, _ => true
  | type kind, v => v.kind? == some kind
  | oneOf kinds, v =>
    match v.kind? with
    | some k => kinds.contains k
    | none => false
  | predicate p, v => p.holds v

/-- The reports made while the pattern is matched against a value. -/
def notes : Pattern → Value → List Note
  | predicate p, v => p.notes v
  | _, _ => []

/-- The reports of a search that stops at the first accepted value. -/
def searchNotes (p : Pattern) : List Value → List Note
  | [] => []
  | v :: vs => p.notes v ++ if p.accepts v then [] else searchNotes p vs

/-- The pattern as reports show it. -/
def inspect : Pattern → String
  | any => "*"
  | type kind => Text.quote kind
  | oneOf kinds => Text.showList (kinds.map Text.quote)
  | predicate _ => "<predicate>"

end Pattern

end SagaMachine
