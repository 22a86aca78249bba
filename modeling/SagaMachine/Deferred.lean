import SagaMachine.Value

/-!
# Deferred results

A deferred is a result that is not available yet. It is settled at most once, by
hand or by the timer behind it, and answers the one call that listens to it. A
deferred is generic in what it keeps for its listener (`κ`).
-/

namespace SagaMachine

/-- The number of a timer. -/
abbrev TimerId := Nat

/-- A single-assignment result with at most one listener and at most one timer behind it. -/
structure Deferred (κ : Type) where
  outcome : Option Answer := none
  listener : Option κ := none
  timer : Option TimerId := none
deriving Repr

namespace Deferred

variable {κ : Type}

/-- A deferred that is settled from the start. -/
def settled (a : Answer) : Deferred κ := { outcome := some a }

/-- What an attempt to settle does. -/
structure Settlement (κ : Type) where
  /-- Whether this attempt fixed the outcome. -/
  accepted : Bool
  /-- The listener to be told. -/
  listener : Option κ
  deferred : Deferred κ
deriving Repr

/-- Settle: the first attempt fixes the outcome and releases the listener. -/
def settle (d : Deferred κ) (a : Answer) : Settlement κ :=
  match d.outcome with
  | some _ => ⟨false, none, d⟩
  | none => ⟨true, d.listener, { outcome := some a, listener := none, timer := none }⟩

/-- Listen. A settled deferred answers at once and keeps no listener. -/
def subscribe (d : Deferred κ) (k : κ) : Option Answer × Deferred κ :=
  match d.outcome with
  | some a => (some a, d)
  | none => (none, { d with listener := some k })

/-- Stop listening. The answer names the timer to be stopped, if one is running. -/
def unsubscribe (d : Deferred κ) : Option TimerId × Deferred κ :=
  (d.timer, { d with listener := none, timer := none })

/-- The deferred as reports show it, given the present status of every task. -/
def inspect (status : TaskRef → Status) (d : Deferred κ) : String :=
  let outcome :=
    match d.outcome with
    | none => "None"
    | some (.ok v) => Text.showTuple "Some" [Text.showTuple "Ok" [v.inspect status]]
    | some (.error f) => Text.showTuple "Some" [Text.showTuple "Err" [f.inspect]]
  Text.showRecord "Deferred" [("outcome", outcome)]

end Deferred

end SagaMachine
