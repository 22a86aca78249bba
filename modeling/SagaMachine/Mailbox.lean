import SagaMachine.Value

/-!
# The mailbox of a body

A saga body and the interpreter exchange one effect per step through a mailbox. A
perform that is polled for the first time leaves its effect in the slot; polled
again, it picks up the answer. When the body comes to rest, the mailbox says what
the step amounts to (`Mailbox.verdict`): exactly one effect is to be run, and two
effects, or none, are a fault of the body.
-/

namespace SagaMachine

variable {ε : Type}

/-- The slot for one effect and the answer to the last one. -/
structure Mailbox (ε : Type) where
  slot : Option ε := none
  /-- Another effect was left while the slot was taken. -/
  crowded : Bool := false
  answer : Option Answer := none

/-- What a body waits for: a perform, before or after its effect was left, or anything else. -/
inductive Awaiting (ε : Type) where
  | unsent (e : ε)
  | sent
  | answered (a : Answer)
  /-- Something that is no effect and never completes. -/
  | foreign

/-- What a poll of the body comes to. -/
inductive Step (ε : Type) where
  | yielded (e : ε)
  | complete (a : Answer)

namespace Awaiting

/-- Poll one of the things a body waits for. -/
def poll (m : Mailbox ε) : Awaiting ε → Awaiting ε × Mailbox ε
  | unsent e =>
    match m.slot with
    | none => (sent, { m with slot := some e })
    | some _ => (sent, { m with crowded := true })
  | sent =>
    match m.answer with
    | some a => (answered a, { m with answer := none })
    | none => (sent, m)
  | answered a => (answered a, m)
  | foreign => (foreign, m)

/-- Poll everything a body waits for, in order. -/
def pollAll (m : Mailbox ε) : List (Awaiting ε) → List (Awaiting ε) × Mailbox ε
  | [] => ([], m)
  | w :: ws =>
    let (w, m) := w.poll m
    let (ws, m) := pollAll m ws
    (w :: ws, m)

/-- The answer of a completed perform. -/
def answer? : Awaiting ε → Option Answer
  | answered a => some a
  | _ => none

/-- The answers, once everything is answered. -/
def answers? : List (Awaiting ε) → Option (List Answer)
  | [] => some []
  | w :: ws =>
    match w.answer?, answers? ws with
    | some a, some as => some (a :: as)
    | _, _ => none

end Awaiting

namespace Mailbox

/-- The fault of a body that leaves two effects in one step. -/
def crowdedFault : Fault :=
  .invalidEffect
    "more than one effect yielded in a single step; combine them with `all` or `race`"

/-- The mailbox at the start of a step. -/
def opened (answer : Option Answer) : Mailbox ε := { answer }

/-- What the step of a body that came to rest amounts to. -/
def verdict (m : Mailbox ε) : Step ε :=
  if m.crowded then .complete (.error crowdedFault)
  else
    match m.slot with
    | some e => .yielded e
    | none => .complete (.error .foreignAwait)

end Mailbox

end SagaMachine
