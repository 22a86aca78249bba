import SagaMachine.Buffer

/-!
# Channels

A channel pairs a buffer with a queue of pending takers. A put goes straight to the
earliest taker that accepts the value and is buffered otherwise; closing is final:
buffered values stay takeable, every other taker is told that the source has ended.

A channel is generic in what it keeps for a taker (`κ`, where its delivery goes), so
its laws do not depend on who takes.
-/

namespace SagaMachine

/-- What a taker receives. -/
inductive Delivery where
  | value (v : Value)
  /-- The source has ended and holds nothing the taker accepts. -/
  | ended
deriving Repr

/-- The number of a taker within its channel or bus. -/
abbrev TakerId := Nat

/-- A taker that waits for a value. -/
structure Taker (κ : Type) where
  id : TakerId
  pattern : Pattern
  sink : κ
deriving Repr

/-- A channel: its buffer, and its pending takers in order of registration. -/
structure Channel (κ : Type) where
  buffer : Buffer
  takers : List (Taker κ) := []
  closed : Bool := false
  nextTaker : TakerId := 1
deriving Repr

/-- What became of a value that was put. -/
inductive PutResult (κ : Type) where
  /-- The channel is closed, the value was dropped. -/
  | ignored
  /-- The value belongs to this taker now. -/
  | delivered (taker : Taker κ)
  /-- No taker was waiting: the buffer took the value or refused it. -/
  | buffered (r : Except Fault Unit)
deriving Repr

namespace Channel

variable {κ : Type}

/-- Remove the first taker that accepts a value. -/
def removeTaker (v : Value) : List (Taker κ) → Option (Taker κ × List (Taker κ))
  | [] => none
  | t :: ts =>
    if t.pattern.accepts v then some (t, ts)
    else (removeTaker v ts).map fun r => (r.1, t :: r.2)

/-- Put a value: to the earliest taker that accepts it, else into the buffer. -/
def put (c : Channel κ) (v : Value) : PutResult κ × Channel κ :=
  if c.closed then (.ignored, c)
  else
    match removeTaker v c.takers with
    | some (t, rest) => (.delivered t, { c with takers := rest })
    | none =>
      match c.buffer.put v with
      | .ok b => (.buffered (.ok ()), { c with buffer := b })
      | .error f => (.buffered (.error f), c)

/-- The reports of the patterns evaluated by `put`. -/
def putNotes (c : Channel κ) (v : Value) : List Note :=
  if c.closed then [] else go c.takers
where
  go : List (Taker κ) → List Note
    | [] => []
    | t :: ts => t.pattern.notes v ++ if t.pattern.accepts v then [] else go ts

/-- What a new taker meets: a delivery at once, or a place in the queue. -/
structure Registration (κ : Type) where
  id : TakerId
  delivery : Option Delivery
  channel : Channel κ
deriving Repr

/-- Register a taker. A buffered value or the end of the channel is delivered at once. -/
def take (c : Channel κ) (p : Pattern) (sink : κ) : Registration κ :=
  let id := c.nextTaker
  let c := { c with nextTaker := id + 1 }
  match c.buffer.take p with
  | some (v, b) => ⟨id, some (.value v), { c with buffer := b }⟩
  | none =>
    if c.closed then ⟨id, some .ended, c⟩
    else ⟨id, none, { c with takers := c.takers ++ [⟨id, p, sink⟩] }⟩

/-- The reports of the patterns evaluated by `take`. -/
def takeNotes (c : Channel κ) (p : Pattern) : List Note :=
  c.buffer.takeNotes p

/-- Whether a taker is still pending. -/
def isPending (c : Channel κ) (id : TakerId) : Bool :=
  c.takers.any fun t => t.id == id

/-- Withdraw a pending taker; the answer says whether it was still pending. -/
def cancelTaker (c : Channel κ) (id : TakerId) : Bool × Channel κ :=
  (c.isPending id, { c with takers := c.takers.filter fun t => t.id ≠ id })

/-- Close the channel. The answer lists the takers that learn of the end, in order. -/
def close (c : Channel κ) : List (Taker κ) × Channel κ :=
  if c.closed then ([], c) else (c.takers, { c with takers := [], closed := true })

/-- The channel as reports show it. -/
def inspect (c : Channel κ) : String :=
  Text.showRecord "Channel"
    [("buffered", toString c.buffer.items.length), ("takers", toString c.takers.length),
      ("closed", Text.showBool c.closed)]

end Channel

end SagaMachine
