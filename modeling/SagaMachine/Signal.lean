import SagaMachine.Channel

/-!
# Signals

A suspended effect settles with a signal: a value, a fault, or the end of its
source. Deliveries of channels, answers of calls and outcomes of tasks all become
signals on their way back to a body.
-/

namespace SagaMachine

/-- What a suspended effect settles with. -/
inductive Signal where
  | value (v : Value)
  | fault (f : Fault)
  /-- The source has ended; the waiting task ends without another step. -/
  | ended
deriving Repr

namespace Signal

/-- The signal of a delivery. -/
def ofDelivery : Delivery → Signal
  | .value v => value v
  | .ended => ended

/-- The signal of an answer. -/
def ofAnswer : Answer → Signal
  | .ok v => value v
  | .error f => fault f

/-- The signal for the tasks that join on an outcome. -/
def ofOutcome (o : Outcome) : Signal := ofAnswer o.toAnswer

/-- Success without a value, or a fault. -/
def ofResult : Except Fault Unit → Signal
  | .ok _ => value .unit
  | .error f => fault f

end Signal

end SagaMachine
