import SagaMachine.Text.Layout
import SagaMachine.Text.Quoted

/-!
# Faults

The causes for which an effect, a saga or a channel operation fails. A fault is
raised at the effect that met it; uncaught, it ends the saga and travels up to the
parent. All wording is in `Fault.message`.
-/

namespace SagaMachine

/-- Why something failed. -/
inductive Fault where
  /-- Raised by user code, with its own message. -/
  | failed (message : String)
  /-- The effect cannot be carried out as it was described. -/
  | invalidEffect (reason : String)
  /-- The saga waits for something that is no effect. -/
  | foreignAwait
  /-- Deferred work was asked for where no timers are available. -/
  | noTimers
  /-- A bounded buffer refused a value. -/
  | overflow (limit : Nat)
deriving DecidableEq, Repr

namespace Fault

/-- The wording of a fault. -/
def message : Fault → String
  | failed message => message
  | invalidEffect reason => "invalid effect: " ++ reason
  | foreignAwait => "saga awaited a future that is not an effect; wrap it in `call`"
  | noTimers => "deferred work needs a tokio LocalSet"
  | overflow limit => "channel buffer overflow (limit " ++ toString limit ++ ")"

/-- The kind of a fault. -/
def kind : Fault → String
  | failed _ => "Failed"
  | invalidEffect _ => "InvalidEffect"
  | foreignAwait => "ForeignAwait"
  | noTimers => "NoLocalSet"
  | overflow _ => "Channel"

/-- The fault as reports show it. -/
def inspect : Fault → String
  | failed message => Text.showTuple "Failed" [message]
  | invalidEffect reason => Text.showTuple "InvalidEffect" [Text.quote reason]
  | foreignAwait => "ForeignAwait"
  | noTimers => "NoLocalSet"
  | overflow limit =>
    Text.showTuple "Channel" [Text.showRecord "Overflow" [("limit", toString limit)]]

end Fault

end SagaMachine
