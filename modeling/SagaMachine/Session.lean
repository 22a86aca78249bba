import SagaMachine.Machine.Run
import SagaMachine.Report

/-!
# The ping/pong session

Two sagas play a number of rounds over a counting host. The ponger is a watcher that
answers every PING after a latency growing with the square of the round; the pinger
sends a PING per round and counts the rounds in which a PONG came in before its
timeout. The session runs until the pinger is done, ends the bus, and runs on until
the watcher is done too.
-/

namespace SagaMachine

/-- A session: how many rounds, the latency of the first answer, and the timeout. -/
structure Session where
  rounds : Nat
  base : Nat
  timeout : Nat

/-- What is seen of a session. -/
structure SessionReport where
  answered : Json
  liveBeforeEnd : Nat
  liveAfter : Nat
  watcher : Status
  state : Json
  /-- The actions that the host saw, with the time of the clock. -/
  actions : List (Nat × Action)
  lines : List Line

namespace Session

/-- Answer a PING after the latency of its round. -/
def pong (base : Nat) : List Stmt :=
  let round : Expr := .payload (.var "action")
  [.perform (.delay (.mul (.json (.ofNat base)) (.mul round round))) none none,
   .perform (.dispatch { kind := "PONG", payload := round }) none none]

/-- The watcher that forks an answer per PING. -/
def ponger : SagaExpr := { source := .watcher .every (.type "PING") "pong" }

/-- One round: send a PING, then wait for a PONG or for the timeout. -/
def pingRound (timeout : Nat) : List Stmt :=
  let round : Expr := .var "round"
  [.assign "round" (.add round 1) none,
   .perform (.dispatch { kind := "PING", payload := round }) none none,
   .perform
     (.race [("pong", .take none (.type "PONG")), ("timeout", .delay (.json (.ofNat timeout)))])
     (some "winner") none,
   .ifThen (.has (.var "winner") "timeout")
     [.perform (.dispatch { kind := "TIMEOUT", payload := round }) none none]
     [.assign "answered" (.add (.var "answered") 1) none]]

/-- All rounds; the result is the number of rounds that were answered. -/
def pinger (rounds timeout : Nat) : List Stmt :=
  [.assign "answered" (.json (.ofNat 0)) none,
   .repeat (some rounds) (pingRound timeout),
   .return (.var "answered")]

/-- The host counts the actions of each type. -/
def host : Host :=
  { rules := [
      ("PING", { increment := some "pings" }),
      ("PONG", { increment := some "pongs" }),
      ("TIMEOUT", { increment := some "timeouts" })]
    state := .json (.ofFields
      [("pings", .ofNat 0), ("pongs", .ofNat 0), ("timeouts", .ofNat 0)]) }

/-- The world of a session before its first step. -/
def world (s : Session) : World :=
  { middlewares := Table.empty.insert 0 { host }
    scripts := [("pong", pong s.base), ("pinger", pinger s.rounds s.timeout)]
    budget := 20 * s.rounds + 20 }

/-- The number of live tasks. -/
def live (w : World) : Nat := (w.engine 0).tasks.size

/-- The status of the task under a label. -/
def statusOf (w : World) (label : String) : Status :=
  ((w.labels.get? label).map w.statusOf).getD .cancelled

/-- The time at which the next timer is due. -/
def nextDeadline? (w : World) : Option Nat :=
  (w.timers.map Timer.deadline).min?

/-- Move the clock from timer to timer until a task is done, at most `fuel` times. -/
def runUntilDone (label : String) : Nat → World → Option World
  | 0, w => some w
  | fuel + 1, w =>
    if (statusOf w label).isTerminal then some w
    else
      match nextDeadline? w with
      | none => some w
      | some deadline =>
        (w.perform (.advance (deadline - w.now))).bind (runUntilDone label fuel)

/-- Every round starts two timers at most. -/
def timerLimit (s : Session) : Nat := 2 * s.rounds + 1

/-- Play a session. -/
def play (s : Session) : Option SessionReport := do
  let w ← s.world.perform (.run 0 ponger (some "watcher"))
  let w ← w.perform (.run 0 { source := .named "pinger" } (some "pinger"))
  let w ← runUntilDone "pinger" s.timerLimit w
  let liveBeforeEnd := live w
  let answered :=
    match (w.labels.get? "pinger").bind w.outcomeOf with
    | some (.done v) => v.toJson
    | _ => .null
  let w ← w.perform (.finish 0)
  let w ← runUntilDone "watcher" s.timerLimit w
  let entries := w.journal.reverse
  return {
    answered, liveBeforeEnd, liveAfter := live w, watcher := statusOf w "watcher",
    state := (w.readState 0).1,
    actions := entries.filterMap fun
      | .host _ time a => some (time, a)
      | _ => none,
    lines := entries.flatMap fun
      | .host .. => []
      | e => w.linesOf e }

end Session

end SagaMachine
