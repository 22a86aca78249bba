import SagaMachine.Machine.Instr
import SagaMachine.Script.Eval

/-!
# Running scripts

A script runs statement by statement within one poll, until it waits for something,
returns, or fails. A fault unwinds to the innermost handler. When the body is over,
its guards go off before the interpreter sees the result.
-/

namespace SagaMachine

namespace ScriptBody

/-- The control that is left when the innermost handler takes over. -/
def unwind : List Frame → Option (List Stmt × List Frame)
  | [] => none
  | .handler stmts :: rest => some (stmts, rest)
  | .block _ :: rest => unwind rest
  | .loop .. :: rest => unwind rest

/-- What a handler sees of a fault. -/
def faultValue (f : Fault) : Value :=
  .json (.ofFields [("error", .str f.kind), ("message", .str f.message)])

/-- Hand a fault to the innermost handler, if there is one. -/
def catchFault (s : ScriptBody) (f : Fault) : Option ScriptBody :=
  (unwind s.control).map fun r =>
    { s with
      control := .block r.1 :: r.2
      env := s.env.insert "err" (faultValue f)
      caught := some f }

/-- Set a variable, if a name is given. -/
def bind (s : ScriptBody) (name : Option String) (v : Value) : ScriptBody :=
  match name with
  | none => s
  | some name => { s with env := s.env.insert name v }

end ScriptBody

namespace World

/-- Spend one unit of the budget of user code; nothing is left to run on without one. -/
def spend (w : World) : Option World :=
  match w.budget with
  | 0 => none
  | n + 1 => some { w with budget := n }

/-- Register a task under a label, if a label is given. -/
def register (w : World) (label : Option String) (v : Value) : World :=
  match label, v with
  | some label, .task t => { w with labels := w.labels.insert label t }
  | _, _ => w

/-- The body is over: guards first, then the result. -/
def finishScript (w : World) (turn : Turn) (s : ScriptBody) (a : Answer) : Config :=
  let spent : ScriptBody := { s with control := [], guards := [], pause := none }
  ⟨[.guards s.guards, .polled turn (.script spent) (.complete a)], w⟩

/-- Raise a fault inside the body. -/
def raise (w : World) (turn : Turn) (s : ScriptBody) (m : Mailbox Effect) (f : Fault) :
    Config :=
  match s.catchFault f with
  | some s => ⟨[.advance turn s m], w⟩
  | none => w.finishScript turn s (.error f)

/-- Go on with the answers to everything the body waited for. -/
def resumeScript (w : World) (turn : Turn) (s : ScriptBody) (m : Mailbox Effect)
    (resumption : Resumption) (answers : List Answer) : Config :=
  match resumption, answers with
  | .bind name label, .ok v :: _ => ⟨[.advance turn (s.bind name v) m], w.register label v⟩
  | .bind .., .error f :: _ => w.raise turn s m f
  | .bind .., [] => ⟨[.advance turn s m], w⟩
  | .report, answers => ⟨[.advance turn s m], w.enter (.joined answers)⟩

/-- Poll everything the body waits for; it rests unless all of it is answered. -/
def awaitAll (w : World) (turn : Turn) (s : ScriptBody) (m : Mailbox Effect) (p : Pause) :
    Config :=
  let r := Awaiting.pollAll m p.awaiting
  match Awaiting.answers? r.1 with
  | some answers => w.resumeScript turn { s with pause := none } r.2 p.resumption answers
  | none =>
    let resting : ScriptBody := { s with pause := some { p with awaiting := r.1 } }
    ⟨[.polled turn (.script resting) r.2.verdict], w⟩

/-- Continue with what an effect expression builds, or raise its fault. -/
def withEffects {α : Type} (w : World) (turn : Turn) (s : ScriptBody) (m : Mailbox Effect)
    (built : Except Fault α) (next : α → Config) : Config :=
  match built with
  | .ok a => next a
  | .error f => w.raise turn s m f

/-- Run one statement; the control of `s` is what follows it. -/
def execStmt (w : World) (turn : Turn) (s : ScriptBody) (m : Mailbox Effect) :
    Stmt → Config
  | .perform effect name label =>
    w.withEffects turn s m (w.build s.env effect) fun e =>
      w.awaitAll turn s m { awaiting := [.unsent e], resumption := .bind name label }
  | .assign name x label =>
    let v := w.eval s.env x
    ⟨[.advance turn (s.bind (some name) v) m], w.register label v⟩
  | .log tag x => ⟨[.advance turn s m], w.enter (.log tag (w.eval s.env x))⟩
  | .guard name ops =>
    ⟨[.advance turn { s with guards := { name, ops, env := s.env } :: s.guards } m], w⟩
  | .return x => w.finishScript turn s (.ok (w.eval s.env x))
  | .fail f => w.raise turn s m f
  | .attempt body handler =>
    ⟨[.advance turn { s with control := .block body :: .handler handler :: s.control } m], w⟩
  | .rethrow => w.raise turn s m (s.caught.getD (.failed "nothing caught"))
  | .ifThen test yes no =>
    let branch := if w.holds s.env test then yes else no
    ⟨[.advance turn { s with control := .block branch :: s.control } m], w⟩
  | .repeat times body =>
    ⟨[.advance turn { s with control := .loop times body :: s.control } m], w⟩
  | .ops os => ⟨[.ops s.env os, .advance turn s m], w⟩
  | .foreign => w.awaitAll turn s m { awaiting := [.foreign], resumption := .report }
  | .joined effects =>
    w.withEffects turn s m (w.buildList s.env effects) fun es =>
      w.awaitAll turn s m { awaiting := es.map .unsent, resumption := .report }
  | .mixed effect =>
    w.withEffects turn s m (w.build s.env effect) fun e =>
      w.awaitAll turn s m { awaiting := [.unsent e, .foreign], resumption := .report }
  | .describe effect =>
    w.withEffects turn s m (w.build s.env effect) fun e =>
      let entry := .described e.kind (e.inspect w.surroundings) e.raceWidth?
      ⟨[.advance turn s m], w.enter entry⟩
  | .unknown name => w.raise turn s m (.failed ("no statement " ++ name))

/-- Go on with the innermost thing the script is inside of. -/
def execAdvance (w : World) (turn : Turn) (s : ScriptBody) (m : Mailbox Effect) :
    Option Config :=
  match s.control with
  | [] => some (w.finishScript turn s (.ok .unit))
  | .block [] :: rest => some ⟨[.advance turn { s with control := rest } m], w⟩
  | .block (stmt :: stmts) :: rest =>
    w.spend.map fun w => w.execStmt turn { s with control := .block stmts :: rest } m stmt
  | .handler _ :: rest => some ⟨[.advance turn { s with control := rest } m], w⟩
  | .loop (some 0) _ :: rest => some ⟨[.advance turn { s with control := rest } m], w⟩
  | .loop times body :: rest =>
    w.spend.map fun w =>
      let control := .block body :: .loop (times.map (· - 1)) body :: rest
      ⟨[.advance turn { s with control } m], w⟩

/-- Poll a body. -/
def execPoll (w : World) (turn : Turn) (body : Body) (answer : Option Answer) : Config :=
  let w := w.record turn.mw (.polled turn.task answer)
  match body with
  | .watcher b =>
    let r := b.resume answer
    ⟨[.polled turn (.watcher r.1) r.2], w⟩
  | .script s =>
    match s.pause with
    | none => ⟨[.advance turn s (.opened answer)], w⟩
    | some p => w.awaitAll turn s (.opened answer) p

/-- Let guards go off, one after the other. -/
def execGuards (w : World) : List Guard → Config
  | [] => ⟨[], w⟩
  | g :: gs => ⟨[.ops g.env g.ops, .guards gs], w.enter (.guard g.name)⟩

end World

end SagaMachine
