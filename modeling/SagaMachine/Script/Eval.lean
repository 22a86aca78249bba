import SagaMachine.World

/-!
# Evaluation of expressions and building of effects

Expressions read the variables of a body, the labels and the statuses of tasks, and
change nothing. An effect is built completely, members in order, before anything is
yielded; building fails if it names a task or a channel that does not exist.
-/

namespace SagaMachine

namespace World

/-- The integer of a value; zero if it is none. -/
def integerOf (v : Value) : Int := (v.json?.bind Json.signed?).getD 0

mutual

/-- The value of an expression. -/
def eval (w : World) (env : Env) : Expr → Value
  | .json j => .json j
  | .unit => .unit
  | .action kind payload => .action ⟨kind, (eval w env payload).toJson⟩
  | .list items => .list (evalList w env items)
  | .map entries => .ofEntries (evalEntries w env entries)
  | .var name => (env.get? name).getD .unit
  | .task label => ((w.labels.get? label).map Value.task).getD .unit
  | .payload x =>
    match eval w env x with
    | .action a => .json a.payload
    | _ => .unit
  | .kind x => ((eval w env x).kind?.map Value.ofString).getD .unit
  | .get x key => ((eval w env x).get? key).getD .unit
  | .item x n => ((eval w env x).list?.bind (·[n]?)).getD .unit
  | .add x n => .ofInt (integerOf (eval w env x) + n)
  | .mul x y => .ofInt (integerOf (eval w env x) * integerOf (eval w env y))
  | .toJson x => .json (eval w env x).toJson
  | .status x =>
    match eval w env x with
    | .task t => .ofString (w.statusOf t).name
    | _ => .unit

/-- The values of several expressions. -/
def evalList (w : World) (env : Env) : List Expr → List Value
  | [] => []
  | x :: xs => eval w env x :: evalList w env xs

/-- The values of several named expressions. -/
def evalEntries (w : World) (env : Env) : List (String × Expr) → List (String × Value)
  | [] => []
  | (k, x) :: xs => (k, eval w env x) :: evalEntries w env xs

end

/-- The action of an expression. -/
def evalAction (w : World) (env : Env) (a : ActionExpr) : Action :=
  ⟨a.kind, (w.eval env a.payload).toJson⟩

/-- Whether a test holds. -/
def holds (w : World) (env : Env) : Test → Bool
  | .const b => b
  | .eq x y => (w.eval env x).sameAs (w.eval env y)
  | .lt x n => decide (integerOf (w.eval env x) < n)
  | .has x key => ((w.eval env x).get? key).isSome
  | .isUnit x => (w.eval env x).isUnit
  | .not t => !w.holds env t

/-- The statements of a named script; an unknown name fails when it is run. -/
def scriptFor (w : World) (name : String) : List Stmt :=
  (w.scripts.lookup name).getD [.fail (.failed ("no saga " ++ name))]

/-- The saga of an expression. -/
def evalSaga (w : World) (env : Env) (s : SagaExpr) : Saga :=
  let args : Env := .ofList (w.evalEntries env s.args)
  match s.source with
  | .named name => { name, program := .script (w.scriptFor name) args }
  | .watcher mode pattern worker =>
    { name := mode.sagaName,
      program := .watcher { mode, pattern, worker, body := w.scriptFor worker, env := args } }

/-- The task of an expression. -/
def evalTask (w : World) (env : Env) (x : Expr) : Except Fault TaskRef :=
  match w.eval env x with
  | .task t => .ok t
  | _ => .error (.failed "no task")

/-- The channel under a name. -/
def channelNamed (w : World) (name : String) : Except Fault ChannelId :=
  match w.channelNames.get? name with
  | some c => .ok c
  | none => .error (.failed "no channel")

mutual

/-- Build an effect. -/
def build (w : World) (env : Env) : EffectExpr → Except Fault Effect
  | .take none pattern => .ok (.take .bus pattern)
  | .take (some name) pattern =>
    (w.channelNamed name).map fun c => .take (.channel c) pattern
  | .dispatch a => .ok (.put (.bus (w.evalAction env a)))
  | .put name x =>
    (w.channelNamed name).map fun c => .put (.channel c (w.eval env x))
  | .call c => .ok (.call (c.label.getD "") (.scripted c env))
  | .fork s => .ok (.fork (w.evalSaga env s) false)
  | .spawn s => .ok (.fork (w.evalSaga env s) true)
  | .join x => (w.evalTask env x).map .join
  | .cancel x => (w.evalTask env x).map fun t => .cancel (some t)
  | .cancelSelf => .ok (.cancel none)
  | .race members => (buildKeyed w env members).map .race
  | .racePositional members => (buildList w env members).map .racePositional
  | .all members => (buildList w env members).map .all
  | .select key => .ok (.select key)
  | .delay ms => .ok (.call "delay" (.sleep (integerOf (w.eval env ms)).toNat))
  | .unknown name => .error (.failed ("no effect " ++ name))

/-- Build several effects, in order; the first fault decides. -/
def buildList (w : World) (env : Env) : List EffectExpr → Except Fault (List Effect)
  | [] => .ok []
  | e :: es =>
    match build w env e with
    | .error f => .error f
    | .ok e => (buildList w env es).map (e :: ·)

/-- Build the members of a keyed race, in order; the first fault decides. -/
def buildKeyed (w : World) (env : Env) :
    List (String × EffectExpr) → Except Fault (List (String × Effect))
  | [] => .ok []
  | (k, e) :: es =>
    match build w env e with
    | .error f => .error f
    | .ok e => (buildKeyed w env es).map ((k, e) :: ·)

end

end World

end SagaMachine
