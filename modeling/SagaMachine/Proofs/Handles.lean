import SagaMachine.Machine.Run

/-!
# The handles in data

Task handles flow through the values of user code: they are bound to variables, put on channels,
returned, and answered by deferreds. Data is within a set of handles if all handles that occur in
it are in this set. What user code makes of its data and of the labels is within the set again.

Main definitions: `Value.Within`, `Effect.Within`, `Body.Within`.
Main statements: `World.eval_within`, `World.build_within`, `WatcherBody.resume_within`.
-/

namespace SagaMachine

/-! ## Tables -/

/-- All values of a table have a property. -/
def Table.Each {κ α : Type} (Q : α → Prop) (t : Table κ α) : Prop := ∀ e ∈ t.entries, Q e.2

namespace Table.Each

variable {κ α : Type} [DecidableEq κ] {Q : α → Prop} {t : Table κ α} {k : κ} {v : α}

omit [DecidableEq κ] in
theorem empty : Each Q (.empty : Table κ α) := fun _ he => absurd he List.not_mem_nil

theorem get? (h : t.Each Q) (hk : t.get? k = some v) : Q v := by
  obtain ⟨e, he, rfl⟩ := Option.map_eq_some_iff.1 hk
  exact h e (List.mem_of_find?_eq_some he)

theorem modify (h : t.Each Q) (k : κ) {f : α → α} (hf : ∀ a, Q a → Q (f a)) :
    (t.modify k f).Each Q := by
  intro e he
  obtain ⟨e', he', rfl⟩ := List.mem_map.1 he
  split
  · exact hf _ (h e' he')
  · exact h e' he'

theorem insert (h : t.Each Q) (k : κ) (hv : Q v) : (t.insert k v).Each Q := by
  unfold Table.insert
  split
  · exact h.modify k fun _ _ => hv
  · intro e he
    rcases List.mem_append.1 he with he | he
    · exact h e he
    · rw [List.mem_singleton.1 he]
      exact hv

theorem erase (h : t.Each Q) (k : κ) : (t.erase k).Each Q :=
  fun e he => h e (List.mem_filter.1 he).1

theorem ofList {pairs : List (κ × α)} (h : ∀ e ∈ pairs, Q e.2) : (Table.ofList pairs).Each Q := by
  suffices hfold : ∀ {t : Table κ α}, t.Each Q →
      (pairs.foldl (fun t e => t.insert e.1 e.2) t).Each Q from hfold empty
  induction pairs with
  | nil => exact fun ht => ht
  | cons p pairs ih =>
    exact fun ht => ih (fun e he => h e (List.mem_cons_of_mem _ he))
      (ht.insert p.1 (h p List.mem_cons_self))

end Table.Each

/-! ## Values and effects -/

/-- All handles in a value are in a set. -/
inductive Value.Within (P : TaskRef → Prop) : Value → Prop
  | unit : Within P .unit
  | json (j : Json) : Within P (.json j)
  | action (a : Action) : Within P (.action a)
  | task {t : TaskRef} (ht : P t) : Within P (.task t)
  | list {vs : List Value} (hvs : ∀ v ∈ vs, Within P v) : Within P (.list vs)
  | map {es : List (String × Value)} (hes : ∀ e ∈ es, Within P e.2) : Within P (.map es)

/-- All handles in the variables of a body are in a set. -/
abbrev Env.Within (P : TaskRef → Prop) (env : Env) : Prop := Table.Each (Value.Within P) env

section

variable (P : TaskRef → Prop)

/-- All handles in an answer are in a set. -/
def Answer.Within (a : Answer) : Prop := ∀ v, a = .ok v → v.Within P

/-- All handles in a signal are in a set. -/
def Signal.Within (signal : Signal) : Prop := ∀ v, signal = .value v → v.Within P

/-- All handles in an outcome are in a set. -/
def Outcome.Within (o : Outcome) : Prop := ∀ v, o = .done v → v.Within P

/-- All handles in a delivery are in a set. -/
def Delivery.Within (d : Delivery) : Prop := ∀ v, d = .value v → v.Within P

/-- All handles in a saga are in a set. -/
def Saga.Within (saga : Saga) : Prop :=
  match saga.program with
  | .script _ env => Env.Within P env
  | .watcher plan => Env.Within P plan.env

/-- All handles in an effect are in a set. -/
inductive Effect.Within : Effect → Prop
  | take (source : Source) (p : Pattern) : Within (.take source p)
  | putBus (a : Action) : Within (.put (.bus a))
  | putChannel (c : ChannelId) {v : Value} (hv : v.Within P) : Within (.put (.channel c v))
  | scripted (name : String) (c : CallExpr) {env : Env} (henv : Env.Within P env) :
      Within (.call name (.scripted c env))
  | sleep (name : String) (ms : Nat) : Within (.call name (.sleep ms))
  | fork {saga : Saga} (hs : saga.Within P) (detached : Bool) : Within (.fork saga detached)
  | join {t : TaskRef} (ht : P t) : Within (.join t)
  | race {es : List (String × Effect)} (hes : ∀ e ∈ es, Within e.2) : Within (.race es)
  | racePositional {es : List Effect} (hes : ∀ e ∈ es, Within e) : Within (.racePositional es)
  | all {es : List Effect} (hes : ∀ e ∈ es, Within e) : Within (.all es)
  | cancel {target : Option TaskRef} (ht : ∀ t, target = some t → P t) : Within (.cancel target)
  | select (key : Option String) : Within (.select key)

/-- All handles in what a body waits for are in a set. -/
def Awaiting.Within : Awaiting Effect → Prop
  | .unsent e => e.Within P
  | .answered a => a.Within P
  | _ => True

/-- All handles in a mailbox are in a set. -/
structure Mailbox.Within (m : Mailbox Effect) : Prop where
  slot : ∀ e, m.slot = some e → e.Within P
  answer : ∀ a, m.answer = some a → a.Within P

/-- All handles in a step of a body are in a set. -/
def Step.Within : Step Effect → Prop
  | .yielded e => e.Within P
  | .complete a => a.Within P

/-- All handles in a script between two steps are in a set. -/
structure ScriptBody.Within (s : ScriptBody) : Prop where
  env : Env.Within P s.env
  guards : ∀ g ∈ s.guards, Env.Within P g.env
  pause : ∀ p, s.pause = some p → ∀ a ∈ p.awaiting, Awaiting.Within P a

/-- All handles in a watcher between two steps are in a set. -/
structure WatcherBody.Within (b : WatcherBody) : Prop where
  env : Env.Within P b.plan.env
  last : ∀ t, b.last = some t → P t

/-- All handles in a body are in a set. -/
def Body.Within : Body → Prop
  | .script s => s.Within P
  | .watcher b => b.Within P

end

variable {P : TaskRef → Prop} {v : Value} {f : Fault} {a : Answer} {o : Outcome} {env : Env}

theorem Answer.Within.ok (h : v.Within P) : Answer.Within P (.ok v) := by
  rintro _ ⟨⟩
  exact h

theorem Answer.Within.error : Answer.Within P (.error f) := by
  rintro _ ⟨⟩

theorem Signal.Within.value (h : v.Within P) : (Signal.value v).Within P := by
  rintro _ ⟨⟩
  exact h

theorem Signal.Within.fault : (Signal.fault f).Within P := by
  rintro _ ⟨⟩

theorem Signal.Within.ended : Signal.ended.Within P := by
  rintro _ ⟨⟩

theorem Signal.Within.ofAnswer (h : a.Within P) : (Signal.ofAnswer a).Within P := by
  cases a with
  | ok v => exact .value (h v rfl)
  | error f => exact .fault

theorem Signal.Within.ofOutcome (h : o.Within P) : (Signal.ofOutcome o).Within P := by
  cases o with
  | done v => exact .value (h v rfl)
  | cancelled => exact .value .unit
  | aborted f => exact .fault

theorem Signal.Within.ofDelivery {d : Delivery} (h : d.Within P) :
    (Signal.ofDelivery d).Within P := by
  cases d with
  | value v => exact .value (h v rfl)
  | ended => exact .ended

theorem Signal.Within.ofResult (r : Except Fault Unit) : (Signal.ofResult r).Within P := by
  cases r with
  | ok => exact .value .unit
  | error f => exact .fault

theorem Outcome.Within.done (h : v.Within P) : (Outcome.done v).Within P := by
  rintro _ ⟨⟩
  exact h

theorem Outcome.Within.cancelled : Outcome.cancelled.Within P := by
  rintro _ ⟨⟩

theorem Outcome.Within.aborted : (Outcome.aborted f).Within P := by
  rintro _ ⟨⟩

theorem Delivery.Within.value (h : v.Within P) : (Delivery.value v).Within P := by
  rintro _ ⟨⟩
  exact h

theorem Delivery.Within.ended : Delivery.ended.Within P := by
  rintro _ ⟨⟩

/-! ### What is found in values -/

namespace Value.Within

theorem ofString (s : String) : (Value.ofString s).Within P := .json _

theorem ofInt (n : Int) : (Value.ofInt n).Within P := .json _

theorem items (h : v.Within P) {vs : List Value} (hvs : v.list? = some vs) :
    ∀ u ∈ vs, u.Within P := by
  cases h with
  | list h =>
    cases hvs
    exact h
  | _ => cases hvs

theorem get? (h : v.Within P) {key : String} {u : Value} (hu : v.get? key = some u) :
    u.Within P := by
  cases h with
  | @map es h =>
    have hu : es.lookup key = some u := hu
    obtain ⟨l₁, l₂, hl, -⟩ := List.lookup_eq_some_iff.1 hu
    exact h (key, u) (by simp [hl])
  | _ => cases hu

theorem insertEntry {k : String} (hv : v.Within P) {es : List (String × Value)}
    (h : ∀ e ∈ es, e.2.Within P) : ∀ e ∈ Value.insertEntry k v es, e.2.Within P := by
  induction es with
  | nil =>
    intro e he
    rw [List.mem_singleton.1 he]
    exact hv
  | cons e es ih =>
    rw [List.forall_mem_cons] at h
    simp only [Value.insertEntry]
    split
    · exact List.forall_mem_cons.2 ⟨hv, List.forall_mem_cons.2 h⟩
    · split
      · exact List.forall_mem_cons.2 ⟨hv, h.2⟩
      · exact List.forall_mem_cons.2 ⟨h.1, ih h.2⟩

theorem ofEntries {es : List (String × Value)} (h : ∀ e ∈ es, e.2.Within P) :
    (Value.ofEntries es).Within P := by
  suffices hfold : ∀ acc : List (String × Value), (∀ e ∈ acc, e.2.Within P) →
      ∀ e ∈ es.foldl (fun acc e => Value.insertEntry e.1 e.2 acc) acc, e.2.Within P from
    .map (hfold [] fun _ he => absurd he List.not_mem_nil)
  induction es with
  | nil => exact fun _ hacc => hacc
  | cons e es ih =>
    rw [List.forall_mem_cons] at h
    exact fun acc hacc => ih h.2 _ (insertEntry h.1 hacc)

end Value.Within

/-! ## User code -/

theorem Except.map_eq_ok {ε α β : Type} {x : Except ε α} {g : α → β} {b : β}
    (h : x.map g = .ok b) : ∃ a, x = .ok a ∧ g a = b := by
  cases x with
  | ok a => exact ⟨a, rfl, Except.ok.inj h⟩
  | error => cases h

namespace World

variable {w : World}

/-- All labels stand for handles in a set. -/
abbrev LabelsWithin (P : TaskRef → Prop) (w : World) : Prop := w.labels.Each P

theorem within_getD {α : Type} {x : Option α} {g : α → Value}
    (h : ∀ a, x = some a → (g a).Within P) : ((x.map g).getD .unit).Within P := by
  cases x with
  | none => exact .unit
  | some a => exact h a rfl

mutual

/-- The value of an expression has no other handles than the variables and the labels. -/
theorem eval_within (hw : w.LabelsWithin P) (henv : Env.Within P env) :
    ∀ x : Expr, (w.eval env x).Within P
  | .json _ => .json _
  | .unit => .unit
  | .action _ _ => .action _
  | .list xs => .list (evalList_within hw henv xs)
  | .map xs => .ofEntries (evalEntries_within hw henv xs)
  | .var name => by
    simp only [eval]
    cases hn : env.get? name with
    | none => exact .unit
    | some v => exact henv.get? hn
  | .task label => within_getD fun _ ht => .task (hw.get? ht)
  | .payload x => by
    simp only [eval]
    split
    · exact .json _
    · exact .unit
  | .kind x => within_getD fun s _ => .ofString s
  | .get x key => by
    simp only [eval]
    cases hg : (w.eval env x).get? key with
    | none => exact .unit
    | some v => exact (eval_within hw henv x).get? hg
  | .item x n => by
    simp only [eval]
    cases hl : (w.eval env x).list? with
    | none => exact .unit
    | some vs =>
      cases hn : vs[n]? with
      | none => simp only [Option.bind_some, hn]; exact .unit
      | some v =>
        simp only [Option.bind_some, hn]
        exact (eval_within hw henv x).items hl v (List.mem_of_getElem? hn)
  | .add _ _ | .mul _ _ => .ofInt _
  | .toJson _ => .json _
  | .status x => by
    simp only [eval]
    split
    · exact .ofString _
    · exact .unit

theorem evalList_within (hw : w.LabelsWithin P) (henv : Env.Within P env) :
    ∀ xs : List Expr, ∀ v ∈ w.evalList env xs, v.Within P
  | [] => by simp [evalList]
  | x :: xs => by
    simp only [evalList, List.forall_mem_cons]
    exact ⟨eval_within hw henv x, evalList_within hw henv xs⟩

theorem evalEntries_within (hw : w.LabelsWithin P) (henv : Env.Within P env) :
    ∀ xs : List (String × Expr), ∀ e ∈ w.evalEntries env xs, e.2.Within P
  | [] => by simp [evalEntries]
  | (k, x) :: xs => by
    simp only [evalEntries, List.forall_mem_cons]
    exact ⟨eval_within hw henv x, evalEntries_within hw henv xs⟩

end

theorem evalSaga_within (hw : w.LabelsWithin P) (henv : Env.Within P env) (e : SagaExpr) :
    (w.evalSaga env e).Within P := by
  have hargs : Env.Within P (.ofList (w.evalEntries env e.args)) :=
    .ofList (evalEntries_within hw henv e.args)
  unfold evalSaga Saga.Within
  cases e.source with
  | named | watcher => exact hargs

theorem evalTask_within (hw : w.LabelsWithin P) (henv : Env.Within P env) {x : Expr} {t : TaskRef}
    (ht : w.evalTask env x = .ok t) : P t := by
  have hx := eval_within hw henv x
  unfold evalTask at ht
  split at ht
  · rename_i u hu
    rw [hu] at hx
    cases ht
    cases hx with
    | task h => exact h
  · cases ht

mutual

/-- An effect that is built has no other handles than the variables and the labels. -/
theorem build_within (hw : w.LabelsWithin P) (henv : Env.Within P env) :
    ∀ (x : EffectExpr) (e : Effect), w.build env x = .ok e → e.Within P
  | .take none _, _, h => by
    cases h
    exact .take _ _
  | .take (some _) _, _, h => by
    obtain ⟨c, -, rfl⟩ := Except.map_eq_ok h
    exact .take _ _
  | .dispatch _, _, h => by
    cases h
    exact .putBus _
  | .put _ x, _, h => by
    obtain ⟨c, -, rfl⟩ := Except.map_eq_ok h
    exact .putChannel c (eval_within hw henv x)
  | .call _, _, h => by
    cases h
    exact .scripted _ _ henv
  | .fork x, _, h | .spawn x, _, h => by
    cases h
    exact .fork (evalSaga_within hw henv x) _
  | .cancelSelf, _, h => by
    cases h
    exact .cancel (by simp)
  | .select _, _, h => by
    cases h
    exact .select _
  | .delay _, _, h => by
    cases h
    exact .sleep _ _
  | .join _, _, h => by
    obtain ⟨t, ht, rfl⟩ := Except.map_eq_ok h
    exact .join (evalTask_within hw henv ht)
  | .cancel _, _, h => by
    obtain ⟨t, ht, rfl⟩ := Except.map_eq_ok h
    refine .cancel ?_
    rintro _ ⟨⟩
    exact evalTask_within hw henv ht
  | .race members, _, h => by
    obtain ⟨es, hes, rfl⟩ := Except.map_eq_ok h
    exact .race (buildKeyed_within hw henv members es hes)
  | .racePositional members, _, h => by
    obtain ⟨es, hes, rfl⟩ := Except.map_eq_ok h
    exact .racePositional (buildList_within hw henv members es hes)
  | .all members, _, h => by
    obtain ⟨es, hes, rfl⟩ := Except.map_eq_ok h
    exact .all (buildList_within hw henv members es hes)
  | .unknown _, _, h => by cases h

theorem buildList_within (hw : w.LabelsWithin P) (henv : Env.Within P env) :
    ∀ (xs : List EffectExpr) (es : List Effect), w.buildList env xs = .ok es →
      ∀ e ∈ es, e.Within P
  | [], _, h => by
    cases h
    simp
  | x :: xs, _, h => by
    simp only [buildList] at h
    split at h
    · cases h
    · rename_i e he
      obtain ⟨es, hes, rfl⟩ := Except.map_eq_ok h
      exact List.forall_mem_cons.2
        ⟨build_within hw henv x e he, buildList_within hw henv xs es hes⟩

theorem buildKeyed_within (hw : w.LabelsWithin P) (henv : Env.Within P env) :
    ∀ (xs : List (String × EffectExpr)) (es : List (String × Effect)),
      w.buildKeyed env xs = .ok es → ∀ e ∈ es, e.2.Within P
  | [], _, h => by
    cases h
    simp
  | (k, x) :: xs, _, h => by
    simp only [buildKeyed] at h
    split at h
    · cases h
    · rename_i e he
      obtain ⟨es, hes, rfl⟩ := Except.map_eq_ok h
      exact List.forall_mem_cons.2
        ⟨build_within hw henv x e he, buildKeyed_within hw henv xs es hes⟩

end

end World

/-! ### Between two steps -/

namespace Awaiting

variable {m : Mailbox Effect} {x : Awaiting Effect}

theorem poll_within (hm : m.Within P) (hx : Awaiting.Within P x) :
    Awaiting.Within P (x.poll m).1 ∧ (x.poll m).2.Within P := by
  cases x with
  | unsent e =>
    simp only [poll]
    split
    · refine ⟨trivial, ?_, hm.answer⟩
      rintro _ ⟨⟩
      exact hx
    · exact ⟨trivial, hm.slot, hm.answer⟩
  | sent =>
    simp only [poll]
    split
    · rename_i a ha
      refine ⟨hm.answer a ha, hm.slot, ?_⟩
      rintro _ ⟨⟩
    · exact ⟨trivial, hm⟩
  | answered | foreign => exact ⟨hx, hm⟩

theorem pollAll_within {xs : List (Awaiting Effect)} (hm : m.Within P)
    (hxs : ∀ x ∈ xs, Awaiting.Within P x) :
    (∀ x ∈ (pollAll m xs).1, Awaiting.Within P x) ∧ (pollAll m xs).2.Within P := by
  induction xs generalizing m with
  | nil => exact ⟨fun _ hx => absurd hx List.not_mem_nil, hm⟩
  | cons x xs ih =>
    rw [List.forall_mem_cons] at hxs
    obtain ⟨hx, hm₁⟩ := poll_within hm hxs.1
    obtain ⟨hxs', hm₂⟩ := ih hm₁ hxs.2
    exact ⟨List.forall_mem_cons.2 ⟨hx, hxs'⟩, hm₂⟩

theorem answers?_within {xs : List (Awaiting Effect)} {as : List Answer}
    (hxs : ∀ x ∈ xs, Awaiting.Within P x) (has : answers? xs = some as) :
    ∀ a ∈ as, a.Within P := by
  induction xs generalizing as with
  | nil =>
    cases has
    exact fun _ ha => absurd ha List.not_mem_nil
  | cons x xs ih =>
    rw [List.forall_mem_cons] at hxs
    simp only [answers?] at has
    split at has
    · rename_i a bs ha hbs
      cases has
      refine List.forall_mem_cons.2 ⟨?_, ih hxs.2 hbs⟩
      cases x with
      | answered =>
        cases ha
        exact hxs.1
      | _ => cases ha
    · cases has

end Awaiting

namespace Mailbox.Within

theorem opened {answer : Option Answer} (h : ∀ a, answer = some a → a.Within P) :
    (Mailbox.opened answer).Within P := ⟨by rintro _ ⟨⟩, h⟩

theorem verdict {m : Mailbox Effect} (h : m.Within P) : m.verdict.Within P := by
  unfold Mailbox.verdict
  split
  · exact Answer.Within.error
  · split
    · rename_i e he
      exact h.slot e he
    · exact Answer.Within.error

end Mailbox.Within

namespace ScriptBody.Within

variable {s s' : ScriptBody}

/-- The control of a script, and the fault that it caught, have no handles. -/
theorem congr (h : s.Within P) (henv : s'.env = s.env) (hg : s'.guards = s.guards)
    (hp : s'.pause = s.pause) : s'.Within P :=
  ⟨by rw [henv]; exact h.env, by rw [hg]; exact h.guards, by rw [hp]; exact h.pause⟩

theorem setEnv (h : s.Within P) (henv : Env.Within P env) : { s with env }.Within P :=
  ⟨henv, h.guards, h.pause⟩

theorem resumed (h : s.Within P) : { s with pause := none }.Within P :=
  ⟨h.env, h.guards, by rintro _ ⟨⟩⟩

theorem catchFault (h : s.Within P) (hs : s.catchFault f = some s') : s'.Within P := by
  obtain ⟨r, -, rfl⟩ := Option.map_eq_some_iff.1 hs
  exact ⟨h.env.insert _ (.json _), h.guards, h.pause⟩

theorem bind (h : s.Within P) (name : Option String) (hv : v.Within P) :
    (s.bind name v).Within P := by
  cases name with
  | none => exact h
  | some name => exact h.setEnv (h.env.insert name hv)

end ScriptBody.Within

theorem WatcherBody.Within.workerFor {b : WatcherBody} (h : b.Within P) (a : Action) :
    (b.plan.workerFor a).Within P := h.env.insert "action" (.action a)

/-- A watcher makes no handles of its own. -/
theorem WatcherBody.resume_within {b : WatcherBody} (h : b.Within P) {answer : Option Answer}
    (ha : ∀ a, answer = some a → a.Within P) :
    (b.resume answer).1.Within P ∧ (b.resume answer).2.Within P := by
  have hfork : ∀ {b : WatcherBody} (a : Action), b.Within P →
      (b.forkWorker a).1.Within P ∧ (b.forkWorker a).2.Within P := fun a h =>
    ⟨⟨h.env, h.last⟩, .fork (h.workerFor a) false⟩
  have htake : ∀ {b : WatcherBody}, b.Within P →
      b.awaitAction.1.Within P ∧ b.awaitAction.2.Within P := fun h =>
    ⟨⟨h.env, h.last⟩, .take _ _⟩
  have hgiveUp : ∀ f, (b.giveUp f).1.Within P ∧ (b.giveUp f).2.Within P := fun f =>
    ⟨h, Answer.Within.error⟩
  unfold resume
  split
  · exact htake h
  · exact hgiveUp _
  · exact hgiveUp _
  · split
    · rename_i previous _ hlast
      refine ⟨⟨h.env, by rintro _ ⟨⟩⟩, .cancel ?_⟩
      rintro _ ⟨⟩
      exact h.last _ hlast
    · exact hfork _ h
  · exact hgiveUp _
  · exact hfork _ h
  · rename_i t _
    split
    · exact htake h
    · refine htake ⟨h.env, ?_⟩
      rintro _ ⟨⟩
      cases ha _ rfl _ rfl with
      | task ht => exact ht
  · exact hgiveUp _

theorem Saga.Within.start {saga : Saga} (h : saga.Within P) (t : TaskId) :
    (saga.program.start t).Within P := by
  unfold Saga.Within at h
  cases hp : saga.program with
  | script stmts env =>
    rw [hp] at h
    exact ⟨h.insert "self" (.ofInt t), fun _ hg => absurd hg List.not_mem_nil, by rintro _ ⟨⟩⟩
  | watcher plan =>
    rw [hp] at h
    exact ⟨h, by rintro _ ⟨⟩⟩

end SagaMachine
