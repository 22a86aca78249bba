import SagaMachine.Proofs.Names
import SagaMachine.Proofs.Subtrees

/-!
# Steps are moves

Every step of the machine is a move of every middleware (`Moves`). A step that carries out
an instruction of the middleware does what `Does` says; an instruction of another
middleware does not concern it; user code intervenes in one of a few ways.

Main statement: `Config.moves_of_step`.
-/

namespace SagaMachine

theorem framesOf_append (i : MiddlewareId) (xs ys : List Instr) :
    framesOf i (xs ++ ys) = framesOf i xs ++ framesOf i ys := List.filter_append ..

theorem dropsOf_append (i : MiddlewareId) (xs ys : List Instr) :
    dropsOf i (xs ++ ys) = dropsOf i xs ++ dropsOf i ys := List.filterMap_append ..

@[simp] theorem framesOf_nil (i : MiddlewareId) : framesOf i [] = [] := rfl

@[simp] theorem dropsOf_nil (i : MiddlewareId) : dropsOf i [] = [] := rfl

@[simp] theorem framesOf_cons (i : MiddlewareId) (x : Instr) (xs : List Instr) :
    framesOf i (x :: xs) =
      if x.owner? = some i then x :: framesOf i xs else framesOf i xs := by
  simp only [framesOf, List.filter_cons, decide_eq_true_eq]

@[simp] theorem dropsOf_cons (i : MiddlewareId) (x : Instr) (xs : List Instr) :
    dropsOf i (x :: xs) = (x.drops? i).toList ++ dropsOf i xs := by
  simp only [dropsOf, List.filterMap_cons]
  cases x.drops? i <;> rfl

theorem framesOf_one {i : MiddlewareId} {x : Instr} (h : x.owner? = some i) :
    framesOf i [x] = [x] := by
  simp [h]

theorem framesOf_neutral {i : MiddlewareId} {x : Instr} {xs : List Instr}
    (h : x.owner? = none) : framesOf i (x :: xs) = framesOf i xs := by
  simp [h]

namespace World

variable {w w' : World} {i : MiddlewareId}

theorem live_iff {t : TaskId} : (w.engine i).tasks.isLive t = true ↔ (w.core i).Live t := by
  simp only [Tasks.isLive, Core.Live, posture_core, task?]
  cases (w.engine i).tasks.get? t with
  | none => simp
  | some n => simp [TaskNode.posture]

theorem isHalted_iff {t : TaskId} : w.isHalted i t = true ↔ ¬ (w.core i).Live t := by
  rw [← live_iff, isHalted, Bool.not_eq_true', Bool.not_eq_true]

theorem live_of_not_halted {t : TaskId} (h : ¬ w.isHalted i t = true) : (w.core i).Live t :=
  Classical.not_not.1 fun hn => h (isHalted_iff.2 hn)

/-- What an instruction comes to is what `Does` says. -/
def Enacts (i : MiddlewareId) (w : World) (x : Instr) (c : Config) : Prop :=
  ∃ k' es, Advances i w c.world k' es ∧
    Does i (w.past i) x (w.core i) k' (framesOf i c.todo) (dropsOf i c.todo) es

namespace Enacts

theorem of_does {x : Instr} {c : Config} {k' : Core} {es : List Event} {G : List Instr}
    {D : List TaskId} (ha : Advances i w c.world k' es)
    (hd : Does i (w.past i) x (w.core i) k' G D es) (hG : framesOf i c.todo = G)
    (hD : dropsOf i c.todo = D) : w.Enacts i x c := by
  subst hG hD
  exact ⟨k', es, ha, hd⟩

/-! ### The driver -/

theorem drain (hi : w.Has i) : w.Enacts i (.drain i) (w.execDrain i) := by
  unfold execDrain
  split
  · rename_i h
    refine of_does ?_ (.rest h) rfl rfl
    exact (Advances.start hi).setEngine
      (f := fun e => { e with agenda := e.agenda.flush, driving := false })
      (fun k => { k with agenda := k.agenda.flush, driving := false }) fun _ => rfl
  · rename_i job agenda h
    refine of_does ?_ (.next h) (by simp [Instr.owner?]) (by simp [Instr.drops?])
    exact (Advances.start hi).setEngine (f := fun e => { e with agenda })
      (fun k => { k with agenda }) fun _ => rfl

/-- What a step of a task comes to, after some events. -/
theorem begins {k : Core} {es : List Event} (h : Advances i w w' k es) (t : TaskId)
    (expected : Option EffectId) (signal : Option Signal) :
    ∃ k' G, Advances i w (w'.beginTurn i t expected signal).world k' es ∧
      Begins i k t expected signal k' G ∧
      framesOf i (w'.beginTurn i t expected signal).todo = G ∧
      dropsOf i (w'.beginTurn i t expected signal).todo = [] := by
  have hk : k.posture t = (w'.task? i t).map TaskNode.posture := by
    rw [← h.core]
    rfl
  unfold beginTurn
  split
  · rename_i hn
    rw [hn] at hk
    exact ⟨_, _, h, .skip (by rw [hk]; rintro p ⟨⟩), rfl, rfl⟩
  · rename_i n hn
    rw [hn] at hk
    split
    · rename_i hterm
      refine ⟨_, _, h, .skip ?_, rfl, rfl⟩
      rw [hk]
      rintro p ⟨⟩
      simp only [Bool.or_eq_true, decide_eq_true_eq] at hterm
      rcases hterm with hterm | hterm
      · exact Or.inl hterm
      · exact Or.inr (Or.inl hterm)
    · rename_i hterm
      simp only [Bool.or_eq_true, decide_eq_true_eq, not_or, Bool.not_eq_true, ne_eq,
        Decidable.not_not] at hterm
      split
      · rename_i hb
        refine ⟨_, _, h, .skip ?_, rfl, rfl⟩
        rw [hk]
        rintro p ⟨⟩
        exact Or.inr (Or.inr (by simp [TaskNode.posture, hb]))
      · rename_i b hb
        have hbody : n.posture.hasBody = true := by simp [TaskNode.posture, hb]
        have hgo : Advances i w ((w'.setTask i t fun n =>
            { n with body := none, status := .running }).setEngine i
              fun e => { e with current := some t }) (k.enterTurn t) es :=
          (h.setTask (fun p => { p with hasBody := false, status := .running })
            fun _ => rfl).setEngine (fun k => { k with current := some t }) fun _ => rfl
        simp only
        split
        · exact ⟨_, _, hgo, .poll hk hterm.1 hterm.2 hbody b rfl, by simp [Instr.owner?],
            by simp [Instr.drops?]⟩
        · exact ⟨_, _, hgo, .poll hk hterm.1 hterm.2 hbody b rfl, by simp [Instr.owner?],
            by simp [Instr.drops?]⟩
        · exact ⟨_, _, hgo, .poll hk hterm.1 hterm.2 hbody b rfl, by simp [Instr.owner?],
            by simp [Instr.drops?]⟩
        · exact ⟨_, _, hgo, .leave hk hterm.1 hterm.2 hbody b rfl, by simp [Instr.owner?],
            by simp [Instr.drops?]⟩

theorem settling_one {past : List Event} {x : EffectId} (h : LeafName past x)
    (signal : Signal) : Settling past [.settle x signal] := by
  intro r hr
  exact ⟨x, signal, List.mem_singleton.1 hr, h⟩

theorem putForEffect {k : Core} {es : List Event} (h : Advances i w w' k es) (c : ChannelId)
    (v : Value) {reply : EffectId} (hr : LeafName (w.past i) reply) :
    ∃ rs G, Advances i w (w'.putForEffect i c v reply).world (k.schedule rs) es ∧
      Settling (w.past i) rs ∧ framesOf i (w'.putForEffect i c v reply).todo = G ∧
      (G = [] ∨ ∃ g : Instr, G = [g] ∧ g.IsJob) ∧
      dropsOf i (w'.putForEffect i c v reply).todo = [] := by
  unfold World.putForEffect
  split
  · exact ⟨_, [], h.schedule _, settling_one hr _, rfl, Or.inl rfl, rfl⟩
  · rename_i channel hc
    have h1 := h.untouched (untouched_putChannel c channel v)
    simp only
    split
    · exact ⟨_, [], h1.schedule _, settling_one hr _, rfl, Or.inl rfl, rfl⟩
    · refine ⟨[], [.schedule i (.settle reply (.value .unit))], by simpa using h1, ?_, ?_,
        Or.inr ⟨_, rfl, trivial⟩, ?_⟩
      · intro r hr
        cases hr
      · simp [Instr.owner?]
      · simp [Instr.drops?]
    · exact ⟨_, [], h1.schedule _, settling_one hr _, rfl, Or.inl rfl, rfl⟩

theorem perform (hi : w.Has i) (hw : w.Knows) {job : Job}
    (hj : (Instr.perform i job).Knows w.past) :
    w.Enacts i (.perform i job) (w.execPerform i job) := by
  have h := Advances.start hi
  cases job with
  | reaction r =>
    cases r with
    | start t =>
      obtain ⟨k', G, h1, hb, hG, hD⟩ := begins h t none none
      exact of_does h1 (.start hb) hG hD
    | resume t signal =>
      obtain ⟨k', G, h1, hb, hG, hD⟩ := begins h t none (some signal)
      exact of_does h1 (.resume hb) hG hD
    | settle x signal =>
      have h1 : Advances i w (w.settleWait i x signal).2
          { w.core i with waits := (Waits.settle (w.core i).waits x signal).waits }
          ((Waits.settle (w.core i).waits x signal).passages.map Passage.event) := h.walk _ _
      simp only [execPerform]
      split
      · rename_i hu
        exact of_does h1 (.settle hj hu) rfl rfl
      · rename_i u hu
        obtain ⟨k', G, h2, hb, hG, hD⟩ := begins h1 u.task (some u.effect) (some u.signal)
        exact of_does h2 (.wake hj hu hb) hG hD
  | errand a =>
    have h1 := h.record (.fetched a)
    have hq : Quiet [.fetched a] := by simp [Quiet, Event.IsQuiet]
    have hnone : Settling (w.past i) [] := fun r hr => by cases hr
    cases a with
    | dispatch a reply =>
      rw [← Core.schedule_nil (w.core i)] at h1
      refine of_does h1
        (.errand (Or.inr ⟨.emit i a (reply.elim .nobody .effect), rfl, ?_⟩) hnone hq)
        (by simp [execPerform, Instr.owner?]) (by simp [execPerform, Instr.drops?])
      cases reply <;> exact trivial
    | put c v reply =>
      obtain ⟨rs, G, h2, hs, hG, hjob, hD⟩ := putForEffect h1 c v (hj reply rfl).leafName
      exact of_does h2 (.errand hjob hs hq) hG hD
    | finish =>
      obtain ⟨rs, h2, hrs⟩ := h1.endBus
      refine of_does h2 (.errand (Or.inl rfl) ?_ ?_) rfl rfl
      · intro r hr
        obtain ⟨t, ht, rfl⟩ := hrs r hr
        exact ⟨_, _, rfl, ((hw.engine i).bus t ht).leafName⟩
      · simp [Quiet, Event.IsQuiet]

/-! ### Broadcasts -/

theorem emit (hi : w.Has i) (a : Action) (sender : Sender) :
    w.Enacts i (.emit i a sender) (w.execEmit i a sender) := by
  obtain ⟨m, hm⟩ := hi
  have h1 := (Advances.start ⟨m, hm⟩).record (.dispatched a)
  have hq : Quiet [.dispatched a] := by simp [Quiet, Event.IsQuiet]
  simp only [execEmit, hm]
  split
  · exact of_does h1 (.emit hq) (by simp [Instr.owner?]) (by simp [Instr.drops?])
  · refine of_does (h1.untouched (untouched_enter (e := .host i _ a) trivial)) (.emit hq) ?_ ?_
    · simp [Instr.owner?]
    · simp [Instr.drops?]

theorem finishEmit (rs : List Reaction)
    (h : Advances i w w' ((w.core i).schedule rs) []) (hs : Settling (w.past i) rs)
    {a : Action} {sender : Sender} (hx : (Instr.forwarded i a sender).Knows w.past)
    (result : Except Fault Unit) :
    w.Enacts i (.forwarded i a sender) (w'.finishEmit i a sender result) := by
  have hnil : Quiet [] := fun e he => by cases he
  cases sender with
  | effect x =>
    have h1 := h.schedule (.settle x (.ofResult result))
    rw [Core.schedule_schedule] at h1
    refine of_does h1 (.forwarded (fun site h => by cases h) ?_ hnil) rfl rfl
    intro r hr
    rcases List.mem_append.1 hr with hr | hr
    · exact hs r hr
    · exact settling_one (PutName.leafName hx) _ r hr
  | caller site =>
    refine of_does h (.forwardedCall hs hnil) ?_ ?_
    · simp [World.finishEmit, Instr.owner?]
    · simp [World.finishEmit, Instr.drops?]
  | nobody =>
    cases result with
    | ok u => exact of_does h (.forwarded (fun site h => by cases h) hs hnil) rfl rfl
    | error f =>
      refine of_does (h.record (.refused a f)) (.forwarded (fun site h => by cases h) hs ?_)
        rfl rfl
      simp [Quiet, Event.IsQuiet]

theorem forwarded (hi : w.Has i) (hw : w.Knows) {a : Action} {sender : Sender}
    (hx : (Instr.forwarded i a sender).Knows w.past) :
    w.Enacts i (.forwarded i a sender) (w.execForwarded i a sender) := by
  obtain ⟨m, hm⟩ := hi
  have h := Advances.start ⟨m, hm⟩
  have hnone : Settling (w.past i) [] := fun r hr => by cases hr
  simp only [execForwarded, hm]
  split
  · exact finishEmit [] (by simpa using h) hnone hx _
  · obtain ⟨rs, h1, hrs⟩ := (h.untouched (untouched_reduceHost a)).broadcast a
    refine finishEmit rs h1 ?_ hx _
    intro r hr
    obtain ⟨t, ht, rfl⟩ := hrs r hr
    rw [(untouched_reduceHost (i := i) a).engine] at ht
    exact ⟨_, _, rfl, ((hw.engine i).bus t (Bus.mem_select (Or.inl ht))).leafName⟩

/-! ### Scripts -/

/-- A script goes on: it is advanced or polled next, maybe after user code that it runs. -/
structure GoesOn (turn : Turn) (w : World) (c : Config) : Prop where
  untouched : ∀ i, Untouched i w c.world
  todo : ∃ g : Instr, g.IsScript turn ∧
    (c.todo = [g] ∨ ∃ y : Instr, c.todo = [y, g] ∧ y.owner? = none ∧ ∀ i, y.drops? i = none)

namespace GoesOn

variable {turn : Turn} {s : ScriptBody} {m : Mailbox Effect}

theorem advance (h : ∀ i, Untouched i w w') : GoesOn turn w ⟨[.advance turn s m], w'⟩ :=
  ⟨h, .advance turn s m, rfl, Or.inl rfl⟩

theorem polled (h : ∀ i, Untouched i w w') {b : Body} {step : Step Effect} :
    GoesOn turn w ⟨[.polled turn b step], w'⟩ := ⟨h, .polled turn b step, rfl, Or.inl rfl⟩

theorem finishScript (h : ∀ i, Untouched i w w') (a : Answer) :
    GoesOn turn w (w'.finishScript turn s a) :=
  ⟨h, .polled turn _ (.complete a), rfl, Or.inr ⟨.guards s.guards, rfl, rfl, fun _ => rfl⟩⟩

theorem raise (h : ∀ i, Untouched i w w') (f : Fault) : GoesOn turn w (w'.raise turn s m f) := by
  unfold World.raise
  split
  · exact advance h
  · exact finishScript h _

theorem register (h : ∀ i, Untouched i w w') (label : Option String) (v : Value) (i : MiddlewareId) :
    Untouched i w (w'.register label v) := by
  unfold World.register
  split
  · exact (h i).trans (.of_eq rfl rfl)
  · exact h i

theorem spend {w'' : World} (h : ∀ i, Untouched i w w') (hs : w'.spend = some w'')
    (i : MiddlewareId) : Untouched i w w'' := by
  unfold World.spend at hs
  split at hs
  · cases hs
  · cases hs
    exact (h i).trans (.of_eq rfl rfl)

theorem enter (h : ∀ i, Untouched i w w') {e : Entry} (he : IsForeign e) (i : MiddlewareId) :
    Untouched i w (w'.enter e) := (h i).trans (untouched_enter he)

theorem awaitAll (h : ∀ i, Untouched i w w') (p : Pause) :
    GoesOn turn w (w'.awaitAll turn s m p) := by
  unfold World.awaitAll
  simp only
  split
  · unfold World.resumeScript
    split
    · exact advance (register h _ _)
    · exact raise h _
    · exact advance h
    · exact advance (enter h trivial)
  · exact polled h

theorem withEffects {α : Type} (h : ∀ i, Untouched i w w') (built : Except Fault α)
    {next : α → Config} (hn : ∀ a, GoesOn turn w (next a)) :
    GoesOn turn w (w'.withEffects turn s m built next) := by
  unfold World.withEffects
  split
  · exact hn _
  · exact raise h _

theorem execStmt (h : ∀ i, Untouched i w w') (stmt : Stmt) :
    GoesOn turn w (w'.execStmt turn s m stmt) := by
  cases stmt with
  | perform effect name label => exact withEffects h _ fun _ => awaitAll h _
  | assign name x label => exact advance (register h _ _)
  | log tag x => exact advance (enter h trivial)
  | guard name ops => exact advance h
  | «return» x => exact finishScript h _
  | fail f => exact raise h f
  | attempt body handler => exact advance h
  | rethrow => exact raise h _
  | ifThen test yes no => exact advance h
  | «repeat» times body => exact advance h
  | ops os => exact ⟨h, .advance turn s m, rfl, Or.inr ⟨.ops s.env os, rfl, rfl, fun _ => rfl⟩⟩
  | foreign => exact awaitAll h { awaiting := [.foreign], resumption := .report }
  | joined effects => exact withEffects h _ fun _ => awaitAll h _
  | mixed effect => exact withEffects h _ fun _ => awaitAll h _
  | describe effect => exact withEffects h _ fun _ => advance (enter h trivial)
  | unknown name => exact raise h _

theorem execAdvance {c : Config} (hc : w.execAdvance turn s m = some c) : GoesOn turn w c := by
  have h : ∀ i, Untouched i w w := fun i => .refl i w
  unfold World.execAdvance at hc
  split at hc
  · cases hc
    exact finishScript h _
  · cases hc
    exact advance h
  · obtain ⟨w'', hw, rfl⟩ := Option.map_eq_some_iff.1 hc
    exact execStmt (spend h hw) _
  · cases hc
    exact advance h
  · cases hc
    exact advance h
  · obtain ⟨w'', hw, rfl⟩ := Option.map_eq_some_iff.1 hc
    exact advance (spend h hw)

theorem execPoll (b : Body) (a : Option Answer) :
    GoesOn turn (w.record turn.mw (.polled turn.task a)) (w.execPoll turn b a) := by
  unfold World.execPoll
  cases b with
  | watcher b => exact polled fun i => .refl i _
  | script s =>
    simp only
    split
    · exact advance fun i => .refl i _
    · exact awaitAll (fun i => .refl i _) _

/-- The frames of a script that goes on. -/
theorem frames {c : Config} {t : TaskId} (h : GoesOn ⟨i, t⟩ w c) :
    dropsOf i c.todo = [] ∧ ∃ g : Instr, framesOf i c.todo = [g] ∧ g.IsScript ⟨i, t⟩ := by
  obtain ⟨g, hg, htodo⟩ := h.todo
  have ho : g.owner? = some i ∧ g.drops? i = none := by
    cases g with
    | advance turn s m => cases hg; exact ⟨rfl, rfl⟩
    | polled turn b step => cases hg; exact ⟨rfl, rfl⟩
    | _ => exact hg.elim
  rcases htodo with htodo | ⟨y, htodo, hy, hd⟩
  · rw [htodo]
    exact ⟨by simp [ho.2], g, framesOf_one ho.1, hg⟩
  · rw [htodo]
    exact ⟨by simp [ho.2, hd], g, (framesOf_neutral hy).trans (framesOf_one ho.1), hg⟩

end GoesOn

theorem advance (hi : w.Has i) {t : TaskId} {s : ScriptBody} {m : Mailbox Effect} {c : Config}
    (hc : w.execAdvance ⟨i, t⟩ s m = some c) : w.Enacts i (.advance ⟨i, t⟩ s m) c := by
  have h := GoesOn.execAdvance hc
  obtain ⟨hD, g, hG, hg⟩ := h.frames
  exact of_does ((Advances.start hi).untouched (h.untouched i)) (.advance hg) hG hD

theorem poll (hi : w.Has i) (t : TaskId) (b : Body) (a : Option Answer) :
    w.Enacts i (.poll ⟨i, t⟩ b a) (w.execPoll ⟨i, t⟩ b a) := by
  have h : GoesOn ⟨i, t⟩ (w.record i (.polled t a)) (w.execPoll ⟨i, t⟩ b a) := GoesOn.execPoll b a
  obtain ⟨hD, g, hG, hg⟩ := h.frames
  exact of_does (((Advances.start hi).record _).untouched (h.untouched i)) (.poll hg) hG hD

theorem polled (hi : w.Has i) (t : TaskId) (b : Body) (step : Step Effect) :
    w.Enacts i (.polled ⟨i, t⟩ b step) (w.execPolled ⟨i, t⟩ b step) := by
  have h := Advances.start hi
  unfold World.execPolled
  split
  · rename_i hh
    exact of_does h (.polledHalted (isHalted_iff.1 hh)) (by simp [Instr.owner?])
      (by simp [Instr.drops?])
  · rename_i hh
    have hl : (w.core i).Live t := live_of_not_halted hh
    cases step with
    | complete a =>
      exact of_does h (.polledComplete hl) (by simp [Instr.owner?]) (by simp [Instr.drops?])
    | yielded e =>
      exact of_does h (.polledYielded hl) (by simp [Instr.owner?]) (by simp [Instr.drops?])

/-! ### The start of effects -/

section

variable {t : TaskId} {b : Body} {nests : List Nest}

theorem cancelDone (hi : w.Has i) (x : EffectId) :
    w.Enacts i (.cancelDone ⟨i, t⟩ b nests x) (w.execCancelDone ⟨i, t⟩ b nests x) := by
  have h := Advances.start hi
  unfold World.execCancelDone
  split
  · rename_i hh
    exact of_does h (.cancelHalted (isHalted_iff.1 hh)) (by simp [Instr.owner?])
      (by simp [Instr.drops?])
  · rename_i hh
    have hl : (w.core i).Live t := live_of_not_halted hh
    exact of_does (h.record _) (.cancelSettles hl) (by simp [World.immediate, Instr.owner?])
      (by simp [World.immediate, Instr.drops?])

/-- What waiting for a deferred comes to, after some events. -/
theorem awaitDeferred (t : TaskId) (b : Body) (nests : List Nest) {k : Core} {es : List Event}
    (h : Advances i w w' k es) {x : EffectId} {past : List Event} (hx : LeafName past x)
    (d : DeferredId) :
    ∃ rs, Settling past rs ∧
      Advances i w (w'.awaitDeferred ⟨i, t⟩ b nests x d).world
        ((k.suspend t nests x (.call d)).schedule rs) es ∧
      (w'.awaitDeferred ⟨i, t⟩ b nests x d).todo = [.begun ⟨i, t⟩ b nests (.pending x)] := by
  have h1 : Advances i w (w'.suspend ⟨i, t⟩ b nests x (.call d)).world
      (k.suspend t nests x (.call d)) es := h.insertWait x _
  have hnone : Settling past [] := fun r hr => by cases hr
  unfold World.awaitDeferred
  simp only
  split
  · exact ⟨[], hnone, by simpa using h1, rfl⟩
  · rename_i deferred hd
    have h2 : Advances i w
        { (w'.suspend ⟨i, t⟩ b nests x (.call d)).world with
          deferreds := (w'.suspend ⟨i, t⟩ b nests x (.call d)).world.deferreds.insert d
            (deferred.subscribe ⟨i, x⟩).2 } (k.suspend t nests x (.call d)) es :=
      h1.untouched (.of_eq rfl rfl)
    split
    · exact ⟨[], hnone, by simpa using h2, rfl⟩
    · exact ⟨_, settling_one hx _, h2.schedule _, rfl⟩

theorem answer (hi : w.Has i) {x : EffectId} {result : AnswerExpr} {env : Env}
    (hx : (Instr.answer ⟨i, t⟩ b nests x result env).Knows w.past) :
    w.Enacts i (.answer ⟨i, t⟩ b nests x result env)
      (w.execAnswer ⟨i, t⟩ b nests x result env) := by
  have h := Advances.start hi
  have himm : ∀ signal, w.Enacts i (.answer ⟨i, t⟩ b nests x result env)
      (w.immediate ⟨i, t⟩ b nests x signal) := fun signal =>
    of_does (h.record _) .answerSettles (by simp [World.immediate, Instr.owner?])
      (by simp [World.immediate, Instr.drops?])
  have hawait : ∀ w' d, Untouched i w w' → w.Enacts i (.answer ⟨i, t⟩ b nests x result env)
      (w'.awaitDeferred ⟨i, t⟩ b nests x d) := by
    intro w' d hu
    obtain ⟨rs, hs, h1, htodo⟩ :=
      awaitDeferred t b nests (h.untouched hu) (CallName.leafName hx) d
    refine of_does h1 (.answerSuspends hs) ?_ ?_
    · rw [htodo]
      simp [Instr.owner?]
    · rw [htodo]
      simp [Instr.drops?]
  cases result with
  | value y => exact himm _
  | fault f => exact himm _
  | deferred name =>
    simp only [World.execAnswer]
    split
    · exact hawait w _ (.refl i w)
    · exact himm _
  | resolved y => exact hawait _ _ (untouched_addDeferred _)
  | rejected f => exact hawait _ _ (untouched_addDeferred _)
  | timer ms fault y => exact hawait _ _ (untouched_addTimer _ _)

/-- An effect that was just triggered settles at once. -/
theorem triggerSettles {e : Effect} {es : List Event} (hl : (w.core i).Live t)
    (he : e.fan? = none)
    (h : Advances i w w' (w.core i).number
      (.triggered t (w.core i).nextEffect (Nest.link nests).parent? e :: es))
    (hq : Quiet es) (signal : Signal) :
    w.Enacts i (.trigger ⟨i, t⟩ b nests e)
      (w'.immediate ⟨i, t⟩ b nests (w.core i).nextEffect signal) :=
  of_does (h.record _) (.triggerSettles hl he hq) (by simp [World.immediate, Instr.owner?])
    (by simp [World.immediate, Instr.drops?])

/-- An effect that was just triggered is left pending. -/
theorem triggerSuspends {e : Effect} (kind : WaitKind) (hl : (w.core i).Live t)
    (he : e.fan? = none) (hk : e.Awaits kind)
    (h : Advances i w w' (w.core i).number
      [.triggered t (w.core i).nextEffect (Nest.link nests).parent? e]) :
    w.Enacts i (.trigger ⟨i, t⟩ b nests e)
      (w'.suspend ⟨i, t⟩ b nests (w.core i).nextEffect kind) := by
  have h1 := h.insertWait (w.core i).nextEffect { task := t, link := Nest.link nests, kind }
  have hd : Does i (w.past i) (.trigger ⟨i, t⟩ b nests e) (w.core i)
      (((w.core i).number.suspend t nests (w.core i).nextEffect kind).grow [] [])
      [.begun ⟨i, t⟩ b nests (.pending (w.core i).nextEffect)] []
      [.triggered t (w.core i).nextEffect (Nest.link nests).parent? e] :=
    .triggerSuspends hl he hk (fun r hr => by cases hr) (fun e he => by cases he)
  rw [Core.grow_nil] at hd
  exact of_does h1 hd (by simp [World.suspend, Instr.owner?])
    (by simp [World.suspend, Instr.drops?])

theorem startTake {source : Source} {p : Pattern} (hl : (w.core i).Live t)
    (h : Advances i w w' (w.core i).number
      [.triggered t (w.core i).nextEffect (Nest.link nests).parent? (.take source p)]) :
    w.Enacts i (.trigger ⟨i, t⟩ b nests (.take source p))
      (w'.startTake ⟨i, t⟩ b nests (w.core i).nextEffect source p) := by
  have hnil : Quiet [] := fun e he => by cases he
  unfold World.startTake
  cases source with
  | bus =>
    have h1 : Advances i w (w'.setEngine i fun e =>
        { e with bus := ((w'.engine i).bus.take t p (w.core i).nextEffect).bus })
        (w.core i).number _ := h.setEngine (fun k => k) fun _ => rfl
    simp only
    split
    · exact triggerSettles hl rfl h1 hnil _
    · exact triggerSuspends (.take .bus _) hl rfl rfl h1
  | channel c =>
    simp only
    split
    · exact triggerSettles hl rfl h hnil _
    · rename_i channel hc
      have h1 := h.untouched (untouched_takeChannel c channel p
        (.effect ⟨i, (w.core i).nextEffect⟩))
      split
      · exact triggerSettles hl rfl h1 hnil _
      · exact triggerSuspends (.take (.channel c) _) hl rfl rfl h1

theorem startPut {target : Target} (hl : (w.core i).Live t)
    (h : Advances i w w' (w.core i).number
      [.triggered t (w.core i).nextEffect (Nest.link nests).parent? (.put target)]) :
    w.Enacts i (.trigger ⟨i, t⟩ b nests (.put target))
      (w'.startPut ⟨i, t⟩ b nests (w.core i).nextEffect target) := by
  have h1 := h.insertWait (w.core i).nextEffect { task := t, link := Nest.link nests, kind := .put }
  have hq : ∀ a, w.Enacts i (.trigger ⟨i, t⟩ b nests (.put target))
      ⟨[.begun ⟨i, t⟩ b nests (.pending (w.core i).nextEffect)],
        (w'.insertWait i (w.core i).nextEffect
          { task := t, link := Nest.link nests, kind := .put }).queue i a⟩ := by
    intro a
    obtain ⟨n, h2⟩ := h1.queue a
    have hd : Does i (w.past i) (.trigger ⟨i, t⟩ b nests (.put target)) (w.core i)
        (((w.core i).number.suspend t nests (w.core i).nextEffect .put).grow [] [a])
        [.begun ⟨i, t⟩ b nests (.pending (w.core i).nextEffect)] []
        [.triggered t (w.core i).nextEffect (Nest.link nests).parent? (.put target),
          .queued a n] :=
      .triggerSuspends hl rfl trivial (fun r hr => by cases hr) (by simp [Quiet, Event.IsQuiet])
    rw [Core.grow_errand] at hd
    exact of_does h2 hd (by simp [Instr.owner?]) (by simp [Instr.drops?])
  cases target with
  | bus a => exact hq _
  | channel c v => exact hq _

theorem startCall {name : String} {r : Routine} (hl : (w.core i).Live t)
    (h : Advances i w w' (w.core i).number
      [.triggered t (w.core i).nextEffect (Nest.link nests).parent? (.call name r)]) :
    w.Enacts i (.trigger ⟨i, t⟩ b nests (.call name r))
      (w'.startCall ⟨i, t⟩ b nests (w.core i).nextEffect r) := by
  cases r with
  | sleep ms =>
    have hx : LeafName (.triggered t (w.core i).nextEffect (Nest.link nests).parent?
        (.call name (.sleep ms)) :: w.past i) (w.core i).nextEffect := .triggered rfl
    obtain ⟨rs, hs, h1, htodo⟩ := awaitDeferred t b nests
      (h.untouched (untouched_addTimer ms (.ok .unit))) hx (w'.addTimer ms (.ok .unit)).1
    have hd : Does i (w.past i) (.trigger ⟨i, t⟩ b nests (.call name (.sleep ms))) (w.core i)
        (((w.core i).number.suspend t nests (w.core i).nextEffect
          (.call (w'.addTimer ms (.ok .unit)).1)).grow rs [])
        [.begun ⟨i, t⟩ b nests (.pending (w.core i).nextEffect)] []
        [.triggered t (w.core i).nextEffect (Nest.link nests).parent? (.call name (.sleep ms))] :=
      .triggerSuspends hl rfl trivial hs (fun e he => by cases he)
    rw [Core.grow_reactions] at hd
    refine of_does h1 hd ?_ ?_
    · simp only [World.startCall]
      rw [htodo]
      simp [Instr.owner?]
    · simp only [World.startCall]
      rw [htodo]
      simp [Instr.drops?]
  | scripted c env =>
    have hu : Untouched i w' (c.label.elim w' fun name => w'.enter (.call name)) := by
      cases c.label with
      | none => exact .refl i w'
      | some name => exact untouched_enter (e := .call name) trivial
    refine of_does (h.untouched hu) (.triggerCalls hl rfl c.answer env) ?_ ?_
    · exact (framesOf_neutral rfl).trans (framesOf_one rfl)
    · simp [World.startCall, Instr.drops?]

theorem startFork {saga : Saga} {detached : Bool} (hl : (w.core i).Live t)
    (h : Advances i w w' (w.core i).number
      [.triggered t (w.core i).nextEffect (Nest.link nests).parent? (.fork saga detached)]) :
    w.Enacts i (.trigger ⟨i, t⟩ b nests (.fork saga detached))
      (w'.startFork ⟨i, t⟩ b nests (w.core i).nextEffect saga detached) := by
  have hid : (w'.engine i).nextTask = (w.core i).nextTask := by
    have : (w'.core i).nextTask = (w.core i).nextTask := by rw [h.core]; rfl
    exact this
  have h1 := ((h.createTask saga (some t) detached).schedule (.start (w.core i).nextTask)).record
    (.settled (w.core i).nextEffect (.value (.task (w'.nextTaskRef i saga))))
  refine of_does ?_ (.triggerForks hl rfl saga.name detached (.task (w'.nextTaskRef i saga)))
    (by simp [World.startFork, World.immediate, Instr.owner?])
    (by simp [World.startFork, World.immediate, Instr.drops?])
  simp only [World.startFork, World.immediate, nextTaskRef, hid] at h1 ⊢
  exact h1

theorem startJoin {target : TaskRef} (hl : (w.core i).Live t)
    (h : Advances i w w' (w.core i).number
      [.triggered t (w.core i).nextEffect (Nest.link nests).parent? (.join target)]) :
    w.Enacts i (.trigger ⟨i, t⟩ b nests (.join target))
      (w'.startJoin ⟨i, t⟩ b nests (w.core i).nextEffect target) := by
  have hnil : Quiet [] := fun e he => by cases he
  unfold World.startJoin
  split
  · exact triggerSettles hl rfl h hnil _
  · split
    · exact triggerSettles hl rfl h hnil _
    · split
      · exact triggerSettles hl rfl h hnil _
      · split
        · exact triggerSettles hl rfl h hnil _
        · have h1 := h.setTask (t := target.id)
            (f := fun n => { n with joiners := n.joiners ++ [(w.core i).nextEffect] })
            (fun p => p) fun _ => rfl
          rw [Core.alter_id] at h1
          exact triggerSuspends (.join target.id) hl rfl rfl h1

theorem startCancel {target : Option TaskRef} (hl : (w.core i).Live t)
    (h : Advances i w w' (w.core i).number
      [.triggered t (w.core i).nextEffect (Nest.link nests).parent? (.cancel target)]) :
    w.Enacts i (.trigger ⟨i, t⟩ b nests (.cancel target))
      (w'.startCancel ⟨i, t⟩ b nests (w.core i).nextEffect target) := by
  have hnil : Quiet [] := fun e he => by cases he
  cases target with
  | none =>
    exact of_does h (.triggerCancels hl rfl t) (by simp [World.startCancel, Instr.owner?])
      (by simp [World.startCancel, Instr.drops?])
  | some u =>
    simp only [World.startCancel]
    split
    · exact triggerSettles hl rfl h hnil _
    · exact of_does h (.triggerCancels hl rfl u.id) (by simp [Instr.owner?])
        (by simp [Instr.drops?])

/-- A combinator is opened with its first member. -/
theorem opens {e : Effect} {kind : WaitKind} {e₀ : Effect} {es : List Effect}
    (hl : (w.core i).Live t) (he : e.fan? = some (kind, e₀, es))
    (h : Advances i w w' (w.core i).number
      [.triggered t (w.core i).nextEffect (Nest.link nests).parent? e]) :
    w.Enacts i (.trigger ⟨i, t⟩ b nests e)
      ⟨[.trigger ⟨i, t⟩ b (kind.nest (w.core i).nextEffect es :: nests) e₀],
        w'.insertWait i (w.core i).nextEffect { task := t, link := Nest.link nests, kind }⟩ :=
  of_does (h.insertWait _ _) (.triggerOpens hl he) (framesOf_one rfl) (by simp [Instr.drops?])

theorem trigger (hi : w.Has i) (e : Effect) :
    w.Enacts i (.trigger ⟨i, t⟩ b nests e) (w.execTrigger ⟨i, t⟩ b nests e) := by
  have hnil : Quiet [] := fun e he => by cases he
  unfold World.execTrigger
  split
  · rename_i hh
    exact of_does (.start hi) (.triggerHalted (isHalted_iff.1 hh)) (by simp [Instr.owner?])
      (by simp [Instr.drops?])
  · rename_i hh
    have hl : (w.core i).Live t := live_of_not_halted hh
    have h : Advances i w ((w.setEngine i fun e =>
        { e with nextEffect := (w.core i).nextEffect + 1 }).record i
          (.triggered t (w.core i).nextEffect (Nest.link nests).parent? e)) (w.core i).number
        [.triggered t (w.core i).nextEffect (Nest.link nests).parent? e] :=
      ((Advances.start hi).setEngine
        (fun k => { k with nextEffect := (w.core i).nextEffect + 1 }) fun _ => rfl).record _
    cases e with
    | take source p => exact startTake hl h
    | put target => exact startPut hl h
    | call name r => exact startCall hl h
    | fork saga detached => exact startFork hl h
    | join target => exact startJoin hl h
    | race members =>
      simp only [World.startKeyedRace]
      split
      · rename_i key hkey
        exact triggerSettles hl (by simp [Effect.fan?, hkey]) h hnil _
      · rename_i hkey
        unfold World.startRace
        split
        · rename_i hm
          exact triggerSettles hl (by simp [Effect.fan?, hkey, hm]) h hnil _
        · rename_i e es hm
          exact opens hl (by simp [Effect.fan?, hkey, hm]) h
    | racePositional members =>
      cases members with
      | nil => exact triggerSettles hl rfl h hnil _
      | cons e es => exact opens hl rfl h
    | all members =>
      cases members with
      | nil => exact triggerSettles hl rfl h hnil _
      | cons e es => exact opens hl rfl h
    | cancel target => exact startCancel hl h
    | select key =>
      obtain ⟨quiet, hq, h1⟩ := h.readState
      exact triggerSettles hl rfl h1 hq _

/-! ### After the start of effects -/

theorem resumeBody (hi : w.Has i) (start : Start) :
    w.Enacts i (.begun ⟨i, t⟩ b [] start) (w.resumeBody ⟨i, t⟩ b start) := by
  have h := Advances.start hi
  have hleave : ∀ exit, framesOf i [Instr.leave ⟨i, t⟩ b exit] = [.leave ⟨i, t⟩ b exit] :=
    fun exit => framesOf_one rfl
  unfold World.resumeBody
  cases start with
  | halt => exact of_does h .begunHalt (hleave _) (by simp [Instr.drops?])
  | pending x =>
    simp only
    split
    · rename_i hh
      exact of_does (h.cancelWait x) (.begunWithdraws (isHalted_iff.1 hh)) (hleave _)
        (by simp [Instr.drops?])
    · rename_i hh
      exact of_does h (.begunSuspends (live_of_not_halted hh)) (hleave _) (by simp [Instr.drops?])
  | immediate signal =>
    simp only
    split
    · rename_i hh
      exact of_does h (.begunHalted (isHalted_iff.1 hh)) (hleave _) (by simp [Instr.drops?])
    · rename_i hh
      have hl := live_of_not_halted hh
      have hgo : ∀ a, opening (some signal) = some (some a) →
          w.Enacts i (.begun ⟨i, t⟩ b [] (.immediate signal))
            (if (w.engine i).agenda.fresh.isEmpty then ⟨[.poll ⟨i, t⟩ b (some a)], w⟩
            else ⟨[.leave ⟨i, t⟩ b (.yielded signal)], w⟩) := by
        intro a ha
        split
        · rename_i hf
          exact of_does h (.begunPolls hl ha (List.isEmpty_iff.1 hf)) (framesOf_one rfl)
            (by simp [Instr.drops?])
        · rename_i hf
          refine of_does h (.begunYields hl ha ?_) (hleave _) (by simp [Instr.drops?])
          intro hn
          exact hf (List.isEmpty_iff.2 hn)
      cases signal with
      | ended => exact of_does h (.begunEnds hl) (hleave _) (by simp [Instr.drops?])
      | value v => exact hgo _ rfl
      | fault f => exact hgo _ rfl

theorem begunInRace (hi : w.Has i) (x : EffectId) (slot : Nat) (rest : List Effect)
    (start : Start) :
    w.Enacts i (.begun ⟨i, t⟩ b (.race x slot rest :: nests) start)
      (w.begunInRace ⟨i, t⟩ b x slot rest nests start) := by
  have h := Advances.start hi
  cases start with
  | pending member =>
    have h1 := h.setWaits ((w.engine i).waits.modify x fun wait =>
      { wait with kind := wait.kind.setMember slot member })
    cases rest with
    | nil => exact of_does h1 .raceFull (framesOf_one rfl) (by simp [World.begunInRace,
        World.nextOfRace, Instr.drops?])
    | cons e es => exact of_does h1 .raceNext (framesOf_one rfl) (by simp [World.begunInRace,
        World.nextOfRace, Instr.drops?])
  | halt => exact of_does (h.cancelWait x) .raceHalt (framesOf_one rfl) (by
      simp [World.begunInRace, Instr.drops?])
  | immediate signal =>
    simp only [World.begunInRace]
    split
    · rename_i hn
      exact of_does h (.raceLost hn) (framesOf_one rfl) (by simp [Instr.drops?])
    · rename_i wait hn
      exact of_does ((h.walk _ _).record _) (.raceDecided hn) (framesOf_one rfl)
        (by simp [World.immediate, Instr.drops?])

/-- The end of a member of an `all` that does not fail it. -/
theorem nextOfAll {x : EffectId} {slot : Nat} {rest : List Effect} {start : Start}
    {waits : Waits} (h : Advances i w w' { w.core i with waits } [])
    (hk : (∃ member, start = .pending member ∧
        waits = (w.core i).waits.modify x fun w => { w with kind := w.kind.setMember slot member }) ∨
      ∃ v, start = .immediate (.value v) ∧
        waits = (Waits.merge (w.core i).waits x slot (.value v)).2) :
    w.Enacts i (.begun ⟨i, t⟩ b (.all x slot rest :: nests) start)
      (w'.nextOfAll ⟨i, t⟩ b x slot rest nests) := by
  have hk' : (∃ member, start = .pending member ∧ ({ w.core i with waits } : Core) =
        { w.core i with waits := (w.core i).waits.modify x fun w =>
          { w with kind := w.kind.setMember slot member } }) ∨
      ∃ v, start = .immediate (.value v) ∧ ({ w.core i with waits } : Core) =
        { w.core i with waits := (Waits.merge (w.core i).waits x slot (.value v)).2 } := by
    rcases hk with ⟨member, hs, rfl⟩ | ⟨v, hs, rfl⟩
    · exact Or.inl ⟨member, hs, rfl⟩
    · exact Or.inr ⟨v, hs, rfl⟩
  have hwaits : (w'.engine i).waits = waits := h.waits
  cases rest with
  | cons e es => exact of_does h (.allNext hk') (framesOf_one rfl) (by
      simp [World.nextOfAll, Instr.drops?])
  | nil =>
    unfold World.nextOfAll
    simp only [hwaits]
    split
    · rename_i task link results members hg
      refine of_does ((h.setWaits _).record _) (.allComplete hk' hg rfl) (framesOf_one rfl)
        (by simp [World.immediate, Instr.drops?])
    · rename_i hg
      refine of_does h (.allFull hk' ?_) (framesOf_one rfl) (by simp [Instr.drops?])
      rintro ⟨task, link, kind⟩ results members hget rfl
      exact hg _ _ _ _ hget

theorem begunInAll (hi : w.Has i) (x : EffectId) (slot : Nat) (rest : List Effect)
    (start : Start) :
    w.Enacts i (.begun ⟨i, t⟩ b (.all x slot rest :: nests) start)
      (w.begunInAll ⟨i, t⟩ b x slot rest nests start) := by
  have h := Advances.start hi
  cases start with
  | pending member => exact nextOfAll (h.setWaits _) (Or.inl ⟨member, rfl, rfl⟩)
  | halt => exact of_does (h.cancelWait x) .allHalt (framesOf_one rfl) (by
      simp [World.begunInAll, Instr.drops?])
  | immediate signal =>
    cases signal with
    | value v => exact nextOfAll (h.setWaits _) (Or.inr ⟨v, rfl, rfl⟩)
    | fault | ended =>
      simp only [World.begunInAll]
      split
      · rename_i hn
        exact of_does (h.record _) (.allLost (fun v hv => by cases hv) hn) (framesOf_one rfl)
          (by simp [World.immediate, Instr.drops?])
      · rename_i wait hn
        exact of_does ((h.walk _ _).record _) (.allFailed (fun v hv => by cases hv) hn)
          (framesOf_one rfl) (by simp [World.immediate, Instr.drops?])

theorem begun (hi : w.Has i) (start : Start) :
    w.Enacts i (.begun ⟨i, t⟩ b nests start) (w.execBegun ⟨i, t⟩ b nests start) := by
  cases nests with
  | nil => exact resumeBody hi start
  | cons n nests =>
    cases n with
    | race x slot rest => exact begunInRace hi x slot rest start
    | all x slot rest => exact begunInAll hi x slot rest start

theorem leave (hi : w.Has i) (exit : Exit) :
    w.Enacts i (.leave ⟨i, t⟩ b exit) (w.execLeave ⟨i, t⟩ b exit) := by
  have h : Advances i w (w.setEngine i fun e => { e with current := none })
      { w.core i with current := none } [] :=
    (Advances.start hi).setEngine (fun k => { k with current := none }) fun _ => rfl
  have hD : ∀ x : Instr, x.drops? i = none →
      dropsOf i [Instr.dropBody ⟨i, t⟩ b, x] = [t] := by
    intro x hx
    rw [dropsOf_cons, dropsOf_cons, hx]
    simp [Instr.drops?]
  cases exit with
  | suspended x => exact of_does (h.park t b (some x)) .leaveSuspended rfl rfl
  | yielded signal => exact of_does ((h.park t b none).schedule _) .leaveYielded rfl rfl
  | finished a =>
    cases a with
    | ok v =>
      exact of_does h .leaveFinished ((framesOf_neutral rfl).trans (framesOf_one rfl)) (hD _ rfl)
    | error f =>
      exact of_does h .leaveFailed ((framesOf_neutral rfl).trans (framesOf_one rfl)) (hD _ rfl)
  | ended =>
    exact of_does h .leaveEnded ((framesOf_neutral rfl).trans (framesOf_one rfl)) (hD _ rfl)
  | halted =>
    exact of_does h .leaveHalted ((framesOf_neutral rfl).trans (framesOf_one rfl)) (hD _ rfl)

/-! ### The end of tasks -/

theorem posture_eq_none {k : Core} {es : List Event} (h : Advances i w w' k es) {u : TaskId} :
    k.posture u = none ↔ w'.task? i u = none := by
  rw [← h.core, posture_core, Option.map_eq_none_iff]

theorem not_live_of_absent {k : Core} {u : TaskId} (h : k.posture u = none) : ¬ k.Live u := by
  rintro ⟨p, hp, -⟩
  rw [h] at hp
  cases hp

theorem not_live_of_terminal {k : Core} {u : TaskId} {p : Posture} (h : k.posture u = some p)
    (hp : p.status.isTerminal = true) : ¬ k.Live u := by
  rintro ⟨q, hq, hq'⟩
  rw [h] at hq
  cases hq
  rw [hp] at hq'
  cases hq'

theorem returned (hi : w.Has i) (v : Value) :
    w.Enacts i (.returned ⟨i, t⟩ v) (w.execReturned ⟨i, t⟩ v) := by
  have h := Advances.start hi
  have hk : (w.core i).posture t = (w.task? i t).map TaskNode.posture := rfl
  unfold World.execReturned
  split
  · rename_i hn
    rw [hn] at hk
    exact of_does h (.returnedLate (not_live_of_absent hk)) rfl rfl
  · rename_i n hn
    rw [hn] at hk
    split
    · rename_i hterm
      exact of_does h (.returnedLate (not_live_of_terminal hk hterm)) rfl rfl
    · rename_i hterm
      have hterm' : n.posture.status.isTerminal = false := by simpa [TaskNode.posture] using hterm
      split
      · rename_i hc
        exact of_does (h.setTask (fun p => { p with result := some v }) fun _ => rfl)
          (.returned hk hterm' (List.isEmpty_iff.1 hc)) (framesOf_one rfl)
          (by simp [Instr.drops?])
      · rename_i hc
        refine of_does (h.setTask (fun p => { p with result := some v, status := .suspended })
          fun _ => rfl) (.returnedHeld hk hterm' ?_) rfl rfl
        intro hn
        exact hc (List.isEmpty_iff.2 hn)

/-- What the record of an outcome comes to. -/
theorem buries {k : Core} (hw : w'.Knows) (h : Advances i w w' k []) (u : TaskId)
    (outcome : Outcome) :
    ∃ k' c es, Buries (w.past i) k u outcome k' c es ∧
      Advances i w (w'.finalize i u outcome).2 k' es ∧ (w'.finalize i u outcome).1 = c := by
  cases hn : w'.task? i u with
  | none =>
    refine ⟨k, none, [], .absent ((posture_eq_none h).2 hn), ?_, ?_⟩
    · rw [finalize_of_absent hn]
      simpa using h
    · rw [finalize_of_absent hn]
  | some n =>
    have hk : k.posture u = some n.posture := by
      rw [← h.core, posture_core, hn]
      rfl
    obtain ⟨hc, quiet, hq, h1⟩ := h.finalize hn outcome
    refine ⟨_, _, .taskFinished u outcome :: quiet, .gone hk ?_ hq, by simpa using h1, hc⟩
    intro r hr
    obtain ⟨x, hx, rfl⟩ := List.mem_map.1 hr
    have hl := (hw.engine i).joiner u n hn x hx
    rw [h.past] at hl
    exact ⟨x, _, rfl, hl⟩

theorem frames_cascadeOn (r : Option Cascade × World) :
    framesOf i (cascadeOn i r).todo = r.1.toList.map (.cascade i) ∧
      dropsOf i (cascadeOn i r).todo = [] ∧ (cascadeOn i r).world = r.2 := by
  unfold cascadeOn
  split
  · rename_i hr
    simp [hr]
  · rename_i c hr
    simp [hr, Instr.owner?, Instr.drops?]

theorem cascade (hi : w.Has i) (hw : w.Knows) (c : Cascade) :
    w.Enacts i (.cascade i c) (w.execCascade i c) := by
  have h := Advances.start hi
  cases c with
  | abort u f => exact of_does h .cascadeAbort (framesOf_one rfl) (by
      simp [World.execCascade, Instr.drops?])
  | complete u =>
    have hk : (w.core i).posture u = (w.task? i u).map TaskNode.posture := rfl
    simp only [World.execCascade]
    split
    · rename_i hn
      rw [hn] at hk
      exact of_does h (.cascadeLate (by rw [hk]; rintro p ⟨⟩)) rfl rfl
    · rename_i n hn
      rw [hn] at hk
      split
      · rename_i hterm
        refine of_does h (.cascadeLate ?_) rfl rfl
        rw [hk]
        rintro p ⟨⟩
        exact Or.inl hterm
      · rename_i hterm
        have hterm' : n.posture.status.isTerminal = false := by
          simpa [TaskNode.posture] using hterm
        split
        · rename_i hr
          refine of_does h (.cascadeLate ?_) rfl rfl
          rw [hk]
          rintro p ⟨⟩
          exact Or.inr hr
        · rename_i v hr
          have h1 := h.setTask (t := u) (f := fun n => { n with result := none })
            (fun p => { p with result := none }) fun _ => rfl
          have hw1 : (w.setTask i u fun n => { n with result := none }).Knows :=
            ((Learns.start hw).setTask' (i := i) (t := u)
              (f := fun n => { n with result := none }) fun _ => rfl).knows
          obtain ⟨k', c, es', hb, h2, hc⟩ := buries hw1 h1 u (.done v)
          obtain ⟨hG, hD, hworld⟩ := frames_cascadeOn (i := i)
            ((w.setTask i u fun n => { n with result := none }).finalize i u (.done v))
          refine of_does ?_ (.cascadeComplete hk hterm' hr hb) (hc ▸ hG) hD
          rw [hworld]
          exact h2

theorem abort (hi : w.Has i) (f : Fault) :
    w.Enacts i (.abort ⟨i, t⟩ f) (w.execAbort ⟨i, t⟩ f) := by
  have h := Advances.start hi
  have hk : (w.core i).posture t = (w.task? i t).map TaskNode.posture := rfl
  unfold World.execAbort
  split
  · rename_i hn
    rw [hn] at hk
    exact of_does h (.abortLate (not_live_of_absent hk)) rfl rfl
  · rename_i n hn
    rw [hn] at hk
    split
    · rename_i hterm
      exact of_does h (.abortLate (not_live_of_terminal hk hterm)) rfl rfl
    · rename_i hterm
      have hterm' : n.posture.status.isTerminal = false := by simpa [TaskNode.posture] using hterm
      have h1 := (h.setTask (t := t)
        (f := fun n => { n with status := .aborted, pending := none, body := none })
        (fun p => { p with status := .aborted, pending := none, hasBody := false })
        fun _ => rfl).cancelPending n.pending
      refine of_does h1 (.abort hk hterm') ?_ ?_
      · have hchildren : framesOf i (n.children.map (Instr.cancel i)) =
            n.children.map (Instr.cancel i) := by
          refine List.filter_eq_self.2 ?_
          intro x hx
          obtain ⟨u, -, rfl⟩ := List.mem_map.1 hx
          simp [Instr.owner?]
        rw [framesOf_append, framesOf_append, hchildren]
        cases n.body <;> simp [World.dropping, Instr.owner?, TaskNode.posture] <;> rfl
      · have hchildren : dropsOf i (n.children.map (Instr.cancel i)) = [] := by
          refine List.filterMap_eq_nil_iff.2 ?_
          intro x hx
          obtain ⟨u, -, rfl⟩ := List.mem_map.1 hx
          rfl
        rw [dropsOf_append, dropsOf_append, hchildren]
        cases hb : n.body <;> simp [World.dropping, Instr.drops?, TaskNode.posture, hb, dropped]

theorem abortDone (hi : w.Has i) (hw : w.Knows) (f : Fault) (wasCurrent : Bool) :
    w.Enacts i (.abortDone ⟨i, t⟩ f wasCurrent) (w.execAbortDone ⟨i, t⟩ f wasCurrent) := by
  have h := Advances.start hi
  cases wasCurrent with
  | true =>
    refine of_does ?_ .abortHalts rfl rfl
    exact h.setEngine (f := fun e => { e with halted := some (.aborted f) })
      (fun k => { k with halted := some (.aborted f) }) fun _ => rfl
  | false =>
    obtain ⟨k', c, es', hb, h2, hc⟩ := buries hw h t (.aborted f)
    obtain ⟨hG, hD, hworld⟩ := frames_cascadeOn (i := i) (w.finalize i t (.aborted f))
    refine of_does ?_ (.abortDone hb) (hc ▸ hG) hD
    simp only [World.execAbortDone, Bool.false_eq_true, if_false]
    rw [hworld]
    exact h2

theorem conclude (hi : w.Has i) (hw : w.Knows) :
    w.Enacts i (.conclude ⟨i, t⟩) (w.execConclude ⟨i, t⟩) := by
  have h1 : Advances i w (w.setEngine i fun e => { e with halted := none })
      { w.core i with halted := none } [] :=
    (Advances.start hi).setEngine (fun k => { k with halted := none }) fun _ => rfl
  have hw1 : (w.setEngine i fun e => { e with halted := none }).Knows :=
    ((Learns.start hw).setEngine (i := i) (f := fun e => { e with halted := none })
      fun he => { he with }).knows
  obtain ⟨k', c, es', hb, h2, hc⟩ := buries hw1 h1 t
    ((w.engine i).halted.getD .cancelled)
  obtain ⟨hG, hD, hworld⟩ := frames_cascadeOn (i := i)
    ((w.setEngine i fun e => { e with halted := none }).finalize i t
      ((w.engine i).halted.getD .cancelled))
  refine of_does ?_ (.conclude hb) (hc ▸ hG) hD
  simp only [World.execConclude]
  rw [hworld]
  exact h2

/-- Whatever a cancellation meets below a live task is live. -/
theorem live_of_mem_walk {tasks : Tasks} {visits : List Tasks.Visit}
    (hv : ∀ u, .enter u ∈ visits ∨ .leave u ∈ visits → (w.engine i).tasks.isLive u = true)
    (ht : ∀ u, tasks.isLive u = true → (w.engine i).tasks.isLive u = true) :
    ∀ u ∈ tasks.walk visits, (w.engine i).tasks.isLive u = true := by
  fun_induction Tasks.walk tasks visits with
  | case1 => exact fun u hu => by cases hu
  | case2 tasks id rest ih =>
    intro u hu
    rcases List.mem_cons.1 hu with rfl | hu
    · exact hv _ (Or.inr List.mem_cons_self)
    · refine ih (fun u hu => hv u ?_) ht u hu
      exact hu.imp (List.mem_cons_of_mem _) (List.mem_cons_of_mem _)
  | case3 tasks id rest hn ih =>
    intro u hu
    rcases List.mem_cons.1 hu with rfl | hu
    · exact hv _ (Or.inl List.mem_cons_self)
    · refine ih (fun u hu => hv u ?_) ht u hu
      exact hu.imp (List.mem_cons_of_mem _) (List.mem_cons_of_mem _)
  | case4 tasks id rest n hn children ih =>
    refine ih ?_ ?_
    · intro u hu
      simp only [List.mem_append, List.mem_map, List.mem_cons, reduceCtorEq, false_or,
        Tasks.Visit.leave.injEq, Tasks.Visit.enter.injEq, exists_eq_right, and_false,
        exists_false] at hu
      rcases hu with (hu | hu) | (rfl | hu)
      · exact ht u (List.mem_filter.1 hu).2
      · exact hv u (Or.inl (List.mem_cons_of_mem _ hu))
      · exact hv _ (Or.inl List.mem_cons_self)
      · exact hv u (Or.inr (List.mem_cons_of_mem _ hu))
    · intro u hu
      refine ht u ?_
      simp only [Tasks.isLive, Table.get?_erase] at hu ⊢
      by_cases h : u = id
      · simp [h] at hu
      · simpa [h] using hu

theorem cancel (hi : w.Has i) (root : TaskId) :
    w.Enacts i (.cancel i root) (w.execCancel i root) := by
  have h := Advances.start hi
  unfold World.execCancel
  simp only
  split
  · rename_i hl
    have hfold : ∀ (order : List TaskId) {w' : World} {k : Core}, Advances i w w' k [] →
        Advances i w (order.foldl
          (fun w id => w.setTask i id fun n => { n with status := .cancelled }) w')
          (k.cancelAll order) [] := by
      intro order
      induction order with
      | nil => exact fun h => h
      | cons u order ih =>
        intro w' k h
        exact ih (h.setTask (fun p => { p with status := .cancelled }) fun _ => rfl)
    refine of_does (hfold _ h) (.cancel (live_iff.1 hl) ?_ ?_ ?_) (framesOf_one rfl)
      (by simp [Instr.drops?])
    · intro u hu
      refine live_iff.1 (live_of_mem_walk ?_ (fun u hu => hu) u hu)
      intro u hu
      simp only [List.mem_singleton, Tasks.Visit.enter.injEq, reduceCtorEq, or_false] at hu
      rw [hu]
      exact hl
    · exact Tasks.mem_walk_of_mem (Or.inl List.mem_cons_self)
    · intro u hu p hp c hc hlc
      rw [posture_core] at hp
      obtain ⟨n, hn, rfl⟩ := Option.map_eq_some_iff.1 hp
      refine Tasks.mem_walk_of_child ?_ hu hn hc (live_iff.2 hlc)
      intro v hv
      simp at hv
  · rename_i hl
    exact of_does h (.cancelLate fun hl' => hl (live_iff.2 hl')) rfl rfl

theorem cancelEach (hi : w.Has i) (order : List TaskId) (cascades : List Cascade) :
    w.Enacts i (.cancelEach i order cascades) (w.execCancelEach i order cascades) := by
  have h := Advances.start hi
  cases order with
  | nil =>
    refine of_does h .cancelledAll ?_ ?_
    · refine List.filter_eq_self.2 ?_
      intro x hx
      obtain ⟨c, -, rfl⟩ := List.mem_map.1 hx
      simp [Instr.owner?]
    · refine List.filterMap_eq_nil_iff.2 ?_
      intro x hx
      obtain ⟨c, -, rfl⟩ := List.mem_map.1 hx
      rfl
  | cons u rest =>
    have hk : (w.core i).posture u = (w.task? i u).map TaskNode.posture := rfl
    simp only [World.execCancelEach]
    split
    · rename_i hn
      rw [hn] at hk
      exact of_does h (.cancelledLate hk) (framesOf_one rfl) (by simp [Instr.drops?])
    · rename_i n hn
      rw [hn] at hk
      have h1 := (h.setTask (t := u) (f := fun n => { n with pending := none, body := none })
        (fun p => { p with pending := none, hasBody := false })
        fun _ => rfl).cancelPending n.pending
      refine of_does h1 (.cancelEach hk) ?_ ?_
      · rw [framesOf_append]
        cases n.body <;> simp [World.dropping, Instr.owner?] <;> rfl
      · rw [dropsOf_append]
        cases hb : n.body <;> simp [World.dropping, Instr.drops?, TaskNode.posture, hb, dropped]

theorem cancelOne (hi : w.Has i) (hw : w.Knows) (wasCurrent : Bool) (rest : List TaskId)
    (cascades : List Cascade) :
    w.Enacts i (.cancelOne ⟨i, t⟩ wasCurrent rest cascades)
      (w.execCancelOne ⟨i, t⟩ wasCurrent rest cascades) := by
  have h := Advances.start hi
  cases wasCurrent with
  | true =>
    refine of_does ?_ .cancelHalts (framesOf_one rfl) (by simp [World.execCancelOne, Instr.drops?])
    exact h.setEngine (f := fun e => { e with halted := some .cancelled })
      (fun k => { k with halted := some .cancelled }) fun _ => rfl
  | false =>
    obtain ⟨k', c, es', hb, h2, rfl⟩ := buries hw h t .cancelled
    exact of_does h2 (.cancelOne hb) (framesOf_one rfl)
      (by simp [World.execCancelOne, Instr.drops?])

end

/-- An instruction of the middleware is carried out as `Does` says. -/
theorem exec (hi : w.Has i) (hw : w.Knows) {x : Instr} (hx : x.Knows w.past)
    (ho : x.owner? = some i) {c : Config} (hc : x.exec w = some c) : w.Enacts i x c := by
  cases x with
  | drain j => cases ho; cases hc; exact drain hi
  | perform j job => cases ho; cases hc; exact perform hi hw hx
  | schedule j r =>
    cases ho
    cases hc
    obtain ⟨y, signal, rfl, hy⟩ := hx
    exact of_does ((Advances.start hi).schedule _) (.schedule (settling_one hy _)) rfl rfl
  | poll turn b a => obtain ⟨j, t⟩ := turn; cases ho; cases hc; exact poll hi t b a
  | advance turn s m => obtain ⟨j, t⟩ := turn; cases ho; exact advance hi hc
  | polled turn b step => obtain ⟨j, t⟩ := turn; cases ho; cases hc; exact polled hi t b step
  | trigger turn b nests e => obtain ⟨j, t⟩ := turn; cases ho; cases hc; exact trigger hi e
  | answer turn b nests y result env =>
    obtain ⟨j, t⟩ := turn
    cases ho
    cases hc
    exact answer hi hx
  | cancelDone turn b nests y => obtain ⟨j, t⟩ := turn; cases ho; cases hc; exact cancelDone hi y
  | begun turn b nests start => obtain ⟨j, t⟩ := turn; cases ho; cases hc; exact begun hi start
  | leave turn b exit => obtain ⟨j, t⟩ := turn; cases ho; cases hc; exact leave hi exit
  | returned turn v => obtain ⟨j, t⟩ := turn; cases ho; cases hc; exact returned hi v
  | abort turn f => obtain ⟨j, t⟩ := turn; cases ho; cases hc; exact abort hi f
  | abortDone turn f b => obtain ⟨j, t⟩ := turn; cases ho; cases hc; exact abortDone hi hw f b
  | conclude turn => obtain ⟨j, t⟩ := turn; cases ho; cases hc; exact conclude hi hw
  | cascade j c => cases ho; cases hc; exact cascade hi hw c
  | cancel j root => cases ho; cases hc; exact cancel hi root
  | cancelEach j order cascades => cases ho; cases hc; exact cancelEach hi order cascades
  | cancelOne turn b rest cascades =>
    obtain ⟨j, t⟩ := turn
    cases ho
    cases hc
    exact cancelOne hi hw b rest cascades
  | emit j a sender => cases ho; cases hc; exact emit hi a sender
  | forwarded j a sender => cases ho; cases hc; exact forwarded hi hw hx
  | _ => cases ho

end Enacts

end World

end SagaMachine
