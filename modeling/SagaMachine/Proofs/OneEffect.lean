import SagaMachine.Proofs.Accounting
import SagaMachine.Proofs.Lifetimes
import SagaMachine.Proofs.Mailboxes
import SagaMachine.Proofs.Pairing
import SagaMachine.Proofs.Reentry

/-!
# The step of a body

From the poll of a body until this returns, the instructions of the body pass on a mailbox. What the
step comes to depends only on the futures that were polled on the way: the body completes with what
it returned, or it is at rest, and then the new performs among these futures decide. The one effect
that a body has left is triggered at once. A body that has left several or none has no effect
triggered any more, and its task fails.

Main statement: `Scenario.Visits.one_effect`.
-/

namespace SagaMachine

/-! ## What is polled -/

/-- What is polled if the effects can be built. -/
def ifBuilt {α : Type} (built : Except Fault α) (ws : α → List (Awaiting Effect)) :
    List (Awaiting Effect) :=
  match built with
  | .ok e => ws e
  | .error _ => []

/-- The futures that a statement polls for the first time. -/
def Stmt.polls (w : World) (env : Env) : Stmt → List (Awaiting Effect)
  | .perform effect _ _ => ifBuilt (w.build env effect) fun e => [.unsent e]
  | .joined effects => ifBuilt (w.buildList env effects) fun es => es.map .unsent
  | .mixed effect => ifBuilt (w.build env effect) fun e => [.unsent e, .foreign]
  | .foreign => [.foreign]
  | _ => []

/--
The futures that an instruction of a body polls: when the body is polled, those that it waited for,
and then those of its statements. A watcher polls the perform that it comes to.
-/
def Instr.polls (w : World) : Instr → List (Awaiting Effect)
  | .poll _ (.script s) _ => s.pause.elim [] Pause.awaiting
  | .poll _ (.watcher b) a =>
    match (b.resume a).2 with
    | .yielded e => [.unsent e]
    | .complete _ => []
  | .advance _ s _ =>
    match s.control with
    | .block (stmt :: _) :: _ => w.spend.elim [] fun w => stmt.polls w s.env
    | _ => []
  | _ => []

/-- A body is at rest, waiting for something. -/
def Body.Rests : Body → Prop
  | .script s => s.pause ≠ none
  | .watcher _ => True

/-- A body has returned. -/
def Body.Over : Body → Prop
  | .script s => s.pause = none
  | .watcher _ => True

/-- A body has not returned yet from a poll. -/
def Instr.IsPolling : Instr → Prop
  | .poll .. | .advance .. => True
  | _ => False

/--
On the way from the poll of a body to a later configuration, the body polls the given futures. What
is below the body stays where it is.
-/
inductive Config.Plays (rest : List Instr) (c : Config) : List (Awaiting Effect) → Config → Prop
  | start : Plays rest c [] c
  /-- The body goes on. -/
  | goes {ws : List (Awaiting Effect)} {c₁ c₂ : Config} {x : Instr} (h : Plays rest c ws c₁)
      (top : c₁.todo = x :: rest) (polling : x.IsPolling) (step : c₁.step = some c₂) :
      Plays rest c (ws ++ x.polls c₁.world) c₂
  /-- Something goes on that the body has called. -/
  | calls {ws : List (Awaiting Effect)} {c₁ c₂ : Config} {x y : Instr} {pre : List Instr}
      (h : Plays rest c ws c₁) (top : c₁.todo = x :: (pre ++ y :: rest))
      (step : c₁.step = some c₂) : Plays rest c ws c₂

/-! ## How a poll goes on -/

/-- How far the poll of a body has come that was polled with an answer and has polled some futures. -/
inductive Playing (turn : Turn) (a : Option Answer) : List (Awaiting Effect) → Instr → Prop
  | advances {ws : List (Awaiting Effect)} {s : ScriptBody} {m : Mailbox Effect}
      (h : (Awaiting.pollAll (.opened a) ws).2 = m) : Playing turn a ws (.advance turn s m)
  | returns {ws : List (Awaiting Effect)} {b : Body} {r : Answer} (ho : b.Over) :
      Playing turn a ws (.polled turn b (.complete r))
  | rests {ws : List (Awaiting Effect)} {b : Body} (rests : b.Rests) :
      Playing turn a ws (.polled turn b (.ofParked (parked ws)))

/-- The last instruction of a configuration is how far a poll has come. -/
def Config.Polling (c : Config) (turn : Turn) (a : Option Answer) (ws : List (Awaiting Effect)) : Prop :=
  ∃ pre y, c.todo = pre ++ [y] ∧ Playing turn a ws y

section

variable {w : World} {turn : Turn} {a : Option Answer} {ws : List (Awaiting Effect)}
  {s : ScriptBody} {m : Mailbox Effect}

theorem Awaiting.pollAll_append {ε : Type} (m : Mailbox ε) (ws ws' : List (Awaiting ε)) :
    (pollAll m (ws ++ ws')).2 = (pollAll (pollAll m ws).2 ws').2 := by
  induction ws generalizing m with
  | nil => rfl
  | cons x ws ih => exact ih _

theorem ends_advance (h : (Awaiting.pollAll (.opened a) ws).2 = m) (os : List Instr) :
    Config.Polling ⟨os ++ [.advance turn s m], w⟩ turn a ws :=
  ⟨os, _, rfl, .advances h⟩

theorem ends_finishScript (r : Answer) : (w.finishScript turn s r).Polling turn a ws :=
  ⟨[_], _, rfl, .returns rfl⟩

theorem ends_raise (h : (Awaiting.pollAll (.opened a) ws).2 = m) (f : Fault) :
    (w.raise turn s m f).Polling turn a ws := by
  unfold World.raise
  split
  · exact ends_advance h []
  · exact ends_finishScript _

theorem ends_resumeScript (h : (Awaiting.pollAll (.opened a) ws).2 = m) (resumption : Resumption)
    (answers : List Answer) : (w.resumeScript turn s m resumption answers).Polling turn a ws := by
  unfold World.resumeScript
  split
  · exact ends_advance h []
  · exact ends_raise h _
  · exact ends_advance h []
  · exact ends_advance h []

theorem ends_awaitAll (h : (Awaiting.pollAll (.opened a) ws).2 = m) (p : Pause) :
    (w.awaitAll turn s m p).Polling turn a (ws ++ p.awaiting) := by
  have hall : (Awaiting.pollAll (.opened a) (ws ++ p.awaiting)).2 =
      (Awaiting.pollAll m p.awaiting).2 := by
    rw [Awaiting.pollAll_append, h]
  unfold World.awaitAll
  simp only
  split
  · exact ends_resumeScript hall _ _
  · have hholds := (Mailbox.holds_opened a).pollAll (ws ++ p.awaiting)
    rw [List.nil_append, hall] at hholds
    rw [hholds.verdict]
    exact ⟨[], _, rfl, .rests nofun⟩

theorem Config.Polling.nil {c : Config} (h : c.Polling turn a ws) : c.Polling turn a (ws ++ []) := by
  rwa [List.append_nil]

theorem ends_withEffects {α : Type} (h : (Awaiting.pollAll (.opened a) ws).2 = m)
    (built : Except Fault α) (pause : α → Pause) :
    (w.withEffects turn s m built fun e => w.awaitAll turn s m (pause e)).Polling turn a
      (ws ++ ifBuilt built fun e => (pause e).awaiting) := by
  cases built with
  | ok e => exact ends_awaitAll h _
  | error f => exact (ends_raise h f).nil

theorem ends_execStmt (h : (Awaiting.pollAll (.opened a) ws).2 = m) (stmt : Stmt) :
    (w.execStmt turn s m stmt).Polling turn a (ws ++ stmt.polls w s.env) := by
  cases stmt with
  | perform effect name label =>
    exact ends_withEffects h (w.build s.env effect) fun e => ⟨[.unsent e], .bind name label⟩
  | joined effects =>
    exact ends_withEffects h (w.buildList s.env effects) fun es => ⟨es.map .unsent, .report⟩
  | mixed effect =>
    exact ends_withEffects h (w.build s.env effect) fun e => ⟨[.unsent e, .foreign], .report⟩
  | describe effect =>
    simp only [World.execStmt, World.withEffects]
    cases w.build s.env effect with
    | ok e => exact (ends_advance h []).nil
    | error f => exact (ends_raise h f).nil
  | foreign => exact ends_awaitAll h _
  | «return» x => exact (ends_finishScript _).nil
  | fail f => exact (ends_raise h f).nil
  | rethrow => exact (ends_raise h _).nil
  | unknown name => exact (ends_raise h _).nil
  | ops os => exact (ends_advance h [_]).nil
  | _ => exact (ends_advance h []).nil

theorem ends_execAdvance (h : (Awaiting.pollAll (.opened a) ws).2 = m) {next : Config}
    (hn : w.execAdvance turn s m = some next) :
    next.Polling turn a (ws ++ (Instr.advance turn s m).polls w) := by
  unfold World.execAdvance at hn
  split at hn <;> rename_i hcontrol <;> simp only [Instr.polls, hcontrol]
  · cases hn
    exact (ends_finishScript _).nil
  · cases hn
    exact (ends_advance h []).nil
  · rename_i stmt stmts rest
    obtain ⟨w', hw, rfl⟩ := Option.map_eq_some_iff.1 hn
    rw [hw]
    exact ends_execStmt h stmt
  · cases hn
    exact (ends_advance h []).nil
  · cases hn
    exact (ends_advance h []).nil
  · obtain ⟨w', -, rfl⟩ := Option.map_eq_some_iff.1 hn
    exact (ends_advance h []).nil

/-- The body goes on. -/
theorem Playing.exec {x : Instr} (h : Playing turn a ws x) (hx : x.IsPolling) {next : Config}
    (hn : x.exec w = some next) : next.Polling turn a (ws ++ x.polls w) := by
  cases h with
  | advances h => exact ends_execAdvance h hn
  | returns | rests => exact hx.elim

/-- The body is called. -/
theorem ends_execPoll (w : World) (turn : Turn) (b : Body) (a : Option Answer) :
    (w.execPoll turn b a).Polling turn a ((Instr.poll turn b a).polls w) := by
  cases b with
  | watcher b =>
    simp only [World.execPoll, Instr.polls]
    cases (b.resume a).2 with
    | yielded e =>
      have hrests : Playing turn a [.unsent e]
          (.polled turn (.watcher (b.resume a).1) (.ofParked [e])) := .rests trivial
      exact ⟨[], _, rfl, hrests⟩
    | complete r => exact ⟨[], _, rfl, .returns trivial⟩
  | script s =>
    have hnil : (Awaiting.pollAll (.opened a : Mailbox Effect) []).2 = .opened a := rfl
    simp only [World.execPoll, Instr.polls]
    cases s.pause with
    | none => exact ends_advance hnil []
    | some p => exact ends_awaitAll hnil p

/-- While a body has not returned from a poll, its instruction is the one above what is below it. -/
theorem Config.Plays.ends {c c' : Config} {b : Body} {rest : List Instr}
    (h : c.Plays rest ws c') (hc : c.todo = .poll turn b a :: rest) :
    c' = c ∧ ws = [] ∨ ∃ pre y, c'.todo = pre ++ y :: rest ∧ Playing turn a ws y := by
  induction h with
  | start => exact Or.inl ⟨rfl, rfl⟩
  | @goes ws c₁ c₂ x h top polling step ih =>
    obtain ⟨todo, w⟩ := c₁
    subst top
    obtain ⟨next, hn, rfl⟩ := Option.map_eq_some_iff.1 step
    right
    have hends : next.Polling turn a (ws ++ x.polls w) := by
      rcases ih with ⟨rfl, rfl⟩ | ⟨pre, y, htodo, hy⟩
      · obtain ⟨rfl, -⟩ := List.cons.inj hc
        cases hn
        exact ends_execPoll w turn b a
      · obtain rfl : pre = [] := by
          have hlen := congrArg List.length htodo
          simpa using hlen
        obtain ⟨rfl, -⟩ := List.cons.inj htodo
        exact hy.exec polling hn
    obtain ⟨pre, y, htodo, hy⟩ := hends
    exact ⟨pre, y, by simp [Config.followedBy, htodo], hy⟩
  | @calls ws c₁ c₂ x y pre h top step ih =>
    obtain ⟨todo, w⟩ := c₁
    subst top
    obtain ⟨next, hn, rfl⟩ := Option.map_eq_some_iff.1 step
    right
    rcases ih with ⟨rfl, rfl⟩ | ⟨pre', y', htodo, hy⟩
    · have hlen := congrArg List.length hc
      simp at hlen
      omega
    · rw [← List.cons_append] at htodo
      obtain ⟨-, hyy⟩ := List.append_inj' htodo rfl
      obtain ⟨rfl, -⟩ := List.cons.inj hyy
      exact ⟨next.todo ++ pre, y, by simp [Config.followedBy], hy⟩

end

/-! ## No effect is triggered meanwhile -/

section

variable {i : MiddlewareId} {past es : List Event} {x : Instr} {k k' : Core} {G : List Instr}
  {D : List TaskId} {t : TaskId} {y : EffectId} {p : Option EffectId} {e : Effect}

theorem Event.not_isAct_settled (z : EffectId) (signal : Signal) :
    ∀ f ∈ [Event.settled z signal], ¬ f.IsAct := by
  simp [Event.IsAct]

/-- An effect of a task is triggered only where its body asks for it. -/
theorem Does.trigger_of_triggered (h : Does i past x k k' G D es) (hm : .triggered t y p e ∈ es) :
    ∃ b nests, x = .trigger ⟨i, t⟩ b nests e ∧ p = (Nest.link nests).parent? := by
  have hno {l : List Event} (hl : ∀ f ∈ l, ¬ f.IsAct) : .triggered t y p e ∉ l :=
    fun hm => hl _ hm trivial
  have hfirst {u : TaskId} {z : EffectId} {q : Option EffectId} {f : Effect} {l : List Event}
      (hl : ∀ f ∈ l, ¬ f.IsAct) (hm : .triggered t y p e ∈ .triggered u z q f :: l) :
      u = t ∧ f = e ∧ p = q := by
    rcases List.mem_cons.1 hm with hm | hm
    · cases hm
      exact ⟨rfl, rfl, rfl⟩
    · exact absurd hm (hno hl)
  have hnil : ∀ f ∈ ([] : List Event), ¬ f.IsAct := nofun
  cases h with
  | settle | wake | begunWithdraws | raceHalt | allHalt | cancelEach | abort =>
    exact absurd hm (hno (Passage.not_isAct _))
  | errand _ _ hq | emit hq | forwarded _ _ hq | forwardedCall _ hq =>
    exact absurd hm (hno hq.not_isAct)
  | abortDone h | conclude h | cascadeComplete _ _ _ h | cancelOne h =>
    exact absurd hm (hno h.not_isAct)
  | raceDecided | allFailed =>
    exact absurd hm (hno (List.forall_mem_append.2
      ⟨Passage.not_isAct _, Event.not_isAct_settled _ _⟩))
  | answerSettles | cancelSettles | allComplete | allLost =>
    exact absurd hm (hno (Event.not_isAct_settled _ _))
  | poll => cases List.mem_singleton.1 hm
  | triggerSettles _ _ hq =>
    obtain ⟨rfl, rfl, hp⟩ := hfirst (List.forall_mem_append.2
      ⟨hq.not_isAct, Event.not_isAct_settled _ _⟩) hm
    exact ⟨_, _, rfl, hp⟩
  | triggerForks =>
    obtain ⟨rfl, rfl, hp⟩ := hfirst (by simp [Event.IsAct]) hm
    exact ⟨_, _, rfl, hp⟩
  | triggerSuspends _ _ _ _ hq =>
    obtain ⟨rfl, rfl, hp⟩ := hfirst hq.not_isAct hm
    exact ⟨_, _, rfl, hp⟩
  | triggerCalls | triggerCancels | triggerOpens =>
    obtain ⟨rfl, rfl, hp⟩ := hfirst hnil hm
    exact ⟨_, _, rfl, hp⟩
  | _ => exact absurd hm (hno hnil)

end

namespace Scenario.Visits

variable {s : Scenario} {c c' : Config} {i : MiddlewareId} {t : TaskId} {y : EffectId}
  {p : Option EffectId} {e : Effect}

/-- An effect of a task is triggered only where its body asks for it. -/
theorem trigger_of_triggered (h : s.Visits c) (hi : c.world.Has i) (hc : c.step = some c')
    (hm : .triggered t y p e ∈ c'.world.past i) : .triggered t y p e ∈ c.world.past i ∨
      ∃ b nests rest, c.todo = .trigger ⟨i, t⟩ b nests e :: rest := by
  obtain ⟨todo, w⟩ := c
  cases todo with
  | nil => cases hc
  | cons x rest =>
    obtain ⟨next, -, rfl, hmeets⟩ := Config.meets_of_step h.knows hi hc
    cases hmeets with
    | own ho ha hd =>
      rw [Config.followedBy, ha.past, List.mem_append, List.mem_reverse] at hm
      refine hm.symm.imp_right fun hm => ?_
      obtain ⟨b, nests, rfl, -⟩ := hd.trigger_of_triggered hm
      exact ⟨b, nests, rest, rfl⟩
    | foreign hx ha hd =>
      rw [Config.followedBy, ha.past, List.mem_append, List.mem_reverse] at hm
      exact Or.inl (hm.resolve_left fun hm => hd.silences.2 _ hm trivial)
    | @drops u b hx hn =>
      subst hx hn
      have hpast : (w.record i (.bodyDropped u)).past i = .bodyDropped u :: w.past i :=
        World.past_record _
      have hm : .triggered t y p e ∈ (w.record i (.bodyDropped u)).past i := hm
      rw [hpast] at hm
      exact Or.inl ((List.mem_cons.1 hm).resolve_left (by simp))
    | dies hx hr hF _ hp =>
      subst hx hr
      rw [Config.followedBy, hp] at hm
      exact Or.inl hm

theorem plays {rest : List Instr} {ws : List (Awaiting Effect)} (h : s.Visits c)
    (hp : c.Plays rest ws c') : s.Visits c' := by
  induction hp with
  | start => exact h
  | goes _ _ _ step ih | calls _ _ step ih => exact ih.step step

theorem has_plays {rest : List Instr} {ws : List (Awaiting Effect)} (h : s.Visits c)
    (hi : c.world.Has i) (hp : c.Plays rest ws c') : c'.world.Has i := by
  induction hp with
  | start => exact hi
  | goes hp _ _ step ih | calls hp _ step ih => exact ((h.plays hp).knows.has_iff step i).2 ih

/-- Steps of one middleware are not nested. -/
theorem not_turn_above {x z : Instr} {pre rest : List Instr} {u : TaskId} (h : s.Visits c)
    (hi : c.world.Has i) (hc : c.todo = x :: (pre ++ z :: rest)) (hz : z.owner? = some i)
    (hzt : z.turn? = some t) (hx : x.owner? = some i) : x.turn? ≠ some u := by
  intro hxt
  have hsteps := (h.sound hi).framed.exclusive.steps
  have hlen := congrArg List.length hsteps
  rw [hc, stepsOf, framesOf_cons, if_pos hx, framesOf_append, framesOf_cons, if_pos hz,
    List.filterMap_cons_some hxt, List.filterMap_append, List.filterMap_cons_some hzt] at hlen
  have hle : (c.world.engine i).current.toList.length ≤ 1 := by
    cases (c.world.engine i).current <;> simp
  simp only [List.length_cons, List.length_append] at hlen
  omega

/-- While a body has not returned, no effect of its task is triggered. -/
theorem triggered_plays {b : Body} {a : Option Answer} {rest : List Instr}
    {ws : List (Awaiting Effect)} (h : s.Visits c) (hi : c.world.Has i)
    (hc : c.todo = .poll ⟨i, t⟩ b a :: rest) (hp : c.Plays rest ws c')
    (hm : .triggered t y p e ∈ c'.world.past i) : .triggered t y p e ∈ c.world.past i := by
  induction hp with
  | start => exact hm
  | @goes ws c₁ c₂ x hp top polling step ih =>
    refine ih ?_
    refine ((h.plays hp).trigger_of_triggered (h.has_plays hi hp) step hm).resolve_right ?_
    rintro ⟨b', nests, rest', htodo⟩
    obtain ⟨rfl, -⟩ := List.cons.inj (top.symm.trans htodo)
    exact polling
  | @calls ws c₁ c₂ x z pre hp top step ih =>
    refine ih ?_
    refine ((h.plays hp).trigger_of_triggered (h.has_plays hi hp) step hm).resolve_right ?_
    rintro ⟨b', nests, rest', htodo⟩
    obtain ⟨rfl, -⟩ := List.cons.inj (top.symm.trans htodo)
    have hz : z.owner? = some i ∧ z.turn? = some t := by
      rcases hp.ends hc with ⟨rfl, rfl⟩ | ⟨pre', z', htodo', hz'⟩
      · have hlen := congrArg List.length (hc.symm.trans top)
        simp at hlen
        omega
      · rw [top, ← List.cons_append] at htodo'
        obtain ⟨-, hzz⟩ := List.append_inj' htodo' rfl
        obtain ⟨rfl, -⟩ := List.cons.inj hzz
        cases hz' <;> exact ⟨rfl, rfl⟩
    exact (h.plays hp).not_turn_above (h.has_plays hi hp) top hz.1 hz.2 rfl rfl

end Scenario.Visits

/-! ## No effect is triggered afterwards -/

/-- Whoever has dropped its body asks for nothing any more. -/
theorem Dialogue.silent {t : TaskId} {es past : List Event} {d : Talk}
    (h : Dialogue t (es ++ .bodyDropped t :: past) d) :
    d.phase.IsClosed ∧ ∀ y e, .triggered t y none e ∉ es := by
  induction es generalizing d with
  | nil =>
    refine ⟨?_, fun _ _ => List.not_mem_nil⟩
    cases h with
    | event _ hs =>
      cases hs with
      | ends | tears => trivial
      | ignores hd => exact absurd rfl hd
  | cons ev es ih =>
    cases h with
    | event hd hs =>
      obtain ⟨hclosed, hno⟩ := ih hd
      cases hs with
      | first hp | asks hp | settles hp | answers hp =>
        rw [hp] at hclosed
        exact hclosed.elim
      | ends hp =>
        unfold Phase.IsFinal at hp
        unfold Phase.IsClosed at hclosed
        split at hclosed <;> simp_all
      | tears _ hp => exact absurd hclosed hp
      | ignores hev =>
        refine ⟨hclosed, fun y e hm => ?_⟩
        rcases List.mem_cons.1 hm with rfl | hm
        · exact hev rfl rfl
        · exact hno y e hm

/-- The ends of a step at which the body is dropped. -/
theorem World.execLeave_drops (w : World) (turn : Turn) (b : Body) {exit : Exit}
    (h : exit = .halted ∨ ∃ r, exit = .finished r) : ∃ z,
      w.execLeave turn b exit =
        ⟨[.dropBody turn b, z], w.setEngine turn.mw fun e => { e with current := none }⟩ := by
  rcases h with rfl | ⟨_ | _, rfl⟩ <;> exact ⟨_, rfl⟩

namespace Scenario.Visits

variable {s : Scenario} {c c' : Config} {i : MiddlewareId} {t : TaskId} {y : EffectId}
  {e : Effect} {b : Body} {rest : List Instr}

theorem silent_of_dropBody {x : Instr} (h : s.Visits c) (hi : c.world.Has i)
    (hc : c.todo = .dropBody ⟨i, t⟩ b :: x :: rest) (hp : c.Precedes c')
    (hm : .triggered t y none e ∈ c'.world.past i) : .triggered t y none e ∈ c.world.past i := by
  obtain ⟨todo, w⟩ := c
  subst hc
  rcases hp.head nofun with rfl | ⟨c₁, hc₁, hp⟩
  · exact hm
  cases hc₁
  have hv₁ : s.Visits ((w.execDropBody ⟨i, t⟩ b).followedBy (x :: rest)) := h.step rfl
  have hi₁ : ((w.execDropBody ⟨i, t⟩ b).followedBy (x :: rest)).world.Has i :=
    (h.knows.has_iff rfl i).2 hi
  have hpast : ((w.execDropBody ⟨i, t⟩ b).followedBy (x :: rest)).world.past i =
      .bodyDropped t :: w.past i := World.past_record _
  obtain ⟨es, hes⟩ := hv₁.past_precedes hi₁ hp
  rw [hpast] at hes
  have hi' : c'.world.Has i := (hv₁.has_precedes hp).2 hi₁
  obtain ⟨d, hd⟩ := (hv₁.precedes hp).conversation hi' t
  have hdialogue : Dialogue t (c'.world.past i) d := hd.dialogue
  rw [hes] at hdialogue hm
  rcases List.mem_append.1 hm with hm | hm
  · exact absurd hm (hdialogue.silent.2 y e)
  · exact (List.mem_cons.1 hm).resolve_left (by simp)

/-- A body that has returned asks for nothing any more. -/
theorem silent_of_complete {r : Answer} (h : s.Visits c) (hi : c.world.Has i)
    (hc : c.todo = .polled ⟨i, t⟩ b (.complete r) :: rest) (hp : c.Precedes c')
    (hm : .triggered t y none e ∈ c'.world.past i) : .triggered t y none e ∈ c.world.past i := by
  obtain ⟨todo, w⟩ := c
  subst hc
  obtain ⟨exit, hexit, hexec⟩ : ∃ exit, (exit = .halted ∨ ∃ r, exit = .finished r) ∧
      w.execPolled ⟨i, t⟩ b (.complete r) = ⟨[.leave ⟨i, t⟩ b exit], w⟩ := by
    unfold World.execPolled
    split
    · exact ⟨_, Or.inl rfl, rfl⟩
    · exact ⟨_, Or.inr ⟨r, rfl⟩, rfl⟩
  have hstep : Config.step ⟨.polled ⟨i, t⟩ b (.complete r) :: rest, w⟩ =
      some ⟨.leave ⟨i, t⟩ b exit :: rest, w⟩ :=
    congrArg (fun n : Config => some (n.followedBy rest)) hexec
  obtain ⟨z, hleave⟩ := w.execLeave_drops ⟨i, t⟩ b hexit
  set w₁ := w.setEngine i fun e => { e with current := none } with hw₁
  have hstep' : Config.step ⟨.leave ⟨i, t⟩ b exit :: rest, w⟩ =
      some ⟨.dropBody ⟨i, t⟩ b :: z :: rest, w₁⟩ :=
    congrArg (fun n : Config => some (n.followedBy rest)) hleave
  have hpast : w₁.past i = w.past i := rfl
  rcases hp.head nofun with rfl | ⟨c₁, hc₁, hp⟩
  · exact hm
  cases hstep.symm.trans hc₁
  have hv₁ := h.step hstep
  have hi₁ := (h.knows.has_iff hstep i).2 hi
  rcases hp.head nofun with rfl | ⟨c₂, hc₂, hp⟩
  · exact hm
  cases hstep'.symm.trans hc₂
  exact (hv₁.step hstep').silent_of_dropBody ((hv₁.knows.has_iff hstep' i).2 hi₁) rfl hp hm

end Scenario.Visits

/-! ## The task fails -/

/-- On the way from a configuration to a later one what is below stays where it is. -/
inductive Config.Above (rest : List Instr) (c : Config) : Config → Prop
  | start : Above rest c c
  | step {c₁ c₂ : Config} {x : Instr} {pre : List Instr} (h : Above rest c c₁)
      (top : c₁.todo = x :: (pre ++ rest)) (step : c₁.step = some c₂) : Above rest c c₂

/-- As long as there is more than what is below, this stays where it is. -/
theorem Config.Above.run {rest : List Instr} {c c' : Config} (h : c.Above rest c')
    (hc : ∃ pre, c'.todo = pre ++ rest) {n : Nat}
    (hn : ∀ m < n, rest.length < (c'.run m).todo.length) :
    c.Above rest (c'.run n) ∧ ∃ pre, (c'.run n).todo = pre ++ rest := by
  induction n generalizing c' with
  | zero => exact ⟨h, hc⟩
  | succ n ih =>
    unfold Config.run
    split
    · exact ⟨h, hc⟩
    · rename_i d hd
      obtain ⟨pre, hpre⟩ := hc
      cases pre with
      | nil =>
        have hlt : rest.length < c'.todo.length := hn 0 (Nat.succ_pos n)
        rw [hpre] at hlt
        exact absurd hlt (Nat.lt_irrefl _)
      | cons x pre =>
        have hnext : ∃ pre, d.todo = pre ++ rest := by
          obtain ⟨todo, w⟩ := c'
          subst hpre
          obtain ⟨next, -, rfl⟩ := Option.map_eq_some_iff.1 hd
          exact ⟨next.todo ++ pre, (List.append_assoc ..).symm⟩
        refine ih (h.step hpre hd) hnext fun m hm => ?_
        have hrun : c'.run (m + 1) = d.run m := by
          rw [Config.run]
          simp only [hd]
        rw [← hrun]
        exact hn (m + 1) (Nat.succ_lt_succ hm)

section

variable {i : MiddlewareId} {past es : List Event} {x : Instr} {k k' : Core} {G F : List Instr}
  {D : List TaskId} {t : TaskId} {f : Fault} {wasCurrent : Bool}

/-- The failure of a task is taken up only if the task is live. -/
theorem Does.live_of_abortDone (h : Does i past x k k' G D es)
    (hG : .abortDone ⟨i, t⟩ f wasCurrent ∈ G) : k.Live t := by
  have none (hno : ∀ y ∈ G, y ≠ .abortDone ⟨i, t⟩ f wasCurrent) : k.Live t :=
    absurd rfl (hno _ hG)
  cases h with
  | abort hp hl =>
    rcases List.mem_append.1 hG with hG | hG
    · obtain ⟨u, -, hu⟩ := List.mem_map.1 hG
      cases hu
    · cases List.mem_singleton.1 hG
      exact ⟨_, hp, hl⟩
  | start h | resume h | wake _ _ h =>
    refine none ?_
    cases h <;> simp
  | @poll _ _ _ _ g hg | @advance _ _ _ _ g hg =>
    refine none ?_
    cases g with
    | advance | polled => simp
    | _ => exact hg.elim
  | errand hjob =>
    refine none ?_
    rcases hjob with rfl | ⟨g, rfl, hg⟩
    · simp
    · cases g with
      | emit | forwarded | schedule => simp
      | _ => exact hg.elim
  | _ => exact none (by simp)

theorem Intervenes.not_abortDone (h : Intervenes i past k k' G es) :
    .abortDone ⟨i, t⟩ f wasCurrent ∉ G := by
  cases h with
  | spawns h | settles _ h | cancels h => cases h <;> simp
  | _ => simp

/-- Whoever stands as failed is recorded only where its failure is. -/
theorem Records.abortDone_of_stands {p : Posture} {outcome : Outcome}
    (h : Records i k t x outcome G) (hj : Judged k (x :: F)) (hp : k.posture t = some p)
    (hs : p.status = .aborted) : ∃ f, x = .abortDone ⟨i, t⟩ f false := by
  have hx := hj.frames x List.mem_cons_self
  cases h with
  | abort f => exact ⟨f, rfl⟩
  | conclude =>
    have hc : p.status = .cancelled := hx.2 p hp
    rw [hs] at hc
    cases hc
  | complete hp' hl =>
    rw [hp] at hp'
    cases hp'
    rw [hs] at hl
    cases hl
  | cancel =>
    have hc : p.status = .cancelled := hx.1.2 p hp
    rw [hs] at hc
    cases hc

end

/-- A task is failing: it stands as failed, and one instruction is to record this. -/
structure Config.Fails (c : Config) (i : MiddlewareId) (t : TaskId) (f : Fault) (rest : List Instr) :
    Prop where
  here : ∃ p, (c.world.core i).posture t = some p ∧ p.status = .aborted
  due : ∃ pre, c.todo = pre ++ .abortDone ⟨i, t⟩ f false :: rest ∧
    ∀ f' b, .abortDone ⟨i, t⟩ f' b ∉ pre

/-- A live task whose failure is taken up outside of its own step is failing. -/
theorem World.fails_of_abort {w : World} {i : MiddlewareId} {t : TaskId} {f : Fault}
    {rest : List Instr} (hi : w.Has i) (hl : (w.core i).Live t) (hcur : (w.engine i).current = none) :
    ((w.execAbort ⟨i, t⟩ f).followedBy rest).Fails i t f rest := by
  obtain ⟨p, hp, hterm⟩ := hl
  rw [World.posture_core] at hp
  obtain ⟨n, hn, rfl⟩ := Option.map_eq_some_iff.1 hp
  have hterm : n.status.isTerminal = false := hterm
  have hadv := ((World.Advances.start hi).setTask (t := t)
    (f := fun n => { n with status := .aborted, pending := none, body := none })
    (fun a => { a with status := .aborted, pending := none, hasBody := false })
    fun _ => rfl).cancelPending n.pending
  have hexec : w.execAbort ⟨i, t⟩ f = ⟨n.children.map (.cancel i) ++ World.dropping ⟨i, t⟩ n.body ++
      [.abortDone ⟨i, t⟩ f false], (w.setTask i t fun n =>
        { n with status := .aborted, pending := none, body := none }).cancelPending i n.pending⟩ := by
    simp only [World.execAbort, hn, hterm, hcur, Bool.false_eq_true, if_false, reduceCtorEq,
      decide_false]
  rw [hexec]
  generalize (w.setTask i t fun n =>
    { n with status := .aborted, pending := none, body := none }).cancelPending i n.pending = w' at hadv
  refine ⟨⟨{ n.posture with status := .aborted, pending := none, hasBody := false }, ?_, rfl⟩,
    n.children.map (.cancel i) ++ World.dropping ⟨i, t⟩ n.body, ?_, fun f' b hm => ?_⟩
  · show (w'.core i).posture t = _
    rw [hadv.core]
    show ((w.core i).alter t _).posture t = _
    rw [Core.posture_alter, if_pos rfl, World.posture_core, hn]
    rfl
  · simp [Config.followedBy]
  · rcases List.mem_append.1 hm with hm | hm
    · obtain ⟨u, -, hu⟩ := List.mem_map.1 hm
      cases hu
    · cases hbody : n.body <;> simp [World.dropping, hbody] at hm

/-- A live task whose body has returned leaves with what it has returned. -/
theorem World.leaves_of_complete {w : World} {i : MiddlewareId} {t : TaskId} {b : Body}
    {r : Answer} {rest : List Instr} (hl : (w.core i).Live t) :
    Config.step ⟨.polled ⟨i, t⟩ b (.complete r) :: rest, w⟩ =
      some ⟨.leave ⟨i, t⟩ b (.finished r) :: rest, w⟩ := by
  have hhalted : w.isHalted i t = false := by
    simpa using fun hh => World.isHalted_iff.1 hh hl
  have hexec : w.execPolled ⟨i, t⟩ b (.complete r) = ⟨[.leave ⟨i, t⟩ b (.finished r)], w⟩ := by
    simp [World.execPolled, hhalted]
  exact congrArg (fun n : Config => some (n.followedBy rest)) hexec

namespace Scenario.Visits

variable {s : Scenario} {c c' : Config} {i : MiddlewareId} {t : TaskId} {f : Fault} {b : Body}
  {rest pre : List Instr}

/-- The failure of a task is taken up only if the task is live. -/
theorem live_of_abortDone {x : Instr} {w : World} {next : Config} {f' : Fault} {wasCurrent : Bool}
    (h : s.Visits ⟨x :: rest, w⟩) (hi : w.Has i) (hn : x.exec w = some next)
    (hm : .abortDone ⟨i, t⟩ f' wasCurrent ∈ next.todo) : (w.core i).Live t := by
  have hframe : .abortDone ⟨i, t⟩ f' wasCurrent ∈ framesOf i next.todo :=
    List.mem_filter.2 ⟨hm, by simp [Instr.owner?]⟩
  have hstep : Config.step ⟨x :: rest, w⟩ = some (next.followedBy rest) :=
    Option.map_eq_some_iff.2 ⟨next, hn, rfl⟩
  obtain ⟨next', hn', -, hmeets⟩ := Config.meets_of_step h.knows hi hstep
  cases hn.symm.trans hn'
  cases hmeets with
  | own _ _ hd => exact hd.live_of_abortDone hframe
  | foreign _ _ hin => exact absurd hframe hin.not_abortDone
  | drops hx hres =>
    subst hx hres
    cases hframe
  | dies _ _ hF =>
    rw [hF] at hframe
    cases hframe

/-- A task that stands as failed is in the table until its failure is recorded. -/
theorem posture_kept {x : Instr} {w : World} {p : Posture} (h : s.Visits ⟨x :: rest, w⟩)
    (hi : w.Has i) (hne : rest ≠ []) (hp : (w.core i).posture t = some p) (hs : p.status = .aborted)
    (hx : ∀ f b, x ≠ .abortDone ⟨i, t⟩ f b) (hc : Config.step ⟨x :: rest, w⟩ = some c') :
    ∃ p', (c'.world.core i).posture t = some p' := by
  have ho := (h.sound hi).orderly
  obtain ⟨next, -, rfl, hmeets⟩ := Config.meets_of_step h.knows hi hc
  have hj := h.judged hi
  show ∃ p', (next.world.core i).posture t = some p'
  cases hmeets with
  | own hown ha hd =>
    have hframes : framesOf i (x :: rest) = x :: framesOf i rest := by
      rw [framesOf_cons, if_pos hown]
    have ho : Orderly i (w.core i) (x :: framesOf i rest) := hframes ▸ ho
    rw [hframes] at hj
    rw [ha.core]
    have hturn : Turnover i ⟨true, w.core i, x :: framesOf i rest, [], w.past i⟩ ⟨true, _, _, _, _⟩ :=
      hd.turnover ho
    cases hturn with
    | evolves _ _ _ core =>
      obtain ⟨p', hp', -⟩ := core.kept hp
      exact ⟨p', hp'⟩
    | @records y F G u q outcome es _ frames _ head _ _ _ posture =>
      obtain ⟨rfl, rfl⟩ := List.cons.inj frames
      have hne : t ≠ u := by
        rintro rfl
        obtain ⟨f, rfl⟩ := head.abortDone_of_stands hj hp hs
        exact hx f false rfl
      obtain ⟨p', hp', -⟩ := Core.posture_bury_of_ne hne hp
      exact ⟨p', (congrFun posture t).trans hp'⟩
    | dies halive => cases halive
  | foreign hown ha hin =>
    rw [ha.core]
    obtain ⟨p', hp', -⟩ := (hin.evolves ho fun _ _ => False).kept hp
    exact ⟨p', hp'⟩
  | drops hxd hres =>
    subst hxd hres
    exact ⟨p, hp⟩
  | dies _ hlast => exact absurd hlast hne

/-- A task that is failing goes on failing, until this is recorded. -/
theorem fails_step (h : s.Visits c) (hf : c.Fails i t f rest) (hc : c.step = some c') :
    c'.Fails i t f rest ∨ .taskFinished t (.aborted f) ∈ c'.world.past i := by
  obtain ⟨⟨p, hp, hs⟩, pre, htodo, hno⟩ := hf
  obtain ⟨todo, w⟩ := c
  subst htodo
  have hi : w.Has i := by
    by_contra hi
    have hnil : framesOf i (pre ++ .abortDone ⟨i, t⟩ f false :: rest) = [] := h.framesOf_nil hi
    simp [framesOf_append, Instr.owner?] at hnil
  cases pre with
  | nil =>
    right
    obtain ⟨next, hn, rfl, hmeets⟩ := Config.meets_of_step h.knows hi hc
    cases hmeets with
    | own _ ha hd =>
      rw [Config.followedBy, ha.past]
      generalize framesOf i next.todo = G at hd
      generalize dropsOf i next.todo = D at hd
      cases hd with
      | abortDone hb =>
        cases hb with
        | absent hnone =>
          rw [hnone] at hp
          cases hp
        | gone => simp
    | foreign hown => exact absurd rfl hown
    | drops hx => cases hx
    | dies hx => cases hx
  | cons x pre =>
    left
    have hne : pre ++ .abortDone ⟨i, t⟩ f false :: rest ≠ [] := by simp
    have hx : ∀ f' b, x ≠ .abortDone ⟨i, t⟩ f' b := fun f' b hx =>
      hno f' b (hx ▸ List.mem_cons_self)
    obtain ⟨p', hp'⟩ := h.posture_kept hi hne hp hs hx hc
    obtain ⟨next, hn, rfl⟩ := Option.map_eq_some_iff.1 hc
    have htodo : (next.followedBy (pre ++ .abortDone ⟨i, t⟩ f false :: rest)).todo =
        (next.todo ++ pre) ++ .abortDone ⟨i, t⟩ f false :: rest := (List.append_assoc ..).symm
    have hv' := h.step hc
    have hi' := (h.knows.has_iff hc i).2 hi
    have hstands : (next.world.core i).Stands t .aborted := by
      refine (hv'.judged hi').frames (.abortDone ⟨i, t⟩ f false) (List.mem_filter.2 ⟨?_, ?_⟩)
      · show _ ∈ next.todo ++ (pre ++ .abortDone ⟨i, t⟩ f false :: rest)
        simp
      · simp [Instr.owner?]
    refine ⟨⟨p', hp', hstands.2 p' hp'⟩, next.todo ++ pre, htodo, fun f' b hm => ?_⟩
    rcases List.mem_append.1 hm with hm | hm
    · obtain ⟨q, hq, hl⟩ := h.live_of_abortDone hi hn hm
      rw [hp] at hq
      cases hq
      rw [hs] at hl
      cases hl
    · exact hno f' b (List.mem_cons_of_mem _ hm)

theorem above (h : s.Visits c) (hp : c.Above rest c') : s.Visits c' := by
  induction hp with
  | start => exact h
  | step _ _ step ih => exact ih.step step

theorem has_above (h : s.Visits c) (hi : c.world.Has i) (hp : c.Above rest c') :
    c'.world.Has i := by
  induction hp with
  | start => exact hi
  | step hp _ step ih => exact ((h.above hp).knows.has_iff step i).2 ih

/-- How far a body has come that failed in a step. -/
inductive Falling (c : Config) (i : MiddlewareId) (t : TaskId) (f : Fault) (rest : List Instr)
    (c' : Config) : Prop
  | returned (h : c' = c)
  | leaves {b : Body} (h : c'.todo = .leave ⟨i, t⟩ b (.finished (.error f)) :: rest)
  | aborts (pre : List Instr) (h : c'.todo = pre ++ .abort ⟨i, t⟩ f :: rest)
  | fails {d : Config} (reached : c.Above rest d) (h : d.todo = .abort ⟨i, t⟩ f :: rest)
      (outcome : (d.world.core i).Live t →
        c'.Fails i t f rest ∨ .taskFinished t (.aborted f) ∈ c'.world.past i)

/-- Below the step of a task there is no other one. -/
theorem stepsOf_below {x : Instr} (h : s.Visits c) (hi : c.world.Has i) (hc : c.todo = x :: rest)
    (hx : x.owner? = some i) (hxt : x.turn? = some t) : stepsOf i rest = [] := by
  have hlen := congrArg List.length (h.sound hi).framed.exclusive.steps
  have hle : (c.world.engine i).current.toList.length ≤ 1 := by
    cases (c.world.engine i).current <;> simp
  rw [hc, stepsOf, framesOf_cons, if_pos hx, List.filterMap_cons_some hxt, List.length_cons] at hlen
  exact List.eq_nil_of_length_eq_zero (by rw [stepsOf]; omega)

/-- A live task whose body has failed has its failure taken up before anything below is. -/
theorem falling (h : s.Visits c) (hi : c.world.Has i) (hl : (c.world.core i).Live t)
    (hc : c.todo = .polled ⟨i, t⟩ b (.complete (.error f)) :: rest) (hp : c.Above rest c') :
    Falling c i t f rest c' := by
  have hnil : stepsOf i rest = [] := h.stepsOf_below hi hc rfl rfl
  induction hp with
  | start => exact .returned rfl
  | @step c₁ c₂ x pre hp top step ih =>
    have hv₁ := h.above hp
    have hi₁ := h.has_above hi hp
    obtain ⟨todo, w⟩ := c₁
    obtain rfl : todo = x :: (pre ++ rest) := top
    have hcons : ∀ {y : Instr}, x :: (pre ++ rest) = y :: rest → pre = [] ∧ x = y := by
      intro y hy
      have hlen := congrArg List.length hy
      obtain ⟨rfl, -⟩ := List.cons.inj hy
      exact ⟨List.eq_nil_of_length_eq_zero (by simpa using hlen), rfl⟩
    cases ih with
    | returned hret =>
      subst hret
      obtain ⟨rfl, rfl⟩ := hcons hc
      cases (World.leaves_of_complete hl).symm.trans step
      exact .leaves rfl
    | leaves htodo =>
      obtain ⟨rfl, rfl⟩ := hcons htodo
      cases step
      exact .aborts [_] rfl
    | aborts pre' htodo =>
      cases pre' with
      | nil =>
        obtain ⟨rfl, rfl⟩ := hcons htodo
        have hcur : (w.engine i).current = none := by
          have hsteps := (hv₁.sound hi₁).framed.exclusive.steps
          have hskip : stepsOf i (.abort ⟨i, t⟩ f :: ([] ++ rest)) = stepsOf i rest := by
            simp only [stepsOf, List.nil_append, framesOf_cons, Instr.owner?, if_true]
            exact List.filterMap_cons_none rfl
          rw [hskip, hnil] at hsteps
          cases hcurrent : (w.engine i).current with
          | none => rfl
          | some u =>
            rw [show (World.engine _ i).current = some u from hcurrent] at hsteps
            cases hsteps
        cases step
        exact .fails hp rfl fun hl => Or.inl (World.fails_of_abort hi₁ hl hcur)
      | cons z pre' =>
        obtain ⟨next, -, rfl⟩ := Option.map_eq_some_iff.1 step
        obtain ⟨-, htail⟩ := List.cons.inj htodo
        refine .aborts (next.todo ++ pre') ?_
        exact (congrArg (next.todo ++ ·) htail).trans (List.append_assoc ..).symm
    | fails reached hd outcome =>
      refine .fails reached hd fun hl => ?_
      rcases outcome hl with hf | hm
      · exact hv₁.fails_step hf step
      · obtain ⟨es, hes⟩ := (hv₁.turnover hi₁ step).past
        have hes : c₂.world.past i = es ++ w.past i := hes
        exact Or.inr (hes ▸ List.mem_append_right _ hm)

end Scenario.Visits

/-! ## What a step comes to -/

/-- An effect of a live task is recorded when it is triggered. -/
theorem Does.triggers {i : MiddlewareId} {past es : List Event} {k k' : Core} {G : List Instr}
    {D : List TaskId} {t : TaskId} {b : Body} {nests : List Nest} {e : Effect}
    (h : Does i past (.trigger ⟨i, t⟩ b nests e) k k' G D es) (hl : k.Live t) :
    ∃ es', es = .triggered t k.nextEffect (Nest.link nests).parent? e :: es' := by
  cases h with
  | triggerHalted hno => exact absurd hl hno
  | _ => exact ⟨_, rfl⟩

/-- The one effect that a live task has left is triggered next. -/
theorem Scenario.Visits.triggers {s : Scenario} {i : MiddlewareId} {t : TaskId} {b : Body}
    {e : Effect} {rest : List Instr} {w : World}
    (h : s.Visits ⟨.polled ⟨i, t⟩ b (.yielded e) :: rest, w⟩) (hi : w.Has i)
    (hl : (w.core i).Live t) : ∃ d d' es,
      Config.step ⟨.polled ⟨i, t⟩ b (.yielded e) :: rest, w⟩ = some d ∧ d.step = some d' ∧
      d'.world.past i = es ++ .triggered t (w.engine i).nextEffect none e :: w.past i := by
  have hhalted : w.isHalted i t = false := by
    simpa using fun hh => World.isHalted_iff.1 hh hl
  have hexec : w.execPolled ⟨i, t⟩ b (.yielded e) = ⟨[.trigger ⟨i, t⟩ b [] e], w⟩ := by
    simp [World.execPolled, hhalted]
  have hstep : Config.step ⟨.polled ⟨i, t⟩ b (.yielded e) :: rest, w⟩ =
      some ⟨.trigger ⟨i, t⟩ b [] e :: rest, w⟩ :=
    congrArg (fun n : Config => some (n.followedBy rest)) hexec
  have htrigger : Config.step ⟨.trigger ⟨i, t⟩ b [] e :: rest, w⟩ =
      some ((w.execTrigger ⟨i, t⟩ b [] e).followedBy rest) := rfl
  obtain ⟨next, hn, -, hmeets⟩ := Config.meets_of_step (h.step hstep).knows hi htrigger
  cases hn
  have hpast : ∃ es, (w.execTrigger ⟨i, t⟩ b [] e).world.past i =
      es ++ .triggered t (w.engine i).nextEffect none e :: w.past i := by
    cases hmeets with
    | own _ ha hd =>
      obtain ⟨es, rfl⟩ := hd.triggers hl
      refine ⟨es.reverse, ?_⟩
      rw [ha.past, List.reverse_cons, List.append_assoc]
      rfl
    | foreign hown => exact absurd rfl hown
    | drops hx => cases hx
    | dies hx => cases hx
  obtain ⟨es, hpast⟩ := hpast
  exact ⟨_, _, es, hstep, htrigger, hpast⟩

/--
Whatever a body polls within a step, and however often it is resumed, a step in which it returns
completes with its result; a step in which it comes to rest yields the one effect that a new perform
has left, or fails if several were left, or none; and no step sees anything of those before it.

In a scenario, nothing is triggered for a task from the poll of its body until this returns. If the
task is live then, the one effect is triggered next. If the step completes, no effect of the body is
triggered any more; and a step that fails leads to the failure of the task, whose outcome is recorded
unless the task is not live any more when its body was dropped.
-/
theorem Scenario.Visits.one_effect :
    (∀ (ε : Type) (ps : List (Play ε × Option Answer)), Play.resumeAll {} ps =
      (ps.map fun q =>
        (q.1.run (.opened q.2)).returned.elim (.ofParked (q.1.effects q.2)) .complete, {})) ∧
    ∀ {s : Scenario} {c c' : Config} {i : MiddlewareId} {t : TaskId} {b b' : Body}
      {a : Option Answer} {step : Step Effect} {rest : List Instr} {ws : List (Awaiting Effect)},
      s.Visits c → c.todo = .poll ⟨i, t⟩ b a :: rest → c.Plays rest ws c' →
      c'.todo = .polled ⟨i, t⟩ b' step :: rest →
      ((b'.Over ∧ ∃ r, step = .complete r) ∨ (b'.Rests ∧ step = .ofParked (parked ws))) ∧
      (∀ {y p e}, .triggered t y p e ∈ c'.world.past i → .triggered t y p e ∈ c.world.past i) ∧
      (∀ {r d y e}, step = .complete r → c'.Precedes d →
        .triggered t y none e ∈ d.world.past i → .triggered t y none e ∈ c.world.past i) ∧
      ((c'.world.core i).Live t →
        (∀ {e}, step = .yielded e → ∃ d d' es, c'.step = some d ∧ d.step = some d' ∧
          d'.world.past i =
            es ++ .triggered t (c'.world.engine i).nextEffect none e :: c'.world.past i) ∧
        (∀ {r}, step = .complete r →
          c'.step = some ⟨.leave ⟨i, t⟩ b' (.finished r) :: rest, c'.world⟩) ∧
        ∀ {f d}, step = .complete (.error f) → c'.Above rest d → d.todo = rest →
          ∃ d₁, c'.Above rest d₁ ∧ d₁.todo = .abort ⟨i, t⟩ f :: rest ∧
            ((d₁.world.core i).Live t → .taskFinished t (.aborted f) ∈ d.world.past i)) := by
  refine ⟨fun ε ps => Play.resumeAll_eq ps, fun {s c c' i t b b' a step rest ws} h hc hp hc' => ?_⟩
  have hi : c.world.Has i := by
    obtain ⟨todo, w⟩ := c
    subst hc
    exact (h.alive_of_owner rfl).has
  have hv' := h.plays hp
  have hi' := h.has_plays hi hp
  have hplaying : Playing ⟨i, t⟩ a ws (.polled ⟨i, t⟩ b' step) := by
    rcases hp.ends hc with ⟨rfl, rfl⟩ | ⟨pre, y, htodo, hy⟩
    · cases hc.symm.trans hc'
    · obtain ⟨rfl, rfl⟩ : pre = [] ∧ y = .polled ⟨i, t⟩ b' step := by
        have heq := hc'.symm.trans htodo
        have hlen := congrArg List.length heq
        obtain rfl : pre = [] := List.eq_nil_of_length_eq_zero (by simpa using hlen)
        exact ⟨rfl, (List.cons.inj heq).1.symm⟩
      exact hy
  have hnone {y p e} (hm : .triggered t y p e ∈ c'.world.past i) :
      .triggered t y p e ∈ c.world.past i := h.triggered_plays hi hc hp hm
  refine ⟨?_, hnone, ?_, fun hl => ⟨?_, ?_, ?_⟩⟩
  · cases hplaying with
    | returns ho => exact Or.inl ⟨ho, _, rfl⟩
    | rests hrests => exact Or.inr ⟨hrests, rfl⟩
  · rintro r d y e rfl hd hm
    exact hnone (hv'.silent_of_complete hi' hc' hd hm)
  · rintro e rfl
    obtain ⟨todo, w⟩ := c'
    subst hc'
    exact hv'.triggers hi' hl
  · rintro r rfl
    obtain ⟨todo, w⟩ := c'
    subst hc'
    exact World.leaves_of_complete hl
  · rintro f d rfl hd hrest
    cases hv'.falling hi' hl hc' hd with
    | returned hret =>
      rw [hret, hc'] at hrest
      exact absurd hrest (List.cons_ne_self _ _)
    | leaves hleave => exact absurd (hleave.symm.trans hrest) (List.cons_ne_self _ _)
    | aborts pre habort =>
      have hlen := congrArg List.length (habort.symm.trans hrest)
      simp at hlen
      omega
    | fails reached htop outcome =>
      refine ⟨_, reached, htop, fun hl' => (outcome hl').resolve_left fun hf => ?_⟩
      obtain ⟨pre, hpre, -⟩ := hf.due
      have hlen := congrArg List.length (hpre.symm.trans hrest)
      simp at hlen
      omega

/-- A body that asks for two effects at once. -/
def Scenario.greedy : Scenario where
  middlewares := [{}]
  scripts := [("greedy",
    [.joined [.dispatch { kind := "left" }, .dispatch { kind := "right" }], .return .unit])]

/-- A body has not returned from a poll, and only the driver and its caller are below. -/
def Config.inPoll? (c : Config) : Bool :=
  match c.todo with
  | [.poll .., _, _] | [.advance .., _, _] => true
  | _ => false

/-- From one point in the poll of a body to the next. -/
theorem Config.Plays.next {c c' : Config} {x y z : Instr} {ws : List (Awaiting Effect)}
    (h : c.Plays [y, z] ws c') (hc : c'.todo = [x, y, z]) (hp : c'.inPoll? = true)
    (hn : (c'.run 1).todo.length = 3) :
    ∃ ws' x', c.Plays [y, z] ws' (c'.run 1) ∧ (c'.run 1).todo = [x', y, z] := by
  have hpolling : x.IsPolling := by
    unfold Config.inPoll? at hp
    rw [hc] at hp
    cases x <;> trivial
  cases hd : c'.step with
  | none =>
    have hrun : c'.run 1 = c' := by simp [Config.run, hd]
    rw [hrun]
    exact ⟨ws, x, h, hc⟩
  | some d =>
    have hrun : c'.run 1 = d := by simp [Config.run, hd]
    rw [hrun] at hn ⊢
    obtain ⟨x', hx'⟩ : ∃ x', d.todo = [x', y, z] := by
      obtain ⟨todo, w⟩ := c'
      subst hc
      obtain ⟨next, -, rfl⟩ := Option.map_eq_some_iff.1 hd
      have hlen : (next.todo ++ [y, z]).length = 3 := hn
      obtain ⟨x', hx'⟩ := List.length_eq_one_iff.1 (by simpa using hlen : next.todo.length = 1)
      exact ⟨x', congrArg (· ++ [y, z]) hx'⟩
    exact ⟨_, x', h.goes hc hpolling hd, hx'⟩

/-- The first task is about to be polled. -/
def Config.starts? (c : Config) : Bool :=
  match c.todo with
  | [.poll ⟨0, 1⟩ _ _, _, _] => true
  | _ => false

/-- The two effects are refused when the body has been polled. -/
def Config.refuses? (c : Config) : Bool :=
  match c.todo with
  | [.polled ⟨0, 1⟩ (.script s) (.complete (.error f)), _, _] =>
    s.pause.isSome && decide (f = Mailbox.crowdedFault)
  | _ => false

theorem Scenario.one_effect_greedy : ∃ c c' d d₁ b a b' rest ws, greedy.Visits c ∧
    c.todo = .poll ⟨0, 1⟩ b a :: rest ∧ c.Plays rest ws c' ∧
    c'.todo = .polled ⟨0, 1⟩ b' (.complete (.error Mailbox.crowdedFault)) :: rest ∧
    c'.Above rest d ∧ d.todo = rest ∧
    .complete (.error Mailbox.crowdedFault) = Step.ofParked (parked ws) ∧
    c'.Above rest d₁ ∧ d₁.todo = .abort ⟨0, 1⟩ Mailbox.crowdedFault :: rest ∧
    ((d₁.world.core 0).Live 1 → .taskFinished 1 (.aborted Mailbox.crowdedFault) ∈ d.world.past 0) := by
  have h : ((greedy.during? (.run 0 { source := .named "greedy" } none) 3).any fun c =>
      c.inPoll? && c.starts? && (c.run 1).inPoll? &&
        decide ((c.run 1).todo.length = 3) && ((c.run 1).run 1).refuses? &&
        (((((c.run 1).run 1).world.core 0).posture 1).any fun p => !p.status.isTerminal) &&
        ((List.range 6).all fun m => decide (2 < (((c.run 1).run 1).run m).todo.length)) &&
        decide ((((c.run 1).run 1).run 6).todo.length = 2)) = true := by
    decide +kernel
  obtain ⟨c, hc, h⟩ := (Option.any_eq_true ..).1 h
  simp only [Bool.and_eq_true, decide_eq_true_eq, List.all_eq_true, List.mem_range] at h
  obtain ⟨⟨⟨⟨⟨⟨⟨hpoll, hstarts⟩, hpoll₁⟩, hlen₁⟩, hrefuses⟩, hlive⟩, hbelow⟩, hend⟩ := h
  have hv : greedy.Visits c := Visits.of_during? hc
  obtain ⟨p, hp, hterm⟩ := (Option.any_eq_true ..).1 hlive
  obtain ⟨b, a, y, z, htodo⟩ : ∃ b a y z, c.todo = [.poll ⟨0, 1⟩ b a, y, z] := by
    unfold Config.starts? at hstarts
    split at hstarts
    · rename_i htodo
      exact ⟨_, _, _, _, htodo⟩
    · cases hstarts
  obtain ⟨ws₁, x₁, hplays₁, htodo₁⟩ := Config.Plays.start.next htodo hpoll hlen₁
  have hlen₂ : ((c.run 1).run 1).todo.length = 3 := by
    unfold Config.refuses? at hrefuses
    split at hrefuses
    · rename_i htodo₂
      rw [htodo₂]
      rfl
    · cases hrefuses
  obtain ⟨ws, x₂, hplays, htodo₂⟩ := hplays₁.next htodo₁ hpoll₁ hlen₂
  generalize (c.run 1).run 1 = c' at *
  obtain ⟨b', hrests, rfl⟩ : ∃ b' : Body, ¬ b'.Over ∧
      x₂ = .polled ⟨0, 1⟩ b' (.complete (.error Mailbox.crowdedFault)) := by
    unfold Config.refuses? at hrefuses
    rw [htodo₂] at hrefuses
    split at hrefuses
    · rename_i heq
      obtain ⟨rfl, -⟩ := List.cons.inj heq
      obtain ⟨hpause, hf⟩ := Bool.and_eq_true_iff.1 hrefuses
      refine ⟨_, fun hover => ?_, by rw [of_decide_eq_true hf]⟩
      rw [show ScriptBody.pause _ = none from hover] at hpause
      cases hpause
    · cases hrefuses
  obtain ⟨habove, pre, hpre⟩ := Config.Above.start.run ⟨[_], htodo₂⟩ hbelow
  have hrest : (c'.run 6).todo = [y, z] := by
    have hlen := congrArg List.length hpre
    rw [hend] at hlen
    rw [hpre, List.eq_nil_of_length_eq_zero (by simpa using hlen : pre.length = 0), List.nil_append]
  obtain ⟨hverdict, -, -, hfails⟩ := Visits.one_effect.2 hv htodo hplays htodo₂
  obtain ⟨d₁, hd₁, htop, houtcome⟩ :=
    (hfails ⟨p, hp, by simpa using hterm⟩).2.2 rfl habove hrest
  exact ⟨c, c', c'.run 6, d₁, b, a, b', [y, z], ws, hv, htodo, hplays, htodo₂, habove, hrest,
    (hverdict.resolve_left fun hover => hrests hover.1).2, hd₁, htop, houtcome⟩

end SagaMachine
