import SagaMachine.Proofs.Attendance
import SagaMachine.Proofs.Bystanders

/-!
# What the machine has started

From the instruction that triggers an effect of a task to the one that tells the body what was
started (`Config.Undertakes`), whatever the machine does in between: what is left to be done makes of
what there is what the start of the effect comes to (`Scenario.Visits.launching`). So the machine has
in the end what the recursion on the effect says (`Scenario.Visits.launches`).
-/

namespace SagaMachine

/-- On the way from a configuration to a later one an effect is being started. -/
inductive Config.Undertakes (turn : Turn) (b : Body) (c : Config) : Config → Prop
  | start : Undertakes turn b c c
  | step {c₁ c₂ : Config} (h : Undertakes turn b c c₁)
      (going : ∀ start rest, c₁.todo ≠ .begun turn b [] start :: rest) (step : c₁.step = some c₂) :
      Undertakes turn b c c₂

theorem Config.Undertakes.precedes {turn : Turn} {b : Body} {c c' : Config}
    (h : c.Undertakes turn b c') : c.Precedes c' := by
  induction h with
  | start => exact .refl
  | step _ _ hc ih => exact .step ih hc

/-! ## The instruction at work -/

section

variable {i : MiddlewareId} {k k' : Core} {t : TaskId} {b : Body} {past past₀ es : List Event}
  {n₀ : EffectId} {e₀ : Effect} {ls : List Layer} {issued : List Issue} {y : Instr}
  {F G : List Instr} {D : List TaskId}

theorem Launching.turn? {turn : Turn} (h : Launching n₀ e₀ past₀ turn b k past y) :
    y.turn? = some turn.task ∧ y.owner? = some turn.mw := by
  cases h with
  | carries hx => rcases hx with rfl | ⟨_, _, rfl⟩ <;> exact ⟨rfl, rfl⟩
  | triggers | begun => exact ⟨rfl, rfl⟩

theorem Launching.body_eq {turn : Turn} {b' : Body} {nests : List Nest} {start : Start}
    (h : Launching n₀ e₀ past₀ turn b k past (.begun turn b' nests start)) : b' = b := by
  generalize hx : Instr.begun turn b' nests start = x at h
  cases h with
  | triggers => cases hx
  | carries hy => rcases hy with rfl | ⟨_, _, rfl⟩ <;> cases hx
  | begun => cases hx; rfl

section

variable (hk : ∀ {z w}, k.waits.get? z = some w → w.task = t → k'.waits.get? z = some w)
  (hn : k'.nextEffect = k.nextEffect) (hes : Uneventful es)
include hk hn hes

theorem Progress.spared (h : Progress past₀ t k past ls issued) :
    Progress past₀ t k' (es.reverse ++ past) ls issued := by
  refine h.goes (h.stand.congr fun z hz => ?_) hes.1 hn.ge
  obtain ⟨w, hw, ht⟩ := h.stand.place hz
  rw [hw, hk hw ht]

/-- An effect goes on being started while others are busy. -/
theorem Launching.spared (h : Launching n₀ e₀ past₀ ⟨i, t⟩ b k past y) :
    Launching n₀ e₀ past₀ ⟨i, t⟩ b k' (es.reverse ++ past) y := by
  have hbefore {issued : List Issue} {answers : EffectId → Option Signal}
      (ha : AnswersFor (es.reverse ++ past) issued answers) : AnswersFor past issued answers :=
    ha.onto fun q _ _ signal => hes.2 q.1 signal
  cases h with
  | triggers h left =>
    refine .triggers (h.spared hk hn hes) fun ha => ?_
    rw [hn]
    exact left (hbefore ha)
  | carries hx he h latest older left =>
    exact .carries hx he (h.spared hk hn hes) (hn.trans latest) older fun ha => left (hbefore ha)
  | begun h later shown left =>
    refine .begun (h.spared hk hn hes) later (fun hs => (shown hs).congr fun z hz => ?_) fun ha => ?_
    · obtain ⟨w, hw, ht, -⟩ := (shown hs).place hz
      rw [hw, hk hw ht]
    · rw [hn]
      exact left (hbefore ha)

end

/-- An effect that is carried out settles, or is left pending. -/
theorem Launching.of_carries (h : Does i past y k k' G D es) (hl : k.Live t)
    (hT : Tabled k [y, .drain i] past)
    (hnone : ∀ {x w}, k'.waits.get? x = some w → answerIn (es.reverse ++ past) x = none)
    {id : EffectId} {e : Effect}
    (hy : y = .cancelDone ⟨i, t⟩ b (ls.map Layer.nest) id ∨
      ∃ result env, y = .answer ⟨i, t⟩ b (ls.map Layer.nest) id result env)
    (he : e.fan? = none)
    (hp : Progress past₀ t k past ls (issued ++ [(id, (Nest.link (ls.map Layer.nest)).parent?, e)]))
    (latest : k.nextEffect = id + 1) (older : ∀ q ∈ issued, q.1 < id)
    (left : ∀ {answers}, AnswersFor past issued answers → e₀.launch answers none n₀ =
      Layer.closeAll answers ls ((e.launchLeaf answers (Nest.link (ls.map Layer.nest)).parent?
        id).after issued)) :
    ∃ y, G.getLast? = some y ∧ Launching n₀ e₀ past₀ ⟨i, t⟩ b k' (es.reverse ++ past) y := by
  have hstarts : Inside (ls.map Layer.nest) id ∧ k.waits.get? id = none := by
    have hy' := hT.frames y List.mem_cons_self
    rcases hy with rfl | ⟨result, env, rfl⟩ <;> exact ⟨hy'.2.1, hy'.2.2.2.2⟩
  obtain ⟨hin, hget⟩ := hstarts
  obtain ⟨settles, suspends⟩ := Launching.of_carried (i := i) (b := b) he hp latest older left hin
  rcases hy with rfl | ⟨result, env, rfl⟩
  · cases h with
    | cancelHalted hl' => exact absurd hl hl'
    | cancelSettles => exact ⟨_, rfl, settles _⟩
  · cases h with
    | answerSettles => exact ⟨_, rfl, settles _⟩
    | @answerSuspends _ _ _ _ _ _ _ d rs =>
      have hentry : (k.waits.insert id ⟨t, Nest.link (ls.map Layer.nest), .call d⟩).get? id =
          some ⟨t, Nest.link (ls.map Layer.nest), .call d⟩ := (Table.get?_insert ..).trans (if_pos rfl)
      have hleaf : WaitKind.IsLeaf (.call d) := trivial
      exact ⟨_, rfl, suspends hleaf hget rfl rfl (hnone hentry)⟩

/-- The instruction at work is carried out, and leaves another one behind. -/
theorem Launching.does (h : Launching n₀ e₀ past₀ ⟨i, t⟩ b k past y) (hd : Does i past y k k' G D es)
    (hl : k.Live t) (hT : Tabled k [y, .drain i] past)
    (hnone : ∀ {x w}, k'.waits.get? x = some w → answerIn (es.reverse ++ past) x = none)
    (hall : ∀ nests, y = .trigger ⟨i, t⟩ b nests (.all []) →
      G = [.begun ⟨i, t⟩ b nests (.immediate (.value (.list [])))])
    (hgoing : ∀ start, y ≠ .begun ⟨i, t⟩ b [] start) :
    ∃ y, G.getLast? = some y ∧ Launching n₀ e₀ past₀ ⟨i, t⟩ b k' (es.reverse ++ past) y := by
  cases h with
  | triggers hp left =>
    exact Launching.of_trigger hp left hd hl hT hnone fun he => hall _ (by rw [he])
  | carries hx he hp latest older left =>
    exact Launching.of_carries hd hl hT hnone hx he hp latest older left
  | @begun ls issued tree hp later shown left =>
    cases ls with
    | nil => exact absurd rfl (hgoing tree.start)
    | cons l ls =>
      rw [List.map_cons] at hd hT
      cases hs : l.sort with
      | race keys => exact Launching.of_race hp later shown left hd hT hs
      | all => exact Launching.of_all hp later shown left hd hT hs

end

/-! ## Up to the body -/

/-- One of the instructions is the one at work on the start of an effect. -/
def Config.Launches (i : MiddlewareId) (t : TaskId) (b : Body) (e : Effect) (c₀ c : Config) : Prop :=
  ∃ y ∈ framesOf i c.todo, Launching (c₀.world.engine i).nextEffect e (c₀.world.past i) ⟨i, t⟩ b
    (c.world.core i) (c.world.past i) y

section

variable {s : Scenario} {c₀ c c' : Config} {w : World} {x y : Instr} {rest : List Instr}
  {i : MiddlewareId} {t : TaskId} {b : Body} {e : Effect} {start : Start} {n₀ : EffectId}
  {past₀ : List Event}

/-- The start of an effect begins where it is triggered. -/
theorem Config.Launches.begins (h : c.todo = .trigger ⟨i, t⟩ b [] e :: rest) :
    Config.Launches i t b e c c := by
  have hp : Progress (c.world.past i) t (c.world.core i) (c.world.past i) [] [] :=
    ⟨trivial, rfl, nofun⟩
  have hla : Launching (c.world.core i).nextEffect e (c.world.past i) ⟨i, t⟩ b (c.world.core i)
      (c.world.past i) (.trigger ⟨i, t⟩ b (([] : List Layer).map Layer.nest) e) :=
    .triggers hp fun _ => rfl
  exact ⟨.trigger ⟨i, t⟩ b [] e, by simp [h, Instr.owner?], hla⟩

namespace Scenario.Visits

/-- What is pending has not settled. -/
theorem answerIn_of_pending (h : s.Visits c) (ha : c.world.Alive i) {z : EffectId} {wait : Wait}
    (hz : (c.world.core i).waits.get? z = some wait) : answerIn (c.world.past i) z = none :=
  answerIn_eq_none (((h.kept ha.has).accounts (Config.alive_iff.2 ha)).entries hz).2

/-- An `all` without members has its value at once. -/
theorem exec_all_nil {nests : List Nest} {next : Config} (hl : (w.core i).Live t)
    (hn : (Instr.trigger ⟨i, t⟩ b nests (.all [])).exec w = some next) :
    next.todo = [.begun ⟨i, t⟩ b nests (.immediate (.value (.list [])))] := by
  have hhalted : w.isHalted i t = false := by
    simpa using fun hh => World.isHalted_iff.1 hh hl
  cases hn
  simp only [World.execTrigger, hhalted, Bool.false_eq_true, if_false]
  rfl

/-- The instruction at work on the start of an effect is carried out. -/
theorem launches_own (h : s.Visits ⟨x :: rest, w⟩)
    (hx : Launching n₀ e past₀ ⟨i, t⟩ b (w.core i) (w.past i) x)
    (hgoing : ∀ start, x ≠ .begun ⟨i, t⟩ b [] start)
    (hc : Config.step ⟨x :: rest, w⟩ = some c') (hl : (w.core i).Live t)
    (hl' : (c'.world.core i).Live t) : ∃ y ∈ framesOf i c'.todo,
      Launching n₀ e past₀ ⟨i, t⟩ b (c'.world.core i) (c'.world.past i) y := by
  obtain ⟨hturn, hown⟩ := hx.turn?
  have hi := (h.alive_of_owner hown).has
  have hv := h.step hc
  have ha := hv.alive_of_posture hl'.choose_spec.1
  have hg := h.grounds hown hi
  obtain ⟨next, hn, rfl, hmeets⟩ := Config.meets_of_step h.knows hi hc
  cases hmeets with
  | own _ hadv hd =>
    have hF := (hg.stack.of_turn hturn).2
    have hcore : (next.followedBy rest).world.core i = _ := hadv.core
    have hpast : (next.followedBy rest).world.past i = _ := hadv.past
    obtain ⟨y, hy, hlaunching⟩ := hx.does hd hl (hF ▸ hg.tabled)
      (fun hz => by
        rw [← hpast]
        exact hv.answerIn_of_pending ha (hcore ▸ hz))
      (fun nests hxe => by
        subst hxe
        rw [exec_all_nil hl hn, framesOf_one rfl]) hgoing
    refine ⟨y, ?_, ?_⟩
    · show y ∈ framesOf i (next.todo ++ rest)
      rw [framesOf_append]
      exact List.mem_append_left _ (List.mem_of_getLast? hy)
    · rw [hcore, hpast]
      exact hlaunching
  | foreign ho => exact absurd hown ho
  | drops hxd => rw [hxd] at hown; cases hown
  | dies hxd => rw [hxd] at hown; cases hown

/-- While something else goes on the instruction at work stays as it is. -/
theorem launches_aside (h : s.Visits ⟨x :: rest, w⟩) (hi : w.Has i) (hy : y ∈ framesOf i rest)
    (hyl : Launching n₀ e past₀ ⟨i, t⟩ b (w.core i) (w.past i) y)
    (hc : Config.step ⟨x :: rest, w⟩ = some c') (hl' : (c'.world.core i).Live t) :
    y ∈ framesOf i c'.todo ∧
      Launching n₀ e past₀ ⟨i, t⟩ b (c'.world.core i) (c'.world.past i) y := by
  obtain ⟨hyt, hyo⟩ := hyl.turn?
  have hnot : x.owner? = some i → x.turn? ≠ some t := by
    obtain ⟨pre, post, rfl⟩ := List.append_of_mem (List.mem_filter.1 hy).1
    exact h.not_turn_above hi rfl hyo hyt
  have hset (z : EffectId) (signal : Signal) : x ≠ .perform i (.reaction (.settle z signal)) := by
    rintro rfl
    rw [h.framesOf_performs.2, List.mem_singleton] at hy
    rw [hy] at hyt
    cases hyt
  obtain ⟨hn, es, hes, hun⟩ := h.spares hi hc hy hyt hl'
  have hkept {z : EffectId} {wait : Wait} (hz : (w.core i).waits.get? z = some wait)
      (ht : wait.task = t) := h.entry_kept hi hc hnot hset hl' hz ht
  obtain ⟨next, -, rfl⟩ := Option.map_eq_some_iff.1 hc
  refine ⟨?_, ?_⟩
  · show y ∈ framesOf i (next.todo ++ rest)
    rw [framesOf_append]
    exact List.mem_append_right _ hy
  · rw [hes]
    exact hyl.spared hkept hn hun

/-- The start of an effect goes on. -/
theorem launches_step (h : s.Visits c) (hla : Config.Launches i t b e c₀ c)
    (hgoing : ∀ start rest, c.todo ≠ .begun ⟨i, t⟩ b [] start :: rest) (hc : c.step = some c')
    (hl : (c.world.core i).Live t) (hl' : (c'.world.core i).Live t) :
    Config.Launches i t b e c₀ c' := by
  obtain ⟨todo, w⟩ := c
  obtain ⟨y, hy, hyl⟩ := hla
  have hi := (h.alive_of_posture hl.choose_spec.1).has
  cases todo with
  | nil => cases hc
  | cons x rest =>
    have hcases : x = y ∨ y ∈ framesOf i rest := by
      rw [framesOf_cons] at hy
      split at hy
      · exact (List.mem_cons.1 hy).imp_left Eq.symm
      · exact Or.inr hy
    rcases hcases with rfl | hy
    · refine h.launches_own hyl (fun start hxs => ?_) hc hl hl'
      exact hgoing start rest (by rw [hxs])
    · obtain ⟨hy', hyl'⟩ := h.launches_aside hi hy hyl hc hl'
      exact ⟨y, hy', hyl'⟩

/-- From its trigger on, an effect is started as the recursion says. -/
theorem launching (h : s.Visits c) (htodo : c.todo = .trigger ⟨i, t⟩ b [] e :: rest)
    (hu : c.Undertakes ⟨i, t⟩ b c') (hl : (c'.world.core i).Live t) :
    Config.Launches i t b e c c' := by
  have hyF : Instr.trigger ⟨i, t⟩ b [] e ∈ framesOf i c.todo := by simp [htodo, Instr.owner?]
  have hi : c.world.Has i := by
    obtain ⟨todo, w⟩ := c
    obtain rfl : todo = _ := htodo
    exact (h.alive_of_owner rfl).has
  obtain ⟨p, hp⟩ := h.posture_of_turn hi hyF rfl
  have ht : t < (c.world.engine i).nextTask := ((h.sound hi).orderly.tasks hp).number
  induction hu with
  | start => exact .begins htodo
  | @step c₁ c₂ hu going hc ih =>
    have hv := h.precedes hu.precedes
    have hi₁ := (h.has_precedes hu.precedes).2 hi
    have ha := hv.alive_of_step hi₁ hc ((hv.step hc).alive_of_posture hl.choose_spec.1)
    have hl₁ := hv.live_earlier hi₁ hc
      (Nat.lt_of_lt_of_le ht (h.number_precedes hi hu.precedes ha)) hl
    exact hv.launches_step (ih hl₁) going hc hl₁ hl

end Scenario.Visits

/-- The effect of a task was started as a tree, and others were triggered for it. -/
structure Config.Launched (i : MiddlewareId) (t : TaskId) (c c' : Config) (l : Launch) (start : Start) :
    Prop where
  start : start = l.tree.start
  /-- The events say which effects were triggered. -/
  issued : issuesIn (c'.world.past i) = l.issued.reverse ++ issuesIn (c.world.past i)
  next : (c'.world.engine i).nextEffect = l.next
  /-- What is pending is in the table. -/
  shown : l.tree.signal? = none → (c'.world.engine i).waits.Shows t .task l.tree

/-- Where a body is told what it has started, nothing else of its middleware goes on. -/
theorem Scenario.Visits.framesOf_begun {nests : List Nest}
    (h : s.Visits ⟨.begun ⟨i, t⟩ b nests start :: rest, w⟩) :
    framesOf i (.begun ⟨i, t⟩ b nests start :: rest) = [.begun ⟨i, t⟩ b nests start, .drain i] := by
  have hg := h.grounds (i := i) rfl (h.alive_of_owner rfl).has
  exact (framesOf_cons ..).trans ((if_pos rfl).trans (congrArg _ (hg.stack.of_turn rfl).2))

/-- What is about to be told to the body is what its effect was started as. -/
theorem Scenario.Visits.launching_begun {b' : Body} {nests : List Nest} {rest' : List Instr}
    (h : s.Visits c) (htodo : c.todo = .trigger ⟨i, t⟩ b [] e :: rest)
    (hu : c.Undertakes ⟨i, t⟩ b c') (hbegun : c'.todo = .begun ⟨i, t⟩ b' nests start :: rest')
    (hl : (c'.world.core i).Live t) :
    Launching (c.world.engine i).nextEffect e (c.world.past i) ⟨i, t⟩ b (c'.world.core i)
      (c'.world.past i) (.begun ⟨i, t⟩ b' nests start) := by
  obtain ⟨y, hy, hyl⟩ := h.launching htodo hu hl
  have hv := h.precedes hu.precedes
  obtain ⟨todo, w⟩ := c'
  obtain rfl : todo = _ := hbegun
  have hy : y ∈ framesOf i (.begun ⟨i, t⟩ b' nests start :: rest') := hy
  rw [hv.framesOf_begun] at hy
  rcases List.mem_cons.1 hy with rfl | hy
  · exact hyl
  · rw [List.mem_singleton.1 hy] at hyl
    cases hyl.turn?.1

/--
The start of an effect comes to what the recursion says, with the signals that effects without members
have settled with so far.
-/
theorem Scenario.Visits.launches (h : s.Visits c) (htodo : c.todo = .trigger ⟨i, t⟩ b [] e :: rest)
    (hu : c.Undertakes ⟨i, t⟩ b c') {rest' : List Instr}
    (hbegun : c'.todo = .begun ⟨i, t⟩ b [] start :: rest') (hl : (c'.world.core i).Live t) :
    c.Launched i t c'
      (e.launch (answerIn (c'.world.past i)) none (c.world.engine i).nextEffect) start := by
  have hyl := h.launching_begun htodo hu hbegun hl
  generalize hx : Instr.begun ⟨i, t⟩ b [] start = x at hyl
  cases hyl with
  | triggers => cases hx
  | carries hy => rcases hy with rfl | ⟨_, _, rfl⟩ <;> cases hx
  | @begun ls issued tree hp later shown left =>
    obtain rfl : ls = [] := by
      cases ls with
      | nil => rfl
      | cons l ls => cases hx
    cases hx
    rw [left fun _ _ _ => rfl]
    exact ⟨rfl, hp.issues, rfl, shown⟩

end

end SagaMachine
