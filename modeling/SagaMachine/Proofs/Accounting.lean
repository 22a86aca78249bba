import SagaMachine.Proofs.Accounts
import SagaMachine.Proofs.Awaiting
import SagaMachine.Proofs.Encounters

/-!
# Effects from their trigger to their end

Wherever a run comes to, the events of a middleware that is alive account for its effects: each
that was triggered has come to its end, or is in the wait table, or is at hand. The one
exception is an effect that cancelled its own task (`Scenario.CancelsItself`): when the
cancellation is done there is nobody left to hear of it, and the effect is given up.

Main statement: `Scenario.Visits.kept`, `Scenario.Visits.cancelsItself_of_misses`,
`Scenario.misses_of_cancelsItself`.
-/

namespace SagaMachine

section

variable {i : MiddlewareId} {past es : List Event} {x x₀ : Instr} {k k' : Core} {F F' G : List Instr}
  {y : EffectId}

theorem attemptsOf_cons (x : Instr) (F : List Instr) :
    attemptsOf (x :: F) = x.attempt?.toList ++ attemptsOf F := by
  unfold attemptsOf
  cases h : x.attempt? with
  | none => exact List.filterMap_cons_none h
  | some a => exact List.filterMap_cons_some h

/-- Whatever was triggered has a smaller number than the next effect. -/
theorem Tabled.older (h : Tabled k F past) (hy : y ∈ triggeredIn past) : y < k.nextEffect := by
  obtain ⟨t, p, e, hm⟩ := mem_triggeredIn.1 hy
  exact h.named hm

theorem Tabled.unused (h : Tabled k F past) : k.nextEffect ∉ triggeredIn past := fun hm =>
  Nat.lt_irrefl _ (h.older hm)

/-- The events keep to their order, and the wait table still agrees with them. -/
theorem Deals.accounts (h : Deals i k x k' G es) (hR : Regular past) (hT : Tabled k F' past)
    (hA : Accounts k.waits (attemptsOf (x :: F)) past) :
    Regular (es.reverse ++ past) ∧ Accounts k'.waits (attemptsOf (G ++ F)) (es.reverse ++ past) := by
  rw [attemptsOf_append]
  rw [attemptsOf_cons] at hA
  cases h with
  | walks hx hG hw ht he =>
    rw [hx] at hA
    rw [hG]
    exact ⟨hA.regular_walk hR hw ht he, hA.walk hw he⟩
  | @issues a e later hx hid hp hes ht ids he h =>
    obtain ⟨b, nests, rfl⟩ := hx
    have hnew : ∀ z ∈ triggeredIn past, z < a.id := fun z hz => hid ▸ hT.older hz
    have hfree : k.waits.get? a.id = none := by
      cases hw : k.waits.get? a.id with
      | none => rfl
      | some w => exact absurd (hT.number hw) (hid ▸ Nat.lt_irrefl _)
    have hfit : (Event.triggered a.task a.id a.parent e).Fits past := by
      refine ⟨hnew, fun q hq => ?_⟩
      obtain ⟨w, hw, ht⟩ := hp q hq
      obtain ⟨⟨e', he'⟩, -⟩ := hA.entries hw
      exact ⟨_, e', ht ▸ he'⟩
    have hA' := Accounts.trigger hA e hfree hR hnew
    have hR' := Regular.cons hfit hR
    subst hes
    rw [List.reverse_cons, List.append_assoc, List.singleton_append]
    exact ⟨hA'.regular_dispose hR' ht he h, hA'.dispose he h⟩
  | concludes hx ht he h =>
    rw [hx] at hA
    exact ⟨Accounts.regular_dispose hA hR ht he h, Accounts.dispose hA he h⟩
  | halts hx hl hk hG hes =>
    subst hx hk hG hes
    exact ⟨hR, hA.entries, fun a ha => hA.attempts a (List.mem_cons_of_mem _ ha),
      (List.nodup_cons.1 hA.apart).2⟩

/-- What is missing stays missing. -/
theorem Deals.missing (h : Deals i k x k' G es) (hT : Tabled k F' past)
    (hy : Missing k.waits (attemptsOf (x :: F)) past y) :
    Missing k'.waits (attemptsOf (G ++ F)) (es.reverse ++ past) y := by
  rw [attemptsOf_append]
  rw [attemptsOf_cons] at hy
  cases h with
  | walks hx hG hw ht he =>
    rw [hx] at hy
    rw [hG]
    exact (missing_walk hw ht he).2 hy
  | issues hx hid hp hes ht he h =>
    obtain ⟨b, nests, rfl⟩ := hx
    subst hes
    rw [List.reverse_cons, List.append_assoc, List.singleton_append]
    exact (missing_dispose ht he h).2 ((missing_trigger (hid ▸ hT.unused)).2 hy)
  | concludes hx ht he h =>
    rw [hx] at hy
    exact (missing_dispose ht he h).2 hy
  | halts hx hl hk hG hes =>
    subst hx hk hG hes
    exact ⟨hy.triggered, hy.unended, hy.unlisted, fun hm => hy.unheld (List.mem_cons_of_mem _ hm)⟩

/-- What is missing now was missing before, or is given up because its task is terminal. -/
theorem Deals.missing_of (h : Deals i k x k' G es) (hT : Tabled k F' past)
    (hy : Missing k'.waits (attemptsOf (G ++ F)) (es.reverse ++ past) y) :
    Missing k.waits (attemptsOf (x :: F)) past y ∨
      ∃ t b nests, x = .cancelDone ⟨i, t⟩ b nests y ∧ ¬ k.Live t := by
  rw [attemptsOf_append] at hy
  rw [attemptsOf_cons]
  cases h with
  | walks hx hG hw ht he =>
    rw [hG] at hy
    rw [hx]
    exact Or.inl ((missing_walk hw ht he).1 hy)
  | issues hx hid hp hes ht he h =>
    obtain ⟨b, nests, rfl⟩ := hx
    subst hes
    rw [List.reverse_cons, List.append_assoc, List.singleton_append] at hy
    exact Or.inl ((missing_trigger (hid ▸ hT.unused)).1 ((missing_dispose ht he h).1 hy))
  | concludes hx ht he h =>
    rw [hx]
    exact Or.inl ((missing_dispose ht he h).1 hy)
  | @halts t b nests id hx hl hk hG hes =>
    subst hx hk hG hes
    by_cases hid : y = id
    · exact Or.inr ⟨t, b, nests, hid ▸ rfl, hl⟩
    · refine Or.inl ⟨hy.triggered, hy.unended, hy.unlisted, fun hm => ?_⟩
      rcases List.mem_cons.1 hm with rfl | hm
      · exact hid rfl
      · exact hy.unheld hm

theorem Drives.attempts {work : List Instr} (h : Drives i k work k' G)
    (hw : attemptsOf work = []) : k'.waits = k.waits ∧ attemptsOf G = [] := by
  cases h with
  | within => exact ⟨rfl, hw⟩
  | starts =>
    rw [attemptsOf_append, hw]
    exact ⟨rfl, rfl⟩

/-- What others do to a middleware is nothing to the account of its effects. -/
theorem Intervenes.idle (h : Intervenes i past k k' G es) :
    attemptsOf G = [] ∧ k'.waits = k.waits ∧ triggeredIn es = [] ∧ endedIn es = [] := by
  cases h with
  | quietly hq => exact ⟨rfl, rfl, hq.triggeredIn, hq.endedIn⟩
  | spawns h =>
    obtain ⟨hw, hG⟩ := h.attempts rfl
    have hcreate : (k.create none false).waits = k.waits := by rw [k.create_eq]
    exact ⟨hG, hw.trans hcreate, rfl, rfl⟩
  | settles hs h hq =>
    obtain ⟨hw, hG⟩ := h.attempts rfl
    exact ⟨hG, hw, hq.triggeredIn, hq.endedIn⟩
  | cancels h =>
    obtain ⟨hw, hG⟩ := h.attempts rfl
    exact ⟨hG, hw, rfl, rfl⟩
  | queues hd hq => exact ⟨rfl, rfl, hq.triggeredIn, hq.endedIn⟩
  | sends => exact ⟨rfl, rfl, rfl, rfl⟩

theorem Intervenes.deals (h : Intervenes i past k k' G es) : Deals i k (.drain i) k' G es :=
  .idle rfl h.idle.1 h.idle.2.1 h.idle.2.2.1 h.idle.2.2.2

theorem not_mem_of_attempts {turn : Turn} {b : Body} {nests : List Nest} (h : attemptsOf G = []) :
    .cancelDone turn b nests y ∉ G := fun hm => by
  cases List.filterMap_eq_nil_iff.1 h _ hm

end

/-! ## Along a run -/

section

variable {s : Scenario} {c c' : Config} {w : World} {i : MiddlewareId} {x : Instr}
  {rest : List Instr} {y : EffectId} {past : List Event}

/-- The effects of a middleware that are missing. -/
def Config.Misses (c : Config) (i : MiddlewareId) (y : EffectId) : Prop :=
  Missing (c.world.core i).waits (attemptsOf (framesOf i c.todo)) (c.world.past i) y

/-- A step as the account of effects sees it: of what others do, only the result shows. -/
theorem Scenario.Visits.deals (h : s.Visits ⟨x :: rest, w⟩) (hi : w.Has i)
    (hc : Config.step ⟨x :: rest, w⟩ = some c') (ha : c'.world.Alive i) :
    ∃ x₀ G es, attemptsOf (framesOf i (x :: rest)) = attemptsOf (x₀ :: framesOf i rest) ∧
      framesOf i c'.todo = G ++ framesOf i rest ∧
      c'.world.past i = es.reverse ++ w.past i ∧
      Deals i (w.core i) x₀ (c'.world.core i) G es ∧ (x₀ = .drain i ∨ x₀ = x) := by
  have halive := h.alive_of_step hi hc ha
  obtain ⟨next, -, rfl, hm⟩ := Config.meets_of_step h.knows hi hc
  have hframes : framesOf i (next.followedBy rest).todo = framesOf i next.todo ++ framesOf i rest :=
    framesOf_append i next.todo rest
  cases hm with
  | own ho hadv hdoes =>
    refine ⟨x, _, _, by rw [framesOf_cons, if_pos ho], hframes, hadv.past, ?_, Or.inr rfl⟩
    have hT : Tabled (w.core i) (framesOf i (x :: rest)) (w.past i) :=
      (h.sound hi).tabled (Config.alive_iff.2 halive)
    rw [framesOf_cons, if_pos ho] at hT
    show Deals i (w.core i) x (next.world.core i) _ _
    rw [hadv.core]
    exact hdoes.deals (hT.frames x List.mem_cons_self)
  | foreign ho hadv hint =>
    refine ⟨.drain i, _, _, ?_, hframes, hadv.past, ?_, Or.inl rfl⟩
    · rw [framesOf_cons, if_neg ho]
      rfl
    · show Deals i (w.core i) _ (next.world.core i) _ _
      rw [hadv.core]
      exact hint.deals
  | @drops t b hhead hres =>
    subst hhead hres
    refine ⟨.drain i, [], [.bodyDropped t], rfl, rfl, World.past_record _, ?_, Or.inl rfl⟩
    have hcore := ((World.Advances.start hi).record (.bodyDropped t)).core
    exact .idle rfl rfl (congrArg Core.waits hcore) rfl rfl
  | dies _ _ _ _ _ hdead =>
    have ha : next.world.alive? i = some true := ha
    rw [hdead] at ha
    cases ha

/-- The account of a view: what holds of it is kept by every move. -/
structure Kept (i : MiddlewareId) (v : View) : Prop where
  sound : Sound i v
  regular : Regular v.past
  accounts : v.alive = true → Accounts v.core.waits (attemptsOf v.frames) v.past

theorem Regular.drop (h : Regular past) (t : TaskId) : Regular (.bodyDropped t :: past) :=
  .cons trivial h

theorem Kept.move {v v' : View} (h : Kept i v) (hm : Moves i v v') : Kept i v' := by
  obtain ⟨hs, hR, hA⟩ := h
  have hs' := hs.move hm
  cases hm with
  | @does alive k F D past x k' G D' es hd hu =>
    cases alive with
    | false => cases (hs.framed.dead rfl).1
    | true =>
      have hT := hs.tabled rfl
      obtain ⟨hR', hA'⟩ := (hd.deals (hT.frames x List.mem_cons_self)).accounts hR hT (hA rfl)
      exact ⟨hs', hR', fun _ => hA'⟩
  | intervenes hi hu =>
    obtain ⟨hR', hA'⟩ := hi.deals.accounts hR (hs.tabled rfl) (hA rfl)
    exact ⟨hs', hR', fun _ => hA'⟩
  | still => exact ⟨hs, hR, hA⟩
  | @drops alive k F t D past hu =>
    refine ⟨hs', hR.drop t, fun ha => ?_⟩
    exact (hA ha).onto [.bodyDropped t] fun x hx => by cases hx
  | dies hD => exact ⟨hs', hR, fun ha => by cases ha⟩

/-- Wherever a run comes to, the events of a middleware account for its effects. -/
theorem Scenario.Visits.kept (h : s.Visits c) (hi : c.world.Has i) : Kept i (c.view i) :=
  h.invariant ⟨.start i, .nil, fun _ => .start⟩ (fun hv hm => hv.move hm) hi

/-! ### Effects that cancel their own task -/

/-- What is missing stays missing. -/
theorem Scenario.Visits.misses_step (h : s.Visits c) (hi : c.world.Has i) (hc : c.step = some c')
    (ha : c'.world.Alive i) (hy : c.Misses i y) : c'.Misses i y := by
  obtain ⟨_ | ⟨x, rest⟩, w⟩ := c
  · cases hc
  obtain ⟨x₀, G, es, hat, hfr, hpast, hd, -⟩ := h.deals hi hc ha
  have hT := (h.sound hi).tabled (Config.alive_iff.2 (h.alive_of_step hi hc ha))
  unfold Config.Misses at hy ⊢
  rw [hat] at hy
  rw [hfr, hpast]
  exact hd.missing hT hy

/-- What is missing now was missing before, or is given up because its task is terminal. -/
theorem Scenario.Visits.misses_of_step (h : s.Visits c) (hi : c.world.Has i)
    (hc : c.step = some c') (ha : c'.world.Alive i) (hy : c'.Misses i y) : c.Misses i y ∨
      ∃ t b nests todo, c.todo = .cancelDone ⟨i, t⟩ b nests y :: todo ∧
        c.world.isHalted i t = true := by
  obtain ⟨_ | ⟨x, rest⟩, w⟩ := c
  · cases hc
  obtain ⟨x₀, G, es, hat, hfr, hpast, hd, hx⟩ := h.deals hi hc ha
  have hT := (h.sound hi).tabled (Config.alive_iff.2 (h.alive_of_step hi hc ha))
  unfold Config.Misses at hy ⊢
  rw [hfr, hpast] at hy
  rw [hat]
  refine (hd.missing_of hT hy).imp_right ?_
  rintro ⟨t, b, nests, hx₀, hl⟩
  rcases hx with rfl | rfl
  · cases hx₀
  · exact ⟨t, b, nests, rest, by rw [hx₀], World.isHalted_iff.2 hl⟩

/--
On the way to a configuration a live task started a CANCEL effect; `todo` is what was left to
be done after it.
-/
def Scenario.StartsCancel (s : Scenario) (c : Config) (turn : Turn) (body : Body)
    (nests : List Nest) (id : EffectId) (todo : List Instr) : Prop :=
  ∃ (issue : Config) (target : Option TaskRef), s.Visits issue ∧ issue.Precedes c ∧
    issue.todo = .trigger turn body nests (.cancel target) :: todo ∧
    issue.world.isHalted turn.mw turn.task = false ∧
    (issue.world.engine turn.mw).nextEffect = id

/--
An effect made the task terminal that issued it: it is a CANCEL effect, its task was live when
it was triggered, and was not live any more when the work was done that the effect called for.
-/
def Scenario.CancelsItself (s : Scenario) (c : Config) (i : MiddlewareId) (t : TaskId)
    (id : EffectId) : Prop :=
  ∃ (done : Config) (body : Body) (nests : List Nest) (todo : List Instr),
    s.StartsCancel done ⟨i, t⟩ body nests id todo ∧
    done.todo = .cancelDone ⟨i, t⟩ body nests id :: todo ∧
    done.world.isHalted i t = true ∧ done.Precedes c

theorem Scenario.StartsCancel.step {turn : Turn} {body : Body} {nests : List Nest}
    {todo : List Instr} (h : s.StartsCancel c turn body nests y todo) (hc : c.step = some c') :
    s.StartsCancel c' turn body nests y todo := by
  obtain ⟨issue, target, hv, hp, hissue⟩ := h
  exact ⟨issue, target, hv, .step hp hc, hissue⟩

/-- The work of a CANCEL effect is put on the list by its start, and by nothing else. -/
theorem Does.trigger_of_cancelDone {x : Instr} {k k' : Core} {G : List Instr} {D : List TaskId}
    {es : List Event} (h : Does i past x k k' G D es) {turn : Turn} {b : Body} {nests : List Nest}
    (hm : .cancelDone turn b nests y ∈ G) : ∃ turn' b' nests' e, x = .trigger turn' b' nests' e := by
  cases h with
  | triggerCancels => exact ⟨_, _, _, _, rfl⟩
  | start h | resume h | wake _ _ h => exact absurd hm (not_mem_of_attempts h.attemptsOf.1)
  | errand hG =>
    rcases hG with rfl | ⟨g, rfl, hg⟩
    · cases hm
    · exact absurd hm (not_mem_of_attempts hg.attempts)
  | poll hg | advance hg => exact absurd hm (not_mem_of_attempts hg.attempts)
  | _ => simp at hm

/-- What a CANCEL effect puts on the list when it is started. -/
theorem World.cancel_of_execTrigger {turn turn' : Turn} {b b' : Body} {nests nests' : List Nest}
    {e : Effect} (hm : .cancelDone turn' b' nests' y ∈ (w.execTrigger turn b nests e).todo) :
    w.isHalted turn.mw turn.task = false ∧ (w.engine turn.mw).nextEffect = y ∧
      ∃ target u, e = .cancel target ∧
        (w.execTrigger turn b nests e).todo = [.cancel turn.mw u, .cancelDone turn b nests y] := by
  unfold World.execTrigger at hm ⊢
  cases hh : w.isHalted turn.mw turn.task with
  | true => simp [hh] at hm
  | false =>
    simp only [hh, Bool.false_eq_true, if_false] at hm ⊢
    cases e with
    | cancel target =>
      refine ⟨trivial, ?_⟩
      cases target with
      | none =>
        simp only [World.startCancel, List.mem_cons, List.not_mem_nil, or_false, false_or,
          reduceCtorEq, Instr.cancelDone.injEq] at hm ⊢
        exact ⟨hm.2.2.2.symm, none, _, rfl, by rw [hm.2.2.2]⟩
      | some target =>
        simp only [World.startCancel] at hm ⊢
        split at hm
        · simp [World.invalid, World.immediate] at hm
        · rename_i howner
          simp only [List.mem_cons, List.not_mem_nil, or_false, false_or, reduceCtorEq,
            Instr.cancelDone.injEq] at hm
          rw [if_neg howner]
          exact ⟨hm.2.2.2.symm, some target, _, rfl, by rw [hm.2.2.2]⟩
    | take source pattern =>
      simp only [World.startTake] at hm
      repeat' split at hm
      all_goals simp [World.immediate, World.suspend] at hm
    | put target => simp [World.startPut, World.suspend] at hm
    | call label routine =>
      simp only [World.startCall, World.awaitDeferred] at hm
      repeat' split at hm
      all_goals simp [World.suspend] at hm
    | fork saga detached => simp [World.startFork, World.immediate] at hm
    | join target =>
      simp only [World.startJoin] at hm
      repeat' split at hm
      all_goals simp [World.invalid, World.immediate, World.suspend] at hm
    | race members =>
      simp only [World.startKeyedRace, World.startRace] at hm
      repeat' split at hm
      all_goals simp [World.invalid, World.immediate] at hm
    | racePositional members =>
      simp only [World.startRace] at hm
      split at hm <;> simp [World.invalid, World.immediate] at hm
    | all members =>
      simp only [World.startAll] at hm
      split at hm <;> simp [World.immediate] at hm
    | select key => simp [World.startSelect, World.immediate] at hm

/-- What is left to be done of a CANCEL effect was put there when the effect was started. -/
theorem Scenario.Visits.startsCancel {t : TaskId} {b : Body} {nests : List Nest}
    {pre todo : List Instr} (h : s.Visits c) (hi : c.world.Has i)
    (hc : c.todo = pre ++ .cancelDone ⟨i, t⟩ b nests y :: todo) :
    s.StartsCancel c ⟨i, t⟩ b nests y todo := by
  induction h generalizing pre todo with
  | start => cases pre <;> cases hc
  | call _ o budget =>
    rcases List.singleton_eq_append_iff.1 hc with ⟨rfl, h⟩ | ⟨rfl, h⟩ <;> cases h
  | @step c c' h hstep ih =>
    obtain ⟨_ | ⟨x, rest⟩, w⟩ := c
    · cases hstep
    have hi' := (h.knows.has_iff hstep i).1 hi
    have hold (pre' : List Instr) (hrest : rest = pre' ++ .cancelDone ⟨i, t⟩ b nests y :: todo) :
        s.StartsCancel c' ⟨i, t⟩ b nests y todo :=
      (@ih (x :: pre') todo hi' (by rw [hrest]; rfl)).step hstep
    obtain ⟨next, hn, rfl, hm⟩ := Config.meets_of_step h.knows hi' hstep
    have hc : next.todo ++ rest = pre ++ .cancelDone ⟨i, t⟩ b nests y :: todo := hc
    -- it is among what the step left, or among what the step called for
    rcases List.append_eq_append_iff.1 hc with ⟨pre', rfl, hrest⟩ | ⟨later, hnext, hlater⟩
    · exact hold pre' hrest
    cases later with
    | nil => exact hold [] hlater.symm
    | cons z later =>
      obtain ⟨rfl, rfl⟩ := List.cons.inj hlater
      have hmem : Instr.cancelDone ⟨i, t⟩ b nests y ∈ next.todo :=
        hnext ▸ List.mem_append_right _ List.mem_cons_self
      have hframe : Instr.cancelDone ⟨i, t⟩ b nests y ∈ framesOf i next.todo :=
        List.mem_filter.2 ⟨hmem, by simp [Instr.owner?]⟩
      cases hm with
      | own ho hadv hdoes =>
        obtain ⟨turn, b', nests', e, rfl⟩ := hdoes.trigger_of_cancelDone hframe
        cases hn
        obtain ⟨hh, hy, target, u, rfl, htodo⟩ := World.cancel_of_execTrigger hmem
        have hlast := htodo.symm.trans hnext
        rcases pre with _ | ⟨_, _ | ⟨_, pre⟩⟩
        · cases hlast
        · cases hlast
          exact ⟨_, target, h, .step .refl hstep, rfl, hh, hy⟩
        · simp at hlast
      | foreign ho hadv hint =>
        exact absurd hframe (not_mem_of_attempts hint.idle.1)
      | drops hhead hres =>
        subst hres
        cases List.mem_singleton.1 hmem
      | dies _ _ hframes =>
        rw [hframes] at hframe
        cases hframe

/-- A middleware that is alive was alive before. -/
theorem Scenario.Visits.alive_of_precedes (h : s.Visits c) (hc : c.Precedes c')
    (ha : c'.world.Alive i) : c.world.Alive i := by
  induction hc with
  | refl => exact ha
  | call _ o budget ih => exact ih ha
  | step hp hstep ih =>
    have hv := h.precedes hp
    exact ih (hv.alive_of_step ((hv.knows.has_iff hstep i).1 ha.has) hstep ha)

/-- What is missing are the effects that cancelled their own task. -/
theorem Scenario.Visits.cancelsItself_of_misses (h : s.Visits c) (ha : c.world.Alive i)
    (hy : c.Misses i y) : ∃ t, s.CancelsItself c i t y := by
  induction h with
  | @start w h =>
    have hy : y ∈ triggeredIn (w.past i) := hy.triggered
    rw [World.past, (setUp_fresh h).journal] at hy
    cases hy
  | call h o budget ih =>
    obtain ⟨t, done, b, nests, todo, hs, hd, hh, hp⟩ := ih ha hy
    exact ⟨t, done, b, nests, todo, hs, hd, hh, .call hp o budget⟩
  | step h hc ih =>
    have hi := (h.knows.has_iff hc i).1 ha.has
    rcases h.misses_of_step hi hc ha hy with hy | ⟨t, b, nests, todo, hx, hh⟩
    · obtain ⟨t, done, b, nests, todo, hs, hd, hh, hp⟩ := ih (h.alive_of_step hi hc ha) hy
      exact ⟨t, done, b, nests, todo, hs, hd, hh, .step hp hc⟩
    · exact ⟨t, _, b, nests, todo, @startsCancel _ _ _ _ t b nests [] todo h hi hx, hx, hh, .step .refl hc⟩

/-- An effect at hand is missing once it was given up. -/
theorem Accounts.missing {waits : Waits} {a : Attempt} {as : List Attempt}
    (h : Accounts waits (a :: as) past) : Missing waits as past a.id := by
  obtain ⟨⟨e, he⟩, hn, hw⟩ := h.attempts a List.mem_cons_self
  exact ⟨mem_triggeredIn.2 ⟨_, _, e, he⟩, hn, hw, (List.nodup_cons.1 h.apart).1⟩

/-- The task that issued the effect is not live any more: the effect is given up. -/
theorem Scenario.Visits.misses_halt (h : s.Visits c) (hi : c.world.Has i) (ha : c.world.Alive i)
    {t : TaskId} {b : Body} {nests : List Nest} {todo : List Instr}
    (hd : c.todo = .cancelDone ⟨i, t⟩ b nests y :: todo) (hh : c.world.isHalted i t = true)
    (hc : c.step = some c') : c'.Misses i y := by
  obtain ⟨_, w⟩ := c
  subst hd
  have hA := (h.kept hi).accounts (Config.alive_iff.2 ha)
  have hc' : c' = ⟨.begun ⟨i, t⟩ b nests .halt :: todo, w⟩ := by
    simp only [Config.step, Instr.exec, World.execCancelDone] at hc
    rw [if_pos hh] at hc
    exact (Option.some.inj hc).symm
  subst hc'
  have hcons : (Config.view ⟨.cancelDone ⟨i, t⟩ b nests y :: todo, w⟩ i).frames =
      .cancelDone ⟨i, t⟩ b nests y :: framesOf i todo := by
    simp [Config.view, Instr.owner?]
  have hhalt : framesOf i (.begun ⟨i, t⟩ b nests .halt :: todo) =
      .begun ⟨i, t⟩ b nests .halt :: framesOf i todo := by
    simp [Instr.owner?]
  rw [hcons, attemptsOf_cons] at hA
  unfold Config.Misses
  rw [hhalt, attemptsOf_cons]
  exact Accounts.missing hA

/-- An effect that cancelled its own task is missing from then on. -/
theorem Scenario.misses_of_cancelsItself (ha : w.Alive i)
    {t : TaskId} (hs : s.CancelsItself ⟨[], w⟩ i t y) : Config.Misses ⟨[], w⟩ i y := by
  obtain ⟨done, b, nests, todo, ⟨issue, target, hv, hp, -⟩, hd, hh, hc⟩ := hs
  have hdone := hv.precedes hp
  suffices key : ∀ {c}, done.Precedes c → c.world.Alive i → c = done ∨ c.Misses i y by
    rcases key hc ha with rfl | hy
    · cases hd
    · exact hy
  intro c hc
  induction hc with
  | refl => exact fun _ => Or.inl rfl
  | call _ o budget ih =>
    intro ha
    rcases ih ha with rfl | hy
    · cases hd
    · exact Or.inr hy
  | step hp hstep ih =>
    intro ha
    have hv := hdone.precedes hp
    have hi := (hv.knows.has_iff hstep i).1 ha.has
    have ha' := hv.alive_of_step hi hstep ha
    rcases ih ha' with hsame | hy
    · exact Or.inr (hv.misses_halt hi ha' (hsame ▸ hd) (hsame ▸ hh) hstep)
    · exact Or.inr (hv.misses_step hi hstep ha hy)

/-! ### The trigger of such an effect -/

/-- An effect is triggered only once. -/
theorem Regular.triggered_once (h : Regular past) {t t' : TaskId} {p p' : Option EffectId}
    {e e' : Effect} (hm : .triggered t y p e ∈ past) (hm' : .triggered t' y p' e' ∈ past) :
    t = t' ∧ p = p' ∧ e = e' := by
  induction h with
  | nil => cases hm
  | @cons ev past hf _ ih =>
    have hno {t p e t' p' e'} (hev : ev = .triggered t y p e) (hp : .triggered t' y p' e' ∈ past) :
        False := by
      subst hev
      exact Nat.lt_irrefl y (hf.1 y (mem_triggeredIn.2 ⟨t', p', e', hp⟩))
    rcases List.mem_cons.1 hm with h | hm
    · rcases List.mem_cons.1 hm' with h' | hm'
      · cases h.trans h'.symm
        exact ⟨rfl, rfl, rfl⟩
      · exact (hno h.symm hm').elim
    · rcases List.mem_cons.1 hm' with h' | hm'
      · exact (hno h'.symm hm).elim
      · exact ih hm hm'

/-- From a configuration that still has work to do a run goes on with its step. -/
theorem Config.Precedes.head (h : c.Precedes c') (hc : c.todo ≠ []) :
    c' = c ∨ ∃ c₁, c.step = some c₁ ∧ c₁.Precedes c' := by
  induction h with
  | refl => exact Or.inl rfl
  | call _ o budget ih =>
    rcases ih with h | ⟨c₁, h₁, hp⟩
    · exact absurd (by rw [← h]) hc
    · exact Or.inr ⟨c₁, h₁, .call hp o budget⟩
  | step _ hstep ih =>
    rcases ih with rfl | ⟨c₁, h₁, hp⟩
    · exact Or.inr ⟨_, hstep, .refl⟩
    · exact Or.inr ⟨c₁, h₁, .step hp hstep⟩

theorem Scenario.Visits.has_precedes (h : s.Visits c) (hp : c.Precedes c') :
    c'.world.Has i ↔ c.world.Has i := by
  induction hp with
  | refl => exact Iff.rfl
  | call _ o budget ih => exact ih
  | step hp hstep ih => exact ((h.precedes hp).knows.has_iff hstep i).trans ih

/-- What happened stays in the past. -/
theorem Scenario.Visits.past_precedes (h : s.Visits c) (hi : c.world.Has i) (hp : c.Precedes c') :
    ∃ es, c'.world.past i = es ++ c.world.past i := by
  induction hp with
  | refl => exact ⟨[], rfl⟩
  | call _ o budget ih => exact ih
  | @step c₁ c₂ hp hstep ih =>
    obtain ⟨es, hes⟩ := ih
    obtain ⟨es', hes'⟩ := ((h.precedes hp).turnover ((h.has_precedes hp).2 hi) hstep).past
    have hes' : c₂.world.past i = es' ++ c₁.world.past i := hes'
    exact ⟨es' ++ es, by rw [List.append_assoc, ← hes, hes']⟩

/-- A CANCEL effect is recorded when it is started. -/
theorem World.triggered_of_execTrigger {t : TaskId} {b : Body} {nests : List Nest}
    {target : Option TaskRef} (hh : w.isHalted i t = false) :
    ∃ p, .triggered t (w.engine i).nextEffect p (.cancel target) ∈
      (w.execTrigger ⟨i, t⟩ b nests (.cancel target)).world.past i := by
  refine ⟨(Nest.link nests).parent?, ?_⟩
  simp only [World.execTrigger, hh, Bool.false_eq_true, if_false]
  cases target with
  | none => simp [World.startCancel]
  | some u =>
    simp only [World.startCancel]
    split <;> simp [World.invalid, World.immediate]

/-- The start of a CANCEL effect by a live task is recorded. -/
theorem Scenario.StartsCancel.triggered {t : TaskId} {b : Body} {nests : List Nest}
    {pre todo : List Instr} (h : s.StartsCancel c ⟨i, t⟩ b nests y todo) (hi : c.world.Has i)
    (hd : c.todo = pre ++ .cancelDone ⟨i, t⟩ b nests y :: todo) :
    ∃ p target, .triggered t y p (.cancel target) ∈ c.world.past i := by
  obtain ⟨⟨_, w⟩, target, hv, hp, hissue, hh, rfl⟩ := h
  cases hissue
  have hw := (hv.has_precedes hp).1 hi
  rcases hp.head (List.cons_ne_nil _ _) with rfl | ⟨c₁, hstep, hp⟩
  · cases pre with
    | nil => cases hd
    | cons =>
      have hlength := congrArg List.length hd
      simp at hlength
      omega
  · obtain ⟨p, hm⟩ := World.triggered_of_execTrigger hh
    obtain ⟨es, hes⟩ := (hv.step hstep).past_precedes ((hv.knows.has_iff hstep i).2 hw) hp
    cases hstep
    exact ⟨p, target, hes ▸ List.mem_append_right es hm⟩

/-! ### Middlewares that were dropped -/

/-- Events that only tell of bodies that are dropped. -/
def DropsOnly (es : List Event) : Prop := ∀ e ∈ es, ∃ t, e = .bodyDropped t

/-- In a middleware that was dropped only bodies are dropped. -/
theorem Moves.past_of_dead {v v' : View} (h : Moves i v v') (hs : Sound i v)
    (hd : v.alive = false) : ∃ es, v'.past = es ++ v.past ∧ DropsOnly es := by
  cases h with
  | does => cases (hs.framed.dead hd).1
  | intervenes => cases hd
  | still => exact ⟨[], rfl, fun e he => by cases he⟩
  | @drops alive k F t D past =>
    exact ⟨[.bodyDropped t], rfl, fun e he => ⟨t, List.mem_singleton.1 he⟩⟩
  | dies => cases hd

/-- An operation from outside comes in when nothing is left to be done. -/
theorem Scenario.Visits.called {o : Op} (h : s.Visits ⟨[.op .outside .empty o], w⟩) :
    ∃ w₀ budget, s.Visits ⟨[], w₀⟩ ∧ w = { w₀ with reply := none, budget } := by
  generalize hc : Config.mk [.op .outside .empty o] w = c at h
  cases h with
  | start => cases hc
  | call h o budget =>
    cases hc
    exact ⟨_, budget, h, rfl⟩
  | step h hstep =>
    subst hc
    exact (h.knows.named hstep _ List.mem_cons_self).elim

/-- A middleware that was dropped is left as it was between two operations. -/
theorem Scenario.Visits.dropped (h : s.Visits c) (hi : c.world.Has i) (hd : ¬ c.world.Alive i) :
    ∃ w₀ es, s.Visits ⟨[], w₀⟩ ∧ Config.Precedes ⟨[], w₀⟩ c ∧ w₀.Alive i ∧
      c.world.past i = es ++ w₀.past i ∧ DropsOnly es := by
  induction h with
  | start h =>
    obtain ⟨m, hm⟩ := hi
    refine (hd ?_).elim
    show World.alive? _ i = some true
    rw [World.alive?, hm, Option.map_some, ((setUp_fresh h).middleware i m hm).2]
  | call h o budget ih =>
    obtain ⟨w₀, es, hv, hp, ha, hes⟩ := ih hi hd
    exact ⟨w₀, es, hv, .call hp o budget, ha, hes⟩
  | @step c c' h hstep ih =>
    have hi' := (h.knows.has_iff hstep i).1 hi
    by_cases ha : c.world.Alive i
    · obtain ⟨_ | ⟨x, rest⟩, w⟩ := c
      · cases hstep
      obtain ⟨next, -, rfl, hm⟩ := Config.meets_of_step h.knows hi' hstep
      cases hm with
      | own _ hadv | foreign _ hadv => exact (hd (hadv.alive.trans ha)).elim
      | drops hhead hres =>
        subst hres
        exact (hd ha).elim
      | dies hhead hlast hframes hcore hpast =>
        subst hhead hlast
        obtain ⟨w₀, budget, hv, rfl⟩ := h.called
        exact ⟨w₀, [], hv, .step (.call .refl _ budget) hstep, ha, hpast, fun e he => by cases he⟩
    · obtain ⟨w₀, es, hv, hp, ha₀, hes, hdrop⟩ := ih hi' ha
      have hdead : (c.view i).alive = false :=
        Bool.eq_false_iff.2 fun h => ha (Config.alive_iff.1 h)
      obtain ⟨es', hes', hdrop'⟩ :=
        (Config.moves_of_step h.knows hi' hstep).past_of_dead (h.sound hi') hdead
      have hes' : c'.world.past i = es' ++ c.world.past i := hes'
      refine ⟨w₀, es' ++ es, hv, .step hp hstep, ha₀, by rw [hes', hes, List.append_assoc], ?_⟩
      intro e he
      exact (List.mem_append.1 he).elim (hdrop' e) (hdrop e)

end

end SagaMachine
