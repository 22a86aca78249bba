import SagaMachine.Proofs.Completion
import SagaMachine.Proofs.Decisions
import SagaMachine.Proofs.Pairing
import SagaMachine.Proofs.Tides

/-!
# END is a watershed

Once the bus has ended, no task that was created before takes an action from it any more. Its takes
are told END, or they are withdrawn; END is told to all races and `all`s around a take, then the
body of the task is dropped without another poll, and the task completes with unit when its attached
children are done. Tasks that are created later take from the bus as if nothing had happened.

Main statement: `Scenario.Visits.watershed`.
-/

namespace SagaMachine

/-! ## The outermost effect -/

section

variable {past past' : List Event} {t : TaskId} {x y : EffectId} {p : Option EffectId} {e : Effect}
  {d : Talk}

theorem Beneath.mono (h : Beneath past y x) (hsub : past ⊆ past') : Beneath past' y x := by
  induction h with
  | member h => exact .member (hsub h)
  | deeper _ h ih => exact ih.deeper (hsub h)

theorem Regular.suffix {later : List Event} (h : Regular (later ++ past)) : Regular past := by
  induction later with
  | nil => exact h
  | cons _ _ ih => cases h with | cons _ h => exact ih h

/-- Every effect is an effect of a body, or inside of one that the body of the same task asked for. -/
theorem Regular.root (h : Regular past) (hm : .triggered t x p e ∈ past) :
    ∃ y e', (y = x ∨ Beneath past y x) ∧ .triggered t y none e' ∈ past := by
  induction h generalizing x p e with
  | nil => cases hm
  | @cons ev past hfits hp ih =>
    have hsub : past ⊆ ev :: past := List.subset_cons_self ..
    rcases List.mem_cons.1 hm with rfl | hm
    · cases p with
      | none => exact ⟨x, e, Or.inl rfl, List.mem_cons_self⟩
      | some q =>
        obtain ⟨p', e', hq⟩ := hfits.2 q rfl
        obtain ⟨y, e₁, hy, ht⟩ := ih hq
        refine ⟨y, e₁, Or.inr ?_, hsub ht⟩
        rcases hy with rfl | hy
        · exact .member List.mem_cons_self
        · exact (hy.mono hsub).deeper List.mem_cons_self
    · obtain ⟨y, e₁, hy, ht⟩ := ih hm
      exact ⟨y, e₁, hy.imp_right (·.mono hsub), hsub ht⟩

/-! ## No poll while an effect is pending -/

/-- Until the effect that a body asked for settles, the body waits for it, or was dropped. -/
theorem Dialogue.waits (h : Dialogue t past d) (hm : .triggered t y none e ∈ past)
    (hn : ∀ signal, .settled y signal ∉ past) : d.phase = .asking y ∨ d.phase.IsClosed := by
  induction h with
  | start => cases hm
  | @event past d d' ev hd hs ih =>
    have hold : .triggered t y none e ∈ past → d.phase = .asking y ∨ d.phase.IsClosed := fun hm =>
      ih hm fun signal hm => hn signal (List.mem_cons_of_mem _ hm)
    rcases List.mem_cons.1 hm with rfl | hm
    · cases hs with
      | asks => exact Or.inl rfl
      | ignores h => exact absurd rfl (h rfl)
    · have hphase := hold hm
      cases hs with
      | first h | asks h | answers h =>
        rcases hphase with hp | hp <;> rw [h] at hp
        · cases hp
        · exact hp.elim
      | @settles z signal h =>
        rcases hphase with hp | hp
        · rw [h] at hp
          cases hp
          exact absurd List.mem_cons_self (hn signal)
        · rw [h] at hp
          exact hp.elim
      | ends | tears => exact Or.inr trivial
      | ignores => exact hphase

/-- A body is not polled while it waits, nor after it was dropped. -/
theorem Talk.Step.not_polled {d' : Talk} {a : Option Answer} (h : d.Step t (.polled t a) d')
    (hp : d.phase = .asking y ∨ d.phase.IsClosed) : False := by
  cases h with
  | first h | answers h =>
    rcases hp with hp | hp <;> rw [h] at hp
    · cases hp
    · exact hp.elim
  | ignores h => exact h rfl

theorem Dialogue.event_of_cons {ev : Event} (h : Dialogue t (ev :: past) d) :
    ∃ d₀, Dialogue t past d₀ ∧ d₀.Step t ev d := by
  cases h with
  | event h hs => exact ⟨_, h, hs⟩

/-- The body is polled again only when the effect that it asked for has settled. -/
theorem Dialogue.settled_of_polled {later : List Event} {a : Option Answer}
    (h : Dialogue t (later ++ .polled t a :: past) d) (hm : .triggered t y none e ∈ past) :
    ∃ signal, .settled y signal ∈ past := by
  by_contra hn
  push Not at hn
  obtain ⟨d₁, h₁⟩ := h.earlier
  obtain ⟨d₀, h₀, hs⟩ := h₁.event_of_cons
  exact hs.not_polled (h₀.waits hm hn)

/-- An effect comes to its end once. -/
theorem Regular.end_unique (h : Regular past) {ev ev' : Event} (hm : ev ∈ past) (hm' : ev' ∈ past)
    (hx : ev.ends? = some x) (hx' : ev'.ends? = some x) : ev = ev' := by
  induction h with
  | nil => cases hm
  | @cons ev₀ past hfits _ ih =>
    have hnot : ∀ {ev₁ : Event}, ev₀.ends? = some x → ev₁ ∈ past → ev₁.ends? ≠ some x := by
      intro ev₁ h₀ h₁ he
      have hx : x ∈ endedIn past := List.mem_filterMap.2 ⟨ev₁, h₁, he⟩
      cases ev₀ with
      | settled | withdrawn =>
        cases h₀
        exact hfits.2 hx
      | _ => cases h₀
    rcases List.mem_cons.1 hm with rfl | hold
    · rcases List.mem_cons.1 hm' with rfl | hold'
      · rfl
      · exact absurd hx' (hnot hx hold')
    · rcases List.mem_cons.1 hm' with rfl | hold'
      · exact absurd hx (hnot hx' hold)
      · exact ih hold hold'

/-- After an effect of a task has ended the body is not polled, unless what it asked for settles
with something else. -/
theorem Dialogue.not_polled (h : Dialogue t past d) (hr : Regular past)
    {late early : List Event} (hpast : past = late ++ .settled x .ended :: early)
    (hroot : .triggered t y none e ∈ early)
    (hy : ∀ signal, .settled y signal ∈ past → signal = .ended) : ∀ a, .polled t a ∉ late := by
  rintro a ha
  obtain ⟨l₁, l₂, rfl⟩ := List.append_of_mem ha
  have hsplit : past = l₁ ++ .polled t a :: (l₂ ++ .settled x .ended :: early) := by
    rw [hpast, List.append_assoc, List.cons_append]
  have hmem : .triggered t y none e ∈ l₂ ++ .settled x .ended :: early :=
    List.mem_append_right _ (List.mem_cons_of_mem _ hroot)
  obtain ⟨signal, hs⟩ := (hsplit ▸ h).settled_of_polled hmem
  have hsub : ∀ ev ∈ l₂ ++ .settled x .ended :: early, ev ∈ past := fun ev hev =>
    hsplit ▸ List.mem_append_right _ (List.mem_cons_of_mem _ hev)
  obtain rfl := hy signal (hsub _ hs)
  obtain ⟨m₁, m₂, hm⟩ := List.append_of_mem hs
  have hpast' : past = (l₁ ++ .polled t a :: m₁) ++ .settled y .ended :: m₂ := by
    rw [hsplit, hm, List.append_assoc, List.cons_append]
  have hfits := (hpast' ▸ hr).split
  obtain ⟨u, p', e', hu⟩ := mem_triggeredIn.1 hfits.1
  obtain ⟨rfl, rfl, rfl⟩ := hr.triggered_once
    (hpast' ▸ List.mem_append_right _ (List.mem_cons_of_mem _ hu)) (hsub _ hmem)
  exact ((hpast' ▸ h).ended hu).1 a (List.mem_append_right _ List.mem_cons_self)

end

/-! ## Tasks that are told END -/

section

variable {s : Scenario} {c c' c₀ : Config} {w : World} {i : MiddlewareId} {r : EffectRef}
  {t m : TaskId} {x y : EffectId} {e : Effect} {f : Instr} {rest : List Instr} {v : Value}

/-- The body of a task came to its end with an effect that ended, or is just told so. -/
structure Scenario.Told (s : Scenario) (i : MiddlewareId) (t : TaskId) (c : Config) : Prop where
  ends : (∃ c₀, s.Visits c₀ ∧ c₀.Precedes c ∧ c₀.Ends i t .unit) ∨
    (∃ b, .begun ⟨i, t⟩ b [] (.immediate .ended) ∈ c.todo) ∨ c.world.Struck ⟨i, t, ""⟩
  returned : ∀ {v}, .returned ⟨i, t⟩ v ∈ c.todo → v = .unit
  holds : ∀ {q v}, (c.world.core i).posture t = some q → q.result = some v → v = .unit
  finished : ∀ {v}, .taskFinished t (.done v) ∈ c.world.past i → v = .unit

namespace Scenario.Visits

/-- A task whose step is under way, and that is not live, was cancelled. -/
theorem struck_of_turn (h : s.Visits c) (ha : c.world.Alive i) (hf : f ∈ framesOf i c.todo)
    (ht : f.turn? = some t) (hl : ¬ (c.world.core i).Live t) : c.world.Struck ⟨i, t, ""⟩ := by
  have hs := h.sound ha.has
  have hcur := hs.framed.stack.turn_unique hf ht
  obtain ⟨-, p, hp⟩ := hs.orderly.driver hcur
  have hkeeps := h.keeps ⟨i, t, ""⟩ ha
  rcases (h.judged ha.has).current t hcur with hlive | ⟨-, hstands⟩
  · exact absurd hlive hl
  · exact ⟨hkeeps.present p hp, Or.inl ((hkeeps.statusOf ha hp).trans (hstands p hp))⟩

/-- What is carried out at once is first among what is left to be done. -/
theorem head_of_urgent (h : s.Visits c) (hf : f ∈ c.todo) (hu : f.Urgent) :
    ∃ rest, c.todo = f :: rest := by
  have hlater := h.knows.later
  cases hd : c.todo with
  | nil =>
    rw [hd] at hf
    cases hf
  | cons x rest =>
    rw [hd] at hf hlater
    rcases List.mem_cons.1 hf with rfl | hf
    · exact ⟨rest, rfl⟩
    · exact absurd hu (hlater f hf).not_urgent

/-- The effect that a body asked for was triggered before it settled. -/
theorem split_of_ended (h : s.Visits c) (hi : c.world.Has i)
    (ht : .triggered t y none e ∈ c.world.past i) (hy : .settled y .ended ∈ c.world.past i) :
    ∃ late early, c.world.past i = late ++ .settled y .ended :: early ∧
      .triggered t y none e ∈ early := by
  obtain ⟨late, early, hpast⟩ := List.append_of_mem hy
  have hr := (h.kept hi).regular
  have hfits := (show Regular (late ++ .settled y .ended :: early) from hpast ▸ hr).split
  obtain ⟨u, p', e', hu⟩ := mem_triggeredIn.1 hfits.1
  have hu' : .triggered u y p' e' ∈ c.world.past i :=
    hpast ▸ List.mem_append_right _ (List.mem_cons_of_mem _ hu)
  obtain ⟨rfl, rfl, rfl⟩ := hr.triggered_once hu' ht
  exact ⟨late, early, hpast, hu⟩

/-- A body whose last effect ended is not ended by anything else. -/
theorem unit_of_ends (h : s.Visits c) (hi : c.world.Has i)
    (ht : .triggered t y none e ∈ c.world.past i) (hy : .settled y .ended ∈ c.world.past i)
    (he : c.Ends i t v) : v = .unit := by
  obtain ⟨b, rest, he | ⟨hv, -⟩⟩ := he
  · obtain ⟨todo, w⟩ := c
    obtain rfl : todo = _ := he
    have ha := h.alive_of_owner (i := i) rfl
    obtain ⟨d, hd⟩ := h.conversation hi t
    obtain ⟨-, hclosed, -, hvoices⟩ := (hd.fits (Config.alive_iff.2 ha)).turn
      (.leave ⟨i, t⟩ b (.finished (.ok v))) (by simp [Config.view, framesOf, Instr.owner?]) rfl
    obtain ⟨late, early, hpast, hearly⟩ := h.split_of_ended hi ht hy
    have hdial : Dialogue t (late ++ .settled y .ended :: early) d := hpast ▸ hd.dialogue
    rcases (hdial.ended hearly).2 with hp | ⟨hp, -⟩
    · cases hp.symm.trans hvoices
    · exact absurd hp hclosed
  · exact hv

/-- A task whose step is under way holds no value yet, and is not recorded as completed. -/
theorem unheld_of_turn (h : s.Visits c) (ha : c.world.Alive i) (hf : f ∈ c.todo) (hu : f.Urgent)
    (ho : f.owner? = some i) (ht : f.turn? = some t) : (∀ v, .returned ⟨i, t⟩ v ∉ c.todo) ∧
      (∀ q, (c.world.core i).posture t = some q → q.result = none) ∧
      ∀ o, .taskFinished t o ∉ c.world.past i := by
  obtain ⟨rest, hrest⟩ := h.head_of_urgent hf hu
  have hs := h.sound ha.has
  have hF : framesOf i c.todo = f :: framesOf i rest := by simp [hrest, framesOf, ho]
  obtain ⟨hcur, hdrain⟩ := (show Stack i (c.world.core i).current (f :: framesOf i rest) from
    hF ▸ hs.framed.stack).of_turn ht
  obtain ⟨⟨-, hafoot⟩, p, hp⟩ := hs.orderly.driver hcur
  refine ⟨fun v hm => ?_, fun q hq => (hafoot q hq).2.1, fun o hm => ?_⟩
  · have hm : .returned ⟨i, t⟩ v ∈ framesOf i c.todo :=
      List.mem_filter.2 ⟨hm, by simp [Instr.owner?]⟩
    rw [hF, hdrain] at hm
    rcases List.mem_cons.1 hm with rfl | hm
    · exact hu
    · cases List.mem_singleton.1 hm
  · have hkeeps := h.keeps ⟨i, t, ""⟩ ha
    have hverdict : o ∈ c.world.verdicts ⟨i, t, ""⟩ :=
      List.mem_filterMap.2 ⟨_, hm, by simp [Event.verdictOf?, Event.verdict?]⟩
    rw [hkeeps.verdicts, Option.mem_toList] at hverdict
    cases (hkeeps.absent o hverdict).1.symm.trans hp

/-- A body that goes on with END comes to its end, unless its task was cancelled. -/
theorem ends_of_begun (h : s.Visits c) (hi : c.world.Has i) (hc : c.step = some c')
    (ha : c'.world.Alive i) {b : Body} (hb : .begun ⟨i, t⟩ b [] (.immediate .ended) ∈ c.todo) :
    c'.Ends i t .unit ∨ c'.world.Struck ⟨i, t, ""⟩ := by
  obtain ⟨rest, hrest⟩ := h.head_of_urgent hb trivial
  by_cases hl : (c.world.core i).Live t
  · obtain ⟨todo, w⟩ := c
    obtain rfl : todo = _ := hrest
    have hlive : w.isHalted i t = false := by
      simpa using fun hh => World.isHalted_iff.1 hh hl
    have hstep : c' = ⟨.leave ⟨i, t⟩ b .ended :: rest, w⟩ := by
      simpa [Config.step, Instr.exec, World.execBegun, World.resumeBody, hlive,
        Config.followedBy] using hc.symm
    exact Or.inl ⟨b, rest, Or.inr ⟨rfl, by rw [hstep]⟩⟩
  · have hs := h.struck_of_turn (h.alive_of_step hi hc ha)
      (List.mem_filter.2 ⟨hb, by simp [Instr.owner?]⟩) rfl hl
    exact Or.inr (h.struck_step hi hc ha hs)

/-- A task is told END where the effect ends that its body asked for. -/
theorem told_of_ended (h : s.Visits c) (ha : c.world.Alive i)
    (ht : .triggered t y none e ∈ c.world.past i) (hy : .settled y .ended ∈ c.world.past i) :
    s.Told i t c := by
  induction h with
  | start h =>
    rw [World.past, (setUp_fresh h).journal] at hy
    cases hy
  | @call w h o budget ih =>
    obtain ⟨hends, -, hholds, hfinished⟩ := ih ha ht hy
    refine ⟨?_, fun hm => ?_, hholds, hfinished⟩
    · rcases hends with ⟨c₀, h₀, hp, he⟩ | ⟨b, hb⟩ | hs
      · exact Or.inl ⟨c₀, h₀, hp.call o budget, he⟩
      · cases hb
      · exact Or.inr (Or.inr hs)
    · cases List.mem_singleton.1 hm
  | @step c c' h hc ih =>
    have hi := (h.knows.has_iff hc i).1 ha.has
    by_cases hold : .settled y .ended ∈ c.world.past i
    · have ht₀ : .triggered t y none e ∈ c.world.past i := by
        obtain ⟨es, hes⟩ := h.past_precedes hi (.step .refl hc)
        obtain ⟨u, p', e', hu⟩ := mem_triggeredIn.1
          ((h.kept hi).regular.triggered_of_ended (List.mem_filterMap.2 ⟨_, hold, rfl⟩))
        obtain ⟨rfl, rfl, rfl⟩ := ((h.step hc).kept ha.has).regular.triggered_once
          (hes ▸ List.mem_append_right _ hu) ht
        exact hu
      obtain ⟨hends, hreturned, hholds, hfinished⟩ := ih (h.alive_of_step hi hc ha) ht₀ hold
      have hunit : ∀ {v}, c.Ends i t v → v = .unit := h.unit_of_ends hi ht₀ hold
      refine ⟨?_, fun hm => ?_, fun hq hv => ?_, fun hm => ?_⟩
      · rcases hends with ⟨c₀, h₀, hp, he⟩ | ⟨b, hb⟩ | hs
        · exact Or.inl ⟨c₀, h₀, hp.step hc, he⟩
        · rcases h.ends_of_begun hi hc ha hb with he | hs
          · exact Or.inl ⟨c', h.step hc, .refl, he⟩
          · exact Or.inr (Or.inr hs)
        · exact Or.inr (Or.inr (h.struck_step hi hc ha hs))
      · exact (h.returned_step hi hc hm).elim hreturned hunit
      · rcases h.result_step hi hc hq hv with ⟨q₀, hq₀, hv₀⟩ | hm
        · exact hholds hq₀ hv₀
        · exact hreturned hm
      · obtain ⟨l₁, l₂, hl⟩ := List.append_of_mem hm
        rcases h.finished_step hi hc hl with ⟨l, hl⟩ | ⟨-, q, hq, hv⟩
        · exact hfinished (hl ▸ List.mem_append_right _ List.mem_cons_self)
        · exact hholds hq hv
    · obtain ⟨G, es, hnew, hG, hann⟩ := h.announces hc ha rfl hold hy
      have h' := h.step hc
      have htold : ∀ {f : Instr}, f ∈ c'.todo → f.Urgent → f.owner? = some i → f.turn? = some t →
          ((∃ c₀, s.Visits c₀ ∧ c₀.Precedes c' ∧ c₀.Ends i t .unit) ∨
            (∃ b, .begun ⟨i, t⟩ b [] (.immediate .ended) ∈ c'.todo) ∨
            c'.world.Struck ⟨i, t, ""⟩) → s.Told i t c' := by
        intro f hf hu ho hturn hends
        obtain ⟨hreturned, hnone, hfinished⟩ := h'.unheld_of_turn ha hf hu ho hturn
        refine ⟨hends, fun hm => absurd hm (hreturned _), fun hq hv => ?_,
          fun hm => absurd hm (hfinished _)⟩
        cases (hnone _ hq).symm.trans hv
      obtain ⟨b, hb | hb⟩ := hann.roots hnew ht
      · exact htold (hG _ hb) trivial rfl rfl (Or.inr (Or.inl ⟨b, hG _ hb⟩))
      · obtain ⟨rest, hrest⟩ := h'.head_of_urgent (hG _ hb) trivial
        exact htold (hG _ hb) trivial rfl rfl
          (Or.inl ⟨c', h', .refl, b, rest, Or.inr ⟨rfl, hrest⟩⟩)

/-- A task whose body is at its end was created. -/
theorem created_of_ends (h : s.Visits c) (ha : c.world.Alive i) (he : c.Ends i t v) :
    c.world.Created ⟨i, t, ""⟩ := by
  obtain ⟨f, hf, ho, ht⟩ : ∃ f ∈ c.todo, f.owner? = some i ∧ f.turn? = some t := by
    obtain ⟨b, rest, he | ⟨-, he⟩⟩ := he <;> exact ⟨_, he ▸ List.mem_cons_self, rfl, rfl⟩
  have hs := h.sound ha.has
  obtain ⟨-, p, hp⟩ := hs.orderly.driver
    (hs.framed.stack.turn_unique (List.mem_filter.2 ⟨hf, by simp [ho]⟩) ht)
  exact (h.keeps ⟨i, t, ""⟩ ha).present p hp

/-- Where the loop of the driver is next, or nothing at all, no step is under way. -/
theorem idle_of_loop (h : s.Visits c) (ha : c.world.Alive i)
    (hc : c.todo = [] ∨ ∃ rest, c.todo = .drain i :: rest) :
    (c.world.core i).current = none ∧ ∀ f ∈ framesOf i c.todo, f = .drain i := by
  have hs : Stack i (c.world.core i).current (framesOf i c.todo) := (h.sound ha.has).framed.stack
  have hnone : ∀ {d}, Stack i d [] → d = none := fun h => by cases h; rfl
  rcases hc with hc | ⟨rest, hc⟩
  · have hF : framesOf i c.todo = [] := by rw [hc]; rfl
    rw [hF] at hs ⊢
    exact ⟨hnone hs, fun f hf => absurd hf List.not_mem_nil⟩
  · have hF : framesOf i c.todo = .drain i :: framesOf i rest := by
      rw [hc]
      simp [framesOf, Instr.owner?]
    rw [hF] at hs ⊢
    obtain ⟨hcur, hrest⟩ := hs.of_drain
    exact ⟨hcur, by simp [hrest]⟩

/-- A task that was told END completes with unit, as soon as its attached children are gone. -/
theorem outcome_of_told (h : s.Visits c) (ha : c.world.Alive i) (hT : s.Told i t c)
    (hc : c.todo = [] ∨ ∃ rest, c.todo = .drain i :: rest) :
    c.world.Struck ⟨i, t, ""⟩ ∨ c.world.outcomeOf ⟨i, t, ""⟩ = some (.done .unit) ∨
      (∃ q, (c.world.core i).posture t = some q ∧ q.result = some .unit) ∧
        ∃ u, c.world.IsChild i u t := by
  obtain ⟨hcur, hF⟩ := h.idle_of_loop ha hc
  have hframe : ∀ {f : Instr}, f ∈ c.todo → f.owner? = some i → f = .drain i := fun hf ho =>
    hF _ (List.mem_filter.2 ⟨hf, by simp [ho]⟩)
  obtain ⟨⟨c₀, h₀, hp, he⟩ | ⟨b, hb⟩ | hs, -, -, hfinished⟩ := hT
  · have ha₀ := h₀.alive_of_precedes hp ha
    obtain ⟨hcreated, -⟩ := h₀.final (h₀.created_of_ends ha₀ he) hp ha
    have hkeeps := h.keeps ⟨i, t, ""⟩ ha
    obtain ⟨-, hholds⟩ := (h₀.holds he hp).2 ha
    by_cases hl : (c.world.core i).Live t
    · rcases hholds with hn | ⟨b, rest, he' | ⟨-, he'⟩⟩ | hm | hq
      · exact absurd hl hn
      · cases hframe (he' ▸ List.mem_cons_self) rfl
      · cases hframe (he' ▸ List.mem_cons_self) rfl
      · cases hframe hm rfl
      · exact Or.inr (Or.inr ⟨hq, h₀.child_of_loop he hp hl hc⟩)
    · rcases hkeeps.listed hcreated with ⟨p, hposture⟩ | ⟨o, ho⟩
      · have hterm : p.status.isTerminal = true := by
          by_contra hn
          exact hl ⟨p, hposture, by simpa using hn⟩
        rcases ((h.sound ha.has).orderly.tasks hposture).terminal hterm with hd | ⟨f, hf, hm⟩
        · cases hcur.symm.trans hd
        · rw [hF f hf] at hm
          cases hm
      · have hstatus := World.statusOf_of_outcome ho
        cases o with
        | done v =>
          have hverdict : .done v ∈ c.world.verdicts ⟨i, t, ""⟩ := by
            rw [hkeeps.verdicts, ho]
            exact List.mem_singleton.2 rfl
          obtain ⟨ev, hev, hv⟩ := List.mem_filterMap.1 hverdict
          cases ev with
          | taskFinished u o =>
            simp only [Event.verdictOf?, Event.verdict?, Option.bind_some,
              Option.ite_none_right_eq_some, Option.some.injEq] at hv
            obtain ⟨rfl, rfl⟩ := hv
            rw [hfinished hev] at ho
            exact Or.inr (Or.inl ho)
          | _ => cases hv
        | cancelled => exact Or.inl ⟨hcreated, Or.inl hstatus⟩
        | aborted f => exact Or.inl ⟨hcreated, Or.inr hstatus⟩
  · cases hframe hb rfl
  · exact Or.inl hs

end Scenario.Visits

/-! ## The watershed -/

/-- A take was withdrawn: a combinator around it was decided, or its task cancelled or aborted. -/
def World.CutShort (w : World) (t : TaskId) (r : EffectRef) : Prop :=
  .withdrawn r.effect ∈ w.past r.mw ∧
    (Overtaken (w.past r.mw) r.effect ∨ w.Struck ⟨r.mw, t, ""⟩)

/-- What becomes of a take from the bus. -/
theorem Scenario.Visits.fate_of_busTake (h : s.Visits c) (ha : c.world.Alive r.mw)
    (hr : c.world.BusTake t r) : (∃ signal, .settled r.effect signal ∈ c.world.past r.mw) ∨
      c.world.CutShort t r ∨ c.world.OnBus r ∨ ∃ signal, c.Brings r signal := by
  obtain ⟨p, htake⟩ := hr.takesFrom
  rcases h.fate_of_issued ha htake trivial with hs | hw | ⟨u, k, hk⟩
  · exact Or.inl hs
  · refine Or.inr (Or.inl ⟨hw, (h.overtaken_or_struck ha hw).imp_right ?_⟩)
    rintro ⟨u, q, e, hu, hstruck⟩
    obtain ⟨-, q', p', ht⟩ := hr
    obtain ⟨rfl, -⟩ := (h.kept ha.has).regular.triggered_once hu ht
    exact hstruck
  · obtain ⟨id, rfl⟩ := h.source_of_take ha htake hk
    rcases (h.wired.fits ha).served (fun _ hd => by cases hd) hk with hreg | howes
    · exact Or.inr (Or.inr (Or.inl hreg.onBus))
    · exact Or.inr (Or.inr (Or.inr (h.brings_of_owes htake trivial howes)))

/-- The end of the bus of a middleware is carried out next. -/
def Config.EndsBus (c : Config) (i : MiddlewareId) : Prop :=
  c.world.Alive i ∧ ∃ x rest, c.todo = x :: rest ∧ x.EndsBus i ∧
    (x.owner? = none → (c.world.engine i).driving = false)

/-- What holds from then on when the bus of a middleware ended while the next task was `m`. -/
structure Config.Watershed (c : Config) (i : MiddlewareId) (m : TaskId) (before : List Event) :
    Prop where
  /-- No task below the mark waits on the bus. -/
  takers : ∀ b ∈ (c.world.engine i).bus.takers, m ≤ b.owner
  /-- A take below the mark that was pending, or comes later, settles with END or is withdrawn. -/
  below : ∀ {t x}, t < m → c.world.BusTake t ⟨i, x⟩ → x ∉ endedIn before →
    (∀ signal, .settled x signal ∈ c.world.past i → signal = .ended) ∧
      (.settled x .ended ∈ c.world.past i ∨ c.world.CutShort t ⟨i, x⟩ ∨
        c.Brings ⟨i, x⟩ .ended ∧ c.todo ≠ [])
  /-- END is told to whatever is around a take that ended, but for what is just being started. -/
  around : ∀ {t x y}, c.world.BusTake t ⟨i, x⟩ → .settled x .ended ∈ c.world.past i →
    Beneath (c.world.past i) y x → .settled y .ended ∈ c.world.past i ∨
      handsOf (framesOf i c.todo) ≠ [] ∧ y ∉ endedIn (c.world.past i)
  /-- The body is not polled after that, and it is dropped. -/
  body : ∀ {t x late early}, c.world.BusTake t ⟨i, x⟩ →
    c.world.past i = late ++ .settled x .ended :: early →
      (∀ a, .polled t a ∉ late) ∧ (c.todo = [] → .bodyDropped t ∈ c.world.past i)
  /-- Between two jobs the task is struck, or it has completed with unit, or it waits for a child. -/
  outcome : ∀ {t x}, c.world.BusTake t ⟨i, x⟩ → .settled x .ended ∈ c.world.past i →
    (c.todo = [] ∨ ∃ rest, c.todo = .drain i :: rest) →
      c.world.Struck ⟨i, t, ""⟩ ∨ c.world.outcomeOf ⟨i, t, ""⟩ = some (.done .unit) ∨
        (∃ q, (c.world.core i).posture t = some q ∧ q.result = some .unit) ∧
          ∃ u, c.world.IsChild i u t
  /-- To a task that no mark is above END is not told: its takes wait, and get actions. -/
  above : ∀ {t}, (∀ n ∈ c.world.marks i, n ≤ t) → (c.world.engine i).bus.hasEnded t = false ∧
    ∀ {x}, c.world.BusTake t ⟨i, x⟩ →
      .settled x .ended ∉ c.world.past i ∧ ¬ c.Brings ⟨i, x⟩ .ended ∧
        ((∃ a, .settled x (.value (.action a)) ∈ c.world.past i) ∨ c.world.CutShort t ⟨i, x⟩ ∨
          c.world.OnBus ⟨i, x⟩ ∨ ∃ a, c.Brings ⟨i, x⟩ (.value (.action a)))
  /-- The watermark is never below the mark again, so whoever has seen the end sees it still. -/
  watermark : (∃ n, (c.world.engine i).bus.watermark = some n ∧ m ≤ n) ∧
    ∀ t < m, (c.world.engine i).bus.hasEnded t = true

/-- Around a take that has ended an effect was triggered by the body itself. -/
theorem Scenario.Visits.root_of_ended (h : s.Visits c) (ha : c.world.Alive i)
    (hr : c.world.BusTake t ⟨i, x⟩) {late early : List Event}
    (hpast : c.world.past i = late ++ .settled x .ended :: early) :
    ∃ y e, (y = x ∨ Beneath (c.world.past i) y x) ∧ .triggered t y none e ∈ early := by
  have hr' := (h.kept ha.has).regular
  have hsub : early ⊆ c.world.past i := fun ev hm =>
    hpast ▸ List.mem_append_right _ (List.mem_cons_of_mem _ hm)
  have hregular : Regular (late ++ .settled x .ended :: early) := hpast ▸ hr'
  obtain ⟨u, q, e, hu⟩ := mem_triggeredIn.1 hregular.split.1
  obtain ⟨-, q', p, ht⟩ := hr
  obtain ⟨rfl, -⟩ := hr'.triggered_once (hsub hu) ht
  have hearly : Regular early := by
    cases hregular.suffix with | cons _ h => exact h
  obtain ⟨y, e', hy, hroot⟩ := hearly.root hu
  exact ⟨y, e', hy.imp_right (·.mono hsub), hroot⟩

/-- Around a take that has ended nothing settles but with END. -/
theorem Scenario.Visits.ended_of_settled (h : s.Visits c) (ha : c.world.Alive i)
    (hx : .settled x .ended ∈ c.world.past i) (hy : y = x ∨ Beneath (c.world.past i) y x)
    {signal : Signal} (hs : .settled y signal ∈ c.world.past i) : signal = .ended := by
  have hregular := (h.kept ha.has).regular
  rcases hy with rfl | hy
  · cases hregular.end_unique hs hx rfl rfl
    rfl
  · rcases h.ended_around ha hx hy with he | ⟨-, hn⟩
    · cases hregular.end_unique hs he rfl rfl
      rfl
    · exact (hn (List.mem_filterMap.2 ⟨_, hs, rfl⟩)).elim

/-- Between two jobs the body has been told END as well. -/
theorem Scenario.Visits.root_of_loop (h : s.Visits c) (ha : c.world.Alive i)
    (hx : .settled x .ended ∈ c.world.past i) (hy : y = x ∨ Beneath (c.world.past i) y x)
    (hc : c.todo = [] ∨ ∃ rest, c.todo = .drain i :: rest) :
    .settled y .ended ∈ c.world.past i := by
  rcases hy with rfl | hy
  · exact hx
  · refine (h.ended_around ha hx hy).resolve_right fun hn => hn.1 ?_
    refine List.filterMap_eq_nil_iff.2 fun f hf => ?_
    rw [(h.idle_of_loop ha hc).2 f hf]
    rfl

/-- A body is not polled after END was told to a take of its task, and it is dropped. -/
theorem Scenario.Visits.body_of_ended (h : s.Visits c) (ha : c.world.Alive i)
    (hr : c.world.BusTake t ⟨i, x⟩) {late early : List Event}
    (hpast : c.world.past i = late ++ .settled x .ended :: early) :
    (∀ a, .polled t a ∉ late) ∧ (c.todo = [] → .bodyDropped t ∈ c.world.past i) := by
  obtain ⟨y, e, hy, hroot⟩ := h.root_of_ended ha hr hpast
  have hx : .settled x .ended ∈ c.world.past i := hpast ▸ List.mem_append_right _ List.mem_cons_self
  obtain ⟨d, hd, hrest⟩ := h.dialogue ha.has t
  refine ⟨hd.not_polled (h.kept ha.has).regular hpast hroot fun signal =>
    h.ended_of_settled ha hx hy, fun hc => ?_⟩
  have hroot' : .triggered t y none e ∈ c.world.past i :=
    hpast ▸ List.mem_append_right _ (List.mem_cons_of_mem _ hroot)
  obtain ⟨late', early', hpast', hearly⟩ :=
    h.split_of_ended ha.has hroot' (h.root_of_loop ha hx hy (Or.inl hc))
  rw [hpast'] at hd ⊢
  exact List.mem_append_left _ (hd.dropped hearly (hrest hc))

/-- No effect comes to its end where the bus ends. -/
theorem Scenario.Visits.unended_of_ends (h : s.Visits c) (he : c.EndsBus i) (hc : c.step = some c')
    (hx : x ∉ endedIn (c.world.past i)) : x ∉ endedIn (c'.world.past i) := by
  obtain ⟨ha, x₀, rest, htodo, hx₀, -⟩ := he
  obtain ⟨todo, w⟩ := c
  obtain rfl : todo = _ := htodo
  intro hm
  obtain ⟨ev, hev, hends⟩ := List.mem_filterMap.1 hm
  have hn : ev ∉ w.past i := fun hm => hx (List.mem_filterMap.2 ⟨ev, hm, hends⟩)
  obtain ⟨G, D, es, ho, hdoes, -, -, -, hes⟩ := h.own_of_event ha.has hc (Or.inr hends) hn hev
  cases x₀ with
  | perform j job =>
    cases job with
    | errand e =>
      generalize c'.world.core i = k' at hdoes
      cases hdoes with
      | errand hG hs hq =>
        have hquiet := hq _ hes
        cases ev with
        | settled | withdrawn => exact hquiet
        | _ => cases hends
    | reaction => exact hx₀
  | op => cases ho
  | _ => exact hx₀

/-- A take below a mark that came to its end after the mark, if at all, is told nothing but END. -/
theorem Scenario.Visits.take_below (h : s.Visits c) (ha : c.world.Alive i)
    (hr : c.world.BusTake t ⟨i, x⟩) {m : TaskId} {es : List Event}
    (hes : c.world.past i = es ++ w.past i) (hm : m ∈ w.marks i) (ht : t < m)
    (hx : x ∉ endedIn (w.past i)) :
    (∀ signal, .settled x signal ∈ c.world.past i → signal = .ended) ∧
      (.settled x .ended ∈ c.world.past i ∨ c.world.CutShort t ⟨i, x⟩ ∨
        c.Brings ⟨i, x⟩ .ended ∧ c.todo ≠ []) := by
  obtain ⟨hF, hL⟩ := h.afloat ha hr
  have hmark : m ∈ c.world.marks i := by
    rw [World.mem_marks] at hm ⊢
    exact hes ▸ List.mem_append_right _ hm
  have hended : ∀ signal, .settled x signal ∈ c.world.past i → signal = .ended := by
    intro signal hs
    cases signal with
    | value v =>
      have hs' : .settled x (.value v) ∈ es := by
        rcases List.mem_append.1 (hes ▸ hs : _ ∈ es ++ w.past i) with hs | hs
        · exact hs
        · exact (hx (List.mem_filterMap.2 ⟨_, hs, rfl⟩)).elim
      obtain ⟨l₁, l₂, rfl⟩ := List.append_of_mem hs'
      have hsplit : c.world.past i = l₁ ++ .settled x (.value v) :: (l₂ ++ w.past i) := by
        rw [hes, List.append_assoc, List.cons_append]
      exact absurd ((hL.action hsplit).2 _ (List.mem_append_right _ (World.mem_marks.1 hm)))
        (Nat.not_le_of_lt ht)
    | fault f => exact absurd hs hL.fault
    | ended => rfl
  refine ⟨hended, ?_⟩
  rcases h.fate_of_busTake ha hr with ⟨signal, hs⟩ | hcut | hb | ⟨signal, hb⟩
  · exact Or.inl (hended signal hs ▸ hs)
  · exact Or.inr (Or.inl hcut)
  · exact absurd (hF.onBus hb _ hmark) (Nat.not_le_of_lt ht)
  · cases signal with
    | value v => exact absurd ((hF.action hb).2 _ hmark) (Nat.not_le_of_lt ht)
    | fault f => exact absurd hb hF.fault
    | ended =>
      refine Or.inr (Or.inr ⟨hb, fun hc => ?_⟩)
      obtain ⟨todo, w⟩ := c
      obtain rfl : todo = [] := hc
      exact h.owes_nil ha.has hb.owes

/-- A take that no mark is above is told nothing but actions. -/
theorem Scenario.Visits.take_above (h : s.Visits c) (ha : c.world.Alive i)
    (hr : c.world.BusTake t ⟨i, x⟩) (hall : ∀ n ∈ c.world.marks i, n ≤ t) :
    .settled x .ended ∉ c.world.past i ∧ ¬ c.Brings ⟨i, x⟩ .ended ∧
      ((∃ a, .settled x (.value (.action a)) ∈ c.world.past i) ∨ c.world.CutShort t ⟨i, x⟩ ∨
        c.world.OnBus ⟨i, x⟩ ∨ ∃ a, c.Brings ⟨i, x⟩ (.value (.action a))) := by
  obtain ⟨hF, hL⟩ := h.afloat ha hr
  have hnone : ¬ ∃ n ∈ c.world.marks i, t < n := fun ⟨n, hn, hlt⟩ =>
    Nat.not_le_of_lt hlt (hall n hn)
  refine ⟨fun hs => hnone (hL.ended hs), fun hb => hnone (hF.ended hb), ?_⟩
  rcases h.fate_of_busTake ha hr with ⟨signal, hs⟩ | hcut | hb | ⟨signal, hb⟩
  · cases signal with
    | value v =>
      obtain ⟨l₁, l₂, hl⟩ := List.append_of_mem hs
      obtain ⟨⟨a, rfl⟩, -⟩ := hL.action hl
      exact Or.inl ⟨a, hs⟩
    | fault f => exact absurd hs hL.fault
    | ended => exact absurd (hL.ended hs) hnone
  · exact Or.inr (Or.inl hcut)
  · exact Or.inr (Or.inr (Or.inl hb))
  · cases signal with
    | value v =>
      obtain ⟨⟨a, rfl⟩, -⟩ := hF.action hb
      exact Or.inr (Or.inr (Or.inr ⟨a, hb⟩))
    | fault f => exact absurd hb hF.fault
    | ended => exact absurd (hF.ended hb) hnone

/-- The watermark is the latest mark, and no mark is above it. -/
theorem Scenario.Visits.le_watermark (h : s.Visits c) (ha : c.world.Alive i) {m : TaskId}
    (hm : m ∈ c.world.marks i) : ∃ n, (c.world.engine i).bus.watermark = some n ∧ m ≤ n := by
  have hsorted := (h.tidal ha).sorted
  rw [(h.tidal ha).watermark]
  cases hl : c.world.marks i with
  | nil =>
    rw [hl] at hm
    cases hm
  | cons n ns =>
    rw [hl] at hm hsorted
    refine ⟨n, rfl, ?_⟩
    rcases List.mem_cons.1 hm with hn | hn
    · exact Nat.le_of_eq hn
    · exact (List.pairwise_cons.1 hsorted).1 _ hn

/--
An END is a watershed. Whatever a run comes to after the bus ended while the next task was `m`, no
task below `m` takes an action from the bus any more, and END takes its course with it; the tasks
above all marks take from the bus as before.
-/
theorem Scenario.Visits.watershed (h₀ : s.Visits c₀) (he : c₀.EndsBus i) (hc : c₀.step = some c')
    (hp : c'.Precedes c) (ha : c.world.Alive i) :
    c.Watershed i (c₀.world.engine i).nextTask (c₀.world.past i) := by
  have h' := h₀.step hc
  have h := h'.precedes hp
  have hm : (c₀.world.engine i).nextTask ∈ c'.world.marks i := by
    obtain ⟨ha₀, x₀, rest, htodo, hx₀, idle⟩ := he
    obtain ⟨todo, w₀⟩ := c₀
    obtain rfl : todo = _ := htodo
    rw [Config.marks_of_ends hc ha₀ hx₀ idle]
    exact List.mem_cons_self
  obtain ⟨es, hes⟩ := h'.past_precedes ((h'.has_precedes hp).1 ha.has) hp
  have hmark : (c₀.world.engine i).nextTask ∈ c.world.marks i := by
    rw [World.mem_marks] at hm ⊢
    exact hes ▸ List.mem_append_right _ hm
  have htidal := h.tidal ha
  constructor
  case takers => exact fun b hb => h.le_owner ha hb hmark
  case below =>
    intro t x ht hr hx
    exact h.take_below ha hr hes hm ht (h₀.unended_of_ends he hc hx)
  case around => exact fun _ hx hy => h.ended_around ha hx hy
  case body => exact fun hr hpast => h.body_of_ended ha hr hpast
  case outcome =>
    intro t x hr hx hloop
    obtain ⟨late, early, hpast⟩ := List.append_of_mem hx
    obtain ⟨y, e, hy, hroot⟩ := h.root_of_ended ha hr hpast
    have hroot' : .triggered t y none e ∈ c.world.past i :=
      hpast ▸ List.mem_append_right _ (List.mem_cons_of_mem _ hroot)
    exact h.outcome_of_told ha
      (h.told_of_ended ha hroot' (h.root_of_loop ha hx hy hloop)) hloop
  case above =>
    refine fun {t} hall => ⟨?_, fun {x} hr => h.take_above ha hr hall⟩
    by_contra hn
    obtain ⟨n, hn, hlt⟩ := htidal.hasEnded_iff.1 (by simpa using hn)
    exact Nat.not_le_of_lt hlt (hall n hn)
  case watermark =>
    exact ⟨h.le_watermark ha hmark, fun t ht => htidal.hasEnded_iff.2 ⟨_, hmark, ht⟩⟩

/-- A task takes from a bus that ends then. -/
def Scenario.endsListener : Scenario where
  middlewares := [{}]
  scripts := [("listener", [.perform (.take none .any) none none])]
  steps := [.run 0 { source := .named "listener" } none]

theorem Scenario.watershed_endsListener : ∃ c₀ c' c, endsListener.Visits c₀ ∧ c₀.EndsBus 0 ∧
    c₀.step = some c' ∧ c'.Precedes c ∧ c.isDone = true ∧
      (c.world.outcomeOf ⟨0, 1, "listener"⟩).map Outcome.status = some .done ∧
      c.Watershed 0 2 (c₀.world.past 0) := by
  have h : (endsListener.final?.any fun w =>
      decide (w.alive? 0 = some true ∧ (w.engine 0).driving = false ∧ (w.engine 0).nextTask = 2) &&
        (Config.step ⟨[.op .outside .empty (.finish 0)], { w with reply := none }⟩).any fun c' =>
          decide ((c'.run 12).isDone = true ∧ (c'.run 12).world.alive? 0 = some true ∧
            ((c'.run 12).world.outcomeOf ⟨0, 1, "listener"⟩).map Outcome.status = some .done)) =
      true := by decide +kernel
  obtain ⟨w, hw, h⟩ := (Option.any_eq_true ..).1 h
  obtain ⟨h, h'⟩ := Bool.and_eq_true_iff.1 h
  obtain ⟨ha, hd, hn⟩ := of_decide_eq_true h
  obtain ⟨c', hc, h'⟩ := (Option.any_eq_true ..).1 h'
  obtain ⟨hdone, ha', hout⟩ := of_decide_eq_true h'
  have hvisits : endsListener.Visits ⟨[.op .outside .empty (.finish 0)], { w with reply := none }⟩ :=
    (Visits.of_final? hw).call (.finish 0) w.budget
  have hends : Config.EndsBus ⟨[.op .outside .empty (.finish 0)], { w with reply := none }⟩ 0 :=
    ⟨ha, _, [], rfl, rfl, fun _ => hd⟩
  have hlater : c'.Precedes (c'.run 12) := Config.Precedes.refl.run 12
  exact ⟨_, c', _, hvisits, hends, hc, hlater, hdone, hout,
    hn ▸ hvisits.watershed hends hc hlater ha'⟩

end

end SagaMachine
