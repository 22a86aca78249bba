import SagaMachine.Proofs.Accounting
import SagaMachine.Report

/-!
# What monitors are told of effects

The trace of a monitor accounts for every effect. Effects are triggered under growing numbers
and each of them settles or is cancelled at most once, after its trigger (`EffectsInOrder`).
Between two operations nothing is lost: an effect that was triggered has come to its end, or
is in the wait table, or it is a CANCEL effect that made its own task terminal, and of these
it is exactly one; and nothing is left below a combinator that has come to its end
(`EffectsAccounted`).

Main statement: `Scenario.Visits.effects_accounted`.
-/

namespace SagaMachine

namespace MonitorEvent

/-- The effect that a monitor is told to be triggered. -/
def triggers? : MonitorEvent → Option EffectId
  | effectTriggered _ id _ _ => some id
  | _ => none

/-- The effect that a monitor is told to be settled or cancelled. -/
def ends? : MonitorEvent → Option EffectId
  | effectResolved id | effectRejected id _ | effectCancelled id => some id
  | _ => none

end MonitorEvent

/-- The effects of a trace that are triggered, in order. -/
def effectsTriggered (trace : List MonitorEvent) : List EffectId :=
  trace.filterMap MonitorEvent.triggers?

/-- The effects of a trace that settle or are cancelled, in order. -/
def effectsEnded (trace : List MonitorEvent) : List EffectId := trace.filterMap MonitorEvent.ends?

/-- The effects of a trace are triggered and come to their end in order. -/
structure EffectsInOrder (trace : List MonitorEvent) : Prop where
  /-- Every effect is triggered once, under a number above those before it. -/
  numbered : (effectsTriggered trace).Pairwise (· < ·)
  /-- Every effect settles or is cancelled at most once. -/
  once : (effectsEnded trace).Nodup
  ended : ∀ {before after : List MonitorEvent} {e : MonitorEvent} {id : EffectId},
    trace = before ++ e :: after → e.ends? = some id → id ∈ effectsTriggered before
  members : ∀ {before after : List MonitorEvent} {t : TaskId} {id p : EffectId} {kind : String},
    trace = before ++ .effectTriggered t id (some p) kind :: after → p ∈ effectsTriggered before

/-- Exactly one of three statements holds. -/
def ExactlyOne (a b c : Prop) : Prop := (a ∧ ¬ b ∧ ¬ c) ∨ (¬ a ∧ b ∧ ¬ c) ∨ (¬ a ∧ ¬ b ∧ c)

/-- The trace of the monitor of a middleware accounts for all effects between two operations. -/
structure EffectsAccounted (s : Scenario) (w : World) (i : MiddlewareId) : Prop where
  each : ∀ {t : TaskId} {id : EffectId} {p : Option EffectId} {kind : String},
    .effectTriggered t id p kind ∈ w.toldOf i →
      ExactlyOne (id ∈ effectsEnded (w.toldOf i)) (∃ wait, (w.engine i).waits.get? id = some wait)
        (kind = "cancel" ∧ s.CancelsItself ⟨[], w⟩ i t id)
  members : ∀ {t : TaskId} {id p : EffectId} {kind : String} {wait : Wait},
    .effectTriggered t id (some p) kind ∈ w.toldOf i → (w.engine i).waits.get? id = some wait →
      p ∉ effectsEnded (w.toldOf i)

section

variable {w : World} {i : MiddlewareId} {past : List Event}

/-- A monitor is told what is visible of the past. -/
theorem World.toldOf_eq (w : World) (i : MiddlewareId) :
    w.toldOf i = ((w.past i).filterMap Event.visible?).reverse := by
  rw [World.toldOf, World.eventsOf, List.filterMap_reverse, List.filterMap_reverse, World.past]
  congr 2
  refine List.filterMap_congr fun e _ => ?_
  cases e with
  | event j e => simp only [eq_comm]
  | _ => rfl

theorem Event.triggers?_visible? (e : Event) :
    (e.visible?.bind MonitorEvent.triggers?) = e.triggers? := by
  cases e with
  | settled x signal => cases signal <;> rfl
  | _ => rfl

theorem Event.ends?_visible? (e : Event) : (e.visible?.bind MonitorEvent.ends?) = e.ends? := by
  cases e with
  | settled x signal => cases signal <;> rfl
  | _ => rfl

theorem effectsTriggered_visible (es : List Event) :
    effectsTriggered (es.filterMap Event.visible?).reverse = (triggeredIn es).reverse := by
  rw [effectsTriggered, List.filterMap_reverse, List.filterMap_filterMap, triggeredIn]
  simp only [Event.triggers?_visible?]

theorem effectsEnded_visible (es : List Event) :
    effectsEnded (es.filterMap Event.visible?).reverse = (endedIn es).reverse := by
  rw [effectsEnded, List.filterMap_reverse, List.filterMap_filterMap, endedIn]
  simp only [Event.ends?_visible?]

/-- An event of the trace splits the past where it happened. -/
theorem exists_split_of_visible {before after : List MonitorEvent} {e : MonitorEvent}
    (h : (past.filterMap Event.visible?).reverse = before ++ e :: after) :
    ∃ later ev earlier, past = later ++ ev :: earlier ∧ ev.visible? = some e ∧
      before = (earlier.filterMap Event.visible?).reverse := by
  have h := congrArg List.reverse h
  rw [List.reverse_reverse, List.reverse_append, List.reverse_cons, List.append_assoc,
    List.singleton_append, List.filterMap_eq_append_iff] at h
  obtain ⟨later, rest, rfl, -, h⟩ := h
  obtain ⟨skipped, ev, earlier, rfl, -, hev, h⟩ := List.filterMap_eq_cons_iff.1 h
  refine ⟨later ++ skipped, ev, earlier, by rw [List.append_assoc], hev, ?_⟩
  rw [h, List.reverse_reverse]

theorem Regular.split {later earlier : List Event} {e : Event} (h : Regular (later ++ e :: earlier)) :
    e.Fits earlier := by
  induction later with
  | nil => cases h with | cons h _ => exact h
  | cons _ later ih => cases h with | cons _ h => exact ih h

/-- Later effects have greater numbers. -/
theorem Regular.numbered (h : Regular past) : (triggeredIn past).Pairwise (· > ·) := by
  induction h with
  | nil => exact .nil
  | @cons ev past hf _ ih =>
    cases ev with
    | triggered t x p e => exact .cons hf.1 ih
    | _ => exact ih

/-- No effect comes to its end twice. -/
theorem Regular.ended_once (h : Regular past) : (endedIn past).Nodup := by
  induction h with
  | nil => exact .nil
  | @cons ev past hf _ ih =>
    cases ev with
    | settled | withdrawn => exact List.nodup_cons.2 ⟨hf.2, ih⟩
    | _ => exact ih

/-- What holds of the events of a middleware, as its monitor is told of it. -/
theorem Regular.effectsInOrder (h : Regular past) :
    EffectsInOrder (past.filterMap Event.visible?).reverse where
  numbered := by
    rw [effectsTriggered_visible, List.pairwise_reverse]
    exact h.numbered
  once := by
    rw [effectsEnded_visible, List.nodup_reverse]
    exact h.ended_once
  ended {before after e id} hsplit he := by
    obtain ⟨later, ev, earlier, rfl, hev, rfl⟩ := exists_split_of_visible hsplit
    rw [effectsTriggered_visible, List.mem_reverse]
    have hends : ev.ends? = some id := by rw [← Event.ends?_visible?, hev, Option.bind_some, he]
    have hfit := h.split
    cases ev with
    | settled | withdrawn =>
      cases hends
      exact hfit.1
    | _ => cases hends
  members {before after t id p kind} hsplit := by
    obtain ⟨later, ev, earlier, rfl, hev, rfl⟩ := exists_split_of_visible hsplit
    rw [effectsTriggered_visible, List.mem_reverse]
    have hfit := h.split
    cases ev with
    | triggered =>
      cases hev
      obtain ⟨p', e', hm⟩ := hfit.2 p rfl
      exact mem_triggeredIn.2 ⟨_, p', e', hm⟩
    | settled x signal => cases signal <;> cases hev
    | _ => cases hev

theorem mem_visible_triggered {t : TaskId} {id : EffectId} {p : Option EffectId} {kind : String}
    (h : .effectTriggered t id p kind ∈ (past.filterMap Event.visible?).reverse) :
    ∃ e, .triggered t id p e ∈ past ∧ e.kind = kind := by
  obtain ⟨ev, hm, hev⟩ := List.mem_filterMap.1 (List.mem_reverse.1 h)
  cases ev with
  | triggered t' id' p' e =>
    cases hev
    exact ⟨e, hm, rfl⟩
  | settled x signal => cases signal <;> cases hev
  | _ => cases hev

end

section

variable {s : Scenario} {c : Config} {w : World} {i : MiddlewareId}

/-- A CANCEL effect that made its own task terminal was triggered by this task. -/
theorem Scenario.CancelsItself.triggered {t : TaskId} {id : EffectId}
    (h : s.CancelsItself c i t id) (hi : c.world.Has i) :
    ∃ p target, .triggered t id p (.cancel target) ∈ c.world.past i := by
  obtain ⟨done, b, nests, todo, hs, hd, -, hp⟩ := h
  have hv : s.Visits done := by
    obtain ⟨issue, -, hv, hissue, -⟩ := hs
    exact hv.precedes hissue
  have hi' := (hv.has_precedes hp).1 hi
  obtain ⟨p, target, hm⟩ := hs.triggered hi' (show _ = [] ++ _ from hd)
  obtain ⟨es, hes⟩ := hv.past_precedes hi' hp
  exact ⟨p, target, hes ▸ List.mem_append_right es hm⟩

/-- Between two operations every effect is in one place. -/
theorem Scenario.Visits.effects_at_rest (h : s.Visits ⟨[], w⟩) (ha : w.Alive i) :
    EffectsAccounted s w i := by
  have hk := h.kept ha.has
  have hR : Regular (w.past i) := hk.regular
  have hA : Accounts (w.engine i).waits [] (w.past i) := hk.accounts (Config.alive_iff.2 ha)
  have hends {x : EffectId} : x ∈ effectsEnded (w.toldOf i) ↔ x ∈ endedIn (w.past i) := by
    rw [World.toldOf_eq, effectsEnded_visible, List.mem_reverse]
  constructor
  case each =>
    intro t id p kind htold
    rw [World.toldOf_eq] at htold
    obtain ⟨e, hm, rfl⟩ := mem_visible_triggered htold
    have hmiss {t' : TaskId} (hs : s.CancelsItself ⟨[], w⟩ i t' id) :=
      Scenario.misses_of_cancelsItself ha hs
    by_cases hend : id ∈ endedIn (w.past i)
    · refine Or.inl ⟨hends.2 hend, ?_, fun hs => (hmiss hs.2).unended hend⟩
      rintro ⟨wait, hw⟩
      exact (hA.entries hw).2 hend
    · have hend' := fun he => hend (hends.1 he)
      cases hw : (w.engine i).waits.get? id with
      | some wait =>
        refine Or.inr (Or.inl ⟨hend', ⟨wait, rfl⟩, fun hs => ?_⟩)
        cases hw.symm.trans (hmiss hs.2).unlisted
      | none =>
        have hy : Config.Misses ⟨[], w⟩ i id :=
          ⟨mem_triggeredIn.2 ⟨t, p, e, hm⟩, hend, hw, List.not_mem_nil⟩
        obtain ⟨t', hs⟩ := h.cancelsItself_of_misses ha hy
        obtain ⟨p', target, hm'⟩ := hs.triggered ha.has
        obtain ⟨rfl, -, rfl⟩ := hR.triggered_once hm hm'
        exact Or.inr (Or.inr ⟨hend', by simp, rfl, hs⟩)
  case members =>
    intro t id p kind wait htold hw
    rw [World.toldOf_eq] at htold
    obtain ⟨e, hm, rfl⟩ := mem_visible_triggered htold
    obtain ⟨⟨e', hm'⟩, -⟩ := hA.entries hw
    obtain ⟨-, hp, -⟩ := hR.triggered_once hm hm'
    have hF : Waits.Forest (w.engine i).waits [] .task :=
      (hk.sound.tabled (Config.alive_iff.2 ha)).forest
    obtain ⟨pw, hpw, -⟩ := hF.up hw List.not_mem_nil hp.symm
    exact fun hend => (hA.entries hpw).2 (hends.1 hend)

/-- Monitors are told nothing of a middleware that was dropped. -/
theorem World.toldOf_of_dropped {w₀ : World} {es : List Event} (h : w.past i = es ++ w₀.past i)
    (hes : DropsOnly es) : w.toldOf i = w₀.toldOf i := by
  have hnone : es.filterMap Event.visible? = [] := by
    refine List.filterMap_eq_nil_iff.2 fun e he => ?_
    obtain ⟨t, rfl⟩ := hes e he
    rfl
  rw [World.toldOf_eq, World.toldOf_eq, h, List.filterMap_append, hnone, List.nil_append]

/--
The trace of a monitor accounts for every effect, whatever a scenario does: at any time its
effects are triggered, settled and cancelled in order, and between two operations every effect
that was triggered is in exactly one place. A middleware that was dropped is taken as it was
when it was dropped, for its wait table is gone with it.
-/
theorem Scenario.Visits.effects_accounted (h : s.Visits c) (hi : c.world.Has i) :
    EffectsInOrder (c.world.toldOf i) ∧ (c.todo = [] →
      (c.world.alive? i = some true → EffectsAccounted s c.world i) ∧
      (c.world.alive? i ≠ some true → ∃ w₀, s.Visits ⟨[], w₀⟩ ∧ Config.Precedes ⟨[], w₀⟩ c ∧
        w₀.alive? i = some true ∧ c.world.toldOf i = w₀.toldOf i ∧ EffectsAccounted s w₀ i)) := by
  refine ⟨?_, fun hc => ⟨fun ha => ?_, fun hd => ?_⟩⟩
  · rw [World.toldOf_eq]
    exact (h.kept hi).regular.effectsInOrder
  · obtain ⟨_, w⟩ := c
    cases hc
    exact h.effects_at_rest ha
  · obtain ⟨w₀, es, hv, hp, ha, hpast, hes⟩ := h.dropped hi hd
    exact ⟨w₀, hv, hp, ha, World.toldOf_of_dropped hpast hes, hv.effects_at_rest ha⟩

end

/-- A task reads the host state, which settles at once, and then races two takes. -/
def Scenario.selectsThenRaces : Scenario where
  scripts := [("racer", [.perform (.select none) none none,
    .perform (.racePositional [.take none .any, .take none (.type "never")]) none none])]
  steps := [.run 0 { source := .named "racer" } none]

theorem Scenario.effects_accounted_selectsThenRaces : ∃ w, selectsThenRaces.Visits ⟨[], w⟩ ∧
    effectsTriggered (w.toldOf 0) = [1, 2, 3, 4] ∧ effectsEnded (w.toldOf 0) = [1] ∧
    (w.engine 0).waits.keys = [2, 3, 4] ∧
    EffectsInOrder (w.toldOf 0) ∧ EffectsAccounted selectsThenRaces w 0 := by
  have h : (selectsThenRaces.final?.any fun w => decide (w.alive? 0 = some true ∧
      effectsTriggered (w.toldOf 0) = [1, 2, 3, 4] ∧ effectsEnded (w.toldOf 0) = [1] ∧
        (w.engine 0).waits.keys = [2, 3, 4])) = true := by
    decide +kernel
  obtain ⟨w, hw, h⟩ := (Option.any_eq_true ..).1 h
  obtain ⟨ha, htriggered, hended, hkeys⟩ := of_decide_eq_true h
  have hv := Visits.of_final? hw
  have halive : w.Alive 0 := ha
  obtain ⟨horder, hrest⟩ := hv.effects_accounted halive.has
  exact ⟨w, hv, htriggered, hended, hkeys, horder, (hrest rfl).1 ha⟩

end SagaMachine
