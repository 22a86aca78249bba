import SagaMachine.Proofs.Launches
import SagaMachine.Proofs.Vigils

/-!
# Bystanders

The pending effects of a task change only where the task itself is stepped, where an effect is
settled, and where the task is torn down. Whatever else goes on leaves their entries in the wait
table as they are (`Scenario.Visits.entry_kept`). What goes on above the step of a task only cancels
others or belongs to user code: it starts no effect and settles none (`Scenario.Visits.spares`).
-/

namespace SagaMachine

section

variable {i : MiddlewareId} {k k' k₁ : Core} {t u : TaskId} {past es : List Event} {x y : Instr}
  {F G : List Instr} {D : List TaskId} {z : EffectId} {w : Wait} {d : Option TaskId}

theorem Buries.waits_eq {outcome : Outcome} {c : Option Cascade}
    (h : Buries past k t outcome k' c es) : k'.waits = k.waits ∧ k'.nextEffect = k.nextEffect := by
  cases h with
  | absent => exact ⟨rfl, rfl⟩
  | gone =>
    rw [k.bury_eq]
    exact ⟨rfl, rfl⟩

theorem Begins.waits_eq {expected : Option EffectId} {signal : Option Signal}
    (h : Begins i k t expected signal k' G) : k'.waits = k.waits := by
  cases h <;> rfl

/-- The step of another task leaves the effects of a task alone. -/
theorem Does.kept_in_turn (h : Does i past x k k' G D es) (hT : Tabled k [x, .drain i] past)
    (hu : k.Afoot u) (hr : x.Relies k) (hx : x.turn? = some u) (hut : u ≠ t)
    (hz : k.waits.get? z = some w) (ht : w.task = t) : k'.waits.get? z = some w := by
  rcases h.turns hx hT hu hr with ⟨b, exit, rfl⟩ | ⟨g, G₀, k₁, -, -, hp, hk⟩
  · cases h <;> exact hz
  · obtain ⟨new, hnew⟩ := hp.turns
    have hkept := hnew.touches.other hz (ht ▸ Ne.symm hut)
    rcases hk with rfl | ⟨detached, -, -, rfl⟩
    · exact hkept
    · rw [Core.create_eq]
      exact hkept

/-- Whoever tears down another task leaves the effects of a task alone. -/
theorem Tabled.kept_by_strip (hT : Tabled k F past) (hs : Stack i k.current F)
    (ho : Orderly i k F) {p : Posture} (hp : k.posture u = some p) {f : Posture → Posture}
    (hf : ∀ p, (f p).pending = none) (hterm : (f p).status.isTerminal = true)
    (hl : ((k.alter u f).withdraw p.pending.toList).Live t) (hz : k.waits.get? z = some w)
    (ht : w.task = t) : ((k.alter u f).withdraw p.pending.toList).waits.get? z = some w := by
  refine (hT.strip hs (fun hc => (ho.driver hc).1) hp hf).2 hz fun htu => ?_
  obtain ⟨q, hq, hlive⟩ := hl
  have hq : (k.alter u f).posture t = some q := hq
  rw [← ht, htu, Core.posture_alter, if_pos rfl, hp, Option.map_some] at hq
  cases hq
  rw [hterm] at hlive
  cases hlive

/-- The effects of a task that stays live are left alone, unless the task is stepped. -/
theorem Does.entry_kept (h : Does i past x k k' G D es) (hs : Stack i k.current (x :: F))
    (ho : Orderly i k (x :: F)) (hT : Tabled k (x :: F) past) (hx : x.turn? ≠ some t)
    (hset : ∀ y signal, x ≠ .perform i (.reaction (.settle y signal))) (hl : k'.Live t)
    (hz : k.waits.get? z = some w) (ht : w.task = t) : k'.waits.get? z = some w := by
  cases hturn : x.turn? with
  | some u =>
    obtain ⟨hcur, rfl⟩ := hs.of_turn hturn
    refine h.kept_in_turn hT (ho.driver hcur).1 (ho.frames x List.mem_cons_self) hturn ?_ hz ht
    rintro rfl
    exact hx hturn
  | none =>
    cases h with
    | settle | wake => exact absurd rfl (hset _ _)
    | start hb | resume hb => rw [hb.waits_eq]; exact hz
    | abort hp hlive => exact hT.kept_by_strip hs ho hp (fun _ => rfl) rfl hl hz ht
    | cancelEach hp =>
      have hdoomed := (ho.frames _ List.mem_cons_self : ∀ v ∈ _, k.Doomed v) _ List.mem_cons_self
      have hterm := hdoomed.2 _ hp
      exact hT.kept_by_strip hs ho hp (fun _ => rfl) hterm hl hz ht
    | abortDone hb | cancelOne hb | conclude hb | cascadeComplete _ _ _ hb =>
      rw [hb.waits_eq.1]
      exact hz
    | cancel =>
      rw [Core.cancelAll_eq]
      exact hz
    | _ => first | exact hz | cases hturn

theorem Intervenes.waits_eq (h : Intervenes i past k k' G es) :
    k'.waits = k.waits ∧ k'.nextEffect = k.nextEffect := by
  have hdrives {k₁ k' : Core} {work G : List Instr} (hd : Drives i k₁ work k' G) :
      k'.waits = k₁.waits ∧ k'.nextEffect = k₁.nextEffect := by
    cases hd <;> exact ⟨rfl, rfl⟩
  cases h with
  | spawns hd =>
    obtain ⟨hw, hn⟩ := hdrives hd
    rw [hw, hn, Core.create_eq]
    exact ⟨rfl, rfl⟩
  | settles _ hd | cancels hd =>
    have hsame := hdrives hd
    exact hsame
  | _ => exact ⟨rfl, rfl⟩

/-! ## Above the step of a task -/

/-- Above the step of a task there are only frames that cancel. -/
theorem Stack.cancels_of_turn (h : Stack i d (x :: F)) (hy : y ∈ F) (ht : y.turn? = some t) :
    x.Cancels d := by
  cases h with
  | drain | calls => cases hy
  | works | turn =>
    rw [List.mem_singleton.1 hy] at ht
    cases ht
  | cancels hx => exact hx
  | ends _ _ hs => cases hs.turn_unique hy ht

/-- Nothing is triggered or settled in some events. -/
def Uneventful (es : List Event) : Prop := issuesIn es = [] ∧ ∀ y signal, .settled y signal ∉ es

theorem Uneventful.nil : Uneventful [] := ⟨rfl, fun _ _ => List.not_mem_nil⟩

theorem Quiet.uneventful (h : Quiet es) : Uneventful es := 
  ⟨issuesIn_of_silent h.silent, fun _ => not_settled_of_quiet h⟩

theorem Buries.uneventful {outcome : Outcome} {c : Option Cascade}
    (h : Buries past k u outcome k' c es) : Uneventful es := by
  cases h with
  | absent => exact .nil
  | gone _ _ hq =>
    obtain ⟨hissues, hsettled⟩ := hq.uneventful
    refine ⟨hissues, fun y signal hm => hsettled y signal ?_⟩
    exact (List.mem_cons.1 hm).resolve_left nofun

theorem Core.uneventful_withdrawn (k : Core) (ids : List EffectId) : Uneventful (k.withdrawn ids) := by
  refine ⟨issuesIn_of_silent (.passages _), fun y signal hm => ?_⟩
  obtain ⟨p, hp, he⟩ := List.mem_map.1 hm
  obtain ⟨z, w, rfl, -⟩ := Waits.withdrawn_of_mem_detach hp
  cases he

/-- What goes on above the step of a task starts no effect, and settles none. -/
theorem Does.spares (h : Does i past x k k' G D es) (hx : x.Cancels d) :
    k'.nextEffect = k.nextEffect ∧ Uneventful es := by
  cases h with
  | cancel =>
    rw [Core.cancelAll_eq]
    exact ⟨rfl, .nil⟩
  | cascadeComplete _ _ _ hb | cancelOne hb => exact ⟨hb.waits_eq.2, hb.uneventful⟩
  | cancelEach => exact ⟨rfl, Core.uneventful_withdrawn _ _⟩
  | cascadeLate | cancelLate | cancelledAll | cancelledLate | cancelHalts => exact ⟨rfl, .nil⟩
  | _ => exact hx.elim

theorem Intervenes.uneventful (h : Intervenes i past k k' G es) : Uneventful es := by
  cases h with
  | quietly hq | settles _ _ hq | queues _ hq => exact hq.uneventful
  | spawns => exact ⟨rfl, by simp⟩
  | cancels | sends => exact .nil

end

namespace Scenario.Visits

variable {s : Scenario} {x y : Instr} {rest : List Instr} {w : World} {c' : Config}
  {i : MiddlewareId} {t : TaskId} {z : EffectId} {wait : Wait}

theorem not_live_of_dead {next : Config} (hcore : next.world.core i = Engine.core {}) :
    ¬ (next.world.core i).Live t := by
  rw [hcore]
  rintro ⟨p, hp, -⟩
  cases hp

/-- The effects of a task that stays live are left alone, unless the task is stepped. -/
theorem entry_kept (h : s.Visits ⟨x :: rest, w⟩) (hi : w.Has i)
    (hc : Config.step ⟨x :: rest, w⟩ = some c') (hx : x.owner? = some i → x.turn? ≠ some t)
    (hset : ∀ y signal, x ≠ .perform i (.reaction (.settle y signal)))
    (hl : (c'.world.core i).Live t) (hz : (w.engine i).waits.get? z = some wait)
    (ht : wait.task = t) : (c'.world.engine i).waits.get? z = some wait := by
  have hwaits : (c'.world.engine i).waits = (c'.world.core i).waits := rfl
  obtain ⟨next, -, rfl, hmeets⟩ := Config.meets_of_step h.knows hi hc
  cases hmeets with
  | own hown ha hd =>
    have hg := h.grounds hown hi
    have hcore : (next.followedBy rest).world.core i = _ := ha.core
    rw [hwaits, hcore]
    exact hd.entry_kept hg.stack hg.orderly hg.tabled (hx hown) hset (hcore ▸ hl) hz ht
  | foreign _ ha hin =>
    have hcore : (next.followedBy rest).world.core i = _ := ha.core
    rw [hwaits, hcore, hin.waits_eq.1]
    exact hz
  | drops hxd hn =>
    subst hxd hn
    exact hz
  | dies _ _ _ hcore => exact absurd hl (not_live_of_dead hcore)

/-- What goes on above the step of a task starts no effect, and settles none. -/
theorem spares (h : s.Visits ⟨x :: rest, w⟩) (hi : w.Has i)
    (hc : Config.step ⟨x :: rest, w⟩ = some c') (hy : y ∈ framesOf i rest) (hyt : y.turn? = some t)
    (hl : (c'.world.core i).Live t) :
    (c'.world.engine i).nextEffect = (w.engine i).nextEffect ∧
      ∃ es, c'.world.past i = es.reverse ++ w.past i ∧ Uneventful es := by
  have hnext : (c'.world.engine i).nextEffect = (c'.world.core i).nextEffect := rfl
  obtain ⟨next, -, rfl, hmeets⟩ := Config.meets_of_step h.knows hi hc
  cases hmeets with
  | own hown ha hd =>
    have hcore : (next.followedBy rest).world.core i = _ := ha.core
    obtain ⟨hn, hes⟩ := hd.spares ((h.grounds hown hi).stack.cancels_of_turn hy hyt)
    exact ⟨by rw [hnext, hcore, hn]; rfl, _, ha.past, hes⟩
  | foreign _ ha hin =>
    have hcore : (next.followedBy rest).world.core i = _ := ha.core
    exact ⟨by rw [hnext, hcore, hin.waits_eq.2]; rfl, _, ha.past, hin.uneventful⟩
  | @drops u b hxd hn =>
    subst hxd hn
    exact ⟨rfl, [.bodyDropped u], World.past_record _, rfl, by simp⟩
  | dies _ _ _ hcore => exact absurd hl (not_live_of_dead hcore)

end Scenario.Visits

end SagaMachine
