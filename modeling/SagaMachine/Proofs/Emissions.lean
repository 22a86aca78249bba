import SagaMachine.Proofs.HostStates
import SagaMachine.Proofs.Tides
import SagaMachine.Proofs.Voices

/-!
# While an action is sent

Between the errand that sends an action, or the operation that does, and the broadcast of the action
user code may run, but no task is stepped. So nobody stands aside meanwhile, and nothing is on its
way to a take from the bus: what an earlier broadcast has woken has been served before.

Main statements: `Scenario.Visits.owes_steps`, `Scenario.Visits.hushed`.
-/

namespace SagaMachine

section

variable {s : Scenario} {c c' : Config} {w : World} {x y : Instr} {rest F G : List Instr}
  {i : MiddlewareId} {t : TaskId} {r : Reaction} {k k' : Core} {D : List TaskId}
  {past es : List Event}

/-! ## Where steps become due -/

theorem Owes.cons (ho : Owes i k F r) : Owes i k (x :: F) r :=
  ho.imp_right fun ho => ho.imp_right (List.mem_cons_of_mem _)

/-- A reaction that is owed was owed before, or it was scheduled just now. -/
theorem Owes.of_scheduled {rs : List Reaction} (ho : Owes i k' (G ++ F) r)
    (hG : .perform i (.reaction r) ∉ G) (hs : k'.agenda.stack = k.agenda.stack)
    (hf : k'.agenda.fresh = k.agenda.fresh ++ rs) : Owes i k F r ∨ r ∈ rs := by
  rcases ho with ho | ho | ho
  · exact Or.inl (Or.inl (hs ▸ ho))
  · exact (List.mem_append.1 (hf ▸ ho)).imp_left fun ho => Or.inr (Or.inl ho)
  · exact Or.inl (Or.inr (Or.inr ((List.mem_append.1 ho).resolve_left hG)))

theorem Owes.of_same (ho : Owes i k' (G ++ F) r) (hG : .perform i (.reaction r) ∉ G)
    (ha : k'.agenda = k.agenda) : Owes i k F r := by
  have h : Owes i k F r ∨ r ∈ ([] : List Reaction) :=
    ho.of_scheduled hG (by rw [ha]) (by rw [ha, List.append_nil])
  exact h.resolve_right List.not_mem_nil

/-- Settlements are no steps. -/
theorem Owes.of_settling {rs : List Reaction} (ho : Owes i k' (G ++ F) r) (hr : r.Steps t)
    (hs : Settling past rs) (hG : .perform i (.reaction r) ∉ G)
    (hst : k'.agenda.stack = k.agenda.stack) (hf : k'.agenda.fresh = k.agenda.fresh ++ rs) :
    Owes i k F r :=
  (ho.of_scheduled hG hst hf).resolve_right fun hm => hs.stepless r hm t hr

theorem Begins.not_perform {expected : Option EffectId} {signal : Option Signal}
    (h : Begins i k t expected signal k' G) (job : Job) : .perform i job ∉ G := by
  cases h <;> simp

theorem Buries.schedules {outcome : Outcome} {cascade : Option Cascade}
    (h : Buries past k t outcome k' cascade es) : ∃ rs, Settling past rs ∧
      k'.agenda.stack = k.agenda.stack ∧ k'.agenda.fresh = k.agenda.fresh ++ rs := by
  cases h with
  | absent => exact ⟨[], fun r hr => absurd hr List.not_mem_nil, rfl, (List.append_nil _).symm⟩
  | gone _ hs =>
    refine ⟨_, hs, ?_, ?_⟩ <;> rw [k.bury_eq] <;> rfl

/-- The driver takes a reaction that it owed. -/
theorem Owes.of_next {agenda : Agenda} {job : Job} (h : k.agenda.next? = some (job, agenda))
    (ho : Owes i { k with agenda } ([.perform i job, .drain i] ++ F) r) : Owes i k F r := by
  have head (hm : .perform i (.reaction r) ∈ [.perform i job, .drain i] ++ F) :
      .reaction r = job ∨ .perform i (.reaction r) ∈ F := by simpa using hm
  rcases Agenda.next?_cases h with ⟨r', rs, hq, rfl, rfl⟩ | ⟨e, errands, -, -, rfl, rfl⟩
  · have taken (hm : r ∈ r' :: rs) : Owes i k F r := by
      rw [← hq] at hm
      exact (List.mem_append.1 hm).elim (fun h => Or.inr (Or.inl h)) Or.inl
    rcases ho with ho | ho | ho
    · exact taken (List.mem_cons_of_mem _ ho)
    · exact absurd ho List.not_mem_nil
    · rcases head ho with ho | ho
      · cases ho
        exact taken List.mem_cons_self
      · exact Or.inr (Or.inr ho)
  · rcases ho with ho | ho | ho
    · exact absurd ho List.not_mem_nil
    · exact absurd ho List.not_mem_nil
    · rcases head ho with ho | ho
      · cases ho
      · exact Or.inr (Or.inr ho)

/--
A step of a task that is due was due before, or the task stands aside just now, or it is new.
-/
theorem Does.owes_steps (h : Does i past x k k' G D es) (hr : r.Steps t)
    (ho : Owes i k' (G ++ F) r) : Owes i k F r ∨
      (∃ b signal, x = .leave ⟨i, t⟩ b (.yielded signal) ∧ r = .resume t signal) ∨
      r = .start k.nextTask := by
  cases h with
  | rest =>
    refine Or.inl ?_
    rcases ho with ho | ho | ho
    · exact (List.mem_append.1 ho).elim (fun h => Or.inr (Or.inl h)) Or.inl
    · exact absurd ho List.not_mem_nil
    · exact Or.inr (Or.inr ho)
  | next h => exact Or.inl (Owes.of_next h ho)
  | start h | resume h | wake _ _ h => exact Or.inl (ho.of_same (h.not_perform _) h.agenda)
  | errand hG hs =>
    refine Or.inl (ho.of_settling hr hs ?_ rfl rfl)
    rcases hG with rfl | ⟨g, rfl, hg⟩
    · exact List.not_mem_nil
    · rw [List.mem_singleton]
      rintro rfl
      exact hg
  | schedule hs | forwarded _ hs | forwardedCall hs | answerSuspends hs | triggerSuspends _ _ _ hs =>
    exact Or.inl (ho.of_settling hr hs (by simp) rfl rfl)
  | triggerForks =>
    refine (ho.of_scheduled (by simp) ?_ ?_).imp_right fun hm => Or.inr (List.mem_singleton.1 hm)
    all_goals simp [Core.schedule, Core.agenda_create, Core.number]
  | @leaveYielded _ u b signal =>
    have h : Owes i k F r ∨ r ∈ [.resume u signal] := ho.of_scheduled List.not_mem_nil rfl rfl
    refine h.imp_right fun hm => ?_
    cases List.mem_singleton.1 hm
    cases hr
    exact Or.inl ⟨b, signal, rfl, rfl⟩
  | allNext hk | allFull hk | allComplete hk =>
    rcases hk with ⟨_, _, rfl⟩ | ⟨_, _, rfl⟩ <;> exact Or.inl (ho.of_same (by simp) rfl)
  | abortDone h | cancelOne h | conclude h | cascadeComplete _ _ _ h =>
    obtain ⟨rs, hs, h1, h2⟩ := h.schedules
    exact Or.inl (ho.of_settling hr hs (by simp) h1 h2)
  | cancel => exact Or.inl (ho.of_same (by simp) (Core.Defers.agenda_cancelAll k _))
  | poll hg | advance hg =>
    refine Or.inl (ho.of_same ?_ rfl)
    rw [List.mem_singleton]
    rintro rfl
    exact hg
  | _ => exact Or.inl (ho.of_same (by simp) rfl)

theorem Drives.agenda {work : List Instr} (h : Drives i k work k' G)
    (hw : .perform i (.reaction r) ∉ work) :
    k'.agenda = k.agenda ∧ .perform i (.reaction r) ∉ G := by
  cases h with
  | within => exact ⟨rfl, hw⟩
  | starts => exact ⟨rfl, by simp [hw]⟩

/-- User code makes no step of a task due, but that of a new one. -/
theorem Intervenes.owes_steps (h : Intervenes i past k k' G es) (hr : r.Steps t)
    (ho : Owes i k' (G ++ F) r) : Owes i k F r ∨ r = .start k.nextTask := by
  cases h with
  | quietly => exact Or.inl ho
  | spawns h =>
    obtain ⟨ha, hG⟩ := h.agenda (r := r) List.not_mem_nil
    refine (ho.of_scheduled hG ?_ ?_).imp_right List.mem_singleton.1
    all_goals rw [ha]; simp [Core.schedule, Core.agenda_create]
  | settles hs h =>
    obtain ⟨ha, hG⟩ := h.agenda (r := r) List.not_mem_nil
    refine Or.inl (ho.of_settling hr hs hG ?_ ?_)
    all_goals rw [ha]; rfl
  | cancels h =>
    obtain ⟨ha, hG⟩ := h.agenda (r := r) (by simp)
    exact Or.inl (ho.of_same hG ha)
  | queues =>
    have h : Owes i k F r ∨ r ∈ ([] : List Reaction) := ho.of_scheduled List.not_mem_nil rfl rfl
    exact Or.inl (h.resolve_right List.not_mem_nil)
  | sends => exact Or.inl (ho.of_same (by simp) rfl)

/-- A reaction of a middleware is on the agenda, or about to be performed. -/
def Config.Due (c : Config) (i : MiddlewareId) (r : Reaction) : Prop :=
  SagaMachine.Owes i (c.world.core i) (framesOf i c.todo) r

theorem Config.due_cons (ho : SagaMachine.Owes i (w.core i) (framesOf i rest) r) :
    Config.Due ⟨x :: rest, w⟩ i r := by
  unfold Config.Due
  rw [framesOf_cons]
  split
  · exact ho.cons
  · exact ho

/--
A step of a task that is due was due before, or the task stands aside just now, or it is new.
-/
theorem Scenario.Visits.owes_steps (h : s.Visits ⟨x :: rest, w⟩) (hi : w.Has i)
    (hc : Config.step ⟨x :: rest, w⟩ = some c') (hr : r.Steps t) (ho : c'.Due i r) :
    Config.Due ⟨x :: rest, w⟩ i r ∨
      (∃ b signal, x = .leave ⟨i, t⟩ b (.yielded signal) ∧ r = .resume t signal) ∨
      r = .start (w.engine i).nextTask := by
  obtain ⟨next, -, rfl, hm⟩ := Config.meets_of_step h.knows hi hc
  replace ho : Owes i (next.world.core i) (framesOf i next.todo ++ framesOf i rest) r := by
    rw [← framesOf_append]
    exact ho
  cases hm with
  | own _ ha hdoes => exact ((ha.core ▸ hdoes).owes_steps hr ho).imp_left Config.due_cons
  | foreign _ ha hin =>
    exact ((ha.core ▸ hin).owes_steps hr ho).imp Config.due_cons Or.inr
  | drops hxd hn =>
    subst hxd hn
    exact Or.inl (Config.due_cons ho)
  | dies _ hlast hF hk =>
    subst hlast
    rw [hF, hk] at ho
    rcases ho with ho | ho | ho <;> cases ho

/-! ## Who sends -/

/-- An instruction carries out an errand of a middleware, or an action on its way to the takers. -/
def Instr.Sends (i : MiddlewareId) : Instr → Prop
  | .perform j (.errand _) | .emit j _ _ | .forwarded j _ _ => j = i
  | _ => False

theorem Instr.Sends.owner? (hy : y.Sends i) : y.owner? = some i := by
  cases y with
  | perform j job =>
    cases job with
    | reaction => exact hy.elim
    | errand => exact congrArg some hy
  | emit | forwarded => exact congrArg some hy
  | _ => exact hy.elim

/-- Whoever sends was sent for, or the loop takes an errand. -/
theorem Does.sends (h : Does i past x k k' G D es) (hy : y ∈ G) (hs : y.Sends i) :
    x.Sends i ∧ (∀ a sender, x ≠ .forwarded i a sender) ∨ x = .drain i := by
  have none (hG : ∀ y ∈ G, ¬ y.Sends i) :
      x.Sends i ∧ (∀ a sender, x ≠ .forwarded i a sender) ∨ x = .drain i := absurd hs (hG y hy)
  cases h with
  | emit | errand => exact Or.inl ⟨rfl, fun _ _ => Instr.noConfusion⟩
  | next => exact Or.inr rfl
  | start h | resume h | wake _ _ h =>
    refine none ?_
    cases h <;> simp [Instr.Sends]
  | @poll _ _ _ _ g hg | @advance _ _ _ _ g hg =>
    refine none ?_
    cases g with
    | advance | polled => simp [Instr.Sends]
    | _ => exact hg.elim
  | abort => exact none (by simp [Instr.Sends, or_imp, forall_and])
  | _ => exact none (by simp [Instr.Sends])

/-- User code sends only where the driver is at rest. -/
theorem Intervenes.not_sends (h : Intervenes i past k k' G es) :
    k.driving = false ∨ ∀ y ∈ G, ¬ y.Sends i := by
  cases h with
  | spawns h | settles _ h | cancels h => cases h <;> simp [Instr.Sends]
  | sends h => exact Or.inl h
  | _ => simp

namespace Scenario.Visits

/-- Below what is carried out at once, a job or a step of a task, there is the loop at most. -/
theorem drain_below (h : s.Visits ⟨x :: rest, w⟩) (hi : w.Has i) (ho : x.owner? = some i)
    (hx : x.Works ∨ x.Calls ∨ x.turn? = some t) : ∀ y ∈ framesOf i rest, y = .drain i := by
  have hstack : Stack i (w.core i).current (framesOf i (x :: rest)) := (h.sound hi).framed.stack
  rw [framesOf_cons, if_pos ho] at hstack
  rcases hx with hx | hx | hx
  · simp [(hstack.of_works hx).2]
  · simp [(hstack.of_calls hx).2]
  · simp [(hstack.of_turn hx).2]

/-- Where the driver is at rest, nothing is left to be done. -/
theorem pending_of_idle (h : s.Visits c) (hi : c.world.Has i)
    (hd : (c.world.engine i).driving = false) : c.world.pending i = [] ∧ framesOf i c.todo = [] := by
  have hs := (h.sound hi).framed
  have hF : framesOf i c.todo = [] := by
    by_contra hF
    exact Bool.noConfusion (hd.symm.trans (hs.driving.2 hF))
  have ha : (c.world.engine i).agenda = {} := hs.idle hF
  exact ⟨by simp [World.pending, ha], hF⟩

end Scenario.Visits

/-- No task stands aside, and nothing is on its way to a take from the bus. -/
structure Config.Hushed (c : Config) (i : MiddlewareId) : Prop where
  aside : ∀ t signal, ¬ c.Due i (.resume t signal)
  takes : ∀ x p signal, c.world.TakesFrom ⟨i, x⟩ .bus p → ¬ c.Brings ⟨i, x⟩ signal

/-- Where no reaction is left, nobody stands aside, and nothing is on its way to a take. -/
theorem Scenario.Visits.hushed_of_unhurried (h : s.Visits c) (ha : c.world.Alive i)
    (hp : c.world.pending i = []) (hF : ∀ y ∈ framesOf i c.todo, y.IsErrand i) : c.Hushed i where
  aside t signal ho := by
    obtain ⟨hfresh, hstack⟩ := List.append_eq_nil_iff.1 hp
    rcases ho with ho | ho | ho
    · rw [show (c.world.core i).agenda.stack = [] from hstack] at ho
      exact absurd ho List.not_mem_nil
    · rw [show (c.world.core i).agenda.fresh = [] from hfresh] at ho
      exact absurd ho List.not_mem_nil
    · exact hF _ ho
  takes x p signal hr := h.not_brings_of_unhurried ha hp hF hr

/-- What is hushed stays so until a task stands aside, an action is broadcast or the bus ends. -/
theorem Config.Hushed.step (hq : Config.Hushed ⟨x :: rest, w⟩ i) (h : s.Visits ⟨x :: rest, w⟩)
    (hc : Config.step ⟨x :: rest, w⟩ = some c') (ha : c'.world.Alive i)
    (hleave : ∀ t b signal, x ≠ .leave ⟨i, t⟩ b (.yielded signal))
    (hforward : ∀ a sender, x ≠ .forwarded i a sender)
    (hends : x.EndsBus i → x.owner? = none ∧ (w.engine i).driving = true) : c'.Hushed i where
  aside t signal ho := by
    have hi := (h.knows.has_iff hc i).1 ha.has
    have hsteps : Reaction.Steps t (.resume t signal) := rfl
    rcases h.owes_steps hi hc hsteps ho with ho | ⟨b, _, rfl, -⟩ | ho
    · exact hq.aside t signal ho
    · exact hleave t b _ rfl
    · cases ho
  takes z p signal hr hb := by
    by_cases hr₀ : w.TakesFrom ⟨i, z⟩ .bus p
    · rcases h.brings_take hc ha hr₀ hb with hb | ⟨-, ⟨a, sender, rfl, -⟩ | ⟨hx, hd, -⟩⟩
      · exact hq.takes z p signal hr₀ hb
      · exact hforward a sender rfl
      · obtain ⟨ho, hdriving⟩ := hends hx
        exact Bool.noConfusion ((hd ho).symm.trans hdriving)
    · exact h.not_brings_of_born hc (e := .take .bus p) trivial hr₀ hr hb

/-- Nobody sends after the end of the bus. -/
theorem Instr.not_sends_of_endsBus {next : Config} (hx : x.EndsBus i) (hn : x.exec w = some next) :
    ∀ y ∈ next.todo, ¬ y.Sends i := by
  cases x with
  | perform j job =>
    cases job with
    | reaction => exact hx.elim
    | errand e =>
      cases e with
      | finish =>
        cases hn
        exact fun y hy => absurd hy List.not_mem_nil
      | _ => exact hx.elim
  | op site env o =>
    cases o with
    | finish j =>
      obtain ⟨w', -, rfl⟩ := Option.map_eq_some_iff.1 hn
      simp only [World.runOp, World.withMiddleware, World.answerOp, World.opFinish, World.enterDriver]
      split
      · simp [Instr.Sends]
      · split
        · simp [Instr.Sends]
        · split <;> simp [Config.followedBy, Instr.Sends]
    | _ => exact hx.elim
  | _ => exact hx.elim

/-- The loop takes an errand when no reaction is left. -/
theorem Scenario.Visits.hushed_of_drain (h : s.Visits ⟨.drain i :: rest, w⟩)
    (hc : Config.step ⟨.drain i :: rest, w⟩ = some c') (ha : c'.world.Alive i) (hy : y ∈ c'.todo)
    (hs : y.Sends i) : c'.Hushed i := by
  have hi := (h.knows.has_iff hc i).1 ha.has
  have hbelow : framesOf i rest = [] := by
    have hstack : Stack i (w.core i).current (framesOf i (.drain i :: rest)) :=
      (h.sound hi).framed.stack
    rw [framesOf_cons, if_pos (show (Instr.drain i).owner? = some i from rfl)] at hstack
    exact hstack.of_drain.2
  have hrest : y ∉ rest := fun hm => by
    have hF : y ∈ framesOf i rest := List.mem_filter.2 ⟨hm, by simp [hs.owner?]⟩
    exact absurd (hbelow ▸ hF) List.not_mem_nil
  cases hnext : (w.engine i).agenda.next? with
  | none => exact absurd (Config.loop_ends rfl hnext hc ▸ hy) hrest
  | some taken =>
    obtain ⟨job, a⟩ := taken
    obtain ⟨htodo, hagenda⟩ := Config.loop_step hi rfl hnext hc
    rw [htodo] at hy
    rcases List.mem_cons.1 hy with rfl | hy
    · rcases Agenda.next?_cases hnext with ⟨r, rs, -, rfl, -⟩ | ⟨e, errands, -, -, rfl, rfl⟩
      · exact hs.elim
      · refine (h.step hc).hushed_of_unhurried ha ?_ ?_
        · rw [World.pending, hagenda]
          rfl
        · rw [htodo]
          simp [framesOf_cons, Instr.owner?, hbelow, Instr.IsErrand]
    · rcases List.mem_cons.1 hy with rfl | hy
      · exact hs.elim
      · exact absurd hy hrest

/-- While somebody sends, no task stands aside, and nothing is on its way to a take from the bus. -/
theorem Scenario.Visits.hushed (h : s.Visits c) (ha : c.world.Alive i) (hy : y ∈ c.todo)
    (hs : y.Sends i) : c.Hushed i := by
  induction h generalizing y with
  | start => exact absurd hy List.not_mem_nil
  | call =>
    rw [List.mem_singleton.1 hy] at hs
    exact hs.elim
  | @step c c' h hc ih =>
    obtain ⟨_ | ⟨x, rest⟩, w⟩ := c
    · cases hc
    have hi := (h.knows.has_iff hc i).1 ha.has
    have ha₀ := h.alive_of_step hi hc ha
    obtain ⟨next, hexec, rfl, hm⟩ := Config.meets_of_step h.knows hi hc
    -- below what is carried out at once nobody sends
    have clear {t : TaskId} (ho : x.owner? = some i) (hx : x.Works ∨ x.Calls ∨ x.turn? = some t) :
        y ∉ rest := by
      intro hm
      have hdrain := h.drain_below hi ho hx y (List.mem_filter.2 ⟨hm, by simp [hs.owner?]⟩)
      subst hdrain
      exact hs
    rcases List.mem_append.1 hy with hy | hy
    · have step (hq : Config.Hushed ⟨x :: rest, w⟩ i)
          (hleave : ∀ t b signal, x ≠ .leave ⟨i, t⟩ b (.yielded signal))
          (hforward : ∀ a sender, x ≠ .forwarded i a sender) :
          (next.followedBy rest).Hushed i :=
        hq.step h hc ha hleave hforward fun hx => absurd hs (x.not_sends_of_endsBus hx hexec y hy)
      have hF : y ∈ framesOf i next.todo := List.mem_filter.2 ⟨hy, by simp [hs.owner?]⟩
      cases hm with
      | own ho hadv hdoes =>
        rcases hdoes.sends hF hs with ⟨hx, hforward⟩ | rfl
        · exact step (ih ha₀ List.mem_cons_self hx) (by rintro t b signal rfl; exact hx) hforward
        · exact h.hushed_of_drain hc ha (List.mem_append_left _ hy) hs
      | foreign ho hadv hin =>
        have hd : (w.engine i).driving = false := hin.not_sends.resolve_right fun hG => hG y hF hs
        obtain ⟨hp, hnone⟩ := h.pending_of_idle hi hd
        refine step (h.hushed_of_unhurried ha₀ hp (by simp [hnone])) ?_ ?_
        · rintro t b signal rfl
          exact ho rfl
        · rintro a sender rfl
          exact ho rfl
      | drops hxd hn =>
        subst hxd hn
        rw [List.mem_singleton.1 hy] at hs
        exact hs.elim
      | dies _ _ hnone =>
        rw [hnone] at hF
        exact absurd hF List.not_mem_nil
    · have hdriving : (w.engine i).driving = true := by
        by_contra hd
        have hnone := (h.pending_of_idle hi (Bool.not_eq_true _ ▸ hd)).2
        have hF : y ∈ framesOf i (x :: rest) :=
          List.mem_filter.2 ⟨List.mem_cons_of_mem _ hy, by simp [hs.owner?]⟩
        rw [show framesOf i (x :: rest) = [] from hnone] at hF
        exact absurd hF List.not_mem_nil
      refine (ih ha₀ (List.mem_cons_of_mem _ hy) hs).step h hc ha ?_ ?_ ?_
      · rintro t b signal rfl
        exact clear rfl (Or.inr (Or.inr rfl)) hy
      · rintro a sender rfl
        cases sender with
        | caller => exact clear (t := 0) rfl (Or.inr (Or.inl trivial)) hy
        | _ => exact clear (t := 0) rfl (Or.inl trivial) hy
      · intro hx
        refine ⟨?_, hdriving⟩
        cases x with
        | perform j job =>
          cases job with
          | reaction => exact hx.elim
          | errand e =>
            cases e with
            | finish => exact absurd hy (clear (t := 0) (congrArg some hx) (Or.inl trivial))
            | _ => exact hx.elim
        | op => rfl
        | _ => exact hx.elim

end

end SagaMachine
