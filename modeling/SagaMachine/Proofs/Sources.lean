import SagaMachine.Proofs.Books
import SagaMachine.Proofs.Handovers

/-!
# Where signals come from

A take from the bus is brought an action where this action is broadcast, and END where the bus is
ended; a join is brought the outcome of its task where this outcome is recorded. Nothing else
brings them anything.

Main statements: `Scenario.Visits.brings_take`, `Scenario.Visits.brings_join`.
-/

namespace SagaMachine

section

variable {s : Scenario} {c c' next : Config} {w w' : World} {x : Instr} {F rest : List Instr}
  {r : EffectRef} {signal : Signal} {e : Effect} {i : MiddlewareId} {t : TaskId}

/-! ## Signals that were just scheduled -/

/-- Reactions that are scheduled come after the fresh ones, and before those on the stack. -/
theorem World.pending_scheduled {k : Core} {rs : List Reaction}
    (hadv : w'.core i = k.schedule rs) (hk : k.agenda = (w.core i).agenda) :
    w'.pending i = (w.engine i).agenda.fresh ++ rs ++ (w.engine i).agenda.stack := by
  have hfresh : (w'.core i).agenda.fresh = (w.core i).agenda.fresh ++ rs := by
    rw [hadv, ← hk]
    rfl
  have hstack : (w'.core i).agenda.stack = (w.core i).agenda.stack := by
    rw [hadv, ← hk]
    rfl
  exact congrArg₂ (· ++ ·) hfresh hstack

/-- A signal is on its way if it was before, or if it was scheduled. -/
theorem Config.brings_of_scheduled {k : Core} {rs : List Reaction}
    (hadv : w'.core r.mw = k.schedule rs) (hk : k.agenda = (w.core r.mw).agenda)
    (hb : Config.Brings ⟨F, w'⟩ r signal) :
    Config.Brings ⟨F, w⟩ r signal ∨ .settle r.effect signal ∈ rs := by
  rcases hb with hm | hx
  · have hm : Reaction.settle r.effect signal ∈ w'.pending r.mw := hm
    rw [World.pending_scheduled hadv hk, List.append_assoc] at hm
    rcases List.mem_append.1 hm with hm | hm
    · exact Or.inl (Or.inl (List.mem_append_left _ hm))
    · rcases List.mem_append.1 hm with hm | hm
      · exact Or.inr hm
      · exact Or.inl (Or.inl (List.mem_append_right _ hm))
  · exact Or.inl (Or.inr hx)

/-- An effect is among the takers of the bus. -/
def World.OnBus (w : World) (r : EffectRef) : Prop :=
  ∃ t ∈ (w.engine r.mw).bus.takers, t.effect = r.effect

theorem Config.brings_untouched (hu : World.Untouched r.mw w w') :
    Config.Brings ⟨F, w'⟩ r signal ↔ Config.Brings ⟨F, w⟩ r signal := by
  simp only [Config.Brings, World.pending, hu.engine]

theorem World.onBus_untouched (hu : World.Untouched r.mw w w') : w'.OnBus r ↔ w.OnBus r := by
  simp only [World.OnBus, hu.engine]

theorem World.brings_broadcast (hi : w.Has r.mw) {a : Action}
    (hb : Config.Brings ⟨F, w.broadcast r.mw a⟩ r signal) :
    Config.Brings ⟨F, w⟩ r signal ∨ signal = .value (.action a) ∧ w.OnBus r := by
  obtain ⟨rs, hadv, hrs⟩ := (World.Advances.start hi).broadcast a
  refine (Config.brings_of_scheduled hadv.core rfl hb).imp_right fun hm => ?_
  obtain ⟨t, ht, he⟩ := hrs _ hm
  have htaker : t ∈ (w.engine r.mw).bus.takers :=
    (Bus.select_perm _ _ _).subset (List.mem_append_left _ ht)
  exact ⟨(Reaction.settle.inj he).2, t, htaker, (Reaction.settle.inj he).1.symm⟩

theorem World.brings_endBus (hi : w.Has r.mw) (hb : Config.Brings ⟨F, w.endBus r.mw⟩ r signal) :
    Config.Brings ⟨F, w⟩ r signal ∨ signal = .ended ∧ w.OnBus r := by
  obtain ⟨rs, hadv, hrs⟩ := (World.Advances.start hi).endBus
  refine (Config.brings_of_scheduled hadv.core rfl hb).imp_right fun hm => ?_
  obtain ⟨t, ht, he⟩ := hrs _ hm
  exact ⟨(Reaction.settle.inj he).2, t, ht, (Reaction.settle.inj he).1.symm⟩

theorem World.brings_opFinish {site : Site} (hi : w.Has r.mw)
    (hb : ((w.withMiddleware site (.finish r.mw) r.mw fun _ => w.opFinish site r.mw).followedBy
      F).Brings r signal) : Config.Brings ⟨F, w⟩ r signal ∨
      (w.engine r.mw).driving = false ∧ signal = .ended ∧ w.OnBus r := by
  have hstill {G : List Instr} (hG : (G.all fun y => !y.pays) = true) :
      Config.Brings (Config.followedBy ⟨G, w⟩ F) r signal → Config.Brings ⟨F, w⟩ r signal :=
    (World.Mum.of_idle (.refl r w) hG).brings_iff.1
  unfold World.withMiddleware at hb
  split at hb
  · exact Or.inl (hstill rfl hb)
  · unfold World.opFinish at hb
    split at hb
    · exact Or.inl ((World.Mum.of_idle ((World.Withholds.refl r w).queue _) rfl).brings_iff.1 hb)
    · rename_i hd
      refine (World.brings_endBus hi ?_).imp id fun hb => ⟨by simpa using hd, hb⟩
      exact (World.Mum.followedBy (.enterDriver (.refl r _) rfl) rfl).brings_iff.1 hb

/-- The outcome that is recorded stands in the table of outcomes. -/
theorem World.outcomes_finalize (hi : w.Has i) {n : TaskNode} (hn : w.task? i t = some n)
    (o : Outcome) : ((w.finalize i t o).2.engine i).outcomes.get? t = some o := by
  have hbook : ((w.finalize i t o).2.engine i).outcomes = (w.engine i).outcomes.insert t o :=
    congrArg Book.outcomes (World.book_finalize hi hn o)
  rw [hbook, Table.get?_insert, if_pos rfl]

theorem World.brings_finalize (hi : w.Has r.mw) {o : Outcome}
    (hb : Config.Brings ⟨F, (w.finalize r.mw t o).2⟩ r signal) : Config.Brings ⟨F, w⟩ r signal ∨
      ((w.finalize r.mw t o).2.engine r.mw).outcomes.get? t = some o ∧ signal = .ofOutcome o := by
  cases hn : w.task? r.mw t with
  | none =>
    rw [World.finalize_of_absent hn] at hb
    exact Or.inl hb
  | some n =>
    obtain ⟨-, quiet, -, hadv⟩ := (World.Advances.start hi).finalize hn o
    refine (Config.brings_of_scheduled hadv.core (Core.Defers.agenda_bury _ t) hb).imp_right
      fun hm => ?_
    obtain ⟨y, -, hy⟩ := List.mem_map.1 hm
    exact ⟨World.outcomes_finalize hi hn o, (Reaction.settle.inj hy).2.symm⟩

theorem World.cascadeOn_world (r' : Option Cascade × World) : (World.cascadeOn i r').world = r'.2 := by
  unfold World.cascadeOn
  split <;> rfl

/-- A task that is to be completed gets its result for an outcome, if it still can. -/
theorem World.execCascade_complete (w : World) (i : MiddlewareId) (t : TaskId) :
    w.execCascade i (.complete t) = ⟨[], w⟩ ∨ ∃ v, w.execCascade i (.complete t) = World.cascadeOn i
      ((w.setTask i t fun n => { n with result := none }).finalize i t (.done v)) := by
  unfold World.execCascade
  simp only
  split
  · exact Or.inl rfl
  · split
    · exact Or.inl rfl
    · split
      · exact Or.inl rfl
      · exact Or.inr ⟨_, rfl⟩

/--
What an instruction that may record the outcome of a task means for those who join on it: nothing,
or it does record the outcome, and they are told while the task leaves the table.
-/
inductive World.Finalizes (i : MiddlewareId) (t : TaskId) (w : World) (next : Config) : Prop
  | still (mum : ∀ r, w.Mum r next)
  | records {v : World} {o : Outcome} (has : v.Has i) (withholds : ∀ r, w.Withholds r v)
      (joiners : v.joiners i t = w.joiners i t) (world : next.world = (v.finalize i t o).2)
      (mum : ∀ r, (v.finalize i t o).2.Mum r next)

theorem World.joiners_setTask (hi : w.Has i) {f : TaskNode → TaskNode}
    (hf : ∀ n, (f n).joiners = n.joiners) : (w.setTask i t f).joiners i t = w.joiners i t := by
  simp only [World.joiners, World.task?, World.setTask, World.engine_setEngine hi,
    Table.get?_modify, if_true]
  cases (w.engine i).tasks.get? t <;> simp [hf]

/-- An instruction that stirs the joiners of a task may record its outcome. -/
theorem Instr.finalizes (hi : w.Has i) (hK : x.Stirs (· = .join t) i w)
    (hn : x.exec w = some next) : w.Finalizes i t next := by
  have hrefl (r : EffectRef) : w.Withholds r w := .refl r w
  cases x with
  | abortDone turn f wasCurrent =>
    obtain ⟨mw, u⟩ := turn
    obtain ⟨rfl, ht⟩ := hK
    cases ht
    cases hn
    cases wasCurrent with
    | true => exact .still fun r => .nil ((hrefl r).setEngine rfl)
    | false =>
      exact .records hi hrefl rfl (World.cascadeOn_world _) fun r => .cascadeOn (.refl r _)
  | conclude turn =>
    obtain ⟨mw, u⟩ := turn
    obtain ⟨rfl, ht⟩ := hK
    cases ht
    cases hn
    refine .records (v := w.setEngine mw fun e => { e with halted := none })
      (World.has_setEngine.2 hi) (fun r => (hrefl r).setEngine rfl) ?_ (World.cascadeOn_world _)
      fun r => .cascadeOn (.refl r _)
    simp only [World.joiners, World.task?, World.engine_setEngine hi]
  | cancelOne turn wasCurrent order cascades =>
    obtain ⟨mw, u⟩ := turn
    obtain ⟨rfl, ht⟩ := hK
    cases ht
    cases hn
    cases wasCurrent with
    | true => exact .still fun r => .of_idle ((hrefl r).setEngine rfl) rfl
    | false => exact .records hi hrefl rfl rfl fun r => .of_idle (.refl r _) rfl
  | cascade j c =>
    cases c with
    | abort => exact hK.elim
    | complete u =>
      obtain ⟨rfl, ht⟩ := hK
      cases ht
      cases hn
      rcases w.execCascade_complete j t with he | ⟨value, he⟩
      · rw [he]
        exact .still fun r => .nil (hrefl r)
      · rw [he]
        exact .records (v := w.setTask j t fun n => { n with result := none })
          (World.has_setEngine.2 hi) (fun r => (hrefl r).setTask _ _)
          (World.joiners_setTask hi fun _ => rfl) (World.cascadeOn_world _)
          fun r => .cascadeOn (.refl r _)
  | forwarded =>
    obtain ⟨-, id, hid⟩ := hK
    cases hid
  | perform j job =>
    cases job with
    | reaction => exact hK.elim
    | errand errand =>
      cases errand with
      | dispatch => exact hK.elim
      | put =>
        obtain ⟨id, hid⟩ := hK
        cases hid
      | finish =>
        obtain ⟨-, id, hid⟩ := hK
        cases hid
  | op site env o =>
    cases o with
    | finish =>
      obtain ⟨-, id, hid⟩ := hK
      cases hid
    | put | close =>
      obtain ⟨c, id, -, hid⟩ := hK
      cases hid
    | resolve | reject =>
      obtain ⟨d, hid⟩ := hK
      cases hid
    | _ => exact hK.elim
  | moveClock =>
    obtain ⟨d, hid⟩ := hK
    cases hid
  | _ => exact hK.elim

namespace Scenario.Visits

/-- Nothing is on its way to a take or a join that was just triggered. -/
theorem not_brings_of_born (h : s.Visits ⟨x :: rest, w⟩) (hc : Config.step ⟨x :: rest, w⟩ = some c')
    (he : e.Waits) (hn : ¬ w.Issued r e) (hr : c'.world.Issued r e) : ¬ c'.Brings r signal := by
  obtain ⟨⟨t, b, nests, rfl⟩, hy⟩ := h.trigger_of_issued hc hn hr
  obtain ⟨i, y⟩ := r
  obtain rfl : y = (w.engine i).nextEffect := hy
  cases hc
  intro hb
  have hm : w.Mum ⟨i, (w.engine i).nextEffect⟩ (w.execTrigger ⟨i, t⟩ b nests e) := by
    refine .execTrigger fun name routine hcall => ?_
    subst hcall
    exact he.elim
  exact (h.new rfl).owes (hm.brings_iff.1 hb).owes

/-- A take from the bus is brought the actions that are broadcast while it is there, and END. -/
theorem brings_take {p : Pattern} (h : s.Visits ⟨x :: rest, w⟩)
    (hc : Config.step ⟨x :: rest, w⟩ = some c') (ha : c'.world.Alive r.mw)
    (hr : w.TakesFrom r .bus p) (hb : c'.Brings r signal) :
    Config.Brings ⟨x :: rest, w⟩ r signal ∨ w.OnBus r ∧
      ((∃ a sender, x = .forwarded r.mw a sender ∧ signal = .value (.action a)) ∨
        x.EndsBus r.mw ∧ (x.owner? = none → (w.engine r.mw).driving = false) ∧
          signal = .ended) := by
  have hi := hr.has
  have ha₀ := h.alive_of_step hi hc ha
  have hl : w.Unlisted (fun k => ∃ id, k = .take .bus id) r := fun k hk =>
    have ⟨t, hclaims⟩ := (h.wired.fits ha₀).backed hk
    h.source_of_take ha₀ hr hclaims
  by_cases hK : x.Stirs (fun k => ∃ id, k = .take .bus id) r.mw w
  · obtain ⟨next, hn, rfl⟩ := Option.map_eq_some_iff.1 hc
    rw [Config.brings_cons]
    cases x with
    | forwarded j a sender =>
      obtain ⟨rfl, -⟩ := hK
      have hs : ¬ (Instr.forwarded r.mw a sender).Settles r := fun hs =>
        have ⟨_, hb⟩ := h.brings_of_settles hr trivial List.mem_cons_self hs
        hb
      cases hn
      unfold World.execForwarded at hb
      split at hb
      · exact Or.inl (Or.inr hb)
      · split at hb
        · exact Or.inl (Or.inr ((World.Mum.finishEmit (.refl r w) hs _).brings_iff.1 hb))
        · have hu : World.Untouched r.mw w (w.reduceHost r.mw a) := World.untouched_reduceHost a
          have hb := (World.Mum.finishEmit (.refl r _) hs _).brings_iff.1 hb
          rcases World.brings_broadcast (hu.has.2 hi) hb with hb | ⟨hsignal, ht⟩
          · exact Or.inl (Or.inr ((Config.brings_untouched hu).1 hb))
          · exact Or.inr ⟨(World.onBus_untouched hu).1 ht, Or.inl ⟨a, sender, rfl, hsignal⟩⟩
    | perform j job =>
      cases job with
      | reaction => exact hK.elim
      | errand errand =>
        cases errand with
        | dispatch => exact hK.elim
        | put =>
          obtain ⟨id, id', hid⟩ := hK
          cases hid
        | finish =>
          obtain ⟨rfl, -⟩ := hK
          cases hn
          exact (World.brings_endBus (w := w.record r.mw (.fetched .finish)) hi hb).imp Or.inr
            fun ⟨hsignal, ht⟩ => ⟨ht, Or.inr ⟨rfl, nofun, hsignal⟩⟩
    | op site env o =>
      cases o with
      | finish j =>
        obtain ⟨rfl, -⟩ := hK
        obtain ⟨w', hw', rfl⟩ := Option.map_eq_some_iff.1 hn
        obtain ⟨n, rfl⟩ := World.spend_eq hw'
        refine (World.brings_opFinish (w := { w with budget := n }) hi hb).imp Or.inr ?_
        exact fun ⟨hd, hsignal, ht⟩ => ⟨ht, Or.inr ⟨rfl, fun _ => hd, hsignal⟩⟩
      | put | close =>
        obtain ⟨c, id, -, id', hid⟩ := hK
        cases hid
      | resolve | reject =>
        obtain ⟨d, id, hid⟩ := hK
        cases hid
      | _ => exact hK.elim
    | abortDone | conclude | cancelOne =>
      obtain ⟨-, id, hid⟩ := hK
      cases hid
    | cascade j c =>
      cases c with
      | abort => exact hK.elim
      | complete =>
        obtain ⟨-, id, hid⟩ := hK
        cases hid
    | moveClock =>
      obtain ⟨d, id, hid⟩ := hK
      cases hid
    | _ => exact hK.elim
  · exact Or.inl (h.brings_of_step hc ha hr trivial hl hK hb)

/-- A join is registered with its task at most. -/
theorem unlisted_join {target : TaskRef} (h : s.Visits c) (ha : c.world.Alive r.mw)
    (hr : c.world.Issued r (.join target)) : c.world.Unlisted (· = .join target.id) r := by
  intro k hk
  obtain ⟨t, hclaims⟩ := (h.wired.fits ha).backed hk
  have hk := h.awaits_of_claims ha hr trivial hclaims
  cases k with
  | join t => exact congrArg WaitKind.join hk
  | _ => exact hk.elim

/-- A join is brought the outcome of its task, where this outcome is recorded. -/
theorem brings_join {target : TaskRef} (h : s.Visits ⟨x :: rest, w⟩)
    (hc : Config.step ⟨x :: rest, w⟩ = some c') (ha : c'.world.Alive r.mw)
    (hr : w.Issued r (.join target)) (hb : c'.Brings r signal) :
    Config.Brings ⟨x :: rest, w⟩ r signal ∨
      ∃ o, (c'.world.engine r.mw).outcomes.get? target.id = some o ∧ signal = .ofOutcome o := by
  have ha₀ := h.alive_of_step hr.has hc ha
  by_cases hK : x.Stirs (· = .join target.id) r.mw w
  · obtain ⟨next, hn, rfl⟩ := Option.map_eq_some_iff.1 hc
    rw [Config.brings_cons]
    cases Instr.finalizes hr.has hK hn with
    | still mum => exact Or.inl (Or.inr ((mum r).brings_iff.1 hb))
    | @records v o has withholds _ world mum =>
      have hv : World.Mum r w ⟨[], v⟩ := .nil (withholds r)
      refine (World.brings_finalize has ((mum r).brings_iff.1 hb)).imp
        (fun hb => Or.inr (hv.brings_iff.1 hb)) ?_
      rintro ⟨ho, hsignal⟩
      exact ⟨o, world ▸ ho, hsignal⟩
  · exact Or.inl (h.brings_of_step hc ha hr trivial (h.unlisted_join ha₀ hr) hK hb)

end Scenario.Visits

end

end SagaMachine
