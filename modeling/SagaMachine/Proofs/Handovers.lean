import SagaMachine.Proofs.Fates
import SagaMachine.Proofs.Puts

/-!
# Signals on their way

The settlement of a take or a join comes from what it is registered with: from there it is
delivered, scheduled and performed. Until it is performed its signal stays the same, and while
nothing there is stirred no other signal is on its way.

Main statements: `Scenario.Visits.brings_iff`, `Scenario.Visits.brings_of_step`.
-/

namespace SagaMachine

/-- An instruction is about to settle an effect, or to schedule its settlement, with a signal. -/
def Instr.Brings (r : EffectRef) (signal : Signal) : Instr → Prop
  | .perform i (.reaction (.settle x signal')) | .schedule i (.settle x signal') =>
    r = ⟨i, x⟩ ∧ signal' = signal
  | .deliver (.effect target) d => r = target ∧ .ofDelivery d = signal
  | _ => False

/-- The settlement of an effect with a signal is on its way. -/
def Config.Brings (c : Config) (r : EffectRef) (signal : Signal) : Prop :=
  .settle r.effect signal ∈ c.world.pending r.mw ∨ ∃ x ∈ c.todo, x.Brings r signal

section

variable {s : Scenario} {c c' next : Config} {w w' : World} {x : Instr} {F rest : List Instr}
  {r : EffectRef} {signal : Signal} {e : Effect}

theorem Instr.Brings.settles (h : x.Brings r signal) : x.Settles r := by
  cases x with
  | perform i job =>
    cases job with
    | reaction y =>
      cases y with
      | settle => exact h.1
      | _ => exact h.elim
    | errand => exact h.elim
  | schedule i y =>
    cases y with
    | settle => exact h.1
    | _ => exact h.elim
  | deliver sink d =>
    cases sink with
    | effect => exact h.1
    | script => exact h.elim
  | _ => exact h.elim

theorem Config.brings_cons :
    Config.Brings ⟨x :: F, w⟩ r signal ↔ x.Brings r signal ∨ Config.Brings ⟨F, w⟩ r signal := by
  simp only [Config.Brings, List.mem_cons, exists_eq_or_imp]
  exact or_left_comm

theorem Config.Brings.owes (h : c.Brings r signal) : c.Owes r := by
  rcases h with h | ⟨x, hx, h⟩
  · exact Or.inl (Or.inl ⟨signal, (List.mem_append.1 h).symm⟩)
  · exact Or.inr ⟨x, hx, h.settles⟩

theorem World.mem_told : .settle r.effect signal ∈ w.told r ↔ .settle r.effect signal ∈ w.pending r.mw := by
  simp [World.told, List.mem_filter, Reaction.settles]

/-- What settles an effect neither now nor later changes nothing about what is on its way. -/
theorem World.Mum.brings_iff (h : w.Mum r next) :
    (next.followedBy F).Brings r signal ↔ Config.Brings ⟨F, w⟩ r signal := by
  have hpend : .settle r.effect signal ∈ next.world.pending r.mw ↔
      .settle r.effect signal ∈ w.pending r.mw := by
    rw [← mem_told, ← mem_told, h.withholds.told]
  refine or_congr hpend ⟨?_, fun ⟨y, hy, hb⟩ => ⟨y, List.mem_append_right _ hy, hb⟩⟩
  rintro ⟨y, hy, hb⟩
  rcases List.mem_append.1 hy with hy | hy
  · exact absurd hb.settles (h.mute y hy)
  · exact ⟨y, hy, hb⟩

/-- A settlement is scheduled. -/
theorem World.brings_schedule (hi : w.Has r.mw) {signal' : Signal} :
    Config.Brings ⟨F, w.schedule r.mw (.settle r.effect signal')⟩ r signal ↔
      signal' = signal ∨ Config.Brings ⟨F, w⟩ r signal := by
  have hpend : .settle r.effect signal ∈ (w.schedule r.mw (.settle r.effect signal')).pending r.mw ↔
      signal' = signal ∨ .settle r.effect signal ∈ w.pending r.mw := by
    simp only [World.pending, World.schedule, World.engine_setEngine hi, Agenda.schedule,
      List.mem_append, List.mem_singleton, Reaction.settle.injEq, true_and]
    tauto
  simp only [Config.Brings, hpend, or_assoc]

/-- The loop takes the next job, which goes on with what it brings. -/
theorem World.brings_execDrain (hi : w.Has r.mw) :
    ((w.execDrain r.mw).followedBy F).Brings r signal ↔ Config.Brings ⟨F, w⟩ r signal := by
  unfold World.execDrain
  cases hn : (w.engine r.mw).agenda.next? with
  | none =>
    have hpend : (w.setEngine r.mw fun e =>
        { e with agenda := e.agenda.flush, driving := false }).pending r.mw = w.pending r.mw := by
      simp [World.pending, World.engine_setEngine hi, Agenda.flush]
    simp only [Config.Brings, Config.followedBy, hpend, List.nil_append]
  | some next =>
    obtain ⟨job, agenda⟩ := next
    have hpend : (w.setEngine r.mw fun e => { e with agenda }).pending r.mw =
        agenda.fresh ++ agenda.stack := by
      simp [World.pending, World.engine_setEngine hi]
    have hloop : ¬ (Instr.drain r.mw).Brings r signal := id
    simp only [Config.followedBy, List.cons_append, List.nil_append]
    rw [Config.brings_cons, Config.brings_cons, or_iff_right hloop]
    simp only [Config.Brings, hpend]
    rcases Agenda.next?_cases hn with ⟨y, ys, hy, rfl, rfl⟩ | ⟨e, es, hy, -, rfl, rfl⟩
    · have hjob : (Instr.perform r.mw (.reaction y)).Brings r signal ↔
          .settle r.effect signal = y := by
        cases y with
        | settle z signal' =>
          obtain ⟨i, x⟩ := r
          simp [Instr.Brings, eq_comm]
        | _ => simp [Instr.Brings]
      rw [show w.pending r.mw = y :: ys from hy, hjob, List.mem_cons, or_assoc]
      rfl
    · simp [show w.pending r.mw = [] from hy, Instr.Brings]

/-- Another middleware's driver is entered, or the driver of this one. -/
theorem World.brings_enterDriver {i : MiddlewareId} :
    ((w.enterDriver i []).followedBy F).Brings r signal ↔ Config.Brings ⟨F, w⟩ r signal := by
  have hm : w.Mum r (w.enterDriver i []) := .enterDriver (.refl r w) rfl
  exact hm.brings_iff

theorem World.living?_of_alive {i : MiddlewareId} (ha : w.Alive i) : ∃ m, w.living? i = some m := by
  obtain ⟨m, hm, hal⟩ := Option.map_eq_some_iff.1
    (show (w.middlewares.get? i).map (·.alive) = some true from ha)
  exact ⟨m, by simp [World.living?, hm, hal]⟩

/-- A delivery to an effect becomes the schedule of its settlement. -/
theorem World.brings_execDeliver (ha : w.Alive r.mw) {d : Delivery} :
    ((w.execDeliver (.effect r) d).followedBy F).Brings r signal ↔
      .ofDelivery d = signal ∨ Config.Brings ⟨F, w⟩ r signal := by
  obtain ⟨m, hm⟩ := living?_of_alive ha
  simp only [World.execDeliver, World.notify, hm]
  rw [World.brings_enterDriver, World.brings_schedule ha.has]

theorem World.not_alive_opDrop {i : MiddlewareId} : ¬ (w.opDrop .outside i).world.Alive i := by
  intro ha
  cases hm : w.living? i with
  | none =>
    simp only [World.opDrop, hm] at ha
    obtain ⟨m, hm'⟩ := living?_of_alive ha
    cases hm.symm.trans hm'
  | some m =>
    simp only [World.opDrop, hm] at ha
    simp [World.Alive, World.alive?] at ha

/-- What settles a take or a join brings it a signal. -/
theorem Scenario.Visits.brings_of_settles (h : s.Visits c) (hr : c.world.Issued r e)
    (he : e.Waits) (hx : x ∈ c.todo) (hs : x.Settles r) : ∃ signal, x.Brings r signal := by
  obtain ⟨i, y⟩ := r
  have hput : ¬ PutName (c.world.past i) y := by
    rintro ⟨t, q, target, hm⟩
    obtain rfl := h.issued_once hr ⟨hr.has, t, q, hm⟩
    exact he
  have hk : x.Knows c.world.past := by
    rcases h.knows.todo with ⟨o, ho⟩ | hk
    · rw [ho] at hx
      rw [List.mem_singleton.1 hx] at hs
      exact hs.elim
    · exact hk x hx
  cases x with
  | perform j job =>
    cases job with
    | reaction z =>
      cases z with
      | settle z signal => exact ⟨signal, hs, rfl⟩
      | _ => exact hs.elim
    | errand e =>
      obtain ⟨z, hz, hzr⟩ := hs
      cases hzr
      exact absurd (hk _ hz) hput
  | schedule j z =>
    cases z with
    | settle z signal => exact ⟨signal, hs, rfl⟩
    | _ => exact hs.elim
  | emit j a sender | forwarded j a sender =>
    cases sender with
    | effect z =>
      cases hs
      exact absurd hk hput
    | _ => exact hs.elim
  | deliver sink d =>
    cases sink with
    | effect => exact ⟨_, hs, rfl⟩
    | script => exact hs.elim
  | _ => exact hs.elim

/-- A take or a join whose settlement is on its way gets a signal. -/
theorem Scenario.Visits.brings_of_owes (h : s.Visits c) (hr : c.world.Issued r e)
    (he : e.Waits) (ho : c.Owes r) : ∃ signal, c.Brings r signal := by
  rcases ho with (⟨signal, hm⟩ | ⟨errand, herrand, hreply⟩) | ⟨x, hx, hs⟩
  · exact ⟨signal, Or.inl (List.mem_append.2 hm.symm)⟩
  · obtain ⟨t, q, target, hm⟩ := (h.knows.world.engine r.mw).errand errand herrand _ hreply
    obtain rfl := h.issued_once hr ⟨hr.has, t, q, hm⟩
    exact he.elim
  · obtain ⟨signal, hb⟩ := h.brings_of_settles hr he hx hs
    exact ⟨signal, Or.inr ⟨x, hx, hb⟩⟩

/--
An instruction that neither settles a take or a join, nor stirs what it is registered with, does
not concern it.
-/
theorem Scenario.Visits.mum_issued {K : WaitKind → Prop} (h : s.Visits ⟨x :: rest, w⟩)
    (hn : x.exec w = some next) (ha : next.world.Alive r.mw) (hr : w.Issued r e) (he : e.Waits)
    (hl : w.Unlisted K r) (hK : ¬ x.Stirs K r.mw w) (hs : ¬ x.Settles r)
    (hloop : x ≠ .drain r.mw) : w.Mum r next := by
  have hc : Config.step ⟨x :: rest, w⟩ = some (next.followedBy rest) := by
    simp [Config.step, hn]
  have ha₀ := h.alive_of_step hr.has hc ha
  refine h.mum ha₀ hl hs hK (fun hm => ?_) (fun {i} hi hnew => ?_)
    (fun i hi hir => hloop (hi.trans (by rw [hir]))) (fun env i hd hir => ?_) hn
  · cases x with
    | answer turn b nests y result env =>
      obtain rfl := hm
      exact h.not_attempt_of_waits List.mem_cons_self rfl hr he rfl rfl
    | _ => exact hm.elim
  · subst hnew
    obtain ⟨t, q, hm⟩ := hr.triggered
    exact Nat.lt_irrefl _ ((h.sound hr.has).tabled (Config.alive_iff.2 ha₀) |>.named hm)
  · subst hd hir
    obtain ⟨w', -, rfl⟩ := Option.map_eq_some_iff.1 hn
    exact World.not_alive_opDrop ha

/--
While nothing that it is registered with is stirred, nothing but what is on its way already comes
to a take or a join.
-/
theorem Scenario.Visits.brings_iff {K : WaitKind → Prop} (h : s.Visits ⟨x :: rest, w⟩)
    (hc : Config.step ⟨x :: rest, w⟩ = some c') (ha : c'.world.Alive r.mw)
    (hr : w.Issued r e) (he : e.Waits) (hl : w.Unlisted K r) (hK : ¬ x.Stirs K r.mw w)
    (hx : ∀ signal, x ≠ .perform r.mw (.reaction (.settle r.effect signal))) :
    c'.Brings r signal ↔ Config.Brings ⟨x :: rest, w⟩ r signal := by
  have ha₀ := h.alive_of_step hr.has hc ha
  obtain ⟨next, hn, rfl⟩ := Option.map_eq_some_iff.1 hc
  rw [Config.brings_cons]
  by_cases hs : x.Settles r
  · obtain ⟨signal', hb⟩ := h.brings_of_settles hr he List.mem_cons_self hs
    cases x with
    | perform i job =>
      cases job with
      | reaction y =>
        cases y with
        | settle y signal'' =>
          obtain rfl := hb.1
          exact absurd rfl (hx _)
        | _ => exact hb.elim
      | errand => exact hb.elim
    | schedule i y =>
      cases y with
      | settle y signal'' =>
        obtain rfl := hb.1
        cases hn
        refine (World.brings_schedule (r := ⟨i, y⟩) hr.has).trans (or_congr_left ?_)
        simp [Instr.Brings]
      | _ => exact hb.elim
    | deliver sink d =>
      cases sink with
      | effect target =>
        obtain rfl := hb.1
        cases hn
        refine (World.brings_execDeliver ha₀).trans (or_congr_left ?_)
        simp [Instr.Brings]
      | script => exact hb.elim
    | _ => exact hb.elim
  · rw [or_iff_right fun hb : x.Brings r signal => hs hb.settles]
    by_cases hloop : x = .drain r.mw
    · subst hloop
      cases hn
      exact World.brings_execDrain hr.has
    · exact (h.mum_issued hn ha hr he hl hK hs hloop).brings_iff

/-- The same in one direction, wherever the signal goes. -/
theorem Scenario.Visits.brings_of_step {K : WaitKind → Prop} (h : s.Visits ⟨x :: rest, w⟩)
    (hc : Config.step ⟨x :: rest, w⟩ = some c') (ha : c'.world.Alive r.mw)
    (hr : w.Issued r e) (he : e.Waits) (hl : w.Unlisted K r) (hK : ¬ x.Stirs K r.mw w)
    (hb : c'.Brings r signal) : Config.Brings ⟨x :: rest, w⟩ r signal := by
  by_cases hx : ∃ signal', x = .perform r.mw (.reaction (.settle r.effect signal'))
  · obtain ⟨signal', hx⟩ := hx
    obtain ⟨next, hn, rfl⟩ := Option.map_eq_some_iff.1 hc
    subst hx
    have hm := h.mum_of_still (h.alive_of_step hr.has hc ha) rfl rfl rfl hn
    exact Config.brings_cons.2 (Or.inr (hm.brings_iff.1 hb))
  · exact (h.brings_iff hc ha hr he hl hK fun signal' hx' => hx ⟨signal', hx'⟩).1 hb

end

end SagaMachine
