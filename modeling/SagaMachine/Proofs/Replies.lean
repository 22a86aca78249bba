import SagaMachine.Proofs.Exchanges

/-!
# Dialogues outside of steps

The step of a task ends with its body at rest or about to be dropped, the driver begins the
steps that are due, tasks end, and user code intervenes: in each case the dialogues of all tasks
fit to the engine again.

Main statement: `Does.voiced`.
-/

namespace SagaMachine

section

variable {i : MiddlewareId} {k k' : Core} {F G : List Instr} {D D' : List TaskId} {t u : TaskId}
  {d : Talk} {x g : Instr} {past es : List Event}

/-! ## The end of a step -/

/-- The body of another task is about to be dropped. -/
theorem Voiced.drops_other (h : Voiced i t d k F D) (hut : u ≠ t) : Voiced i t d k F ([u] ++ D) := by
  have hmem : t ∈ [u] ++ D ↔ t ∈ D := by simp [hut.symm]
  have hcount : ([u] ++ D).count t = D.count t := by simp [hut]
  exact
    { count := h.count
      roots := h.roots
      reserved := h.reserved
      pending := h.pending
      body := fun hp hb => ⟨fun hm => (h.body hp hb).1 (hmem.1 hm), (h.body hp hb).2⟩
      rest := h.rest
      turn := fun y hy ht => ⟨fun hm => (h.turn y hy ht).1 (hmem.1 hm), (h.turn y hy ht).2⟩
      drop := fun hm => by
        rw [hcount]
        exact h.drop (hmem.1 hm)
      torn := h.torn
      unborn := fun hn => ⟨(h.unborn hn).1, fun hm => (h.unborn hn).2.1 (hmem.1 hm), (h.unborn hn).2.2⟩
      somewhere := fun hc hn => (h.somewhere hc hn).imp id fun h => h.imp id hmem.2
      halted := h.halted }

/-- A body is parked: what is due agrees with what the task is parked on. -/
theorem Voiced.parks (h : Voiced i t d k [x, .drain i] D) (hx : x.turn? = some t) (ha : k.Afoot t)
    (hp : ∃ p, k.posture t = some p) {pending : Option EffectId} {r : List Reaction}
    (hrest : Resting t d.phase pending (r.filter (·.Steps t))) :
    Voiced i t d ((k.park t pending).schedule r) [.drain i] D := by
  obtain ⟨hD, hopen, hdue, -⟩ := h.turn x List.mem_cons_self hx
  have hdue' : dueSteps ((k.park t pending).schedule r) [.drain i] t = r.filter (·.Steps t) := by
    simp only [dueSteps, List.filterMap_cons, List.filter_append, List.append_eq_nil_iff] at hdue
    simp [dueSteps, Core.schedule, Core.park, Core.alter, Instr.reaction?, hdue]
  have hpost : ∀ {p'}, ((k.park t pending).schedule r).posture t = some p' →
      p'.pending = pending := by
    intro p' hp
    simp only [Core.posture_schedule, Core.park, Core.posture_alter, if_true] at hp
    obtain ⟨p, -, rfl⟩ := Option.map_eq_some_iff.1 hp
    rfl
  exact
    { count := h.count
      roots := h.roots
      reserved := fun y hy z hz => by
        cases List.mem_singleton.1 hy
        cases hz
      pending := h.pending
      body := fun _ _ => ⟨hD, hopen⟩
      rest := fun hp _ _ => by
        rw [hpost hp, hdue']
        exact hrest
      turn := fun y hy ht => by
        cases List.mem_singleton.1 hy
        cases ht
      drop := fun hm => absurd hm hD
      torn := fun ht => by
        rw [ht] at hopen
        exact absurd trivial hopen
      unborn := fun hn => absurd ha.1 (Nat.not_lt_of_le hn)
      somewhere := fun _ _ => by
        obtain ⟨p, hp⟩ := hp
        exact Or.inl ⟨{ p with hasBody := true, pending, status := .suspended },
          by simp [Core.park, hp], rfl⟩
      halted := h.halted }

/-- A body that came to its end, or whose task is gone, is about to be dropped. -/
theorem Voiced.closes (h : Voiced i t d k [x, .drain i] D) (hx : x.turn? = some t) (ha : k.Afoot t)
    (hfin : d.phase.IsFinal ∨ k.Doomed t) (hg : g.turn? = none) (hgr : g.reaction? = none) :
    Voiced i t d { k with current := none } [g, .drain i] ([t] ++ D) := by
  obtain ⟨hD, hopen, -, -⟩ := h.turn x List.mem_cons_self hx
  have hturn : ∀ y ∈ [g, Instr.drain i], y.turn? = none := by
    intro y hy
    simp only [List.mem_cons, List.not_mem_nil, or_false] at hy
    rcases hy with rfl | rfl
    · exact hg
    · rfl
  exact
    { count := h.count
      roots := h.roots
      reserved := fun y hy z hz => by
        rw [Instr.reserved?_of_turn? (hturn y hy)] at hz
        cases hz
      pending := h.pending
      body := fun {p} hp hb => by
        rw [(ha.2 p hp).1] at hb
        cases hb
      rest := fun {p} hp hb _ => by
        rw [(ha.2 p hp).1] at hb
        cases hb
      turn := fun y hy ht => by
        rw [hturn y hy] at ht
        cases ht
      drop := fun _ => ⟨hopen, hfin, by simp [List.count_eq_zero_of_not_mem hD]⟩
      torn := fun ht => by
        rw [ht] at hopen
        exact absurd trivial hopen
      unborn := fun hn => absurd ha.1 (Nat.not_lt_of_le hn)
      somewhere := fun _ _ => Or.inr (Or.inr (List.mem_append_left _ (List.mem_singleton.2 rfl)))
      halted := h.halted }

/-- The dialogues of all tasks fit to the engine when the step of a task is over. -/
theorem Does.voiced_leave {b : Body} {exit : Exit}
    (h : Does i past (.leave ⟨i, u⟩ b exit) k k' G D' es) (hcur : k.current = some u)
    (ho : Orderly i k [.leave ⟨i, u⟩ b exit, .drain i])
    (hT : Tabled k [.leave ⟨i, u⟩ b exit, .drain i] past)
    (hv : Voiced i t d k [.leave ⟨i, u⟩ b exit, .drain i] D) :
    Voiced i t d k' (G ++ [.drain i]) (D' ++ D) := by
  obtain ⟨ha, hp⟩ := ho.driver hcur
  have hx : (Instr.leave ⟨i, u⟩ b exit).turn? = some u := rfl
  have hrel := ho.frames _ List.mem_cons_self
  have hvoice : u = t → ¬ d.phase.IsClosed ∧ (Instr.leave ⟨i, u⟩ b exit).Voices d.phase := by
    rintro rfl
    obtain ⟨-, h1, -, h2⟩ := hv.turn _ List.mem_cons_self hx
    exact ⟨h1, h2⟩
  -- what the end of the step means for other tasks
  have hothers : ∀ {G : List Instr} {k' : Core}, u ≠ t → (∀ y ∈ G, y.turn? = none ∧ y.reaction? = none) →
      Core.Eases t k k' → (k.HasBody t → k'.HasBody t) → Voiced i t d k' (G ++ [.drain i]) D := by
    intro G k' hut hG he hb
    refine Voiced.ease (Voiced.reframe (X := [_]) hv ?_ ?_) he hb
    · intro y hy
      cases List.mem_singleton.1 hy
      exact ⟨fun h => hut (Option.some.inj h), fun _ h => by cases h⟩
    · intro y hy
      exact ⟨.of_none (hG y hy).1 (hG y hy).2 t, Instr.reserved?_of_turn? (hG y hy).1⟩
  have hone : ∀ {g : Instr}, g.turn? = none → g.reaction? = none → ∀ y ∈ [g],
      y.turn? = none ∧ y.reaction? = none := fun h h' y hy => by
    rw [List.mem_singleton.1 hy]
    exact ⟨h, h'⟩
  have hleft : Core.Eases t k { k with current := none } :=
    (Core.Eases.refl t k).congr rfl rfl rfl rfl rfl fun _ h => h
  have hpark : ∀ pending, u ≠ t → Core.Eases t k (k.park u pending) := fun pending hut =>
    hleft.alter fun h => absurd h hut
  have hpost : ∀ {pending r}, u ≠ t →
      k.HasBody t → ((k.park u pending).schedule r).HasBody t := fun hut h => by
    obtain ⟨p, hp, hb⟩ := h
    exact ⟨p, by simp [Core.park, hut.symm, hp], hb⟩
  cases h with
  | @leaveSuspended _ _ _ y =>
    by_cases hut : u = t
    · subst hut
      obtain ⟨-, -, w, hw, hwt, hwl⟩ := hT.frames _ List.mem_cons_self
      have hask := hv.pending hw ((hv.roots hw).2 ⟨hwt, hwl⟩)
      have hrest : Resting u d.phase (some y) [] :=
        { aside := fun h => by cases h
          parked := fun h => by
            cases h
            exact ⟨hask, rfl⟩ }
      have := hv.parks (r := []) hx ha hp hrest
      rwa [Core.schedule_nil] at this
    · exact hothers (G := []) hut (fun y hy => by cases hy) (hpark _ hut) (hpost (r := []) hut)
  | @leaveYielded _ _ _ signal =>
    by_cases hut : u = t
    · subst hut
      obtain ⟨y, hy⟩ := (hvoice rfl).2
      exact hv.parks hx ha hp
        { aside := fun _ => Or.inr ⟨y, signal, hy, by simp [Reaction.Steps]⟩
          parked := fun h => by cases h }
    · refine hothers (G := []) hut (fun y hy => by cases hy) ((hpark _ hut).schedule fun r hr => ?_)
        (hpost hut)
      rw [List.mem_singleton.1 hr]
      exact hut
  | leaveFinished | leaveEnded | leaveFailed =>
    by_cases hut : u = t
    · subst hut
      refine hv.closes hx ha (Or.inl ?_) rfl rfl
      have := (hvoice rfl).2
      first
        | (obtain ⟨y, hy⟩ := this; rw [hy]; trivial)
        | (rw [this]; trivial)
    · exact (hothers hut (hone rfl rfl) hleft id).drops_other hut
  | leaveHalted =>
    by_cases hut : u = t
    · subst hut
      exact hv.closes hx ha (Or.inr (ha.doomed hrel)) rfl rfl
    · exact (hothers hut (hone rfl rfl) hleft id).drops_other hut

/-! ## The begin of a step -/

/-- What settles within a combinator is not what a body asked for. -/
theorem Voiced.ignores_inner (h : Voiced i t d k F D) {ps : List Passage} (hps : k.waits.Inner ps) :
    ∀ e ∈ ps.map Passage.event, d.Ignores t e := by
  intro e he
  obtain ⟨p, hp, rfl⟩ := List.mem_map.1 he
  cases p with
  | withdrawn => trivial
  | settled y signal =>
    obtain ⟨w, hw, hl⟩ := hps y signal hp
    exact fun hm => hl ((h.roots hw).1 hm).2

/-- A settlement leaves effects with the owner and the place that they had. -/
theorem Tabled.old_settle (h : Tabled k [.drain i] past) {y : EffectId} (hy : LeafName past y)
    (signal : Signal) {z : EffectId} {w : Wait}
    (hz : (Waits.settle k.waits y signal).waits.get? z = some w) :
    ∃ w', k.waits.get? z = some w' ∧ w'.task = w.task ∧ w'.link = w.link := by
  cases hw : k.waits.get? y with
  | none =>
    rw [Waits.settle_of_absent hw] at hz
    exact ⟨w, hz, rfl, rfl⟩
  | some wy =>
    have hwhole : ∀ {z w}, k.waits.get? z = some w → w.kind.Whole := fun hz => h.whole hz fun z hz => by
      rw [List.mem_singleton.1 hz]
      simp [Instr.nests]
    obtain ⟨w', hw', ht, hl, -⟩ :=
      (Waits.settles_settle h.forest hwhole hw (h.leaf hw hy).members signal).old hz
    rw [Table.get?_erase] at hw'
    split at hw'
    · cases hw'
    · exact ⟨w', hw', ht, hl⟩

/-- The step of a task begins: its body is with the first frame of the step. -/
theorem Voiced.enters {d' : Talk} {waits : Waits} {p : Posture} (h : Voiced i t d k F D)
    (hp : k.posture t = some p) (hb : p.hasBody = true) (hnum : t < k.nextTask)
    (hasked : d'.asked = d.asked) (hopen : ¬ d'.phase.IsClosed)
    (hroots : ∀ {x w}, waits.get? x = some w →
      ∃ w', k.waits.get? x = some w' ∧ w'.task = w.task ∧ w'.link = w.link)
    (hpend : ∀ {x w}, waits.get? x = some w → x ∈ d.asked → d'.phase = .asking x)
    (hdue : dueSteps k [.drain i] t = []) (hg : g.turn? = some t) (hgr : g.reserved? = none)
    (hvoice : g.Voices d'.phase) :
    Voiced i t d' (Core.enterTurn { k with waits } t) [g, .drain i] D := by
  have hD := (h.body hp hb).1
  have hdue' : dueSteps (Core.enterTurn { k with waits } t) [g, .drain i] t = [] := by
    have hnone : g.reaction? = none := by
      cases g with
      | perform => cases hg
      | _ => rfl
    have hF : [g, Instr.drain i].filterMap Instr.reaction? = [Instr.drain i].filterMap Instr.reaction? :=
      List.filterMap_cons_none hnone
    exact (dueSteps_congr hF rfl (List.append_nil _).symm Stepless.nil).trans hdue
  have hbody : ∀ {q}, (Core.enterTurn { k with waits } t).posture t = some q → q.hasBody ≠ true := by
    intro q hq
    simp only [Core.enterTurn, Core.posture_alter, if_true] at hq
    obtain ⟨-, -, rfl⟩ := Option.map_eq_some_iff.1 hq
    exact Bool.false_ne_true
  exact
    { count := fun hm => h.count (hasked ▸ hm)
      roots := fun hx => by
        obtain ⟨w', hw', ht, hl⟩ := hroots hx
        rw [hasked, h.roots hw', ht, hl]
      reserved := fun y hy z hz => by
        simp only [List.mem_cons, List.not_mem_nil, or_false] at hy
        rcases hy with rfl | rfl
        · rw [hgr] at hz
          cases hz
        · cases hz
      pending := fun hx hm => hpend hx (hasked ▸ hm)
      body := fun hq hb => absurd hb (hbody hq)
      rest := fun hq hb => absurd hb (hbody hq)
      turn := fun y hy ht => by
        simp only [List.mem_cons, List.not_mem_nil, or_false] at hy
        rcases hy with rfl | rfl
        · exact ⟨hD, hopen, hdue', hvoice⟩
        · cases ht
      drop := fun hm => absurd hm hD
      torn := fun ht => by
        rw [ht] at hopen
        exact absurd trivial hopen
      unborn := fun hn => absurd hnum (Nat.not_lt_of_le hn)
      somewhere := fun _ _ => Or.inr (Or.inl ⟨g, List.mem_cons_self, hg⟩)
      halted := h.halted }

/-- The step of another task begins. -/
theorem Begins.voiced_other {expected : Option EffectId} {signal : Option Signal}
    (h : Begins i k u expected signal k' G) (hv : Voiced i t d k [.drain i] D) (hut : u ≠ t) :
    Voiced i t d k' (G ++ [.drain i]) D := by
  have henter : Core.Eases t k (k.enterTurn u) :=
    ((Core.Eases.refl t k).alter fun h => absurd h hut).congr rfl rfl rfl rfl rfl fun _ h => h
  have hbody : k.HasBody t → (k.enterTurn u).HasBody t := fun ⟨p, hp, hb⟩ =>
    ⟨p, by simp [Core.enterTurn, Ne.symm hut, hp], hb⟩
  have hturn : ∀ {g : Instr}, g.turn? = some u → g.reaction? = none → g.reserved? = none →
      Voiced i t d (k.enterTurn u) ([g] ++ [.drain i]) D := by
    intro g hg hgr hres
    refine Voiced.reframe (X := []) (hv.ease henter hbody) (fun y hy => by cases hy) fun y hy => ?_
    cases List.mem_singleton.1 hy
    refine ⟨⟨fun ht => hut (Option.some.inj (hg.symm.trans ht)), fun r hr => ?_⟩, hres⟩
    rw [hgr] at hr
    cases hr
  cases h with
  | skip => exact hv
  | poll | leave => exact hturn rfl rfl rfl

/-- A step that is due begins, or the task has gone on without it. -/
theorem Begins.voiced_step {r : Reaction} {signal : Option Signal}
    (h : Begins i k u none signal k' G)
    (hr : r = .start u ∧ signal = none ∨ ∃ s, r = .resume u s ∧ signal = some s)
    (ho : Orderly i k [.perform i (.reaction r), .drain i])
    (hv : Voiced i t d k [.perform i (.reaction r), .drain i] D) :
    Voiced i t d k' (G ++ [.drain i]) D := by
  have hru : ∀ v, r.Steps v ↔ u = v := by
    intro v
    rcases hr with ⟨rfl, -⟩ | ⟨s, rfl, -⟩ <;> exact Iff.rfl
  by_cases hut : u = t
  · subst hut
    have hdue : dueSteps k [.perform i (.reaction r), .drain i] u = r :: dueSteps k [.drain i] u :=
      dueSteps_perform (G := []) ((hru u).2 rfl) rfl rfl
    -- the body is at rest, and the step that begins is the only one that is due
    have hrest : ∀ {p}, k.posture u = some p → p.hasBody = true → p.status.isTerminal = false →
        p.pending = none ∧ dueSteps k [.drain i] u = [] ∧
          ((d.phase = .silent ∧ r = .start u) ∨ ∃ x s, d.phase = .answered x s ∧ r = .resume u s) := by
      intro p hp hb hl
      have h := hv.rest hp hb hl
      rw [hdue] at h
      cases hpend : p.pending with
      | some x => cases (h.parked hpend).2
      | none =>
        rcases h.aside hpend with ⟨hph, heq⟩ | ⟨x, s, hph, heq⟩
        · obtain ⟨h1, h2⟩ := List.cons.inj heq
          exact ⟨rfl, h2, Or.inl ⟨hph, h1⟩⟩
        · obtain ⟨h1, h2⟩ := List.cons.inj heq
          exact ⟨rfl, h2, Or.inr ⟨x, s, hph, h1⟩⟩
    have henter : ∀ {g : Instr} {p}, k.posture u = some p → p.status.isTerminal = false →
        p.hasBody = true → g.turn? = some u → g.reserved? = none → ¬ d.phase.IsClosed →
        g.Voices d.phase → Voiced i u d (k.enterTurn u) [g, .drain i] D := by
      intro g p hp hl hb hg hgr hopen hvoice
      exact hv.enters hp hb (ho.tasks hp).number rfl hopen (fun hx => ⟨_, hx, rfl, rfl⟩) hv.pending
        (hrest hp hb hl).2.1 hg hgr hvoice
    cases h with
    | skip h =>
      exact
        { count := hv.count
          roots := hv.roots
          reserved := fun y hy z hz => hv.reserved y (List.mem_cons_of_mem _ hy) hz
          pending := hv.pending
          body := hv.body
          rest := fun {p} hp hb hl => by
            obtain ⟨hpend, -⟩ := hrest hp hb hl
            rcases h p hp with h | h | h
            · rw [hl] at h
              cases h
            · exact absurd hpend h
            · rw [hb] at h
              cases h
          turn := fun y hy ht => by
            cases List.mem_singleton.1 hy
            cases ht
          drop := hv.drop
          torn := hv.torn
          unborn := fun hn => by
            obtain ⟨-, -, h⟩ := hv.unborn hn
            rw [hdue] at h
            cases h
          somewhere := fun hc hn => (hv.somewhere hc hn).imp id fun h => h.imp
            (fun ⟨y, hy, ht⟩ => ⟨y, (List.mem_cons.1 hy).resolve_left (by
              rintro rfl
              cases ht), ht⟩) id
          halted := hv.halted }
    | poll hp hl hpend hb b ha =>
      obtain ⟨-, -, hph⟩ := hrest hp hb hl
      refine henter hp hl hb rfl rfl ?_ ?_
      · rcases hph with ⟨hph, -⟩ | ⟨x, s, hph, -⟩ <;> exact fun h => by simp [hph, Phase.IsClosed] at h
      · rcases hph with ⟨hph, rfl⟩ | ⟨x, s, hph, rfl⟩
        · rcases hr with ⟨-, rfl⟩ | ⟨s, hs, -⟩
          · cases ha
            exact Or.inl ⟨hph, rfl⟩
          · cases hs
        · rcases hr with ⟨hs, -⟩ | ⟨s, hs, rfl⟩
          · cases hs
          · cases hs
            exact Or.inr ⟨x, s, hph, ha⟩
    | leave hp hl hpend hb b ha =>
      obtain ⟨-, -, hph⟩ := hrest hp hb hl
      refine henter hp hl hb rfl rfl ?_ ?_
      · rcases hph with ⟨hph, -⟩ | ⟨x, s, hph, -⟩ <;> exact fun h => by simp [hph, Phase.IsClosed] at h
      · rcases hr with ⟨rfl, rfl⟩ | ⟨s, rfl, rfl⟩
        · cases ha
        · rcases hph with ⟨-, hs⟩ | ⟨x, s, hph, hs⟩
          · cases hs
          · cases hs
            cases s with
            | ended => exact ⟨x, hph⟩
            | _ => cases ha
  · have hx : ∀ y ∈ [Instr.perform i (.reaction r)], y.Aside t := by
      intro y hy
      cases List.mem_singleton.1 hy
      refine ⟨nofun, fun r' hr' hs => ?_⟩
      cases hr'
      exact hut ((hru t).1 hs)
    exact h.voiced_other (Voiced.reframe (X := [_]) (G := []) hv hx fun y hy => by cases hy) hut

/-- A settlement wakes a task: its body is polled with the outcome, or dropped after the end. -/
theorem Begins.voiced_wake {y : EffectId} {signal : Signal} {w : Wakeup} (hn : LeafName past y)
    (hw : (Waits.settle k.waits y signal).wakeup = some w)
    (h : Begins i { k with waits := (Waits.settle k.waits y signal).waits } w.task (some w.effect)
      (some w.signal) k' G)
    (hcur : k.current = none) (ho : Orderly i k [.perform i (.reaction (.settle y signal)), .drain i])
    (hT : Tabled k [.perform i (.reaction (.settle y signal)), .drain i] past)
    (hd : Dialogue t past d)
    (hv : Voiced i t d k [.perform i (.reaction (.settle y signal)), .drain i] D) :
    Voices i t k' (G ++ [.drain i]) D
      (((Waits.settle k.waits y signal).passages.map Passage.event).reverse ++ past) := by
  have hT' : Tabled k [.drain i] past := hT.tail rfl rfl
  obtain ⟨-, -, hgone⟩ := hT'.settle hn signal
  obtain ⟨hnone, wx, hwx, htask, hlink⟩ := hgone hw
  have hx : ∀ z ∈ [Instr.perform i (.reaction (.settle y signal))], z.Aside t := by
    intro z hz
    cases List.mem_singleton.1 hz
    refine ⟨nofun, fun r hr hs => ?_⟩
    cases hr
    exact hs
  have hv' : Voiced i t d k [.drain i] D :=
    Voiced.reframe (X := [_]) (G := []) hv hx fun y hy => by cases hy
  -- what settles on the way is inside of combinators, and only the last effect is a root
  obtain ⟨ps, hps, hinner⟩ : ∃ ps, (Waits.settle k.waits y signal).passages =
      ps ++ [.settled w.effect w.signal] ∧ k.waits.Inner ps := by
    rcases Waits.tells_settle k.waits y signal with ⟨h, -⟩ | ⟨u, ps, hu, hps, hinner⟩
    · rw [hw] at h
      cases h
    · rw [hw] at hu
      cases hu
      exact ⟨ps, hps, hinner⟩
  have hmem : w.effect ∈ d.asked ↔ w.task = t := by
    rw [hv.roots hwx, htask]
    exact ⟨fun h => h.1, fun h => ⟨h, hlink⟩⟩
  have hevents : (Waits.settle k.waits y signal).passages.map Passage.event =
      ps.map Passage.event ++ [.settled w.effect w.signal] := by
    rw [hps, List.map_append]
    rfl
  rw [hevents]
  by_cases hut : w.task = t
  · -- the task is parked on the effect, and waits for it
    obtain ⟨p, hp, hb, hpend⟩ := hT'.rooted hwx hlink (List.not_mem_nil : w.effect ∉ [])
    rw [htask] at hp
    have hl : p.status.isTerminal = false := by
      cases hs : p.status.isTerminal with
      | false => rfl
      | true =>
        rcases (ho.tasks hp).terminal hs with h | ⟨z, hz, hf⟩
        · rw [hcur] at h
          cases h
        · simp only [List.mem_cons, List.not_mem_nil, or_false] at hz
          rcases hz with rfl | rfl <;> cases hf
    subst hut
    obtain ⟨hask, hdue⟩ := (hv'.rest hp hb hl).parked hpend
    have henter : ∀ {g : Instr}, g.turn? = some w.task → g.reserved? = none →
        g.Voices (.answered w.effect w.signal) →
        Voices i w.task (Core.enterTurn { k with waits := (Waits.settle k.waits y signal).waits } w.task)
          [g, .drain i] D
          ((ps.map Passage.event ++ [Event.settled w.effect w.signal]).reverse ++ past) := by
      intro g hg hgr hvoice
      refine ⟨{ d with phase := .answered w.effect w.signal },
        hd.ignore_event (hv.ignores_inner hinner) (.settles hask), ?_⟩
      refine hv'.enters hp hb (ho.tasks hp).number rfl id (hT'.old_settle hn signal) ?_ hdue hg hgr
        hvoice
      intro z wz hz hm
      obtain ⟨w', hw', -⟩ := hT'.old_settle hn signal hz
      cases hask.symm.trans (hv.pending hw' hm)
      rw [hnone] at hz
      cases hz
    cases h with
    | skip h =>
      rcases h p hp with h | h | h
      · rw [hl] at h
        cases h
      · exact absurd hpend h
      · rw [hb] at h
        cases h
    | @poll _ _ _ _ _ b a ha =>
      exact henter (g := .poll ⟨i, w.task⟩ b a) rfl rfl (Or.inr ⟨_, _, rfl, ha⟩)
    | leave _ _ _ _ b ha =>
      refine henter (g := .leave ⟨i, w.task⟩ b .ended) rfl rfl ⟨w.effect, ?_⟩
      cases hs : w.signal with
      | ended => rfl
      | _ =>
        rw [hs] at ha
        cases ha
  · refine ⟨d, hd.ignore_event (hv.ignores_inner hinner) (.ignores fun hm => hut (hmem.1 hm)),
      h.voiced_other (hv'.ease ((Core.Eases.refl t k).waitsFrom (hT'.old_settle hn signal)) id) hut⟩

/-- A settlement wakes nobody: what settled is inside of a combinator, or gone. -/
theorem Voiced.settles_inner {y : EffectId} {signal : Signal} (hn : LeafName past y)
    (hw : (Waits.settle k.waits y signal).wakeup = none)
    (hT : Tabled k [.perform i (.reaction (.settle y signal)), .drain i] past)
    (hd : Dialogue t past d)
    (hv : Voiced i t d k [.perform i (.reaction (.settle y signal)), .drain i] D) :
    Voices i t { k with waits := (Waits.settle k.waits y signal).waits } [.drain i] D
      (((Waits.settle k.waits y signal).passages.map Passage.event).reverse ++ past) := by
  have hT' : Tabled k [.drain i] past := hT.tail rfl rfl
  have hinner : k.waits.Inner (Waits.settle k.waits y signal).passages := by
    rcases Waits.tells_settle k.waits y signal with ⟨-, h⟩ | ⟨u, ps, hu, -⟩
    · exact h
    · rw [hw] at hu
      cases hu
  have hx : ∀ z ∈ [Instr.perform i (.reaction (.settle y signal))], z.Aside t := by
    intro z hz
    cases List.mem_singleton.1 hz
    refine ⟨nofun, fun r hr hs => ?_⟩
    cases hr
    exact hs
  have hv' : Voiced i t d k [.drain i] D :=
    Voiced.reframe (X := [_]) (G := []) hv hx fun y hy => by cases hy
  exact ⟨d, hd.ignore (hv.ignores_inner hinner),
    hv'.ease ((Core.Eases.refl t k).waitsFrom (hT'.old_settle hn signal)) id⟩

/-! ## Frames outside of steps -/

/-- A frame that takes no part in the dialogue gives way to others, and the engine goes on. -/
theorem Voiced.gives (hv : Voiced i t d k (x :: F) D) (hx : x.turn? = none) (hr : x.reaction? = none)
    (hG : ∀ y ∈ G, y.turn? = none ∧ y.reaction? = none) (he : Core.Eases t k k')
    (hb : k.HasBody t → k'.HasBody t) : Voiced i t d k' (G ++ F) D := by
  refine Voiced.ease (Voiced.reframe (X := [x]) hv ?_ ?_) he hb
  · intro y hy
    cases List.mem_singleton.1 hy
    exact .of_none hx hr t
  · exact fun y hy => ⟨.of_none (hG y hy).1 (hG y hy).2 t, Instr.reserved?_of_turn? (hG y hy).1⟩

/-- The body of a task is torn down, if it has one. -/
theorem Voiced.strips (hv : Voiced i t d k (x :: F) D) (hx : x.turn? = none) (hr : x.reaction? = none)
    (hG : ∀ y ∈ G, y.turn? = none ∧ y.reaction? = none) {p : Posture} (hp : k.posture u = some p)
    {f : Posture → Posture} (hf : ∀ q, (f q).hasBody = false) (xs : List EffectId)
    (hlive : ∀ q, k.posture u = some q → (f q).status.isTerminal = true)
    (hnum : u < k.nextTask) (hafoot : ∀ y ∈ F, y.turn? = some u → p.hasBody = false) :
    Voiced i t d ((k.alter u f).withdraw xs) (G ++ F) (dropped u p.hasBody ++ D) := by
  have he : Core.Eases t k ((k.alter u f).withdraw xs) := by
    refine ((Core.Eases.refl t k).alter fun hut q hq => ⟨fun h => ?_, fun h => ?_⟩).withdraw xs
    · rw [hf q] at h
      cases h
    · rw [hlive q (hut ▸ hq)] at h
      cases h
  have hG' : Voiced i t d k (G ++ F) D := hv.gives hx hr hG (.refl t k) id
  have hpost : ∀ {q'}, ((k.alter u f).withdraw xs).posture u = some q' → ∃ q,
      k.posture u = some q ∧ q' = f q := by
    intro q' hq
    have hq : (k.alter u f).posture u = some q' := hq
    rw [Core.posture_alter, if_pos rfl] at hq
    obtain ⟨q, hq', rfl⟩ := Option.map_eq_some_iff.1 hq
    exact ⟨q, hq', rfl⟩
  by_cases hut : u = t
  · subst hut
    cases hb : p.hasBody with
    | true =>
      refine hG'.tear he ⟨p, hp, hb⟩ (fun q' hq => ?_) ⟨hnum, fun q' hq => ?_⟩ fun y hy ht => ?_
      · obtain ⟨q, -, rfl⟩ := hpost hq
        exact hf q
      · obtain ⟨q, hq', rfl⟩ := hpost hq
        exact hlive q hq'
      · rcases List.mem_append.1 hy with hy | hy
        · rw [(hG y hy).1] at ht
          cases ht
        · rw [hafoot y hy ht] at hb
          cases hb
    | false =>
      refine hG'.ease he fun ⟨q, hq, hbody⟩ => ?_
      rw [hp] at hq
      cases hq
      rw [hb] at hbody
      cases hbody
  · have hv' : Voiced i t d ((k.alter u f).withdraw xs) (G ++ F) D := by
      refine hG'.ease he fun ⟨q, hq, hbody⟩ => ⟨q, ?_, hbody⟩
      show (k.alter u f).posture t = some q
      rw [Core.posture_alter, if_neg (Ne.symm hut), hq]
    cases p.hasBody with
    | true => exact hv'.drops_other hut
    | false => exact hv'

/-- A task without its body leaves the table, and this is recorded. -/
theorem Buries.voiced {k₀ : Core} {outcome : Outcome} {c : Option Cascade}
    (h : Buries past k₀ u outcome k' c es) (he : Core.Eases t k k₀)
    (hp : t ≠ u → k₀.posture t = k.posture t)
    (hbody : ∀ p, k.posture u = some p → p.hasBody = false)
    (hdone : ∀ v, outcome = .done v → u = t → d.phase ≠ .torn) :
    Core.Eases t k k' ∧ (k.HasBody t → k'.HasBody t) ∧ ∀ e ∈ es, d.Ignores t e := by
  have hother : k.HasBody t → t ≠ u := by
    rintro ⟨p, hq, hb⟩ rfl
    rw [hbody p hq] at hb
    cases hb
  cases h with
  | absent =>
    refine ⟨he, fun hb => ?_, fun e he => by cases he⟩
    obtain ⟨p, hq, hb'⟩ := hb
    exact ⟨p, (hp (hother ⟨p, hq, hb'⟩)).trans hq, hb'⟩
  | gone _ hs hq =>
    refine ⟨(he.bury u).settling hs, fun hb => ?_, fun e he => ?_⟩
    · have hut := hother hb
      obtain ⟨p, hpt, hb⟩ := hb
      refine ⟨k₀.shed u t p, ?_, ?_⟩
      · rw [Core.posture_schedule, Core.posture_bury, if_neg hut, hp hut, hpt]
        rfl
      · rw [k₀.shed_eq]
        exact hb
    · rcases List.mem_cons.1 he with rfl | he
      · cases outcome with
        | done v => exact hdone v rfl
        | _ => trivial
      · exact (hq e he).ignored

/-- Where there is no next job, nothing is left to do. -/
theorem Agenda.eq_of_next?_eq_none {a : Agenda} (h : a.next? = none) : a = {} := by
  obtain ⟨stack, fresh, errands⟩ := a
  have hf := flush_of_next?_eq_none h
  simp only [flush, Agenda.mk.injEq, List.append_eq_nil_iff] at hf
  obtain ⟨⟨rfl, rfl⟩, -, rfl⟩ := hf
  rfl

/-- The job that is taken next was due before. -/
theorem dueSteps_next {job : Job} {agenda : Agenda} (h : k.agenda.next? = some (job, agenda)) :
    dueSteps { k with agenda } [.perform i job, .drain i] t = dueSteps k [.drain i] t := by
  simp only [Agenda.next?, Agenda.flush] at h
  split at h
  · rename_i r rest hr
    cases h
    simp [dueSteps, List.filterMap_cons, Instr.reaction?, hr]
  · rename_i hnil
    split at h
    · cases h
      obtain ⟨h1, h2⟩ := List.append_eq_nil_iff.1 hnil
      simp [dueSteps, List.filterMap_cons, Instr.reaction?, h1, h2]
    · cases h

/-- The driver takes the next job. -/
theorem Voiced.takes {job : Job} {agenda : Agenda} (h : Voiced i t d k [.drain i] D)
    (hj : k.agenda.next? = some (job, agenda)) :
    Voiced i t d { k with agenda } [.perform i job, .drain i] D := by
  have hdue := dueSteps_next (i := i) (t := t) hj
  have hnone : ∀ y ∈ [Instr.perform i job, Instr.drain i], y.turn? = none := by
    intro y hy
    simp only [List.mem_cons, List.not_mem_nil, or_false] at hy
    rcases hy with rfl | rfl <;> rfl
  have hk : Keeps t d k [.drain i] { k with agenda } [.perform i job, .drain i] [] :=
    { count := Nat.le_refl _
      waits := fun hx => Or.inl ⟨_, hx, rfl, rfl⟩
      reserved := fun y hy z hz => by
        rw [Instr.reserved?_of_turn? (hnone y hy)] at hz
        cases hz
      body := fun hp hb => ⟨_, hp, hb, rfl, fun hl => ⟨hl, hdue⟩⟩
      turn := fun y hy ht => by
        rw [hnone y hy] at ht
        cases ht
      drop := fun hm => by cases hm
      alone := fun hm => by cases hm
      doomed := id
      unborn := fun hn => ⟨hn, hdue⟩
      somewhere := fun hp hb => Or.inl ⟨_, hp, hb⟩
      frames := fun y hy ht => by
        cases List.mem_singleton.1 hy
        cases ht
      halted := h.halted }
  exact h.keep hk

/-- The dialogues of all tasks fit to the engine after any frame. -/
theorem Does.voiced (h : Does i past x k k' G D' es) (hs : Stack i k.current (x :: F))
    (ho : Orderly i k (x :: F)) (hT : Tabled k (x :: F) past) (hd : Dialogue t past d)
    (hv : Voiced i t d k (x :: F) D) : Voices i t k' (G ++ F) (D' ++ D) (es.reverse ++ past) := by
  have hnil : ∀ y ∈ ([] : List Instr), y.turn? = none ∧ y.reaction? = none := fun y hy => by cases hy
  have hone : ∀ {g : Instr}, g.turn? = none → g.reaction? = none → ∀ y ∈ [g],
      y.turn? = none ∧ y.reaction? = none := fun h h' y hy => by
    rw [List.mem_singleton.1 hy]
    exact ⟨h, h'⟩
  have hcascades : ∀ cs : List Cascade, ∀ y ∈ cs.map (Instr.cascade i),
      y.turn? = none ∧ y.reaction? = none := by
    intro cs y hy
    obtain ⟨c, -, rfl⟩ := List.mem_map.1 hy
    exact ⟨rfl, rfl⟩
  -- the body of a task whose step is under way is not at rest
  have hafoot : ∀ {u p}, k.posture u = some p → ∀ y ∈ F, y.turn? = some u → p.hasBody = false := by
    intro u p hp y hy ht
    exact ((ho.driver (hs.turn_unique (List.mem_cons_of_mem _ hy) ht)).1.2 p hp).1
  cases htx : x.turn? with
  | some u =>
    obtain ⟨hcur, rfl⟩ := hs.of_turn htx
    by_cases hn : ∃ b exit, x = .leave ⟨i, u⟩ b exit
    · obtain ⟨b, exit, rfl⟩ := hn
      have hv' := h.voiced_leave hcur ho hT hv
      cases h <;> exact ⟨d, hd, hv'⟩
    · exact h.voiced_turn htx (fun b exit he => hn ⟨b, exit, he⟩) (ho.driver hcur).1 ho hT hd hv
  | none =>
    have hgives : ∀ {G : List Instr} {k' : Core} {m : List Event}, x.reaction? = none →
        (∀ y ∈ G, y.turn? = none ∧ y.reaction? = none) → Core.Eases t k k' →
        (k.HasBody t → k'.HasBody t) → (∀ e ∈ m, d.Ignores t e) →
        Voices i t k' (G ++ F) D (m.reverse ++ past) := fun hr hG he hb hm =>
      ⟨d, hd.ignore hm, hv.gives htx hr hG he hb⟩
    have hsettling : ∀ {rs : List Reaction}, Settling past rs → Core.Eases t k (k.schedule rs) :=
      fun hs => (Core.Eases.refl t k).settling hs
    have hmute : ∀ e ∈ ([] : List Event), d.Ignores t e := fun e he => by cases he
    have hquiet : ∀ {es : List Event}, Quiet es → ∀ e ∈ es, d.Ignores t e := fun hq e he =>
      (hq e he).ignored
    cases h with
    | rest h =>
      have hempty := Agenda.eq_of_next?_eq_none h
      refine hgives (m := []) rfl hnil ((Core.Eases.refl t k).congr rfl rfl ?_ rfl rfl fun _ h => h)
        id hmute
      rw [hempty]
      rfl
    | next h =>
      obtain ⟨-, rfl⟩ := hs.of_drain
      exact ⟨d, hd, hv.takes h⟩
    | @start _ u _ _ h =>
      obtain ⟨-, rfl⟩ := hs.of_works trivial
      exact ⟨d, hd, h.voiced_step (Or.inl ⟨rfl, rfl⟩) ho hv⟩
    | @resume _ u signal _ _ h =>
      obtain ⟨-, rfl⟩ := hs.of_works trivial
      exact ⟨d, hd, h.voiced_step (Or.inr ⟨signal, rfl, rfl⟩) ho hv⟩
    | settle hn h =>
      obtain ⟨-, rfl⟩ := hs.of_works trivial
      exact Voiced.settles_inner hn h hT hd hv
    | wake hn h hb =>
      obtain ⟨hcur, rfl⟩ := hs.of_works trivial
      exact hb.voiced_wake hn h hcur ho hT hd hv
    | errand hG hset hq =>
      refine hgives rfl (fun y hy => ?_) (hsettling hset) id (hquiet hq)
      rcases hG with rfl | ⟨g, rfl, hg⟩
      · cases hy
      · rw [List.mem_singleton.1 hy]
        cases g with
        | emit | forwarded | schedule => exact ⟨rfl, rfl⟩
        | _ => exact hg.elim
    | schedule hset => exact hgives (m := []) rfl hnil (hsettling hset) id hmute
    | emit hq => exact hgives rfl (hone rfl rfl) (.refl t k) id (hquiet hq)
    | forwarded _ hset hq => exact hgives rfl hnil (hsettling hset) id (hquiet hq)
    | forwardedCall hset hq => exact hgives rfl (hone rfl rfl) (hsettling hset) id (hquiet hq)
    | returnedLate | abortLate | cascadeLate | cancelLate =>
      exact hgives (m := []) rfl hnil (.refl t k) id hmute
    | cascadeAbort | cancelledLate =>
      exact hgives (m := []) rfl (hone rfl rfl) (.refl t k) id hmute
    | cancelledAll => exact hgives (m := []) rfl (hcascades _) (.refl t k) id hmute
    | returned =>
      exact hgives (m := []) rfl (hone rfl rfl)
        ((Core.Eases.refl t k).alter fun _ _ _ => ⟨fun h => ⟨h, rfl⟩, fun h => h⟩)
        (fun hb => hb.alter fun _ => rfl) hmute
    | @returnedHeld _ u v p hp hl =>
      refine hgives (m := []) rfl hnil ((Core.Eases.refl t k).alter fun hut q hq =>
        ⟨fun h => ⟨h, rfl⟩, fun _ => ?_⟩) (fun hb => hb.alter fun _ => rfl) hmute
      subst hut
      cases hp.symm.trans hq
      exact hl
    | @abort _ u f p hp hl =>
      refine ⟨d, hd.ignore (d.ignores_withdrawn t fun p hp => ?_),
        hv.strips htx rfl (fun y hy => ?_) hp (fun _ => rfl) _ (fun _ _ => rfl) (ho.tasks hp).number
          (hafoot hp)⟩
      · obtain ⟨z, w, rfl, -⟩ := Waits.withdrawn_of_mem_detach hp
        exact ⟨z, w, rfl⟩
      · rcases List.mem_append.1 hy with hy | hy
        · obtain ⟨c, -, rfl⟩ := List.mem_map.1 hy
          exact ⟨rfl, rfl⟩
        · exact hone rfl rfl y hy
    | abortHalts => exact absurd hs Stack.not_abortHalts
    | abortDone h =>
      have hstrip := ho.frames _ List.mem_cons_self
      obtain ⟨he, hb, hes⟩ := h.voiced (d := d) (.refl t k) (fun _ => rfl)
        (fun p hp => (hstrip.2 p hp).2)
        fun v h => by cases h
      exact hgives rfl (hcascades _) he hb hes
    | conclude h =>
      have hstrip := ho.frames _ List.mem_cons_self
      obtain ⟨he, hb, hes⟩ := h.voiced (d := d)
        ((Core.Eases.refl t k).congr rfl rfl rfl rfl rfl fun v h => by cases h)
        (fun _ => rfl) (fun p hp => (hstrip.2 p hp).2) fun v h => by
          cases hh : k.halted with
          | none =>
            rw [hh] at h
            cases h
          | some o =>
            rw [hh] at h
            exact absurd (hh.trans (congrArg some h)) (hv.halted v)
      exact hgives rfl (hcascades _) he hb hes
    | @cascadeComplete _ u p v _ c _ hp hl hres hb =>
      obtain ⟨hbody, -⟩ := (ho.tasks hp).of_result hl hres
      obtain ⟨he, hb, hes⟩ := hb.voiced (d := d)
        ((Core.Eases.refl t k).alter fun _ _ _ => ⟨fun h => ⟨h, rfl⟩, fun h => h⟩)
        (fun hut => by rw [Core.posture_alter, if_neg hut])
        (fun q hq => by
          cases hp.symm.trans hq
          exact hbody)
        (fun _ _ hut ht => (hv.torn ht).not_live ⟨p, hut ▸ hp, hl⟩)
      exact hgives rfl (hcascades _) he hb hes
    | cancel =>
      refine hgives (m := []) rfl (hone rfl rfl) ((Core.Eases.refl t k).cancelAll _) ?_ hmute
      rintro ⟨p, hp, hb⟩
      refine ⟨_, by rw [Core.posture_cancelAll, hp, Option.map_some], ?_⟩
      split <;> exact hb
    | @cancelEach _ u rest cascades p hp =>
      have hdoom := ho.frames _ List.mem_cons_self u List.mem_cons_self
      refine ⟨d, hd.ignore (d.ignores_withdrawn t fun p hp => ?_),
        hv.strips htx rfl (hone rfl rfl) hp (fun _ => rfl) _ hdoom.2 hdoom.1 (hafoot hp)⟩
      obtain ⟨z, w, rfl, -⟩ := Waits.withdrawn_of_mem_detach hp
      exact ⟨z, w, rfl⟩
    | cancelHalts =>
      exact hgives (m := []) rfl (hone rfl rfl)
        ((Core.Eases.refl t k).congr rfl rfl rfl rfl rfl fun v h => by cases h) id hmute
    | cancelOne h =>
      have hstrip := (ho.frames _ List.mem_cons_self).1
      obtain ⟨he, hb, hes⟩ := h.voiced (d := d) (.refl t k) (fun _ => rfl)
        (fun p hp => (hstrip.2 p hp).2)
        fun v h => by cases h
      exact hgives rfl (hone rfl rfl) he hb hes
    | _ => cases htx

end

end SagaMachine
