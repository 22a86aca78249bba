import SagaMachine.Proofs.Orderliness

/-!
# Steps, and the end of tasks

The moves that change how tasks stand: the step of a task begins and ends, a body returns, a
task fails or is cancelled, and its outcome is recorded. Each of them is about one task, but
a cancellation, which is about a subtree, and keeps all tasks in order.

Main statements: `Begins.orderly`, `Orderly.left`, `Buries.orderly`, `Orderly.cancelled`.
-/

namespace SagaMachine

section

variable {i : MiddlewareId} {k k' : Core} {F G : List Instr} {x : Instr} {t : TaskId}
  {p : Posture}

/-! ## Steps -/

theorem Core.aging_enterTurn (t : TaskId) :
    (k.enterTurn t).posture =
      (k.alter t fun p => { p with hasBody := false, status := .running }).posture := rfl

/-- The step of a task begins, or is skipped. -/
theorem Begins.orderly {k₀ : Core} {expected : Option EffectId} {signal : Option Signal}
    (hb : Begins i k₀ t expected signal k' G) (h : Orderly i k [x, .drain i]) (hk : k.Unmoved k₀)
    (hg : k.Grows k₀) (hx : x.IsFree) (hcur : k.current = none)
    (howes : ∀ {u r}, r.Steps u → x = .perform i (.reaction r) → u = t ∧ expected = none)
    (hroots : ∀ {u p y w}, k.posture u = some p → p.pending = some y → k.waits.get? y = some w →
      w.task = u → w.link = .task → (u = t ∧ expected = some y) ∨
        ∃ w', k₀.waits.get? y = some w' ∧ w'.task = u ∧ w'.link = .task) :
    Orderly i k' (G ++ [.drain i]) := by
  have hcurnone : ∀ {u}, k.current ≠ some u := fun h => by rw [hcur] at h; cases h
  have hroots' : ∀ {u}, u ≠ t → k.Roots k₀ u := by
    intro u hut p y w hp _ _ hpend hw ht hl
    rcases hroots hp hpend hw ht hl with ⟨rfl, -⟩ | h
    · exact absurd rfl hut
    · exact h
  have hcarry : ∀ {k₁ : Core} {u}, u ≠ t → k₁.agenda = k₀.agenda → k₁.waits = k₀.waits →
      Carries i k [x, .drain i] k₁ (G ++ [.drain i]) u := by
    intro k₁ u hut ha hw
    refine .of_free hx (fun h => absurd h hcurnone) (fun _ _ _ _ r hr ho => ?_) ?_
    · refine ho.grow ⟨ha ▸ hg.stack, ha ▸ hg.fresh⟩ fun he => ?_
      exact absurd (howes hr he).1 hut
    · intro p y w hp hl hb hpend hget ht hlink
      rw [hw]
      exact hroots' hut hp hl hb hpend hget ht hlink
  have hturn : ∀ {p₀ g}, k₀.posture t = some p₀ → p₀.status.isTerminal = false →
      p₀.hasBody = true → G = [g] → k' = k₀.enterTurn t →
      (∀ p, k.posture t = some p → g.Relies (k₀.enterTurn t)) →
      Orderly i k' (G ++ [.drain i]) := by
    rintro p₀ g hp₀ hl hbody rfl rfl hrel
    rw [hk.posture] at hp₀
    have hres : p₀.result = none := by
      cases (h.tasks hp₀).standing hl with
      | created _ _ _ hr | yielded _ _ _ hr | parked _ _ _ hr | running _ _ hr => exact hr
      | waiting hb' => rw [hb'] at hbody; cases hbody
    have hafoot : (k₀.enterTurn t).Afoot t := by
      refine ⟨by show t < k₀.nextTask; rw [hk.nextTask]; exact (h.tasks hp₀).number, ?_⟩
      intro p hp
      rw [Core.aging_enterTurn, Core.posture_alter, if_pos rfl, hk.posture, hp₀] at hp
      cases hp
      exact ⟨rfl, hres, fun _ => rfl⟩
    refine h.altered (t := t) (f := fun p => { p with hasBody := false, status := .running })
      ?_ hk.nextTask (fun _ => ⟨rfl, rfl, rfl⟩) ?_ ?_ ?_ ?_ ?_
    · funext u
      simp only [Core.aging_enterTurn, Core.posture_alter, hk.posture]
    · intro p hp
      cases hp.symm.trans hp₀
      exact ⟨fun _ => ⟨hl, .running rfl rfl hres (Or.inl rfl)⟩, fun h => by cases h⟩
    · intro u hut
      exact hcarry hut rfl rfl
    · intro y hy
      rcases List.mem_cons.1 hy with rfl | hy
      · exact hrel _ hp₀
      · rw [List.mem_singleton.1 hy]
        trivial
    · intro u hu
      cases hu
      exact ⟨hafoot, _, hp₀⟩
    · intro hh
      have hh : k₀.halted ≠ none := hh
      rw [hk.halted] at hh
      rcases h.halted hh with ⟨u, hc, -⟩ | ⟨turn, hm⟩
      · exact absurd hc hcurnone
      · simp only [List.mem_cons, List.not_mem_nil, or_false] at hm
        rcases hm with hm | hm
        · exact absurd hm.symm (hx.conclude turn)
        · cases hm
  cases hb with
  | skip hskip =>
    refine h.unmoved hk hx (fun g hg => by cases hg) (fun u => ?_) fun {u p} hp hpend hbody hl r hr ho => ?_
    · intro p y w hp hl hbody hpend hw ht hlink
      rcases hroots hp hpend hw ht hlink with ⟨rfl, rfl⟩ | h
      · rcases hskip p (by rw [hk.posture, hp]) with h | h | h
        · rw [h] at hl
          cases hl
        · exact absurd hpend h
        · rw [h] at hbody
          cases hbody
      · exact h
    · refine ho.grow hg fun he => ?_
      obtain ⟨rfl, rfl⟩ := howes hr he
      rcases hskip p (by rw [hk.posture, hp]) with h | h | h
      · rw [h] at hl
        cases hl
      · exact absurd hpend h
      · rw [h] at hbody
        cases hbody
  | poll hp hl _ hbody b ha =>
    exact hturn hp hl hbody rfl rfl fun _ _ => trivial
  | leave hp hl _ hbody b ha =>
    refine hturn hp hl hbody rfl rfl fun p hp' => ?_
    refine ⟨{ p with hasBody := false, status := .running }, ?_, rfl⟩
    rw [Core.aging_enterTurn, Core.posture_alter, if_pos rfl, hk.posture, hp']
    rfl

/-- The step of a task is over. -/
theorem Orderly.left {b : Body} {exit : Exit} {f : Posture → Posture}
    (h : Orderly i k [.leave ⟨i, t⟩ b exit, .drain i]) (hcur : k.current = some t)
    (hp : k'.posture = (k.alter t f).posture) (hn : k'.nextTask = k.nextTask)
    (hw : k'.waits = k.waits) (hg : k.Grows k') (hcur' : k'.current = none)
    (hhalt : k'.halted = k.halted) (hf : Core.Places f)
    (hself : ∀ p, k.posture t = some p → Settled i k' (G ++ [.drain i]) t p (f p))
    (hG : ∀ g ∈ G, g.Relies k') (hx : k.Live t ∨ .conclude ⟨i, t⟩ ∈ G) :
    Orderly i k' (G ++ [.drain i]) := by
  refine h.altered hp hn hf hself (fun u hut => ?_) ?_ ?_ ?_
  · refine .of_head ?_ hg (Core.Roots.of_waits hw) ?_ ?_ ?_ ?_
    · intro u r _ he
      cases he
    · intro hc
      rw [hcur] at hc
      exact absurd (Option.some.inj hc).symm hut
    · intro p _ _ _ hc
      exact hc.elim
    · intro p _ _ _ hc
      exact hc.elim
    · intro hc
      cases hc
  · intro y hy
    rcases List.mem_append.1 hy with hy | hy
    · exact hG y hy
    · rw [List.mem_singleton.1 hy]
      trivial
  · intro u hu
    rw [hcur'] at hu
    cases hu
  · intro hh
    rw [hhalt] at hh
    rcases h.halted hh with ⟨u, hc, hl⟩ | ⟨turn, hm⟩
    · rw [hcur] at hc
      cases hc
      rcases hx with hx | hx
      · exact absurd hx hl
      · exact Or.inr ⟨_, List.mem_append_left _ hx⟩
    · simp only [List.mem_cons, List.not_mem_nil, or_false] at hm
      rcases hm with hm | hm <;> cases hm

/-- A body that came to its end is taken care of by the frame that goes on with its task. -/
theorem Orderly.closed {b : Body} {exit : Exit} {g : Instr}
    (h : Orderly i k [.leave ⟨i, t⟩ b exit, .drain i]) (hcur : k.current = some t)
    (hl : k.Live t) (hg : g.Closes t) (hrel : g.Relies { k with current := none }) :
    Orderly i { k with current := none } ([g] ++ [.drain i]) := by
  have halter := k.alter_id t
  refine h.left (f := fun p => p) hcur ?_ rfl rfl ⟨rfl, [], by simp⟩ rfl rfl
    (fun _ => ⟨rfl, rfl, rfl⟩) ?_ ?_ (Or.inl hl)
  · rw [halter]
  · intro p hp
    obtain ⟨hb, hr, hs⟩ := (h.driver hcur).1.2 p hp
    obtain ⟨q, hq, hlive⟩ := hl
    cases hp.symm.trans hq
    refine ⟨fun _ => ⟨hlive, ?_⟩, fun ht => ?_⟩
    · exact .running (hs hlive) hb hr (Or.inr ⟨g, by simp, hg⟩)
    · rw [hlive] at ht
      cases ht
  · intro y hy
    rw [List.mem_singleton.1 hy]
    exact hrel

/-! ## The end of tasks -/

/-- The frames of a task whose outcome is recorded give way. -/
theorem Buries.orderly {past : List Event} {k₁ : Core} {f : Posture → Posture} {outcome : Outcome}
    {c : Option Cascade} {es : List Event} (hb : Buries past k₁ t outcome k' c es)
    (h : Orderly i k (x :: F)) (hk : k₁ = { k.alter t f with halted := k₁.halted })
    (hf : Core.Places f) (hct : k.current ≠ some t) (hx : x.StepsNone i)
    (hcl : ∀ u, u ≠ t → ¬ x.Closes u) (htn : ∀ u, u ≠ t → x.Tends u → ∃ g ∈ G, g.Tends u)
    (hfi : ∀ u, u ≠ t → u ∈ x.finishes → ∃ g ∈ G, u ∈ g.finishes)
    (hc : ∀ d, c = some d → ∃ g ∈ G, g.Tends d.task)
    (hG : k.Ages k' → ∀ y ∈ G, y.Relies k') (hu : ∀ y ∈ F, ¬ y.Urgent)
    (hh : k₁.halted = none ∨ k₁.halted = k.halted ∧ ∀ turn, x ≠ .conclude turn) :
    Orderly i k' (G ++ F) := by
  have hremove : (k₁.remove t).posture = (k.remove t).posture := by
    funext u
    rw [hk]
    simp only [Core.posture_remove, Core.posture_alter]
    split <;> rfl
  have hpost : k₁.posture t = (k.posture t).map f := by
    rw [hk]
    simp
  have hbury : (k₁.bury t).posture = (k.bury t).posture := by
    funext u
    rw [Core.posture_bury, Core.posture_bury]
    split
    · rfl
    · rename_i hut
      have hsame : k₁.posture u = k.posture u := by
        rw [hk]
        simp [hut]
      have hshed : k₁.shed t u = k.shed t u := by
        funext p
        unfold Core.shed
        rw [hpost]
        cases k.posture t with
        | none => rfl
        | some q => simp only [Option.map_some, (hf q).1, (hf q).2.1]
      rw [hsame, hshed]
  have hcascade : k₁.cascade t outcome = k.cascade t outcome := by
    unfold Core.cascade
    rw [hpost, hremove]
    cases k.posture t with
    | none => rfl
    | some q => simp only [Option.map_some, (hf q).1, (hf q).2.1]
  have hrest : (k₁.bury t).nextTask = k.nextTask ∧ (k₁.bury t).current = k.current ∧
      (k₁.bury t).waits = k.waits ∧ (k₁.bury t).agenda = k.agenda ∧
      (k₁.bury t).halted = k₁.halted := by
    have hk₁ : k₁.nextTask = k.nextTask ∧ k₁.current = k.current ∧ k₁.waits = k.waits ∧
        k₁.agenda = k.agenda := by
      rw [hk]
      exact ⟨rfl, rfl, rfl, rfl⟩
    obtain ⟨h1, h2, h3, h4⟩ := hk₁
    rw [← h1, ← h2, ← h3, ← h4]
    rw [k₁.bury_eq]
    exact ⟨rfl, rfl, rfl, rfl, rfl⟩
  have key : ∃ rs, k' = (k₁.bury t).schedule rs ∧ c = k₁.cascade t outcome := by
    cases hb with
    | absent habs =>
      refine ⟨[], ?_, ?_⟩
      · simp [Core.bury, habs]
      · simp [Core.cascade, habs]
    | gone => exact ⟨_, rfl, rfl⟩
  obtain ⟨rs, rfl, rfl⟩ := key
  obtain ⟨h1, h2, h3, h4, h5⟩ := hrest
  have hages : k.Ages ((k₁.bury t).schedule rs) :=
    (k.ages_bury t).of_eq hbury (h1.trans (k.nextTask_bury t).symm)
  have hc' : ∀ d, k.cascade t outcome = some d → ∃ g ∈ G, g.Tends d.task := fun d hd =>
    hc d (hcascade.trans hd)
  refine h.buried hbury h1 h2 h3 ?_ hct hx hcl htn hfi hc' ?_ ?_
  · refine ⟨?_, rs, ?_⟩
    · show (k₁.bury t).agenda.stack = _
      rw [h4]
    · show (k₁.bury t).agenda.fresh ++ rs = _
      rw [h4]
  · intro y hy
    rcases List.mem_append.1 hy with hy | hy
    · exact hG hages y hy
    · exact hages.relies h.frames hu y hy
  · rcases hh with hh | ⟨hh, hconc⟩
    · intro hne
      exact absurd (h5.trans hh) hne
    · exact h.halted_ages hages h2 (h5.trans hh) hconc

/-- A cancellation: the tasks of a subtree become terminal. -/
theorem Orderly.cancelled {root : TaskId} {order : List TaskId}
    (h : Orderly i k (.cancel i root :: F)) (ho : ∀ u ∈ order, k.Live u)
    (hu : ∀ y ∈ F, ¬ y.Urgent) :
    Orderly i (k.cancelAll order) ([.cancelEach i order []] ++ F) := by
  have hages := k.ages_cancelAll order
  have hkeep : (k.cancelAll order).nextTask = k.nextTask ∧ (k.cancelAll order).waits = k.waits ∧
      (k.cancelAll order).agenda = k.agenda ∧ (k.cancelAll order).current = k.current ∧
      (k.cancelAll order).halted = k.halted := by
    rw [k.cancelAll_eq]
    exact ⟨rfl, rfl, rfl, rfl, rfl⟩
  obtain ⟨hn, hw, ha, hcur, hh⟩ := hkeep
  have hpost : ∀ {u p}, k.posture u = some p → (k.cancelAll order).posture u =
      some (if u ∈ order then { p with status := .cancelled } else p) := by
    intro u p hp
    rw [k.posture_cancelAll, hp]
    rfl
  refine ⟨?_, ?_, ?_, ?_⟩
  · intro u p' hp'
    rw [k.posture_cancelAll] at hp'
    obtain ⟨p, hp, rfl⟩ := Option.map_eq_some_iff.1 hp'
    by_cases hm : u ∈ order
    · rw [if_pos hm]
      refine ⟨hn ▸ (h.tasks hp).number, ?_, fun _ => ?_, ?_⟩
      · intro hl
        cases hl
      · exact Or.inr ⟨_, List.mem_cons_self, hm⟩
      · intro hl
        cases hl
    · rw [if_neg hm]
      have hcar : Carries i k (.cancel i root :: F) (k.cancelAll order)
          ([.cancelEach i order []] ++ F) u := by
        refine .of_head ?_ ⟨by rw [ha], [], by simp [ha]⟩ (Core.Roots.of_waits hw)
          (fun hc => hcur.trans hc) ?_ ?_ ?_
        · intro v r _ he
          cases he
        · intro p _ _ _ hc
          exact hc.elim
        · intro p _ _ _ hc
          exact hc.elim
        · intro hc
          cases hc
      refine (h.tasks hp).carry hp hcar (Nat.le_of_eq hn.symm) fun {c q} _ _ hq hqp hqd => ?_
      refine ⟨_, hpost hq, ?_⟩
      split
      · exact ⟨hqp, hqd⟩
      · exact ⟨hqp, hqd⟩
  · intro y hy
    rcases List.mem_cons.1 hy with rfl | hy
    · intro u hm
      obtain ⟨p, hp, -⟩ := ho u hm
      refine ⟨hn ▸ (h.tasks hp).number, fun p' hp' => ?_⟩
      rw [hpost hp, if_pos hm] at hp'
      cases hp'
      rfl
    · exact hages.relies h.frames hu y hy
  · intro u hc
    obtain ⟨h1, p, hp⟩ := h.driver_ages hages hcur hc
    exact ⟨h1, _, hpost hp⟩
  · exact h.halted_ages hages hcur hh fun turn he => by cases he

/-- A task is torn down: it loses what it is parked on, and its body. -/
theorem Orderly.stripped {f : Posture → Posture} {ids : List EffectId} (h : Orderly i k (x :: F))
    (hf : Core.Places f) (hage : Core.Aging f)
    (hstat : ∀ p, k.posture t = some p → (f p).status.isTerminal = true)
    (hfin : k.current = some t ∨ ∃ g ∈ G, t ∈ g.finishes)
    (hw : ∀ {z w}, k.waits.get? z = some w → w.task ≠ t →
      ((k.alter t f).withdraw ids).waits.get? z = some w)
    (hx : x.StepsNone i) (hcl : ∀ u, u ≠ t → ¬ x.Closes u)
    (htn : ∀ u, u ≠ t → x.Tends u → ∃ g ∈ G, g.Tends u)
    (hfi : ∀ u, u ≠ t → u ∈ x.finishes → ∃ g ∈ G, u ∈ g.finishes)
    (hG : k.Ages ((k.alter t f).withdraw ids) → ∀ g ∈ G, g.Relies ((k.alter t f).withdraw ids))
    (hu : ∀ y ∈ F, ¬ y.Urgent) (hconc : ∀ turn, x ≠ .conclude turn) :
    Orderly i ((k.alter t f).withdraw ids) (G ++ F) := by
  have hages : k.Ages ((k.alter t f).withdraw ids) := (k.ages_alter t hage).of_eq rfl rfl
  refine h.altered (f := f) rfl rfl hf ?_ ?_ ?_ ?_ ?_
  · intro p hp
    refine ⟨fun hl => ?_, fun _ => ?_⟩
    · rw [hstat p hp] at hl
      cases hl
    · exact hfin.imp id fun ⟨g, hg, hm⟩ => ⟨g, List.mem_append_left _ hg, hm⟩
  · intro u hut
    refine .of_head hx ⟨rfl, [], by simp [Core.withdraw, Core.alter]⟩ ?_ id
      (fun _ _ _ hc => absurd hc (hcl u hut)) (fun _ _ _ => htn u hut) fun hm => Or.inr (hfi u hut hm)
    intro p y w _ _ _ _ hget ht hl
    exact ⟨w, hw hget (ht ▸ hut), ht, hl⟩
  · intro y hy
    rcases List.mem_append.1 hy with hy | hy
    · exact hG hages y hy
    · exact hages.relies h.frames hu y hy
  · intro u hc
    exact h.driver_ages hages rfl hc
  · exact h.halted_ages hages rfl rfl hconc

end

end SagaMachine
