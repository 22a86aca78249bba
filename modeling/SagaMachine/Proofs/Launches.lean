import SagaMachine.Proofs.Layers
import SagaMachine.Proofs.OneEffect

/-!
# The machine starts effects as it should

From the instruction that triggers an effect of a task to the one that tells its body what was
started, the machine goes through the members of combinators as the recursion on effects does
(`Effect.launch`).
-/

namespace SagaMachine

/-! ## Events -/

/-- The signal with which an effect settles in an event. -/
def Event.answer? (x : EffectId) : Event → Option Signal
  | .settled y signal => if y = x then some signal else none
  | _ => none

/-- The signal with which an effect has settled. -/
def answerIn (past : List Event) (x : EffectId) : Option Signal := past.findSome? (Event.answer? x)

/-- The effect that is triggered in an event. -/
def Event.issue? : Event → Option Issue
  | .triggered _ x p e => some (x, p, e)
  | _ => none

/-- The effects that are triggered in some events. -/
def issuesIn (es : List Event) : List Issue := es.filterMap Event.issue?

section

variable {es past : List Event} {x : EffectId} {signal : Signal} {q : Issue}

theorem issuesIn_onto (es past : List Event) :
    issuesIn (es.reverse ++ past) = (issuesIn es).reverse ++ issuesIn past := by
  simp [issuesIn]

theorem issuesIn_of_silent (h : Silent es) : issuesIn es = [] := by
  refine List.filterMap_eq_nil_iff.2 fun ev hev => ?_
  cases ev with
  | triggered t x p e => exact absurd rfl (h _ hev t x p e)
  | _ => rfl

theorem issuesIn_triggered {t : TaskId} {p : Option EffectId} {e : Effect} (h : Silent es) :
    issuesIn (.triggered t x p e :: es) = [(x, p, e)] :=
  congrArg (List.cons (x, p, e)) (issuesIn_of_silent h)

theorem exists_of_mem_issuesIn (h : q ∈ issuesIn past) : ∃ t, .triggered t q.1 q.2.1 q.2.2 ∈ past := by
  obtain ⟨ev, hev, hq⟩ := List.mem_filterMap.1 h
  cases ev with
  | triggered t x p e =>
    cases hq
    exact ⟨t, hev⟩
  | _ => cases hq

/-- What settles other effects does not answer for this one. -/
theorem answerIn_onto (h : ∀ signal, .settled x signal ∉ es) :
    answerIn (es.reverse ++ past) x = answerIn past x := by
  have hnone : es.reverse.findSome? (Event.answer? x) = none := by
    refine List.findSome?_eq_none_iff.2 fun ev hev => ?_
    cases ev with
    | settled y signal =>
      refine if_neg ?_
      rintro rfl
      exact h signal (List.mem_reverse.1 hev)
    | _ => rfl
  rw [answerIn, List.findSome?_append, hnone, Option.none_or, answerIn]

theorem answerIn_settled (x : EffectId) (signal : Signal) (past : List Event) :
    answerIn (.settled x signal :: past) x = some signal := by
  simp [answerIn, Event.answer?]

/-- Only effects that have come to their end have settled. -/
theorem answerIn_eq_none (h : x ∉ endedIn past) : answerIn past x = none := by
  refine List.findSome?_eq_none_iff.2 fun ev hev => ?_
  cases ev with
  | settled y signal =>
    refine if_neg ?_
    rintro rfl
    exact h (List.mem_filterMap.2 ⟨_, hev, rfl⟩)
  | _ => rfl

theorem not_settled_of_quiet (h : Quiet es) : ∀ signal, .settled x signal ∉ es := fun _ hm => h _ hm

theorem not_settled_of_detachEach {waits : Waits} {ids : List EffectId} :
    ∀ signal, .settled x signal ∉ (waits.detachEach ids).1.map Passage.event := fun signal hm => by
  obtain ⟨p, hp, he⟩ := List.mem_map.1 hm
  obtain ⟨y, w, rfl, -⟩ := Waits.withdrawn_of_mem_detachEach hp
  cases he

end

/-! ## An effect under way -/

/-- Some answers are those of the events, for the effects without members among those triggered. -/
def AnswersFor (past : List Event) (issued : List Issue) (answers : EffectId → Option Signal) : Prop :=
  ∀ q ∈ issued, q.2.2.fan? = none → answers q.1 = answerIn past q.1

/-- How far the start of an effect has come: its layers, and the effects triggered for it. -/
structure Progress (past₀ : List Event) (t : TaskId) (k : Core) (past : List Event) (ls : List Layer)
    (issued : List Issue) : Prop where
  stand : Layer.Stand k.waits t ls
  issues : issuesIn past = issued.reverse ++ issuesIn past₀
  numbers : ∀ q ∈ issued, q.1 < k.nextEffect

/--
An effect of a task is being started: what is left to be done makes of what there is what the start of
the effect comes to.
-/
inductive Launching (n₀ : EffectId) (e₀ : Effect) (past₀ : List Event) (turn : Turn) (b : Body)
    (k : Core) (past : List Event) : Instr → Prop
  /-- The next effect is triggered. -/
  | triggers {ls : List Layer} {issued : List Issue} {e : Effect}
      (h : Progress past₀ turn.task k past ls issued)
      (left : ∀ {answers}, AnswersFor past issued answers → e₀.launch answers none n₀ =
        Layer.closeAll answers ls ((e.launch answers (Nest.link (ls.map Layer.nest)).parent?
          k.nextEffect).after issued)) :
      Launching n₀ e₀ past₀ turn b k past (.trigger turn b (ls.map Layer.nest) e)
  /-- An effect without members is carried out. -/
  | carries {x : Instr} {ls : List Layer} {issued : List Issue} {id : EffectId} {e : Effect}
      (hx : x = .cancelDone turn b (ls.map Layer.nest) id ∨
        ∃ result env, x = .answer turn b (ls.map Layer.nest) id result env)
      (he : e.fan? = none)
      (h : Progress past₀ turn.task k past ls
        (issued ++ [(id, (Nest.link (ls.map Layer.nest)).parent?, e)]))
      (latest : k.nextEffect = id + 1) (older : ∀ q ∈ issued, q.1 < id)
      (left : ∀ {answers}, AnswersFor past issued answers → e₀.launch answers none n₀ =
        Layer.closeAll answers ls ((e.launchLeaf answers (Nest.link (ls.map Layer.nest)).parent?
          id).after issued)) :
      Launching n₀ e₀ past₀ turn b k past x
  /-- An effect was started. -/
  | begun {ls : List Layer} {issued : List Issue} {tree : EffectTree}
      (h : Progress past₀ turn.task k past ls issued)
      (later : ∀ l ∈ ls, ∀ y ∈ tree.ids, l.id < y)
      (shown : tree.signal? = none →
        k.waits.Shows turn.task (Nest.link (ls.map Layer.nest)) tree)
      (left : ∀ {answers}, AnswersFor past issued answers → e₀.launch answers none n₀ =
        Layer.closeAll answers ls ⟨tree, k.nextEffect, issued⟩) :
      Launching n₀ e₀ past₀ turn b k past (.begun turn b (ls.map Layer.nest) tree.start)

section

variable {i : MiddlewareId} {k k' : Core} {t : TaskId} {b : Body} {past past₀ es : List Event}
  {n₀ x : EffectId} {e e₀ : Effect} {ls : List Layer} {l : Layer} {issued more : List Issue}
  {G : List Instr} {D : List TaskId} {tree : EffectTree} {q : Issue} {y : Instr}
  {answers : EffectId → Option Signal}

theorem AnswersFor.before (h : AnswersFor (es.reverse ++ past) (issued ++ more) answers)
    (hes : ∀ q ∈ issued, q.2.2.fan? = none → ∀ signal, .settled q.1 signal ∉ es) :
    AnswersFor past issued answers := fun q hq hf =>
  (h q (List.mem_append_left _ hq) hf).trans (answerIn_onto (hes q hq hf))

theorem AnswersFor.onto (h : AnswersFor (es.reverse ++ past) issued answers)
    (hes : ∀ q ∈ issued, q.2.2.fan? = none → ∀ signal, .settled q.1 signal ∉ es) :
    AnswersFor past issued answers := by
  rw [← List.append_nil issued] at h
  exact h.before hes

theorem Progress.leafName (h : Progress past₀ t k past ls issued) (hq : q ∈ issued)
    (hf : q.2.2.fan? = none) : LeafName past q.1 := by
  have hmem : q ∈ issuesIn past := by
    rw [h.issues]
    exact List.mem_append_left _ (List.mem_reverse.2 hq)
  obtain ⟨u, hu⟩ := exists_of_mem_issuesIn hmem
  exact ⟨u, q.2.1, q.2.2, hu, hf⟩

/-- Nothing is triggered. -/
theorem Progress.goes {ls' : List Layer} (h : Progress past₀ t k past ls issued)
    (hstand : Layer.Stand k'.waits t ls') (hes : issuesIn es = [])
    (hn : k.nextEffect ≤ k'.nextEffect) : Progress past₀ t k' (es.reverse ++ past) ls' issued where
  stand := hstand
  issues := by rw [issuesIn_onto, hes, List.reverse_nil, List.nil_append, h.issues]
  numbers q hq := Nat.lt_of_lt_of_le (h.numbers q hq) hn

/-- Nothing happens. -/
theorem Progress.still {ls' : List Layer} (h : Progress past₀ t k past ls issued)
    (hstand : Layer.Stand k'.waits t ls') (hn : k.nextEffect ≤ k'.nextEffect) :
    Progress past₀ t k' past ls' issued :=
  h.goes hstand (rfl : issuesIn [] = []) hn

/-- An effect is triggered. -/
theorem Progress.triggered {ls' : List Layer} {parent : Option EffectId}
    (h : Progress past₀ t k past ls issued) (hstand : Layer.Stand k'.waits t ls')
    (hes : issuesIn es = [(k.nextEffect, parent, e)]) (hn : k'.nextEffect = k.nextEffect + 1) :
    Progress past₀ t k' (es.reverse ++ past) ls' (issued ++ [(k.nextEffect, parent, e)]) where
  stand := hstand
  issues := by
    rw [issuesIn_onto, hes, h.issues]
    simp
  numbers q hq := by
    rw [hn]
    rcases List.mem_append.1 hq with hq | hq
    · exact Nat.lt_succ_of_lt (h.numbers q hq)
    · rw [List.mem_singleton.1 hq]
      exact Nat.lt_succ_self _

/-- The combinators that are being started are older than the next effect. -/
theorem Layer.Stand.lt_of_mem {F : List Instr} (h : Layer.Stand k.waits t ls) (hT : Tabled k F past)
    (hx : x ∈ Layer.ids ls) : x < k.nextEffect := by
  obtain ⟨w, hw, -⟩ := h.place hx
  exact hT.number hw

theorem Layer.mem_ids (hl : l ∈ ls) : l.id ∈ Layer.ids ls :=
  List.mem_flatMap.2 ⟨l, hl, List.mem_cons_self⟩

/-! ### Effects without members -/

/-- An effect without members was started. -/
theorem Launching.of_leaf (tree : EffectTree) {past' : List Event} {n : EffectId}
    {parent : Option EffectId} {m : (EffectId → Option Signal) → Launch}
    (h : Progress past₀ t k' past' ls (issued ++ [(n, parent, e)])) (latest : k'.nextEffect = n + 1)
    (before : ∀ {answers}, AnswersFor past' (issued ++ [(n, parent, e)]) answers →
      AnswersFor past issued answers)
    (left : ∀ {answers}, AnswersFor past issued answers →
      e₀.launch answers none n₀ = Layer.closeAll answers ls ((m answers).after issued))
    (hm : ∀ {answers}, AnswersFor past' (issued ++ [(n, parent, e)]) answers →
      m answers = ⟨tree, n + 1, [(n, parent, e)]⟩)
    (later : ∀ l ∈ ls, ∀ y ∈ tree.ids, l.id < y)
    (shown : tree.signal? = none → k'.waits.Shows t (Nest.link (ls.map Layer.nest)) tree) :
    Launching n₀ e₀ past₀ ⟨i, t⟩ b k' past' (.begun ⟨i, t⟩ b (ls.map Layer.nest) tree.start) :=
  .begun h later shown fun ha => by rw [left (before ha), hm ha, latest, Launch.after]

theorem launchLeaf_of_settled {n : EffectId} {parent : Option EffectId} {signal : Signal}
    (ha : AnswersFor past (issued ++ [(n, parent, e)]) answers) (he : e.fan? = none)
    (hs : answerIn past n = some signal) :
    e.launchLeaf answers parent n = ⟨.settled signal, n + 1, [(n, parent, e)]⟩ := by
  rw [Effect.launchLeaf, ha (n, parent, e) (by simp) he, hs]
  rfl

theorem launchLeaf_of_pending {n : EffectId} {parent : Option EffectId}
    (ha : AnswersFor past (issued ++ [(n, parent, e)]) answers) (he : e.fan? = none)
    (hs : answerIn past n = none) :
    e.launchLeaf answers parent n = ⟨.leaf n, n + 1, [(n, parent, e)]⟩ := by
  rw [Effect.launchLeaf, ha (n, parent, e) (by simp) he, hs]
  rfl

section

variable (hp : Progress past₀ t k past ls issued)
  (left : ∀ {answers}, AnswersFor past issued answers → e₀.launch answers none n₀ =
    Layer.closeAll answers ls ((e.launch answers (Nest.link (ls.map Layer.nest)).parent?
      k.nextEffect).after issued))
include hp left

/-- An effect without members settles at once. -/
theorem Launching.of_settled {signal : Signal} (he : e.fan? = none) (hw : k'.waits = k.waits)
    (hn : k'.nextEffect = k.nextEffect + 1)
    (hes : issuesIn es = [(k.nextEffect, (Nest.link (ls.map Layer.nest)).parent?, e)])
    (hset : ∀ y signal', .settled y signal' ∈ es → y = k.nextEffect)
    (hsig : answerIn (es.reverse ++ past) k.nextEffect = some signal)
    (hnil : e = .all [] → signal = .value (.list [])) :
    Launching n₀ e₀ past₀ ⟨i, t⟩ b k' (es.reverse ++ past)
      (.begun ⟨i, t⟩ b (ls.map Layer.nest) (.immediate signal)) := by
  refine Launching.of_leaf (.settled signal)
    (hp.triggered (hp.stand.congr fun y _ => by rw [hw]) hes hn) hn
    (fun ha => ha.before fun q hq _ signal' hm => ?_) left (fun ha => ?_)
    (fun _ _ _ hy => by cases hy) fun hs => by cases hs
  · exact Nat.ne_of_lt (hp.numbers q hq) (hset _ _ hm)
  · by_cases hne : e = .all []
    · subst hne
      rw [Effect.launch_all_nil, hnil rfl]
    · rw [Effect.launch_leaf he hne, launchLeaf_of_settled ha he hsig]

/-- An effect without members is left pending. -/
theorem Launching.of_suspended {F : List Instr} (hT : Tabled k F past) {kind : WaitKind}
    (he : e.fan? = none) (hne : e ≠ .all []) (hk : kind.IsLeaf)
    (hw : k'.waits = k.waits.insert k.nextEffect ⟨t, Nest.link (ls.map Layer.nest), kind⟩)
    (hn : k'.nextEffect = k.nextEffect + 1) (hq : Quiet es)
    (hnone : answerIn ((.triggered t k.nextEffect (Nest.link (ls.map Layer.nest)).parent? e :: es).reverse ++
      past) k.nextEffect = none) :
    Launching n₀ e₀ past₀ ⟨i, t⟩ b k'
      ((.triggered t k.nextEffect (Nest.link (ls.map Layer.nest)).parent? e :: es).reverse ++ past)
      (.begun ⟨i, t⟩ b (ls.map Layer.nest) (.pending k.nextEffect)) := by
  have hget : ∀ y, k'.waits.get? y = if y = k.nextEffect then
      some ⟨t, Nest.link (ls.map Layer.nest), kind⟩ else k.waits.get? y := fun y => by
    rw [hw, Table.get?_insert]
  have hstand : Layer.Stand k'.waits t ls := hp.stand.congr fun y hy => by
    rw [hget, if_neg (Nat.ne_of_lt (hp.stand.lt_of_mem hT hy))]
  refine Launching.of_leaf (.leaf k.nextEffect)
    (hp.triggered hstand (issuesIn_triggered hq.silent) hn) hn
    (fun ha => ha.before fun q _ _ signal hm => ?_) left (fun ha => ?_) (fun l hl y hy => ?_)
    fun _ => .leaf ((hget _).trans (if_pos rfl)) hk
  · exact (hq _ ((List.mem_cons.1 hm).resolve_left (by simp))).elim
  · rw [Effect.launch_leaf he hne, launchLeaf_of_pending ha he hnone]
  · rw [List.mem_singleton.1 hy]
    exact hp.stand.lt_of_mem hT (Layer.mem_ids hl)

/-- An effect with members is opened. -/
theorem Launching.of_opened {F : List Instr} (hT : Tabled k F past) {kind : WaitKind} {e₁ : Effect}
    {rest : List Effect} (he : e.fan? = some (kind, e₁, rest)) :
    Launching n₀ e₀ past₀ ⟨i, t⟩ b (k.number.suspend t (ls.map Layer.nest) k.nextEffect kind)
      ([.triggered t k.nextEffect (Nest.link (ls.map Layer.nest)).parent? e].reverse ++ past)
      (.trigger ⟨i, t⟩ b (kind.nest k.nextEffect rest :: ls.map Layer.nest) e₁) := by
  obtain ⟨sort, hkind, hnest⟩ := Layer.exists_open he k.nextEffect
  have hget : ∀ y, (k.number.suspend t (ls.map Layer.nest) k.nextEffect kind).waits.get? y =
      if y = k.nextEffect then some ⟨t, Nest.link (ls.map Layer.nest), kind⟩
      else k.waits.get? y := fun y => Table.get?_insert ..
  have hstand : Layer.Stand (k.number.suspend t (ls.map Layer.nest) k.nextEffect kind).waits t
      (⟨sort, k.nextEffect, [], rest⟩ :: ls) := by
    refine ⟨⟨?_, nofun, nofun, nofun⟩, fun y hy => hp.stand.lt_of_mem hT hy,
      hp.stand.congr fun y hy => by rw [hget, if_neg (Nat.ne_of_lt (hp.stand.lt_of_mem hT hy))]⟩
    rw [hkind]
    exact (hget _).trans (if_pos rfl)
  have hparent : (Nest.link (List.map Layer.nest (⟨sort, k.nextEffect, [], rest⟩ :: ls))).parent? =
      some k.nextEffect := by
    rw [List.map_cons, Layer.link_nest, Layer.parent?_linkAt]
  rw [← hnest, ← List.map_cons]
  refine .triggers (hp.triggered hstand (issuesIn_triggered .nil) rfl) fun ha => ?_
  rw [left (ha.before fun q _ _ signal hm => by simp at hm), Layer.open_eq he hkind issued, hparent]
  rfl

/-- An effect is triggered while those around it are being started. -/
theorem Launching.of_trigger
    (h : Does i past (.trigger ⟨i, t⟩ b (ls.map Layer.nest) e) k k' G D es) (hl : k.Live t)
    {F : List Instr} (hT : Tabled k F past)
    (hnone : ∀ {x w}, k'.waits.get? x = some w → answerIn (es.reverse ++ past) x = none)
    (hall : e = .all [] →
      G = [.begun ⟨i, t⟩ b (ls.map Layer.nest) (.immediate (.value (.list [])))]) :
    ∃ y, G.getLast? = some y ∧ Launching n₀ e₀ past₀ ⟨i, t⟩ b k' (es.reverse ++ past) y := by
  cases h with
  | triggerHalted hl' => exact absurd hl hl'
  | triggerSettles _ he hq =>
    refine ⟨_, rfl, .of_settled hp left he rfl rfl
      (issuesIn_triggered (hq.silent.append (.settled _ _))) (fun y signal' hm => ?_) ?_ fun hnil => ?_⟩
    · simp only [List.cons_append, List.mem_cons, List.mem_append, reduceCtorEq, false_or,
        List.not_mem_nil, or_false] at hm
      rcases hm with hm | hm
      · exact (hq _ hm).elim
      · cases hm
        rfl
    · simp [answerIn_settled]
    · cases hall hnil
      rfl
  | triggerForks _ he saga detached v =>
    refine ⟨_, rfl, .of_settled hp left he ?_ ?_ rfl (fun y signal' hm => ?_) ?_ fun hnil => ?_⟩
    · rw [Core.create_eq]
      rfl
    · rw [Core.create_eq]
      rfl
    · simp only [List.mem_cons, reduceCtorEq, false_or, List.not_mem_nil, or_false] at hm
      cases hm
      rfl
    · simp [answerIn_settled]
    · cases hall hnil
      rfl
  | @triggerSuspends _ _ _ _ _ kind _ _ _ _ he hk _ hq =>
    have hne : e ≠ .all [] := fun hnil => by cases hall hnil
    have hget : (k.waits.insert k.nextEffect ⟨t, Nest.link (ls.map Layer.nest), kind⟩).get? k.nextEffect =
        some ⟨t, Nest.link (ls.map Layer.nest), kind⟩ := (Table.get?_insert ..).trans (if_pos rfl)
    exact ⟨_, rfl, .of_suspended hp left hT he hne hk.isLeaf rfl rfl hq (hnone hget)⟩
  | triggerCalls _ he result env =>
    have hne : e ≠ .all [] := fun hnil => by cases hall hnil
    refine ⟨_, rfl, .carries (Or.inr ⟨result, env, rfl⟩) he
      (hp.triggered hp.stand (issuesIn_triggered .nil) rfl) rfl hp.numbers fun ha => ?_⟩
    rw [left (ha.onto fun q _ _ signal hm => by simp at hm), Effect.launch_leaf he hne]
  | triggerCancels _ he u =>
    have hne : e ≠ .all [] := fun hnil => by cases hall hnil
    refine ⟨_, rfl, .carries (Or.inl rfl) he
      (hp.triggered hp.stand (issuesIn_triggered .nil) rfl) rfl hp.numbers fun ha => ?_⟩
    rw [left (ha.onto fun q _ _ signal hm => by simp at hm), Effect.launch_leaf he hne]
  | triggerOpens _ he => exact ⟨_, rfl, .of_opened hp left hT he⟩

end

/-- An effect without members that is carried out settles, or is left pending. -/
theorem Launching.of_carried {id : EffectId} (he : e.fan? = none)
    (h : Progress past₀ t k past ls (issued ++ [(id, (Nest.link (ls.map Layer.nest)).parent?, e)]))
    (latest : k.nextEffect = id + 1) (older : ∀ q ∈ issued, q.1 < id)
    (left : ∀ {answers}, AnswersFor past issued answers → e₀.launch answers none n₀ =
      Layer.closeAll answers ls ((e.launchLeaf answers (Nest.link (ls.map Layer.nest)).parent?
        id).after issued)) (hin : Inside (ls.map Layer.nest) id) :
    (∀ signal, Launching n₀ e₀ past₀ ⟨i, t⟩ b k ([.settled id signal].reverse ++ past)
        (.begun ⟨i, t⟩ b (ls.map Layer.nest) (.immediate signal))) ∧
      ∀ {k' : Core} {kind : WaitKind}, kind.IsLeaf → k.waits.get? id = none →
        k'.waits = k.waits.insert id ⟨t, Nest.link (ls.map Layer.nest), kind⟩ →
        k'.nextEffect = k.nextEffect → answerIn past id = none →
        Launching n₀ e₀ past₀ ⟨i, t⟩ b k' past
          (.begun ⟨i, t⟩ b (ls.map Layer.nest) (.pending id)) := by
  refine ⟨fun signal => ?_, fun {k' kind} hk hget hw hn hnone => ?_⟩
  · have hes : issuesIn [.settled id signal] = [] := rfl
    refine Launching.of_leaf (.settled signal) (h.goes h.stand hes (Nat.le_refl _)) latest
      (fun ha => ha.before fun q hq _ signal' hm => ?_) left
      (fun ha => launchLeaf_of_settled ha he (answerIn_settled _ _ _)) (fun _ _ _ hy => by cases hy)
      fun hs => by cases hs
    cases List.mem_singleton.1 hm
    exact Nat.lt_irrefl _ (older q hq)
  · have hget' : ∀ y, k'.waits.get? y = if y = id then
        some ⟨t, Nest.link (ls.map Layer.nest), kind⟩ else k.waits.get? y := fun y => by
      rw [hw, Table.get?_insert]
    have hstand : Layer.Stand k'.waits t ls := h.stand.congr fun y hy => by
      rw [hget', if_neg]
      rintro rfl
      obtain ⟨w, hw, -⟩ := h.stand.place hy
      cases hget.symm.trans hw
    refine Launching.of_leaf (.leaf id) (h.still hstand hn.ge) (hn.trans latest)
      (fun ha q hq => ha q (List.mem_append_left _ hq)) left
      (fun ha => launchLeaf_of_pending ha he hnone) (fun l hl y hy => ?_)
      fun _ => .leaf ((hget' _).trans (if_pos rfl)) hk
    rw [List.mem_singleton.1 hy, ← l.nest_id]
    exact hin _ (List.mem_map_of_mem hl)

/-! ### Members of combinators -/

theorem EffectTree.start_of_pending (h : tree.signal? = none) :
    ∃ r, tree.root? = some r ∧ tree.start = .pending r := by
  cases tree with
  | settled => cases h
  | _ => exact ⟨_, rfl, rfl⟩

theorem EffectTree.eq_of_start {signal : Signal} (h : tree.start = .immediate signal) :
    tree = .settled signal := by
  cases tree with
  | settled => cases h; rfl
  | _ => cases h

theorem EffectTree.of_start_pending {r : EffectId} (h : tree.start = .pending r) :
    tree.signal? = none ∧ tree.root? = some r := by
  cases tree with
  | settled => cases h
  | _ => cases h; exact ⟨rfl, rfl⟩

section

variable (hp : Progress past₀ t k past (l :: ls) issued)
  (later : ∀ m ∈ l :: ls, ∀ y ∈ tree.ids, m.id < y)
  (shown : tree.signal? = none →
    k.waits.Shows t (Nest.link ((l :: ls).map Layer.nest)) tree)
  (left : ∀ {answers}, AnswersFor past issued answers → e₀.launch answers none n₀ =
    Layer.closeAll answers (l :: ls) ⟨tree, k.nextEffect, issued⟩)
include hp left

/-- The combinator has settled. -/
theorem Launching.of_decided {signal : Signal}
    (hclose : ∀ {answers}, l.close answers ⟨tree, k.nextEffect, issued⟩ =
      ⟨l.treeWith [tree], k.nextEffect, issued⟩)
    (htree : l.treeWith [tree] = .settled signal) {F : List Instr} (hT : Tabled k F past)
    (hk : ∀ y, y < l.id → k'.waits.get? y = k.waits.get? y) (hn : k'.nextEffect = k.nextEffect)
    (hes : issuesIn es = []) (hset : ∀ y signal', .settled y signal' ∈ es → y = l.id) :
    Launching n₀ e₀ past₀ ⟨i, t⟩ b k' (es.reverse ++ past)
      (.begun ⟨i, t⟩ b (ls.map Layer.nest) (.immediate signal)) := by
  show Launching n₀ e₀ past₀ ⟨i, t⟩ b k' _
    (.begun ⟨i, t⟩ b (ls.map Layer.nest) (EffectTree.settled signal).start)
  refine .begun (hp.goes (hp.stand.tail hk) hes hn.ge) (fun _ _ _ hy => by cases hy)
    (fun hs => by cases hs) fun ha => ?_
  rw [left (ha.onto fun q hq hf signal' hm => ?_), Layer.closeAll, List.foldl_cons, hclose, htree, hn]
  · rfl
  · have hleaf := hp.leafName hq hf
    rw [hset _ _ hm] at hleaf
    exact l.not_isLeaf (hT.leaf hp.stand.1.entry hleaf)

include later shown

variable (hd : l.kind.decides tree = false) (hn : k'.nextEffect = k.nextEffect)
  (hk : ∀ y, k'.waits.get? y = if y = l.id then
    some ⟨t, Nest.link (ls.map Layer.nest), l.filled tree⟩ else k.waits.get? y)
include hd hn hk

/-- The next member is triggered. -/
theorem Launching.of_next {rest : List Effect} (hr : l.rest = e :: rest) :
    Launching n₀ e₀ past₀ ⟨i, t⟩ b k' past
      (.trigger ⟨i, t⟩ b ((l.next tree rest).nest :: ls.map Layer.nest) e) := by
  have hstand : Layer.Stand k'.waits t (l.next tree rest :: ls) := by
    refine hp.stand.next hd (fun y hy => later l List.mem_cons_self y hy) (fun hs => ?_) hk hr
    rw [← l.link_nest (ls.map Layer.nest)]
    exact shown hs
  rw [← List.map_cons]
  refine .triggers (hp.still hstand hn.ge) fun ha => ?_
  rw [left ha, List.map_cons, Layer.link_nest, Layer.parent?_linkAt, hn, Layer.closeAll, List.foldl_cons,
    Layer.close_next hd hr]
  rfl

/-- All members were started, and the combinator is pending. -/
theorem Launching.of_full (hr : l.rest = []) (hpend : (l.treeWith [tree]).signal? = none) :
    Launching n₀ e₀ past₀ ⟨i, t⟩ b k' past
      (.begun ⟨i, t⟩ b (ls.map Layer.nest) (.pending l.id)) := by
  have hlater : ∀ y ∈ tree.ids, l.id < y := fun y hy => later l List.mem_cons_self y hy
  obtain ⟨hshows, hstart⟩ := hp.stand.shows hd hlater
    (fun hs => by rw [← l.link_nest (ls.map Layer.nest)]; exact shown hs) hk hr hpend
  rw [← hstart]
  refine .begun (hp.still (hp.stand.tail fun y hy => ?_) hn.ge) (fun m hm y hy => ?_)
    (fun _ => hshows) fun ha => ?_
  · rw [hk, if_neg (Nat.ne_of_lt hy)]
  · have hml : m.id < l.id := hp.stand.2.1 _ (Layer.mem_ids hm)
    rcases Layer.mem_treeWith hy with rfl | hy | hy
    · exact hml
    · exact Nat.lt_trans hml (hp.stand.1.later y hy)
    · exact Nat.lt_trans hml (hlater y hy)
  · rw [left ha, Layer.closeAll, List.foldl_cons, Layer.close_last hr, hn]
    rfl

end

/-- What is older than an effect that is given up stays where it is. -/
theorem Waits.Prunes.get?_eq {waits waits' : Waits} {z : EffectId} {loose : List EffectId}
    (h : waits.Prunes t x waits') (hF : Waits.Forest waits (x :: loose) .task) (hz : z < x) :
    waits'.get? z = waits.get? z := by
  cases hw : waits.get? z with
  | some w => exact h.kept hF hw (Or.inr hz)
  | none =>
    cases hw' : waits'.get? z with
    | none => rfl
    | some w => cases hw.symm.trans (h.sub hw').2

/-- While a combinator is decided it is regarded as loose, and so are those around it. -/
theorem Tabled.forest_settled {signal : Signal}
    (h : Tabled k [.begun ⟨i, t⟩ b (l.nest :: ls.map Layer.nest) (.immediate signal), .drain i] past) :
    Waits.Forest k.waits (l.id :: (ls.map Layer.nest).map Nest.id) .task := by
  have hF := h.forest
  rwa [looseOf_turn, Instr.loose, Instr.nests, List.map_cons, Layer.nest_id] at hF

/-- A combinator whose member is noted in its slot. -/
theorem Layer.get?_modify (h : Layer.Stand k.waits t (l :: ls)) {r : EffectId}
    (hs : tree.signal? = none) (hr : tree.root? = some r) (z : EffectId) :
    (k.waits.modify l.id fun w => { w with kind := w.kind.setMember l.started.length r }).get? z =
      if z = l.id then some ⟨t, Nest.link (ls.map Layer.nest), l.filled tree⟩ else k.waits.get? z := by
  rw [Table.get?_modify, h.1.entry]
  split
  · rw [Option.map_some, l.setMember_kind hr (EffectTree.of_pending hs).1]
  · rfl

/-- An `all` whose member is noted in its slot, or has its value there. -/
theorem Layer.filled_all (h : Layer.Stand k.waits t (l :: ls)) (hs : l.sort = .all)
    (hk : (∃ r, tree.start = .pending r ∧ k' = { k with waits := k.waits.modify l.id fun w =>
        { w with kind := w.kind.setMember l.started.length r } }) ∨
      ∃ v, tree.start = .immediate (.value v) ∧
        k' = { k with waits := (Waits.merge k.waits l.id l.started.length (.value v)).2 }) :
    (∀ z, k'.waits.get? z = if z = l.id then
        some ⟨t, Nest.link (ls.map Layer.nest), l.filled tree⟩ else k.waits.get? z) ∧
      k'.nextEffect = k.nextEffect ∧ l.kind.decides tree = false := by
  rcases hk with ⟨r, hstart, rfl⟩ | ⟨v, hstart, rfl⟩
  · obtain ⟨hsig, hroot⟩ := EffectTree.of_start_pending hstart
    exact ⟨get?_modify h hsig hroot, rfl, l.decides_pending hsig⟩
  · obtain rfl := EffectTree.eq_of_start hstart
    refine ⟨get?_merge hs h.1.entry v, rfl, ?_⟩
    simp [Layer.kind, hs, WaitKind.decides, EffectTree.failure?]

theorem EffectTree.failure?_of_not_value {signal : Signal} (h : ∀ v, signal ≠ .value v) :
    (EffectTree.settled signal).failure? = some signal := by
  cases signal with
  | value v => exact absurd rfl (h v)
  | _ => rfl

section

variable (hp : Progress past₀ t k past (l :: ls) issued)
  (later : ∀ m ∈ l :: ls, ∀ y ∈ tree.ids, m.id < y)
  (shown : tree.signal? = none →
    k.waits.Shows t (Nest.link ((l :: ls).map Layer.nest)) tree)
  (left : ∀ {answers}, AnswersFor past issued answers → e₀.launch answers none n₀ =
    Layer.closeAll answers (l :: ls) ⟨tree, k.nextEffect, issued⟩)
  (h : Does i past (.begun ⟨i, t⟩ b (l.nest :: ls.map Layer.nest) tree.start) k k' G D es)
  (hT : Tabled k [.begun ⟨i, t⟩ b (l.nest :: ls.map Layer.nest) tree.start, .drain i] past)
include hp later shown left h hT

/-- A member of a race was started. -/
theorem Launching.of_race {keys : Option (List String)} (hs : l.sort = .race keys) :
    ∃ y, G.getLast? = some y ∧ Launching n₀ e₀ past₀ ⟨i, t⟩ b k' (es.reverse ++ past) y := by
  have hnest : l.nest = .race l.id l.started.length l.rest := by rw [Layer.nest, hs]
  have hnext : ∀ rest, (l.next tree rest).nest = .race l.id (l.started.length + 1) rest := fun rest => by
    simp [Layer.nest, Layer.next, hs]
  cases hsig : tree.signal? with
  | none =>
    obtain ⟨r, hroot, hstart⟩ := EffectTree.start_of_pending hsig
    have hk := Layer.get?_modify hp.stand hsig hroot
    have hd := l.decides_pending hsig
    rw [hnest, hstart] at h
    cases hrest : l.rest with
    | cons e' rest =>
      rw [hrest] at h
      cases h with
      | raceNext =>
        refine ⟨_, rfl, ?_⟩
        rw [← hnext]
        refine .of_next hp later shown left hd ?_ hk hrest
        rfl
    | nil =>
      rw [hrest] at h
      cases h with
      | raceFull =>
        refine ⟨_, rfl, .of_full hp later shown left hd rfl hk hrest ?_⟩
        have hpending : ∀ m ∈ l.started ++ [tree], m.signal? = none := fun m hm => by
          rcases List.mem_append.1 hm with hm | hm
          · simpa [Layer.kind, hs, WaitKind.decides] using hp.stand.1.waiting m hm
          · rwa [List.mem_singleton.1 hm]
        simp only [Layer.treeWith, Layer.kind, hs, WaitKind.ofMembers]
        rw [EffectTree.ofRace_pending hpending]
        rfl
  | some signal =>
    obtain rfl := EffectTree.signal?_eq_some.1 hsig
    have hlost : k.waits.get? l.id ≠ none := by
      rw [hp.stand.1.entry]
      exact Option.some_ne_none _
    have hclose : ∀ {answers}, l.close answers ⟨.settled signal, k.nextEffect, issued⟩ =
        ⟨l.treeWith [.settled signal], k.nextEffect, issued⟩ := fun {answers} =>
      Layer.close_decided (by simp [Layer.kind, hs, WaitKind.decides, EffectTree.signal?]) _ _
    rw [hnest] at h
    generalize l.rest = rest at h
    cases h with
    | raceLost hlost' => exact absurd hlost' hlost
    | raceDecided hw =>
      cases hp.stand.1.entry.symm.trans hw
      have hwaits : (Waits.closeRace (k.waits.erase l.id) l.kind l.started.length signal).2 =
          Waits.detachEach (k.waits.erase l.id) l.kind.members := by
        simp [Layer.kind, hs, Waits.closeRace]
      have hprunes := Waits.prunes_close (t := t) hw rfl
      refine ⟨_, rfl, .of_decided hp left hclose
        (Layer.treeWith_race hs hp.stand.1.waiting (k.waits.erase l.id) signal) hT (fun y hy => ?_) rfl
        (issuesIn_of_silent ((Silent.passages _).append (.settled _ _))) fun y signal' hm => ?_⟩
      · show (Waits.closeRace _ _ _ _).2.2.get? y = _
        rw [hwaits]
        exact hprunes.get?_eq hT.forest_settled hy
      · rw [hwaits] at hm
        rcases List.mem_append.1 hm with hm | hm
        · exact absurd hm (not_settled_of_detachEach _)
        · cases List.mem_singleton.1 hm
          rfl

/-- A member of an `all` was started. -/
theorem Launching.of_all (hs : l.sort = .all) :
    ∃ y, G.getLast? = some y ∧ Launching n₀ e₀ past₀ ⟨i, t⟩ b k' (es.reverse ++ past) y := by
  have hnest : l.nest = .all l.id l.started.length l.rest := by rw [Layer.nest, hs]
  have hnext : ∀ rest, (l.next tree rest).nest = .all l.id (l.started.length + 1) rest := fun rest => by
    simp [Layer.nest, Layer.next, hs]
  rw [hnest] at h
  generalize hrest : l.rest = rest at h
  generalize hstart : tree.start = start at h
  cases h with
  | allHalt => cases tree <;> cases hstart
  | allNext hk' =>
    rw [← hstart] at hk'
    obtain ⟨hk, hn, hd⟩ := Layer.filled_all hp.stand hs hk'
    refine ⟨_, rfl, ?_⟩
    rw [← hnext]
    exact .of_next hp later shown left hd hn hk hrest
  | allFull hk' hz =>
    rw [← hstart] at hk'
    obtain ⟨hk, hn, hd⟩ := Layer.filled_all hp.stand hs hk'
    refine ⟨_, rfl, .of_full hp later shown left hd hn hk hrest ?_⟩
    exact Layer.pending_of_missing hs hp.stand.1.waiting hd hrest fun results members =>
      hz _ results members ((hk _).trans (if_pos rfl))
  | allComplete hk' hw hz =>
    rw [← hstart] at hk'
    obtain ⟨hk, hn, hd⟩ := Layer.filled_all hp.stand hs hk'
    cases ((hk _).trans (if_pos rfl)).symm.trans hw
    refine ⟨_, rfl, .of_decided hp left (Layer.close_last hrest _ _ _)
      (Layer.treeWith_complete hs hrest hz) hT (fun y hy => ?_) hn rfl fun y signal hm => ?_⟩
    · show (Table.erase _ _).get? y = _
      rw [Table.get?_erase, if_neg (Nat.ne_of_lt hy), hk, if_neg (Nat.ne_of_lt hy)]
    · cases List.mem_singleton.1 hm
      rfl
  | allFailed hv hw =>
    obtain rfl := EffectTree.eq_of_start hstart
    cases hp.stand.1.entry.symm.trans hw
    have hfail := EffectTree.failure?_of_not_value hv
    refine ⟨_, rfl, .of_decided hp left (Layer.close_decided ?_ _ _)
      (Layer.treeWith_all hs hp.stand.1.waiting hfail) hT
      (fun y hy => (Waits.prunes_close (t := t) hw rfl).get?_eq hT.forest_settled hy) rfl
      (issuesIn_of_silent ((Silent.passages _).append (.settled _ _))) fun y signal' hm => ?_⟩
    · simp [Layer.kind, hs, WaitKind.decides, hfail]
    · rcases List.mem_append.1 hm with hm | hm
      · exact absurd hm (not_settled_of_detachEach _)
      · cases List.mem_singleton.1 hm
        rfl
  | allLost _ hlost => cases hp.stand.1.entry.symm.trans hlost

end

end

end SagaMachine
