import SagaMachine.Proofs.Consistency
import SagaMachine.Proofs.Monitors

/-!
# The fate of effects without members

A pending effect waits for what it was triggered to wait for. One without members settles where
its settlement is performed, with the signal that is performed, and nowhere else; so a take or a join
comes to one of three ends: it settles, it is withdrawn, or it is left pending.

Main statements: `Does.settles_leaf`, `Scenario.Visits.attends`, `Scenario.Visits.fate_of_issued`.
-/

namespace SagaMachine

/-! ## Where effects settle -/

section

variable {i : MiddlewareId} {past es : List Event} {x : Instr} {k k' : Core} {F G : List Instr}
  {D : List TaskId} {y : EffectId} {signal : Signal} {wait : Wait}

theorem Quiet.not_settled (h : Quiet es) : .settled y signal ∉ es := fun hm => h _ hm

theorem Waits.not_settled_of_withdrawn {ps : List Passage}
    (h : ∀ p ∈ ps, ∃ x w, p = .withdrawn x w) : .settled y signal ∉ ps.map Passage.event := by
  intro hm
  obtain ⟨p, hp, he⟩ := List.mem_map.1 hm
  obtain ⟨z, w, rfl⟩ := h p hp
  cases he

theorem Waits.not_settled_detach {waits : Waits} {ids : List EffectId} :
    .settled y signal ∉ (Waits.detach waits ids).1.map Passage.event :=
  not_settled_of_withdrawn fun _ hp =>
    have ⟨z, w, h, _⟩ := withdrawn_of_mem_detach hp
    ⟨z, w, h⟩

theorem Waits.not_settled_detachEach {waits : Waits} {ids : List EffectId} :
    .settled y signal ∉ (Waits.detachEach waits ids).1.map Passage.event :=
  not_settled_of_withdrawn fun _ hp =>
    have ⟨z, w, h, _⟩ := withdrawn_of_mem_detachEach hp
    ⟨z, w, h⟩

theorem Buries.not_settled {t : TaskId} {outcome : Outcome} {c : Option Cascade}
    (h : Buries past k t outcome k' c es) : .settled y signal ∉ es := by
  cases h with
  | absent => exact List.not_mem_nil
  | gone _ _ hq =>
    intro hm
    cases hm with
    | tail _ hm => exact hq.not_settled hm

/-- The settlement of a pending effect lists the effect first. -/
theorem Waits.passages_settle {waits : Waits} (hy : waits.get? y = some wait) :
    (waits.settle y signal).passages = .settled y signal ::
      (climb (waits.erase y) wait.task y wait.link signal).passages := by
  simp only [settle, hy]
  rfl

/-- A settlement lists the effect itself with the signal it comes with. -/
theorem Waits.signal_of_settle {waits : Waits} {signal' : Signal}
    (hm : .settled y signal' ∈ (waits.settle y signal).passages) : signal' = signal := by
  cases hy : waits.get? y with
  | none =>
    rw [settle_of_absent hy] at hm
    cases hm
  | some w =>
    have hn := (spends_settle waits y signal).nodup
    rw [passages_settle hy] at hm hn
    rcases List.mem_cons.1 hm with hm | hm
    · cases hm
      rfl
    · exact absurd (List.mem_map.2 ⟨_, hm, rfl⟩) (List.nodup_cons.1 hn).1

/-- A pending effect settles when its settlement is performed. -/
theorem Does.settles_performed
    (h : Does i past (.perform i (.reaction (.settle y signal))) k k' G D es)
    (hy : k.waits.get? y = some wait) : .settled y signal ∈ es := by
  have hm : .settled y signal ∈ (k.waits.settle y signal).passages.map Passage.event := by
    rw [Waits.passages_settle hy]
    exact List.mem_cons_self
  cases h with
  | settle => exact hm
  | wake => exact hm

/-- A pending effect without members settles where its settlement is performed. -/
theorem Does.settles_leaf (h : Does i past x k k' G D es) (hs : Stack i k.current (x :: F))
    (hT : Tabled k (x :: F) past) (hm : .settled y signal ∈ es) (hy : k.waits.get? y = some wait)
    (hl : wait.kind.IsLeaf) : x = .perform i (.reaction (.settle y signal)) := by
  have hnest : ∀ {t : TaskId} {n : Nest} {nests : List Nest}, Open k.waits t (n :: nests) →
      y ≠ n.id := by
    rintro t n nests ho rfl
    exact ho.not_isLeaf List.mem_cons_self hy hl
  have hlate : y ≠ k.nextEffect := fun he => Nat.lt_irrefl _ (he ▸ hT.number hy)
  have hstart := hT.frames x List.mem_cons_self
  have hsettle : ∀ {id : EffectId} {signal' : Signal},
      x = .perform i (.reaction (.settle id signal')) → LeafName past id →
      .settled y signal ∈ (Waits.settle k.waits id signal').passages.map Passage.event →
      y = id ∧ signal = signal' := by
    rintro id signal' rfl hn hm
    obtain ⟨p, hp, he⟩ := List.mem_map.1 hm
    cases p with
    | withdrawn => cases he
    | settled z signal'' =>
      cases he
      obtain ⟨-, hF⟩ := hs.of_works trivial
      subst hF
      have hwhole : ∀ {z wz}, k.waits.get? z = some wz → wz.kind.Whole := fun hz =>
        hT.whole hz fun g hg => by
          rcases List.mem_cons.1 hg with rfl | hg
          · exact List.not_mem_nil
          · rw [List.mem_singleton.1 hg]
            exact List.not_mem_nil
      obtain ⟨hw, -⟩ := Waits.withdraws_settle hT.forest hwhole (fun hz => hT.leaf hz hn) signal'
      rcases hw.decided hp with ⟨wz, hz, hnl⟩ | rfl
      · cases hy.symm.trans hz
        exact absurd hl hnl
      · exact ⟨rfl, Waits.signal_of_settle hp⟩
  cases h with
  | settle hn => obtain ⟨rfl, rfl⟩ := hsettle rfl hn hm; rfl
  | wake hn => obtain ⟨rfl, rfl⟩ := hsettle rfl hn hm; rfl
  | errand _ _ hq | emit hq | forwarded _ _ hq | forwardedCall _ hq => exact absurd hm hq.not_settled
  | triggerSettles _ _ hq =>
    rcases List.mem_cons.1 hm with hm | hm
    · cases hm
    · rcases List.mem_append.1 hm with hm | hm
      · exact absurd hm hq.not_settled
      · cases List.mem_singleton.1 hm
        exact absurd rfl hlate
  | triggerForks =>
    rcases List.mem_cons.1 hm with hm | hm
    · cases hm
    · rcases List.mem_cons.1 hm with hm | hm
      · cases hm
      · cases List.mem_singleton.1 hm
        exact absurd rfl hlate
  | triggerSuspends _ _ _ _ hq =>
    rcases List.mem_cons.1 hm with hm | hm
    · cases hm
    · exact absurd hm hq.not_settled
  | triggerCalls | triggerCancels | triggerOpens | poll => cases List.mem_singleton.1 hm
  | answerSettles | cancelSettles =>
    cases List.mem_singleton.1 hm
    obtain ⟨-, -, -, -, hnone⟩ := hstart
    cases hy.symm.trans hnone
  | begunWithdraws | raceHalt | allHalt | abort | cancelEach =>
    exact absurd hm Waits.not_settled_detach
  | raceDecided =>
    rcases List.mem_append.1 hm with hm | hm
    · exact absurd hm (Waits.not_settled_of_withdrawn fun _ => Waits.withdrawn_of_mem_closeRace)
    · cases List.mem_singleton.1 hm
      exact absurd rfl (hnest hstart)
  | allLost =>
    cases List.mem_singleton.1 hm
    exact absurd rfl (hnest hstart)
  | allComplete hk =>
    cases List.mem_singleton.1 hm
    rcases hk with ⟨_, rfl, -⟩ | ⟨_, rfl, -⟩
    · exact absurd rfl (hnest hstart.1)
    · exact absurd rfl (hnest hstart)
  | allFailed =>
    rcases List.mem_append.1 hm with hm | hm
    · exact absurd hm Waits.not_settled_detachEach
    · cases List.mem_singleton.1 hm
      exact absurd rfl (hnest hstart)
  | abortDone h | conclude h | cascadeComplete _ _ _ h | cancelOne h => exact absurd hm h.not_settled
  | _ => cases hm

end

/-! ## What pending effects wait for -/

section

variable {s : Scenario} {c c' : Config} {w : World} {i : MiddlewareId} {x : Instr}
  {rest : List Instr} {y : EffectId} {t : TaskId} {q : Option EffectId} {e : Effect}

theorem not_triggered_of_nil {es : List Event} (h : triggeredIn es = []) :
    .triggered t y q e ∉ es := fun hm => by
  have hy : y ∈ triggeredIn es := mem_triggeredIn.2 ⟨t, q, e, hm⟩
  rw [h] at hy
  cases hy

theorem Disposes.of_get? {P : WaitKind → Prop} {waits waits' : Waits} {a : Attempt}
    {bs : List Attempt} {ids : List EffectId} (h : Disposes P waits a waits' bs ids) {wait : Wait}
    (hy : waits'.get? y = some wait) : waits.get? y = some wait ∨ y = a.id ∧ P wait.kind := by
  cases h with
  | settles | carries => exact Or.inl hy
  | suspends _ _ hP =>
    rw [Table.get?_insert] at hy
    split at hy
    · rename_i hya
      cases hy
      exact Or.inr ⟨hya, hP⟩
    · exact Or.inl hy

theorem Disposes.eq_of_ended {P : WaitKind → Prop} {waits waits' : Waits} {a : Attempt}
    {bs : List Attempt} {ids : List EffectId} (h : Disposes P waits a waits' bs ids)
    (hy : y ∈ ids) : y = a.id := by
  cases h with
  | settles => exact List.mem_singleton.1 hy
  | suspends | carries => cases hy

/-- What pending effects wait for is what they were triggered to wait for. -/
def Attends (waits : Waits) (past : List Event) : Prop :=
  ∀ ⦃y : EffectId⦄ ⦃wait : Wait⦄ ⦃t : TaskId⦄ ⦃q : Option EffectId⦄ ⦃e : Effect⦄,
    waits.get? y = some wait → .triggered t y q e ∈ past → e.Suspends wait.kind

theorem Deals.attends {k k' : Core} {F F' G : List Instr} {past es : List Event}
    (h : Deals i k x k' G es) (hk : Attends k.waits past) (hT : Tabled k F' past)
    (hA : Accounts k.waits (attemptsOf (x :: F)) past) (hR : Regular (es.reverse ++ past))
    (hcall : ∀ {u b nests id result env},
      x = .answer ⟨i, u⟩ b nests id result env → CallName past id)
    (hleaf : ∀ {y wait}, k'.waits.get? y = some wait → LeafName (es.reverse ++ past) y →
      wait.kind.IsLeaf) : Attends k'.waits (es.reverse ++ past) := by
  intro y wait t q e hy hm
  have hold : triggeredIn es = [] → .triggered t y q e ∈ past := fun ht =>
    (List.mem_append.1 hm).resolve_left fun hm => not_triggered_of_nil ht (List.mem_reverse.1 hm)
  cases h with
  | walks _ _ hw ht _ =>
    obtain ⟨w', hw', -, -, hkind, -⟩ := hw.old hy
    have hs := hk hw' (hold ht)
    refine ⟨fun he => ?_, fun hl => hs.leaf (hkind hl ▸ hl)⟩
    rw [← hkind (hleaf hy ⟨t, q, e, hm, he⟩)]
    exact hs.awaits he
  | @issues a e' later hx hid hp hes ht ids hends hd =>
    subst hes
    have hsame : k.waits.get? y = some wait → e.Suspends wait.kind := fun hy' => by
      refine hk hy' ((List.mem_append.1 hm).resolve_left fun hm => ?_)
      rcases List.mem_cons.1 (List.mem_reverse.1 hm) with hm | hm
      · cases hm
        exact Nat.lt_irrefl _ (hid ▸ hT.number hy')
      · exact not_triggered_of_nil ht hm
    rcases hd.of_get? hy with hy | ⟨rfl, hP⟩
    · exact hsame hy
    · obtain ⟨-, -, rfl⟩ := hR.triggered_once hm
        (List.mem_append_left _ (List.mem_reverse.2 List.mem_cons_self))
      exact hP
  | @concludes a hx ht ids hends hd =>
    rcases hd.of_get? hy with hy | ⟨rfl, ⟨d, hkind⟩, b, nests, result, env, rfl⟩
    · exact hk hy (hold ht)
    · -- only a call is answered, and it goes on to wait for a deferred
      obtain ⟨u, p, name, r, hm'⟩ := hcall rfl
      obtain ⟨-, -, rfl⟩ := hR.triggered_once hm (List.mem_append_right _ hm')
      rw [hkind]
      exact ⟨fun _ => trivial, fun _ => rfl⟩
  | halts _ _ hk' _ hes =>
    subst hk' hes
    exact hk hy hm

/-- A pending effect waits for what it was triggered to wait for. -/
theorem Scenario.Visits.attends (h : s.Visits c) (ha : c.world.Alive i) :
    Attends (c.world.engine i).waits (c.world.past i) := by
  induction h with
  | start h =>
    intro y wait t q e hy
    rw [(setUp_fresh h).engine] at hy
    cases hy
  | call _ o budget ih => exact ih ha
  | @step c c' h hc ih =>
    have hi := (h.knows.has_iff hc i).1 ha.has
    have ha₀ := h.alive_of_step hi hc ha
    obtain ⟨todo, w⟩ := c
    cases todo with
    | nil => cases hc
    | cons x rest =>
      have hk := h.kept hi
      have hk' := (h.step hc).kept ha.has
      have hT' : Tabled (c'.world.core i) _ (c'.world.past i) :=
        hk'.sound.tabled (Config.alive_iff.2 ha)
      have hR' : Regular (c'.world.past i) := hk'.regular
      have hA : Accounts (w.core i).waits (attemptsOf (framesOf i (x :: rest))) (w.past i) :=
        hk.accounts (Config.alive_iff.2 ha₀)
      obtain ⟨x₀, G, es, hatt, -, hpast, hdeals, hx₀⟩ := h.deals hi hc ha
      rw [hatt] at hA
      rw [hpast] at hT' hR' ⊢
      refine hdeals.attends (ih ha₀) (hk.sound.tabled (Config.alive_iff.2 ha₀)) hA hR' ?_ hT'.leaf
      rintro u b nests id result env rfl
      rcases hx₀ with h₀ | rfl
      · cases h₀
      · rcases h.knows.todo with ⟨o, ho⟩ | hall
        · cases ho
        · exact hall _ List.mem_cons_self

/-! ## Takes and joins -/

/-- An effect that settles when something comes about elsewhere, and not by an attempt of its own. -/
def Effect.Waits : Effect → Prop
  | .take .. | .join _ => True
  | _ => False

theorem Effect.Waits.fan?_eq {e : Effect} (he : e.Waits) : e.fan? = none := by
  cases e with
  | take | join => rfl
  | _ => exact he.elim

/-- An effect was triggered. -/
structure World.Issued (w : World) (r : EffectRef) (e : Effect) : Prop where
  has : w.Has r.mw
  triggered : ∃ t q, .triggered t r.effect q e ∈ w.past r.mw

/-- An effect was triggered as a take. -/
def World.TakesFrom (w : World) (r : EffectRef) (source : Source) (p : Pattern) : Prop :=
  w.Issued r (.take source p)

variable {r : EffectRef} {source : Source} {p : Pattern} {e : Effect} {signal : Signal}

namespace Scenario.Visits

/-- An effect that was triggered stays one. -/
theorem issued_precedes (h : s.Visits c) (hp : c.Precedes c') (hr : c.world.Issued r e) :
    c'.world.Issued r e := by
  obtain ⟨t, q, hm⟩ := hr.triggered
  obtain ⟨es, he⟩ := h.past_precedes hr.has hp
  exact ⟨(h.has_precedes hp).2 hr.has, t, q, he ▸ List.mem_append_right es hm⟩

/-- An effect is triggered as one effect only. -/
theorem issued_once (h : s.Visits c) {e' : Effect} (hr : c.world.Issued r e)
    (hr' : c.world.Issued r e') : e = e' := by
  obtain ⟨t, q, hm⟩ := hr.triggered
  obtain ⟨t', q', hm'⟩ := hr'.triggered
  have hR : Regular (c.world.past r.mw) := (h.kept hr.has).regular
  exact (hR.triggered_once hm hm').2.2

/-- A pending effect waits for what it was triggered to wait for. -/
theorem awaits_of_claims (h : s.Visits c) (ha : c.world.Alive r.mw) (hr : c.world.Issued r e)
    (he : e.Waits) {k : WaitKind} (hk : c.world.Claims r t k) : e.Awaits k := by
  obtain ⟨u, q, hm⟩ := hr.triggered
  obtain ⟨-, link, hw⟩ := hk
  exact (h.attends ha hw hm).awaits he.fan?_eq

/-- A pending take waits for its source. -/
theorem source_of_take (h : s.Visits c) (ha : c.world.Alive r.mw)
    (hr : c.world.TakesFrom r source p) {k : WaitKind} (hk : c.world.Claims r t k) :
    ∃ id, k = .take source id := by
  have hk : (Effect.take source p).Awaits k := h.awaits_of_claims ha hr trivial hk
  cases k with
  | take source' id => exact ⟨id, congrArg (WaitKind.take · id) hk⟩
  | _ => exact hk.elim

/-- What waits was triggered to wait. -/
theorem issued_of_claims (h : s.Visits c) (ha : c.world.Alive r.mw) {k : WaitKind}
    (hk : c.world.Claims r t k) :
    ∃ q e, .triggered t r.effect q e ∈ c.world.past r.mw ∧ e.Awaits k := by
  obtain ⟨hl, link, hw⟩ := hk
  have hA : Accounts (c.world.engine r.mw).waits _ (c.world.past r.mw) :=
    (h.kept ha.has).accounts (Config.alive_iff.2 ha)
  obtain ⟨⟨e, hm⟩, -⟩ := hA.entries hw
  have hs := h.attends ha hw hm
  exact ⟨_, e, hm, hs.awaits (hs.leaf hl)⟩

/-- What waits for something else is none of the effects that a frame is carrying out. -/
theorem not_attempt_of_waits (h : s.Visits c) (hm : x ∈ c.todo) (hx : x.owner? = some r.mw)
    (hr : c.world.Issued r e) (he : e.Waits) {a : Attempt} (ha : x.attempt? = some a) :
    a.id ≠ r.effect := by
  obtain ⟨i, y⟩ := r
  rintro rfl
  obtain ⟨hi, u, q, htr⟩ := hr
  have hR : Regular (c.world.past i) := (h.kept hi).regular
  cases x with
  | answer turn b nests id result env =>
    cases hx
    cases ha
    rcases h.knows.todo with ⟨o, ho⟩ | hall
    · rw [ho] at hm
      cases List.mem_singleton.1 hm
    · obtain ⟨u', q', name, routine, htr'⟩ := hall _ hm
      cases (hR.triggered_once htr htr').2.2
      exact he.elim
  | cancelDone turn b nests id =>
    cases hx
    cases ha
    obtain ⟨pre, todo, hc⟩ := List.append_of_mem hm
    obtain ⟨q', target, htr'⟩ := (h.startsCancel hi hc).triggered hi hc
    cases (hR.triggered_once htr htr').2.2
    exact he.elim
  | _ => cases ha

/-- What happens to an effect happens in a frame of its middleware. -/
theorem own_of_event (h : s.Visits ⟨x :: rest, w⟩) (hi : w.Has i)
    (hc : Config.step ⟨x :: rest, w⟩ = some c') {ev : Event}
    (hev : ev.triggers? = some y ∨ ev.ends? = some y) (hn : ev ∉ w.past i)
    (hm : ev ∈ c'.world.past i) : ∃ G D es, x.owner? = some i ∧
      Does i (w.past i) x (w.core i) (c'.world.core i) G D es ∧
      framesOf i c'.todo = G ++ framesOf i rest ∧ c'.world.past i = es.reverse ++ w.past i ∧
      c'.world.alive? i = w.alive? i ∧ ev ∈ es := by
  obtain ⟨next, -, rfl, hmeets⟩ := Config.meets_of_step h.knows hi hc
  have hnew : ∀ {es : List Event}, next.world.past i = es.reverse ++ w.past i → ev ∈ es := by
    intro es hes
    rcases List.mem_append.1 (hes ▸ hm : ev ∈ es.reverse ++ w.past i) with hm | hm
    · exact List.mem_reverse.1 hm
    · exact absurd hm hn
  cases hmeets with
  | own ho hadv hdoes =>
    obtain ⟨rfl, hpast, halive, -⟩ := hadv
    exact ⟨_, _, _, ho, hdoes, framesOf_append .., hpast, halive, hnew hpast⟩
  | foreign _ hadv hint =>
    have hm := hnew hadv.past
    obtain ⟨-, -, ht, he⟩ := hint.idle
    rcases hev with hev | hev
    · have hy : y ∈ triggeredIn _ := List.mem_filterMap.2 ⟨_, hm, hev⟩
      rw [ht] at hy
      cases hy
    · have hy : y ∈ endedIn _ := List.mem_filterMap.2 ⟨_, hm, hev⟩
      rw [he] at hy
      cases hy
  | @drops t b hhead hres =>
    subst hhead hres
    have hm : ev ∈ (w.record i (.bodyDropped t)).past i := hm
    rw [World.past_record] at hm
    rcases List.mem_cons.1 hm with rfl | hm
    · rcases hev with hev | hev <;> cases hev
    · exact absurd hm hn
  | dies _ _ _ _ hpast =>
    have hm : ev ∈ next.world.past i := hm
    rw [hpast] at hm
    exact absurd hm hn

/-- What was triggered before to wait settles where its settlement is performed, while it waits. -/
theorem settles_issued (h : s.Visits ⟨x :: rest, w⟩) (hc : Config.step ⟨x :: rest, w⟩ = some c')
    (hr : w.Issued r e) (he : e.Waits) (hn : .settled r.effect signal ∉ w.past r.mw)
    (hm : .settled r.effect signal ∈ c'.world.past r.mw) :
    x = .perform r.mw (.reaction (.settle r.effect signal)) ∧ ∃ t k, w.Claims r t k := by
  obtain ⟨G, D, es, hx, hdoes, -, -, -, hm⟩ := h.own_of_event hr.has hc (Or.inr rfl) hn hm
  have hg := h.grounds hx hr.has
  obtain ⟨t, q, hmt⟩ := hr.triggered
  have hends : r.effect ∈ endedIn es := List.mem_filterMap.2 ⟨_, hm, rfl⟩
  have hwait : ∃ wait, (w.core r.mw).waits.get? r.effect = some wait := by
    cases hdoes.deals (hg.tabled.frames x List.mem_cons_self) with
    | walks _ _ hw _ he =>
      rw [he] at hends
      exact (hw.listed.1 hends).1
    | @issues a _ later _ hid _ hes _ ids he hd =>
      rw [hes] at hends
      have hy : r.effect = a.id := hd.eq_of_ended (he ▸ hends)
      exact absurd (hg.tabled.named hmt) (hy ▸ hid ▸ Nat.lt_irrefl _)
    | concludes hxa _ he' hd =>
      exact absurd (hd.eq_of_ended (he' ▸ hends)).symm (h.not_attempt_of_waits List.mem_cons_self hx hr he hxa)
    | halts _ _ _ _ hes =>
      rw [hes] at hends
      cases hends
  obtain ⟨wait, hwait⟩ := hwait
  have hleaf := hg.tabled.leaf hwait ⟨t, q, _, hmt, he.fan?_eq⟩
  exact ⟨hdoes.settles_leaf hg.stack hg.tabled hm hwait hleaf, wait.task, wait.kind, hleaf,
    wait.link, hwait⟩

/-- A take that was triggered before settles where its settlement is performed, while it waits. -/
theorem settles_take (h : s.Visits ⟨x :: rest, w⟩) (hc : Config.step ⟨x :: rest, w⟩ = some c')
    (hr : w.TakesFrom r source p) (hn : .settled r.effect signal ∉ w.past r.mw)
    (hm : .settled r.effect signal ∈ c'.world.past r.mw) :
    x = .perform r.mw (.reaction (.settle r.effect signal)) ∧
      ∃ t id, w.Claims r t (.take source id) := by
  obtain ⟨rfl, t, k, hk⟩ := h.settles_issued hc hr trivial hn hm
  obtain ⟨id, rfl⟩ := h.source_of_take (h.alive_of_owner rfl) hr hk
  exact ⟨rfl, t, id, hk⟩

/-- What was triggered before to wait and is pending was pending before. -/
theorem claims_of_step (h : s.Visits ⟨x :: rest, w⟩) (hc : Config.step ⟨x :: rest, w⟩ = some c')
    (ha : c'.world.Alive r.mw) (hr : w.Issued r e) (he : e.Waits) {k : WaitKind}
    (hk : c'.world.Claims r t k) : w.Claims r t k := by
  obtain ⟨hl, link, hw⟩ := hk
  have hT : Tabled (w.core r.mw) _ (w.past r.mw) :=
    (h.kept hr.has).sound.tabled (Config.alive_iff.2 (h.alive_of_step hr.has hc ha))
  obtain ⟨x₀, G, es, hatt, -, -, hdeals, hx₀⟩ := h.deals hr.has hc ha
  obtain ⟨u, q, hm⟩ := hr.triggered
  have hsame : ∀ {wait}, (w.engine r.mw).waits.get? r.effect = some wait → wait.task = t →
      wait.kind = k → w.Claims r t k := by
    rintro ⟨t', link', k'⟩ hw' rfl rfl
    exact ⟨hl, link', hw'⟩
  cases hdeals with
  | walks _ _ hs =>
    obtain ⟨w', hw', ht, -, hk, -⟩ := hs.old hw
    exact hsame hw' ht (hk hl)
  | @issues a _ _ _ hid _ _ _ _ _ hd =>
    rcases hd.of_get? hw with hw | ⟨hy, -⟩
    · exact hsame hw rfl rfl
    · exact absurd (hT.named hm) (hy ▸ hid ▸ Nat.lt_irrefl _)
  | concludes hx _ _ hd =>
    rcases hd.of_get? hw with hw | ⟨hy, -⟩
    · exact hsame hw rfl rfl
    · rcases hx₀ with rfl | rfl
      · cases hx
      · refine absurd hy.symm (h.not_attempt_of_waits List.mem_cons_self ?_ hr he hx)
        by_contra ho
        rw [framesOf_cons, if_neg ho, attemptsOf_cons, hx] at hatt
        exact absurd (congrArg List.length hatt) (by simp)
  | halts _ _ hk =>
    exact hsame ((congrArg (fun k : Core => k.waits.get? r.effect) hk).symm.trans hw) rfl rfl

/-- An effect is triggered where it is started. -/
theorem trigger_of_event (h : s.Visits ⟨x :: rest, w⟩) (hi : w.Has i)
    (hc : Config.step ⟨x :: rest, w⟩ = some c') (hn : .triggered t y q e ∉ w.past i)
    (hm : .triggered t y q e ∈ c'.world.past i) :
    (∃ b nests, x = .trigger ⟨i, t⟩ b nests e) ∧ y = (w.engine i).nextEffect := by
  obtain ⟨G, D, es, hx, hdoes, -, -, -, hm⟩ := h.own_of_event hi hc (Or.inl rfl) hn hm
  have hg := h.grounds hx hi
  cases hdoes.deals (hg.tabled.frames x List.mem_cons_self) with
  | walks _ _ _ ht => exact absurd hm (not_triggered_of_nil ht)
  | issues hx hid _ hes ht =>
    rw [hes] at hm
    rcases List.mem_cons.1 hm with hm | hm
    · obtain ⟨rfl, hy, -, rfl⟩ := Event.triggered.inj hm
      exact ⟨hx, hy.trans hid⟩
    · exact absurd hm (not_triggered_of_nil ht)
  | concludes _ ht => exact absurd hm (not_triggered_of_nil ht)
  | halts _ _ _ _ hes =>
    rw [hes] at hm
    cases hm

theorem trigger_of_issued (h : s.Visits ⟨x :: rest, w⟩) (hc : Config.step ⟨x :: rest, w⟩ = some c')
    (hn : ¬ w.Issued r e) (hr : c'.world.Issued r e) :
    (∃ t b nests, x = .trigger ⟨r.mw, t⟩ b nests e) ∧ r.effect = (w.engine r.mw).nextEffect := by
  obtain ⟨hi, t, q, hm⟩ := hr
  have hi := (h.knows.has_iff hc r.mw).1 hi
  obtain ⟨hx, hy⟩ := h.trigger_of_event hi hc (fun hm => hn ⟨hi, t, q, hm⟩) hm
  exact ⟨⟨t, hx⟩, hy⟩

/-- What was triggered to wait has settled, was withdrawn, or is pending. -/
theorem fate_of_issued (h : s.Visits c) (ha : c.world.Alive r.mw) (hr : c.world.Issued r e)
    (he : e.Waits) : (∃ signal, .settled r.effect signal ∈ c.world.past r.mw) ∨
      .withdrawn r.effect ∈ c.world.past r.mw ∨ ∃ t k, c.world.Claims r t k := by
  obtain ⟨t, q, hm⟩ := hr.triggered
  have hk := h.kept hr.has
  have hR : Regular (c.world.past r.mw) := hk.regular
  by_cases hend : r.effect ∈ endedIn (c.world.past r.mw)
  · obtain ⟨ev, hev, hends⟩ := List.mem_filterMap.1 hend
    cases ev with
    | settled id signal =>
      cases hends
      exact Or.inl ⟨signal, hev⟩
    | withdrawn id =>
      cases hends
      exact Or.inr (Or.inl hev)
    | _ => cases hends
  · cases hw : (c.world.engine r.mw).waits.get? r.effect with
    | some wait =>
      have hT : Tabled (c.world.core r.mw) _ (c.world.past r.mw) :=
        hk.sound.tabled (Config.alive_iff.2 ha)
      exact Or.inr (Or.inr ⟨_, _, hT.leaf hw ⟨t, q, _, hm, he.fan?_eq⟩, wait.link, hw⟩)
    | none =>
      have hfree : r.effect ∉ (attemptsOf (framesOf r.mw c.todo)).map Attempt.id := by
        intro hat
        obtain ⟨a, hat, hid⟩ := List.mem_map.1 hat
        obtain ⟨z, hz, hza⟩ := List.mem_filterMap.1 hat
        obtain ⟨hz, ho⟩ := List.mem_filter.1 hz
        exact h.not_attempt_of_waits hz (of_decide_eq_true ho) hr he hza hid
      have hmiss : c.Misses r.mw r.effect := ⟨mem_triggeredIn.2 ⟨t, q, _, hm⟩, hend, hw, hfree⟩
      obtain ⟨t', hs⟩ := h.cancelsItself_of_misses ha hmiss
      obtain ⟨q', target, hm'⟩ := hs.triggered hr.has
      cases (hR.triggered_once hm hm').2.2
      exact he.elim

end Scenario.Visits

end

end SagaMachine
