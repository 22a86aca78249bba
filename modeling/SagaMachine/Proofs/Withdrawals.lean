import SagaMachine.Proofs.Registrations
import SagaMachine.Proofs.Settlement

/-!
# Withdrawn effects give up their registrations

A walk over the wait table takes effects out of it and lists those it withdraws
(`Waits.Withdraws`). Each of these then gives up the registration that it holds, and no other
registration goes with it (`World.Revoked`), because every registration belongs to one effect.

Main statement: `Config.Wired.walk`.
-/

namespace SagaMachine

/-! ## What a walk takes out of the table -/

namespace Waits

/--
A walk has come from one wait table to another. Every effect without members is still there,
unless the walk lists it as withdrawn, or it is excepted; and what it lists as settled are
combinators, unless they are excepted.
-/
structure Withdraws (except : EffectId → Prop) (waits : Waits) (ps : List Passage)
    (waits' : Waits) : Prop where
  absent : ∀ {x}, waits.get? x = none → waits'.get? x = none
  old : ∀ {x w}, waits'.get? x = some w → w.kind.IsLeaf → waits.get? x = some w
  gone : ∀ {x w}, .withdrawn x w ∈ ps → w.kind.IsLeaf →
    waits.get? x = some w ∧ waits'.get? x = none
  covered : ∀ {x w}, waits.get? x = some w → w.kind.IsLeaf →
    waits'.get? x = some w ∨ .withdrawn x w ∈ ps ∨ except x
  decided : ∀ {x signal}, .settled x signal ∈ ps →
    (∃ w, waits.get? x = some w ∧ ¬ w.kind.IsLeaf) ∨ except x

namespace Withdraws

variable {except : EffectId → Prop} {waits waits' waits'' : Waits} {ps ps' : List Passage}

theorem refl (except : EffectId → Prop) (waits : Waits) : Withdraws except waits [] waits :=
  ⟨id, fun h _ => h, fun h => (List.not_mem_nil h).elim, fun h _ => Or.inl h,
    fun h => (List.not_mem_nil h).elim⟩

theorem trans (h : Withdraws except waits ps waits') (h' : Withdraws except waits' ps' waits'') :
    Withdraws except waits (ps ++ ps') waits'' where
  absent hx := h'.absent (h.absent hx)
  old hx hl := h.old (h'.old hx hl) hl
  gone hm hl := by
    rcases List.mem_append.1 hm with hm | hm
    · obtain ⟨hx, hn⟩ := h.gone hm hl
      exact ⟨hx, h'.absent hn⟩
    · obtain ⟨hx, hn⟩ := h'.gone hm hl
      exact ⟨h.old hx hl, hn⟩
  covered hx hl := by
    rcases h.covered hx hl with hx' | hm | he
    · rcases h'.covered hx' hl with hx'' | hm | he
      · exact Or.inl hx''
      · exact Or.inr (Or.inl (List.mem_append_right _ hm))
      · exact Or.inr (Or.inr he)
    · exact Or.inr (Or.inl (List.mem_append_left _ hm))
    · exact Or.inr (Or.inr he)
  decided {x signal} hm := by
    rcases List.mem_append.1 hm with hm | hm
    · exact h.decided hm
    · rcases h'.decided hm with ⟨w', hw', hl'⟩ | he
      · cases hw : waits.get? x with
        | none => cases hw'.symm.trans (h.absent hw)
        | some w =>
          by_cases hl : w.kind.IsLeaf
          · rcases h.covered hw hl with hw₁ | hm | he
            · cases hw'.symm.trans hw₁
              exact absurd hl hl'
            · cases hw'.symm.trans (h.gone hm hl).2
            · exact Or.inr he
          · exact Or.inl ⟨w, rfl, hl⟩
      · exact Or.inr he

theorem settled (h : Withdraws except waits ps waits') {x : EffectId}
    (hx : (∃ w, waits.get? x = some w ∧ ¬ w.kind.IsLeaf) ∨ except x) (signal : Signal) :
    Withdraws except waits (ps ++ [.settled x signal]) waits' where
  absent := h.absent
  old := h.old
  gone hm hl := by
    rcases List.mem_append.1 hm with hm | hm
    · exact h.gone hm hl
    · cases List.mem_singleton.1 hm
  covered hx hl := by
    rcases h.covered hx hl with hx' | hm | he
    · exact Or.inl hx'
    · exact Or.inr (Or.inl (List.mem_append_left _ hm))
    · exact Or.inr (Or.inr he)
  decided hm := by
    rcases List.mem_append.1 hm with hm | hm
    · exact h.decided hm
    · cases List.mem_singleton.1 hm
      exact hx

/-- A combinator leaves the table, or an effect that is excepted. -/
theorem erase {p : EffectId} (hp : ∀ {w}, waits.get? p = some w → w.kind.IsLeaf → except p) :
    Withdraws except waits [] (waits.erase p) where
  absent hx := by
    rw [Table.get?_erase]
    split
    · rfl
    · exact hx
  old hx _ := get?_of_get?_erase hx
  gone hm := (List.not_mem_nil hm).elim
  covered {x w} hx hl := by
    by_cases hxp : x = p
    · subst hxp
      exact Or.inr (Or.inr (hp hx hl))
    · refine Or.inl ?_
      rw [Table.get?_erase, if_neg hxp]
      exact hx
  decided hm := (List.not_mem_nil hm).elim

/-- A combinator in the table changes. -/
theorem modify {p : EffectId} {f : Wait → Wait}
    (hf : ∀ {w}, waits.get? p = some w → ¬ w.kind.IsLeaf ∧ ¬ (f w).kind.IsLeaf) :
    Withdraws except waits [] (waits.modify p f) where
  absent {x} hx := by
    rw [Table.get?_modify]
    split
    · rename_i hxp
      rw [← hxp, hx]
      rfl
    · exact hx
  old {x w} hx hl := by
    rw [Table.get?_modify] at hx
    split at hx
    · obtain ⟨w', hw', rfl⟩ := Option.map_eq_some_iff.1 hx
      exact absurd hl (hf hw').2
    · exact hx
  gone hm := (List.not_mem_nil hm).elim
  covered {x w} hx hl := by
    refine Or.inl ?_
    rw [Table.get?_modify, if_neg]
    · exact hx
    · rintro rfl
      exact (hf hx).1 hl
  decided hm := (List.not_mem_nil hm).elim

theorem detach (waits : Waits) (ids : List EffectId) :
    Withdraws except waits (waits.detach ids).1 (waits.detach ids).2 where
  absent {x} hx := by
    rw [get?_detach]
    split
    · rfl
    · exact hx
  old hx _ := get?_of_get?_detach hx
  gone {x w} hm _ := by
    obtain ⟨y, wy, hp, hy⟩ := withdrawn_of_mem_detach hm
    cases hp
    refine ⟨hy, ?_⟩
    have hm' : x ∈ (waits.detach ids).1.map Passage.id := List.mem_map.2 ⟨_, hm, rfl⟩
    rw [get?_detach, if_pos hm']
  covered {x w} hx _ := by
    rw [get?_detach]
    split
    · rename_i hm
      obtain ⟨p, hp, rfl⟩ := List.mem_map.1 hm
      obtain ⟨y, wy, rfl, hy⟩ := withdrawn_of_mem_detach hp
      cases hx.symm.trans hy
      exact Or.inr (Or.inl hp)
    · exact Or.inl hx
  decided hm := by
    obtain ⟨x, w, hp, -⟩ := withdrawn_of_mem_detach hm
    cases hp

theorem detachEach (waits : Waits) (ids : List EffectId) :
    Withdraws except waits (waits.detachEach ids).1 (waits.detachEach ids).2 := by
  induction ids generalizing waits with
  | nil => exact refl except waits
  | cons id ids ih => exact (detach waits [id]).trans (ih _)

theorem closeRace (waits : Waits) (kind : WaitKind) (slot : Nat) (signal : Signal) :
    Withdraws except waits (waits.closeRace kind slot signal).2.1
      (waits.closeRace kind slot signal).2.2 := by
  unfold Waits.closeRace
  split
  · exact detachEach waits _
  · exact refl except waits

theorem merge (waits : Waits) (p : EffectId) (slot : Nat) (signal : Signal) :
    Withdraws except waits [] (waits.merge p slot signal).2 := by
  unfold Waits.merge
  split
  · rename_i hp
    have hf : ∀ {w : Wait}, waits.get? p = some w → ¬ w.kind.IsLeaf := fun hw h => by
      rw [hp] at hw
      cases hw
      exact h
    split <;>
    · dsimp only
      exact modify fun hw => ⟨hf hw, id⟩
  · exact refl except waits

end Withdraws

/-- Only an `all` takes a signal that decides it. -/
theorem not_isLeaf_of_merge {waits : Waits} {p : EffectId} {slot : Nat} {signal : Signal} {w : Wait}
    (hm : (waits.merge p slot signal).1 ≠ .waiting)
    (hw : (waits.merge p slot signal).2.get? p = some w) : ¬ w.kind.IsLeaf := by
  rcases hp : waits.get? p with _ | ⟨t, link, kind⟩
  · simp [merge, hp] at hm
  · cases kind with
    | all results members remaining =>
      cases signal <;>
      · simp only [merge, hp, Table.get?_modify, if_true, Option.map_some, Option.some.injEq] at hw
        rw [← hw]
        exact id
    | _ => simp [merge, hp] at hm

/-- A climb withdraws what it lists, besides the combinators it decides. -/
theorem withdraws_climb {except : EffectId → Prop} {waits : Waits} {task : TaskId} {id : EffectId}
    {link : Link} (signal : Signal) (h : Climbable waits task id link) :
    Withdraws except waits (waits.climb task id link signal).passages
      (waits.climb task id link signal).waits := by
  fun_induction climb waits task id link signal with
  | case1 => exact .refl except _
  | case2 => exact .refl except _
  | case3 waits task id signal p slot pw hp r ih =>
    obtain ⟨pw', hpw', -, hm⟩ := h.above rfl
    cases hp.symm.trans hpw'
    have hnl := hm.not_isLeaf
    have hr : r.2.2 = (Waits.detachEach (waits.erase p) pw.kind.members).2 := by
      cases hk : pw.kind with
      | race keys members => simp [r, Waits.closeRace, hk]
      | _ =>
        rw [hk] at hm
        exact hm.elim
    have hc : Closes waits p pw r.2.2 := by
      rw [hr]
      exact closes_detachEach h.forest hp (Or.inr rfl)
    have h1 : Withdraws except waits [] (waits.erase p) := .erase fun hw hl => by
      cases hp.symm.trans hw
      exact absurd hl hnl
    have h2 := (h1.trans (.closeRace (waits.erase p) pw.kind slot signal)).settled
      (Or.inl ⟨pw, hp, hnl⟩) r.1
    exact h2.trans (ih (hc.climbable h.forest (fun hx _ => h.whole hx) hp))
  | case4 waits task id signal p slot m hm => exact .merge waits p slot signal
  | case5 waits task id signal p slot m hm hp => exact .merge waits p slot signal
  | case6 waits task id signal p slot m hm w hw result ih =>
    obtain ⟨pw, hp, ht, hmg⟩ := h.merged signal
    obtain ⟨pw', hp', -, hmem⟩ := h.above rfl
    have hc : Closes m.2 p w (m.2.erase p) := by
      have hc := (hmg.closes hp hw).2.2
      rw [hmg.members_of_complete hp hw hm] at hc
      exact hc
    have h1 : Withdraws except m.2 [] (m.2.erase p) := .erase fun hw' hl => by
      exact absurd hl (not_isLeaf_of_merge (fun hw => by cases hm.symm.trans hw) hw')
    have h2 := ((Withdraws.merge waits p slot signal).trans h1).settled
      (Or.inl ⟨pw', hp', hmem.not_isLeaf⟩) result
    refine h2.trans (ih (hc.climbable hmg.forest (fun hx hxp => ?_) hw))
    rw [hmg.get?_eq hxp] at hx
    exact h.whole hx
  | case7 waits task id signal p slot m result hm hp => exact .merge waits p slot signal
  | case8 waits task id signal p slot m result hm w hw r ih =>
    obtain ⟨pw, hp, ht, hmg⟩ := h.merged signal
    obtain ⟨pw', hp', -, hmem⟩ := h.above rfl
    have hc : Closes m.2 p w r.2 := (hmg.closes hp hw).2.2
    have h1 : Withdraws except m.2 [] (m.2.erase p) := .erase fun hw' hl => by
      exact absurd hl (not_isLeaf_of_merge (fun hw => by cases hm.symm.trans hw) hw')
    have h2 := (((Withdraws.merge waits p slot signal).trans h1).trans
      (.detachEach (m.2.erase p) w.kind.members)).settled
      (Or.inl ⟨pw', hp', hmem.not_isLeaf⟩) result
    refine h2.trans (ih (hc.climbable hmg.forest (fun hx hxp => ?_) hw))
    rw [hmg.get?_eq hxp] at hx
    exact h.whole hx

/-- A settlement withdraws what it lists, besides the effect itself and what it decides. -/
theorem withdraws_settle {waits : Waits} (hF : Forest waits [] .task)
    (hW : ∀ {z w}, waits.get? z = some w → w.kind.Whole) {x : EffectId}
    (hl : ∀ {w}, waits.get? x = some w → w.kind.IsLeaf) (signal : Signal) :
    Withdraws (· = x) waits (waits.settle x signal).passages (waits.settle x signal).waits ∧
      (waits.settle x signal).waits.get? x = none := by
  cases hwait : waits.get? x with
  | none =>
    rw [settle_of_absent hwait]
    exact ⟨.refl _ _, hwait⟩
  | some wait =>
    have hc := climbable_erase hF hW hwait (hl hwait).members
    have h1 : Withdraws (· = x) waits [] (waits.erase x) := .erase fun _ _ => rfl
    have h2 : Withdraws (· = x) _ _ _ := withdraws_climb signal hc
    rw [settle_eq hwait]
    exact ⟨(h1.settled (Or.inr rfl) signal).trans h2, h2.absent (by simp)⟩

end Waits

/-! ## Registrations that are given up -/

/-- The registrations that a pending effect `x` of middleware `i` gives up. -/
def WaitKind.Revokes (i : MiddlewareId) (x : EffectId) (kind : WaitKind) (r : EffectRef)
    (k : WaitKind) : Prop :=
  match kind with
  | .take .bus id => r.mw = i ∧ k = .take .bus id
  | .take (.channel c) id => k = .take (.channel c) id
  | .call d => k = .call d
  | .join t => r = ⟨i, x⟩ ∧ k = .join t
  | .put | .race .. | .all .. => False

/-- Some pending effects of a middleware have given up their registrations. -/
structure World.Revoked (i : MiddlewareId) (gone : EffectId → WaitKind → Prop) (w w' : World) :
    Prop where
  alive : ∀ j, w'.alive? j = w.alive? j
  shrinks : w.Shrinks w'
  claims : ∀ {r t k}, w.Claims r t k → w'.Claims r t k
  owes : ∀ {j x}, (w'.engine j).agenda.Owes x ↔ (w.engine j).agenda.Owes x
  kept : ∀ {r k}, w.Registered r k → (∀ x kind, gone x kind → ¬ kind.Revokes i x r k) →
    w'.Registered r k
  lost : ∀ {r k x kind}, gone x kind → kind.Revokes i x r k → ¬ w'.Registered r k
  timed : w.Timed → w'.Timed

namespace World.Revoked

variable {w w' w'' : World} {i : MiddlewareId} {gone gone' : EffectId → WaitKind → Prop}
  {x : EffectId}

theorem of_calm (h : w.Calm w')
    (hg : ∀ {x kind r k}, gone x kind → ¬ WaitKind.Revokes i x kind r k) : Revoked i gone w w' where
  alive := h.alive
  shrinks := h.shrinks
  claims := h.claims.2
  owes := h.owes
  kept hr _ := h.registered_iff.2 hr
  lost hx hk := absurd hk (hg hx)
  timed := h.timed

theorem trans (h : Revoked i gone w w') (h' : Revoked i gone' w' w'') :
    Revoked i (fun x kind => gone x kind ∨ gone' x kind) w w'' where
  alive j := (h'.alive j).trans (h.alive j)
  shrinks := h.shrinks.trans h'.shrinks
  claims hc := h'.claims (h.claims hc)
  owes := h'.owes.trans h.owes
  kept hr hno := h'.kept (h.kept hr fun x kind hg => hno x kind (Or.inl hg))
    fun x kind hg => hno x kind (Or.inr hg)
  lost hg hk hr := by
    rcases hg with hg | hg
    · exact h.lost hg hk (h'.shrinks.registered hr)
    · exact h'.lost hg hk hr
  timed ht := h'.timed (h.timed ht)

theorem congr (h : Revoked i gone w w') (hg : ∀ x kind, gone x kind ↔ gone' x kind) :
    Revoked i gone' w w' := by
  have : gone = gone' := funext fun x => funext fun kind => propext (hg x kind)
  exact this ▸ h

/-- A taker is withdrawn from the bus. -/
theorem cancelTaker (hi : w.Has i) (id : TakerId) :
    Revoked i (fun y kind => y = x ∧ kind = .take .bus id) w
      (w.setEngine i fun e => { e with bus := e.bus.cancelTaker id }) := by
  have heq : (w.setEngine i fun e => { e with bus := e.bus.cancelTaker id }).engine i =
      { w.engine i with bus := (w.engine i).bus.cancelTaker id } := World.engine_setEngine hi _
  have hne : ∀ {j}, j ≠ i → (w.setEngine i fun e =>
      { e with bus := e.bus.cancelTaker id }).engine j = w.engine j :=
    fun hj => (World.untouched_setEngine hj _).engine
  have hsame : ∀ j, (w.setEngine i fun e => { e with bus := e.bus.cancelTaker id }).engine j =
      { w.engine j with bus := if j = i then (w.engine j).bus.cancelTaker id else (w.engine j).bus } := by
    intro j
    by_cases hj : j = i
    · subst hj
      rw [heq, if_pos rfl]
    · rw [hne hj, if_neg hj]
  have hsub : ∀ j, ((w.setEngine i fun e =>
      { e with bus := e.bus.cancelTaker id }).engine j).bus.takers.Sublist
        (w.engine j).bus.takers := by
    intro j
    rw [hsame]
    dsimp only
    split
    · exact List.filter_sublist
    · exact .refl _
  have hclaims : ∀ {r t k}, (w.setEngine i fun e =>
      { e with bus := e.bus.cancelTaker id }).Claims r t k ↔ w.Claims r t k :=
    World.claims_congr (by simp only [World.wait?, hsame])
  have hjoin : ∀ j t, (w.setEngine i fun e =>
      { e with bus := e.bus.cancelTaker id }).joiners j t = w.joiners j t := by
    intro j t
    simp only [World.joiners, World.task?, hsame]
  have hs : w.Shrinks (w.setEngine i fun e => { e with bus := e.bus.cancelTaker id }) := by
    refine ⟨fun ha => ?_, hclaims.1, hsub, fun j => ?_, fun j t => ?_,
      fun d => Option.Rel.refl .refl _, fun hd hl => ⟨_, hd, hl, rfl⟩, rfl⟩
    · rwa [World.Alive, World.alive_setEngine] at ha
    · rw [hsame]
      dsimp only
      split <;> exact Nat.le_refl _
    · rw [hjoin]
  refine ⟨fun _ => World.alive_setEngine, hs, hclaims.2, fun {j x} => by rw [hsame], ?_, ?_, fun ht => ⟨ht.armed, ht.timer, ht.next, ht.named⟩⟩
  · intro r k hr hno
    cases hr with
    | @bus t ht he =>
      refine .bus ?_ he
      rw [hsame]
      dsimp only
      split
      · rename_i hri
        refine List.mem_filter.2 ⟨ht, ?_⟩
        rw [decide_eq_true_eq]
        rintro rfl
        exact hno x _ ⟨rfl, rfl⟩ ⟨hri, rfl⟩
      · exact ht
    | channel hc ht hs => exact .channel hc ht hs
    | call hd hl => exact .call hd hl
    | join hj => exact .join (by rwa [hjoin])
  · rintro r k y kind ⟨-, rfl⟩ ⟨rfl, rfl⟩ hr
    generalize hk : WaitKind.take .bus id = k at hr
    cases hr with
    | @bus t ht he =>
      cases hk
      rw [hsame] at ht
      dsimp only at ht
      rw [if_pos rfl] at ht
      simpa using (List.mem_filter.1 ht).2
    | _ => cases hk

/-- A taker is withdrawn from a channel. -/
theorem cancelChannelTaker (c : ChannelId) (id : TakerId) :
    Revoked i (fun y kind => y = x ∧ kind = .take (.channel c) id) w
      { w with channels := w.channels.modify c fun channel => (channel.cancelTaker id).2 } := by
  have hs : w.Shrinks
      { w with channels := w.channels.modify c fun channel => (channel.cancelTaker id).2 } := by
    refine ⟨fun ha => ha, fun hc => hc.of_middlewares rfl, fun _ => .refl _, fun _ => Nat.le_refl _,
      fun _ _ => .refl _, fun d => ?_, fun hd hl => ⟨_, hd, hl, rfl⟩, rfl⟩
    simp only [Table.get?_modify]
    split
    · rename_i hdc
      subst hdc
      cases w.channels.get? d with
      | none => exact .none
      | some channel => exact .some ⟨List.filter_sublist, Nat.le_refl _, Or.inl⟩
    · exact Option.Rel.refl .refl _
  refine ⟨fun _ => rfl, hs, fun hc => hc.of_middlewares rfl, Iff.rfl, ?_, ?_,
    fun ht => ⟨ht.armed, ht.timer, ht.next, ht.named⟩⟩
  · intro r k hr hno
    cases hr with
    | bus ht he => exact .bus ht he
    | @channel d channel t hc ht hsink =>
      by_cases hdc : d = c
      · subst hdc
        have hd : (w.channels.modify d fun channel => (channel.cancelTaker id).2).get? d =
            some (channel.cancelTaker id).2 := by
          simp [hc]
        refine Registered.channel (w := { w with channels := _ }) hd (List.mem_filter.2 ⟨ht, ?_⟩) hsink
        rw [decide_eq_true_eq]
        rintro rfl
        exact hno x _ ⟨rfl, rfl⟩ rfl
      · refine Registered.channel (w := { w with channels := _ }) ?_ ht hsink
        simp [hdc, hc]
    | call hd hl => exact .call hd hl
    | join hj => exact .join hj
  · rintro r k y kind ⟨-, rfl⟩ rfl hr
    generalize hk : WaitKind.take (.channel c) id = k at hr
    cases hr with
    | @channel d channel' t hc ht hs =>
      cases hk
      simp only [Table.get?_modify, if_true] at hc
      obtain ⟨channel, -, rfl⟩ := Option.map_eq_some_iff.1 hc
      simpa using (List.mem_filter.1 ht).2
    | _ => cases hk

/-- A joiner leaves. -/
theorem unjoin (hi : w.Has i) (t : TaskId) :
    Revoked i (fun y kind => y = x ∧ kind = .join t) w
      (w.setTask i t fun n => { n with joiners := n.joiners.filter (· ≠ x) }) := by
  have hjoin : ∀ j u, (w.setTask i t fun n =>
      { n with joiners := n.joiners.filter (· ≠ x) }).joiners j u =
        if j = i ∧ u = t then (w.joiners j u).filter (· ≠ x) else w.joiners j u := by
    intro j u
    by_cases hj : j = i
    · subst hj
      simp only [World.joiners, World.task?, World.setTask, World.engine_setEngine hi,
        Table.get?_modify, true_and]
      split
      · rename_i hut
        subst hut
        cases (w.engine j).tasks.get? u <;> rfl
      · rfl
    · simp only [World.joiners, World.task?, World.setTask,
        (World.untouched_setEngine hj _).engine, hj, false_and, if_false]
  have hsame : ∀ j, ((w.setTask i t fun n =>
      { n with joiners := n.joiners.filter (· ≠ x) }).engine j).waits = (w.engine j).waits ∧
      ((w.setTask i t fun n =>
        { n with joiners := n.joiners.filter (· ≠ x) }).engine j).bus = (w.engine j).bus ∧
      ((w.setTask i t fun n =>
        { n with joiners := n.joiners.filter (· ≠ x) }).engine j).agenda = (w.engine j).agenda := by
    intro j
    by_cases hj : j = i
    · subst hj
      rw [World.setTask, World.engine_setEngine hi]
      exact ⟨rfl, rfl, rfl⟩
    · rw [World.setTask, (World.untouched_setEngine hj _).engine]
      exact ⟨rfl, rfl, rfl⟩
  have hclaims : ∀ {r u k}, (w.setTask i t fun n =>
      { n with joiners := n.joiners.filter (· ≠ x) }).Claims r u k ↔ w.Claims r u k :=
    World.claims_congr (by simp only [World.wait?, (hsame _).1])
  have hs : w.Shrinks (w.setTask i t fun n => { n with joiners := n.joiners.filter (· ≠ x) }) := by
    refine ⟨fun ha => ?_, hclaims.1, fun j => ?_, fun j => ?_, fun j u => ?_,
      fun d => Option.Rel.refl .refl _, fun hd hl => ⟨_, hd, hl, rfl⟩, rfl⟩
    · rwa [World.Alive, World.setTask, World.alive_setEngine] at ha
    · rw [(hsame j).2.1]
    · exact Nat.le_of_eq (by rw [(hsame j).2.1])
    · rw [hjoin]
      split
      · exact List.filter_sublist
      · exact .refl _
  refine ⟨fun _ => World.alive_setEngine, hs, hclaims.2, fun {j y} => by rw [(hsame j).2.2], ?_, ?_,
    fun ht => ⟨ht.armed, ht.timer, ht.next, ht.named⟩⟩
  · intro r k hr hno
    cases hr with
    | bus ht he => exact .bus (by rwa [(hsame _).2.1]) he
    | channel hc ht hs => exact .channel hc ht hs
    | call hd hl => exact .call hd hl
    | @join u hj =>
      refine .join ?_
      rw [hjoin]
      split
      · rename_i h
        obtain ⟨hri, rfl⟩ := h
        refine List.mem_filter.2 ⟨hj, ?_⟩
        rw [decide_eq_true_eq]
        intro hrx
        refine hno x _ ⟨rfl, rfl⟩ ⟨?_, rfl⟩
        rw [← hri, ← hrx]
      · exact hj
  · rintro r k y kind ⟨rfl, rfl⟩ ⟨rfl, rfl⟩ hr
    generalize hk : WaitKind.join t = k at hr
    cases hr with
    | @join u hj =>
      cases hk
      rw [hjoin, if_pos ⟨rfl, rfl⟩] at hj
      simpa using (List.mem_filter.1 hj).2
    | _ => cases hk

/-- A deferred loses its listener, and the timer behind it is stopped. -/
theorem unsubscribe (d : DeferredId) :
    Revoked i (fun y kind => y = x ∧ kind = .call d) w (w.unsubscribe d) := by
  unfold World.unsubscribe
  cases hd : w.deferreds.get? d with
  | none =>
    refine ⟨fun _ => rfl, .refl w, id, Iff.rfl, fun hr _ => hr, ?_, id⟩
    rintro r k y kind ⟨-, rfl⟩ rfl hr
    generalize hk : WaitKind.call d = k at hr
    cases hr with
    | call hd' =>
      cases hk
      rw [hd] at hd'
      cases hd'
    | _ => cases hk
  | some deferred =>
    have htm : ∀ timers : List Timer, { w with
        deferreds := w.deferreds.modify d fun _ => deferred.unsubscribe.2 }.stopTimer
          deferred.unsubscribe.1 = { w with
        deferreds := w.deferreds.modify d fun _ => deferred.unsubscribe.2
        timers := w.timers.filter fun t => deferred.timer ≠ some t.id } := by
      intro _
      simp only [Deferred.unsubscribe, World.stopTimer]
      cases deferred.timer with
      | none => simp
      | some id => simp [eq_comm]
    simp only [htm w.timers]
    have hget : ∀ {e deferred'}, (w.deferreds.modify d fun _ => deferred.unsubscribe.2).get? e =
        some deferred' → e = d ∧ deferred' = { deferred with listener := none, timer := none } ∨
          e ≠ d ∧ w.deferreds.get? e = some deferred' := by
      intro e deferred' he
      simp only [Table.get?_modify] at he
      split at he
      · rename_i hed
        rw [hd] at he
        cases he
        exact Or.inl ⟨hed, rfl⟩
      · rename_i hed
        exact Or.inr ⟨hed, he⟩
    have hkept : ∀ {e deferred'}, e ≠ d → w.deferreds.get? e = some deferred' →
        (w.deferreds.modify d fun _ => deferred.unsubscribe.2).get? e = some deferred' := by
      intro e deferred' hed he
      simp [hed, he]
    refine ⟨fun _ => rfl, ⟨fun ha => ha, fun hc => hc.of_middlewares rfl, fun _ => .refl _, fun _ => Nat.le_refl _,
      fun _ _ => .refl _, fun _ => Option.Rel.refl .refl _, fun hd' hl => ?_, rfl⟩,
      fun hc => hc.of_middlewares rfl, Iff.rfl, ?_, ?_, ?_⟩
    · rcases hget hd' with ⟨-, rfl⟩ | ⟨-, hd'⟩
      · cases hl
      · exact ⟨_, hd', hl, rfl⟩
    · intro r k hr hno
      cases hr with
      | bus ht he => exact .bus ht he
      | channel hc ht hs => exact .channel hc ht hs
      | @call e deferred' hd' hl =>
        refine Registered.call (w := { w with deferreds := _, timers := _ }) (hkept ?_ hd') hl
        rintro rfl
        exact hno x _ ⟨rfl, rfl⟩ rfl
      | join hj => exact .join hj
    · rintro r k y kind ⟨-, rfl⟩ rfl hr
      generalize hk : WaitKind.call d = k at hr
      cases hr with
      | call hd' hl =>
        cases hk
        rcases hget hd' with ⟨-, rfl⟩ | ⟨hne, -⟩
        · cases hl
        · exact hne rfl
      | _ => cases hk
    · intro ht
      refine ⟨fun hm => ?_, fun hd' hi' => ?_, fun hd' => ?_, fun hn => ?_⟩
      · obtain ⟨hm, hne⟩ := List.mem_filter.1 hm
        obtain ⟨deferred', hd', htimer, hl⟩ := ht.armed hm
        refine ⟨deferred', hkept ?_ hd', htimer, hl⟩
        intro hed
        rw [hed, hd] at hd'
        cases hd'
        simp [htimer] at hne
      · rcases hget hd' with ⟨-, rfl⟩ | ⟨-, hd'⟩
        · cases hi'
        · obtain ⟨h1, h2⟩ := ht.timer hd' hi'
          exact ⟨h1, fun t hm => h2 t (List.mem_filter.1 hm).1⟩
      · rcases hget hd' with ⟨rfl, -⟩ | ⟨-, hd'⟩
        · exact ht.next hd
        · exact ht.next hd'
      · rename_i name e
        obtain ⟨deferred', hd', htimer⟩ := ht.named hn
        by_cases hed : e = d
        · subst hed
          exact ⟨deferred.unsubscribe.2, by simp [hd], rfl⟩
        · exact ⟨deferred', hkept hed hd', htimer⟩

/-- An effect gives up the registration that it holds. -/
theorem deregister (hi : w.Has i) (x : EffectId) (kind : WaitKind) :
    Revoked i (fun y k => y = x ∧ k = kind) w (w.deregister i x kind) := by
  cases kind with
  | take source id =>
    cases source with
    | bus => exact cancelTaker hi id
    | channel c => exact cancelChannelTaker c id
  | call d => exact unsubscribe d
  | join t => exact unjoin hi t
  | put | race | all =>
    refine of_calm (.refl w) ?_
    rintro y kind r k ⟨-, rfl⟩
    exact id

theorem pass (hi : w.Has i) (p : Passage) :
    Revoked i (fun y k => ∃ wait, p = .withdrawn y wait ∧ wait.kind = k) w (w.pass i p) := by
  cases p with
  | withdrawn x wait =>
    refine ((deregister hi x wait.kind).trans
      (of_calm (.record (.withdrawn x)) False.elim)).congr fun y k => ?_
    simp [eq_comm, and_assoc]
  | settled x signal =>
    refine of_calm (.record _) ?_
    rintro y kind r k ⟨wait, h, -⟩
    cases h

theorem passAll (hi : w.Has i) (ps : List Passage) :
    Revoked i (fun y k => ∃ wait, .withdrawn y wait ∈ ps ∧ wait.kind = k) w (w.passAll i ps) := by
  induction ps generalizing w with
  | nil =>
    refine of_calm (.refl w) ?_
    rintro y kind r k ⟨wait, h, -⟩
    cases h
  | cons p ps ih =>
    have h := pass hi p
    have hi' : (w.pass i p).Has i := by
      rw [World.has_iff, h.alive, ← World.has_iff]
      exact hi
    refine (h.trans (ih hi')).congr fun y k => ?_
    simp only [List.mem_cons, eq_comm (a := Passage.withdrawn y _), or_and_right, exists_or]

end World.Revoked

/-! ## A walk -/

namespace Config.Wired

variable {A : Prop} {w : World} {F : List Instr} {i : MiddlewareId}

/-- Whoever holds a registration that an effect gives up is this effect. -/
theorem eq_of_revokes (h : Wired A ⟨F, w⟩) {x : EffectId} {t : TaskId} {kind k : WaitKind}
    {r : EffectRef} (hA : k.Assured A) (hx : w.Claims ⟨i, x⟩ t kind) (ha : w.Alive r.mw) (hr : w.Registered r k)
    (hk : kind.Revokes i x r k) : r = ⟨i, x⟩ := by
  cases kind with
  | take source id =>
    cases source with
    | bus =>
      obtain ⟨hri, rfl⟩ := hk
      generalize hkk : WaitKind.take .bus id = k at hr
      cases hr with
      | bus ht he =>
        cases hkk
        have hbx := (h.numbered.onBus hx).2 _ (hri ▸ ht) rfl
        obtain ⟨j, y⟩ := r
        cases hri
        rw [show y = x from he.symm.trans hbx]
      | _ => cases hkk
    | channel c =>
      cases hk
      generalize hkk : WaitKind.take (.channel c) id = k at hr
      cases hr with
      | channel hc ht hs =>
        cases hkk
        have hbx := (h.numbered.onChannel hx hc).2 _ ht rfl
        rw [hs] at hbx
        cases hbx
        rfl
      | _ => cases hkk
  | call d =>
    cases hk
    obtain ⟨u, hu⟩ := (h.fits ha).backed hr
    exact h.sole (hA d rfl) hu hx
  | join u => exact hk.1
  | put | race | all => exact hk.elim

/--
A walk over a wait table: the effects that it withdraws give up their registrations, and those
that leave the table otherwise have none.
-/
theorem walk (h : Wired A ⟨F, w⟩) (hi : w.Has i) {waits : Waits} {ps : List Passage}
    {except : EffectId → Prop} (hw : Waits.Withdraws except (w.engine i).waits ps waits)
    (hx : w.Alive i → ∀ x, except x → ∀ k, ¬ w.Registered ⟨i, x⟩ k) :
    Wired A ⟨F, (w.setWaits i waits).passAll i ps⟩ := by
  have he : (w.setWaits i waits).engine i = { w.engine i with waits } := World.engine_setEngine hi _
  have hne : ∀ {j}, j ≠ i → (w.setWaits i waits).engine j = w.engine j :=
    fun hj => (World.untouched_setEngine hj _).engine
  have hsame : ∀ j, ((w.setWaits i waits).engine j).bus = (w.engine j).bus ∧
      ((w.setWaits i waits).engine j).agenda = (w.engine j).agenda ∧
      ((w.setWaits i waits).engine j).tasks = (w.engine j).tasks := by
    intro j
    by_cases hj : j = i
    · subst hj
      rw [he]
      exact ⟨rfl, rfl, rfl⟩
    · rw [hne hj]
      exact ⟨rfl, rfl, rfl⟩
  have hjoin : ∀ j t, (w.setWaits i waits).joiners j t = w.joiners j t := fun j t => by
    simp only [World.joiners, World.task?, (hsame j).2.2]
  have hold : ∀ {r t k}, (w.setWaits i waits).Claims r t k → w.Claims r t k := by
    rintro ⟨j, x⟩ t k ⟨hl, link, hwx⟩
    by_cases hj : j = i
    · subst hj
      refine ⟨hl, link, ?_⟩
      simp only [World.wait?, he] at hwx
      exact hw.old hwx hl
    · exact ⟨hl, link, by simpa only [World.wait?, hne hj] using hwx⟩
  have hgone : ∀ {x wait}, .withdrawn x wait ∈ ps → wait.kind.IsLeaf →
      w.Claims ⟨i, x⟩ wait.task wait.kind ∧ ∀ t k, ¬ (w.setWaits i waits).Claims ⟨i, x⟩ t k := by
    intro x wait hm hl
    obtain ⟨hwx, hnone⟩ := hw.gone hm hl
    refine ⟨⟨hl, wait.link, hwx⟩, ?_⟩
    rintro t k ⟨-, link, hwx'⟩
    simp only [World.wait?, he] at hwx'
    rw [hnone] at hwx'
    cases hwx'
  have hcov : ∀ {r t k}, w.Claims r t k → (w.setWaits i waits).Claims r t k ∨
      r.mw = i ∧ ((∃ wait, .withdrawn r.effect wait ∈ ps ∧ wait.kind = k) ∨ except r.effect) := by
    rintro ⟨j, x⟩ t k ⟨hl, link, hwx⟩
    by_cases hj : j = i
    · subst hj
      rcases hw.covered hwx hl with hwx' | hm | hex
      · exact Or.inl ⟨hl, link, by simpa only [World.wait?, he] using hwx'⟩
      · exact Or.inr ⟨rfl, Or.inl ⟨_, hm, rfl⟩⟩
      · exact Or.inr ⟨rfl, Or.inr hex⟩
    · exact Or.inl ⟨hl, link, by simpa only [World.wait?, hne hj] using hwx⟩
  have hs₁ : w.Shrinks (w.setWaits i waits) := by
    refine ⟨fun ha => ?_, hold, fun j => ?_, fun j => ?_, fun j t => ?_,
      fun d => Option.Rel.refl .refl _, fun hd hl => ⟨_, hd, hl, rfl⟩, rfl⟩
    · rwa [World.Alive, World.setWaits, World.alive_setEngine] at ha
    · rw [(hsame j).1]
    · exact Nat.le_of_eq (by rw [(hsame j).1])
    · rw [hjoin]
  have hreg₁ : ∀ {r k}, w.Registered r k → (w.setWaits i waits).Registered r k := by
    intro r k hr
    cases hr with
    | bus ht he => exact .bus (by rwa [(hsame _).1]) he
    | channel hc ht hs => exact .channel hc ht hs
    | call hd hl => exact .call hd hl
    | join hj => exact .join (by rwa [hjoin])
  have hi₁ : (w.setWaits i waits).Has i := by
    rw [World.has_iff, World.setWaits, World.alive_setEngine, ← World.has_iff]
    exact hi
  have hR := World.Revoked.passAll hi₁ ps
  have hs := hs₁.trans hR.shrinks
  have ho : ∀ {r}, Owes ⟨F, (w.setWaits i waits).passAll i ps⟩ r ↔ Owes ⟨F, w⟩ r := by
    intro r
    simp only [Owes, hR.owes, (hsame _).2.1]
  refine h.shrink hs (hR.timed ⟨h.timed.armed, h.timed.timer, h.timed.next, h.timed.named⟩)
    (fun x hx d id ht => ⟨x, hx, ht⟩) ?_ (fun _ _ => ho.1) (fun _ hm => ⟨hm, ho.1⟩) ?_
  · rintro ⟨j, x⟩ t k ha hr hc
    rcases hcov hc with hc' | ⟨rfl, hm | hex⟩
    · exact hR.claims hc'
    · obtain ⟨wait, hm, rfl⟩ := hm
      refine absurd hr (hR.lost ⟨wait, hm, rfl⟩ ?_)
      have hr' := hs.registered hr
      generalize hkk : wait.kind = k at hr'
      cases hr' with
      | bus ht he => exact ⟨rfl, rfl⟩
      | channel => rfl
      | call => rfl
      | join => exact ⟨rfl, rfl⟩
    · exact absurd (hs.registered hr) (hx (hs.alive ha) x hex k)
  · intro r t k hA ha hc hreg
    rw [ho]
    rcases hreg with hreg | howe
    · refine Or.inl (hR.kept (hreg₁ hreg) ?_)
      rintro x kind ⟨wait, hm, rfl⟩ hk
      have hl : wait.kind.IsLeaf := by
        cases hkind : wait.kind with
        | race | all =>
          rw [hkind] at hk
          exact hk.elim
        | _ => trivial
      obtain ⟨hcx, hno⟩ := hgone hm hl
      cases h.eq_of_revokes hA hcx (hs.alive ha) hreg hk
      exact hno t k (hR.shrinks.claims hc)
    · exact Or.inr howe

/-- An effect is withdrawn with everything below it. -/
theorem cancelWait (h : Wired A ⟨F, w⟩) (hi : w.Has i) (x : EffectId) :
    Wired A ⟨F, w.cancelWait i x⟩ :=
  h.walk hi (.detach _ _) fun _ _ => False.elim

theorem cancelPending (h : Wired A ⟨F, w⟩) (hi : w.Has i) (pending : Option EffectId) :
    Wired A ⟨F, w.cancelPending i pending⟩ := by
  cases pending with
  | none => exact h
  | some x => exact h.cancelWait hi x

/-- A race is decided while it is being started. -/
theorem closeRace (h : Wired A ⟨F, w⟩) (hi : w.Has i) {race : EffectId} {wait : Wait}
    (hr : ∀ {wr}, (w.engine i).waits.get? race = some wr → ¬ wr.kind.IsLeaf) (slot : Nat)
    (signal : Signal) : Wired A ⟨F, (w.closeRace i race wait slot signal).2⟩ := by
  have h1 : Waits.Withdraws (fun _ => False) (w.engine i).waits [] ((w.engine i).waits.erase race) :=
    .erase fun hw hl => hr hw hl
  exact h.walk hi (h1.trans (.closeRace _ wait.kind slot signal)) fun _ _ => False.elim

/-- An `all` is given up while it is being started. -/
theorem dropAll (h : Wired A ⟨F, w⟩) (hi : w.Has i) {all : EffectId} {wait : Wait}
    (hr : ∀ {wr}, (w.engine i).waits.get? all = some wr → ¬ wr.kind.IsLeaf) :
    Wired A ⟨F, w.dropAll i all wait⟩ := by
  have h1 : Waits.Withdraws (fun _ => False) (w.engine i).waits [] ((w.engine i).waits.erase all) :=
    .erase fun hw hl => hr hw hl
  exact h.walk hi (h1.trans (.detachEach _ wait.kind.members)) fun _ _ => False.elim

/-- An effect settles whose settlement was on its way. -/
theorem settleWait {y : Instr} {x : EffectId} (h : Wired A ⟨y :: F, w⟩) (hi : w.Has i)
    (hy : ∀ r, y.Settles r ↔ r = ⟨i, x⟩) (hF : Waits.Forest (w.engine i).waits [] .task)
    (hW : ∀ {z wait}, (w.engine i).waits.get? z = some wait → wait.kind.Whole)
    (hl : ∀ {wait}, (w.engine i).waits.get? x = some wait → wait.kind.IsLeaf) (signal : Signal) :
    Wired A ⟨F, (w.settleWait i x signal).2⟩ := by
  have hx : w.Alive i → ∀ z, z = x → ∀ k, ¬ w.Registered ⟨i, z⟩ k := by
    rintro ha z rfl k hr
    exact (h.fits ha).silent hr (owes_cons.2 (Or.inl ((hy _).2 rfl)))
  obtain ⟨hw, hnone⟩ := Waits.withdraws_settle hF hW hl signal
  refine (h.walk hi hw hx).forget fun r hr t k hc => ?_
  cases (hy r).1 hr
  have hi₁ : (w.setWaits i ((w.engine i).waits.settle x signal).waits).Has i := by
    rw [World.has_iff, World.setWaits, World.alive_setEngine, ← World.has_iff]
    exact hi
  obtain ⟨-, link, hwx⟩ := (World.Revoked.passAll hi₁ _).shrinks.claims hc
  simp only [World.wait?, World.setWaits, World.engine_setEngine hi] at hwx
  rw [hnone] at hwx
  cases hwx

end Config.Wired

end SagaMachine
