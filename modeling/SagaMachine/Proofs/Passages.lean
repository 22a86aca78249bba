import SagaMachine.Proofs.Settlement

/-!
# What the walks over the wait table list

A walk over the wait table lists what happened on its way. It lists every effect that it
takes out of the table, each of them once and nothing else, and it leaves the others with
their tasks and where they report, those without members with what they wait for, and races with
their keys and their width (`Waits.Spends`). This holds of every table, whether or not it is a
forest.

Main statements: `Waits.spends_detach`, `Waits.spends_settle`.
-/

namespace SagaMachine

/-- The keys of a race, if it has them, and how many members it has; for races only. -/
def WaitKind.race? : WaitKind → Option (Option (List String) × Nat)
  | .race keys members => some (keys, members.length)
  | _ => none

theorem WaitKind.IsLeaf.race?_eq {kind : WaitKind} (h : kind.IsLeaf) : kind.race? = none := by
  cases kind with
  | race => exact h.elim
  | _ => rfl

@[simp] theorem WaitKind.race?_setMember (kind : WaitKind) (slot : Nat) (member : EffectId) :
    (kind.setMember slot member).race? = kind.race? := by
  cases kind with
  | race => simp [setMember, race?]
  | _ => rfl

namespace Waits

/-- A walk from one table to another takes out the effects that it lists, each of them once. -/
structure Spends (waits : Waits) (ps : List Passage) (waits' : Waits) : Prop where
  listed : ∀ {x}, x ∈ ps.map Passage.id ↔ (∃ w, waits.get? x = some w) ∧ waits'.get? x = none
  nodup : (ps.map Passage.id).Nodup
  old : ∀ {x w'}, waits'.get? x = some w' →
    ∃ w, waits.get? x = some w ∧ w.task = w'.task ∧ w.link = w'.link ∧
      (w'.kind.IsLeaf → w.kind = w'.kind) ∧ w.kind.race? = w'.kind.race?

namespace Spends

variable {waits waits' waits'' : Waits} {ps qs : List Passage}

theorem absent (h : Spends waits ps waits') {x : EffectId} (hx : waits.get? x = none) :
    waits'.get? x = none := by
  cases hx' : waits'.get? x with
  | none => rfl
  | some w =>
    obtain ⟨w', hw', -⟩ := h.old hx'
    cases hx.symm.trans hw'

/-- Nothing was taken out. -/
theorem none_taken (hkept : ∀ {x w}, waits.get? x = some w → ∃ w', waits'.get? x = some w')
    (hold : ∀ {x w'}, waits'.get? x = some w' →
      ∃ w, waits.get? x = some w ∧ w.task = w'.task ∧ w.link = w'.link ∧
        (w'.kind.IsLeaf → w.kind = w'.kind) ∧ w.kind.race? = w'.kind.race?) :
    Spends waits [] waits' where
  listed {x} := by
    refine ⟨fun hm => (List.not_mem_nil hm).elim, ?_⟩
    rintro ⟨⟨w, hw⟩, hn⟩
    obtain ⟨w', hw'⟩ := hkept hw
    cases hn.symm.trans hw'
  nodup := List.nodup_nil
  old := hold

theorem refl (waits : Waits) : Spends waits [] waits :=
  none_taken (fun h => ⟨_, h⟩) fun h => ⟨_, h, rfl, rfl, fun _ => rfl, rfl⟩

theorem trans (h : Spends waits ps waits') (h' : Spends waits' qs waits'') :
    Spends waits (ps ++ qs) waits'' where
  listed {x} := by
    rw [List.map_append, List.mem_append, h.listed, h'.listed]
    constructor
    · rintro (⟨hw, hn⟩ | ⟨⟨w', hw'⟩, hn⟩)
      · exact ⟨hw, h'.absent hn⟩
      · obtain ⟨w, hw, -⟩ := h.old hw'
        exact ⟨⟨w, hw⟩, hn⟩
    · rintro ⟨hw, hn⟩
      cases hx : waits'.get? x with
      | none => exact Or.inl ⟨hw, rfl⟩
      | some w' => exact Or.inr ⟨⟨w', rfl⟩, hn⟩
  nodup := by
    rw [List.map_append, List.nodup_append]
    refine ⟨h.nodup, h'.nodup, ?_⟩
    rintro x hx _ hx' rfl
    obtain ⟨w', hw'⟩ := (h'.listed.1 hx').1
    cases (h.listed.1 hx).2.symm.trans hw'
  old hw'' := by
    obtain ⟨w', hw', ht', hl', hk', hr'⟩ := h'.old hw''
    obtain ⟨w, hw, ht, hl, hk, hr⟩ := h.old hw'
    exact ⟨w, hw, ht.trans ht', hl.trans hl', fun hleaf => (hk (hk' hleaf ▸ hleaf)).trans (hk' hleaf),
      hr.trans hr'⟩

/-- The order in which effects are listed does not matter. -/
theorem perm (h : Spends waits ps waits') (hp : ps.Perm qs) : Spends waits qs waits' where
  listed {x} := by rw [← h.listed, (hp.map Passage.id).mem_iff]
  nodup := ((hp.map Passage.id).nodup_iff).1 h.nodup
  old := h.old

/-- One effect is taken out, and listed. -/
theorem erase {p : EffectId} {w : Wait} (hp : waits.get? p = some w) {e : Passage} (he : Passage.id e = p) :
    Spends waits [e] (waits.erase p) where
  listed {x} := by
    rw [List.map_singleton, List.mem_singleton, he, Table.get?_erase]
    constructor
    · rintro rfl
      exact ⟨⟨w, hp⟩, if_pos rfl⟩
    · rintro ⟨⟨w', hw'⟩, hn⟩
      by_contra hne
      rw [if_neg hne, hw'] at hn
      cases hn
  nodup := List.pairwise_singleton _ _
  old hw' := ⟨_, get?_of_get?_erase hw', rfl, rfl, fun _ => rfl, rfl⟩

/-- An effect is taken out, and listed after what is taken out next. -/
theorem erase_last {p : EffectId} {w : Wait} (hp : waits.get? p = some w) {e : Passage}
    (he : Passage.id e = p) (h : Spends (waits.erase p) ps waits') : Spends waits (ps ++ [e]) waits' :=
  ((erase hp he).trans h).perm List.perm_append_comm

/-- An entry of the table changes, but not its task or where it reports. -/
theorem modify (p : EffectId) {f : Wait → Wait}
    (hf : ∀ w, (f w).task = w.task ∧ (f w).link = w.link ∧
      ((f w).kind.IsLeaf → (f w).kind = w.kind) ∧ (f w).kind.race? = w.kind.race?) :
    Spends waits [] (waits.modify p f) := by
  refine none_taken (fun {x w} hx => ?_) fun {x w'} hx => ?_
  · rw [Table.get?_modify]
    split
    · rename_i hxp
      exact ⟨f w, by rw [← hxp, hx]; rfl⟩
    · exact ⟨w, hx⟩
  · rw [Table.get?_modify] at hx
    split at hx
    · rename_i hxp
      obtain ⟨w, hw, rfl⟩ := Option.map_eq_some_iff.1 hx
      obtain ⟨ht, hl, hk, hr⟩ := hf w
      exact ⟨w, hxp ▸ hw, ht.symm, hl.symm, fun hleaf => (hk hleaf).symm, hr.symm⟩
    · exact ⟨w', hx, rfl, rfl, fun _ => rfl, rfl⟩

end Spends

theorem spends_detach (waits : Waits) (ids : List EffectId) :
    Spends waits (waits.detach ids).1 (waits.detach ids).2 := by
  fun_induction detach waits ids with
  | case1 => exact .refl _
  | case2 waits id pending h ih => exact ih
  | case3 waits id pending wait h r ih => exact (Spends.erase h rfl).trans ih

theorem spends_detachEach (waits : Waits) (ids : List EffectId) :
    Spends waits (waits.detachEach ids).1 (waits.detachEach ids).2 := by
  induction ids generalizing waits with
  | nil => exact .refl _
  | cons id ids ih => exact (spends_detach waits [id]).trans (ih _)

theorem spends_closeRace (waits : Waits) (kind : WaitKind) (slot : Nat) (signal : Signal) :
    Spends waits (waits.closeRace kind slot signal).2.1
      (waits.closeRace kind slot signal).2.2 := by
  unfold closeRace
  split
  · exact spends_detachEach waits _
  · exact .refl _

theorem spends_merge (waits : Waits) (p : EffectId) (slot : Nat) (signal : Signal) :
    Spends waits [] (waits.merge p slot signal).2 := by
  unfold merge
  split
  · rename_i task link results members remaining hp
    have hf (kind : WaitKind) (hk : ¬ kind.IsLeaf) (hr : none = kind.race?) :
        Spends waits [] (waits.modify p fun _ => { task, link, kind }) := by
      refine .none_taken (fun {x w} hx => ?_) fun {x w'} hx => ?_
      · rw [Table.get?_modify]
        split
        · exact ⟨_, by rw [hp]; rfl⟩
        · exact ⟨w, hx⟩
      · rw [Table.get?_modify] at hx
        split at hx
        · rename_i hxp
          rw [hp] at hx
          cases hx
          subst hxp
          exact ⟨_, hp, rfl, rfl, fun h => absurd h hk, hr⟩
        · exact ⟨w', hx, rfl, rfl, fun _ => rfl, rfl⟩
    split <;> exact hf _ id rfl
  · exact .refl _

/-- A climb lists the combinators that it decides, and what it withdraws below them. -/
theorem spends_climb (waits : Waits) (task : TaskId) (id : EffectId) (link : Link)
    (signal : Signal) : Spends waits (waits.climb task id link signal).passages
      (waits.climb task id link signal).waits := by
  fun_induction climb waits task id link signal with
  | case1 => exact .refl _
  | case2 => exact .refl _
  | case3 waits task id signal p slot pw hp r ih =>
    exact (Spends.erase_last hp rfl (spends_closeRace ..)).trans ih
  | case4 waits task id signal p slot m hm => exact spends_merge ..
  | case5 waits task id signal p slot m hm hp => exact spends_merge ..
  | case6 waits task id signal p slot m hm wait hp result ih =>
    exact (spends_merge ..).trans ((Spends.erase hp rfl).trans ih)
  | case7 waits task id signal p slot m result hm hp => exact spends_merge ..
  | case8 waits task id signal p slot m result hm wait hp r ih =>
    exact (spends_merge ..).trans ((Spends.erase_last hp rfl (spends_detachEach ..)).trans ih)

/-- A settlement lists the effect that settles first. -/
theorem spends_settle (waits : Waits) (id : EffectId) (signal : Signal) :
    Spends waits (waits.settle id signal).passages (waits.settle id signal).waits := by
  unfold settle
  split
  · exact .refl _
  · rename_i hp
    exact (Spends.erase hp rfl).trans (spends_climb ..)

end Waits

end SagaMachine
