import SagaMachine.Waits

/-!
# The wait table as a forest

A wait table is a forest if links and members agree: an effect that reports to a slot
of a combinator is the member in that slot, and a member reports to the slot it is in.
Two exceptions occur while the table is worked on, and both are part of the notion
(`Waits.Forest`): *loose* effects, which no combinator names (not yet, because they are
being started, or not any more, because their combinator was taken out), and one *hole*,
a slot whose member has settled and is gone.

Main statements:

* `Forest.detach`, `Forest.detachEach`: withdrawing loose effects leaves a forest in which
  only the other loose effects are left over.
* `Forest.forall_withdrawn`: what holds of the effects to be withdrawn, and is passed on
  from a combinator to its members, holds of everything that is withdrawn with them.
-/

namespace SagaMachine

/-- Slot `link` of the combinator holds the effect `x`. -/
def WaitKind.HasMember : WaitKind → Link → EffectId → Prop
  | .race _ members, .race _ slot, x => members[slot]? = some (some x)
  | .all _ members _, .all _ slot, x => members[slot]? = some (some x)
  | _, _, _ => False

/-- A pending effect without members. -/
def WaitKind.IsLeaf : WaitKind → Prop
  | .race .. | .all .. => False
  | _ => True

namespace WaitKind

theorem IsLeaf.members {k : WaitKind} (h : k.IsLeaf) : k.members = [] := by
  cases k with
  | race | all => exact h.elim
  | _ => rfl

theorem HasMember.mem_members {k : WaitKind} {link : Link} {x : EffectId}
    (h : k.HasMember link x) : x ∈ k.members := by
  cases k <;> cases link <;> simp only [HasMember] at h
  all_goals
    simp only [members, List.mem_filterMap, id_eq]
    exact ⟨some x, List.mem_of_getElem? h, rfl⟩

theorem HasMember.not_isLeaf {k : WaitKind} {link : Link} {x : EffectId}
    (h : k.HasMember link x) : ¬ k.IsLeaf := fun hl => by
  have hm := h.mem_members
  rw [hl.members] at hm
  cases hm

theorem exists_hasMember {k : WaitKind} {x : EffectId} (h : x ∈ k.members) (p : EffectId) :
    ∃ link : Link, link.parent? = some p ∧ k.HasMember link x := by
  cases k with
  | race keys ms =>
    obtain ⟨o, ho, rfl⟩ := List.mem_filterMap.1 h
    obtain ⟨s, hs⟩ := List.mem_iff_getElem?.1 ho
    exact ⟨.race p s, rfl, hs⟩
  | all results ms remaining =>
    obtain ⟨o, ho, rfl⟩ := List.mem_filterMap.1 h
    obtain ⟨s, hs⟩ := List.mem_iff_getElem?.1 ho
    exact ⟨.all p s, rfl, hs⟩
  | _ => cases h

/-- A slot holds at most one effect. -/
theorem HasMember.unique {k : WaitKind} {link : Link} {x y : EffectId}
    (hx : k.HasMember link x) (hy : k.HasMember link y) : x = y := by
  cases k <;> cases link <;> simp only [HasMember] at hx hy
  all_goals
    rw [hx] at hy
    simpa using hy

end WaitKind

namespace Waits

/--
Links and members agree, except that no combinator names the effects in `loose`, and
that the member in the slot `hole` is gone. The hole `.task` stands for none.
-/
structure Forest (waits : Waits) (loose : List EffectId) (hole : Link) : Prop where
  up : ∀ {x : EffectId} {w : Wait}, waits.get? x = some w → x ∉ loose →
    ∀ {p : EffectId}, w.link.parent? = some p →
      ∃ pw, waits.get? p = some pw ∧ pw.task = w.task ∧ p < x ∧ pw.kind.HasMember w.link x
  down : ∀ {p : EffectId} {pw : Wait}, waits.get? p = some pw →
    ∀ {link : Link} {x : EffectId}, link.parent? = some p → link ≠ hole →
      pw.kind.HasMember link x →
      x ∉ loose ∧ p < x ∧ ∃ w, waits.get? x = some w ∧ w.link = link ∧ w.task = pw.task
  gap : ∀ {p : EffectId} {pw : Wait}, waits.get? p = some pw → hole.parent? = some p →
    ∀ {x : EffectId}, pw.kind.HasMember hole x → waits.get? x = none

namespace Forest

variable {waits : Waits} {loose : List EffectId} {hole : Link}

theorem empty : Forest .empty [] .task where
  up h := by cases h
  down h := by cases h
  gap h := by cases h

/-- What a combinator names is not named by another one. -/
theorem parent_unique (hF : Forest waits loose hole) {p q x : EffectId} {pw qw : Wait}
    (hp : waits.get? p = some pw) (hq : waits.get? q = some qw) {link : Link}
    (hlink : link.parent? = some p) (hne : link ≠ hole) (hm : pw.kind.HasMember link x)
    (hx : x ∈ qw.kind.members) : p = q := by
  obtain ⟨-, -, w, hw, hwl, -⟩ := hF.down hp hlink hne hm
  obtain ⟨link', hlink', hm'⟩ := WaitKind.exists_hasMember hx q
  by_cases hh : link' = hole
  · subst hh
    rw [hF.gap hq hlink' hm'] at hw
    cases hw
  · obtain ⟨-, -, w', hw', hwl', -⟩ := hF.down hq hlink' hh hm'
    rw [hw] at hw'
    cases hw'
    rw [← hwl', hwl, hlink] at hlink'
    exact Option.some.inj hlink'

/-- A member that is in the table has the task of its combinator, and reports to it. -/
theorem of_mem_members (hF : Forest waits loose hole) {p x : EffectId} {pw w : Wait}
    (hp : waits.get? p = some pw) (hx : x ∈ pw.kind.members) (hw : waits.get? x = some w) :
    p < x ∧ w.task = pw.task ∧ w.link.parent? = some p := by
  obtain ⟨link, hlink, hm⟩ := WaitKind.exists_hasMember hx p
  by_cases hne : link = hole
  · subst hne
    rw [hF.gap hp hlink hm] at hw
    cases hw
  · obtain ⟨-, hlt, w', hw', hl, ht⟩ := hF.down hp hlink hne hm
    rw [hw] at hw'
    cases hw'
    exact ⟨hlt, ht, by rw [hl, hlink]⟩

/-- Loose effects that are not in the table do not matter. -/
theorem of_absent {x : EffectId} (hF : Forest waits (x :: loose) hole)
    (hx : waits.get? x = none) : Forest waits loose hole where
  up {y w} hy hloose p hp := by
    have hne : y ≠ x := by
      rintro rfl
      rw [hx] at hy
      cases hy
    exact hF.up hy (by simp [hne, hloose]) hp
  down hp link y hlink hne hm := by
    obtain ⟨hl, rest⟩ := hF.down hp hlink hne hm
    exact ⟨fun h => hl (List.mem_cons_of_mem _ h), rest⟩
  gap := hF.gap

/-- A loose effect can be taken out; its members are loose then. -/
theorem erase_loose {x : EffectId} {w : Wait} (hF : Forest waits (x :: loose) hole)
    (hx : waits.get? x = some w) : Forest (waits.erase x) (w.kind.members ++ loose) hole where
  up {y wy} hy hl p hp := by
    rw [Table.get?_erase] at hy
    split at hy
    · cases hy
    · rename_i hne
      simp only [List.mem_append, not_or] at hl
      obtain ⟨pw, hpw, ht, hlt, hm⟩ := hF.up hy (by simp [hne, hl.2]) hp
      have hpx : p ≠ x := by
        rintro rfl
        rw [hx] at hpw
        cases hpw
        exact hl.1 hm.mem_members
      exact ⟨pw, by simp [hpx, hpw], ht, hlt, hm⟩
  down {p pw} hp link y hlink hne hm := by
    rw [Table.get?_erase] at hp
    split at hp
    · cases hp
    · rename_i hpx
      obtain ⟨hl, hlt, wy, hwy, hwl, hwt⟩ := hF.down hp hlink hne hm
      simp only [List.mem_cons, not_or] at hl
      refine ⟨?_, hlt, wy, by simp [hl.1, hwy], hwl, hwt⟩
      simp only [List.mem_append, not_or]
      exact ⟨fun hy => hpx (hF.parent_unique hp hx hlink hne hm hy), hl.2⟩
  gap {p pw} hp hh y hm := by
    rw [Table.get?_erase] at hp
    split at hp
    · cases hp
    · have := hF.gap hp hh hm
      rw [Table.get?_erase]
      split
      · rfl
      · exact this

/--
An effect that is not loose can be taken out if there is no hole, or if the hole is one
of its own slots. The slot that it was in is the hole then.
-/
theorem erase_member {x : EffectId} {w : Wait} (hF : Forest waits loose hole)
    (hx : waits.get? x = some w) (hxl : x ∉ loose)
    (hh : hole = .task ∨ hole.parent? = some x) :
    Forest (waits.erase x) (w.kind.members ++ loose) w.link where
  up {y wy} hy hl p hp := by
    rw [Table.get?_erase] at hy
    split at hy
    · cases hy
    · simp only [List.mem_append, not_or] at hl
      obtain ⟨pw, hpw, ht, hlt, hm⟩ := hF.up hy hl.2 hp
      have hpx : p ≠ x := by
        rintro rfl
        rw [hx] at hpw
        cases hpw
        exact hl.1 hm.mem_members
      exact ⟨pw, by simp [hpx, hpw], ht, hlt, hm⟩
  down {p pw} hp link y hlink hne hm := by
    rw [Table.get?_erase] at hp
    split at hp
    · cases hp
    · rename_i hpx
      have hhole : link ≠ hole := by
        rintro rfl
        rcases hh with rfl | hh
        · cases hlink
        · exact hpx (Option.some.inj (hlink.symm.trans hh))
      obtain ⟨hl, hlt, wy, hwy, hwl, hwt⟩ := hF.down hp hlink hhole hm
      have hyx : y ≠ x := by
        rintro rfl
        rw [hx] at hwy
        cases hwy
        exact hne hwl.symm
      refine ⟨?_, hlt, wy, by simp [hyx, hwy], hwl, hwt⟩
      simp only [List.mem_append, not_or]
      exact ⟨fun hy => hpx (hF.parent_unique hp hx hlink hhole hm hy), hl⟩
  gap {p pw} hp hlink y hm := by
    rw [Table.get?_erase] at hp
    split at hp
    · cases hp
    · obtain ⟨pw', hpw', -, -, hm'⟩ := hF.up hx hxl hlink
      rw [hp] at hpw'
      cases hpw'
      have hyx : y = x := hm.unique hm'
      simp [hyx]

end Forest

/-! ## Withdrawing -/

/-- The effect that a passage is about. -/
def Passage.id : Passage → EffectId
  | .withdrawn id _ => id
  | .settled id _ => id

/-- A withdrawal lists effects as it found them in the table. -/
theorem withdrawn_of_mem_detach {waits : Waits} {ids : List EffectId} {e : Passage}
    (h : e ∈ (waits.detach ids).1) :
    ∃ x w, e = .withdrawn x w ∧ waits.get? x = some w := by
  fun_induction detach waits ids with
  | case1 => cases h
  | case2 waits id pending hget ih => exact ih h
  | case3 waits id pending wait hget r ih =>
    rcases List.mem_cons.1 h with rfl | h
    · exact ⟨id, wait, rfl, hget⟩
    · obtain ⟨x, w, rfl, hw⟩ := ih h
      rw [Table.get?_erase] at hw
      split at hw
      · cases hw
      · exact ⟨x, w, rfl, hw⟩

/-- A withdrawal takes out what it lists, and nothing else. -/
theorem get?_detach (waits : Waits) (ids : List EffectId) (y : EffectId) :
    (waits.detach ids).2.get? y =
      if y ∈ (waits.detach ids).1.map Passage.id then none else waits.get? y := by
  fun_induction detach waits ids with
  | case1 => simp
  | case2 waits id pending hget ih => exact ih
  | case3 waits id pending wait hget r ih =>
    simp only [List.map_cons, Passage.id, List.mem_cons] at ih ⊢
    rw [ih, Table.get?_erase]
    by_cases hy : y = id <;> simp [hy, r]

theorem get?_of_get?_detach {waits : Waits} {ids : List EffectId} {y : EffectId} {w : Wait}
    (h : (waits.detach ids).2.get? y = some w) : waits.get? y = some w := by
  rw [get?_detach] at h
  split at h
  · cases h
  · exact h

/-- The effects to be withdrawn are gone afterwards. -/
theorem get?_detach_of_mem {waits : Waits} {ids : List EffectId} {x : EffectId}
    (h : x ∈ ids) : (waits.detach ids).2.get? x = none := by
  fun_induction detach waits ids with
  | case1 => cases h
  | case2 waits id pending hget ih =>
    rcases List.mem_cons.1 h with rfl | h
    · cases hx : (waits.detach pending).2.get? x with
      | none => rfl
      | some w =>
        rw [get?_of_get?_detach hx] at hget
        cases hget
    · exact ih h
  | case3 waits id pending wait hget r ih =>
    rcases List.mem_cons.1 h with rfl | h
    · cases hx : (detach (waits.erase x) (wait.kind.members.reverse ++ pending)).2.get? x with
      | none => rfl
      | some w =>
        have := get?_of_get?_detach hx
        simp at this
    · exact ih (List.mem_append_right _ h)

namespace Forest

variable {waits : Waits} {loose : List EffectId} {hole : Link}

/-- The order in which effects are listed as loose does not matter. -/
theorem of_mem {loose' : List EffectId} (hF : Forest waits loose hole)
    (h : ∀ x, x ∈ loose' ↔ x ∈ loose) : Forest waits loose' hole where
  up hx hl := hF.up hx fun hx => hl ((h _).2 hx)
  down hp link x hlink hne hm := by
    obtain ⟨hl, rest⟩ := hF.down hp hlink hne hm
    exact ⟨fun hx => hl ((h _).1 hx), rest⟩
  gap := hF.gap

/-- A step of a withdrawal: the members of what was taken out are next. -/
theorem erase_work {x : EffectId} {w : Wait} {pending : List EffectId}
    (hF : Forest waits (x :: pending ++ loose) hole) (hx : waits.get? x = some w) :
    Forest (waits.erase x) (w.kind.members.reverse ++ pending ++ loose) hole := by
  have h : Forest waits (x :: (pending ++ loose)) hole := hF
  exact (h.erase_loose hx).of_mem fun y => by
    simp only [List.mem_append, List.mem_reverse, or_assoc]

/-- Withdrawing loose effects leaves the other loose effects. -/
theorem detach {ids : List EffectId} (hF : Forest waits (ids ++ loose) hole) :
    Forest (waits.detach ids).2 loose hole := by
  fun_induction Waits.detach waits ids with
  | case1 => exact hF
  | case2 waits id pending hget ih => exact ih (hF.of_absent hget)
  | case3 waits id pending wait hget r ih => exact ih (hF.erase_work hget)

/-- What holds of the effects to be withdrawn, and is passed on to members, holds of
everything that is withdrawn with them. -/
theorem forall_withdrawn {Q : EffectId → Wait → Prop} {ids : List EffectId}
    (hF : Forest waits (ids ++ loose) hole)
    (hids : ∀ x ∈ ids, ∀ w, waits.get? x = some w → Q x w)
    (hstep : ∀ p pw x w, Q p pw → p < x → w.task = pw.task → w.link.parent? = some p →
      waits.get? x = some w → Q x w) :
    ∀ x w, .withdrawn x w ∈ (waits.detach ids).1 → Q x w := by
  fun_induction Waits.detach waits ids with
  | case1 =>
    intro x w h
    cases h
  | case2 waits id pending hget ih =>
    exact ih (hF.of_absent hget) (fun x hx => hids x (List.mem_cons_of_mem _ hx)) hstep
  | case3 waits id pending wait hget r ih =>
    intro x w h
    have hwait : Q id wait := hids id List.mem_cons_self wait hget
    rcases List.mem_cons.1 h with h | h
    · cases h
      exact hwait
    · have hsub : ∀ {y wy}, (waits.erase id).get? y = some wy → waits.get? y = some wy := by
        intro y wy hwy
        rw [Table.get?_erase] at hwy
        split at hwy
        · cases hwy
        · exact hwy
      refine ih (hF.erase_work hget) ?_
        (fun p pw x w hp hlt ht hl hx => hstep p pw x w hp hlt ht hl (hsub hx)) x w h
      intro y hy wy hwy
      rcases List.mem_append.1 hy with hy | hy
      · obtain ⟨hlt, ht, hl⟩ := hF.of_mem_members hget (List.mem_reverse.1 hy) (hsub hwy)
        exact hstep id wait y wy hwait hlt ht hl (hsub hwy)
      · exact hids y (List.mem_cons_of_mem _ hy) wy (hsub hwy)

end Forest

/-! ## Withdrawing one effect after the other -/

theorem withdrawn_of_mem_detachEach {waits : Waits} {ids : List EffectId} {e : Passage}
    (h : e ∈ (waits.detachEach ids).1) :
    ∃ x w, e = .withdrawn x w ∧ waits.get? x = some w := by
  induction ids generalizing waits with
  | nil => cases h
  | cons id ids ih =>
    rcases List.mem_append.1 h with h | h
    · exact withdrawn_of_mem_detach h
    · obtain ⟨x, w, rfl, hw⟩ := ih h
      exact ⟨x, w, rfl, get?_of_get?_detach hw⟩

theorem get?_detachEach (waits : Waits) (ids : List EffectId) (y : EffectId) :
    (waits.detachEach ids).2.get? y =
      if y ∈ (waits.detachEach ids).1.map Passage.id then none else waits.get? y := by
  induction ids generalizing waits with
  | nil => simp [detachEach]
  | cons id ids ih =>
    simp only [detachEach, List.map_append, List.mem_append]
    rw [ih, get?_detach]
    by_cases h : y ∈ (waits.detach [id]).1.map Passage.id <;> simp [h]

theorem get?_of_get?_detachEach {waits : Waits} {ids : List EffectId} {y : EffectId}
    {w : Wait} (h : (waits.detachEach ids).2.get? y = some w) : waits.get? y = some w := by
  rw [get?_detachEach] at h
  split at h
  · cases h
  · exact h

namespace Forest

variable {waits : Waits} {loose : List EffectId} {hole : Link}

theorem detachEach {ids : List EffectId} (hF : Forest waits (ids ++ loose) hole) :
    Forest (waits.detachEach ids).2 loose hole := by
  induction ids generalizing waits with
  | nil => exact hF
  | cons id ids ih =>
    have h : Forest waits ([id] ++ (ids ++ loose)) hole := hF
    exact ih h.detach

theorem forall_withdrawn_each {Q : EffectId → Wait → Prop} {ids : List EffectId}
    (hF : Forest waits (ids ++ loose) hole)
    (hids : ∀ x ∈ ids, ∀ w, waits.get? x = some w → Q x w)
    (hstep : ∀ p pw x w, Q p pw → p < x → w.task = pw.task → w.link.parent? = some p →
      waits.get? x = some w → Q x w) :
    ∀ x w, .withdrawn x w ∈ (waits.detachEach ids).1 → Q x w := by
  induction ids generalizing waits with
  | nil =>
    intro x w h
    cases h
  | cons id ids ih =>
    have hF' : Forest waits ([id] ++ (ids ++ loose)) hole := hF
    intro x w h
    rcases List.mem_append.1 h with h | h
    · refine hF'.forall_withdrawn ?_ hstep x w h
      intro y hy
      rw [List.mem_singleton.1 hy]
      exact hids id List.mem_cons_self
    · refine ih hF'.detach ?_ (fun p pw x w hp hlt ht hl hx =>
        hstep p pw x w hp hlt ht hl (get?_of_get?_detach hx)) x w h
      intro y hy wy hwy
      exact hids y (List.mem_cons_of_mem _ hy) wy (get?_of_get?_detach hwy)

end Forest

end Waits

end SagaMachine
