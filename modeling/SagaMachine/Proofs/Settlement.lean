import SagaMachine.Proofs.Forest
import Mathlib.Data.List.Forall2

/-!
# Settlements of pending effects

In a forest all of whose combinators are complete (`WaitKind.Whole`), a settlement climbs
from its effect through races and `all`s until a task can go on or an `all` still misses
results. `Settles` says what this does to the table: it stays such a forest, only effects
of one task are touched, and if a task can go on, the effect it was parked on is gone.

Main statement: `settles_settle`.
-/

namespace SagaMachine

namespace Waits

/-- The keys of a race fit its members. -/
def KeysFit (keys : Option (List String)) (width : Nat) : Prop :=
  ∀ ks, keys = some ks → ks.length = width ∧ ks.Nodup

/-- A slot of an `all` has either its result or its pending member. -/
def SlotFilled (result : Option Value) (member : Option EffectId) : Prop :=
  result.isNone = member.isSome

end Waits

/--
A combinator all of whose members were started: every slot of a race has its pending
member, every slot of an `all` its result or its pending member, and at least one result
is missing.
-/
def WaitKind.Whole : WaitKind → Prop
  | .race keys members =>
    members ≠ [] ∧ (∀ o ∈ members, o.isSome) ∧ Waits.KeysFit keys members.length
  | .all results members remaining =>
    List.Forall₂ Waits.SlotFilled results members ∧
      remaining = results.countP (·.isNone) ∧ 0 < remaining
  | _ => True

namespace Waits

/-- Filling a slot on both sides keeps the sides in step. -/
theorem forall₂_set {α β : Type} {R : α → β → Prop} {as : List α} {bs : List β}
    (h : List.Forall₂ R as bs) {a : α} {b : β} (hab : R a b) (i : Nat) :
    List.Forall₂ R (as.set i a) (bs.set i b) := by
  induction h generalizing i with
  | nil => exact .nil
  | cons hx hxs ih =>
    cases i with
    | zero => exact .cons hab hxs
    | succ i => exact .cons hx (ih i)

theorem slotFilled_at {results : List (Option Value)} {members : List (Option EffectId)}
    (h : List.Forall₂ SlotFilled results members) {slot : Nat} {o : Option EffectId}
    (ho : members[slot]? = some o) : ∃ r, results[slot]? = some r ∧ SlotFilled r o := by
  induction h generalizing slot with
  | nil => cases ho
  | cons hx hxs ih =>
    cases slot with
    | zero =>
      cases ho
      exact ⟨_, rfl, hx⟩
    | succ slot => exact ih ho

/-- With no result missing there is no pending member. -/
theorem filterMap_members_of_complete {results : List (Option Value)}
    {members : List (Option EffectId)} (h : List.Forall₂ SlotFilled results members)
    (h0 : results.countP (·.isNone) = 0) : members.filterMap id = [] := by
  induction h with
  | nil => rfl
  | @cons r o rs os hx hxs ih =>
    rw [List.countP_cons] at h0
    have hr : r.isNone = false := by
      cases hr : r.isNone with
      | false => rfl
      | true => simp [hr] at h0
    have ho : o = none := by
      cases o with
      | none => rfl
      | some x => simp [SlotFilled, hr] at hx
    subst ho
    exact ih (by omega)

/-- A value in the slot of a pending member leaves one result less to wait for. -/
theorem countP_set_value {results : List (Option Value)} {slot : Nat} (v : Value)
    (h : results[slot]? = some none) :
    (results.set slot (some v)).countP (·.isNone) + 1 = results.countP (·.isNone) := by
  induction results generalizing slot with
  | nil => cases h
  | cons r rs ih =>
    cases slot with
    | zero =>
      cases h
      simp
    | succ slot =>
      have := ih h
      simp only [List.set_cons_succ, List.countP_cons]
      omega

/-! ## Combinators that close -/

namespace Forest

variable {waits : Waits}

/-- A hole is closed by forgetting the member that was in it. -/
theorem close_hole {loose : List EffectId} {hole : Link} (hF : Forest waits loose hole)
    {p : EffectId} {pw : Wait} (hp : waits.get? p = some pw) (hh : hole.parent? = some p)
    {kind : WaitKind} (hk : ∀ {link : Link} {x : EffectId}, link.parent? = some p →
      (kind.HasMember link x ↔ pw.kind.HasMember link x ∧ link ≠ hole)) :
    Forest (waits.modify p fun _ => { pw with kind }) loose .task where
  up {x w} hx hl q hq := by
    have hlink : w.link ≠ hole ∧ ∃ w₀, waits.get? x = some w₀ ∧ w₀.task = w.task ∧ w₀.link = w.link := by
      rw [Table.get?_modify] at hx
      split at hx
      · rename_i hxp
        subst hxp
        rw [hp] at hx
        cases hx
        refine ⟨?_, pw, hp, rfl, rfl⟩
        rintro rfl
        obtain ⟨_, _, _, hlt, -⟩ := hF.up hp hl hq
        rw [hq] at hh
        cases hh
        exact Nat.lt_irrefl _ hlt
      · refine ⟨?_, w, hx, rfl, rfl⟩
        rintro rfl
        obtain ⟨qw, hqw, -, -, hm⟩ := hF.up hx hl hq
        rw [hF.gap hqw hq hm] at hx
        cases hx
    obtain ⟨hne, w₀, hw₀, ht, hl₀⟩ := hlink
    obtain ⟨qw, hqw, hqt, hlt, hm⟩ := hF.up hw₀ hl (hl₀ ▸ hq)
    rw [hl₀] at hm
    by_cases hqp : q = p
    · subst hqp
      rw [hp] at hqw
      cases hqw
      exact ⟨{ pw with kind }, by simp [hp], hqt.trans ht, hlt, (hk hq).2 ⟨hm, hne⟩⟩
    · exact ⟨qw, by simp [hqp, hqw], hqt.trans ht, hlt, hm⟩
  down {q qw} hq link x hlink _ hm := by
    have hold : ∃ qw₀, waits.get? q = some qw₀ ∧ qw₀.task = qw.task ∧
        qw₀.kind.HasMember link x ∧ link ≠ hole := by
      rw [Table.get?_modify] at hq
      split at hq
      · rename_i hqp
        subst hqp
        rw [hp] at hq
        cases hq
        exact ⟨pw, hp, rfl, (hk hlink).1 hm⟩
      · rename_i hqp
        refine ⟨qw, hq, rfl, hm, ?_⟩
        rintro rfl
        rw [hlink] at hh
        exact hqp (Option.some.inj hh)
    obtain ⟨qw₀, hq₀, ht₀, hm₀, hne₀⟩ := hold
    obtain ⟨hl, hlt, w, hw, hwl, hwt⟩ := hF.down hq₀ hlink hne₀ hm₀
    by_cases hxp : x = p
    · subst hxp
      rw [hp] at hw
      cases hw
      exact ⟨hl, hlt, { pw with kind }, by simp [hp], hwl, hwt.trans ht₀⟩
    · exact ⟨hl, hlt, w, by simp [hxp, hw], hwl, hwt.trans ht₀⟩
  gap _ h := by cases h

end Forest

/-! ## Climbing -/

/--
What a climb from effect `id`, which is gone already, comes to: a forest of complete
combinators without exceptions, in which everything of other tasks is as it was, and in
which all roots are left but the one that wakes its task.
-/
structure Settles (waits : Waits) (task : TaskId) (id : EffectId) (link : Link)
    (c : Climb) : Prop where
  forest : Forest c.waits [] .task
  whole : ∀ {x w}, c.waits.get? x = some w → w.kind.Whole
  other : ∀ {x w}, waits.get? x = some w → w.task ≠ task → c.waits.get? x = some w
  old : ∀ {x w}, c.waits.get? x = some w →
    ∃ w', waits.get? x = some w' ∧ w'.task = w.task ∧ w'.link = w.link ∧
      (w'.kind.IsLeaf → w.kind.IsLeaf)
  root : ∀ {x w}, waits.get? x = some w → w.link = .task →
    (∃ signal, c.wakeup = some ⟨w.task, x, signal⟩) ∨
      ∃ w', c.waits.get? x = some w' ∧ w'.task = w.task ∧ w'.link = .task
  wakeup : ∀ {u : Wakeup}, c.wakeup = some u →
    u.task = task ∧ c.waits.get? u.effect = none ∧
      (u.effect = id ∧ link = .task ∨
        ∃ w, waits.get? u.effect = some w ∧ w.task = task ∧ w.link = .task)
  top : link = .task → ∃ signal, c.wakeup = some ⟨task, id, signal⟩

variable {waits : Waits}

/-- A climb to a task leaves the table alone. -/
theorem settles_task {task : TaskId} {id : EffectId} {signal : Signal}
    (hF : Forest waits [] .task) (hW : ∀ {x w}, waits.get? x = some w → w.kind.Whole)
    (hid : waits.get? id = none) :
    Settles waits task id .task ⟨[], some ⟨task, id, signal⟩, waits⟩ where
  forest := hF
  whole := hW
  other h _ := h
  old h := ⟨_, h, rfl, rfl, fun h => h⟩
  root h hl := Or.inr ⟨_, h, rfl, hl⟩
  wakeup h := by
    cases h
    exact ⟨rfl, hid, Or.inl ⟨rfl, rfl⟩⟩
  top _ := ⟨signal, rfl⟩

/--
A step of a climb: combinator `p` was taken out of the table, and with it the effects
`ids`, which are effects of the same task below it. If the climb goes on from `p` as it
should, so does the climb from its member.
-/
theorem Settles.of_parent {task : TaskId} {id p : EffectId} {link : Link} {pw : Wait}
    {waits' : Waits} {c : Climb} {passages : List Passage}
    (hp : waits.get? p = some pw) (ht : pw.task = task) (hlink : link ≠ .task)
    (hsub : ∀ {x w}, waits'.get? x = some w →
      x ≠ p ∧ ∃ w', waits.get? x = some w' ∧ w'.task = w.task ∧ w'.link = w.link ∧
        (w'.kind.IsLeaf → w.kind.IsLeaf))
    (hother : ∀ {x w}, waits.get? x = some w → x ≠ p → w.task ≠ task ∨ w.link = .task →
      waits'.get? x = some w)
    (h : Settles waits' pw.task p pw.link c) :
    Settles waits task id link (c.after passages) where
  forest := h.forest
  whole := h.whole
  other {x w} hx hne := by
    have hxp : x ≠ p := by
      rintro rfl
      rw [hp] at hx
      cases hx
      exact hne ht
    exact h.other (hother hx hxp (Or.inl hne)) (by rw [ht]; exact hne)
  old hx := by
    obtain ⟨w', hw', h1, h2, hk⟩ := h.old hx
    obtain ⟨-, w'', hw'', h3, h4, hk'⟩ := hsub hw'
    exact ⟨w'', hw'', h3.trans h1, h4.trans h2, fun h => hk (hk' h)⟩
  root {x w} hx hl := by
    by_cases hxp : x = p
    · subst hxp
      rw [hp] at hx
      cases hx
      obtain ⟨signal, hs⟩ := h.top hl
      exact Or.inl ⟨signal, hs⟩
    · exact h.root (hother hx hxp (Or.inr hl)) hl
  wakeup {u} hu := by
    obtain ⟨hut, hgone, hroot⟩ := h.wakeup hu
    refine ⟨hut.trans ht, hgone, Or.inr ?_⟩
    rcases hroot with ⟨rfl, hl⟩ | ⟨w, hw, hwt, hwl⟩
    · exact ⟨pw, hp, ht, hl⟩
    · obtain ⟨-, w', hw', h1, h2, -⟩ := hsub hw
      exact ⟨w', hw', h1.trans (hwt.trans ht), h2.trans hwl⟩
  top h' := absurd h' hlink

/-- A combinator is closed: it leaves the table together with everything below it. -/
structure Closes (waits : Waits) (p : EffectId) (pw : Wait) (waits' : Waits) : Prop where
  forest : Forest waits' [] pw.link
  old : ∀ {x w}, waits'.get? x = some w → x ≠ p ∧ waits.get? x = some w
  kept : ∀ {x w}, waits.get? x = some w → x ≠ p →
    w.task ≠ pw.task ∨ w.link = .task ∨ x < p → waits'.get? x = some w

theorem closes_detachEach {hole : Link} {p : EffectId} {pw : Wait}
    (hF : Forest waits [] hole) (hp : waits.get? p = some pw)
    (hh : hole = .task ∨ hole.parent? = some p) :
    Closes waits p pw (detachEach (waits.erase p) pw.kind.members).2 := by
  have hE : Forest (waits.erase p) (pw.kind.members ++ []) pw.link :=
    hF.erase_member hp List.not_mem_nil hh
  have hbelow : ∀ {x w}, .withdrawn x w ∈ (detachEach (waits.erase p) pw.kind.members).1 →
      p < x ∧ w.task = pw.task ∧ w.link ≠ .task := by
    intro x w hx
    refine hE.forall_withdrawn_each
      (Q := fun x w => p < x ∧ w.task = pw.task ∧ w.link ≠ .task) ?_ ?_ x w hx
    · intro x hx w hw
      rw [Table.get?_erase] at hw
      split at hw
      · cases hw
      · obtain ⟨h1, h2, h3⟩ := hF.of_mem_members hp hx hw
        refine ⟨h1, h2, ?_⟩
        intro h
        rw [h] at h3
        cases h3
    · rintro q qw x w ⟨h1, h2, -⟩ hlt h4 h5 -
      refine ⟨Nat.lt_trans h1 hlt, h4.trans h2, ?_⟩
      intro h
      rw [h] at h5
      cases h5
  refine ⟨hE.detachEach, ?_, ?_⟩
  · intro x w hx
    have := get?_of_get?_detachEach hx
    rw [Table.get?_erase] at this
    split at this
    · cases this
    · exact ⟨‹_›, this⟩
  · intro x w hx hxp hk
    rw [get?_detachEach, Table.get?_erase]
    simp only [hxp, if_false, hx]
    rw [if_neg]
    intro hmem
    obtain ⟨e, he, rfl⟩ := List.mem_map.1 hmem
    obtain ⟨y, wy, rfl, hwy⟩ := withdrawn_of_mem_detachEach he
    obtain ⟨h1, h2, h3⟩ := hbelow he
    rw [Table.get?_erase] at hwy
    simp only [Passage.id] at hx hxp hk
    rw [if_neg hxp, hx] at hwy
    cases hwy
    rcases hk with hk | hk | hk
    · exact hk h2
    · exact h3 hk
    · exact Nat.lt_asymm h1 hk

theorem Closes.old' {p : EffectId} {pw : Wait} {waits' : Waits}
    (h : Closes waits p pw waits') {x : EffectId} {w : Wait} (hx : waits'.get? x = some w) :
    x ≠ p ∧ ∃ w', waits.get? x = some w' ∧ w'.task = w.task ∧ w'.link = w.link ∧
      (w'.kind.IsLeaf → w.kind.IsLeaf) :=
  ⟨(h.old hx).1, w, (h.old hx).2, rfl, rfl, fun h => h⟩

/-- What a combinator reports to is still there when the combinator is closed. -/
theorem Closes.above {hole : Link} {p : EffectId} {pw : Wait} {waits' : Waits}
    (h : Closes waits p pw waits') (hF : Forest waits [] hole) (hp : waits.get? p = some pw)
    {q : EffectId} (hq : pw.link.parent? = some q) :
    ∃ qw, waits'.get? q = some qw ∧ qw.task = pw.task ∧ qw.kind.HasMember pw.link p := by
  obtain ⟨qw, hqw, ht, hlt, hm⟩ := hF.up hp List.not_mem_nil hq
  exact ⟨qw, h.kept hqw (Nat.ne_of_lt hlt) (Or.inr (Or.inr hlt)), ht, hm⟩

/-- The members of an `all` that is complete, or that misses one result less. -/
theorem whole_merge {results : List (Option Value)} {members : List (Option EffectId)}
    {remaining slot : Nat} {x : EffectId} (v : Value)
    (hW : (WaitKind.all results members remaining).Whole)
    (hm : members[slot]? = some (some x)) :
    List.Forall₂ SlotFilled (results.set slot (some v)) (members.set slot none) ∧
      remaining - 1 = (results.set slot (some v)).countP (·.isNone) := by
  obtain ⟨hfill, hrem, hpos⟩ := hW
  obtain ⟨r, hr, hrm⟩ := slotFilled_at hfill hm
  have hnone : r = none := by
    cases r with
    | none => rfl
    | some v => simp [SlotFilled] at hrm
  subst hnone
  have hslot : SlotFilled (some v) none := rfl
  refine ⟨forall₂_set hfill hslot slot, ?_⟩
  have := countP_set_value v hr
  omega

/-- What a climb needs: the effect it comes from is gone, its slot is the one hole. -/
structure Climbable (waits : Waits) (task : TaskId) (id : EffectId) (link : Link) : Prop where
  forest : Forest waits [] link
  whole : ∀ {x w}, waits.get? x = some w → w.kind.Whole
  gone : waits.get? id = none
  above : ∀ {p}, link.parent? = some p →
    ∃ pw, waits.get? p = some pw ∧ pw.task = task ∧ pw.kind.HasMember link id

/-- A closed combinator is gone, and can be climbed on from. -/
theorem Closes.climbable {hole : Link} {p : EffectId} {pw : Wait} {waits' : Waits}
    (h : Closes waits p pw waits') (hF : Forest waits [] hole)
    (hW : ∀ {x w}, waits.get? x = some w → x ≠ p → w.kind.Whole)
    (hp : waits.get? p = some pw) : Climbable waits' pw.task p pw.link where
  forest := h.forest
  whole hx := hW (h.old hx).2 (h.old hx).1
  gone := by
    cases hg : waits'.get? p with
    | none => rfl
    | some w => exact absurd rfl (h.old hg).1
  above hq := h.above hF hp hq

/-- A member's signal is merged into the table of its `all`. -/
theorem merge_eq {p : EffectId} {pw : Wait} {results : List (Option Value)}
    {members : List (Option EffectId)} {remaining : Nat} (hp : waits.get? p = some pw)
    (hk : pw.kind = .all results members remaining) (slot : Nat) (signal : Signal) :
    ∃ kind : WaitKind,
      (waits.merge p slot signal).2 = waits.modify p (fun _ => { pw with kind }) ∧
      kind = (match signal with
        | .value v => .all (results.set slot (some v)) (members.set slot none) (remaining - 1)
        | _ => .all results (members.set slot none) remaining) ∧
      (waits.merge p slot signal).1 = (match signal with
        | .value _ => if remaining - 1 = 0 then .complete else .waiting
        | signal => .failed signal) := by
  obtain ⟨task, link, kind⟩ := pw
  simp only at hk
  subst hk
  unfold merge
  rw [hp]
  cases signal <;> exact ⟨_, rfl, rfl, rfl⟩

theorem hasMember_set_none {results results' : List (Option Value)}
    {members : List (Option EffectId)} {remaining remaining' slot : Nat} {p x y : EffectId}
    (hm : members[slot]? = some (some x)) {link : Link} (hlink : link.parent? = some p) :
    (WaitKind.all results' (members.set slot none) remaining').HasMember link y ↔
      (WaitKind.all results members remaining).HasMember link y ∧ link ≠ .all p slot := by
  have hlt : slot < members.length := (List.getElem?_eq_some_iff.1 hm).1
  cases link with
  | all q s =>
    cases hlink
    simp only [WaitKind.HasMember, List.getElem?_set]
    by_cases hs : slot = s
    · subst hs
      simp [hlt]
    · have hs' : ¬ s = slot := fun h => hs h.symm
      simp [hs, hs']
  | _ => simp [WaitKind.HasMember]

/-- An `all` that took in a member's signal: it still waits, or has no member left, or failed. -/
structure Merged (waits : Waits) (p : EffectId) (pw : Wait) (m : Merge × Waits) : Prop where
  forest : Forest m.2 [] .task
  kind : ∃ kind : WaitKind, m.2 = waits.modify p (fun _ => { pw with kind }) ∧
    (m.1 = .waiting → kind.Whole) ∧ (m.1 = .complete → kind.members = [])

theorem Climbable.merged {task : TaskId} {id p : EffectId} {slot : Nat}
    (h : Climbable waits task id (.all p slot)) (signal : Signal) :
    ∃ pw, waits.get? p = some pw ∧ pw.task = task ∧
      Merged waits p pw (waits.merge p slot signal) := by
  obtain ⟨pw, hp, ht, hm⟩ := h.above rfl
  refine ⟨pw, hp, ht, ?_⟩
  cases hk : pw.kind with
  | all results members remaining =>
    rw [hk] at hm
    obtain ⟨kind, heq, hkind, hout⟩ := merge_eq hp hk slot signal
    have hW : (WaitKind.all results members remaining).Whole := hk ▸ h.whole hp
    have hmem : ∀ {link : Link} {x : EffectId}, link.parent? = some p →
        (kind.HasMember link x ↔ pw.kind.HasMember link x ∧ link ≠ .all p slot) := by
      intro link x hlink
      rw [hk, hkind]
      cases signal <;> exact hasMember_set_none hm hlink
    refine ⟨?_, kind, heq, ?_, ?_⟩
    · rw [heq]
      exact h.forest.close_hole hp rfl hmem
    · intro hw
      cases signal with
      | value v =>
        obtain ⟨hfill, hrem⟩ := whole_merge v hW hm
        simp only at hout hkind
        rw [hout] at hw
        split at hw
        · cases hw
        · rw [hkind]
          exact ⟨hfill, hrem, by omega⟩
      | _ => cases hout.symm.trans hw
    · intro hc
      cases signal with
      | value v =>
        obtain ⟨hfill, hrem⟩ := whole_merge v hW hm
        simp only at hout hkind
        rw [hout] at hc
        split at hc
        · rw [hkind]
          exact filterMap_members_of_complete hfill (by omega)
        · cases hc
      | _ => cases hout.symm.trans hc
  | _ =>
    rw [hk] at hm
    exact hm.elim

theorem Merged.get?_eq {p : EffectId} {pw : Wait} {m : Merge × Waits}
    (h : Merged waits p pw m) {x : EffectId} (hx : x ≠ p) : m.2.get? x = waits.get? x := by
  obtain ⟨kind, heq, -, -⟩ := h.kind
  rw [heq, Table.get?_modify, if_neg hx]

/-- Closing an `all` after a merge, with whatever members it has left. -/
theorem Merged.closes {p : EffectId} {pw w : Wait} {m : Merge × Waits}
    (h : Merged waits p pw m) (hp : waits.get? p = some pw) (hw : m.2.get? p = some w) :
    w.task = pw.task ∧ w.link = pw.link ∧
      Closes m.2 p w (detachEach (m.2.erase p) w.kind.members).2 := by
  obtain ⟨kind, heq, -, -⟩ := h.kind
  have hw' := hw
  rw [heq, Table.get?_modify, if_pos rfl, hp] at hw'
  cases hw'
  exact ⟨rfl, rfl, closes_detachEach h.forest hw (Or.inl rfl)⟩

/-- The step of a climb through an `all` that is closed. -/
theorem Merged.settles {task : TaskId} {id p : EffectId} {slot : Nat} {pw w : Wait}
    {m : Merge × Waits} {waits' : Waits} {c : Climb} {passages : List Passage}
    (h : Merged waits p pw m) (hp : waits.get? p = some pw) (ht : pw.task = task)
    (hw : m.2.get? p = some w) (hc : Closes m.2 p w waits')
    (hs : Settles waits' w.task p w.link c) :
    Settles waits task id (.all p slot) (c.after passages) := by
  obtain ⟨hwt, hwl, -⟩ := h.closes hp hw
  rw [hwt, hwl] at hs
  refine Settles.of_parent hp ht (by simp) ?_ ?_ hs
  · intro x wx hx
    obtain ⟨hxp, hx'⟩ := hc.old hx
    rw [h.get?_eq hxp] at hx'
    exact ⟨hxp, wx, hx', rfl, rfl, fun h => h⟩
  · intro x wx hx hxp hk
    rw [← h.get?_eq hxp] at hx
    refine hc.kept hx hxp ?_
    rcases hk with hk | hk
    · exact Or.inl (by rw [hwt, ht]; exact hk)
    · exact Or.inr (Or.inl hk)

theorem Merged.exists_get? {p : EffectId} {pw : Wait} {m : Merge × Waits}
    (h : Merged waits p pw m) (hp : waits.get? p = some pw) : ∃ w, m.2.get? p = some w := by
  obtain ⟨kind, heq, -, -⟩ := h.kind
  exact ⟨{ pw with kind }, by simp [heq, hp]⟩

theorem Merged.members_of_complete {p : EffectId} {pw w : Wait} {m : Merge × Waits}
    (h : Merged waits p pw m) (hp : waits.get? p = some pw) (hw : m.2.get? p = some w)
    (hm : m.1 = .complete) : w.kind.members = [] := by
  obtain ⟨kind, heq, -, hc⟩ := h.kind
  rw [heq, Table.get?_modify, if_pos rfl, hp] at hw
  cases hw
  exact hc hm

/-- A climb that ends at an `all` with results missing. -/
theorem Merged.settles_waiting {task : TaskId} {id p : EffectId} {slot : Nat} {pw : Wait}
    {m : Merge × Waits} (h : Merged waits p pw m)
    (hC : Climbable waits task id (.all p slot)) (hp : waits.get? p = some pw)
    (ht : pw.task = task) (hm : m.1 = .waiting) :
    Settles waits task id (.all p slot) ⟨[], none, m.2⟩ := by
  obtain ⟨kind, heq, hW, -⟩ := h.kind
  have hnew : m.2.get? p = some { pw with kind } := by simp [heq, hp]
  refine ⟨h.forest, ?_, ?_, ?_, ?_, by rintro u ⟨⟩, by rintro ⟨⟩⟩
  · intro x w hx
    by_cases hxp : x = p
    · subst hxp
      rw [hnew] at hx
      cases hx
      exact hW hm
    · rw [h.get?_eq hxp] at hx
      exact hC.whole hx
  · intro x w hx hne
    by_cases hxp : x = p
    · subst hxp
      rw [hp] at hx
      cases hx
      exact absurd ht hne
    · rw [h.get?_eq hxp]
      exact hx
  · intro x w hx
    by_cases hxp : x = p
    · subst hxp
      rw [hnew] at hx
      cases hx
      refine ⟨pw, hp, rfl, rfl, fun hk => ?_⟩
      obtain ⟨pw', hp', -, hm⟩ := hC.above rfl
      rw [hp] at hp'
      cases hp'
      have := hm.mem_members
      rw [hk.members] at this
      cases this
    · rw [h.get?_eq hxp] at hx
      exact ⟨w, hx, rfl, rfl, fun h => h⟩
  · intro x w hx hl
    refine Or.inr ?_
    by_cases hxp : x = p
    · subst hxp
      rw [hp] at hx
      cases hx
      exact ⟨_, hnew, rfl, hl⟩
    · exact ⟨w, by rw [h.get?_eq hxp]; exact hx, rfl, hl⟩

/-- A climb settles what it should. -/
theorem settles_climb {task : TaskId} {id : EffectId} {link : Link} (signal : Signal)
    (h : Climbable waits task id link) :
    Settles waits task id link (waits.climb task id link signal) := by
  fun_induction climb waits task id link signal with
  | case1 waits task id signal => exact settles_task h.forest h.whole h.gone
  | case2 waits task id signal p slot hp =>
    obtain ⟨pw, hpw, -⟩ := h.above rfl
    rw [hp] at hpw
    cases hpw
  | case3 waits task id signal p slot pw hp r ih =>
    obtain ⟨pw', hpw', ht, hm⟩ := h.above rfl
    rw [hp] at hpw'
    cases hpw'
    have hr : r.2.2 = (detachEach (waits.erase p) pw.kind.members).2 := by
      cases hk : pw.kind with
      | race keys members => simp [r, closeRace, hk]
      | _ =>
        rw [hk] at hm
        exact hm.elim
    have hc : Closes waits p pw r.2.2 := by
      rw [hr]
      exact closes_detachEach h.forest hp (Or.inr rfl)
    refine Settles.of_parent hp ht (by simp) hc.old' ?_
      (ih (hc.climbable h.forest (fun hx _ => h.whole hx) hp))
    intro x w hx hxp hk
    refine hc.kept hx hxp ?_
    rcases hk with hk | hk
    · exact Or.inl (by rw [ht]; exact hk)
    · exact Or.inr (Or.inl hk)
  | case4 waits task id signal p slot m hm =>
    obtain ⟨pw, hp, ht, hmg⟩ := h.merged signal
    exact hmg.settles_waiting h hp ht hm
  | case5 waits task id signal p slot m hm hp =>
    obtain ⟨pw, hpw, -, hmg⟩ := h.merged signal
    obtain ⟨w, hw⟩ := hmg.exists_get? hpw
    rw [hp] at hw
    cases hw
  | case6 waits task id signal p slot m hm w hw result ih =>
    obtain ⟨pw, hp, ht, hmg⟩ := h.merged signal
    have hc : Closes m.2 p w (m.2.erase p) := by
      have hc := (hmg.closes hp hw).2.2
      rw [hmg.members_of_complete hp hw hm] at hc
      exact hc
    refine hmg.settles hp ht hw hc (ih (hc.climbable hmg.forest (fun hx hxp => ?_) hw))
    rw [hmg.get?_eq hxp] at hx
    exact h.whole hx
  | case7 waits task id signal p slot m result hm hp =>
    obtain ⟨pw, hpw, -, hmg⟩ := h.merged signal
    obtain ⟨w, hw⟩ := hmg.exists_get? hpw
    rw [hp] at hw
    cases hw
  | case8 waits task id signal p slot m result hm w hw r ih =>
    obtain ⟨pw, hp, ht, hmg⟩ := h.merged signal
    have hc : Closes m.2 p w r.2 := (hmg.closes hp hw).2.2
    refine hmg.settles hp ht hw hc (ih (hc.climbable hmg.forest (fun hx hxp => ?_) hw))
    rw [hmg.get?_eq hxp] at hx
    exact h.whole hx

/-- A climb can start where an effect without members is taken out. -/
theorem climbable_erase (hF : Forest waits [] .task)
    (hW : ∀ {x w}, waits.get? x = some w → w.kind.Whole) {id : EffectId} {wait : Wait}
    (hid : waits.get? id = some wait) (hleaf : wait.kind.members = []) :
    Climbable (waits.erase id) wait.task id wait.link := by
  have hF' := hF.erase_member hid List.not_mem_nil (Or.inl rfl)
  rw [hleaf] at hF'
  refine ⟨hF', ?_, by simp, ?_⟩
  · intro x w hx
    rw [Table.get?_erase] at hx
    split at hx
    · cases hx
    · exact hW hx
  · intro p hp
    obtain ⟨pw, hpw, ht, hlt, hm⟩ := hF.up hid List.not_mem_nil hp
    exact ⟨pw, by simp [Nat.ne_of_lt hlt, hpw], ht, hm⟩

/-- A settlement of a pending effect is a climb after it was taken out. -/
theorem settle_eq {id : EffectId} {wait : Wait} (hid : waits.get? id = some wait)
    (signal : Signal) : waits.settle id signal =
      (climb (waits.erase id) wait.task id wait.link signal).after [.settled id signal] := by
  simp only [settle, hid]

/-- A settlement of an effect in a forest of complete combinators. -/
theorem settles_settle (hF : Forest waits [] .task)
    (hW : ∀ {x w}, waits.get? x = some w → w.kind.Whole) {id : EffectId} {wait : Wait}
    (hid : waits.get? id = some wait) (hleaf : wait.kind.members = []) (signal : Signal) :
    Settles (waits.erase id) wait.task id wait.link (waits.settle id signal) := by
  have h := settles_climb signal (climbable_erase hF hW hid hleaf)
  rw [settle_eq hid]
  exact ⟨h.forest, h.whole, h.other, h.old, h.root, h.wakeup, h.top⟩

/-- A settlement of an effect that is gone changes nothing. -/
theorem settle_of_absent {id : EffectId} (hid : waits.get? id = none) (signal : Signal) :
    waits.settle id signal = ⟨[], none, waits⟩ := by
  simp only [settle, hid]

/-! ## What a settlement tells -/

/-- Among some passages only members settle. -/
def Inner (waits : Waits) (ps : List Passage) : Prop :=
  ∀ x signal, .settled x signal ∈ ps → ∃ w, waits.get? x = some w ∧ w.link ≠ .task

/-- A walk upwards tells of the settlement of a root last, and only if it wakes its task. -/
def Tells (waits : Waits) (c : Climb) : Prop :=
  c.wakeup = none ∧ waits.Inner c.passages ∨
    ∃ u ps, c.wakeup = some u ∧ c.passages = ps ++ [.settled u.effect u.signal] ∧ waits.Inner ps

theorem Inner.append {ps ps' : List Passage} (h : waits.Inner ps) (h' : waits.Inner ps') :
    waits.Inner (ps ++ ps') := by
  intro x signal hx
  rcases List.mem_append.1 hx with hx | hx
  · exact h x signal hx
  · exact h' x signal hx

theorem Inner.of_withdrawn {ps : List Passage} (h : ∀ p ∈ ps, ∃ x w, p = .withdrawn x w) :
    waits.Inner ps := by
  intro x signal hx
  obtain ⟨y, w, hp⟩ := h _ hx
  cases hp

theorem Inner.settled {x : EffectId} {w : Wait} (hx : waits.get? x = some w) (hl : w.link ≠ .task)
    (signal : Signal) : waits.Inner [.settled x signal] := by
  intro y signal' hy
  cases List.mem_singleton.1 hy
  exact ⟨w, hx, hl⟩

/-- Recording a member's signal changes no link. -/
theorem link_merge {id x : EffectId} {slot : Nat} {signal : Signal} {w : Wait}
    (h : (waits.merge id slot signal).2.get? x = some w) :
    ∃ w', waits.get? x = some w' ∧ w'.link = w.link := by
  unfold merge at h
  split at h
  · rename_i task link results members remaining hid
    have key : ∀ {kind}, (waits.modify id fun _ => { task, link, kind }).get? x = some w →
        ∃ w', waits.get? x = some w' ∧ w'.link = w.link := by
      intro kind h
      rw [Table.get?_modify] at h
      split at h
      · rename_i hx
        rw [hid] at h
        cases h
        subst hx
        exact ⟨_, hid, rfl⟩
      · exact ⟨w, h, rfl⟩
    split at h
    · exact key h
    · exact key h
  · exact ⟨w, h, rfl⟩

theorem withdrawn_of_mem_closeRace {kind : WaitKind} {slot : Nat} {signal : Signal} {p : Passage}
    (h : p ∈ (waits.closeRace kind slot signal).2.1) : ∃ x w, p = .withdrawn x w := by
  unfold closeRace at h
  split at h
  · obtain ⟨x, w, hp, -⟩ := withdrawn_of_mem_detachEach h
    exact ⟨x, w, hp⟩
  · cases h

theorem get?_of_get?_closeRace {kind : WaitKind} {slot : Nat} {signal : Signal} {x : EffectId}
    {w : Wait} (h : (waits.closeRace kind slot signal).2.2.get? x = some w) :
    waits.get? x = some w := by
  unfold closeRace at h
  split at h
  · exact get?_of_get?_detachEach h
  · exact h

theorem get?_of_get?_erase {id x : EffectId} {w : Wait} (h : (waits.erase id).get? x = some w) :
    waits.get? x = some w := by
  rw [Table.get?_erase] at h
  split at h
  · cases h
  · exact h

/-- A walk tells, after the settlement it starts with, of what settles above. -/
theorem tells_climb {whole : Waits} {task : TaskId} {id : EffectId} {link : Link} {signal : Signal}
    {ps : List Passage}
    (hsub : ∀ {x w}, waits.get? x = some w → ∃ w', whole.get? x = some w' ∧ w'.link = w.link)
    (hps : whole.Inner ps) (hid : link ≠ .task → ∃ w, whole.get? id = some w ∧ w.link ≠ .task) :
    whole.Tells ((climb waits task id link signal).after (ps ++ [.settled id signal])) := by
  fun_induction climb waits task id link signal generalizing ps
  case case1 => exact Or.inr ⟨_, ps, rfl, by simp [Climb.after], hps⟩
  case case2 waits task id signal p slot hp =>
    obtain ⟨w, hw, hl⟩ := hid (by simp)
    refine Or.inl ⟨rfl, ?_⟩
    simpa only [Climb.after, List.append_nil] using hps.append (Inner.settled hw hl signal)
  case case3 waits task id signal p slot pw hp r ih =>
    obtain ⟨w, hw, hl⟩ := hid (by simp)
    obtain ⟨w', hw', hl'⟩ := hsub hp
    have hin : whole.Inner (ps ++ [.settled id signal] ++ r.2.1) :=
      (hps.append (Inner.settled hw hl signal)).append
        (Inner.of_withdrawn fun q hq => withdrawn_of_mem_closeRace hq)
    have := ih (fun hx => hsub (get?_of_get?_erase (get?_of_get?_closeRace hx))) hin
      fun h => ⟨w', hw', hl' ▸ h⟩
    simpa only [Climb.after, List.append_assoc] using this
  case case4 waits task id signal p slot m hm =>
    obtain ⟨w, hw, hl⟩ := hid (by simp)
    refine Or.inl ⟨rfl, ?_⟩
    simpa only [Climb.after, List.append_nil] using hps.append (Inner.settled hw hl signal)
  case case5 waits task id signal p slot m hm hp =>
    obtain ⟨w, hw, hl⟩ := hid (by simp)
    refine Or.inl ⟨rfl, ?_⟩
    simpa only [Climb.after, List.append_nil] using hps.append (Inner.settled hw hl signal)
  case case6 waits task id signal p slot m hm pw hp result ih =>
    obtain ⟨w, hw, hl⟩ := hid (by simp)
    have hmerge : ∀ {x w}, m.2.get? x = some w → ∃ w', whole.get? x = some w' ∧ w'.link = w.link := by
      intro x w hx
      obtain ⟨w₁, hw₁, hl₁⟩ := link_merge hx
      obtain ⟨w₂, hw₂, hl₂⟩ := hsub hw₁
      exact ⟨w₂, hw₂, hl₂.trans hl₁⟩
    obtain ⟨w', hw', hl'⟩ := hmerge hp
    have hin : whole.Inner (ps ++ [.settled id signal]) := hps.append (Inner.settled hw hl signal)
    have := ih (fun hx => hmerge (get?_of_get?_erase hx)) hin fun h => ⟨w', hw', hl' ▸ h⟩
    simpa only [Climb.after, List.append_assoc] using this
  case case7 waits task id signal p slot m result hm hp =>
    obtain ⟨w, hw, hl⟩ := hid (by simp)
    refine Or.inl ⟨rfl, ?_⟩
    simpa only [Climb.after, List.append_nil] using hps.append (Inner.settled hw hl signal)
  case case8 waits task id signal p slot m result hm pw hp r ih =>
    obtain ⟨w, hw, hl⟩ := hid (by simp)
    have hmerge : ∀ {x w}, m.2.get? x = some w → ∃ w', whole.get? x = some w' ∧ w'.link = w.link := by
      intro x w hx
      obtain ⟨w₁, hw₁, hl₁⟩ := link_merge hx
      obtain ⟨w₂, hw₂, hl₂⟩ := hsub hw₁
      exact ⟨w₂, hw₂, hl₂.trans hl₁⟩
    obtain ⟨w', hw', hl'⟩ := hmerge hp
    have hin : whole.Inner (ps ++ [.settled id signal] ++ r.1) := by
      refine (hps.append (Inner.settled hw hl signal)).append (Inner.of_withdrawn fun q hq => ?_)
      obtain ⟨x, wx, hx, -⟩ := withdrawn_of_mem_detachEach hq
      exact ⟨x, wx, hx⟩
    have := ih (fun hx => hmerge (get?_of_get?_erase (get?_of_get?_detachEach hx))) hin
      fun h => ⟨w', hw', hl' ▸ h⟩
    simpa only [Climb.after, List.append_assoc] using this

/-- A settlement tells of the settlement of a root last, and only if it wakes its task. -/
theorem tells_settle (waits : Waits) (id : EffectId) (signal : Signal) :
    waits.Tells (waits.settle id signal) := by
  unfold settle
  split
  · refine Or.inl ⟨rfl, ?_⟩
    intro x s hx
    cases hx
  · rename_i wait hid
    have hnil : waits.Inner [] := by
      intro x s hx
      cases hx
    exact tells_climb (fun hx => ⟨_, get?_of_get?_erase hx, rfl⟩) hnil fun hl => ⟨wait, hid, hl⟩

end Waits

end SagaMachine
