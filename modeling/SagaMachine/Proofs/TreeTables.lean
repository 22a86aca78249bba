import SagaMachine.Proofs.EffectTrees
import SagaMachine.Proofs.WaitForest

/-!
# Trees in the wait table

A wait table shows a tree of effects (`Waits.Shows`) if every effect of the tree that is pending has
its entry: a leaf its own, a combinator one with its pending members by slot and, for an `all`, with
the values it has so far and the number of those it misses.

When a leaf settles, the climb through the table does what the recursion on the tree says
(`Waits.Shows.settle`): the table shows the tree that is left, or the climb has come to the top of the
tree with the signal that the tree has settled with, and all its effects are gone.
-/

namespace SagaMachine

/-- The table shows a tree of effects of a task, which reports to `link`. -/
inductive Waits.Shows (waits : Waits) (t : TaskId) : Link → EffectTree → Prop
  | leaf {link : Link} {id : EffectId} {kind : WaitKind}
      (entry : waits.get? id = some ⟨t, link, kind⟩) (hk : kind.IsLeaf) : Shows waits t link (.leaf id)
  | race {link : Link} {id : EffectId} {keys : Option (List String)} {members : List EffectTree}
      (entry : waits.get? id = some ⟨t, link, .race keys (members.map EffectTree.root?)⟩)
      (hne : members ≠ [])
      (hm : ∀ {slot m}, members[slot]? = some m → Shows waits t (.race id slot) m) :
      Shows waits t link (.race id keys members)
  | all {link : Link} {id : EffectId} {members : List EffectTree}
      (entry : waits.get? id = some ⟨t, link, .all (members.map EffectTree.value?)
        (members.map EffectTree.root?) ((members.map EffectTree.value?).countP (·.isNone))⟩)
      (pending : ∃ m ∈ members, m.value? = none)
      (hm : ∀ {slot m}, members[slot]? = some m → m.value? = none → Shows waits t (.all id slot) m) :
      Shows waits t link (.all id members)

namespace EffectTree

variable {x : EffectId} {t m : EffectTree} {ts : List EffectTree} {slot : Nat}

theorem pending_of_mem (h : x ∈ t.ids) : t.signal? = none := by
  cases t with
  | settled => cases h
  | _ => rfl

theorem mem_idsEach_of_slot (hm : ts[slot]? = some m) (h : x ∈ m.ids) : x ∈ idsEach ts :=
  mem_idsEach.2 ⟨m, List.mem_of_getElem? hm, h⟩

theorem exists_slot_of_mem (h : x ∈ idsEach ts) :
    ∃ (slot : Nat) (m : EffectTree), ts[slot]? = some m ∧ x ∈ m.ids := by
  obtain ⟨m, hm, hx⟩ := mem_idsEach.1 h
  obtain ⟨slot, hs⟩ := List.mem_iff_getElem?.1 hm
  exact ⟨slot, m, hs, hx⟩

/-- The numbers of pending members are numbers of the tree. -/
theorem mem_idsEach_of_root (h : x ∈ (ts.map root?).filterMap id) : x ∈ idsEach ts := by
  obtain ⟨o, ho, rfl⟩ := List.mem_filterMap.1 h
  obtain ⟨m, hm, hr⟩ := List.mem_map.1 ho
  cases hs : m.signal? with
  | some signal =>
    rw [signal?_eq_some.1 hs] at hr
    cases hr
  | none =>
    obtain ⟨-, -, r, hroot, hmem⟩ := of_pending hs
    cases hroot.symm.trans hr
    exact mem_idsEach.2 ⟨m, hm, hmem⟩

/-- What does nothing to the members does nothing to them together. -/
theorem settleEach_of_slots {signal : Signal}
    (h : ∀ {slot : Nat} {m : EffectTree}, ts[slot]? = some m → m.settle x signal = m) :
    settleEach x signal ts = ts := by
  rw [settleEach_eq_map]
  refine (List.map_congr_left fun m hm => ?_).trans (List.map_id ts)
  obtain ⟨slot, hs⟩ := List.mem_iff_getElem?.1 hm
  exact h hs

/-- Only the member in one slot is concerned. -/
theorem settleEach_eq_set {signal : Signal} (hm : ts[slot]? = some m)
    (h : ∀ {k : Nat} {m' : EffectTree}, ts[k]? = some m' → k ≠ slot → m'.settle x signal = m') :
    settleEach x signal ts = ts.set slot (m.settle x signal) := by
  rw [settleEach_eq_map]
  refine List.ext_getElem? fun k => ?_
  rw [List.getElem?_map, List.getElem?_set]
  by_cases hk : slot = k
  · subst hk
    rw [if_pos rfl, if_pos (List.getElem?_eq_some_iff.1 hm).1, hm]
    rfl
  · rw [if_neg hk]
    cases hts : ts[k]? with
    | none => rfl
    | some m' => exact congrArg some (h hts fun he => hk he.symm)

/-- A slot that keeps what is looked at keeps it for the whole list. -/
theorem map_set_of_eq {α : Type} {f : EffectTree → α} {m' : EffectTree} (hm : ts[slot]? = some m)
    (hf : f m' = f m) : (ts.set slot m').map f = ts.map f := by
  refine List.ext_getElem? fun k => ?_
  rw [List.getElem?_map, List.getElem?_map, List.getElem?_set]
  by_cases hk : slot = k
  · subst hk
    rw [if_pos rfl, if_pos (List.getElem?_eq_some_iff.1 hm).1, hm]
    exact congrArg some hf
  · rw [if_neg hk]

/-- What is in a list of trees is in the one that is replaced, or is still there afterwards. -/
theorem mem_idsEach_set (hm : ts[slot]? = some m) (h : x ∈ idsEach ts) (m' : EffectTree) :
    x ∈ m.ids ∨ x ∈ idsEach (ts.set slot m') := by
  obtain ⟨k, u, hk, hx⟩ := exists_slot_of_mem h
  by_cases hks : slot = k
  · subst hks
    cases hm.symm.trans hk
    exact Or.inl hx
  · exact Or.inr (mem_idsEach_of_slot (by rwa [List.getElem?_set_ne hks]) hx)

theorem mem_idsEach_set_self {m' : EffectTree} (hm : ts[slot]? = some m) (h : x ∈ m'.ids) :
    x ∈ idsEach (ts.set slot m') :=
  mem_idsEach_of_slot (List.getElem?_set_self (List.getElem?_eq_some_iff.1 hm).1) h

theorem mem_idsEach_of_set_none {results : List (Option Value)} {remaining : Nat}
    (h : x ∈ (WaitKind.all results ((ts.map root?).set slot none) remaining).members) :
    x ∈ idsEach ts := by
  refine mem_idsEach_of_root ?_
  obtain ⟨o, ho, rfl⟩ := List.mem_filterMap.1 h
  rcases List.mem_or_eq_of_mem_set ho with ho | ho
  · exact List.mem_filterMap.2 ⟨_, ho, rfl⟩
  · cases ho

/-- A value for a pending member counts down what is missing. -/
theorem countP_set_settled (hm : ts[slot]? = some m) (hx : x ∈ m.ids) (v : Value) :
    ((ts.set slot (settled (.value v))).map value?).countP (·.isNone) + 1 =
      (ts.map value?).countP (·.isNone) := by
  have hslot : (ts.map value?)[slot]? = some none := by
    rw [List.getElem?_map, hm]
    exact congrArg some (of_pending (pending_of_mem hx)).1
  rw [List.map_set]
  exact Waits.countP_set_value v hslot

/-- Values are missing as long as some member has none. -/
theorem countP_missing_pos : 0 < (ts.map value?).countP (·.isNone) ↔ ∃ t ∈ ts, t.value? = none := by
  simp [List.countP_pos_iff]

theorem settle_of_value (h : t.value? ≠ none) (signal : Signal) : t.settle x signal = t := by
  cases t with
  | settled => rfl
  | _ => exact absurd rfl h

end EffectTree

namespace Waits.Shows

open EffectTree

variable {waits waits' : Waits} {t : TaskId} {link link' : Link} {tree tree' : EffectTree}
  {x y p : EffectId} {hole : Link} {signal : Signal}

theorem pending (h : waits.Shows t link tree) : tree.signal? = none := by
  cases h <;> rfl

/-- Only the entries of the tree matter. -/
theorem congr (h : waits.Shows t link tree) (hk : ∀ y ∈ tree.ids, waits'.get? y = waits.get? y) :
    waits'.Shows t link tree := by
  induction h with
  | leaf entry hleaf => exact .leaf ((hk _ List.mem_cons_self).trans entry) hleaf
  | race entry hne hm ih =>
    refine .race ((hk _ List.mem_cons_self).trans entry) hne fun hs => ih hs fun y hy => ?_
    exact hk y (List.mem_cons_of_mem _ (mem_idsEach_of_slot hs hy))
  | all entry pending hm ih =>
    refine .all ((hk _ List.mem_cons_self).trans entry) pending fun hs hv => ih hs hv fun y hy => ?_
    exact hk y (List.mem_cons_of_mem _ (mem_idsEach_of_slot hs hy))

/-- An effect of the tree is at the top, or reports to another one. -/
theorem place (h : waits.Shows t link tree) (hy : y ∈ tree.ids) :
    ∃ w, waits.get? y = some w ∧ w.task = t ∧
      (tree.root? = some y ∧ w.link = link ∨ ∃ p ∈ tree.ids, w.link.parent? = some p) := by
  induction h with
  | leaf entry hleaf =>
    obtain rfl := List.mem_singleton.1 hy
    exact ⟨_, entry, rfl, Or.inl ⟨rfl, rfl⟩⟩
  | @race link id keys members entry hne hm ih =>
    rcases List.mem_cons.1 hy with rfl | hy
    · exact ⟨_, entry, rfl, Or.inl ⟨rfl, rfl⟩⟩
    · obtain ⟨slot, m, hs, hy⟩ := exists_slot_of_mem hy
      obtain ⟨w, hw, ht, ⟨-, hl⟩ | ⟨p, hp, hl⟩⟩ := ih hs hy
      · exact ⟨w, hw, ht, Or.inr ⟨id, List.mem_cons_self, by rw [hl]; rfl⟩⟩
      · exact ⟨w, hw, ht, Or.inr ⟨p, List.mem_cons_of_mem _ (mem_idsEach_of_slot hs hp), hl⟩⟩
  | @all link id members entry pending hm ih =>
    rcases List.mem_cons.1 hy with rfl | hy
    · exact ⟨_, entry, rfl, Or.inl ⟨rfl, rfl⟩⟩
    · obtain ⟨slot, m, hs, hy⟩ := exists_slot_of_mem hy
      obtain ⟨w, hw, ht, ⟨-, hl⟩ | ⟨p, hp, hl⟩⟩ := ih hs (of_pending (pending_of_mem hy)).1 hy
      · exact ⟨w, hw, ht, Or.inr ⟨id, List.mem_cons_self, by rw [hl]; rfl⟩⟩
      · exact ⟨w, hw, ht, Or.inr ⟨p, List.mem_cons_of_mem _ (mem_idsEach_of_slot hs hp), hl⟩⟩

/-- The members of a combinator of the tree are in the tree. -/
theorem mem_of_member (h : waits.Shows t link tree) (hp : p ∈ tree.ids) {w : Wait}
    (hw : waits.get? p = some w) (hy : y ∈ w.kind.members) : y ∈ tree.ids := by
  induction h with
  | leaf entry hleaf =>
    obtain rfl := List.mem_singleton.1 hp
    cases entry.symm.trans hw
    rw [hleaf.members] at hy
    cases hy
  | race entry hne hm ih =>
    rcases List.mem_cons.1 hp with rfl | hp
    · cases entry.symm.trans hw
      exact List.mem_cons_of_mem _ (mem_idsEach_of_root hy)
    · obtain ⟨slot, m, hs, hp⟩ := exists_slot_of_mem hp
      exact List.mem_cons_of_mem _ (mem_idsEach_of_slot hs (ih hs hp))
  | all entry pending hm ih =>
    rcases List.mem_cons.1 hp with rfl | hp
    · cases entry.symm.trans hw
      exact List.mem_cons_of_mem _ (mem_idsEach_of_root hy)
    · obtain ⟨slot, m, hs, hp⟩ := exists_slot_of_mem hp
      exact List.mem_cons_of_mem _ (mem_idsEach_of_slot hs
        (ih hs (of_pending (pending_of_mem hp)).1 hp))

/-- The effects of a member come after its combinator. -/
theorem lt_of_mem (h : waits.Shows t link tree) (hF : Forest waits [] hole)
    (hl : link.parent? = some p) (hy : y ∈ tree.ids) : p < y := by
  induction y using Nat.strongRecOn with
  | ind y ih =>
    obtain ⟨w, hw, -, ⟨-, hlink⟩ | ⟨q, hq, hlink⟩⟩ := h.place hy
    · obtain ⟨-, -, -, hlt, -⟩ := hF.up hw List.not_mem_nil (hlink ▸ hl)
      exact hlt
    · obtain ⟨-, -, -, hlt, -⟩ := hF.up hw List.not_mem_nil hlink
      exact Nat.lt_trans (ih q hlt hq) hlt

/-- Members in different slots have no effect in common. -/
theorem slot_unique (h : waits.Shows t link tree) (h' : waits.Shows t link' tree')
    (hF : Forest waits [] hole) (hl : link.parent? = some p) (hl' : link'.parent? = some p)
    (hy : y ∈ tree.ids) (hy' : y ∈ tree'.ids) : link = link' := by
  induction y using Nat.strongRecOn with
  | ind y ih =>
    obtain ⟨w, hw, -, hplace⟩ := h.place hy
    obtain ⟨w', hw', -, hplace'⟩ := h'.place hy'
    cases hw.symm.trans hw'
    rcases hplace with ⟨-, hlink⟩ | ⟨q, hq, hlink⟩ <;>
      rcases hplace' with ⟨-, hlink'⟩ | ⟨q', hq', hlink'⟩
    · exact hlink.symm.trans hlink'
    · rw [hlink, hl] at hlink'
      cases hlink'
      exact absurd (h'.lt_of_mem hF hl' hq') (Nat.lt_irrefl _)
    · rw [hlink', hl'] at hlink
      cases hlink
      exact absurd (h.lt_of_mem hF hl hq) (Nat.lt_irrefl _)
    · cases hlink.symm.trans hlink'
      obtain ⟨-, -, -, hlt, -⟩ := hF.up hw List.not_mem_nil hlink
      exact ih q hlt hq hq'

/-- An effect of a member is in no other slot. -/
theorem apart {ts : List EffectTree} {m m' : EffectTree} {slot k : Nat} {at' : Nat → Link}
    (hat : ∀ {j k}, at' j = at' k → j = k) (hl : ∀ k, (at' k).parent? = some p)
    (hms : ∀ {k : Nat} {m : EffectTree}, ts[k]? = some m → m.signal? = none → waits.Shows t (at' k) m)
    (hF : Forest waits [] hole) (hm : ts[slot]? = some m) (hk : ts[k]? = some m') (hne : k ≠ slot)
    (hy : y ∈ m'.ids) : y ∉ m.ids := fun hym =>
  hne (hat ((hms hk (pending_of_mem hy)).slot_unique (hms hm (pending_of_mem hym)) hF (hl _) (hl _)
    hy hym))

/-- While something of the tree is left in a smaller table, its top is. -/
theorem root_left (h : waits.Shows t link tree) (hF : Forest waits' [] hole)
    (hsub : ∀ {z w}, waits'.get? z = some w → waits.get? z = some w)
    (hy : y ∈ tree.ids) {w : Wait} (hw : waits'.get? y = some w) :
    ∃ r w', tree.root? = some r ∧ waits'.get? r = some w' := by
  induction y using Nat.strongRecOn generalizing w with
  | ind y ih =>
    obtain ⟨w', hw', -, ⟨hr, -⟩ | ⟨q, hq, hlink⟩⟩ := h.place hy
    · exact ⟨y, w, hr, hw⟩
    · cases (hsub hw).symm.trans hw'
      obtain ⟨qw, hqw, -, hlt, -⟩ := hF.up hw List.not_mem_nil hlink
      exact ih q hlt hq hqw

/-! ## What is not concerned -/

/-- A member of an `all` that is not pending has its value. -/
theorem not_failed {ts : List EffectTree} {id : EffectId}
    (hm : ∀ {slot m}, ts[slot]? = some m → m.value? = none → waits.Shows t (.all id slot) m) :
    ∀ m ∈ ts, m.failure? = none := by
  intro m hmem
  obtain ⟨slot, hs⟩ := List.mem_iff_getElem?.1 hmem
  cases hv : m.value? with
  | none => exact (of_pending (hm hs hv).pending).2.1
  | some v =>
    cases m with
    | settled signal =>
      cases signal with
      | value => rfl
      | _ => cases hv
    | _ => rfl

/-- An effect that is not in the tree does nothing to it. -/
theorem settle_of_not_mem (h : waits.Shows t link tree) (hx : x ∉ tree.ids) (signal : Signal) :
    tree.settle x signal = tree := by
  induction h with
  | leaf entry hleaf =>
    rw [EffectTree.settle, if_neg]
    rintro rfl
    exact hx List.mem_cons_self
  | @race link id keys members entry hne hm ih =>
    have hsame : settleEach x signal members = members := settleEach_of_slots fun hs =>
      ih hs fun hmem => hx (List.mem_cons_of_mem _ (mem_idsEach_of_slot hs hmem))
    rw [EffectTree.settle, hsame, ofRace_pending]
    intro m hmem
    obtain ⟨slot, hs⟩ := List.mem_iff_getElem?.1 hmem
    exact (hm hs).pending
  | @all link id members entry pending hm ih =>
    have hsame : settleEach x signal members = members := settleEach_of_slots fun {slot m} hs => by
      by_cases hv : m.value? = none
      · exact ih hs hv fun hmem => hx (List.mem_cons_of_mem _ (mem_idsEach_of_slot hs hmem))
      · exact settle_of_value hv signal
    rw [EffectTree.settle, hsame, ofAll_pending (not_failed hm) pending]

end Waits.Shows

/-! ## A leaf settles -/

/-- The climb from a leaf has come to the top of its tree with the signal that this settles with. -/
structure Waits.Finishes (waits : Waits) (t : TaskId) (link : Link) (tree : EffectTree)
    (x : EffectId) (signal result : Signal) (r : EffectId) (ps : List Passage) (waits' : Waits) :
    Prop where
  settled : tree.settle x signal = .settled result
  root : tree.root? = some r
  climbs : waits.settle x signal = (climb waits' t r link result).after ps
  ready : Climbable waits' t r link
  gone : ∀ y ∈ tree.ids, waits'.get? y = none
  kept : ∀ y, y ∉ tree.ids → waits'.get? y = waits.get? y

/-- The climb from a leaf has ended below the top of its tree, and the table shows what is left. -/
structure Waits.Remains (waits : Waits) (t : TaskId) (link : Link) (tree : EffectTree)
    (x : EffectId) (signal : Signal) (ps : List Passage) (waits' : Waits) : Prop where
  shown : waits'.Shows t link (tree.settle x signal)
  root : (tree.settle x signal).root? = tree.root?
  ends : waits.settle x signal = ⟨ps, none, waits'⟩
  left : ∀ y ∈ tree.ids, y ∈ (tree.settle x signal).ids ∨ waits'.get? y = none
  kept : ∀ y, y ∉ tree.ids → waits'.get? y = waits.get? y

/-- A leaf of a tree settles in the table as in the tree. -/
def Waits.Follows (waits : Waits) (t : TaskId) (link : Link) (tree : EffectTree) (x : EffectId)
    (signal : Signal) : Prop :=
  (∃ result r ps waits', waits.Finishes t link tree x signal result r ps waits') ∨
    ∃ ps waits', waits.Remains t link tree x signal ps waits'

namespace Waits

open EffectTree

variable {waits waits' : Waits} {t : TaskId} {link hole : Link} {tree : EffectTree}
  {x p : EffectId} {signal : Signal}

/-- When the combinator at the top of a tree is closed, the tree is gone, and nothing else. -/
theorem Shows.closed (h : waits.Shows t link tree) (hF : Forest waits [] .task)
    (hr : tree.root? = some p) (hF' : Forest waits' [] hole)
    (hh : hole = .task ∨ hole.parent? = some p) {w : Wait} (hp : waits'.get? p = some w)
    (hmem : ∀ {y}, y ∈ w.kind.members → y ∈ tree.ids)
    (hsub : ∀ {y wy}, waits'.get? y = some wy → y ≠ p → waits.get? y = some wy)
    (hkept : ∀ y, y ∉ tree.ids → waits'.get? y = waits.get? y) :
    (∀ y ∈ tree.ids, (detachEach (waits'.erase p) w.kind.members).2.get? y = none) ∧
      ∀ y, y ∉ tree.ids →
        (detachEach (waits'.erase p) w.kind.members).2.get? y = waits.get? y := by
  have hc := closes_detachEach hF' hp hh
  refine ⟨fun y hy => ?_, fun y hy => ?_⟩
  · cases hg : (detachEach (waits'.erase p) w.kind.members).2.get? y with
    | none => rfl
    | some wy =>
      obtain ⟨r, wr, hr', hwr⟩ :=
        h.root_left hc.forest (fun hz => hsub (hc.old hz).2 (hc.old hz).1) hy hg
      cases hr.symm.trans hr'
      exact absurd rfl (hc.old hwr).1
  · have hE : Forest (waits'.erase p) (w.kind.members ++ []) w.link :=
      hF'.erase_member hp List.not_mem_nil hh
    have hsub' : ∀ {z wz}, (waits'.erase p).get? z = some wz → waits.get? z = some wz := by
      intro z wz hz
      rw [Table.get?_erase] at hz
      split at hz
      · cases hz
      · exact hsub hz ‹_›
    have hall := hE.forall_withdrawn_each (Q := fun z _ => z ∈ tree.ids)
      (fun z hz _ _ => hmem hz) fun q _ z wz hq _ _ hl hz => by
        obtain ⟨qw, hqw, -, -, hm⟩ := hF.up (hsub' hz) List.not_mem_nil hl
        exact h.mem_of_member hq hqw hm.mem_members
    have hyp : y ≠ p := by
      rintro rfl
      obtain ⟨-, -, r, hr', hmem'⟩ := of_pending h.pending
      cases hr.symm.trans hr'
      exact hy hmem'
    rw [get?_detachEach, if_neg, Table.get?_erase, if_neg hyp, hkept y hy]
    intro hm
    obtain ⟨e, he, rfl⟩ := List.mem_map.1 hm
    obtain ⟨z, wz, rfl, -⟩ := withdrawn_of_mem_detachEach he
    exact hy (hall z wz he)

theorem Climb.after_after {c c' : Climb} {ps ps' : List Passage} (h : c = c'.after ps') :
    c.after ps = c'.after (ps ++ ps') := by
  rw [h, Climb.after, Climb.after, Climb.after, List.append_assoc]

/-- A climb goes on from a race that its member has decided. -/
theorem round_race {task : TaskId} {id slot : Nat} {keys : Option (List String)}
    {members : List (Option EffectId)}
    (hp : waits.get? p = some ⟨t, link, .race keys members⟩) :
    Climbing.round ⟨waits, task, id, .race p slot, signal⟩ = some
      ⟨(detachEach (waits.erase p) (WaitKind.race keys members).members).2, t, p, link,
        raceResult keys members.length slot signal⟩ := by
  simp only [Climbing.round, hp, closeRace]

section

variable {task : TaskId} {id slot remaining : Nat} {results : List (Option Value)}
  {members : List (Option EffectId)}

/-- A climb goes on from an `all` whose last missing value has come. -/
theorem round_all_complete (hp : waits.get? p = some ⟨t, link, .all results members remaining⟩)
    (v : Value) (hr : remaining - 1 = 0) :
    Climbing.round ⟨waits, task, id, .all p slot, .value v⟩ = some
      ⟨(waits.merge p slot (.value v)).2.erase p, t, p, link,
        .value (.list ((results.set slot (some v)).map fun r => r.getD .unit))⟩ := by
  simp [Climbing.round, merge, hp, hr, collect]

/-- A climb goes on from an `all` with a member that has failed. -/
theorem round_all_failed (hp : waits.get? p = some ⟨t, link, .all results members remaining⟩)
    (hs : (settled signal).failure? = some signal) :
    Climbing.round ⟨waits, task, id, .all p slot, signal⟩ = some
      ⟨(detachEach ((waits.merge p slot signal).2.erase p)
        (WaitKind.all results (members.set slot none) remaining).members).2, t, p, link, signal⟩ := by
  cases signal with
  | value => cases hs
  | _ => simp [Climbing.round, merge, hp]

/-- A climb ends at an `all` that misses more values. -/
theorem climb_all_waiting (hp : waits.get? p = some ⟨t, link, .all results members remaining⟩)
    (v : Value) (hr : remaining - 1 ≠ 0) :
    climb waits task id (.all p slot) (.value v) =
      ⟨[], none, (waits.merge p slot (.value v)).2⟩ := by
  rw [climb]
  simp only
  split <;> rename_i hm
  · rfl
  · simp [merge, hp, hr] at hm
  · simp [merge, hp, hr] at hm

end

theorem Shows.follows_leaf (h : waits.Shows t link (.leaf x)) (hF : Forest waits [] .task)
    (hW : ∀ {y w}, waits.get? y = some w → w.kind.Whole) (signal : Signal) :
    waits.Follows t link (.leaf x) x signal := by
  cases h with
  | leaf entry hleaf =>
    refine Or.inl ⟨signal, x, _, _, if_pos rfl, rfl, settle_eq entry signal,
      climbable_erase hF hW entry hleaf.members, fun y hy => ?_, fun y hy => ?_⟩
    · obtain rfl := List.mem_singleton.1 hy
      simp
    · rw [Table.get?_erase, if_neg]
      rintro rfl
      exact hy List.mem_cons_self

/-! ### Members of a race -/

section

variable {id slot : Nat} {keys : Option (List String)} {members : List EffectTree} {m : EffectTree}
  {result : Signal} {r : EffectId} {ps : List Passage}

section

variable (h : waits.Shows t link (.race id keys members))
include h

theorem Shows.race_entry :
    waits.get? id = some ⟨t, link, .race keys (members.map root?)⟩ ∧ members ≠ [] := by
  cases h with
  | race entry hne => exact ⟨entry, hne⟩

theorem Shows.race_slot {k : Nat} {m : EffectTree} (hk : members[k]? = some m) :
    waits.Shows t (.race id k) m := by
  cases h with
  | race _ _ hms => exact hms hk

theorem Shows.race_pending : ∀ m ∈ members, m.signal? = none := fun m hm => by
  obtain ⟨k, hk⟩ := List.mem_iff_getElem?.1 hm
  exact (h.race_slot hk).pending

variable (hF : Forest waits [] .task) (hm : members[slot]? = some m)
include hF hm

theorem Shows.race_apart {k : Nat} {m' : EffectTree} {y : EffectId} (hk : members[k]? = some m')
    (hne : k ≠ slot) (hy : y ∈ m'.ids) : y ∉ m.ids :=
  Shows.apart (fun h => (Link.race.inj h).2) (fun _ => rfl) (fun hk _ => h.race_slot hk) hF hm hk
    hne hy

theorem Shows.race_not_mem : id ∉ m.ids := fun hmem =>
  Nat.lt_irrefl _ ((h.race_slot hm).lt_of_mem hF rfl hmem)

/-- A member that settles is the only one that changes. -/
theorem Shows.race_settleEach (hx : x ∈ m.ids) (signal : Signal) :
    settleEach x signal members = members.set slot (m.settle x signal) :=
  settleEach_eq_set hm fun hk hks =>
    (h.race_slot hk).settle_of_not_mem (fun hx' => h.race_apart hF hm hk hks hx' hx) signal

/-- A member that has settled decides its race. -/
theorem Finishes.of_race (hx : x ∈ m.ids)
    (hd : waits.Finishes t (.race id slot) m x signal result r ps waits') :
    waits.Follows t link (.race id keys members) x signal := by
  have hentry := (hd.kept id (h.race_not_mem hF hm)).trans h.race_entry.1
  have hround : Climbing.round ⟨waits', t, r, .race id slot, result⟩ = some _ := round_race hentry
  obtain ⟨ps', hclimb⟩ := Climbing.result_of_round hround
  have hclosed := h.closed hF rfl hd.ready.forest (Or.inr rfl) hentry
    (fun hy => h.mem_of_member List.mem_cons_self h.race_entry.1 hy)
    (fun {y wy} hy _ => by
      by_cases hym : y ∈ m.ids
      · cases (hd.gone y hym).symm.trans hy
      · exact (hd.kept y hym).symm.trans hy)
    (fun y hy => hd.kept y fun hym => hy (List.mem_cons_of_mem _ (mem_idsEach_of_slot hm hym)))
  have hlt : slot < members.length := (List.getElem?_eq_some_iff.1 hm).1
  have hsettle : (race id keys members).settle x signal =
      .settled (raceResult keys (members.map root?).length slot result) := by
    rw [EffectTree.settle, h.race_settleEach hF hm hx, hd.settled,
      List.set_eq_take_append_cons_drop, if_pos hlt,
      ofRace_append fun m' hm' => h.race_pending m' (List.mem_of_mem_take hm'),
      List.length_take_of_le (Nat.le_of_lt hlt), crown_eq, List.length_map]
  exact Or.inl ⟨_, id, _, _, hsettle, rfl, hd.climbs.trans (Climb.after_after hclimb),
    hd.ready.round hround, hclosed.1, hclosed.2⟩

/-- A race goes on with what is left of its member. -/
theorem Remains.of_race (hx : x ∈ m.ids)
    (hr : waits.Remains t (.race id slot) m x signal ps waits') :
    waits.Follows t link (.race id keys members) x signal := by
  have hlt : slot < members.length := (List.getElem?_eq_some_iff.1 hm).1
  have hsettle : (race id keys members).settle x signal =
      .race id keys (members.set slot (m.settle x signal)) := by
    rw [EffectTree.settle, h.race_settleEach hF hm hx, ofRace_pending]
    intro m' hm'
    rcases List.mem_or_eq_of_mem_set hm' with hm' | rfl
    · exact h.race_pending m' hm'
    · exact hr.shown.pending
  have hentry := (hr.kept id (h.race_not_mem hF hm)).trans h.race_entry.1
  rw [← map_set_of_eq hm hr.root] at hentry
  refine Or.inr ⟨ps, waits', ?_, by rw [hsettle]; rfl, hr.ends, fun y hy => ?_, fun y hy => ?_⟩
  · rw [hsettle]
    refine .race hentry (by simpa using h.race_entry.2) fun {k m'} hk => ?_
    by_cases hks : slot = k
    · subst hks
      rw [List.getElem?_set_self hlt] at hk
      cases hk
      exact hr.shown
    · rw [List.getElem?_set_ne hks] at hk
      exact (h.race_slot hk).congr fun z hz => hr.kept z (h.race_apart hF hm hk (Ne.symm hks) hz)
  · rw [hsettle]
    rcases List.mem_cons.1 hy with rfl | hy
    · exact Or.inl List.mem_cons_self
    · rcases mem_idsEach_set hm hy (m.settle x signal) with hy | hy
      · exact (hr.left y hy).imp_left fun hy => List.mem_cons_of_mem _ (mem_idsEach_set_self hm hy)
      · exact Or.inl (List.mem_cons_of_mem _ hy)
  · exact hr.kept y fun hym => hy (List.mem_cons_of_mem _ (mem_idsEach_of_slot hm hym))

end

end

/-! ### Members of an `all` -/

section

variable {id slot : Nat} {members : List EffectTree} {m : EffectTree} {result : Signal}
  {r : EffectId} {ps : List Passage}

section

variable (h : waits.Shows t link (.all id members))
include h

theorem Shows.all_entry : waits.get? id = some ⟨t, link, .all (members.map value?)
    (members.map root?) ((members.map value?).countP (·.isNone))⟩ := by
  cases h with
  | all entry => exact entry

theorem Shows.all_slot {k : Nat} {m : EffectTree} (hk : members[k]? = some m)
    (hs : m.signal? = none) : waits.Shows t (.all id k) m := by
  cases h with
  | all _ _ hms => exact hms hk (of_pending hs).1

theorem Shows.all_not_failed : ∀ m ∈ members, m.failure? = none := by
  cases h with
  | all _ _ hms => exact Shows.not_failed hms

variable (hF : Forest waits [] .task) (hm : members[slot]? = some m)
include hF hm

theorem Shows.all_apart {k : Nat} {m' : EffectTree} {y : EffectId} (hk : members[k]? = some m')
    (hne : k ≠ slot) (hy : y ∈ m'.ids) : y ∉ m.ids :=
  Shows.apart (fun h => (Link.all.inj h).2) (fun _ => rfl) h.all_slot hF hm hk hne hy

theorem Shows.all_not_mem : id ∉ m.ids := fun hmem =>
  Nat.lt_irrefl _ ((h.all_slot hm (pending_of_mem hmem)).lt_of_mem hF rfl hmem)

/-- A member that settles is the only one that changes. -/
theorem Shows.all_settleEach (hx : x ∈ m.ids) (signal : Signal) :
    settleEach x signal members = members.set slot (m.settle x signal) :=
  settleEach_eq_set hm fun {k m'} hk hks => by
    cases hs : m'.signal? with
    | none =>
      exact (h.all_slot hk hs).settle_of_not_mem (fun hx' => h.all_apart hF hm hk hks hx' hx) signal
    | some result =>
      rw [signal?_eq_some.1 hs]
      rfl

/-- The table after a member has settled and its `all` has taken note of the signal. -/
theorem Finishes.get?_merge (hd : waits.Finishes t (.all id slot) m x signal result r ps waits')
    {kind : WaitKind} (hk : (waits'.merge id slot result).2 = waits'.modify id fun _ => ⟨t, link, kind⟩)
    (y : EffectId) : (waits'.merge id slot result).2.get? y =
      if y = id then some ⟨t, link, kind⟩ else waits'.get? y := by
  rw [hk, Table.get?_modify, (hd.kept id (h.all_not_mem hF hm)).trans h.all_entry]
  rfl

/-- If the `all` is closed then, its tree is gone, and nothing else. -/
theorem Finishes.closed (hd : waits.Finishes t (.all id slot) m x signal result r ps waits')
    {kind : WaitKind} (hk : (waits'.merge id slot result).2 = waits'.modify id fun _ => ⟨t, link, kind⟩)
    (hmem : ∀ {y}, y ∈ kind.members → y ∈ (all id members).ids) :
    (∀ y ∈ (all id members).ids, (detachEach ((waits'.merge id slot result).2.erase id)
        kind.members).2.get? y = none) ∧
      ∀ y, y ∉ (all id members).ids → (detachEach ((waits'.merge id slot result).2.erase id)
        kind.members).2.get? y = waits.get? y := by
  have hget := hd.get?_merge h hF hm hk
  obtain ⟨pw, hpw, -, hmerged⟩ := hd.ready.merged result
  have htop : (waits'.merge id slot result).2.get? id = some ⟨t, link, kind⟩ := by
    rw [hget, if_pos rfl]
  refine h.closed hF rfl hmerged.forest (Or.inl rfl) htop hmem (fun {y wy} hy hne => ?_)
    fun y hy => ?_
  · rw [hget, if_neg hne] at hy
    by_cases hym : y ∈ m.ids
    · cases (hd.gone y hym).symm.trans hy
    · exact (hd.kept y hym).symm.trans hy
  · have hyid : y ≠ id := by
      rintro rfl
      exact hy List.mem_cons_self
    rw [hget, if_neg hyid]
    exact hd.kept y fun hym => hy (List.mem_cons_of_mem _ (mem_idsEach_of_slot hm hym))

variable (hx : x ∈ m.ids)
include hx

/-- A member that has failed decides its `all`. -/
theorem Finishes.all_failed (hd : waits.Finishes t (.all id slot) m x signal result r ps waits')
    (hs : (EffectTree.settled result).failure? = some result) :
    waits.Follows t link (.all id members) x signal := by
  have hentry := (hd.kept id (h.all_not_mem hF hm)).trans h.all_entry
  have hround : Climbing.round ⟨waits', t, r, .all id slot, result⟩ = some _ :=
    round_all_failed hentry hs
  obtain ⟨ps', hclimb⟩ := Climbing.result_of_round hround
  have hlt : slot < members.length := (List.getElem?_eq_some_iff.1 hm).1
  have hsettle : (all id members).settle x signal = .settled result := by
    rw [EffectTree.settle, h.all_settleEach hF hm hx, hd.settled,
      List.set_eq_take_append_cons_drop, if_pos hlt,
      ofAll_append (fun m' hm' => h.all_not_failed m' (List.mem_of_mem_take hm')) hs]
  obtain ⟨kind, hmerge, hkind, -⟩ := merge_eq hentry rfl slot result
  have hkind : kind = .all (members.map value?) ((members.map root?).set slot none)
      ((members.map value?).countP (·.isNone)) := by
    rw [hkind]
    cases result with
    | value => cases hs
    | _ => rfl
  subst hkind
  have hclosed := hd.closed h hF hm hmerge fun hy =>
    List.mem_cons_of_mem _ (mem_idsEach_of_set_none hy)
  exact Or.inl ⟨_, id, _, _, hsettle, rfl, hd.climbs.trans (Climb.after_after hclimb),
    hd.ready.round hround, hclosed.1, hclosed.2⟩

variable {v : Value} (hd : waits.Finishes t (.all id slot) m x signal (.value v) r ps waits')
include hd

/-- With its last missing value an `all` has all of them. -/
theorem Finishes.all_complete (hr : (members.map value?).countP (·.isNone) - 1 = 0) :
    waits.Follows t link (.all id members) x signal := by
  have hentry := (hd.kept id (h.all_not_mem hF hm)).trans h.all_entry
  have hround : Climbing.round ⟨waits', t, r, .all id slot, .value v⟩ = some _ :=
    round_all_complete hentry v hr
  obtain ⟨ps', hclimb⟩ := Climbing.result_of_round hround
  have hcount := countP_set_settled hm hx v
  have hall : ∀ m' ∈ members.set slot (EffectTree.settled (.value v)), m'.value? ≠ none :=
    fun m' hm' hv => by
      have hpos := countP_missing_pos.2 ⟨m', hm', hv⟩
      omega
  have hsettle : (all id members).settle x signal = .settled (.value (.list
      (((members.map value?).set slot (some v)).map fun r => r.getD .unit))) := by
    rw [EffectTree.settle, h.all_settleEach hF hm hx, hd.settled, ofAll_complete hall, List.map_set]
    rfl
  obtain ⟨kind, hmerge, hkind, hout⟩ := merge_eq hentry rfl slot (.value v)
  have htop : (waits'.merge id slot (.value v)).2.get? id = some ⟨t, link, kind⟩ := by
    rw [hd.get?_merge h hF hm hmerge, if_pos rfl]
  obtain ⟨pw, hpw, -, hmerged⟩ := hd.ready.merged (.value v)
  cases hentry.symm.trans hpw
  have hclosed := hd.closed h hF hm hmerge fun {y} hy => by
    rw [hkind] at hy
    exact List.mem_cons_of_mem _ (mem_idsEach_of_set_none hy)
  rw [hmerged.members_of_complete hentry htop (hout.trans (if_pos hr))] at hclosed
  exact Or.inl ⟨_, id, _, _, hsettle, rfl, hd.climbs.trans (Climb.after_after hclimb),
    hd.ready.round hround, hclosed.1, hclosed.2⟩

/-- An `all` takes note of a value. -/
theorem Finishes.get?_merge_value (y : EffectId) : (waits'.merge id slot (.value v)).2.get? y =
    if y = id then some ⟨t, link, .all ((members.set slot (EffectTree.settled (.value v))).map value?)
      ((members.set slot (EffectTree.settled (.value v))).map root?)
      (((members.set slot (EffectTree.settled (.value v))).map value?).countP (·.isNone))⟩
    else waits'.get? y := by
  have hentry := (hd.kept id (h.all_not_mem hF hm)).trans h.all_entry
  have hcount := countP_set_settled hm hx v
  obtain ⟨kind, hmerge, hkind, -⟩ := merge_eq hentry rfl slot (.value v)
  have hkind : kind = .all ((members.set slot (EffectTree.settled (.value v))).map value?)
      ((members.set slot (EffectTree.settled (.value v))).map root?)
      (((members.set slot (EffectTree.settled (.value v))).map value?).countP (·.isNone)) := by
    rw [hkind, Nat.eq_sub_of_add_eq hcount, List.map_set, List.map_set]
    rfl
  exact hkind ▸ hd.get?_merge h hF hm hmerge y

/-- With other values still missing an `all` waits on. -/
theorem Finishes.all_misses (hr : (members.map value?).countP (·.isNone) - 1 ≠ 0) :
    waits.Follows t link (.all id members) x signal := by
  have hentry := (hd.kept id (h.all_not_mem hF hm)).trans h.all_entry
  have hlt : slot < members.length := (List.getElem?_eq_some_iff.1 hm).1
  have hcount := countP_set_settled hm hx v
  have hsome : ∃ m' ∈ members.set slot (EffectTree.settled (.value v)), m'.value? = none :=
    countP_missing_pos.1 (by omega)
  have hsettle : (all id members).settle x signal =
      .all id (members.set slot (EffectTree.settled (.value v))) := by
    rw [EffectTree.settle, h.all_settleEach hF hm hx, hd.settled, ofAll_pending _ hsome]
    intro m' hm'
    rcases List.mem_or_eq_of_mem_set hm' with hm' | rfl
    · exact h.all_not_failed m' hm'
    · rfl
  have hget := hd.get?_merge_value h hF hm hx
  have hother : ∀ y, y ≠ id → y ∉ m.ids →
      (waits'.merge id slot (.value v)).2.get? y = waits.get? y := fun y hy hym => by
    rw [hget, if_neg hy, hd.kept y hym]
  refine Or.inr ⟨_, (waits'.merge id slot (.value v)).2, ?_, by rw [hsettle]; rfl, hd.climbs.trans
    (congrArg (Climb.after ps) (climb_all_waiting hentry v hr)), fun y hy => ?_, fun y hy => ?_⟩
  · rw [hsettle]
    refine .all (by rw [hget, if_pos rfl]) hsome fun {k m'} hk hv => ?_
    by_cases hks : slot = k
    · subst hks
      rw [List.getElem?_set_self hlt] at hk
      cases hk
      cases hv
    · rw [List.getElem?_set_ne hks] at hk
      have hs := signal?_of_value hv (h.all_not_failed m' (List.mem_of_getElem? hk))
      refine (h.all_slot hk hs).congr fun z hz => ?_
      exact hother z ((h.all_slot hk hs).lt_of_mem hF rfl hz).ne' (h.all_apart hF hm hk (Ne.symm hks) hz)
  · rw [hsettle]
    rcases List.mem_cons.1 hy with rfl | hy
    · exact Or.inl List.mem_cons_self
    · rcases mem_idsEach_set hm hy (EffectTree.settled (.value v)) with hym | hy
      · have hyid : y ≠ id := by
          rintro rfl
          exact h.all_not_mem hF hm hym
        exact Or.inr (by rw [hget, if_neg hyid, hd.gone y hym])
      · exact Or.inl (List.mem_cons_of_mem _ hy)
  · refine hother y ?_ fun hym => hy (List.mem_cons_of_mem _ (mem_idsEach_of_slot hm hym))
    rintro rfl
    exact hy List.mem_cons_self

end

/-- A member of an `all` settles in the table as it should, and so does the `all`. -/
theorem Finishes.of_all (h : waits.Shows t link (.all id members)) (hF : Forest waits [] .task)
    (hm : members[slot]? = some m) (hx : x ∈ m.ids)
    (hd : waits.Finishes t (.all id slot) m x signal result r ps waits') :
    waits.Follows t link (.all id members) x signal := by
  cases result with
  | fault | ended => exact hd.all_failed h hF hm hx rfl
  | value v =>
    by_cases hr : (members.map value?).countP (·.isNone) - 1 = 0
    · exact hd.all_complete h hF hm hx hr
    · exact hd.all_misses h hF hm hx hr

/-- An `all` goes on with what is left of its member. -/
theorem Remains.of_all (h : waits.Shows t link (.all id members)) (hF : Forest waits [] .task)
    (hm : members[slot]? = some m) (hx : x ∈ m.ids)
    (hr : waits.Remains t (.all id slot) m x signal ps waits') :
    waits.Follows t link (.all id members) x signal := by
  have hlt : slot < members.length := (List.getElem?_eq_some_iff.1 hm).1
  have hnone := (of_pending hr.shown.pending).1
  have hsettle : (all id members).settle x signal =
      .all id (members.set slot (m.settle x signal)) := by
    rw [EffectTree.settle, h.all_settleEach hF hm hx, ofAll_pending _ ⟨_, List.mem_set hlt _, hnone⟩]
    intro m' hm'
    rcases List.mem_or_eq_of_mem_set hm' with hm' | rfl
    · exact h.all_not_failed m' hm'
    · exact (of_pending hr.shown.pending).2.1
  have hvalue : (m.settle x signal).value? = m.value? :=
    hnone.trans (of_pending (pending_of_mem hx)).1.symm
  have hentry := (hr.kept id (h.all_not_mem hF hm)).trans h.all_entry
  rw [← map_set_of_eq hm hr.root, ← map_set_of_eq hm hvalue] at hentry
  refine Or.inr ⟨ps, waits', ?_, by rw [hsettle]; rfl, hr.ends, fun y hy => ?_, fun y hy => ?_⟩
  · rw [hsettle]
    refine .all hentry ⟨_, List.mem_set hlt _, hnone⟩ fun {k m'} hk hv => ?_
    by_cases hks : slot = k
    · subst hks
      rw [List.getElem?_set_self hlt] at hk
      cases hk
      exact hr.shown
    · rw [List.getElem?_set_ne hks] at hk
      have hs := signal?_of_value hv (h.all_not_failed m' (List.mem_of_getElem? hk))
      exact (h.all_slot hk hs).congr fun z hz => hr.kept z (h.all_apart hF hm hk (Ne.symm hks) hz)
  · rw [hsettle]
    rcases List.mem_cons.1 hy with rfl | hy
    · exact Or.inl List.mem_cons_self
    · rcases mem_idsEach_set hm hy (m.settle x signal) with hy | hy
      · exact (hr.left y hy).imp_left fun hy => List.mem_cons_of_mem _ (mem_idsEach_set_self hm hy)
      · exact Or.inl (List.mem_cons_of_mem _ hy)
  · exact hr.kept y fun hym => hy (List.mem_cons_of_mem _ (mem_idsEach_of_slot hm hym))

end

/-! ### Trees -/

/-- When a leaf of a tree settles, the climb through the table does what the tree says. -/
theorem Shows.follows (h : waits.Shows t link tree) (hF : Forest waits [] .task)
    (hW : ∀ {y w}, waits.get? y = some w → w.kind.Whole) (hx : x ∈ tree.ids) {w : Wait}
    (hw : waits.get? x = some w) (hl : w.kind.IsLeaf) (signal : Signal) :
    waits.Follows t link tree x signal := by
  induction h with
  | leaf entry hleaf =>
    obtain rfl := List.mem_singleton.1 hx
    exact (Shows.leaf entry hleaf).follows_leaf hF hW signal
  | race entry hne hms ih =>
    have h := Shows.race entry hne hms
    rcases List.mem_cons.1 hx with rfl | hx
    · cases entry.symm.trans hw
      exact hl.elim
    · obtain ⟨slot, m, hm, hx⟩ := exists_slot_of_mem hx
      obtain ⟨result, r, ps, waits', hd⟩ | ⟨ps, waits', hr⟩ := ih hm hx
      · exact hd.of_race h hF hm hx
      · exact hr.of_race h hF hm hx
  | all entry pending hms ih =>
    have h := Shows.all entry pending hms
    rcases List.mem_cons.1 hx with rfl | hx
    · cases entry.symm.trans hw
      exact hl.elim
    · obtain ⟨slot, m, hm, hx⟩ := exists_slot_of_mem hx
      obtain ⟨result, r, ps, waits', hd⟩ | ⟨ps, waits', hr⟩ :=
        ih hm (of_pending (pending_of_mem hx)).1 hx
      · exact hd.of_all h hF hm hx
      · exact hr.of_all h hF hm hx

end Waits

end SagaMachine
