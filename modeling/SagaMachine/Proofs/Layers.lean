import SagaMachine.Proofs.TreeTables

/-!
# Combinators under construction

While the members of a combinator are started one after the other, the combinator is a layer
(`Layer`): the trees of the members that were started, and the effects that follow the member at work.
Layers lie on each other, the innermost first.

What is left to be done is a function of the layers (`Layer.closeAll`): from what the start of the
member at work comes to, it makes what the start of the whole effect comes to. Each thing that can
happen to the member at work leaves the result as it is (`Layer.open_eq`, `Layer.close_next`,
`Layer.close_last`). The wait table has the entries of the layers and the trees of their members
(`Layer.Stand`).
-/

namespace SagaMachine

/-- The sorts of combinators. -/
inductive Combinator where
  | race (keys : Option (List String))
  | all

/-- A combinator of which one member is at work. -/
structure Layer where
  sort : Combinator
  id : EffectId
  /-- The members that were started before. -/
  started : List EffectTree
  /-- The members that come next. -/
  rest : List Effect

/-- What an effect comes to when others were triggered before it. -/
def Launch.after (issued : List Issue) (m : Launch) : Launch := { m with issued := issued ++ m.issued }

/-- How the machine is told of what was started. -/
def EffectTree.start : EffectTree → Start
  | settled signal => .immediate signal
  | leaf id | race id _ _ | all id _ => .pending id

namespace Layer

/-- The combinator in the instructions of the machine. -/
def nest (l : Layer) : Nest :=
  match l.sort with
  | .race _ => .race l.id l.started.length l.rest
  | .all => .all l.id l.started.length l.rest

/-- Where its members report. -/
def linkAt (l : Layer) (slot : Nat) : Link :=
  match l.sort with
  | .race _ => .race l.id slot
  | .all => .all l.id slot

/-- The combinator in the wait table. -/
def kind (l : Layer) : WaitKind :=
  match l.sort with
  | .race keys => .race keys
      (l.started.map EffectTree.root? ++ List.replicate (l.rest.length + 1) none)
  | .all => .all (l.started.map EffectTree.value? ++ List.replicate (l.rest.length + 1) none)
      (l.started.map EffectTree.root? ++ List.replicate (l.rest.length + 1) none)
      ((l.started.map EffectTree.value?).countP (·.isNone) + (l.rest.length + 1))

/-- The member at work was started, and others follow. -/
def next (l : Layer) (tree : EffectTree) (rest : List Effect) : Layer :=
  { l with started := l.started ++ [tree], rest }

/-- The combinator in the wait table once the member at work has its slot. -/
def filled (l : Layer) (tree : EffectTree) : WaitKind :=
  match l.sort with
  | .race keys => .race keys
      ((l.started ++ [tree]).map EffectTree.root? ++ List.replicate l.rest.length none)
  | .all => .all ((l.started ++ [tree]).map EffectTree.value? ++ List.replicate l.rest.length none)
      ((l.started ++ [tree]).map EffectTree.root? ++ List.replicate l.rest.length none)
      (((l.started ++ [tree]).map EffectTree.value?).countP (·.isNone) + l.rest.length)

/-- What the combinator comes to with its further members. -/
def treeWith (l : Layer) (trees : List EffectTree) : EffectTree :=
  l.kind.ofMembers l.id (l.started ++ trees)

section

variable (answers : EffectId → Option Signal)

/-- What the start of a combinator comes to, after that of its member at work. -/
def close (l : Layer) (m : Launch) : Launch :=
  if l.kind.decides m.tree then ⟨l.treeWith [m.tree], m.next, m.issued⟩
  else
    let r := Effect.launchEach answers l.kind.decides l.id m.next l.rest
    ⟨l.treeWith (m.tree :: r.trees), r.next, m.issued ++ r.issued⟩

/-- What the start of the outermost combinator comes to, after that of the member at work. -/
def closeAll (ls : List Layer) (m : Launch) : Launch :=
  ls.foldl (fun m l => l.close answers m) m

end

variable {answers : EffectId → Option Signal} {l : Layer} {ls : List Layer} {tree : EffectTree}
  {n : EffectId} {issued : List Issue} {e e₀ : Effect} {es : List Effect} {kind : WaitKind}
  {parent : Option EffectId}

theorem decides_next (l : Layer) (tree : EffectTree) (rest : List Effect) :
    (l.next tree rest).kind.decides = l.kind.decides := by
  obtain ⟨sort, id, started, rest⟩ := l
  cases sort <;> rfl

theorem treeWith_next (hr : l.rest = e :: es) (trees : List EffectTree) :
    (l.next tree es).treeWith trees = l.treeWith (tree :: trees) := by
  obtain ⟨sort, id, started, rest⟩ := l
  subst hr
  cases sort <;>
    simp [treeWith, next, Layer.kind, WaitKind.ofMembers, Nat.add_assoc, Nat.add_comm]

/-- A combinator is opened: its first member is at work. -/
theorem exists_open (he : e.fan? = some (kind, e₀, es)) (n : EffectId) : ∃ sort,
    (Layer.mk sort n [] es).kind = kind ∧ (Layer.mk sort n [] es).nest = kind.nest n es := by
  cases e with
  | race members =>
    simp only [Effect.fan?] at he
    split at he
    · simp only [Option.some.injEq, Prod.mk.injEq] at he
      obtain ⟨rfl, rfl, rfl⟩ := he
      exact ⟨.race (some (members.map Prod.fst)), by simp [Layer.kind, List.replicate_succ], rfl⟩
    · cases he
  | racePositional members =>
    cases members with
    | nil => cases he
    | cons m ms =>
      cases he
      exact ⟨.race none, by simp [Layer.kind, List.replicate_succ], rfl⟩
  | all members =>
    cases members with
    | nil => cases he
    | cons m ms =>
      cases he
      exact ⟨.all, by simp [Layer.kind, List.replicate_succ], rfl⟩
  | _ => cases he

/-- To start a combinator is to start its first member, and to go on from there. -/
theorem open_eq {sort : Combinator} (he : e.fan? = some (kind, e₀, es))
    (hk : (Layer.mk sort n [] es).kind = kind) (issued : List Issue) :
    (e.launch answers parent n).after issued = (Layer.mk sort n [] es).close answers
      ((e₀.launch answers (some n) (n + 1)).after (issued ++ [(n, parent, e)])) := by
  rw [Effect.launch_fan he, close]
  simp only [hk, treeWith, Launch.after, List.nil_append, Effect.launchEach]
  split <;> simp

theorem close_decided (hd : l.kind.decides tree = true) (n : EffectId) (issued : List Issue) :
    l.close answers ⟨tree, n, issued⟩ = ⟨l.treeWith [tree], n, issued⟩ := if_pos hd

/-- With its last member a combinator is started. -/
theorem close_last (hr : l.rest = []) (tree : EffectTree) (n : EffectId) (issued : List Issue) :
    l.close answers ⟨tree, n, issued⟩ = ⟨l.treeWith [tree], n, issued⟩ := by
  rw [close]
  split
  · rfl
  · simp [hr, Effect.launchEach]

/-- A member that does not decide its combinator is followed by the next one. -/
theorem close_next (hd : l.kind.decides tree = false) (hr : l.rest = e :: es) (n : EffectId)
    (issued : List Issue) : l.close answers ⟨tree, n, issued⟩ =
      (l.next tree es).close answers ((e.launch answers (some l.id) n).after issued) := by
  have hid : (l.next tree es).id = l.id := rfl
  have hrest : (l.next tree es).rest = es := rfl
  simp only [close, hd, decides_next, treeWith_next hr, Launch.after, hr, Effect.launchEach, hid,
    hrest, Bool.false_eq_true, if_false]
  split <;> simp

/-! ## In the wait table -/

/-- The effects of some layers that are pending. -/
def ids (ls : List Layer) : List EffectId := ls.flatMap fun l => l.id :: EffectTree.idsEach l.started

/-- A layer is in the wait table: none of its members has decided it. -/
structure Stands (waits : Waits) (t : TaskId) (link : Link) (l : Layer) : Prop where
  entry : waits.get? l.id = some ⟨t, link, l.kind⟩
  waiting : ∀ m ∈ l.started, l.kind.decides m = false
  shown : ∀ {slot m}, l.started[slot]? = some m → m.signal? = none → waits.Shows t (l.linkAt slot) m
  later : ∀ y ∈ EffectTree.idsEach l.started, l.id < y

/-- The layers of a task are in the wait table. -/
def Stand (waits : Waits) (t : TaskId) : List Layer → Prop
  | [] => True
  | l :: ls => l.Stands waits t (Nest.link (ls.map nest)) ∧ (∀ y ∈ ids ls, y < l.id) ∧ Stand waits t ls

variable {waits waits' : Waits} {t : TaskId} {link : Link} {y : EffectId}

theorem nest_id (l : Layer) : l.nest.id = l.id := by
  obtain ⟨sort, id, started, rest⟩ := l
  cases sort <;> rfl

theorem link_nest (l : Layer) (nests : List Nest) :
    Nest.link (l.nest :: nests) = l.linkAt l.started.length := by
  obtain ⟨sort, id, started, rest⟩ := l
  cases sort <;> rfl

theorem parent?_linkAt (l : Layer) (slot : Nat) : (l.linkAt slot).parent? = some l.id := by
  obtain ⟨sort, id, started, rest⟩ := l
  cases sort <;> rfl

theorem not_isLeaf (l : Layer) : ¬ l.kind.IsLeaf := by
  obtain ⟨sort, id, started, rest⟩ := l
  cases sort <;> exact not_false

theorem mem_ids_cons : y ∈ ids (l :: ls) ↔
    y = l.id ∨ y ∈ EffectTree.idsEach l.started ∨ y ∈ ids ls := by
  simp [ids]

/-- What is pending does not decide its combinator. -/
theorem decides_pending (l : Layer) (h : tree.signal? = none) : l.kind.decides tree = false := by
  obtain ⟨sort, id, started, rest⟩ := l
  cases sort with
  | race => simp [Layer.kind, WaitKind.decides, h]
  | all => simp [Layer.kind, WaitKind.decides, (EffectTree.of_pending h).2.1]

theorem Stands.congr (h : l.Stands waits t link)
    (hk : ∀ y, y = l.id ∨ y ∈ EffectTree.idsEach l.started → waits'.get? y = waits.get? y) :
    l.Stands waits' t link where
  entry := (hk _ (Or.inl rfl)).trans h.entry
  waiting := h.waiting
  shown hs hm := (h.shown hs hm).congr fun y hy =>
    hk y (Or.inr (EffectTree.mem_idsEach_of_slot hs hy))
  later := h.later

/-- Only the entries of the layers matter. -/
theorem Stand.congr (h : Stand waits t ls) (hk : ∀ y ∈ ids ls, waits'.get? y = waits.get? y) :
    Stand waits' t ls := by
  induction ls with
  | nil => trivial
  | cons l ls ih =>
    obtain ⟨hl, hlt, hls⟩ := h
    refine ⟨hl.congr fun y hy => hk y (mem_ids_cons.2 ?_), hlt, ih hls fun y hy => ?_⟩
    · exact hy.imp_right Or.inl
    · exact hk y (mem_ids_cons.2 (Or.inr (Or.inr hy)))

/-- Every effect of the layers has its entry. -/
theorem Stand.place (h : Stand waits t ls) (hy : y ∈ ids ls) :
    ∃ w, waits.get? y = some w ∧ w.task = t := by
  induction ls with
  | nil => cases hy
  | cons l ls ih =>
    obtain ⟨hl, -, hls⟩ := h
    rcases mem_ids_cons.1 hy with rfl | hy | hy
    · exact ⟨_, hl.entry, rfl⟩
    · obtain ⟨slot, m, hs, hym⟩ := EffectTree.exists_slot_of_mem hy
      obtain ⟨w, hw, ht, -⟩ := (hl.shown hs (EffectTree.pending_of_mem hym)).place hym
      exact ⟨w, hw, ht⟩
    · exact ih hls hy

/-! ## The member at work gets its slot -/

theorem kind_next (hr : l.rest = e :: es) : (l.next tree es).kind = l.filled tree := by
  obtain ⟨sort, id, started, rest⟩ := l
  subst hr
  cases sort <;> rfl

/-- A pending member is noted in its slot. -/
theorem setMember_kind (l : Layer) {r : EffectId} (hr : tree.root? = some r)
    (hv : tree.value? = none) : l.kind.setMember l.started.length r = l.filled tree := by
  obtain ⟨sort, id, started, rest⟩ := l
  have hroots := Nest.Fits.set_append_replicate (started.map EffectTree.root?) rest.length (some r) none
  rw [List.length_map] at hroots
  cases sort with
  | race keys => simp [Layer.kind, filled, WaitKind.setMember, hroots, hr]
  | all =>
    have hcount : (started.map EffectTree.value?).countP (·.isNone) + (rest.length + 1) =
        ((started ++ [tree]).map EffectTree.value?).countP (·.isNone) + rest.length := by
      simp [hv]
      omega
    simp only [Layer.kind, filled, WaitKind.setMember, hroots, hcount]
    simp [hr, hv, List.replicate_succ]

/-- The value of a member is noted in its slot. -/
theorem get?_merge (hs : l.sort = .all) (h : waits.get? l.id = some ⟨t, link, l.kind⟩) (v : Value)
    (y : EffectId) : (waits.merge l.id l.started.length (.value v)).2.get? y =
      if y = l.id then some ⟨t, link, l.filled (.settled (.value v))⟩ else waits.get? y := by
  obtain ⟨sort, id, started, rest⟩ := l
  subst hs
  have hvalues := Nest.Fits.set_append_replicate (started.map EffectTree.value?) rest.length (some v) none
  have hroots := Nest.Fits.set_append_replicate (started.map EffectTree.root?) rest.length none none
  rw [List.length_map] at hvalues hroots
  obtain ⟨kind, hmerge, hkind, -⟩ := Waits.merge_eq h rfl started.length (.value v)
  rw [hmerge, Table.get?_modify, h]
  split
  · subst hkind
    simp [filled, hvalues, hroots, EffectTree.value?, EffectTree.root?]
  · rfl

section

variable (h : Stand waits t (l :: ls))
include h

/-- What is below is not concerned. -/
theorem Stand.tail (hk : ∀ y, y < l.id → waits'.get? y = waits.get? y) : Stand waits' t ls :=
  h.2.2.congr fun y hy => hk y (h.2.1 y hy)

variable (hd : l.kind.decides tree = false) (hlater : ∀ y ∈ tree.ids, l.id < y)
  (hshow : tree.signal? = none → waits.Shows t (l.linkAt l.started.length) tree)
  (hk : ∀ y, waits'.get? y =
    if y = l.id then some ⟨t, Nest.link (ls.map nest), l.filled tree⟩ else waits.get? y)
include hlater hshow hk

/-- All members so far are in the table. -/
theorem Stand.shown {slot : Nat} {m : EffectTree} (hs : (l.started ++ [tree])[slot]? = some m)
    (hm : m.signal? = none) : waits'.Shows t (l.linkAt slot) m := by
  have hother : ∀ y, l.id < y → waits'.get? y = waits.get? y := fun y hy => by
    rw [hk, if_neg (Nat.ne_of_gt hy)]
  rw [List.getElem?_append] at hs
  split at hs
  · exact (h.1.shown hs hm).congr fun y hy =>
      hother y (h.1.later y (EffectTree.mem_idsEach_of_slot hs hy))
  · rename_i hlt
    obtain ⟨hslot, rfl⟩ : slot - l.started.length = 0 ∧ tree = m := by
      rw [List.getElem?_singleton] at hs
      split at hs
      · exact ⟨‹_›, Option.some.inj hs⟩
      · cases hs
    obtain rfl : slot = l.started.length := by omega
    exact (hshow hm).congr fun y hy => hother y (hlater y hy)

include hd

/-- The next member is at work. -/
theorem Stand.next (hr : l.rest = e :: es) : Stand waits' t (l.next tree es :: ls) := by
  refine ⟨⟨?_, ?_, fun hs hm => ?_, ?_⟩, h.2.1, h.tail fun y hy => ?_⟩
  · rw [kind_next hr]
    exact (hk _).trans (if_pos rfl)
  · rw [decides_next]
    intro m hm
    rcases List.mem_append.1 hm with hm | hm
    · exact h.1.waiting m hm
    · rwa [List.mem_singleton.1 hm]
  · have hlink : (l.next tree es).linkAt = l.linkAt := rfl
    rw [hlink]
    exact h.shown hlater hshow hk hs hm
  · intro y hy
    obtain ⟨m, hm, hy⟩ := EffectTree.mem_idsEach.1 hy
    rcases List.mem_append.1 hm with hm | hm
    · exact h.1.later y (EffectTree.mem_idsEach.2 ⟨m, hm, hy⟩)
    · exact hlater y (List.mem_singleton.1 hm ▸ hy)
  · rw [hk, if_neg (Nat.ne_of_lt hy)]

/-- The last member was started, and the combinator is pending. -/
theorem Stand.shows (hr : l.rest = []) (hp : (l.treeWith [tree]).signal? = none) :
    waits'.Shows t (Nest.link (ls.map nest)) (l.treeWith [tree]) ∧
      (l.treeWith [tree]).start = .pending l.id := by
  have hshown : ∀ {slot : Nat} {m : EffectTree}, (l.started ++ [tree])[slot]? = some m →
      m.signal? = none → waits'.Shows t (l.linkAt slot) m := fun hs hm =>
    h.shown hlater hshow hk hs hm
  have hentry := (hk l.id).trans (if_pos rfl)
  have hwait : ∀ m ∈ l.started ++ [tree], l.kind.decides m = false := fun m hm => by
    rcases List.mem_append.1 hm with hm | hm
    · exact h.1.waiting m hm
    · rwa [List.mem_singleton.1 hm]
  obtain ⟨sort, id, started, rest⟩ := l
  subst hr
  cases sort with
  | race keys =>
    have hpending : ∀ m ∈ started ++ [tree], m.signal? = none := fun m hm => by
      simpa [Layer.kind, WaitKind.decides] using hwait m hm
    have htree : (Layer.mk (.race keys) id started []).treeWith [tree] =
        .race id keys (started ++ [tree]) := EffectTree.ofRace_pending hpending
    rw [htree]
    refine ⟨.race ?_ (by simp) fun hs => hshown hs (hpending _ (List.mem_of_getElem? hs)), rfl⟩
    simpa [filled] using hentry
  | all =>
    have hfail : ∀ m ∈ started ++ [tree], m.failure? = none := fun m hm => by
      simpa [Layer.kind, WaitKind.decides] using hwait m hm
    have hmissing : ∃ m ∈ started ++ [tree], m.value? = none := by
      by_contra hno
      have htree : (Layer.mk .all id started []).treeWith [tree] = .settled _ :=
        EffectTree.ofAll_complete fun m hm hv => hno ⟨m, hm, hv⟩
      rw [htree] at hp
      cases hp
    have htree : (Layer.mk .all id started []).treeWith [tree] = .all id (started ++ [tree]) :=
      EffectTree.ofAll_pending hfail hmissing
    rw [htree]
    refine ⟨.all ?_ hmissing fun hs hv => ?_, rfl⟩
    · simpa [filled] using hentry
    · exact hshown hs (EffectTree.signal?_of_value hv (hfail _ (List.mem_of_getElem? hs)))

end

/-! ## What decides a combinator -/

/-- Once no value is missing an `all` has come to what the machine collects. -/
theorem treeWith_complete (hs : l.sort = .all) (hr : l.rest = [])
    {results : List (Option Value)} {members : List (Option EffectId)}
    (hz : l.filled tree = .all results members 0) :
    l.treeWith [tree] = .settled (Waits.collect (l.filled tree)) := by
  obtain ⟨sort, id, started, rest⟩ := l
  subst hs hr
  have hcount : ((started ++ [tree]).map EffectTree.value?).countP (·.isNone) = 0 := by
    simpa using (WaitKind.all.inj hz).2.2
  have hvalues : ∀ m ∈ started ++ [tree], m.value? ≠ none := fun m hm hv =>
    List.countP_eq_zero.1 hcount none (hv ▸ List.mem_map_of_mem hm) rfl
  refine (EffectTree.ofAll_complete hvalues).trans ?_
  simp [filled, Waits.collect]

/-- While a value is missing an `all` is pending. -/
theorem pending_of_missing (hs : l.sort = .all) (hw : ∀ m ∈ l.started, l.kind.decides m = false)
    (hd : l.kind.decides tree = false) (hr : l.rest = [])
    (hz : ∀ results members, l.filled tree ≠ .all results members 0) :
    (l.treeWith [tree]).signal? = none := by
  obtain ⟨sort, id, started, rest⟩ := l
  subst hs hr
  have hfail : ∀ m ∈ started ++ [tree], m.failure? = none := fun m hm => by
    rcases List.mem_append.1 hm with hm | hm
    · simpa [Layer.kind, WaitKind.decides] using hw m hm
    · rw [List.mem_singleton.1 hm]
      simpa [Layer.kind, WaitKind.decides] using hd
  have hmissing : ∃ m ∈ started ++ [tree], m.value? = none := by
    by_contra hno
    refine hz _ _ (congrArg (WaitKind.all _ _) (List.countP_eq_zero.2 fun o ho => ?_))
    obtain ⟨m, hm, rfl⟩ := List.mem_map.1 ho
    simpa using fun hv => hno ⟨m, hm, hv⟩
  have htree : (Layer.mk .all id started []).treeWith [tree] = .all id (started ++ [tree]) :=
    EffectTree.ofAll_pending hfail hmissing
  rw [htree]
  rfl

/-- A member that has settled decides its race. -/
theorem treeWith_race {keys : Option (List String)} (hs : l.sort = .race keys)
    (hw : ∀ m ∈ l.started, l.kind.decides m = false) (waits : Waits) (signal : Signal) :
    l.treeWith [.settled signal] =
      .settled (waits.closeRace l.kind l.started.length signal).1 := by
  obtain ⟨sort, id, started, rest⟩ := l
  subst hs
  have hpending : ∀ m ∈ started, m.signal? = none := fun m hm => by
    simpa [Layer.kind, WaitKind.decides] using hw m hm
  refine (EffectTree.ofRace_append hpending signal []).trans ?_
  rw [EffectTree.crown_eq]
  rfl

/-- A member that has failed decides its `all`. -/
theorem treeWith_all (hs : l.sort = .all) (hw : ∀ m ∈ l.started, l.kind.decides m = false)
    {signal : Signal} (hf : (EffectTree.settled signal).failure? = some signal) :
    l.treeWith [.settled signal] = .settled signal := by
  obtain ⟨sort, id, started, rest⟩ := l
  subst hs
  refine EffectTree.ofAll_append (fun m hm => ?_) hf []
  simpa [Layer.kind, WaitKind.decides] using hw m hm

/-- The effects of the tree are the combinator and those of its members. -/
theorem mem_treeWith (hy : y ∈ (l.treeWith [tree]).ids) :
    y = l.id ∨ y ∈ EffectTree.idsEach l.started ∨ y ∈ tree.ids := by
  have hmembers : y ∈ l.id :: EffectTree.idsEach (l.started ++ [tree]) := by
    obtain ⟨sort, id, started, rest⟩ := l
    cases sort with
    | race keys =>
      simp only [treeWith, Layer.kind, WaitKind.ofMembers, EffectTree.ofRace] at hy
      split at hy
      · cases hy
      · exact hy
    | all =>
      simp only [treeWith, Layer.kind, WaitKind.ofMembers, EffectTree.ofAll] at hy
      split at hy
      · cases hy
      · split at hy
        · cases hy
        · exact hy
  rcases List.mem_cons.1 hmembers with hy | hy
  · exact Or.inl hy
  · obtain ⟨m, hm, hym⟩ := EffectTree.mem_idsEach.1 hy
    rcases List.mem_append.1 hm with hm | hm
    · exact Or.inr (Or.inl (EffectTree.mem_idsEach.2 ⟨m, hm, hym⟩))
    · exact Or.inr (Or.inr (List.mem_singleton.1 hm ▸ hym))

end Layer

end SagaMachine
