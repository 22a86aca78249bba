import SagaMachine.Tasks

/-!
# Subtrees of the task tree

The walk that lists what a cancellation tears down works on a table from which the tasks
that it has entered are taken out. Where the children of live tasks form a forest
(`Tasks.Family`) it lists the live tasks below its root (`Tasks.Below`), each of them once
and after everything below it.

Main statements: `Tasks.mem_cancellationOrder`, `Tasks.pairwise_cancellationOrder`.
-/

namespace SagaMachine.Tasks

/-- A task that is reached from `root` through live children. -/
inductive Below (tasks : Tasks) (root : TaskId) : TaskId → Prop
  | root (h : tasks.isLive root = true) : Below tasks root root
  | child {v u : TaskId} {n : TaskNode} (h : Below tasks root v) (hv : tasks.get? v = some n)
      (hu : u ∈ n.children) (hl : tasks.isLive u = true) : Below tasks root u

/-- Children of live tasks have the number of their parent, and a greater one themselves. -/
structure Family (tasks : Tasks) : Prop where
  nodup : ∀ {t n}, tasks.get? t = some n → n.status.isTerminal = false → n.children.Nodup
  child : ∀ {t n c m}, tasks.get? t = some n → n.status.isTerminal = false → c ∈ n.children →
    tasks.get? c = some m → t < c ∧ m.parent = some t

/-- Take several tasks out of the table. -/
def dropAll (tasks : Tasks) (ids : List TaskId) : Tasks :=
  ⟨tasks.entries.filter fun e => e.1 ∉ ids⟩

variable {tasks : Tasks} {t u v a b c d root : TaskId} {n m : TaskNode}

theorem isLive_iff : tasks.isLive t = true ↔ ∃ n, tasks.get? t = some n ∧ n.status.isTerminal = false := by
  unfold isLive
  cases tasks.get? t <;> simp

/-! ## What the walk lists, whatever the table -/

/-- What is on the stack of a walk is listed. -/
theorem mem_walk_of_mem {visits : List Visit} (h : .enter u ∈ visits ∨ .leave u ∈ visits) :
    u ∈ walk tasks visits := by
  fun_induction walk tasks visits with
  | case1 => simp at h
  | case2 tasks id rest ih =>
    simp only [List.mem_cons, reduceCtorEq, false_or, Visit.leave.injEq] at h ⊢
    rcases h with h | rfl | h
    · exact Or.inr (ih (Or.inl h))
    · exact Or.inl rfl
    · exact Or.inr (ih (Or.inr h))
  | case3 tasks id rest hn ih =>
    simp only [List.mem_cons, reduceCtorEq, false_or, Visit.enter.injEq] at h ⊢
    rcases h with (rfl | h) | h
    · exact Or.inl rfl
    · exact Or.inr (ih (Or.inl h))
    · exact Or.inr (ih (Or.inr h))
  | case4 tasks id rest n hn children ih =>
    simp only [List.mem_cons, reduceCtorEq, false_or, Visit.enter.injEq] at h
    refine ih ?_
    simp only [List.mem_append, List.mem_cons, Visit.leave.injEq]
    rcases h with (rfl | h) | h
    · exact Or.inr (Or.inr (Or.inl rfl))
    · exact Or.inl (Or.inr (Or.inr h))
    · exact Or.inr (Or.inr (Or.inr h))

/-- The live children of what a walk enters are listed as well. -/
theorem mem_walk_of_child {visits : List Visit}
    (hv : ∀ u, .leave u ∈ visits → tasks.get? u = none) (hu : u ∈ walk tasks visits)
    (hn : tasks.get? u = some n) (hc : c ∈ n.children) (hl : tasks.isLive c = true) :
    c ∈ walk tasks visits := by
  fun_induction walk tasks visits with
  | case1 => cases hu
  | case2 tasks id rest ih =>
    rcases List.mem_cons.1 hu with rfl | hu
    · rw [hv u List.mem_cons_self] at hn
      cases hn
    · exact List.mem_cons_of_mem _
        (ih (fun v hm => hv v (List.mem_cons_of_mem _ hm)) hu hn hl)
  | case3 tasks id rest hid ih =>
    rcases List.mem_cons.1 hu with rfl | hu
    · rw [hid] at hn
      cases hn
    · exact List.mem_cons_of_mem _
        (ih (fun v hm => hv v (List.mem_cons_of_mem _ hm)) hu hn hl)
  | case4 tasks id rest node hid children ih =>
    by_cases hcid : c = id
    · subst hcid
      exact mem_walk_of_mem (Or.inr (List.mem_append_right _ List.mem_cons_self))
    have hl' : isLive (tasks.erase id) c = true := by
      obtain ⟨m, hm, hlm⟩ := isLive_iff.1 hl
      exact isLive_iff.2 ⟨m, by simpa [hcid] using hm, hlm⟩
    by_cases huid : u = id
    · subst huid
      rw [hid] at hn
      cases hn
      refine mem_walk_of_mem (Or.inl (List.mem_append_left _ (List.mem_map_of_mem ?_)))
      exact List.mem_filter.2 ⟨hc, hl⟩
    · refine ih ?_ hu (by simpa [huid] using hn) hl'
      intro v hm
      simp only [List.mem_append, List.mem_map, reduceCtorEq, and_false, exists_false,
        List.mem_cons, Visit.leave.injEq, false_or] at hm
      rcases hm with rfl | hm
      · simp
      · simp [hv v (List.mem_cons_of_mem _ hm)]

/-! ## Tasks below others -/

namespace Below

theorem isLive (h : tasks.Below root u) : tasks.isLive u = true := by
  cases h with
  | root h => exact h
  | child _ _ _ hl => exact hl

theorem trans (h : tasks.Below a b) (h' : tasks.Below b c) : tasks.Below a c := by
  induction h' with
  | root => exact h
  | child _ hv hu hl ih => exact ih.child hv hu hl

theorem isLive_root (h : tasks.Below root u) : tasks.isLive root = true := by
  induction h with
  | root h => exact h
  | child _ _ _ _ ih => exact ih

/-- The step into a child, seen from the child. -/
theorem parent (hF : tasks.Family) (h : tasks.Below root v) (hv : tasks.get? v = some n)
    (hu : u ∈ n.children) (hm : tasks.get? u = some m) : v < u ∧ m.parent = some v := by
  obtain ⟨n', hn', hl⟩ := isLive_iff.1 h.isLive
  rw [hv] at hn'
  cases hn'
  exact hF.child hv hl hu hm

/-- The parent of a task below a root is below it too, unless the task is the root. -/
theorem of_parent (hF : tasks.Family) (h : tasks.Below root u) (hu : u ≠ root)
    (hm : tasks.get? u = some m) (hp : m.parent = some v) : tasks.Below root v := by
  cases h with
  | root => exact absurd rfl hu
  | child h hn hc _ =>
    have hpar := (h.parent hF hn hc hm).2
    rw [hp] at hpar
    cases hpar
    exact h

theorem le (hF : tasks.Family) (h : tasks.Below root u) : root ≤ u := by
  induction h with
  | root => exact Nat.le_refl _
  | child h hv hu hl ih =>
    obtain ⟨m, hm, -⟩ := isLive_iff.1 hl
    exact Nat.le_trans ih (Nat.le_of_lt (h.parent hF hv hu hm).1)

/-- What two tasks have in common below them is below one of them only through the other. -/
theorem linear (hF : tasks.Family) (ha : tasks.Below a u) (hb : tasks.Below b u) :
    tasks.Below a b ∨ tasks.Below b a := by
  induction ha with
  | root => exact Or.inr hb
  | child h hv hu hl ih =>
    cases hb with
    | root => exact Or.inl (h.child hv hu hl)
    | child h' hv' hu' _ =>
      obtain ⟨m, hm, -⟩ := isLive_iff.1 hl
      have hp := (h.parent hF hv hu hm).2
      rw [(h'.parent hF hv' hu' hm).2] at hp
      cases hp
      exact ih h'

theorem eq_or_child (h : tasks.Below root u) :
    u = root ∨ ∃ n c, tasks.get? root = some n ∧ c ∈ n.children ∧ tasks.isLive c = true ∧
      tasks.Below c u := by
  induction h with
  | root => exact Or.inl rfl
  | child h hv hu hl ih =>
    right
    rcases ih with rfl | ⟨n, c, hn, hc, hlc, hb⟩
    · exact ⟨_, _, hv, hu, hl, .root hl⟩
    · exact ⟨n, c, hn, hc, hlc, hb.child hv hu hl⟩

/-- Two children of one task have nothing in common below them. -/
theorem not_sibling (hF : tasks.Family) (hn : tasks.get? root = some n)
    (hlr : tasks.isLive root = true) (ha : a ∈ n.children) (hb : b ∈ n.children) (hne : a ≠ b) :
    ¬ tasks.Below a b := by
  intro h
  have hr : tasks.Below root root := .root hlr
  cases h with
  | root => exact hne rfl
  | child h' hv hu hl =>
    obtain ⟨m, hm, -⟩ := isLive_iff.1 hl
    have hp := (h'.parent hF hv hu hm).2
    rw [(hr.parent hF hn hb hm).2] at hp
    cases hp
    obtain ⟨ma, hma, -⟩ := isLive_iff.1 h'.isLive_root
    exact absurd (h'.le hF) (Nat.not_le_of_lt (hr.parent hF hn ha hma).1)

end Below

/-! ## Tables without some tasks -/

theorem get?_dropAll (tasks : Tasks) (ids : List TaskId) (u : TaskId) :
    (tasks.dropAll ids).get? u = if u ∈ ids then none else tasks.get? u := by
  simp only [dropAll, Table.get?, List.find?_filter]
  by_cases hu : u ∈ ids
  · simp only [hu, if_true, Option.map_eq_none_iff, List.find?_eq_none]
    rintro e -
    by_cases he : e.1 = u <;> simp [he, hu]
  · simp only [hu, if_false]
    congr 2
    funext e
    by_cases he : e.1 = u <;> simp [he, hu]

theorem dropAll_nil (tasks : Tasks) : tasks.dropAll [] = tasks := by
  obtain ⟨entries⟩ := tasks
  simp [dropAll]

theorem erase_eq_dropAll (tasks : Tasks) (u : TaskId) : tasks.erase u = tasks.dropAll [u] := by
  simp [dropAll, Table.erase]

theorem dropAll_dropAll (tasks : Tasks) (ids ids' : List TaskId) :
    (tasks.dropAll ids).dropAll ids' = tasks.dropAll (ids ++ ids') := by
  simp only [dropAll, List.filter_filter]
  congr 2
  funext e
  simp [Bool.and_comm]

theorem size_dropAll_le (tasks : Tasks) (ids : List TaskId) :
    (tasks.dropAll ids).size ≤ tasks.size :=
  List.length_filter_le _ _

theorem isLive_dropAll {ids : List TaskId} :
    (tasks.dropAll ids).isLive u = true ↔ u ∉ ids ∧ tasks.isLive u = true := by
  rw [isLive_iff, isLive_iff, get?_dropAll]
  by_cases hu : u ∈ ids <;> simp [hu]

theorem Family.dropAll (hF : tasks.Family) (ids : List TaskId) : (tasks.dropAll ids).Family where
  nodup {t n} hn hl := by
    rw [get?_dropAll] at hn
    split at hn
    · cases hn
    · exact hF.nodup hn hl
  child {t n c m} hn hl hc hm := by
    rw [get?_dropAll] at hn hm
    split at hn
    · cases hn
    · split at hm
      · cases hm
      · exact hF.child hn hl hc hm

theorem Below.of_dropAll {ids : List TaskId} (h : (tasks.dropAll ids).Below root u) :
    tasks.Below root u := by
  induction h with
  | root h => exact .root (isLive_dropAll.1 h).2
  | child _ hv hu hl ih =>
    rw [get?_dropAll] at hv
    split at hv
    · cases hv
    · exact ih.child hv hu (isLive_dropAll.1 hl).2

theorem Below.dropAll {ids : List TaskId} (h : tasks.Below root u)
    (hids : ∀ v ∈ ids, ¬ tasks.Below root v) : (tasks.dropAll ids).Below root u := by
  induction h with
  | root h => exact .root (isLive_dropAll.2 ⟨fun hm => hids _ hm (.root h), h⟩)
  | child h hv hu hl ih =>
    refine ih.child ?_ hu (isLive_dropAll.2 ⟨fun hm => hids _ hm (h.child hv hu hl), hl⟩)
    rw [get?_dropAll, if_neg fun hm => hids _ hm h]
    exact hv

/-! ## The walk over a forest -/

/-- Two subtrees neither of which is in the other have nobody in common. -/
theorem Below.apart (hF : tasks.Family) (hc : ¬ tasks.Below c d ∧ ¬ tasks.Below d c)
    (hu : tasks.Below c u) : ¬ tasks.Below d u := fun h =>
  (hu.linear hF h).elim hc.1 hc.2

/-- The live children of a live task are younger, and apart from each other. -/
theorem mem_liveChildren (hF : tasks.Family) (hn : tasks.get? c = some n)
    (hlc : tasks.isLive c = true) (hd : d ∈ n.children.filter fun d => tasks.isLive d) :
    d ∈ n.children ∧ c < d ∧ tasks.isLive d = true := by
  obtain ⟨hd, hld⟩ := List.mem_filter.1 hd
  obtain ⟨m, hm, -⟩ := isLive_iff.1 hld
  exact ⟨hd, ((Below.root hlc).parent hF hn hd hm).1, hld⟩

/-- What is below the live children of a task, seen without the task, is what is below the task. -/
theorem below_liveChildren (hF : tasks.Family) (hn : tasks.get? c = some n)
    (hlc : tasks.isLive c = true) :
    (∃ d ∈ n.children.filter fun d => tasks.isLive d, (tasks.dropAll [c]).Below d u) ↔
      u ≠ c ∧ tasks.Below c u := by
  constructor
  · rintro ⟨d, hd, h⟩
    obtain ⟨hdn, hcd, hld⟩ := mem_liveChildren hF hn hlc hd
    have h := h.of_dropAll
    exact ⟨Nat.ne_of_gt (Nat.lt_of_lt_of_le hcd (h.le hF)), ((Below.root hlc).child hn hdn hld).trans h⟩
  · rintro ⟨hne, h⟩
    rcases h.eq_or_child with rfl | ⟨n', d, hn', hd, hld, h⟩
    · exact absurd rfl hne
    · cases hn.symm.trans hn'
      have hd' := List.mem_filter.2 ⟨hd, hld⟩
      refine ⟨d, hd', h.dropAll fun v hv hb => ?_⟩
      rw [List.mem_singleton.1 hv] at hb
      exact absurd (hb.le hF) (Nat.not_le_of_lt (mem_liveChildren hF hn hlc hd').2.1)

/--
Descendants stay first when a task follows those that are below it, and is followed by subtrees
that are apart from its own.
-/
theorem pairwise_enter (hF : tasks.Family) (hlc : tasks.isLive c = true) {cs ids₁ ids₂ : List TaskId}
    (hc : ∀ d ∈ cs, ¬ tasks.Below c d ∧ ¬ tasks.Below d c)
    (h₁ : ∀ {u}, u ∈ ids₁ → u ≠ c ∧ tasks.Below c u)
    (h₂ : ∀ {u}, u ∈ ids₂ → ∃ d ∈ cs, tasks.Below d u)
    (hp₁ : ids₁.Pairwise fun a b => ¬ tasks.Below a b)
    (hp₂ : ids₂.Pairwise fun a b => ¬ tasks.Below a b) :
    (ids₁ ++ c :: ids₂).Pairwise fun a b => ¬ tasks.Below a b := by
  have hfar : ∀ {a b}, tasks.Below c a → b ∈ ids₂ → ¬ tasks.Below a b := by
    intro a b ha hb h
    obtain ⟨d, hd, hdb⟩ := h₂ hb
    exact Below.apart hF (hc d hd) (ha.trans h) hdb
  refine List.pairwise_append.2 ⟨hp₁, List.pairwise_cons.2 ⟨fun b hb => hfar (.root hlc) hb, hp₂⟩, ?_⟩
  intro a ha b hb h
  obtain ⟨hne, hca⟩ := h₁ ha
  rcases List.mem_cons.1 hb with rfl | hb
  · exact hne (Nat.le_antisymm (h.le hF) (hca.le hF))
  · exact hfar hca hb h

/--
Where the walk enters tasks with disjoint subtrees, it lists what is below them, descendants
first, and goes on without them.
-/
theorem walk_enter (hF : tasks.Family) (cs : List TaskId) (visits : List Visit)
    (hl : ∀ c ∈ cs, tasks.isLive c = true)
    (hcs : cs.Pairwise fun a b => ¬ tasks.Below a b ∧ ¬ tasks.Below b a) :
    ∃ ids, walk tasks (cs.map .enter ++ visits) = ids ++ walk (tasks.dropAll ids) visits ∧
      (∀ u, u ∈ ids ↔ ∃ c ∈ cs, tasks.Below c u) ∧
      ids.Pairwise fun a b => ¬ tasks.Below a b := by
  induction hsize : tasks.size using Nat.strongRecOn generalizing tasks cs visits with
  | _ size ih =>
  cases cs with
  | nil => exact ⟨[], by simp [dropAll_nil], by simp, .nil⟩
  | cons c cs =>
    obtain ⟨hc, hcs⟩ := List.pairwise_cons.1 hcs
    have hlc := hl c List.mem_cons_self
    obtain ⟨n, hn, hln⟩ := isLive_iff.1 hlc
    have hlt : (tasks.dropAll [c]).size < size := by
      rw [← erase_eq_dropAll, ← hsize]
      exact Table.size_erase_lt hn
    -- the children come first, in a table without their parent
    obtain ⟨ids₁, hw₁, hm₁, hp₁⟩ := ih _ hlt (hF.dropAll [c])
      (n.children.filter fun d => tasks.isLive d)
      (.leave c :: (cs.map .enter ++ visits))
      (fun d hd => by
        obtain ⟨-, hcd, hld⟩ := mem_liveChildren hF hn hlc hd
        exact isLive_dropAll.2 ⟨by simpa using Nat.ne_of_gt hcd, hld⟩)
      (by
        refine List.Pairwise.imp_of_mem ?_ ((hF.nodup hn hln).filter _)
        intro d e hd he hne
        obtain ⟨hd, -⟩ := mem_liveChildren hF hn hlc hd
        obtain ⟨he, -⟩ := mem_liveChildren hF hn hlc he
        exact ⟨fun h => Below.not_sibling hF hn hlc hd he hne h.of_dropAll,
          fun h => Below.not_sibling hF hn hlc he hd hne.symm h.of_dropAll⟩)
      rfl
    have hbelow₁ : ∀ u, u ∈ ids₁ ↔ u ≠ c ∧ tasks.Below c u := fun u =>
      (hm₁ u).trans (below_liveChildren hF hn hlc)
    -- the other tasks come next, in a table without what is below the first
    have hgone : ∀ d ∈ cs, ∀ v ∈ c :: ids₁, ¬ tasks.Below d v := by
      intro d hd v hv
      refine Below.apart hF (hc d hd) ?_
      rcases List.mem_cons.1 hv with rfl | hv
      · exact .root hlc
      · exact ((hbelow₁ v).1 hv).2
    have hdrop : (tasks.dropAll [c]).dropAll ids₁ = tasks.dropAll (c :: ids₁) := by
      rw [dropAll_dropAll, List.singleton_append]
    obtain ⟨ids₂, hw₂, hm₂, hp₂⟩ := ih _
      (Nat.lt_of_le_of_lt (by rw [← hdrop]; exact size_dropAll_le _ _) hlt)
      (hF.dropAll (c :: ids₁)) cs visits
      (fun d hd => isLive_dropAll.2 ⟨fun hm => hgone d hd d hm
        (.root (hl d (List.mem_cons_of_mem _ hd))), hl d (List.mem_cons_of_mem _ hd)⟩)
      (hcs.imp fun h => ⟨fun h' => h.1 h'.of_dropAll, fun h' => h.2 h'.of_dropAll⟩) rfl
    have hbelow₂ : ∀ u, u ∈ ids₂ ↔ ∃ d ∈ cs, tasks.Below d u := by
      intro u
      rw [hm₂]
      constructor
      · rintro ⟨d, hd, h⟩
        exact ⟨d, hd, h.of_dropAll⟩
      · rintro ⟨d, hd, h⟩
        exact ⟨d, hd, h.dropAll (hgone d hd)⟩
    refine ⟨ids₁ ++ c :: ids₂, ?_, ?_, ?_⟩
    · have hdrop' : (tasks.dropAll (c :: ids₁)).dropAll ids₂ = tasks.dropAll (ids₁ ++ c :: ids₂) := by
        rw [dropAll_dropAll]
        simp only [dropAll]
        congr 2
        funext e
        simp [or_left_comm]
      rw [List.map_cons, List.cons_append, walk]
      split
      · rename_i hn'
        rw [hn] at hn'
        cases hn'
      · rename_i n' hn'
        rw [hn] at hn'
        cases hn'
        rw [erase_eq_dropAll, hw₁, walk, hdrop, hw₂, hdrop']
        simp
    · intro u
      rw [List.mem_append, List.mem_cons, hbelow₁, hbelow₂]
      constructor
      · rintro (⟨-, h⟩ | rfl | ⟨d, hd, h⟩)
        · exact ⟨c, List.mem_cons_self, h⟩
        · exact ⟨u, List.mem_cons_self, .root hlc⟩
        · exact ⟨d, List.mem_cons_of_mem _ hd, h⟩
      · rintro ⟨d, hd, h⟩
        rcases List.mem_cons.1 hd with rfl | hd
        · by_cases hu : u = d
          · exact Or.inr (Or.inl hu)
          · exact Or.inl ⟨hu, h⟩
        · exact Or.inr (Or.inr ⟨d, hd, h⟩)
    · -- what is below whom does not depend on who was taken out before
      refine pairwise_enter hF hlc hc (hbelow₁ _).1 (hbelow₂ _).1 (hp₁.imp_of_mem ?_)
        (hp₂.imp_of_mem ?_)
      · intro a b ha _ hab h
        refine hab (h.dropAll fun v hv hb => ?_)
        rw [List.mem_singleton.1 hv] at hb
        obtain ⟨hne, hca⟩ := (hbelow₁ a).1 ha
        exact hne (Nat.le_antisymm (hb.le hF) (hca.le hF))
      · intro a b ha _ hab h
        obtain ⟨d, hd, hda⟩ := (hbelow₂ a).1 ha
        exact hab (h.dropAll fun v hv hb => hgone d hd v hv (hda.trans hb))

section

variable (hF : tasks.Family) (hr : tasks.isLive root = true)
include hF hr

/-- A cancellation tears down the live tasks below its root. -/
theorem mem_cancellationOrder : u ∈ tasks.cancellationOrder root ↔ tasks.Below root u := by
  obtain ⟨ids, hw, hm, -⟩ := walk_enter hF [root] [] (by simpa using hr) (List.pairwise_singleton _ _)
  have : tasks.cancellationOrder root = ids := by simpa [cancellationOrder, walk] using hw
  rw [this, hm]
  simp

/-- A cancellation tears down each task after everything below it. -/
theorem pairwise_cancellationOrder :
    (tasks.cancellationOrder root).Pairwise fun a b => ¬ tasks.Below a b := by
  obtain ⟨ids, hw, -, hp⟩ := walk_enter hF [root] [] (by simpa using hr) (List.pairwise_singleton _ _)
  have : tasks.cancellationOrder root = ids := by simpa [cancellationOrder, walk] using hw
  rw [this]
  exact hp

theorem nodup_cancellationOrder : (tasks.cancellationOrder root).Nodup := by
  refine List.Pairwise.imp_of_mem ?_ (pairwise_cancellationOrder hF hr)
  rintro a b ha - hab rfl
  exact hab (.root ((mem_cancellationOrder hF hr).1 ha).isLive)

/-- The root is torn down last. -/
theorem cancellationOrder_eq : ∃ pre, tasks.cancellationOrder root = pre ++ [root] ∧
    ∀ u ∈ pre, tasks.Below root u ∧ u ≠ root := by
  have hmem := fun u => mem_cancellationOrder (u := u) hF hr
  have hpair := pairwise_cancellationOrder hF hr
  have hnd := nodup_cancellationOrder hF hr
  obtain ⟨pre, post, hsplit⟩ := List.append_of_mem ((hmem root).2 (.root hr))
  cases post with
  | nil =>
    refine ⟨pre, hsplit, fun u hu => ⟨(hmem u).1 ?_, ?_⟩⟩
    · rw [hsplit]
      exact List.mem_append_left _ hu
    · rintro rfl
      rw [hsplit, List.nodup_append] at hnd
      exact hnd.2.2 u hu u (List.mem_singleton_self u) rfl
  | cons u post =>
    rw [hsplit] at hpair
    have hu : u ∈ tasks.cancellationOrder root := by rw [hsplit]; simp
    exact absurd ((hmem u).1 hu)
      ((List.pairwise_cons.1 (List.pairwise_append.1 hpair).2.1).1 u List.mem_cons_self)

end

end SagaMachine.Tasks
