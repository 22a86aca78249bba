import Mathlib.Data.Finset.Card
import SagaMachine.Proofs.Loops
import SagaMachine.Proofs.Subtrees

/-!
# The cancellation walk is a post-order

A cancellation lists the tasks that it tears down with an explicit stack of visits. Here the
list is compared with the recursion that it stands for: for each live child, in the order of
forks, everything below the child, then the task itself (`Tasks.PostOrder`). Nothing is asked
of the table but that the children of live tasks form a forest (`Tasks.IsForest`); the numbers
of the tasks do not matter.

Two forms of the walk are covered: `Tasks.walk`, which takes out of the table what it has
entered, and the plain loop over a table that stays as it is (`Walk.round`).

Main statement: `Tasks.walk_is_postOrder`.
-/

namespace SagaMachine

namespace Tasks

/-! ## Forests and their post-order -/

/--
The children of live tasks form a forest: nobody is counted twice, nobody has two parents, and
nobody is below a child of its own.
-/
structure IsForest (tasks : Tasks) : Prop where
  nodup : ∀ {t n}, tasks.get? t = some n → n.status.isTerminal = false → n.children.Nodup
  unique : ∀ {t u n m c}, tasks.get? t = some n → n.status.isTerminal = false →
    tasks.get? u = some m → m.status.isTerminal = false → c ∈ n.children → c ∈ m.children →
    tasks.isLive c = true → t = u
  acyclic : ∀ {t n c}, tasks.get? t = some n → n.status.isTerminal = false → c ∈ n.children →
    ¬ tasks.Below c t

/--
The post-order of several tasks: for each of them the post-order of its live children, in the
order they were forked, then the task itself.
-/
inductive PostOrder (tasks : Tasks) : List TaskId → List TaskId → Prop
  | nil : PostOrder tasks [] []
  | cons {t : TaskId} {n : TaskNode} {ts ids ids' : List TaskId} (hn : tasks.get? t = some n)
      (below : PostOrder tasks (n.children.filter fun c => tasks.isLive c) ids)
      (rest : PostOrder tasks ts ids') : PostOrder tasks (t :: ts) (ids ++ t :: ids')

/-- The state of the loop: the visits to be made, the next one first, and the list so far. -/
structure Walk where
  stack : List Visit
  order : List TaskId

/--
One round of the loop, over a table that stays as it is. A task that is entered is to be left
later, and before that its live children are entered: they are pushed from the last to the first.
-/
def Walk.round (tasks : Tasks) (w : Walk) : Option Walk :=
  match w.stack with
  | [] => none
  | .leave id :: stack => some { stack, order := w.order ++ [id] }
  | .enter id :: stack =>
    let children := ((tasks.get? id).map TaskNode.children).getD []
    some { w with
      stack := children.reverse.foldl
        (fun stack c => if tasks.isLive c then .enter c :: stack else stack) (.leave id :: stack) }

variable {tasks : Tasks} {t u v a b c root : TaskId} {n m : TaskNode} {ts ids : List TaskId}

/-! ## Forests -/

/--
Children lists form a forest if every child knows its parent, and a rank grows from parents to
children.
-/
theorem IsForest.of_rank (rank : TaskId → Nat) (above : TaskId → Option TaskId)
    (nodup : ∀ {t n}, tasks.get? t = some n → n.status.isTerminal = false → n.children.Nodup)
    (child : ∀ {t n c}, tasks.get? t = some n → n.status.isTerminal = false → c ∈ n.children →
      tasks.isLive c = true → above c = some t ∧ rank t < rank c) : tasks.IsForest where
  nodup := nodup
  unique hn hl hm hlm hc hcm hlc := by
    have ht := (child hn hl hc hlc).1
    rw [(child hm hlm hcm hlc).1] at ht
    exact (Option.some.inj ht).symm
  acyclic {t n c} hn hl hc hb := by
    have hle : ∀ {x y}, tasks.Below x y → rank x ≤ rank y := by
      intro x y h
      induction h with
      | root => exact Nat.le_refl _
      | child h hv hu hlu ih =>
        obtain ⟨k, hk, hlk⟩ := isLive_iff.1 h.isLive
        rw [hv] at hk
        cases hk
        exact Nat.le_trans ih (Nat.le_of_lt (child hv hlk hu hlu).2)
    exact Nat.not_lt_of_le (hle hb) (child hn hl hc hb.isLive_root).2

namespace IsForest

/-- A task that is not a root below another one has its parent there. -/
theorem exists_parent (h : tasks.Below root u) (hu : u ≠ root) :
    ∃ v n, tasks.Below root v ∧ tasks.get? v = some n ∧ n.status.isTerminal = false ∧
      u ∈ n.children := by
  cases h with
  | root => exact absurd rfl hu
  | child h hv hm _ =>
    obtain ⟨k, hk, hlk⟩ := isLive_iff.1 h.isLive
    rw [hv] at hk
    cases hk
    exact ⟨_, _, h, hv, hlk, hm⟩

/-- Two tasks that have something in common below them are below one another. -/
theorem linear (hF : tasks.IsForest) (ha : tasks.Below a u) (hb : tasks.Below b u) :
    tasks.Below a b ∨ tasks.Below b a := by
  induction ha with
  | root => exact Or.inr hb
  | @child v u n h hv hu hl ih =>
    by_cases hub : u = b
    · subst hub
      exact Or.inl (h.child hv hu hl)
    · obtain ⟨v', n', hb', hv', hl', hu'⟩ := exists_parent hb hub
      obtain ⟨k, hk, hlk⟩ := isLive_iff.1 h.isLive
      rw [hv] at hk
      cases hk
      have hvv := hF.unique hv hlk hv' hl' hu hu' hl
      subst hvv
      exact ih hb'

/-- Two children of one task have nothing in common below them. -/
theorem disjoint (hF : tasks.IsForest) (hn : tasks.get? t = some n)
    (hl : n.status.isTerminal = false) (ha : a ∈ n.children) (hb : b ∈ n.children) (hne : a ≠ b) :
    ¬ tasks.Below a b := by
  intro h
  obtain ⟨v, k, hav, hk, hlk, hbk⟩ := exists_parent h hne.symm
  have hvt := hF.unique hk hlk hn hl hbk hb h.isLive
  subst hvt
  exact hF.acyclic hn hl ha hav

/-- Tasks none of which is below another one. -/
def Apart (tasks : Tasks) (ts : List TaskId) : Prop :=
  ts.Pairwise fun a b => ¬ tasks.Below a b ∧ ¬ tasks.Below b a

theorem apart_children (hF : tasks.IsForest) (hn : tasks.get? t = some n)
    (hl : n.status.isTerminal = false) :
    Apart tasks (n.children.filter fun c => tasks.isLive c) := by
  refine List.Pairwise.imp_of_mem ?_ ((hF.nodup hn hl).filter _)
  intro a b ha hb hne
  have ha := (List.mem_filter.1 ha).1
  have hb := (List.mem_filter.1 hb).1
  exact ⟨hF.disjoint hn hl ha hb hne, hF.disjoint hn hl hb ha hne.symm⟩

/-- In a forest every live task has a post-order: fewer and fewer tasks are left below. -/
theorem exists_postOrder (hF : tasks.IsForest) (hts : ∀ t ∈ ts, tasks.isLive t = true) :
    ∃ ids, tasks.PostOrder ts ids := by
  classical
  have hone : ∀ (k : Nat) (t : TaskId),
      (tasks.keys.toFinset.filter fun u => tasks.Below t u).card = k → tasks.isLive t = true →
      ∃ n ids, tasks.get? t = some n ∧
        tasks.PostOrder (n.children.filter fun c => tasks.isLive c) ids := by
    intro k
    induction k using Nat.strongRecOn with
    | _ k ih =>
    intro t hk hl
    obtain ⟨n, hn, hln⟩ := isLive_iff.1 hl
    -- below a child there are fewer tasks, for its parent is not among them
    have hfewer : ∀ c ∈ n.children, tasks.isLive c = true →
        (tasks.keys.toFinset.filter fun u => tasks.Below c u).card < k := by
      intro c hc hlc
      rw [← hk]
      refine Finset.card_lt_card (Finset.ssubset_iff_of_subset ?_ |>.2 ⟨t, ?_, ?_⟩)
      · intro u hu
        obtain ⟨hu, hb⟩ := Finset.mem_filter.1 hu
        exact Finset.mem_filter.2 ⟨hu, ((Below.root hl).child hn hc hlc).trans hb⟩
      · exact Finset.mem_filter.2 ⟨List.mem_toFinset.2 (Table.mem_keys.2 ⟨n, hn⟩), .root hl⟩
      · exact fun hu => hF.acyclic hn hln hc (Finset.mem_filter.1 hu).2
    have hall : ∀ cs : List TaskId, (∀ c ∈ cs, c ∈ n.children ∧ tasks.isLive c = true) →
        ∃ ids, tasks.PostOrder cs ids := by
      intro cs hcs
      induction cs with
      | nil => exact ⟨[], .nil⟩
      | cons c cs ihcs =>
        obtain ⟨hc, hlc⟩ := hcs c List.mem_cons_self
        obtain ⟨m, ids, hm, hids⟩ := ih _ (hfewer c hc hlc) c rfl hlc
        obtain ⟨ids', hids'⟩ := ihcs fun d hd => hcs d (List.mem_cons_of_mem _ hd)
        exact ⟨_, .cons hm hids hids'⟩
    obtain ⟨ids, hids⟩ := hall _ fun c hc => List.mem_filter.1 hc
    exact ⟨n, ids, hn, hids⟩
  induction ts with
  | nil => exact ⟨[], .nil⟩
  | cons t ts ih =>
    obtain ⟨n, ids, hn, hids⟩ := hone _ t rfl (hts t List.mem_cons_self)
    obtain ⟨ids', hids'⟩ := ih fun u hu => hts u (List.mem_cons_of_mem _ hu)
    exact ⟨_, .cons hn hids hids'⟩

end IsForest

/-! ## What a post-order lists -/

namespace PostOrder

open IsForest (Apart)

/-- The recursion gives one list. -/
theorem unique {ids' : List TaskId} (h : tasks.PostOrder ts ids) (h' : tasks.PostOrder ts ids') :
    ids = ids' := by
  induction h generalizing ids' with
  | nil =>
    cases h'
    rfl
  | cons hn _ _ ih ihr =>
    cases h' with
    | cons hn' below' rest' =>
      rw [hn] at hn'
      cases hn'
      rw [ih below', ihr rest']

/-- What is listed is what is below the tasks. -/
theorem mem_iff (h : tasks.PostOrder ts ids) (hts : ∀ t ∈ ts, tasks.isLive t = true) :
    u ∈ ids ↔ ∃ t ∈ ts, tasks.Below t u := by
  induction h with
  | nil => simp
  | @cons t n ts ids ids' hn _ _ ih ihr =>
    have hl : tasks.isLive t = true := hts t List.mem_cons_self
    have hkids : ∀ c ∈ n.children.filter fun c => tasks.isLive c, tasks.isLive c = true :=
      fun c hc => (List.mem_filter.1 hc).2
    rw [List.mem_append, List.mem_cons, ih hkids,
      ihr fun u hu => hts u (List.mem_cons_of_mem _ hu)]
    constructor
    · rintro (⟨c, hc, hb⟩ | rfl | ⟨d, hd, hb⟩)
      · obtain ⟨hc, hlc⟩ := List.mem_filter.1 hc
        exact ⟨t, List.mem_cons_self, ((Below.root hl).child hn hc hlc).trans hb⟩
      · exact ⟨u, List.mem_cons_self, .root hl⟩
      · exact ⟨d, List.mem_cons_of_mem _ hd, hb⟩
    · rintro ⟨d, hd, hb⟩
      rcases List.mem_cons.1 hd with rfl | hd
      · rcases hb.eq_or_child with rfl | ⟨n', c, hn', hc, hlc, hb⟩
        · exact Or.inr (Or.inl rfl)
        · rw [hn] at hn'
          cases hn'
          exact Or.inl ⟨c, List.mem_filter.2 ⟨hc, hlc⟩, hb⟩
      · exact Or.inr (Or.inr ⟨d, hd, hb⟩)

/-- In a forest every task is listed after what is below it. -/
theorem pairwise (h : tasks.PostOrder ts ids) (hF : tasks.IsForest)
    (hts : ∀ t ∈ ts, tasks.isLive t = true) (hap : Apart tasks ts) :
    ids.Pairwise fun a b => ¬ tasks.Below a b := by
  induction h with
  | nil => exact .nil
  | @cons t n ts ids ids' hn below rest ih ihr =>
    have hl : tasks.isLive t = true := hts t List.mem_cons_self
    obtain ⟨k, hk, hln⟩ := isLive_iff.1 hl
    rw [hn] at hk
    cases hk
    obtain ⟨ht, hap⟩ := List.pairwise_cons.1 hap
    have hrest : ∀ u ∈ ts, tasks.isLive u = true := fun u hu => hts u (List.mem_cons_of_mem _ hu)
    have hkids : ∀ c ∈ n.children.filter fun c => tasks.isLive c, tasks.isLive c = true :=
      fun c hc => (List.mem_filter.1 hc).2
    -- nothing is both below the first task and below another one
    have hno : ∀ {x}, tasks.Below t x → x ∉ ids' := by
      intro x hx hmem
      obtain ⟨d, hd, hb⟩ := (rest.mem_iff hrest).1 hmem
      rcases hF.linear hx hb with h | h
      · exact (ht d hd).1 h
      · exact (ht d hd).2 h
    have hin : ∀ {x}, x ∈ ids → ∃ c ∈ n.children, tasks.isLive c = true ∧ tasks.Below c x := by
      intro x hx
      obtain ⟨c, hc, hb⟩ := (below.mem_iff hkids).1 hx
      obtain ⟨hc, hlc⟩ := List.mem_filter.1 hc
      exact ⟨c, hc, hlc, hb⟩
    refine List.pairwise_append.2 ⟨ih hkids (hF.apart_children hn hln),
      List.pairwise_cons.2 ⟨fun b hb h => hno h hb, ihr hrest hap⟩, ?_⟩
    intro x hx y hy hxy
    obtain ⟨c, hc, hlc, hb⟩ := hin hx
    rcases List.mem_cons.1 hy with rfl | hy
    · exact hF.acyclic hn hln hc (hb.trans hxy)
    · exact hno (((Below.root hl).child hn hc hlc).trans (hb.trans hxy)) hy

/-- In a forest every task is listed once. -/
theorem nodup (h : tasks.PostOrder ts ids) (hF : tasks.IsForest)
    (hts : ∀ t ∈ ts, tasks.isLive t = true) (hap : Apart tasks ts) : ids.Nodup := by
  refine List.Pairwise.imp_of_mem ?_ (h.pairwise hF hts hap)
  rintro a b ha - hab rfl
  obtain ⟨t, -, hb⟩ := (h.mem_iff hts).1 ha
  exact hab (.root hb.isLive)

/-! ## The two forms of the walk -/

theorem push_children (cs : List TaskId) (stack : List Visit) :
    cs.reverse.foldl (fun stack c => if tasks.isLive c then .enter c :: stack else stack) stack =
      (cs.filter fun c => tasks.isLive c).map .enter ++ stack := by
  rw [List.foldl_reverse]
  induction cs with
  | nil => rfl
  | cons c cs ih =>
    rw [List.foldr_cons, ih, List.filter_cons]
    split <;> rfl

/-- The loop over a fixed table lists a post-order: every task is entered once and left once. -/
theorem rounds (h : tasks.PostOrder ts ids) (stack : List Visit) (order : List TaskId) :
    Loop.Rounds (Walk.round tasks) (2 * ids.length) ⟨ts.map .enter ++ stack, order⟩
      ⟨stack, order ++ ids⟩ := by
  induction h generalizing stack order with
  | nil =>
    rw [List.append_nil]
    exact .none _
  | @cons t n ts ids ids' hn _ _ ih ihr =>
    have hlen : 2 * (ids ++ t :: ids').length = (2 * ids.length + (2 * ids'.length + 1)) + 1 := by
      rw [List.length_append, List.length_cons]
      omega
    rw [hlen]
    have henter : Walk.round tasks ⟨(t :: ts).map .enter ++ stack, order⟩ =
        some ⟨(n.children.filter fun c => tasks.isLive c).map .enter ++
          .leave t :: (ts.map .enter ++ stack), order⟩ := by
      simp only [List.map_cons, List.cons_append, Walk.round, hn, Option.map_some, Option.getD_some,
        push_children]
    have hleave : Walk.round tasks ⟨.leave t :: (ts.map .enter ++ stack), order ++ ids⟩ =
        some ⟨ts.map .enter ++ stack, order ++ ids ++ [t]⟩ := rfl
    have hrest := ihr stack (order ++ ids ++ [t])
    have horder : order ++ ids ++ [t] ++ ids' = order ++ (ids ++ t :: ids') := by
      simp only [List.append_assoc, List.singleton_append]
    rw [horder] at hrest
    exact .one henter ((ih _ order).trans (.one hleave hrest))

/-- A table without tasks that are not listed has the same live children of those that are. -/
theorem filter_dropAll {D : List TaskId} {cs : List TaskId}
    (h : ∀ c ∈ cs, tasks.isLive c = true → c ∉ D) :
    cs.filter (fun c => (tasks.dropAll D).isLive c) = cs.filter fun c => tasks.isLive c := by
  refine List.filter_congr fun c hc => ?_
  rw [Bool.eq_iff_iff, isLive_dropAll]
  exact ⟨fun h' => h'.2, fun hl => ⟨h c hc hl, hl⟩⟩

theorem subset (h : tasks.PostOrder ts ids) : ts ⊆ ids := by
  induction h with
  | nil => exact List.Subset.refl _
  | cons _ _ _ _ ihr =>
    intro u hu
    rcases List.mem_cons.1 hu with rfl | hu
    · exact List.mem_append_right _ List.mem_cons_self
    · exact List.mem_append_right _ (List.mem_cons_of_mem _ (ihr hu))

/-- The walk that takes out what it has entered lists a post-order without repetitions. -/
theorem walk_eq (h : tasks.PostOrder ts ids) (hnd : ids.Nodup) (D : List TaskId)
    (hD : ∀ u ∈ D, u ∉ ids) (visits : List Visit) :
    walk (tasks.dropAll D) (ts.map .enter ++ visits) =
      ids ++ walk (tasks.dropAll (D ++ ids)) visits := by
  induction h generalizing D visits with
  | nil => rw [List.append_nil]; rfl
  | @cons t n ts ids ids' hn below _ ih ihr =>
    obtain ⟨hnd₁, hnd₂, hdis⟩ := List.nodup_append.1 hnd
    obtain ⟨ht, hnd₂⟩ := List.nodup_cons.1 hnd₂
    have hD₁ : ∀ u ∈ D, u ∉ ids := fun u hu h => hD u hu (List.mem_append_left _ h)
    have htD : t ∉ D := fun h => hD t h (List.mem_append_right _ List.mem_cons_self)
    have ht₁ : t ∉ ids := fun h => hdis t h t List.mem_cons_self rfl
    have hkids : n.children.filter (fun c => (tasks.dropAll D).isLive c) =
        n.children.filter fun c => tasks.isLive c :=
      filter_dropAll fun c hc hl hcD =>
        hD₁ c hcD (below.subset (List.mem_filter.2 ⟨hc, hl⟩))
    -- the children in a table without their parent, then the other tasks in one without all these
    have h₁ := ih hnd₁ (D ++ [t]) (by
      intro u hu
      rcases List.mem_append.1 hu with hu | hu
      · exact hD₁ u hu
      · rwa [List.mem_singleton.1 hu]) (.leave t :: (ts.map .enter ++ visits))
    have h₂ := ihr hnd₂ (D ++ [t] ++ ids) (by
      intro u hu hu'
      rcases List.mem_append.1 hu with hu | hu
      · rcases List.mem_append.1 hu with hu | hu
        · exact hD u hu (List.mem_append_right _ (List.mem_cons_of_mem _ hu'))
        · exact ht (List.mem_singleton.1 hu ▸ hu')
      · exact hdis u hu u (List.mem_cons_of_mem _ hu') rfl) visits
    have hdrop : tasks.dropAll (D ++ [t] ++ ids ++ ids') = tasks.dropAll (D ++ (ids ++ t :: ids')) := by
      simp only [dropAll]
      congr 2
      funext e
      simp [or_left_comm]
    rw [List.map_cons, List.cons_append, walk]
    split
    · rename_i hn'
      rw [get?_dropAll, if_neg htD, hn] at hn'
      cases hn'
    · rename_i n' hn'
      rw [get?_dropAll, if_neg htD, hn] at hn'
      cases hn'
      rw [hkids, erase_eq_dropAll, dropAll_dropAll, h₁, walk, h₂, hdrop, List.append_assoc,
        List.cons_append]

/-- A cancellation lists the post-order. -/
theorem listed (h : tasks.PostOrder [root] ids) (hnd : ids.Nodup) :
    tasks.cancellationOrder root = ids := by
  have := h.walk_eq hnd [] (fun u hu => nomatch hu) []
  rw [dropAll_nil] at this
  simpa [cancellationOrder, walk] using this

end PostOrder

/-- Where the children of live tasks form a forest, the loop of a cancellation ends. -/
theorem IsForest.walk_ends (hF : tasks.IsForest) (hr : tasks.isLive root = true) :
    Loop.Ends (Walk.round tasks) (2 * (tasks.cancellationOrder root).length) ⟨[.enter root], []⟩
      ⟨[], tasks.cancellationOrder root⟩ := by
  have hlive : ∀ t ∈ [root], tasks.isLive t = true := by simpa using hr
  obtain ⟨order, hord⟩ := hF.exists_postOrder hlive
  rw [hord.listed (hord.nodup hF hlive (List.pairwise_singleton _ _))]
  exact ⟨by simpa using hord.rounds [] [], rfl⟩

/--
Where the children of live tasks form a forest, what a cancellation lists is the post-order of
the live subtree, and the loop over the table as it is lists the same: it enters and leaves
every task once. The list has the live tasks below the root, reached through live tasks only,
each of them once and after all that are below it. A detached task is listed only as the root,
if only attached tasks are counted as children.
-/
theorem walk_is_postOrder (hF : tasks.IsForest) (hr : tasks.isLive root = true) :
    ∃ order, (∀ ids, tasks.PostOrder [root] ids ↔ ids = order) ∧
      tasks.cancellationOrder root = order ∧
      Loop.Ends (Walk.round tasks) (2 * order.length) ⟨[.enter root], []⟩ ⟨[], order⟩ ∧
      (∀ u, u ∈ order ↔ tasks.Below root u) ∧
      order.Nodup ∧ order.Pairwise (fun a b => ¬ tasks.Below a b) ∧
      ((∀ t n c m, tasks.get? t = some n → c ∈ n.children → tasks.get? c = some m →
        m.detached = false) →
        ∀ u ∈ order, u ≠ root → ∃ m, tasks.get? u = some m ∧ m.detached = false) := by
  have hlive : ∀ t ∈ [root], tasks.isLive t = true := by simpa using hr
  obtain ⟨order, hord⟩ := hF.exists_postOrder hlive
  have hap : IsForest.Apart tasks [root] := List.pairwise_singleton _ _
  have hnd := hord.nodup hF hlive hap
  have hmem : ∀ u, u ∈ order ↔ tasks.Below root u := fun u => by
    rw [hord.mem_iff hlive]
    simp
  refine ⟨order, ?_, ?_, ⟨?_, rfl⟩, hmem, hnd, hord.pairwise hF hlive hap, ?_⟩
  · intro ids
    exact ⟨fun h => h.unique hord, fun h => h ▸ hord⟩
  · exact hord.listed hnd
  · simpa using hord.rounds [] []
  · intro hatt u hu hne
    obtain ⟨v, n, -, hn, -, hun⟩ := IsForest.exists_parent ((hmem u).1 hu) hne
    obtain ⟨m, hm, -⟩ := isLive_iff.1 ((hmem u).1 hu).isLive
    exact ⟨m, hm, hatt v n u m hn hun hm⟩

/--
A tree whose tasks are not numbered from the top: task 5 counts 2, 9 and 7 among its children,
2 counts 1 and 8. Task 9 is cancelled and still counts 3, and 4 is detached from 5.
-/
def skewed : Tasks :=
  let node (parent : Option TaskId) (children : List TaskId) : TaskNode :=
    { name := "task", parent, detached := false, children, status := .suspended, body := none }
  ⟨[(1, node (some 2) []), (2, node (some 5) [1, 8]), (3, node (some 9) []),
    (4, { node (some 5) [] with detached := true }), (5, node none [2, 9, 7]), (7, node (some 5) []),
    (8, node (some 2) []), (9, { node (some 5) [3] with status := .cancelled })]⟩

theorem walk_is_postOrder_skewed : skewed.IsForest ∧ skewed.isLive 5 = true ∧
    ∃ order, order = [1, 8, 2, 7, 5] ∧ (∀ ids, skewed.PostOrder [5] ids ↔ ids = order) ∧
      skewed.cancellationOrder 5 = order ∧
      Loop.Ends (Walk.round skewed) 10 ⟨[.enter 5], []⟩ ⟨[], order⟩ := by
  let rank (t : TaskId) : Nat := if t = 5 then 0 else if t ∈ [2, 7, 9] then 1 else 2
  have hall : ∀ e ∈ skewed.entries, e.2.children.Nodup ∧ ∀ c ∈ e.2.children,
      (skewed.get? c).bind TaskNode.parent = some e.1 ∧ rank e.1 < rank c := by
    decide
  have hmem : ∀ {t n}, skewed.get? t = some n → (t, n) ∈ skewed.entries :=
    (Table.mem_entries (by decide)).2
  have hF : skewed.IsForest := .of_rank rank (fun c => (skewed.get? c).bind TaskNode.parent)
    (fun hn _ => (hall _ (hmem hn)).1) fun hn _ hc _ => (hall _ (hmem hn)).2 _ hc
  have hr : skewed.isLive 5 = true := rfl
  have leaf : ∀ {t n ts ids}, skewed.get? t = some n →
      (n.children.filter fun c => skewed.isLive c) = [] → skewed.PostOrder ts ids →
        skewed.PostOrder (t :: ts) ([] ++ t :: ids) := by
    intro t n ts ids hn hcs h
    refine .cons hn ?_ h
    rw [hcs]
    exact .nil
  have height : skewed.PostOrder [1, 8] [1, 8] := leaf rfl rfl (leaf rfl rfl .nil)
  have htwo : skewed.PostOrder [2, 7] ([1, 8] ++ 2 :: [7]) := .cons rfl height (leaf rfl rfl .nil)
  have hfive : skewed.PostOrder [5] ([1, 8, 2, 7] ++ [5]) := .cons rfl htwo .nil
  obtain ⟨order, hord, hwalk, hloop, -⟩ := walk_is_postOrder hF hr
  obtain rfl := (hord _).1 hfive
  exact ⟨hF, hr, _, rfl, hord, hwalk, hloop⟩

end Tasks

end SagaMachine
