import SagaMachine.Proofs.Cancellations

/-!
# Clearances

A piece of teardown clears a set of tasks: their bodies are dropped, their outcomes are
recorded, descendants first, and they leave the table, while all other tasks are as they were
(`World.Clears`). Clearances of one set after the other add up to one (`World.Clears.trans`),
and whatever was assumed of the bodies holds of those that are left.

Main definitions: `World.Harmless`, `World.Clears`.
-/

namespace SagaMachine

/-! ## Subtrees across a teardown -/

namespace Engine.Fells

variable {opened : TaskId → Prop} {ms : List Event} {ns : List (EffectId × Outcome)}
  {e e' : Engine} {x y u : TaskId}

theorem isLive_old (h : Engine.Fells opened ms ns e e') (hl : e'.tasks.isLive u = true) :
    e.tasks.isLive u = true := by
  obtain ⟨n', hn', hl⟩ := Tasks.isLive_iff.1 hl
  obtain ⟨n, hn, hout⟩ := h.exists_old hn'
  exact Tasks.isLive_iff.2 ⟨n, hn, hout.live hl⟩

theorem isLive_kept (h : Engine.Fells opened ms ns e e') (hl : e.tasks.isLive u = true)
    (ho : ¬ opened u) (hu : u ∉ finishedIn ms) : e'.tasks.isLive u = true := by
  obtain ⟨n, hn, hl⟩ := Tasks.isLive_iff.1 hl
  obtain ⟨n', hn', hout⟩ := h.kept hn hu
  exact Tasks.isLive_iff.2 ⟨n', hn', (hout.alike ho).1 ▸ hl⟩

theorem below_old (h : Engine.Fells opened ms ns e e') (hb : e'.tasks.Below x y) :
    e.tasks.Below x y := by
  induction hb with
  | root hl => exact .root (h.isLive_old hl)
  | child hb hv hu hl ih =>
    obtain ⟨n, hn, hout⟩ := h.exists_old hv
    obtain ⟨m, hm, hlm⟩ := Tasks.isLive_iff.1 hb.isLive
    rw [hv] at hm
    cases hm
    rw [hout.children hlm] at hu
    exact ih.child hn (List.mem_filter.1 hu).1 (h.isLive_old hl)

/-- A task stays below another one if nothing in between was opened up. -/
theorem below_kept (h : Engine.Fells opened ms ns e e') (hb : e.tasks.Below x y)
    (hpath : ∀ v, e.tasks.Below x v → e.tasks.Below v y → ¬ opened v ∧ v ∉ finishedIn ms) :
    e'.tasks.Below x y := by
  induction hb with
  | root hl =>
    obtain ⟨ho, hx⟩ := hpath x (.root hl) (.root hl)
    exact .root (h.isLive_kept hl ho hx)
  | child hb hv hu hl ih =>
    rename_i v u n
    have ihv := ih fun a hxa hav => hpath a hxa (hav.child hv hu hl)
    obtain ⟨hov, hfv⟩ := hpath v hb ((Tasks.Below.root hb.isLive).child hv hu hl)
    obtain ⟨hou, hfu⟩ := hpath u (hb.child hv hu hl) (.root hl)
    obtain ⟨n', hn', hout⟩ := h.kept hv hfv
    obtain ⟨m, hm, hlm⟩ := Tasks.isLive_iff.1 ihv.isLive
    rw [hn'] at hm
    cases hm
    refine ihv.child hn' ?_ (h.isLive_kept hl hou hfu)
    rw [hout.children hlm]
    exact List.mem_filter.2 ⟨hu, by simpa using hfu⟩

end Engine.Fells

/-! ## Harmless destructors -/

/--
The destructors of all bodies of a middleware do nothing to it, and the budget allows for all of
them, with at most `cost t` for task `t`.
-/
structure World.Harmless (i : MiddlewareId) (cost : TaskId → Nat) (w : World) : Prop where
  bodies : ∀ {t n b}, w.task? i t = some n → n.body = some b → b.HarmlessTo i (cost t)
  budget : ∀ ts : List TaskId, ts.Nodup → (∀ t ∈ ts, ∃ n, w.task? i t = some n) →
    (ts.map cost).sum ≤ w.budget

theorem World.harmless_of_guardsIdle {w : World} {i : MiddlewareId} (h : w.guardsIdle i = true) :
    w.Harmless i fun _ => 0 where
  bodies hn hb := harmlessTo_of_guardsIdle h hn hb
  budget _ _ _ := by simp

/-! ## Sets of tasks that are cleared -/

/--
A set of tasks is cleared: the milestones are `ms`, and every outcome is as `R` says. With a
task all tasks below it are cleared, and before it.
-/
structure World.Clears (i : MiddlewareId) (cost : TaskId → Nat) (S : TaskId → Prop)
    (R : TaskId → Outcome → Prop) (ms : List Event) (w w' : World) : Prop where
  fells : w.Fells i S ms w'
  gone : ∀ {u}, u ∈ finishedIn ms ↔ S u
  outcome : ∀ {u o}, .taskFinished u o ∈ ms → R u o
  closed : ∀ {x y}, S x → (w.engine i).tasks.Below x y → S y
  nodup : (finishedIn ms).Nodup
  order : (finishedIn ms).Pairwise fun a d => ¬ (w.engine i).tasks.Below a d
  spent : w.budget ≤ w'.budget + ((finishedIn ms).map cost).sum

namespace World.Clears

variable {i : MiddlewareId} {cost : TaskId → Nat} {S S' : TaskId → Prop}
  {R R' : TaskId → Outcome → Prop} {ms ms' : List Event} {w w' w'' : World} {t u x y : TaskId}
  {n : TaskNode}

theorem refl (i : MiddlewareId) (w : World) : w.Clears i cost (fun _ => False) R [] w where
  fells := .refl i w
  gone := by simp [finishedIn]
  outcome h := by cases h
  closed h := h.elim
  nodup := List.nodup_nil
  order := .nil
  spent := Nat.le_add_right _ _

theorem mono (h : w.Clears i cost S R ms w') (hS : ∀ u, S u ↔ S' u)
    (hR : ∀ u o, S u → R u o → R' u o) : w.Clears i cost S' R' ms w' where
  fells := h.fells.mono fun u => (hS u).1
  gone := h.gone.trans (hS _)
  outcome ho := hR _ _ (h.gone.1 (mem_finishedIn.2 ⟨_, ho⟩)) (h.outcome ho)
  closed hx hb := (hS _).1 (h.closed ((hS _).2 hx) hb)
  nodup := h.nodup
  order := h.order
  spent := h.spent

/-- What is not cleared is as it was. -/
theorem task_kept (h : w.Clears i cost S R ms w') (hn : w.task? i u = some n) (hu : ¬ S u) :
    ∃ n', w'.task? i u = some n' ∧ n'.name = n.name ∧ n'.parent = n.parent ∧
      n'.detached = n.detached ∧ n'.status = n.status ∧ n'.body = n.body ∧ n'.result = n.result := by
  obtain ⟨n', hn', hout⟩ := h.fells.kept hn fun hf => hu (h.gone.1 hf)
  obtain ⟨h1, h2, -, h4⟩ := hout.alike hu
  exact ⟨n', hn', hout.name, hout.parent, hout.detached, h1, h2, h4⟩

/-- Where a task that is left comes from. -/
theorem task_old (h : w.Clears i cost S R ms w') {n' : TaskNode} (hn : w'.task? i u = some n') :
    ¬ S u ∧ ∃ n, w.task? i u = some n ∧ n'.parent = n.parent ∧ n'.detached = n.detached ∧
      n'.status = n.status ∧ n'.body = n.body := by
  obtain ⟨n, hn', hfin, hout⟩ := h.fells.exists_old hn
  have hu : ¬ S u := fun hs => hfin (h.gone.2 hs)
  obtain ⟨h1, h2, -⟩ := hout.alike hu
  exact ⟨hu, n, hn', hout.parent, hout.detached, h1, h2⟩

theorem below_iff (h : w.Clears i cost S R ms w') :
    (w'.engine i).tasks.Below x y ↔ (w.engine i).tasks.Below x y ∧ ¬ S y := by
  obtain ⟨ns, he⟩ := h.fells.engine
  constructor
  · intro hb
    obtain ⟨n, hn, -⟩ := Tasks.isLive_iff.1 hb.isLive
    exact ⟨he.below_old hb, (h.task_old hn).1⟩
  · rintro ⟨hb, hy⟩
    refine he.below_kept hb fun v _ hvy => ?_
    have hv : ¬ S v := fun hs => hy (h.closed hs hvy)
    exact ⟨hv, fun hf => hv (h.gone.1 hf)⟩

theorem harmless (h : w.Clears i cost S R ms w') (hw : w.Harmless i cost) :
    w'.Harmless i cost where
  bodies hn hb := by
    obtain ⟨-, n, hn', -, -, -, hbody⟩ := h.task_old hn
    exact hw.bodies hn' (hbody ▸ hb)
  budget ts hnd hts := by
    have hall := hw.budget (ts ++ finishedIn ms) ?_ ?_
    · rw [List.map_append, List.sum_append] at hall
      have := h.spent
      omega
    · refine List.nodup_append.2 ⟨hnd, h.nodup, ?_⟩
      rintro t ht _ ht' rfl
      obtain ⟨n, hn⟩ := hts t ht
      exact (h.task_old hn).1 (h.gone.1 ht')
    · intro t ht
      rcases List.mem_append.1 ht with ht | ht
      · obtain ⟨n, hn⟩ := hts t ht
        obtain ⟨-, n', hn', -⟩ := h.task_old hn
        exact ⟨n', hn'⟩
      · exact h.fells.exists_task ht

theorem trans (h : w.Clears i cost S R ms w') (h' : w'.Clears i cost S' R ms' w'') :
    w.Clears i cost (fun u => S u ∨ S' u) R (ms ++ ms') w'' where
  fells := h.fells.trans h'.fells
  gone := by simp only [finishedIn_append, List.mem_append, h.gone, h'.gone, implies_true]
  outcome ho := (List.mem_append.1 ho).elim h.outcome h'.outcome
  closed {x y} hx hb := by
    by_cases hy : S y
    · exact Or.inl hy
    · exact Or.inr (h'.closed (hx.resolve_left fun hs => hy (h.closed hs hb)) (h.below_iff.2 ⟨hb, hy⟩))
  nodup := by
    rw [finishedIn_append]
    refine List.nodup_append.2 ⟨h.nodup, h'.nodup, ?_⟩
    rintro t ht _ ht' rfl
    obtain ⟨n, hn⟩ := h'.fells.exists_task ht'
    exact (h.task_old hn).1 (h.gone.1 ht)
  order := by
    have hnot : ∀ {d}, d ∈ finishedIn ms' → ¬ S d := by
      intro d hd
      obtain ⟨n, hn⟩ := h'.fells.exists_task hd
      exact (h.task_old hn).1
    rw [finishedIn_append]
    refine List.pairwise_append.2 ⟨h.order, ?_, ?_⟩
    · exact h'.order.imp_of_mem fun _ hd hno hb => hno (h.below_iff.2 ⟨hb, hnot hd⟩)
    · intro a ha d hd hb
      exact hnot hd (h.closed (h.gone.1 ha) hb)
  spent := by
    have := h.spent
    have := h'.spent
    rw [finishedIn_append, List.map_append, List.sum_append]
    omega

end World.Clears

/-! ## Cancellations that clear -/

/-- An event reports a failure that nobody caught. -/
def Event.isUncaught : Event → Bool
  | .uncaught .. => true
  | _ => false

section

variable {i : MiddlewareId} {cost : TaskId → Nat} {w : World} {t u : TaskId} {n : TaskNode}
  {s : Scenario} {todo : List Instr}

theorem World.finishedIn_demise (hn : w.task? i t = some n) (hc : (w.engine i).current ≠ some t) :
    finishedIn (w.demise i t) = [t] := by
  simp only [demise, hn, finishedIn_append, finishedIn_bodyEvents, hc, if_false]
  rfl

theorem World.not_isUncaught_of_mem_demise {e : Event} (h : e ∈ w.demise i t) :
    e.isUncaught = false := by
  rcases demise_cases h with rfl | ⟨rfl, -⟩ <;> rfl

namespace Scenario.Visits

/-- A live task whose parent is not live is cancelled while no step is under way. -/
theorem cancel_clears (h : s.Visits ⟨.cancel i t :: todo, w⟩) (hl : (w.core i).Live t)
    (hw : w.Harmless i cost) (hcur : (w.engine i).current = none)
    (htop : ∀ n q, w.task? i t = some n → n.parent = some q → ¬ (w.core i).Live q) :
    ∃ (w' : World) (ms : List Event), Config.Leads ⟨.cancel i t :: todo, w⟩ ⟨todo, w'⟩ ∧
      w.Clears i cost ((w.engine i).tasks.Below t) (fun _ o => o = .cancelled) ms w' ∧
      ms.filter Event.isUncaught = [] := by
  have hg := h.grounds rfl (World.has_of_live hl)
  have hF := hg.family
  have hlive := World.live_iff.2 hl
  have hmem := fun u => Tasks.mem_cancellationOrder (u := u) hF hlive
  have hnd := Tasks.nodup_cancellationOrder hF hlive
  have htask : ∀ u ∈ (w.engine i).tasks.cancellationOrder t, ∃ n, w.task? i u = some n := by
    intro u hu
    obtain ⟨n, hn, -⟩ := Tasks.isLive_iff.1 ((hmem u).1 hu).isLive
    exact ⟨n, hn⟩
  have hne : ∀ u, (w.engine i).current ≠ some u := fun u => by rw [hcur]; exact nofun
  obtain ⟨w', chain, hlead, hf, hspent, hchain, -⟩ := h.cancel_leads hl
    (fun u n b _ hn hb => hw.bodies hn hb) (hw.budget _ hnd htask)
  -- nobody waits for this child alone
  obtain rfl : chain = [] := by
    cases hchain (hne t) with
    | stop => rfl
    | climb hlast _ =>
      obtain ⟨n, m, hn, hp, -, hm, hlm, -⟩ := hlast
      exact absurd (World.live_iff.1 (Tasks.isLive_iff.2 ⟨m, hm, hlm⟩)) (htop n _ hn hp)
  rw [List.map_nil, List.append_nil] at hf
  have hfin : finishedIn (((w.engine i).tasks.cancellationOrder t).flatMap (w.demise i)) =
      (w.engine i).tasks.cancellationOrder t := by
    rw [finishedIn, List.filterMap_flatMap]
    calc _ = ((w.engine i).tasks.cancellationOrder t).flatMap ([·]) := by
          refine List.flatMap_congr fun u hu => ?_
          obtain ⟨n, hn⟩ := htask u hu
          exact World.finishedIn_demise hn (hne u)
      _ = _ := List.flatMap_singleton' _
  refine ⟨w', _, hlead, ⟨hf.mono fun u hu => hu.resolve_right (by simp), ?_, ?_, fun hx hb => hx.trans hb,
    ?_, ?_, ?_⟩, ?_⟩
  · rw [hfin]
    exact hmem _
  · intro u o ho
    obtain ⟨v, -, hv⟩ := List.mem_flatMap.1 ho
    exact World.eq_cancelled_of_mem_demise hv
  · rwa [hfin]
  · rw [hfin]
    exact Tasks.pairwise_cancellationOrder hF hlive
  · rwa [hfin]
  · refine List.filter_eq_nil_iff.2 fun e he => ?_
    obtain ⟨v, -, hv⟩ := List.mem_flatMap.1 he
    simp [World.not_isUncaught_of_mem_demise hv]

/-- Children of a task that is not live any more are cancelled, one after the other. -/
theorem cancelChildren_clears {cs : List TaskId}
    (h : s.Visits ⟨cs.map (.cancel i) ++ todo, w⟩) (hi : w.Has i) (hw : w.Harmless i cost)
    (hcur : (w.engine i).current = none)
    (hcs : cs.Pairwise fun c c' => ∀ u, (w.engine i).tasks.Below c u →
      ¬ (w.engine i).tasks.Below c' u)
    (hin : ∀ c ∈ cs, (w.core i).Live c ∧
      ∀ n q, w.task? i c = some n → n.parent = some q → ¬ (w.core i).Live q) :
    ∃ (w' : World) (ms : List Event), Config.Leads ⟨cs.map (.cancel i) ++ todo, w⟩ ⟨todo, w'⟩ ∧
      w.Clears i cost (fun u => ∃ c ∈ cs, (w.engine i).tasks.Below c u) (fun _ o => o = .cancelled)
        ms w' ∧ ms.filter Event.isUncaught = [] := by
  induction cs generalizing w with
  | nil => exact ⟨w, [], .refl _, (World.Clears.refl (R := fun _ o => o = .cancelled) i w).mono (by simp) (by simp), rfl⟩
  | cons c cs ih =>
    obtain ⟨hc, hcs⟩ := List.pairwise_cons.1 hcs
    obtain ⟨hlc, htop⟩ := hin c List.mem_cons_self
    obtain ⟨w₁, ms₁, hl₁, hcl₁, hun₁⟩ := h.cancel_clears hlc hw hcur htop
    obtain ⟨ns, he⟩ := hcl₁.fells.engine
    have hapart : ∀ c' ∈ cs, ∀ {u}, (w.engine i).tasks.Below c' u → ¬ (w.engine i).tasks.Below c u :=
      fun c' hc' u hu hcu => hc c' hc' u hcu hu
    obtain ⟨w₂, ms₂, hl₂, hcl₂, hun₂⟩ := ih (h.leads hl₁) (hcl₁.fells.has hi) (hcl₁.harmless hw)
      (he.current.trans hcur)
      (hcs.imp fun hab u hu hu' => hab u (hcl₁.below_iff.1 hu).1 (hcl₁.below_iff.1 hu').1)
      (fun c' hc' => by
        obtain ⟨hlc', htop'⟩ := hin c' (List.mem_cons_of_mem _ hc')
        refine ⟨?_, fun n q hn hq hlq => ?_⟩
        · have hb : (w.engine i).tasks.Below c' c' := .root (World.live_iff.2 hlc')
          exact World.live_iff.1 (hcl₁.below_iff.2 ⟨hb, hapart c' hc' hb⟩).isLive
        · obtain ⟨-, n₀, hn₀, hp, -⟩ := hcl₁.task_old hn
          exact htop' n₀ q hn₀ (hp ▸ hq) (hcl₁.fells.live hlq))
    refine ⟨w₂, ms₁ ++ ms₂, hl₁.trans hl₂, (hcl₁.trans hcl₂).mono (fun u => ?_) fun u o _ ho => ho, ?_⟩
    · simp only [hcl₁.below_iff, List.mem_cons, exists_eq_or_imp]
      refine or_congr_right ⟨?_, ?_⟩
      · rintro ⟨c', hc', hb, -⟩
        exact ⟨c', hc', hb⟩
      · rintro ⟨c', hc', hb⟩
        exact ⟨c', hc', hb, hapart c' hc' hb⟩
    · rw [List.filter_append, hun₁, hun₂]
      rfl

end Scenario.Visits

end

end SagaMachine
